import CallByNeed.Proofs.Bundles.Arriving

/- Two engines in lockstep. Where plain cells are at work, a step of one engine is a step of the
   other; where strung lists are, both go on by themselves until they come to the same piece. -/
namespace CallByNeed
open Relation (ReflTransGen)

/-- What a known cell of a list says about the pieces of it. -/
def LazyList.pieces : LazyList → List Piece
  | .nil => []
  | .cons head tail => [.element head, .list tail true]

/-- A list, or what cannot be taken for something else. -/
inductive Value.Listed : Value → Prop where
  | list (l : LazyList) : Listed (.list l)
  | error (e : Fault) : Listed (.error e)
  | effect (action : Ref) : Listed (.effect action)

/-- Those of these cells that have a value are lists, or they fail. -/
def Heap.KeepsLists (h : Heap) (L : Set Ref) : Prop := ∀ r ∈ L, ∀ v, h.Yields r v → v.Listed

/-- The fault of whoever needs a list and gets this value. -/
def Value.refusal (site : Option Location) : Value → Fault
  | .error e => e
  | .effect _ => ({ cause := .impure } : Fault).through? site
  | v => { cause := .notList v.type }

theorem Heap.KeepsLists.earlier {h h' : Heap} {L : Set Ref} (lists : h'.KeepsLists L) (before : h.Before h') :
    h.KeepsLists L :=
  fun r mem v yields => lists r mem v (before.yields yields)

/-! ### One side -/

section
variable {E : Engine} {m : Keepers} {s : Store} {r k cell child : Ref} {pieces : List Piece}
variable {w : Work} {frames : List Frame} {strict : Bool}

open Engine

/-- A strung list is started, and brought to its first piece. -/
theorem Heap.Waits.starts (roomy : E.Roomy) (waits : s.heap.Waits m r pieces)
    (pending : s.heap.state? r = some (.pending w)) :
    ∃ own y, ReflTransGen E.Moves (.run r w.site (w.task.script E.bound), [], s.start r) y ∧
      Engine.Arrived s own (some r) pieces y ∧ m.Has r r own ∧ r ∈ own ∧
      ∀ o ∈ own, ∃ w, s.heap.state? o = some (.pending w) := by
  obtain ⟨own, strung, keeps⟩ := waits
  obtain ⟨task, _, same, waiting, runs⟩ := strung.runs roomy List.mem_cons_self
  cases same
  rw [waiting] at pending
  cases pending
  have works := s.works_start waiting
  have away : ∀ o ∈ own, o ∉ [r] := by
    have := keeps.apart
    grind
  have forcing : (s.start r).heap.Forcing [r] := by
    intro o mem
    cases List.mem_singleton.1 mem
    exact Heap.state?_setState_self waiting _
  obtain ⟨y, moves, arrived⟩ := runs (s.start r) r [] [] [] (works.carries away) .nobody forcing
    (by have := keeps.apart; grind) (proceeds_nobody E _)
  refine ⟨r :: own, y, moves, ?_, keeps.kept, List.mem_cons_self, strung.pending⟩
  simpa using arrived.after works (by simp) (by grind)

/-- The work of a strung list is done by another cell, and brought to its first piece. -/
theorem Heap.Waits.splices (roomy : E.Roomy) (waits : s.heap.Waits m child pieces)
    (pending : s.heap.state? child = some (.pending w)) (busy : s.heap.state? cell = some .forcing)
    {t : Store} (spliced : t = { s with heap := s.heap.setState child (.redirect cell) }) :
    ∃ own y, ReflTransGen E.Moves (.run cell w.site (w.task.script E.bound), [], t) y ∧
      Engine.Arrived t own (some cell) pieces y ∧ m.Has child cell own ∧ cell ∈ own ∧
      ∀ o ∈ own, o = cell ∨ ∃ w, t.heap.state? o = some (.pending w) := by
  obtain ⟨own, strung, keeps⟩ := waits
  obtain ⟨task, _, same, waiting, runs⟩ := strung.runs roomy List.mem_cons_self
  cases same
  rw [waiting] at pending
  cases pending
  have others {o : Ref} (ne : o ≠ child) : t.heap.state? o = s.heap.state? o := by
    rw [spliced, Heap.state?_setState_ne ne]
  have idle : ∀ o ∈ child :: own, o ≠ cell := by
    rintro o mem rfl
    obtain ⟨w, waits⟩ := strung.pending o mem
    rw [busy] at waits
    cases waits
  have busy' : t.heap.state? cell = some .forcing := by
    rw [others (idle child List.mem_cons_self).symm, busy]
  have away : ∀ o ∈ own, o ≠ child := by
    have := keeps.apart
    grind
  have carries : s.heap.Carries own t.heap := by
    refine ⟨fun o mem c state => by rw [others (away o mem), state], fun o v known => ?_⟩
    rw [others, known]
    rintro rfl
    rw [waiting] at known
    cases known
  obtain ⟨y, moves, arrived⟩ := runs t cell [] [] [] carries .nobody
    (by simpa [Heap.Forcing] using busy')
    (by have := keeps.apart; grind) (proceeds_nobody E _)
  refine ⟨own ++ [cell], y, moves, by simpa using arrived, fun o mem => ?_, by simp,
    fun o mem => ?_⟩
  · rcases List.mem_append.1 mem with mem | mem
    · exact .inr ((keeps.kept o (List.mem_cons_of_mem _ mem)).resolve_left (away o mem))
    · exact .inl (by simpa using mem)
  · rcases List.mem_append.1 mem with mem | mem
    · obtain ⟨w, waits⟩ := strung.pending o (List.mem_cons_of_mem _ mem)
      exact .inr ⟨w, by rw [others (away o mem), waits]⟩
    · exact .inl (by simpa using mem)

/-- A list is given to frames that wait for its next cell. -/
theorem Heap.Group.gives (roomy : E.Roomy) (group : s.heap.Group m frames k pieces)
    (asks : Frame.Asks r strict frames) (forcing : s.heap.Forcing (cellsOf frames)) (l : LazyList) :
    ∃ own y, ReflTransGen E.Moves (.give (.list l), frames, s) y ∧
      Engine.Arrived s own (some k) (l.pieces ++ pieces) y ∧ m.Has k k own ∧ k ∈ own ∧
      ∀ o ∈ own, o ∈ cellsOf frames ∨ ∃ w, s.heap.state? o = some (.pending w) := by
  obtain ⟨own, awaits, keeps, last⟩ := group
  refine ⟨own ++ cellsOf frames, ?_⟩
  have here : k ∈ own ++ cellsOf frames := List.mem_append_right _ (List.mem_of_getLast? last)
  have live : ∀ o ∈ own ++ cellsOf frames,
      o ∈ cellsOf frames ∨ ∃ w, s.heap.state? o = some (.pending w) := fun o mem =>
    (List.mem_append.1 mem).elim (fun mem => .inr (awaits.pending o mem)) .inl
  rw [← last]
  cases l with
  | nil =>
    obtain ⟨y, moves, arrived⟩ := awaits.gives_nil roomy forcing keeps.apart
    exact ⟨y, moves, arrived, keeps.kept, here, live⟩
  | cons head tail =>
    obtain ⟨tail', t, left, moves, strung, apart, works, _, ready, settled⟩ :=
      awaits.gives_cell (E := E) (.source true tail) forcing (by simpa using keeps.apart)
    exact ⟨_, moves, .cell strung (ready (.inr ⟨_, _, asks⟩)) (by simpa using works) apart settled,
      keeps.kept, here, live⟩

/-- Whoever goes on with lists only has a fault from any other value. -/
theorem Continues.refuses {next : Value → Script Outcome} {n : Nat} {rest : Ref} {v : Value}
    (continues : Continues next n rest strict) (other : ∀ l, v ≠ .list l)
    (care : strict = true ∨ v.Listed) (site : Option Location) :
    ∃ u, Demand.pure.reply site v = .resume u ∧ next u = .raise (v.refusal site) := by
  cases v with
  | list l => exact absurd rfl (other l)
  | error e => exact ⟨_, rfl, continues.error e⟩
  | effect action => exact ⟨_, rfl, continues.error _⟩
  | _ =>
    refine ⟨_, rfl, continues.refuse (care.resolve_right ?_) _ nofun nofun⟩
    rintro ⟨⟩

/-- What the innermost of the frames refuses is a fault of all of them. -/
theorem Heap.Group.refuses {v : Value} (group : s.heap.Group m frames k pieces)
    (asks : Frame.Asks r strict frames) (forcing : s.heap.Forcing (cellsOf frames))
    (other : ∀ l, v ≠ .list l) (care : strict = true ∨ v.Listed) :
    ∃ own t, ReflTransGen E.Moves (.give v, frames, s)
        (.give (.error (v.refusal (s.heap.site? r))), [], t) ∧
      s.Works own t [] ∧
      t.heap.state? k = some (.forced (.error (v.refusal (s.heap.site? r)))) ∧ m.Has k k own ∧
        k ∈ own ∧
      ∀ o ∈ own, o ∈ cellsOf frames := by
  obtain ⟨own, awaits, keeps, last⟩ := group
  have apart := (List.nodup_append.1 keeps.apart).2.1
  have mine : m.Has k k (cellsOf frames) := fun o mem => keeps.kept o (List.mem_append_right _ mem)
  cases asks with
  | intro continues =>
    obtain ⟨u, reply, raises⟩ := continues.refuses other care (s.heap.site? r)
    cases awaits with
    | reply _ _ others =>
      obtain ⟨t, moves, works, settled⟩ := others.gives_refused (E := E) forcing apart reply raises
      exact ⟨_, t, moves, works, settled k last, mine, List.mem_of_getLast? last, fun _ => id⟩

end

/-! ### Both sides -/

/-- From here both engines come to paired states by themselves. -/
def Engine.Follow (E : Engine) (T : Pairing) (L : Set Ref) (x y : Control × List Frame × Store) :
    Prop :=
  ∃ U x₁ y₁, T.bond ≤ U.bond ∧ ReflTransGen E.Moves x x₁ ∧ ReflTransGen E.Moves y y₁ ∧
    Engine.Paired U L x₁ y₁

section
variable {E : Engine} {T U : Pairing} {L : Set Ref} {s s' t t' : Store} {c c' : Control}
variable {frames frames' base base' : List Frame} {r q cell cell' : Ref} {site : Option Location}
variable {v v' : Value} {x x₁ y y₁ : Control × List Frame × Store} {strict : Bool}

theorem Heap.Pair.plain_of {h h' : Heap} {c : CellState} (pair : h.Pair T L h' r q)
    (state : h.state? r = some c) (idle : ∀ w, c ≠ .pending w) :
    ∃ c', h'.state? q = some c' ∧ c.Bonded .loaded T.bond c' := by
  cases pair with
  | plain known state' states =>
    rw [state] at known
    cases known
    exact ⟨_, state', states⟩
  | strung waits =>
    obtain ⟨w, waiting⟩ := waits.exists_state
    rw [state] at waiting
    cases waiting
    exact absurd rfl (idle w)

theorem Heap.Pair.pending_iff {h h' : Heap} (pair : h.Pair T L h' r q) :
    (∃ w, h.state? r = some (.pending w)) ↔ ∃ w, h'.state? q = some (.pending w) := by
  cases pair with
  | plain state state' states =>
    rw [state, state']
    cases states <;> simp
  | strung waits waits' => exact iff_of_true waits.exists_state waits'.exists_state

theorem LazyListLike.pieces {B : Bond} {l l' : LazyList} (lists : LazyListLike B l l') :
    List.Forall₂ (Piece.Paired B L) l.pieces l'.pieces := by
  cases lists with
  | nil => exact .nil
  | cons heads tails => exact .cons (.element heads) (.cons (.list tails (.inl ⟨rfl, rfl⟩)) .nil)

theorem ValueLike.listed {B : Bond} (values : ValueLike .loaded B v v') (listed : v.Listed) :
    v'.Listed := by
  cases listed with
  | list => cases values with | list => exact .list _
  | error => cases values with | error => exact .error _
  | effect => cases values with | effect => exact .effect _

theorem ValueLike.refusal_eq {B : Bond} (values : ValueLike .loaded B v v')
    (site : Option Location) :
    v.refusal site = v'.refusal site := by
  cases values with
  | error faults => exact eq_of_faultLike faults
  | _ => rfl

/-- Cells that wait or are at work are none of those for which the frames below wait. -/
theorem away_of_forcing {own : List Ref} (cells : List Ref) (below : s.heap.Forcing (cellsOf base))
    (apart : (cells ++ cellsOf base).Nodup)
    (live : ∀ o ∈ own, o ∈ cells ∨ ∃ w, s.heap.state? o = some (.pending w)) :
    ∀ f ∈ base, f.cell ∉ own := by
  intro f mem mine
  have busy := below f.cell (List.mem_map_of_mem mem)
  rcases live f.cell mine with running | ⟨w, waits⟩
  · exact (List.nodup_append.1 apart).2.2 _ running _ (List.mem_map_of_mem mem) rfl
  · rw [busy] at waits
    cases waits

namespace Engine

theorem follow_of_advance (step : E.Advance c frames s c' frames' s') (grows : T.bond ≤ U.bond)
    (paired : Engine.Paired U L x (c', frames', s')) : E.Follow T L x (c, frames, s) :=
  ⟨U, x, _, grows, .refl, .single step.move, paired⟩

/-- Like work is run by paired cells. -/
theorem paired_script {w w' : Work} (works : WorkLike .loaded T.bond w w')
    (cells : T.cells cell cell') : (Control.run cell w.site (w.task.script E.bound)).Paired T
      (.run cell' w'.site (w'.task.script E.bound)) := by
  rw [works.site]
  have empty : Held.nothing.Bonded T.bond := trivial
  exact .run w'.site cells empty fun B more => (works.mono more).task.like_script (.inl rfl)

/-- Two cells at work get paired values. -/
theorem paired_publish (stores : s.Paired T L s') (cells : T.cells cell cell')
    (stack : Stacked T L s.heap s'.heap base base')
      (forcing : s.heap.Forcing (cell :: cellsOf base))
    (forcing' : s'.heap.Forcing (cell' :: cellsOf base')) (apart : (cell :: cellsOf base).Nodup)
    (apart' : (cell' :: cellsOf base').Nodup) (values : ValueLike .loaded T.bond v v') :
    ∃ U, T.bond ≤ U.bond ∧ Engine.Paired U L (.give v, base, s.publish cell v)
      (.give v', base', s'.publish cell' v') := by
  have busy := forcing cell List.mem_cons_self
  have busy' := forcing' cell' List.mem_cons_self
  have away {cell : Ref} {base : List Frame} (apart : (cell :: cellsOf base).Nodup) :
      ∀ f ∈ base, f.cell ≠ cell := by
    rintro f mem rfl
    exact (List.nodup_cons.1 apart).1 (List.mem_map_of_mem mem)
  have grows := T.le_hand [] cell [] cell'
  obtain ⟨paired, below⟩ := stores.change cells (s.works_publish busy v) (s'.works_publish busy' v')
    (Heap.state?_setState_self busy _) (Heap.state?_setState_self busy' _) (.forced values)
  exact ⟨_, grows, .give (values.mono grows),
    below _ _ stack forcing.tail forcing'.tail (away apart) (away apart'), paired⟩

/-- Both sides come to the same piece by themselves, whoever waits below. -/
theorem paired_of_arrived {own own' : List Ref} {i i' k k' : Ref} {pieces pieces' : List Piece}
    {c c' : Control} {z z' : Control × List Frame × Store} (grows : T.bond ≤ U.bond)
    (sides : U.Sides L t own i k base t' own' i' k' base')
    (sound : Sound (c, frames ++ base, s)) (sound' : Sound (c', frames' ++ base', s'))
    (moves : ReflTransGen E.Moves (c, frames, s) z)
    (moves' : ReflTransGen E.Moves (c', frames', s') z')
    (arrived : Arrived t own (some k) pieces z) (arrived' : Arrived t' own' (some k') pieces' z')
    (same : List.Forall₂ (Piece.Paired U.bond L) pieces pieces') :
    ∃ V, T.bond ≤ V.bond ∧ Engine.Paired V L (z.1, z.2.1 ++ base, z.2.2)
      (z'.1, z'.2.1 ++ base', z'.2.2) := by
  have busy {z : Control × List Frame × Store} {base : List Frame}
      (sound : Sound (z.1, z.2.1 ++ base, z.2.2)) : z.2.2.heap.Forcing (cellsOf z.2.1) := by
    intro o mem
    refine sound.forcing o (List.mem_append_right _ ?_)
    rw [List.map_append]
    exact List.mem_append_left _ mem
  obtain ⟨V, more, paired⟩ := sides.arrived arrived arrived' same
    (busy (sound.moves (moves_with_base moves base)))
      (busy (sound'.moves (moves_with_base moves' base')))
  exact ⟨V, Bond.le_trans grows more, paired⟩

/-- Paired cells that wait are started. -/
theorem follow_start {w : Work} (roomy : E.Roomy) (cells : T.cells r q) (stores : s.Paired T L s')
    (stack : Stacked T L s.heap s'.heap base base') (sound : Sound (.enter r, base, s))
    (sound' : Sound (.enter q, base', s')) (pending : s.heap.state? r = some (.pending w)) :
    E.Follow T L (.run r w.site (w.task.script E.bound), base, s.start r)
      (.enter q, base', s') := by
  have below : s.heap.Forcing (cellsOf base) := sound.forcing
  have below' : s'.heap.Forcing (cellsOf base') := sound'.forcing
  have idle : s.heap.state? r ≠ some .forcing := by simp [pending]
  cases stores.heap.pairs cells with
  | plain state state' states =>
    rw [pending] at state
    cases state
    cases states with
    | pending works =>
      have idle' : s'.heap.state? q ≠ some .forcing := by simp [state']
      have started : E.Advance (.enter q) base' s' _ base' (s'.start q) := .start state'
      have grows := T.le_hand [] r [] q
      obtain ⟨paired, waits⟩ := stores.change cells (s.works_start pending).forget
        (s'.works_start state').forget (Heap.state?_setState_self pending _)
        (Heap.state?_setState_self state' _) .forcing
      refine follow_of_advance started grows ⟨?_, ?_, paired⟩
      · exact paired_script ⟨(works.mono grows).task, works.site⟩ (grows.1 _ _ cells)
      · exact waits _ _ stack below below' (below.ne idle) (below'.ne idle')
  | strung waits waits' same =>
    obtain ⟨w', pending'⟩ := waits'.exists_state
    obtain ⟨own, z, moves, arrived, has, mine, live⟩ := waits.starts roomy pending
    obtain ⟨own', z', moves', arrived', has', mine', live'⟩ := waits'.starts roomy pending'
    have started : E.Advance (.enter q) base' s' _ base' (s'.start q) := .start pending'
    have begun : E.Advance (.enter r) base s _ base (s.start r) := .start pending
    have sides : T.Sides L s own r r base s' own' q q base' :=
      { stores, cells, has, has', mine, mine', stack, below, below'
        spliced := .inl ⟨rfl, rfl⟩
        apart := away_of_forcing [] below sound.apart fun o mem => .inr (live o mem)
        apart' := away_of_forcing [] below' sound'.apart fun o mem => .inr (live' o mem) }
    obtain ⟨V, grows, paired⟩ := paired_of_arrived (E := E) (Bond.le_refl _) sides
      (sound.move begun.move) (sound'.move started.move) moves moves' arrived arrived' same
    exact ⟨V, _, _, grows, moves_with_base moves base,
      .head started.move (moves_with_base moves' base'), paired⟩

/-- The work of paired cells goes to the cells whose tails they are. -/
theorem follow_splice {child child' : Ref} {w : Work} (roomy : E.Roomy) (splices : E.splices = true)
    (cells : T.cells cell cell') (tails : T.cells child child') (stores : s.Paired T L s')
    (stack : Stacked T L s.heap s'.heap base base')
    (sound : Sound (.run cell site (.done (.tail child)), base, s))
    (sound' : Sound (.run cell' site (.done (.tail child')), base', s'))
    (pending : s.heap.state? child = some (.pending w)) :
    E.Follow T L (.run cell w.site (w.task.script E.bound), base,
        { s with heap := s.heap.setState child (.redirect cell) })
      (.run cell' site (.done (.tail child')), base', s') := by
  obtain ⟨w', pending'⟩ := (stores.heap.pairs tails).pending_iff.1 ⟨w, pending⟩
  have busy : s.heap.state? cell = some .forcing := sound.forcing cell (List.mem_cons_self)
  have busy' : s'.heap.state? cell' = some .forcing := sound'.forcing cell' (List.mem_cons_self)
  have below : s.heap.Forcing (cellsOf base) := Heap.Forcing.tail sound.forcing
  have below' : s'.heap.Forcing (cellsOf base') := Heap.Forcing.tail sound'.forcing
  have idle : s.heap.state? child ≠ some .forcing := by simp [pending]
  have idle' : s'.heap.state? child' ≠ some .forcing := by simp [pending']
  have works := s.works_splice pending cell
  have works' := s'.works_splice pending' cell'
  have led := Heap.state?_setState_self pending (.redirect cell)
  have led' := Heap.state?_setState_self pending' (.redirect cell')
  have grows := T.le_hand [] child [] child'
  obtain ⟨paired, waits⟩ := stores.change tails works works' led led' (.redirect cells)
  have stacked := waits _ _ stack below below' (below.ne idle) (below'.ne idle')
  have begun : E.Advance (.run cell site (.done (.tail child))) base s _ base _ :=
    .splice splices pending
  have started : E.Advance (.run cell' site (.done (.tail child'))) base' s' _ base' _ :=
    .splice splices pending'
  cases stores.heap.pairs tails with
  | plain state state' states =>
    rw [pending] at state
    cases state
    rw [pending'] at state'
    cases state'
    cases states with
    | pending likes =>
      refine follow_of_advance started grows ⟨?_, stacked, paired⟩
      exact paired_script ⟨(likes.mono grows).task, likes.site⟩ (grows.1 _ _ cells)
  | strung strung strung' same =>
    obtain ⟨own, z, moves, arrived, has, mine, live⟩ := strung.splices roomy pending busy rfl
    obtain ⟨own', z', moves', arrived', has', mine', live'⟩ :=
      strung'.splices roomy pending' busy' rfl
    have other : child ≠ cell := by
      rintro rfl
      exact idle busy
    have stays : Heap.Forcing _ (cellsOf base) := works.forcing below fun o mem => by
      obtain ⟨f, waiting, rfl⟩ := List.mem_map.1 mem
      simpa using below.ne idle f waiting
    have stays' : Heap.Forcing _ (cellsOf base') := works'.forcing below' fun o mem => by
      obtain ⟨f, waiting, rfl⟩ := List.mem_map.1 mem
      simpa using below'.ne idle' f waiting
    have sides :
        (T.hand [] child [] child').Sides L _ own child cell base _ own' child' cell' base' :=
      { stores := paired
        cells := grows.1 _ _ cells
        has := has.hand_nothing stores.heap.hidden ⟨child', tails⟩
        has' := has'.hand_nothing stores.heap.hidden' ⟨child, tails⟩
        mine, mine'
        spliced := .inr ⟨other, grows.1 _ _ tails, led, led'⟩
        stack := stacked
        below := stays
        below' := stays'
        apart := away_of_forcing [cell] stays sound.apart fun o mem => by
          simpa using live o mem
        apart' := away_of_forcing [cell'] stays' sound'.apart fun o mem => by
          simpa using live' o mem }
    obtain ⟨V, more, reached⟩ := paired_of_arrived (E := E) grows sides (sound.move begun.move)
      (sound'.move started.move) moves moves' arrived arrived'
      (same.imp fun _ _ => Piece.Paired.mono grows)
    exact ⟨V, _, _, more, moves_with_base moves base,
      .head started.move (moves_with_base moves' base'), reached⟩

/-- Frames that have waited do so no longer. -/
theorem ne_of_asks {u : Value} (asks : Frame.Asks r strict frames) :
    ((.give u, base, t) : Control × List Frame × Store) ≠ (.give v, frames ++ base, s) := by
  cases asks
  intro same
  have lengths := congrArg (fun x => x.2.1.length) same
  simp only [List.length_append, List.length_cons] at lengths
  omega

theorem Arrived.ne {own : List Ref} {root : Option Ref} {pieces : List Piece}
    {z : Control × List Frame × Store} (arrived : Arrived s own root pieces z)
    (asks : Frame.Asks r strict frames) :
    (z.1, z.2.1 ++ base, z.2.2) ≠ (.give v, frames ++ base, t) := by
  cases arrived with
  | source => simp
  | ended | cell => exact ne_of_asks asks

theorem forcing_of_sound {c : Control} (sound : Sound (c, frames ++ base, s)) :
    s.heap.Forcing (cellsOf frames) ∧ s.heap.Forcing (cellsOf base) := by
  have forcing := sound.forcing
  simp only [Heap.Forcing, List.map_append, List.mem_append] at forcing ⊢
  exact ⟨fun o mem => forcing o (.inr (.inl mem)), fun o mem => forcing o (.inr (.inr mem))⟩

/-- Groups of frames are at work, and others wait below. -/
theorem sides_of_groups {own own' : List Ref} {k k' : Ref} (cells : T.cells k k')
    (stores : s.Paired T L s') (stack : Stacked T L s.heap s'.heap base base')
    (sound : Sound (.give v, frames ++ base, s)) (sound' : Sound (.give v', frames' ++ base', s'))
    (has : T.mine.Has k k own) (has' : T.mine'.Has k' k' own') (mine : k ∈ own) (mine' : k' ∈ own')
    (live : ∀ o ∈ own, o ∈ cellsOf frames ∨ ∃ w, s.heap.state? o = some (.pending w))
    (live' : ∀ o ∈ own', o ∈ cellsOf frames' ∨ ∃ w, s'.heap.state? o = some (.pending w)) :
    T.Sides L s own k k base s' own' k' k' base' where
  stores := stores
  cells := cells
  has := has
  has' := has'
  mine := mine
  mine' := mine'
  spliced := .inl ⟨rfl, rfl⟩
  stack := stack
  below := (forcing_of_sound sound).2
  below' := (forcing_of_sound sound').2
  apart := away_of_forcing _ (forcing_of_sound sound).2
    (by simpa [Control.cells] using sound.apart) live
  apart' := away_of_forcing _ (forcing_of_sound sound').2
    (by simpa [Control.cells] using sound'.apart) live'

/-- Groups of frames that have waited for paired pieces get like lists. -/
theorem follow_give_list {l l' : LazyList} (roomy : E.Roomy) (lists : LazyListLike T.bond l l')
    (groups : Heap.Groups T L s.heap s'.heap frames frames') (stores : s.Paired T L s')
    (stack : Stacked T L s.heap s'.heap base base')
    (sound : Sound (.give (.list l), frames ++ base, s))
    (sound' : Sound (.give (.list l'), frames' ++ base', s'))
    (move : E.Moves (.give (.list l), frames ++ base, s) x) :
    E.Follow T L x (.give (.list l'), frames' ++ base', s') := by
  obtain ⟨group, group', cells, same, asks, asks', _⟩ := groups
  obtain ⟨own, z, moves, arrived, has, mine, live⟩ :=
    group.gives roomy asks (forcing_of_sound sound).1 l
  obtain ⟨own', z', moves', arrived', has', mine', live'⟩ :=
    group'.gives roomy asks' (forcing_of_sound sound').1 l'
  have sides := sides_of_groups cells stores stack sound sound' has has' mine mine' live live'
  obtain ⟨V, grows, paired⟩ := paired_of_arrived (E := E) (Bond.le_refl _) sides sound sound' moves
    moves' arrived arrived' (List.rel_append lists.pieces same)
  exact ⟨V, _, _, grows, moves_of_move (moves_with_base moves base) move (arrived.ne asks),
    moves_with_base moves' base', paired⟩

/-- Groups of frames that have waited for paired pieces refuse like values that are no lists. -/
theorem follow_give_other (lists : s.heap.KeepsLists L) (values : ValueLike .loaded T.bond v v')
    (other : ∀ l, v ≠ .list l) (groups : Heap.Groups T L s.heap s'.heap frames frames')
    (stores : s.Paired T L s') (stack : Stacked T L s.heap s'.heap base base')
    (sound : Sound (.give v, frames ++ base, s)) (sound' : Sound (.give v', frames' ++ base', s'))
    (move : E.Moves (.give v, frames ++ base, s) x) :
    E.Follow T L x (.give v', frames' ++ base', s') := by
  obtain @⟨k, k', r, q, _, _, strict, strict', group, group', cells, _, asks, asks', source⟩ :=
    groups
  have other' : ∀ l, v' ≠ .list l := by
    rintro l rfl
    cases values
    exact other _ rfl
  have yields : s.heap.Yields r v := by
    cases asks
    exact sound.yields
  obtain ⟨demanded, care, care'⟩ :
      T.cells r q ∧ (strict = true ∨ v.Listed) ∧ (strict' = true ∨ v'.Listed) := by
    cases source with
    | list demanded care =>
    refine ⟨demanded, ?_⟩
    rcases care with ⟨yes, yes'⟩ | ⟨rfl, mem⟩
    · exact ⟨.inl yes, .inl yes'⟩
    · have listed := lists r mem v yields
      exact ⟨.inr listed, .inr (values.listed listed)⟩
  obtain ⟨own, t, moves, works, known, has, mine, live⟩ :=
    group.refuses asks (forcing_of_sound sound).1 other care
  obtain ⟨own', t', moves', works', known', has', mine', live'⟩ :=
    group'.refuses asks' (forcing_of_sound sound').1 other' care'
  have sides := sides_of_groups cells stores stack sound sound' has has' mine mine'
    (fun o mem => .inl (live o mem)) fun o mem => .inl (live' o mem)
  have faults : FaultLike .loaded (v.refusal (s.heap.site? r)) (v'.refusal (s'.heap.site? q)) := by
    rw [← stores.heap.sites demanded, values.refusal_eq]
    exact ⟨rfl, rfl⟩
  obtain ⟨V, grows, paired⟩ := sides.settled works works' known known' (.error faults)
  exact ⟨V, _, _, grows, moves_of_move (moves_with_base moves base) move (ne_of_asks asks),
    moves_with_base moves' base', paired⟩

/-- What is given to groups of frames is no other value on either side. -/
theorem follow_give (roomy : E.Roomy) (lists : s.heap.KeepsLists L)
    (values : ValueLike .loaded T.bond v v')
    (groups : Heap.Groups T L s.heap s'.heap frames frames') (stores : s.Paired T L s')
    (stack : Stacked T L s.heap s'.heap base base') (sound : Sound (.give v, frames ++ base, s))
    (sound' : Sound (.give v', frames' ++ base', s'))
    (move : E.Moves (.give v, frames ++ base, s) x) :
    E.Follow T L x (.give v', frames' ++ base', s') := by
  by_cases list : ∃ l, v = .list l
  · obtain ⟨l, rfl⟩ := list
    cases values with
    | list likes => exact follow_give_list roomy likes groups stores stack sound sound' move
  · exact follow_give_other lists values (fun l same => list ⟨l, same⟩) groups stores stack sound
      sound' move

/-- A frame of one's own gets a value, or a group does. -/
theorem stacked_of_cons {f : Frame} {h h' : Heap} (stack : Stacked T L h h' (f :: base) frames') :
    (∃ f' base', frames' = f' :: base' ∧ f.Paired T f' ∧ Stacked T L h h' base base') ∨
      ∃ g g' b b', f :: base = g ++ b ∧ frames' = g' ++ b' ∧ Heap.Groups T L h h' g g' ∧
        Stacked T L h h' b b' := by
  generalize same : f :: base = frames at stack
  cases stack with
  | nil => cases same
  | frame first rest =>
    cases same
    exact .inl ⟨_, _, rfl, first, rest⟩
  | group groups rest => exact .inr ⟨_, _, _, _, rfl, rfl, groups, rest⟩

theorem stacked_nil {h h' : Heap} (stack : Stacked T L h h' [] frames') : frames' = [] := by
  generalize same : [] = frames at stack
  cases stack with
  | nil => rfl
  | frame => cases same
  | group groups =>
    obtain ⟨_, _, _, _, asks, _, _⟩ := groups
    cases asks
    cases same

/-- A running cell takes a step of its own. -/
theorem follow_run {script : Script Outcome} {script' : Script Outcome} {held : Held}
    (roomy : E.Roomy)
    (cells : T.cells cell cell') (mine : held.Bonded T.bond)
    (scripts : script.Bonded .loaded T.bond (Settled .loaded) held script') (stores : s.Paired T L s')
    (stack : Stacked T L s.heap s'.heap base base') (sound : Sound (.run cell site script, base, s))
    (sound' : Sound (.run cell' site script', base', s'))
    (move : E.Moves (.run cell site script, base, s) x) :
    E.Follow T L x (.run cell' site script', base', s') := by
  have first := scripts T.bond (Bond.le_refl _)
  have below : s.heap.Forcing (cellsOf base) := Heap.Forcing.tail sound.forcing
  have below' : s'.heap.Forcing (cellsOf base') := Heap.Forcing.tail sound'.forcing
  have publishes {v v' : Value} (values : ValueLike .loaded T.bond v v')
      (ends' : E.Advance (.run cell' site script') base' s' (.give (v'.through? site)) base'
        (s'.publish cell' (v'.through? site))) :
      E.Follow T L (.give (v.through? site), base, s.publish cell (v.through? site))
        (.run cell' site script', base', s') := by
    obtain ⟨U, grows, paired⟩ := paired_publish stores cells stack sound.forcing sound'.forcing
      sound.apart
      sound'.apart (values.through_loaded site)
    exact follow_of_advance ends' grows paired
  obtain ⟨c, frames, t⟩ := x
  have step : E.Advance (.run cell site script) base s c frames t := move
  cases step with
  | value =>
    cases first with
    | done results =>
      cases results with
      | ok outcomes =>
        cases outcomes with
        | value values => exact publishes values Advance.value
  | fault =>
    cases first with
    | raise results =>
      cases results with
      | error faults => exact publishes (.error faults) Advance.fault
  | splice splices pending =>
    cases first with
    | done results =>
      cases results with
      | ok outcomes =>
        cases outcomes with
        | tail tails =>
          exact follow_splice roomy splices cells tails stores stack sound sound' pending
  | @tail _ child _ _ _ keeps =>
    cases first with
    | done results =>
      cases results with
      | ok outcomes =>
        cases outcomes with
        | @tail _ child' tails =>
          have keeps' : E.splices = true → ∀ w, s'.heap.state? child' ≠ some (.pending w) := by
            intro splices w waits
            obtain ⟨w, waits⟩ := (stores.heap.pairs tails).pending_iff.2 ⟨w, waits⟩
            exact keeps splices w waits
          exact follow_of_advance (Advance.tail keeps') (Bond.le_refl _)
            ⟨.enter tails, .frame ⟨cells, rfl, .tail⟩ stack, stores⟩
  | demand =>
    cases first with
    | demand hosted asked rest =>
      refine follow_of_advance Advance.demand (Bond.le_refl _)
        ⟨.enter asked, .frame ⟨cells, rfl, .reply asked mine fun B more v v' values => ?_⟩ stack,
          stores⟩
      cases scripts B more with
      | demand _ _ rest => exact rest v v' values
  | act =>
    obtain ⟨a', next', rfl, _, held', grows, mine', scripts', U, rfl, holds⟩ :=
      (Pairing.keeps L base base').act nofun trivial ⟨T, rfl, stores, stack, below, below'⟩ mine scripts
    exact follow_of_advance Advance.act grows
      ⟨.run site (grows.1 _ _ cells) mine' scripts', holds.stack, holds.stores⟩

/-- Whatever step one engine takes, both of them come to paired states again. -/
theorem Paired.follow (roomy : E.Roomy) (paired : Engine.Paired T L x y) (sound : Sound x)
    (sound' : Sound y) (lists : x.2.2.heap.KeepsLists L) (move : E.Moves x x₁) : E.Follow T L x₁ y := by
  obtain ⟨c, frames, s⟩ := x
  obtain ⟨c', frames', s'⟩ := y
  obtain ⟨control, stack, stores⟩ := paired
  cases control with
  | run site cells mine scripts =>
    exact follow_run roomy cells mine scripts stores stack sound sound' move
  | @enter r q cells =>
    obtain ⟨c₁, frames₁, s₁⟩ := x₁
    have step : E.Advance (.enter r) frames s c₁ frames₁ s₁ := move
    cases step with
    | found forced =>
      obtain ⟨_, forced', states⟩ := (stores.heap.pairs cells).plain_of forced nofun
      cases states with
      | forced values =>
        exact follow_of_advance (Advance.found forced') (Bond.le_refl _)
          ⟨.give values, stack, stores⟩
    | follow redirect =>
      obtain ⟨_, redirect', states⟩ := (stores.heap.pairs cells).plain_of redirect nofun
      cases states with
      | redirect targets =>
        exact follow_of_advance (Advance.follow redirect') (Bond.le_refl _)
          ⟨.enter targets, stack, stores⟩
    | start pending => exact follow_start roomy cells stores stack sound sound' pending
  | @give v v' values =>
    cases frames with
    | nil => cases (show E.Advance _ _ _ _ _ _ from move)
    | cons f base =>
    rcases stacked_of_cons stack with ⟨f', base', rfl, first, rest⟩ |
      ⟨g, g', b, b', same, rfl, groups, rest⟩
    · obtain ⟨cell', site', wait'⟩ := f'
      obtain ⟨c₁, frames₁, s₁⟩ := x₁
      have step : E.Advance (.give v) (f :: base) s c₁ frames₁ s₁ := move
      cases step with
      | pass =>
        obtain ⟨cells, rfl, wait⟩ := first
        cases wait with
        | tail =>
          obtain ⟨U, grows, paired⟩ := paired_publish stores cells rest sound.forcing sound'.forcing
            sound.apart sound'.apart (values.through_loaded _)
          exact follow_of_advance Advance.pass grows paired
      | @resume cell r site how next _ u _ _ reply =>
        obtain ⟨cells, rfl, wait⟩ := first
        cases wait with
        | @reply _ _ q _ next' held asked mine rests =>
          have site := stores.heap.sites asked
          rcases how.reply_loaded (s.heap.site? r) values with
            ⟨u', w', left, right, resumed⟩ | ⟨_, _, left, _⟩
          · rw [left] at reply
            cases reply
            rw [site] at right
            exact follow_of_advance (Advance.resume right) (Bond.le_refl _)
              ⟨.run _ cells mine fun B more => rests B more _ _ (resumed.mono more), rest, stores⟩
          · rw [left] at reply
            cases reply
      | @perform cell r action site how next _ _ _ reply =>
        obtain ⟨cells, rfl, wait⟩ := first
        cases wait with
        | @reply _ _ q _ next' held asked mine rests =>
          have site := stores.heap.sites asked
          rcases how.reply_loaded (s.heap.site? r) values with
            ⟨_, _, left, _⟩ | ⟨action, action', left, right, actions⟩
          · rw [left] at reply
            cases reply
          · rw [left] at reply
            cases reply
            rw [site] at right
            exact follow_of_advance (Advance.perform right) (Bond.le_refl _)
              ⟨.enter actions, .frame ⟨cells, rfl, .reply actions mine rests⟩ rest, stores⟩
    · rw [same] at sound move
      exact follow_give roomy lists values groups stores rest sound sound' move

end Engine
end
end CallByNeed
