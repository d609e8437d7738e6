import CallByNeed.Proofs.Bundles.Opening
import CallByNeed.Proofs.Likeness.Acting
import CallByNeed.Proofs.Redirects

/- Two stores in which lists are strung together in different ways. Cells that scripts may come
   across are paired; the cells that wait inside of a strung list belong to it alone, and nobody
   else gets at them. Strung lists are paired if their pieces are. Whatever one of two like scripts
   does to its store, the other does to its own, and the new cells are paired. -/
namespace CallByNeed

/-- For each private cell, the one that keeps it. -/
abbrev Keepers := Ref → Option Ref

namespace Keepers

structure Keeps (m : Keepers) (k : Ref) (own : List Ref) : Prop where
  apart : own.Nodup
  kept : ∀ o ∈ own, o = k ∨ m o = some k

/-- These cells are kept by that one now, which nobody keeps. -/
def hand (m : Keepers) (left : List Ref) (k : Ref) : Keepers := fun o =>
  if o = k then none else if o ∈ left then some k else m o

/-- Nothing that is kept by the cell is among these. -/
structure Spares (m : Keepers) (own : List Ref) (k : Ref) : Prop where
  self : k ∉ own
  kept : ∀ o ∈ own, m o ≠ some k

theorem keeps_hand {m : Keepers} {left : List Ref} {k : Ref} (apart : left.Nodup) :
    (m.hand left k).Keeps k left := by
  refine ⟨apart, fun o mem => ?_⟩
  by_cases same : o = k
  · exact .inl same
  · exact .inr (by simp [hand, same, mem])

end Keepers

structure Pairing where
  cells : Ref → Ref → Prop
  mine : Keepers
  mine' : Keepers

/-- Paired cells stand for each other. -/
def Pairing.bond (T : Pairing) : Bond where
  cells := T.cells
  actions := T.cells

/-- These cells are paired too, and keep others on either side. -/
def Pairing.hand (T : Pairing) (left : List Ref) (k : Ref) (left' : List Ref) (k' : Ref) :
    Pairing where
  cells := fun r q => T.cells r q ∨ r = k ∧ q = k'
  mine := T.mine.hand left k
  mine' := T.mine'.hand left' k'

theorem Pairing.le_hand (T : Pairing) (left : List Ref) (k : Ref) (left' : List Ref) (k' : Ref) :
    T.bond ≤ (T.hand left k left' k').bond :=
  ⟨fun _ _ => .inl, fun _ _ => .inl⟩

/-- Lists are paired as pieces if both are refused where they are none. Those in `L` are lists
    anyway, or fail. -/
inductive Piece.Paired (B : Bond) (L : Set Ref) : Piece → Piece → Prop where
  | element {r q : Ref} (cells : B.cells r q) : Paired B L (.element r) (.element q)
  | list {r q : Ref} {strict strict' : Bool} (cells : B.cells r q)
      (care : strict = true ∧ strict' = true ∨ r = q ∧ r ∈ L) :
      Paired B L (.list r strict) (.list q strict')

/-- A strung list that waits, and keeps all that waits in it. -/
def Heap.Waits (h : Heap) (m : Keepers) (r : Ref) (pieces : List Piece) : Prop :=
  ∃ own, h.Strung true r pieces (r :: own) ∧ m.Keeps r (r :: own)

/-- Frames that wait for the next cell of a list. The longest waiting one keeps all of them. -/
def Heap.Group (h : Heap) (m : Keepers) (frames : List Frame) (k : Ref) (pieces : List Piece) :
    Prop :=
  ∃ own, h.Awaits frames pieces own ∧ m.Keeps k (own ++ cellsOf frames) ∧
    (cellsOf frames).getLast? = some k

/-- Paired cells hold paired data, or are strung lists of paired pieces. -/
inductive Heap.Pair (T : Pairing) (L : Set Ref) (h h' : Heap) (r q : Ref) : Prop where
  | plain {c c' : CellState} (state : h.state? r = some c) (state' : h'.state? q = some c')
      (states : c.Bonded .loaded T.bond c')
  | strung {pieces pieces' : List Piece} (waits : h.Waits T.mine r pieces)
      (waits' : h'.Waits T.mine' q pieces')
      (same : List.Forall₂ (Piece.Paired T.bond L) pieces pieces')

/-- Private cells exist and are not paired. -/
def Keepers.Hidden (m : Keepers) (h : Heap) (known : Ref → Prop) : Prop :=
  ∀ o k, m o = some k → (∃ c, h.state? o = some c) ∧ ¬ known o

structure Heap.Paired (T : Pairing) (L : Set Ref) (h h' : Heap) : Prop where
  unique : ∀ {r r' q q'}, T.cells r q → T.cells r' q' → (r = r' ↔ q = q')
  pairs : ∀ {r q}, T.cells r q → Heap.Pair T L h h' r q
  sites : ∀ {r q}, T.cells r q → h.site? r = h'.site? q
  hidden : T.mine.Hidden h fun r => ∃ q, T.cells r q
  hidden' : T.mine'.Hidden h' fun q => ∃ r, T.cells r q

section
variable {B C : Bond} {T : Pairing} {L : Set Ref} {h h' k k' : Heap} {r q : Ref}

theorem Piece.Paired.mono (grows : B ≤ C) {p p' : Piece} (pieces : p.Paired B L p') :
    p.Paired C L p' := by
  cases pieces with
  | element cells => exact .element (grows.1 _ _ cells)
  | list cells care => exact .list (grows.1 _ _ cells) care

theorem Heap.Waits.exists_state {m : Keepers} {pieces : List Piece} (waits : h.Waits m r pieces) :
    ∃ w, h.state? r = some (.pending w) := by
  obtain ⟨own, strung, _⟩ := waits
  exact strung.pending r List.mem_cons_self

theorem Heap.Pair.exists_state (pair : h.Pair T L h' r q) :
    (∃ c, h.state? r = some c) ∧ ∃ c, h'.state? q = some c := by
  cases pair with
  | plain state state' => exact ⟨⟨_, state⟩, _, state'⟩
  | strung waits waits' =>
    obtain ⟨_, state⟩ := waits.exists_state
    obtain ⟨_, state'⟩ := waits'.exists_state
    exact ⟨⟨_, state⟩, _, state'⟩

end

/-! ### What a change leaves alone -/

/-- One side of a change: work has been done to cells of one's own, and what is left of it is handed
    to one that keeps it. -/
structure Keepers.Turns (m : Keepers) (known : Ref → Prop) (s : Store) (own left : List Ref)
    (k : Ref) (t : Store) : Prop where
  works : s.Works own t left
  keeper : k ∈ own ∨ k ∈ left ∨ s.heap.state? k = none
  hides : ∀ o ∈ left, o ≠ k → ¬ known o

section
variable {m : Keepers} {known : Ref → Prop} {s t : Store} {own own' left : List Ref} {k k' r : Ref}
variable {pieces : List Piece} {frames : List Frame}

theorem Keepers.Turns.carries (turns : m.Turns known s own left k t)
    (keeps : m.Keeps k' own') (spares : m.Spares own k')
    (live : ∀ o ∈ own', ∃ c, s.heap.state? o = some c) :
    s.heap.Carries own' t.heap ∧ (m.hand left k).Keeps k' own' := by
  have apart : ∀ o ∈ own', o ∉ own := by
    intro o mem mine
    rcases keeps.kept o mem with rfl | kept
    · exact spares.self mine
    · exact spares.kept o mine kept
  have old : ∀ o ∈ own', o ∉ left := by
    intro o mem mine
    obtain ⟨c, state⟩ := live o mem
    rcases turns.works.fresh o mine with again | new
    · exact apart o mem again
    · rw [new] at state
      cases state
  refine ⟨turns.works.carries apart, keeps.apart, fun o mem =>
    (keeps.kept o mem).imp id fun kept => ?_⟩
  have other : o ≠ k := by
    rintro rfl
    obtain ⟨c, state⟩ := live o mem
    rcases turns.keeper with mine | mine | new
    · exact apart o mem mine
    · exact old o mem mine
    · rw [new] at state
      cases state
  simp [hand, other, old o mem, kept]

theorem Heap.Waits.turn (waits : s.heap.Waits m r pieces) (turns : m.Turns known s own left k t)
    (spares : m.Spares own r) : t.heap.Waits (m.hand left k) r pieces := by
  obtain ⟨own', strung, keeps⟩ := waits
  obtain ⟨carries, keeps'⟩ := turns.carries keeps spares fun o mem => by
    obtain ⟨w, state⟩ := strung.pending o mem
    exact ⟨_, state⟩
  exact ⟨own', strung.carry carries, keeps'⟩

theorem Heap.Group.turn (group : s.heap.Group m frames r pieces)
    (turns : m.Turns known s own left k t) (spares : m.Spares own r)
    (forcing : s.heap.Forcing (cellsOf frames)) :
    t.heap.Group (m.hand left k) frames r pieces := by
  obtain ⟨own', awaits, keeps, last⟩ := group
  obtain ⟨carries, keeps'⟩ := turns.carries keeps spares fun o mem => by
    rcases List.mem_append.1 mem with waits | runs
    · obtain ⟨w, state⟩ := awaits.pending o waits
      exact ⟨_, state⟩
    · exact ⟨_, forcing o runs⟩
  exact ⟨own', awaits.carry (carries.weaken (by simp)), keeps', last⟩

theorem Keepers.Hidden.turn {known' : Ref → Prop} (hidden : m.Hidden s.heap known)
    (turns : m.Turns known s own left k t) (live : ∀ o ∈ left, ∃ c, t.heap.state? o = some c)
    (more : ∀ o, known' o → known o ∨ o = k) : (m.hand left k).Hidden t.heap known' := by
  intro o j kept
  unfold hand at kept
  split at kept
  · cases kept
  · next other =>
    have unknown (not : ¬ known o) : ¬ known' o := fun yes => (more o yes).elim not other
    split at kept
    · next mem => exact ⟨live o mem, unknown (turns.hides o mem other)⟩
    · obtain ⟨⟨c, state⟩, not⟩ := hidden o j kept
      obtain ⟨cell, found, _⟩ := Heap.exists_cell state
      obtain ⟨cell', later, _⟩ := turns.works.before o cell found
      exact ⟨⟨_, by simp only [Heap.state?, later]; rfl⟩, unknown not⟩

end

/-- Both sides of a change. The two keepers are paired now. -/
structure Pairing.Turns (T : Pairing) (s : Store) (own left : List Ref) (k : Ref) (t : Store)
    (s' : Store) (own' left' : List Ref) (k' : Ref) (t' : Store) : Prop where
  turns : T.mine.Turns (fun r => ∃ q, T.cells r q) s own left k t
  turns' : T.mine'.Turns (fun q => ∃ r, T.cells r q) s' own' left' k' t'
  live : ∀ o ∈ left, ∃ c, t.heap.state? o = some c
  live' : ∀ o ∈ left', ∃ c, t'.heap.state? o = some c
  unique : T.cells k k' ∨ (∀ q, ¬ T.cells k q) ∧ ∀ r, ¬ T.cells r k'

section
variable {T : Pairing} {L : Set Ref} {s t s' t' : Store} {own left own' left' : List Ref}
variable {k k' r q : Ref}

theorem Heap.Pair.turn (pair : s.heap.Pair T L s'.heap r q)
    (turns : T.Turns s own left k t s' own' left' k' t') (spares : T.mine.Spares own r)
    (spares' : T.mine'.Spares own' q) : t.heap.Pair (T.hand left k left' k') L t'.heap r q := by
  have grows := T.le_hand left k left' k'
  cases pair with
  | plain state state' states =>
    exact .plain (turns.turns.works.others r _ spares.self state)
      (turns.turns'.works.others q _ spares'.self state') (states.mono grows)
  | strung waits waits' same =>
    exact .strung (waits.turn turns.turns spares) (waits'.turn turns.turns' spares')
      (same.imp fun _ _ => Piece.Paired.mono grows)

/-- Pairs that are spared stay paired. -/
theorem Heap.Paired.turn (paired : s.heap.Paired T L s'.heap)
    (turns : T.Turns s own left k t s' own' left' k' t')
    (pairs : ∀ {r q}, T.cells r q → T.mine.Spares own r ∧ T.mine'.Spares own' q ∨
      t.heap.Pair (T.hand left k left' k') L t'.heap r q)
    (new : t.heap.Pair (T.hand left k left' k') L t'.heap k k')
    (site : t.heap.site? k = t'.heap.site? k') :
    t.heap.Paired (T.hand left k left' k') L t'.heap where
  unique := by
    have fresh : ∀ {r q}, T.cells r q → (r = k ↔ q = k') := by
      intro r q cells
      rcases turns.unique with old | ⟨none, none'⟩
      · exact paired.unique cells old
      · constructor
        · rintro rfl
          exact absurd cells (none q)
        · rintro rfl
          exact absurd cells (none' r)
    rintro r r' q q' (cells | ⟨rfl, rfl⟩) (cells' | ⟨rfl, rfl⟩)
    · exact paired.unique cells cells'
    · exact fresh cells
    · rw [eq_comm, fresh cells', eq_comm]
    · simp
  pairs := by
    rintro r q (cells | ⟨rfl, rfl⟩)
    · rcases pairs cells with ⟨spares, spares'⟩ | pair
      · exact (paired.pairs cells).turn turns spares spares'
      · exact pair
    · exact new
  sites := by
    rintro r q (cells | ⟨rfl, rfl⟩)
    · obtain ⟨⟨c, state⟩, c', state'⟩ := (paired.pairs cells).exists_state
      rw [turns.turns.works.before.site state, turns.turns'.works.before.site state',
        paired.sites cells]
    · exact site
  hidden := paired.hidden.turn turns.turns turns.live fun o known => by
    obtain ⟨q, cells | ⟨rfl, _⟩⟩ := known
    · exact .inl ⟨q, cells⟩
    · exact .inr rfl
  hidden' := paired.hidden'.turn turns.turns' turns.live' fun o known => by
    obtain ⟨r, cells | ⟨_, rfl⟩⟩ := known
    · exact .inl ⟨r, cells⟩
    · exact .inr rfl

end

/-! ### Stores and frames -/

structure Store.Paired (T : Pairing) (L : Set Ref) (s s' : Store) : Prop where
  heap : s.heap.Paired T L s'.heap
  rallies : ∀ id : Nat, Option.Rel (Rally.Paired T.bond) s.rallies[id]? s'.rallies[id]?

inductive Wait.Paired (T : Pairing) : Wait → Wait → Prop where
  | tail : Paired T .tail .tail
  | reply {how : Demand} {r q : Ref} {next next' : Value → Script Outcome} {held : Held}
      (cells : T.cells r q) (mine : held.Bonded T.bond)
      (rest : ∀ B, T.bond ≤ B → ∀ v v', ValueLike .loaded B v v' →
        ScriptLike .loaded B (Settled .loaded B) held (next v) (next' v')) :
      Paired T (.reply how r next) (.reply how q next')

structure Frame.Paired (T : Pairing) (f f' : Frame) : Prop where
  cell : T.cells f.cell f'.cell
  site : f.site = f'.site
  wait : f.wait.Paired T f'.wait

/-- Groups of frames that wait for paired pieces of strung lists, and for paired cells first. -/
inductive Heap.Groups (T : Pairing) (L : Set Ref) (h h' : Heap) (frames frames' : List Frame) :
    Prop where
  | intro {k k' r q : Ref} {pieces pieces' : List Piece} {strict strict' : Bool}
      (group : h.Group T.mine frames k pieces) (group' : h'.Group T.mine' frames' k' pieces')
      (keepers : T.cells k k') (same : List.Forall₂ (Piece.Paired T.bond L) pieces pieces')
      (asks : Frame.Asks r strict frames) (asks' : Frame.Asks q strict' frames')
      (source : Piece.Paired T.bond L (.list r strict) (.list q strict'))

/-- Frames in pairs, and groups of frames among them. -/
inductive Stacked (T : Pairing) (L : Set Ref) (h h' : Heap) : List Frame → List Frame → Prop where
  | nil : Stacked T L h h' [] []
  | frame {f f' : Frame} {base base' : List Frame} (first : f.Paired T f')
      (rest : Stacked T L h h' base base') : Stacked T L h h' (f :: base) (f' :: base')
  | group {frames frames' base base' : List Frame} (groups : Heap.Groups T L h h' frames frames')
      (rest : Stacked T L h h' base base') : Stacked T L h h' (frames ++ base) (frames' ++ base')

section
variable {B C : Bond} {T U : Pairing} {L : Set Ref} {s s' t t' : Store}

theorem Frame.Paired.mono (grows : T.bond ≤ U.bond) {f f' : Frame} (frames : f.Paired T f') :
    f.Paired U f' := by
  obtain ⟨cell, site, wait⟩ := frames
  refine ⟨grows.1 _ _ cell, site, ?_⟩
  generalize f.wait = w, f'.wait = w' at wait
  cases wait with
  | tail => exact .tail
  | reply cells mine rest =>
    exact .reply (grows.1 _ _ cells) (mine.mono grows) fun B more =>
      rest B (Bond.le_trans grows more)

end

section
variable {T : Pairing} {L : Set Ref} {s t s' t' : Store} {own left own' left' : List Ref}
variable {k k' r q : Ref} {frames frames' : List Frame}

/-- Frames go on waiting whatever is done elsewhere. -/
theorem Stacked.turn (stack : Stacked T L s.heap s'.heap frames frames')
    (turns : T.Turns s own left k t s' own' left' k' t')
    (spares : ∀ f ∈ frames, T.mine.Spares own f.cell)
    (spares' : ∀ f ∈ frames', T.mine'.Spares own' f.cell)
    (forcing : s.heap.Forcing (cellsOf frames)) (forcing' : s'.heap.Forcing (cellsOf frames')) :
    Stacked (T.hand left k left' k') L t.heap t'.heap frames frames' := by
  have grows := T.le_hand left k left' k'
  induction stack with
  | nil => exact .nil
  | frame first _ ih =>
    refine .frame (first.mono grows) (ih ?_ ?_ forcing.tail forcing'.tail)
    · exact fun f mem => spares f (List.mem_cons_of_mem _ mem)
    · exact fun f mem => spares' f (List.mem_cons_of_mem _ mem)
  | @group frames frames' base base' groups _ ih =>
    obtain ⟨group, group', keepers, same, asks, asks', source⟩ := groups
    have last {m : Keepers} {h : Heap} {pieces : List Piece} {frames : List Frame} {k : Ref}
        (group : h.Group m frames k pieces) : ∃ f ∈ frames, f.cell = k := by
      obtain ⟨_, _, _, last⟩ := group
      exact List.mem_map.1 (List.mem_of_getLast? last)
    have both {h : Heap} {fs base : List Frame} (all : h.Forcing (cellsOf (fs ++ base))) :
        h.Forcing (cellsOf fs) ∧ h.Forcing (cellsOf base) := by
      simp only [Heap.Forcing, List.map_append, List.mem_append] at all ⊢
      exact ⟨fun r mem => all r (.inl mem), fun r mem => all r (.inr mem)⟩
    obtain ⟨f, mem, rfl⟩ := last group
    obtain ⟨f', mem', rfl⟩ := last group'
    refine .group (.intro ?_ ?_ (grows.1 _ _ keepers) (same.imp fun _ _ => Piece.Paired.mono grows)
      asks asks' (source.mono grows)) ?_
    · exact group.turn turns.turns (spares f (by simp [mem])) (both forcing).1
    · exact group'.turn turns.turns' (spares' f' (by simp [mem'])) (both forcing').1
    · refine ih ?_ ?_ (both forcing).2 (both forcing').2
      · exact fun f mem => spares f (by simp [mem])
      · exact fun f mem => spares' f (by simp [mem])

theorem Heap.Paired.spares {h h' : Heap} (paired : h.Paired T L h') (cells : T.cells r q)
    (other : k ≠ r) : T.mine.Spares [r] k := by
  refine ⟨by simpa using other, fun o mem kept => ?_⟩
  cases List.mem_singleton.1 mem
  exact (paired.hidden r k kept).2 ⟨q, cells⟩

theorem Heap.Paired.spares' {h h' : Heap} (paired : h.Paired T L h') (cells : T.cells r q)
    (other : k ≠ q) : T.mine'.Spares [q] k := by
  refine ⟨by simpa using other, fun o mem kept => ?_⟩
  cases List.mem_singleton.1 mem
  exact (paired.hidden' q k kept).2 ⟨r, cells⟩

/-- Two paired cells have changed, and are paired again. -/
theorem Store.Paired.change (stores : s.Paired T L s') (cells : T.cells r q)
    (works : s.Works [r] t [])
    (works' : s'.Works [q] t' []) {c c' : CellState} (state : t.heap.state? r = some c)
    (state' : t'.heap.state? q = some c') (states : c.Bonded .loaded T.bond c') :
    t.Paired (T.hand [] r [] q) L t' ∧ ∀ frames frames',
      Stacked T L s.heap s'.heap frames frames' → s.heap.Forcing (cellsOf frames) →
      s'.heap.Forcing (cellsOf frames') → (∀ f ∈ frames, f.cell ≠ r) → (∀ f ∈ frames', f.cell ≠ q) →
      Stacked (T.hand [] r [] q) L t.heap t'.heap frames frames' := by
  have grows := T.le_hand [] r [] q
  have turns : T.Turns s [r] [] r t s' [q] [] q t' :=
    { turns := ⟨works, .inl (by simp), by simp⟩
      turns' := ⟨works', .inl (by simp), by simp⟩
      live := by simp
      live' := by simp
      unique := .inl cells }
  have new : t.heap.Pair (T.hand [] r [] q) L t'.heap r q := .plain state state' (states.mono grows)
  obtain ⟨⟨_, old⟩, _, old'⟩ := (stores.heap.pairs cells).exists_state
  refine ⟨⟨?_, ?_⟩, ?_⟩
  · refine stores.heap.turn turns (fun {r₁ q₁} cells₁ => ?_) new ?_
    · by_cases same : r₁ = r
      · obtain rfl := same
        obtain rfl := (stores.heap.unique cells₁ cells).1 rfl
        exact .inr new
      · have same' : q₁ ≠ q := fun same' => same ((stores.heap.unique cells₁ cells).2 same')
        exact .inl ⟨stores.heap.spares cells same, stores.heap.spares' cells same'⟩
    · rw [works.before.site old, works'.before.site old', stores.heap.sites cells]
  · rw [works.rest, works'.rest]
    exact fun id => optionRel_imp (fun _ _ => Rally.Paired.mono grows) (stores.rallies id)
  · intro frames frames' stack forcing forcing' others others'
    refine stack.turn turns (fun f mem => ?_) (fun f mem => ?_) forcing forcing'
    · exact stores.heap.spares cells (others f mem)
    · exact stores.heap.spares' cells (others' f mem)

/-- New cells that hold paired data are paired. -/
theorem Store.Paired.alloc (stores : s.Paired T L s') (c c' : Cell) (site : c.site = c'.site)
    (states : c.state.Bonded .loaded T.bond c'.state) :
    (s.act (.alloc c)).2.Paired (T.hand [] (s.act (.alloc c)).1 [] (s'.act (.alloc c')).1) L
        (s'.act (.alloc c')).2 ∧ ∀ frames frames',
      Stacked T L s.heap s'.heap frames frames' → s.heap.Forcing (cellsOf frames) →
      s'.heap.Forcing (cellsOf frames') →
      Stacked (T.hand [] (s.act (.alloc c)).1 [] (s'.act (.alloc c')).1) L (s.act (.alloc c)).2.heap
        (s'.act (.alloc c')).2.heap frames frames' := by
  let n := (s.act (.alloc c)).1
  let n' := (s'.act (.alloc c')).1
  have none : s.heap.state? n = .none := s.heap.state?_size
  have none' : s'.heap.state? n' = .none := s'.heap.state?_size
  have grows := T.le_hand [] n [] n'
  have turns : T.Turns s [] [] n (s.act (.alloc c)).2 s' [] [] n' (s'.act (.alloc c')).2 := {
    turns := ⟨(s.works_alloc c).forget, .inr (.inr none), by simp⟩
    turns' := ⟨(s'.works_alloc c').forget, .inr (.inr none'), by simp⟩
    live := by simp
    live' := by simp
    unique := by
      refine .inr ⟨fun q cells => ?_, fun r cells => ?_⟩
      · obtain ⟨⟨_, state⟩, _⟩ := (stores.heap.pairs cells).exists_state
        rw [none] at state
        cases state
      · obtain ⟨_, _, state⟩ := (stores.heap.pairs cells).exists_state
        rw [none'] at state
        cases state }
  have spares (m : Keepers) (k : Ref) : m.Spares [] k := ⟨by simp, by simp⟩
  refine ⟨⟨?_, ?_⟩, ?_⟩
  · refine stores.heap.turn turns (fun _ => .inl ⟨spares _ _, spares _ _⟩) ?_ ?_
    · exact .plain (s.heap.state?_new c) (s'.heap.state?_new c') (states.mono grows)
    · exact (s.heap.site?_new c).trans (site.trans (s'.heap.site?_new c').symm)
  · exact fun id => optionRel_imp (fun _ _ => Rally.Paired.mono grows) (stores.rallies id)
  · intro frames frames' stack forcing forcing'
    exact stack.turn turns (fun _ _ => spares _ _) (fun _ _ => spares _ _) forcing forcing'

end

/-! ### One action at a time -/

/-- What a known cell holds is like itself. -/
theorem CellState.Within.bonded {M : Manner} {G : Set Ref} {c : CellState}
    (within : c.Within M G False) : c.Bonded M (.among G) c := by
  cases within with
  | vacant waits => exact waits.elim
  | pending works => exact .pending works
  | forcing => exact .forcing
  | redirect known => exact .redirect ⟨rfl, known⟩
  | forced values => exact .forced values

section
variable {T : Pairing} {L : Set Ref} {s t s' t' : Store}

theorem Store.works_fill {handle : Ref} (vacant : s.heap.state? handle = some .vacant)
    (target : Ref) :
    s.Works [handle] { s with heap := s.heap.setState handle (.redirect target) } [] where
  before := Heap.before_setState vacant (.fill target)
  others q c other known := by
    rw [Heap.state?_setState_ne (by simpa using other), known]
  fresh := by simp
  rest := rfl

theorem Heap.Pair.vacant_iff {h h' : Heap} {r q : Ref} (pair : h.Pair T L h' r q) :
    h.state? r = some .vacant ↔ h'.state? q = some .vacant := by
  cases pair with
  | plain state state' states =>
    rw [state, state']
    cases states <;> simp
  | strung waits waits' =>
    obtain ⟨w, state⟩ := waits.exists_state
    obtain ⟨w', state'⟩ := waits'.exists_state
    simp [state, state']

theorem Heap.Forcing.ne {h : Heap} {r : Ref} {frames : List Frame}
    (forcing : h.Forcing (cellsOf frames)) (idle : h.state? r ≠ some .forcing) :
    ∀ f ∈ frames, f.cell ≠ r := by
  rintro f mem rfl
  exact idle (forcing f.cell (List.mem_map_of_mem mem))

theorem Heap.Forcing.works {own left cells : List Ref} (forcing : s.heap.Forcing cells)
    (works : s.Works own t left) (apart : ∀ r ∈ cells, r ∉ own) : t.heap.Forcing cells :=
  fun r mem => works.others r _ (apart r mem) (forcing r mem)

/-- Stores that are paired, with frames that wait in them. -/
structure Pairing.Holds (T : Pairing) (L : Set Ref) (frames frames' : List Frame) (s s' : Store) :
    Prop where
  stores : s.Paired T L s'
  stack : Stacked T L s.heap s'.heap frames frames'
  forcing : s.heap.Forcing (cellsOf frames)
  forcing' : s'.heap.Forcing (cellsOf frames')

/-- Whatever like scripts do, stores stay paired, and frames go on waiting in them. -/
theorem Pairing.keeps (L : Set Ref) (frames frames' : List Frame) :
    Manner.loaded.Keeps fun B s s' => ∃ T : Pairing, T.bond = B ∧ T.Holds L frames frames' s s' where
  rallies := by
    rintro _ s s' ⟨T, rfl, holds⟩
    exact holds.stores.rallies
  rest := by
    rintro _ s s' t t' ⟨T, rfl, ⟨heap, _⟩, stack, forcing, forcing'⟩ same same' rallies
    exact ⟨T, rfl, ⟨same ▸ same' ▸ heap, rallies⟩, same ▸ same' ▸ stack, same ▸ forcing,
      same' ▸ forcing'⟩
  alloc := by
    rintro _ s s' ⟨T, rfl, stores, stack, forcing, forcing'⟩ c c' site states
    obtain ⟨paired, later⟩ := stores.alloc c c' site states
    exact ⟨_, T.le_hand _ _ _ _, .inr ⟨rfl, rfl⟩, .inr ⟨rfl, rfl⟩, _, rfl, paired,
      later _ _ stack forcing forcing', forcing.works (s.works_alloc c) (by simp),
      forcing'.works (s'.works_alloc c') (by simp)⟩
  vacant := by
    rintro _ s s' ⟨T, rfl, holds⟩ r q cells
    exact (holds.stores.heap.pairs cells).vacant_iff
  fill := by
    rintro _ s s' ⟨T, rfl, stores, stack, forcing, forcing'⟩ r q target target' cells targets vacant
      vacant'
    have works := s.works_fill vacant target
    have works' := s'.works_fill vacant' target'
    have others := forcing.ne (r := r) (by simp [vacant])
    have others' := forcing'.ne (r := q) (by simp [vacant'])
    obtain ⟨paired, later⟩ := stores.change cells works works' (Heap.state?_setState_self vacant _)
      (Heap.state?_setState_self vacant' _) (.redirect targets)
    refine ⟨_, T.le_hand _ _ _ _, _, rfl, paired, later _ _ stack forcing forcing' others others',
      forcing.works works ?_, forcing'.works works' ?_⟩
    · rintro o mem mine
      obtain ⟨f, waiting, rfl⟩ := List.mem_map.1 mem
      exact others f waiting (List.mem_singleton.1 mine)
    · rintro o mem mine
      obtain ⟨f, waiting, rfl⟩ := List.mem_map.1 mem
      exact others' f waiting (List.mem_singleton.1 mine)

end
end CallByNeed
