import CallByNeed.Proofs.Bundles.Pairing
import CallByNeed.Proofs.Reading.Endings

/- Two engines that force strung lists of paired pieces. Engines keep to who waits for which cell and
   who forces it, so a value that a frame gets is the value of the cell for which it waits. Hence both
   of them come to the same piece: they enter paired lists, or give a next cell with paired heads, and
   the rest of it is strung together from paired pieces again. -/
namespace CallByNeed
open Relation (ReflTransGen)

/-- The cell that a frame has demanded is the one that is forced above it. -/
def Heap.Asked (h : Heap) : Control → List Frame → Prop
  | _, [] => True
  | c, f :: frames =>
    (∀ how r next, f.wait = .reply how r next → c.Answers h r) ∧ Asked h (.enter f.cell) frames

/-- The engine forces the cells that it runs, each of them once, and those that are demanded. -/
structure Engine.Sound (x : Control × List Frame × Store) : Prop where
  forcing : x.2.2.heap.Forcing (x.1.cells ++ x.2.1.map Frame.cell)
  apart : (x.1.cells ++ x.2.1.map Frame.cell).Nodup
  asked : x.2.2.heap.Asked x.1 x.2.1

section
variable {E : Engine} {h h' : Heap} {c c' : Control} {frames frames' : List Frame} {s s' : Store}
variable {x y : Control × List Frame × Store}

theorem Heap.Evolves.asked (evolves : h.Evolves h') (asked : h.Asked c frames) :
    h'.Asked c frames := by
  induction frames generalizing c with
  | nil => trivial
  | cons f frames ih =>
    exact ⟨fun how r next wait => evolves.answers (asked.1 how r next wait), ih asked.2⟩

/-- Whatever is answered instead. -/
theorem Heap.Asked.answer (asked : h.Asked c frames)
    (answers : ∀ r, c.Answers h r → c'.Answers h r) : h.Asked c' frames := by
  cases frames with
  | nil => trivial
  | cons f frames => exact ⟨fun how r next wait => answers r (asked.1 how r next wait), asked.2⟩

/-- The cell for which somebody waits has its value. -/
theorem Heap.Asked.publish {cell : Ref} (asked : h.Asked (.enter cell) frames)
    (forcing : h.state? cell = some .forcing) (v : Value) :
    (h.publish cell v).Asked (.give v) frames := by
  cases frames with
  | nil => trivial
  | cons f frames =>
    refine ⟨fun how r next wait => ?_, (evolves_publish forcing v).asked asked.2⟩
    exact yields_published forcing (asked.1 how r next wait) v

theorem Engine.Advance.asked (step : E.Advance c frames s c' frames' s')
    (forcing : s.heap.Forcing (c.cells ++ frames.map Frame.cell)) (asked : s.heap.Asked c frames) :
    s'.heap.Asked c' frames' := by
  cases step with
  | found forced => exact asked.answer fun r path => ⟨_, path, forced⟩
  | follow redirect => exact asked.answer fun r path => path.tail redirect
  | start pending =>
    exact (Heap.evolves_setState pending (.start _)).asked (asked.answer fun r path => path)
  | @value cell | @fault cell =>
    have entered : s.heap.Asked (.enter cell) frames := asked.answer fun _ path => path
    exact entered.publish (forcing cell (by simp [Control.cells])) _
  | splice splices pending =>
    exact (Heap.evolves_setState pending (.splice _ _)).asked (asked.answer fun r path => path)
  | tail keeps =>
    refine ⟨fun how r next wait => ?_, asked.answer fun r path => path⟩
    cases wait
  | demand =>
    refine ⟨?_, asked.answer fun r path => path⟩
    rintro how r next ⟨⟩
    exact ReflTransGen.refl
  | act => exact (Store.served_act forcing _).evolves.asked (asked.answer fun r path => path)
  | pass => exact asked.2.publish (forcing _ (by simp [Control.cells])) _
  | resume reply => exact asked.2.answer fun r path => path
  | perform reply =>
    refine ⟨?_, asked.2⟩
    rintro how r next ⟨⟩
    exact ReflTransGen.refl

namespace Engine

theorem Sound.move (sound : Sound x) (move : E.Moves x y) : Sound y := by
  have served := Advance.served move sound.forcing sound.apart
  have apart : ([] ++ ((x.1.cells ++ x.2.1.map Frame.cell) ++ [])).Nodup := by
    simpa using sound.apart
  have forcing : x.2.2.heap.Forcing ([] ++ ((x.1.cells ++ x.2.1.map Frame.cell) ++ [])) := by
    simpa using sound.forcing
  exact ⟨served.forcing, by simpa using served.apart apart forcing,
    Advance.asked move sound.forcing sound.asked⟩

theorem Sound.moves (sound : Sound x) (moves : ReflTransGen E.Moves x y) : Sound y := by
  induction moves with
  | refl => exact sound
  | tail _ move ih => exact ih.move move

theorem Sound.before (sound : Sound x) (move : E.Moves x y) : x.2.2.heap.Before y.2.2.heap :=
  Advance.before move sound.forcing

/-- A frame that gets a value has waited for a cell that yields it. -/
theorem Sound.yields {cell r : Ref} {site : Option Location} {how : Demand}
    {next : Value → Script Outcome} {v : Value}
    (sound : Sound (.give v, { cell, site, wait := .reply how r next } :: frames, s)) :
    s.heap.Yields r v :=
  sound.asked.1 how r next rfl

/-- Cells that run do no harm to the frames below. -/
theorem moves_with_base (moves : ReflTransGen E.Moves x y) (base : List Frame) :
    ReflTransGen E.Moves (x.1, x.2.1 ++ base, x.2.2) (y.1, y.2.1 ++ base, y.2.2) := by
  induction moves with
  | refl => exact .refl
  | tail _ move ih => exact ih.tail (Advance.append move base)

/-- There is one next step. -/
theorem moves_of_move {z : Control × List Frame × Store} (moves : ReflTransGen E.Moves x y)
    (move : E.Moves x z) (more : y ≠ x) : ReflTransGen E.Moves z y := by
  rcases moves.cases_head with same | ⟨z', first, rest⟩
  · exact absurd same.symm more
  · obtain ⟨c, frames, s⟩ := z
    obtain ⟨c', frames', s'⟩ := z'
    have one : E.step x.1 x.2.1 x.2.2 = .next c' frames' s' := step_of_advance first
    rw [step_of_advance (show E.Advance x.1 x.2.1 x.2.2 c frames s from move)] at one
    cases one
    exact rest

end Engine
end

/-! ### Paired engines -/

inductive Control.Paired (T : Pairing) : Control → Control → Prop where
  | enter {r q : Ref} (cells : T.cells r q) : Paired T (.enter r) (.enter q)
  | run {cell cell' : Ref} (site : Option Location) {held : Held} {script script' : Script Outcome}
      (cells : T.cells cell cell') (mine : held.Bonded T.bond)
      (scripts : script.Bonded .loaded T.bond (Settled .loaded) held script') :
      Paired T (.run cell site script) (.run cell' site script')
  | give {v v' : Value} (values : ValueLike .loaded T.bond v v') : Paired T (.give v) (.give v')

structure Engine.Paired (T : Pairing) (L : Set Ref) (x y : Control × List Frame × Store) :
    Prop where
  control : x.1.Paired T y.1
  stack : Stacked T L x.2.2.heap y.2.2.heap x.2.1 y.2.1
  stores : x.2.2.Paired T L y.2.2

/-- What a cell works with: itself, and what has been kept by the cell whose work it does. -/
def Keepers.Has (m : Keepers) (i k : Ref) (own : List Ref) : Prop := ∀ o ∈ own, o = k ∨ m o = some i

section
variable {m : Keepers} {known : Ref → Prop} {s t : Store} {own left : List Ref} {i j k r : Ref}

namespace Keepers.Has

/-- The cell is known, and nothing else that it works with. -/
theorem not_mem (has : m.Has i k own) (hidden : m.Hidden s.heap known) (other : known r)
    (ne : r ≠ k) : r ∉ own := by
  intro mem
  rcases has r mem with same | kept
  · exact ne same
  · exact (hidden r i kept).2 other

theorem spares (has : m.Has i k own) (hidden : m.Hidden s.heap known) (cell : known k)
    (other : r ∉ own) (ne : r ≠ i) : m.Spares own r := by
  refine ⟨other, fun o mem kept => ?_⟩
  rcases has o mem with rfl | kept'
  · exact (hidden o r kept).2 cell
  · rw [kept'] at kept
    cases kept
    exact ne rfl

/-- What is left of the work is known to nobody. -/
theorem unknown (has : m.Has i k own) (hidden : m.Hidden s.heap known)
    (known_state : ∀ o, known o → ∃ c, s.heap.state? o = some c) (works : s.Works own t left)
    (mem : r ∈ left) (other : r ≠ k) : ¬ known r := by
  intro yes
  rcases works.fresh r mem with mine | new
  · exact has.not_mem hidden yes other mine
  · obtain ⟨c, state⟩ := known_state r yes
    rw [new] at state
    cases state

/-- What is left of the work can be handed on. -/
theorem turns (has : m.Has i k own) (hidden : m.Hidden s.heap known)
    (known_state : ∀ o, known o → ∃ c, s.heap.state? o = some c) (works : s.Works own t left)
    (keeper : j ∈ own ∨ j ∈ left) (same : k ∈ left → k = j) : m.Turns known s own left j t := by
  refine ⟨works, keeper.elim .inl fun mem => .inr (.inl mem), fun o mem other => ?_⟩
  refine has.unknown hidden known_state works mem ?_
  rintro rfl
  exact other (same mem)

/-- What has been kept by a known cell is still kept when its work has gone. -/
theorem hand_nothing (has : m.Has i k own) (hidden : m.Hidden s.heap known) (keeper : known i) :
    (m.hand [] i).Has i k own := by
  intro o mem
  refine (has o mem).imp id fun kept => ?_
  have other : o ≠ i := by
    rintro rfl
    exact (hidden o o kept).2 keeper
  simp [hand, other, kept]

end Keepers.Has
end

/-- Two cells at work, in pairs. What goes on below does not concern them. If they do the work of
    other cells, these lead to them. -/
structure Pairing.Sides (T : Pairing) (L : Set Ref) (s : Store) (own : List Ref) (i k : Ref)
    (base : List Frame) (s' : Store) (own' : List Ref) (i' k' : Ref) (base' : List Frame) :
      Prop where
  stores : s.Paired T L s'
  cells : T.cells k k'
  has : T.mine.Has i k own
  has' : T.mine'.Has i' k' own'
  mine : k ∈ own
  mine' : k' ∈ own'
  spliced : i = k ∧ i' = k' ∨ i ≠ k ∧ T.cells i i' ∧ s.heap.state? i = some (.redirect k) ∧
    s'.heap.state? i' = some (.redirect k')
  stack : Stacked T L s.heap s'.heap base base'
  below : s.heap.Forcing (cellsOf base)
  below' : s'.heap.Forcing (cellsOf base')
  apart : ∀ f ∈ base, f.cell ∉ own
  apart' : ∀ f ∈ base', f.cell ∉ own'

section
variable {T : Pairing} {L : Set Ref} {s s' t t' : Store} {own own' left left' : List Ref}
variable {i i' j j' k k' : Ref} {base base' frames frames' : List Frame}
  {pieces pieces' : List Piece}

namespace Pairing.Sides

theorem sites (sides : T.Sides L s own i k base s' own' i' k' base') (works : s.Works own t left)
    (works' : s'.Works own' t' left') : t.heap.site? k = t'.heap.site? k' := by
  obtain ⟨⟨_, state⟩, _, state'⟩ := (sides.stores.heap.pairs sides.cells).exists_state
  rw [works.before.site state, works'.before.site state', sides.stores.heap.sites sides.cells]

/-- Frames below wait for other cells than those whose work is done. -/
theorem ne (sides : T.Sides L s own i k base s' own' i' k' base') :
    (∀ f ∈ base, f.cell ≠ i) ∧ ∀ f ∈ base', f.cell ≠ i' := by
  rcases sides.spliced with ⟨rfl, rfl⟩ | ⟨_, _, redirect, redirect'⟩
  · refine ⟨fun f mem same => sides.apart f mem ?_, fun f mem same => sides.apart' f mem ?_⟩
    · exact same ▸ sides.mine
    · exact same ▸ sides.mine'
  · exact ⟨sides.below.ne (by simp [redirect]), sides.below'.ne (by simp [redirect'])⟩

/-- Work has been done on either side, and what is left of it is handed to paired cells. -/
theorem turn (sides : T.Sides L s own i k base s' own' i' k' base')
    (works : s.Works own t left) (works' : s'.Works own' t' left')
    (live : ∀ o ∈ left, ∃ c, t.heap.state? o = some c)
    (live' : ∀ o ∈ left', ∃ c, t'.heap.state? o = some c) (keeper : j ∈ own ∨ j ∈ left)
    (keeper' : j' ∈ own' ∨ j' ∈ left') (same : k ∈ left → k = j) (same' : k' ∈ left' → k' = j')
    (unique : T.cells j j' ∨ (∀ q, ¬ T.cells j q) ∧ ∀ r, ¬ T.cells r j')
    (pair : t.heap.Pair (T.hand left j left' j') L t'.heap k k')
    (new : t.heap.Pair (T.hand left j left' j') L t'.heap j j')
    (site : t.heap.site? j = t'.heap.site? j') :
    t.Paired (T.hand left j left' j') L t' ∧
      Stacked (T.hand left j left' j') L t.heap t'.heap base base' := by
  have heap := sides.stores.heap
  have grows := T.le_hand left j left' j'
  have known : ∃ q, T.cells k q := ⟨k', sides.cells⟩
  have known' : ∃ r, T.cells r k' := ⟨k, sides.cells⟩
  have turns : T.Turns s own left j t s' own' left' j' t' :=
    { turns := sides.has.turns heap.hidden (fun o ⟨q, paired⟩ => (heap.pairs paired).exists_state.1)
        works keeper same
      turns' := sides.has'.turns heap.hidden' (fun o ⟨r, paired⟩ =>
        (heap.pairs paired).exists_state.2)
        works' keeper' same'
      live, live', unique }
  refine ⟨⟨?_, ?_⟩, ?_⟩
  · refine heap.turn turns (fun {r q} paired => ?_) new site
    by_cases one : r = k
    · obtain rfl := one
      obtain rfl := (heap.unique paired sides.cells).1 rfl
      exact .inr pair
    have one' : q ≠ k' := fun same => one ((heap.unique paired sides.cells).2 same)
    have away := sides.has.not_mem heap.hidden ⟨q, paired⟩ one
    have away' := sides.has'.not_mem heap.hidden' ⟨r, paired⟩ one'
    -- A cell whose work is done elsewhere still leads there.
    have other : (r ≠ i ∧ q ≠ i') ∨ t.heap.Pair (T.hand left j left' j') L t'.heap r q := by
      rcases sides.spliced with ⟨rfl, rfl⟩ | ⟨_, cells, redirect, redirect'⟩
      · exact .inl ⟨one, one'⟩
      · by_cases same : r = i
        · obtain rfl := same
          obtain rfl := (heap.unique paired cells).1 rfl
          exact .inr (.plain (works.others r _ away redirect) (works'.others q _ away' redirect')
            (.redirect (grows.1 _ _ sides.cells)))
        · exact .inl ⟨same, fun same' => same ((heap.unique paired cells).2 same')⟩
    exact other.imp (fun ⟨ne, ne'⟩ => ⟨sides.has.spares heap.hidden known away ne,
      sides.has'.spares heap.hidden' known' away' ne'⟩) id
  · rw [works.rest, works'.rest]
    exact fun id => optionRel_imp (fun _ _ => Rally.Paired.mono grows) (sides.stores.rallies id)
  · obtain ⟨ne, ne'⟩ := sides.ne
    refine sides.stack.turn turns (fun f mem => ?_) (fun f mem => ?_) sides.below sides.below'
    · exact sides.has.spares heap.hidden known (sides.apart f mem) (ne f mem)
    · exact sides.has'.spares heap.hidden' known' (sides.apart' f mem) (ne' f mem)

/-- Both sides have a value, and nobody works any more. -/
theorem settled {v v' : Value} (sides : T.Sides L s own i k base s' own' i' k' base')
    (works : s.Works own t []) (works' : s'.Works own' t' [])
    (known : t.heap.state? k = some (.forced v)) (known' : t'.heap.state? k' = some (.forced v'))
    (values : ValueLike .loaded T.bond v v') :
    ∃ U, T.bond ≤ U.bond ∧ Engine.Paired U L (.give v, base, t) (.give v', base', t') := by
  have grows := T.le_hand [] k [] k'
  have states : (CellState.forced v).Bonded .loaded (T.hand [] k [] k').bond (.forced v') :=
    .forced (values.mono grows)
  obtain ⟨stores, stack⟩ := sides.turn works works' (by simp) (by simp) (.inl sides.mine)
    (.inl sides.mine') (by simp) (by simp) (.inl sides.cells) (.plain known known' states)
    (.plain known known' states) (sides.sites works works')
  exact ⟨_, grows, .give (values.mono grows), stack, stores⟩

/-- Both sides enter lists of which nothing is known. -/
theorem entered {r q : Ref} {strict strict' : Bool}
    (sides : T.Sides L s own i k base s' own' i' k' base')
    (source : Piece.Paired T.bond L (.list r strict) (.list q strict'))
    (asks : Frame.Asks r strict frames) (asks' : Frame.Asks q strict' frames')
    (awaits : t.heap.Awaits frames pieces left) (awaits' : t'.heap.Awaits frames' pieces' left')
    (works : s.Works own t (left ++ cellsOf frames))
    (works' : s'.Works own' t' (left' ++ cellsOf frames'))
    (apart : (left ++ cellsOf frames).Nodup) (apart' : (left' ++ cellsOf frames').Nodup)
    (last : (cellsOf frames).getLast? = some k) (last' : (cellsOf frames').getLast? = some k')
    (same : List.Forall₂ (Piece.Paired T.bond L) pieces pieces')
    (forcing : t.heap.Forcing (cellsOf frames)) (forcing' : t'.heap.Forcing (cellsOf frames')) :
    ∃ U, T.bond ≤ U.bond ∧ Engine.Paired U L (.enter r, frames ++ base, t)
      (.enter q, frames' ++ base', t') := by
  have grows := T.le_hand (left ++ cellsOf frames) k (left' ++ cellsOf frames') k'
  have live {h : Heap} {frames : List Frame} {pieces : List Piece} {left : List Ref}
      (awaits : h.Awaits frames pieces left) (forcing : h.Forcing (cellsOf frames)) :
      ∀ o ∈ left ++ cellsOf frames, ∃ c, h.state? o = some c := by
    intro o mem
    rcases List.mem_append.1 mem with waits | runs
    · obtain ⟨w, state⟩ := awaits.pending o waits
      exact ⟨_, state⟩
    · exact ⟨_, forcing o runs⟩
  have busy := forcing k (List.mem_of_getLast? last)
  have busy' := forcing' k' (List.mem_of_getLast? last')
  obtain ⟨stores, stack⟩ := sides.turn works works' (live awaits forcing) (live awaits' forcing')
    (.inl sides.mine) (.inl sides.mine') (fun _ => rfl) (fun _ => rfl) (.inl sides.cells)
    (.plain busy busy' .forcing) (.plain busy busy' .forcing) (sides.sites works works')
  have group : t.heap.Group (T.mine.hand (left ++ cellsOf frames) k) frames k _ :=
    ⟨left, awaits, Keepers.keeps_hand apart, last⟩
  have group' : t'.heap.Group (T.mine'.hand (left' ++ cellsOf frames') k') frames' k' _ :=
    ⟨left', awaits', Keepers.keeps_hand apart', last'⟩
  have waiting := same.imp fun _ _ => Piece.Paired.mono grows
  have groups := Heap.Groups.intro group group' (Or.inr ⟨rfl, rfl⟩) waiting asks asks'
    (source.mono grows)
  have cells : T.cells r q := by
    cases source
    assumption
  exact ⟨_, grows, .enter (.inl cells), .group groups stack, stores⟩

/-- Both sides give the next cell, and the rest of the list waits in new cells. -/
theorem given {head head' tail tail' : Ref} (sides : T.Sides L s own i k base s' own' i' k' base')
    (heads : T.cells head head') (strung : t.heap.Strung true tail pieces left)
    (strung' : t'.heap.Strung true tail' pieces' left') (ready : t.heap.Ready tail left)
    (ready' : t'.heap.Ready tail' left') (works : s.Works own t left)
    (works' : s'.Works own' t' left')
    (apart : left.Nodup) (apart' : left'.Nodup)
    (known : t.heap.state? k = some (.forced (.list (.cons head tail))))
    (known' : t'.heap.state? k' = some (.forced (.list (.cons head' tail'))))
    (same : List.Forall₂ (Piece.Paired T.bond L) pieces pieces') :
    ∃ U, T.bond ≤ U.bond ∧ Engine.Paired U L (.give (.list (.cons head tail)), base, t)
      (.give (.list (.cons head' tail')), base', t') := by
  have grows := T.le_hand left tail left' tail'
  have values : ValueLike .loaded (T.hand left tail left' tail').bond (.list (.cons head tail))
      (.list (.cons head' tail')) := .list (.cons (.inl heads) (.inr ⟨rfl, rfl⟩))
  have live {h : Heap} {r : Ref} {pieces : List Piece} {left : List Ref}
      (strung : h.Strung true r pieces left) : ∀ o ∈ left, ∃ c, h.state? o = some c := by
    intro o mem
    obtain ⟨w, state⟩ := strung.pending o mem
    exact ⟨_, state⟩
  -- The two cells have their value now, and whatever is left still waits.
  have settles {h : Heap} {r k : Ref} {v : Value} {pieces : List Piece} {left : List Ref}
      (strung : h.Strung true r pieces left) (known : h.state? k = some (.forced v)) :
        k ∉ left := by
    intro mem
    obtain ⟨w, state⟩ := strung.pending k mem
    rw [known] at state
    cases state
  have gone := settles strung known
  have gone' := settles strung' known'
  have heap := sides.stores.heap
  have fresh : ∀ q, ¬ T.cells tail q := fun q cells =>
    sides.has.unknown heap.hidden (fun o ⟨q, paired⟩ => (heap.pairs paired).exists_state.1) works
      ready.1 (fun same => gone (same ▸ ready.1)) ⟨q, cells⟩
  have fresh' : ∀ r, ¬ T.cells r tail' := fun r cells =>
    sides.has'.unknown heap.hidden' (fun o ⟨r, paired⟩ => (heap.pairs paired).exists_state.2) works'
      ready'.1 (fun same => gone' (same ▸ ready'.1)) ⟨r, cells⟩
  obtain ⟨own₁, rfl⟩ := strung.exists_cons ready.1
  obtain ⟨own₁', rfl⟩ := strung'.exists_cons ready'.1
  have waits : t.heap.Waits (T.mine.hand (tail :: own₁) tail) tail _ :=
    ⟨own₁, strung, Keepers.keeps_hand apart⟩
  have waits' : t'.heap.Waits (T.mine'.hand (tail' :: own₁') tail') tail' _ :=
    ⟨own₁', strung', Keepers.keeps_hand apart'⟩
  obtain ⟨stores, stack⟩ := sides.turn works works' (live strung) (live strung') (.inr ready.1)
    (.inr ready'.1) (fun mem => absurd mem gone) (fun mem => absurd mem gone')
      (.inr ⟨fresh, fresh'⟩)
    (.plain known known' (.forced values))
    (.strung waits waits' (same.imp fun _ _ => Piece.Paired.mono grows))
      (ready.2.trans ready'.2.symm)
  exact ⟨_, grows, .give values, stack, stores⟩

/-- Both sides come to the same piece. -/
theorem arrived {y y' : Control × List Frame × Store}
    (sides : T.Sides L s own i k base s' own' i' k' base')
    (arrived : Engine.Arrived s own (some k) pieces y)
    (arrived' : Engine.Arrived s' own' (some k') pieces' y')
    (same : List.Forall₂ (Piece.Paired T.bond L) pieces pieces')
    (forcing : y.2.2.heap.Forcing (cellsOf y.2.1))
    (forcing' : y'.2.2.heap.Forcing (cellsOf y'.2.1)) :
    ∃ U, T.bond ≤ U.bond ∧ Engine.Paired U L (y.1, y.2.1 ++ base, y.2.2)
      (y'.1, y'.2.1 ++ base', y'.2.2) := by
  cases arrived with
  | source asks awaits works apart last =>
    cases same with
    | cons source same =>
    cases source with
    | list cells care =>
    cases arrived' with
    | source asks' awaits' works' apart' last' =>
    exact sides.entered (.list cells care) asks asks' awaits awaits' works works' apart apart' last
      last' same forcing forcing'
  | ended works settled =>
    cases same
    cases arrived' with
    | ended works' settled' =>
    exact sides.settled works works' (settled k rfl) (settled' k' rfl) (.list .nil)
  | cell strung ready works apart settled =>
    cases same with
    | cons piece same =>
    cases piece with
    | element heads =>
    cases arrived' with
    | cell strung' ready' works' apart' settled' =>
    exact sides.given heads strung strung' ready ready' works works' apart apart' (settled k rfl)
      (settled' k' rfl) same

end Pairing.Sides
end
end CallByNeed
