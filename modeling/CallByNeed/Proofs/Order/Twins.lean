import CallByNeed.Proofs.Known.Acts
import CallByNeed.Proofs.Likeness.Peers

/- Cells that were made alike, in heaps in which nothing has been forced. Two such cells need not be
   at one address, and neither heap says in which order its cells were made. -/
namespace CallByNeed

/-- Code is forced purely, and faults may have passed any sites. -/
def Manner.quiet : Manner where
  chains := fun _ _ => True
  chains_nil := trivial
  lax := False
  hosted := False
  strays := False

theorem Manner.quiet_joins : Manner.quiet.Joins := fun _ _ _ _ _ => trivial

theorem Bond.le_add (B : Bond) (pairs : List (Ref × Ref)) : B ≤ B.add pairs :=
  ⟨fun _ _ => Or.inl, fun _ _ => id⟩

/-- What two cells hold that were made alike. -/
inductive OriginLike (B : Bond) : CellState → CellState → Prop where
  | made {c c' : CellState} (states : StateLike .quiet B c c') : OriginLike B c c'
  | redirect {t t' : Ref} (targets : B.cells t t') : OriginLike B (.redirect t) (.redirect t')

/-- Effects that have been made of like bodies, and not been performed. -/
inductive EffectLike (B : Bond) : CellState → CellState → Prop where
  | made {b b' : Body} {ps ps' : List Ref} {site site' : Option Location}
      (bodies : BodyLike .quiet B true ps.length b b') (parameters : RefsLike B ps ps') :
      EffectLike B (.pending { task := .resume (.action b ps), site })
        (.pending { task := .resume (.action b' ps'), site := site' })

/-- Bonded cells were made alike, and so were those they mention. -/
structure Bond.Fits (B : Bond) (g g' : Heap) : Prop where
  cells : ∀ r r', B.cells r r' →
    ∃ c c', g.state? r = some c ∧ g'.state? r' = some c' ∧ OriginLike B c c'
  actions : ∀ r r', B.actions r r' →
    ∃ c c', g.state? r = some c ∧ g'.state? r' = some c' ∧ EffectLike B c c'

namespace Heap

/-- There may be new cells, and vacant ones may have been filled. -/
def Grows (g g' : Heap) : Prop :=
  ∀ r c, g.state? r = some c → c ≠ .vacant → g'.state? r = some c

/-- All the cells that were made alike. -/
def twins (g g' : Heap) : Bond where
  cells := fun r r' => ∃ B : Bond, B.Fits g g' ∧ B.cells r r'
  actions := fun r r' => ∃ B : Bond, B.Fits g g' ∧ B.actions r r'

theorem grows_refl (g : Heap) : g.Grows g := fun _ _ state _ => state

theorem Grows.trans {g g' g'' : Heap} (first : g.Grows g') (second : g'.Grows g'') :
    g.Grows g'' :=
  fun r c state full => second r c (first r c state full) full

theorem grows_alloc (g : Heap) (c : Cell) : g.Grows (g.alloc c).2 :=
  fun _ _ state _ => state?_alloc_of_some state c

theorem grows_fill {g : Heap} {handle : Ref} (vacant : g.state? handle = some .vacant)
    (c : CellState) : g.Grows (g.setState handle c) := by
  intro r c' state full
  have other : r ≠ handle := by
    rintro rfl
    rw [vacant] at state
    cases state
    exact full rfl
  rw [state?_setState_ne other, state]

end Heap

section
variable {B C : Bond} {g g' g'' a a' : Heap} {c c' c'' : CellState} {r r' t : Ref}

theorem OriginLike.mono (grows : B ≤ C) (like : OriginLike B c c') : OriginLike C c c' := by
  cases like with
  | made states => exact .made (states.mono grows)
  | redirect targets => exact .redirect (grows.1 _ _ targets)

theorem StateLike.full (like : StateLike .quiet B c c') : c ≠ .vacant ∧ c' ≠ .vacant := by
  cases like with
  | vacant strays => exact strays.elim
  | pending works => simp
  | forced values => simp

theorem StateLike.idle (like : StateLike .quiet B c c') : c' ≠ .forcing := by
  cases like with
  | vacant strays => exact strays.elim
  | pending works => simp
  | forced values => simp

theorem OriginLike.full (like : OriginLike B c c') : c ≠ .vacant ∧ c' ≠ .vacant := by
  cases like with
  | made states => exact states.full
  | redirect targets => simp

theorem OriginLike.peers (left : OriginLike B c c') (right : OriginLike C c c'') :
    OriginLike (B.peers C) c' c'' := by
  cases left with
  | made states =>
    cases right with
    | made states' => exact .made (states.peers Manner.quiet_joins states')
    | redirect targets => cases states
  | redirect targets =>
    cases right with
    | made states => cases states
    | redirect targets' => exact .redirect ⟨_, targets, targets'⟩

theorem EffectLike.mono (grows : B ≤ C) (like : EffectLike B c c') : EffectLike C c c' := by
  cases like with
  | made bodies parameters => exact .made (bodies.mono grows) (parameters.mono grows)

theorem EffectLike.full (like : EffectLike B c c') : c ≠ .vacant ∧ c' ≠ .vacant := by
  cases like with
  | made bodies parameters => simp

theorem EffectLike.peers (left : EffectLike B c c') (right : EffectLike C c c'') :
    EffectLike (B.peers C) c' c'' := by
  cases left with
  | made bodies parameters =>
    cases right with
    | made bodies' parameters' =>
      have count : _ = _ := parameters.length_eq
      exact .made (count ▸ bodies.peers bodies') (parameters.peers parameters')

namespace Heap

theorem le_twins (fits : B.Fits g g') : B ≤ g.twins g' :=
  ⟨fun _ _ cells => ⟨B, fits, cells⟩, fun _ _ actions => ⟨B, fits, actions⟩⟩

theorem twins_fits (g g' : Heap) : (g.twins g').Fits g g' := by
  constructor
  · rintro r r' ⟨B, fits, cells⟩
    obtain ⟨c, c', state, state', like⟩ := fits.cells r r' cells
    exact ⟨c, c', state, state', like.mono (le_twins fits)⟩
  · rintro r r' ⟨B, fits, actions⟩
    obtain ⟨c, c', state, state', like⟩ := fits.actions r r' actions
    exact ⟨c, c', state, state', like.mono (le_twins fits)⟩

theorem twins_mono (left : g.Grows a) (right : g'.Grows a') : g.twins g' ≤ a.twins a' := by
  refine le_twins ⟨fun r r' cells => ?_, fun r r' actions => ?_⟩
  · obtain ⟨c, c', state, state', like⟩ := (twins_fits g g').cells r r' cells
    exact ⟨c, c', left r c state like.full.1, right r' c' state' like.full.2, like⟩
  · obtain ⟨c, c', state, state', like⟩ := (twins_fits g g').actions r r' actions
    exact ⟨c, c', left r c state like.full.1, right r' c' state' like.full.2, like⟩

/-- What stands for one thing are twins themselves. -/
theorem peers_le_twins (g g' g'' : Heap) :
    (g.twins g').peers (g.twins g'') ≤ g'.twins g'' := by
  refine le_twins ⟨?_, ?_⟩
  · rintro q u ⟨o, cells, cells'⟩
    obtain ⟨c, c', state, state', like⟩ := (twins_fits g g').cells o q cells
    obtain ⟨d, d', again, state'', like'⟩ := (twins_fits g g'').cells o u cells'
    rw [state] at again
    cases again
    exact ⟨c', d', state', state'', like.peers like'⟩
  · rintro q u ⟨o, actions, actions'⟩
    obtain ⟨c, c', state, state', like⟩ := (twins_fits g g').actions o q actions
    obtain ⟨d, d', again, state'', like'⟩ := (twins_fits g g'').actions o u actions'
    rw [state] at again
    cases again
    exact ⟨c', d', state', state'', like.peers like'⟩

/-- Cells that stand for one cell are twins themselves. -/
theorem twins_peers (left : (g.twins g').cells r r') (right : (g.twins g'').cells r t) :
    (g'.twins g'').cells r' t :=
  (peers_le_twins g g' g'').1 r' t ⟨r, left, right⟩

/-- Pairs of cells are twins if they hold the like, given that they are. -/
theorem twins_of_pairs {pairs : List (Ref × Ref)}
    (each : ∀ p ∈ pairs, ∃ c c', g.state? p.1 = some c ∧ g'.state? p.2 = some c' ∧
      OriginLike ((g.twins g').add pairs) c c') :
    ∀ p ∈ pairs, (g.twins g').cells p.1 p.2 := by
  have fits : ((g.twins g').add pairs).Fits g g' := by
    constructor
    · rintro r r' (old | new)
      · obtain ⟨c, c', state, state', like⟩ := (twins_fits g g').cells r r' old
        exact ⟨c, c', state, state', like.mono (Bond.le_add _ _)⟩
      · exact each (r, r') new
    · intro r r' actions
      obtain ⟨c, c', state, state', like⟩ := (twins_fits g g').actions r r' actions
      exact ⟨c, c', state, state', like.mono (Bond.le_add _ _)⟩
  exact fun p mem => (le_twins fits).1 _ _ (.inr mem)

theorem twins_of_like (state : g.state? r = some c) (state' : g'.state? r' = some c')
    (like : StateLike .quiet (g.twins g') c c') : (g.twins g').cells r r' := by
  suffices each : ∀ p ∈ [(r, r')], (g.twins g').cells p.1 p.2 from each _ (List.mem_singleton_self _)
  refine twins_of_pairs fun p mem => ?_
  obtain rfl := List.mem_singleton.1 mem
  exact ⟨c, c', state, state', .made (like.mono (Bond.le_add _ _))⟩

/-- Effects are twins if they were made alike among twins. -/
theorem twins_of_effects (state : g.state? r = some c) (state' : g'.state? r' = some c')
    (like : EffectLike (g.twins g') c c') : (g.twins g').actions r r' := by
  let B : Bond :=
    { g.twins g' with actions := fun q q' => (g.twins g').actions q q' ∨ q = r ∧ q' = r' }
  have grows : g.twins g' ≤ B := ⟨fun _ _ => id, fun _ _ => .inl⟩
  have fits : B.Fits g g' := by
    constructor
    · intro q q' cells
      obtain ⟨d, d', found, found', like⟩ := (twins_fits g g').cells q q' cells
      exact ⟨d, d', found, found', like.mono grows⟩
    · rintro q q' (old | ⟨rfl, rfl⟩)
      · obtain ⟨d, d', found, found', like⟩ := (twins_fits g g').actions q q' old
        exact ⟨d, d', found, found', like.mono grows⟩
      · exact ⟨c, c', state, state', like.mono grows⟩
  exact (le_twins fits).2 r r' (.inr ⟨rfl, rfl⟩)

/-- What twins hold. -/
inductive Twinned (g g' : Heap) (r r' : Ref) : Prop where
  | pending {w w' : Work} (left : g.state? r = some (.pending w))
      (right : g'.state? r' = some (.pending w')) (works : WorkLike .quiet (g.twins g') w w')
  | forced {v v' : Value} (left : g.state? r = some (.forced v))
      (right : g'.state? r' = some (.forced v')) (values : ValueLike .quiet (g.twins g') v v')
  | redirect {t t' : Ref} (left : g.state? r = some (.redirect t))
      (right : g'.state? r' = some (.redirect t')) (targets : (g.twins g').cells t t')

theorem twinned (cells : (g.twins g').cells r r') : g.Twinned g' r r' := by
  obtain ⟨c, c', state, state', like⟩ := (twins_fits g g').cells r r' cells
  cases like with
  | made states =>
    cases states with
    | vacant strays => exact strays.elim
    | pending works => exact .pending state state' works
    | forced values => exact .forced state state' values
  | redirect targets => exact .redirect state state' targets

end Heap
end
end CallByNeed
