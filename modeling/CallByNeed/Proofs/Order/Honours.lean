import CallByNeed.Proofs.Order.Meaning
import CallByNeed.Proofs.Safety.Script

/- Heaps in which some cells have been forced. Such a heap honours the one that has the cells as they
   were made: each cell that has got a value got what it means there. Every way in which a cell
   changes keeps this up. -/
namespace CallByNeed

/-- How a cell that was made in one state may have changed. Nothing takes over the work of tails, and
    no effect is performed. -/
inductive CellState.Became : CellState → CellState → Prop where
  | same {c : CellState} (idle : c ≠ .forcing) : Became c c
  | busy {w : Work} (calm : ¬ w.Performs) : Became (.pending w) .forcing
  | done {w : Work} (calm : ¬ w.Performs) (v : Value) : Became (.pending w) (.forced v)

/-- Work that is done alike is not that of an effect. -/
theorem WorkLike.calm {B : Bond} {w w' : Work} (works : WorkLike .quiet B w w') :
    ¬ w.Performs ∧ ¬ w'.Performs := by
  obtain ⟨task, site⟩ := w
  obtain ⟨task', site'⟩ := w'
  obtain ⟨tasks, _⟩ := works
  constructor <;> rintro ⟨b, ps, same⟩ <;> cases same <;> cases tasks with
    | resume suspensions =>
      cases suspensions with
      | action hosted => exact hosted.elim

namespace Heap

/-- `h` has the cells of `g`, some of them forced. -/
structure Honours (bound : Nat) (g h : Heap) : Prop where
  size : g.size = h.size
  cells : ∀ r, Option.Rel CellState.Became (g.state? r) (h.state? r)
  honest : ∀ r w v, g.state? r = some (.pending w) → h.state? r = some (.forced v) →
    ∃ n, g.Means bound n (.cell r) v

/-- The same cells are being forced, and these handles are vacant if they were. -/
structure Kept (h h' : Heap) (spared : Ref → Prop) : Prop where
  forcing : ∀ r, h'.state? r = some .forcing ↔ h.state? r = some .forcing
  vacant : ∀ r, spared r → h.state? r = some .vacant → h'.state? r = some .vacant

section
variable {bound more n : Nat} {g h h' h'' : Heap} {r t : Ref} {v : Value} {w : Work}
variable {c : CellState}

namespace Honours

theorem now (honours : g.Honours bound h) (state : g.state? r = some c) :
    ∃ c', h.state? r = some c' ∧ c.Became c' := by
  have cells := honours.cells r
  rw [state] at cells
  generalize h.state? r = o at cells
  cases cells with
  | some became => exact ⟨_, rfl, became⟩

theorem origin (honours : g.Honours bound h) (state : h.state? r = some c) :
    ∃ c', g.state? r = some c' ∧ c'.Became c := by
  have cells := honours.cells r
  rw [state] at cells
  generalize g.state? r = o at cells
  cases cells with
  | some became => exact ⟨_, rfl, became⟩

theorem idle (honours : g.Honours bound h) (r : Ref) : g.state? r ≠ some .forcing := by
  intro state
  obtain ⟨c, _, became⟩ := honours.now state
  cases became with
  | same idle => exact idle rfl

theorem vacant (honours : g.Honours bound h) (state : h.state? r = some .vacant) :
    g.state? r = some .vacant := by
  obtain ⟨c, origin, became⟩ := honours.origin state
  cases became with
  | same idle => exact origin

theorem pending (honours : g.Honours bound h) (state : h.state? r = some (.pending w)) :
    g.state? r = some (.pending w) := by
  obtain ⟨c, origin, became⟩ := honours.origin state
  cases became with
  | same idle => exact origin

theorem redirect (honours : g.Honours bound h) (state : h.state? r = some (.redirect t)) :
    g.state? r = some (.redirect t) := by
  obtain ⟨c, origin, became⟩ := honours.origin state
  cases became with
  | same idle => exact origin

/-- A cell that has a value means it. -/
theorem means (honours : g.Honours bound h) (state : h.state? r = some (.forced v)) :
    ∃ n, g.Means bound n (.cell r) v := by
  obtain ⟨c, origin, became⟩ := honours.origin state
  cases became with
  | same idle => exact ⟨0, .forced origin (.same v)⟩
  | @done w => exact honours.honest r w v origin state

end Honours

/-- In a heap in which no cell is being forced, every cell may still mean what it meant. -/
theorem honours_self (bound : Nat) (idle : ∀ r, g.state? r ≠ some .forcing) :
    g.Honours bound g where
  size := rfl
  cells := by
    intro r
    cases state : g.state? r with
    | none => exact .none
    | some c =>
      refine .some (.same ?_)
      rintro rfl
      exact idle r state
  honest := by
    intro r w v pending forced
    rw [pending] at forced
    cases forced

namespace Honours

theorem alloc (honours : g.Honours bound h) {c : Cell} (idle : c.state ≠ .forcing) :
    (g.alloc c).1 = (h.alloc c).1 ∧ (g.alloc c).2.Honours bound (h.alloc c).2 := by
  have same : (g.alloc c).1 = (h.alloc c).1 := by simp [Heap.alloc, honours.size]
  refine ⟨same, ?_, ?_, ?_⟩
  · have size := honours.size
    simp only [Heap.size] at size
    simp [Heap.size, Heap.alloc, size]
  · intro r
    rw [state?_alloc, state?_alloc, same]
    by_cases new : r = (h.alloc c).1
    · rw [if_pos new, if_pos new]
      exact .some (.same idle)
    · rw [if_neg new, if_neg new]
      exact honours.cells r
  · intro r w v pending forced
    rw [state?_alloc] at pending forced
    rw [same] at pending
    by_cases new : r = (h.alloc c).1
    · rw [if_pos new] at pending forced
      rw [pending] at forced
      cases forced
    · rw [if_neg new] at pending forced
      obtain ⟨n, means⟩ := honours.honest r w v pending forced
      exact ⟨n, means.mono (g.grows_alloc c)⟩

/-- A cell is changed in the heap that is forced. -/
theorem set (honours : g.Honours bound h) (pending : g.state? r = some (.pending w))
    {c : CellState} (became : CellState.Became (.pending w) c)
    (means : ∀ v, c = .forced v → ∃ n, g.Means bound n (.cell r) v) :
    g.Honours bound (h.setState r c) := by
  obtain ⟨c', before, _⟩ := honours.now pending
  refine ⟨?_, ?_, ?_⟩
  · rw [size_setState]
    exact honours.size
  · intro q
    by_cases same : q = r
    · subst same
      rw [state?_setState_self before, pending]
      exact .some became
    · rw [state?_setState_ne same]
      exact honours.cells q
  · intro q w' v origin forced
    by_cases same : q = r
    · subst same
      rw [state?_setState_self before] at forced
      exact means v (Option.some.inj forced)
    · rw [state?_setState_ne same] at forced
      exact honours.honest q w' v origin forced

theorem start (honours : g.Honours bound h) (pending : h.state? r = some (.pending w))
    (calm : ¬ w.Performs) : g.Honours bound (h.setState r .forcing) :=
  honours.set (honours.pending pending) (.busy calm) (by simp)

theorem publish (honours : g.Honours bound h) (forcing : h.state? r = some .forcing)
    (means : g.Means bound n (.cell r) v) : g.Honours bound (h.publish r v) := by
  obtain ⟨c, origin, became⟩ := honours.origin forcing
  cases became with
  | same idle => exact absurd rfl idle
  | busy calm =>
    refine honours.set origin (.done calm v) ?_
    rintro _ ⟨⟩
    exact ⟨n, means⟩

/-- A handle is filled in both. -/
theorem fill (honours : g.Honours bound h) (vacant : h.state? r = some .vacant) (t : Ref) :
    (g.setState r (.redirect t)).Honours bound (h.setState r (.redirect t)) := by
  have origin := honours.vacant vacant
  refine ⟨?_, ?_, ?_⟩
  · rw [size_setState, size_setState]
    exact honours.size
  · intro q
    by_cases same : q = r
    · subst same
      rw [state?_setState_self origin, state?_setState_self vacant]
      exact .some (.same (by simp))
    · rw [state?_setState_ne same, state?_setState_ne same]
      exact honours.cells q
  · intro q w v pending forced
    by_cases same : q = r
    · subst same
      rw [state?_setState_self vacant] at forced
      cases forced
    · rw [state?_setState_ne same] at pending forced
      obtain ⟨n, means⟩ := honours.honest q w v pending forced
      exact ⟨n, means.mono (grows_fill origin _)⟩

theorem raise (honours : g.Honours bound h) (le : bound ≤ more) : g.Honours more h where
  size := honours.size
  cells := honours.cells
  honest := by
    intro r w v pending forced
    obtain ⟨n, means⟩ := honours.honest r w v pending forced
    exact ⟨n, means.raise le (.cell r)⟩

end Honours

variable {spared wider : Ref → Prop}

theorem kept_refl (h : Heap) (spared : Ref → Prop) : h.Kept h spared :=
  ⟨fun _ => .rfl, fun _ _ => id⟩

theorem Kept.weaken (kept : h.Kept h' wider) (narrow : ∀ r, spared r → wider r) :
    h.Kept h' spared :=
  ⟨kept.forcing, fun r spares => kept.vacant r (narrow r spares)⟩

theorem Kept.trans (first : h.Kept h' spared) (second : h'.Kept h'' wider)
    (wide : ∀ r, spared r → h.state? r = some .vacant → wider r) : h.Kept h'' spared where
  forcing := fun r => (second.forcing r).trans (first.forcing r)
  vacant := fun r spares state => second.vacant r (wide r spares state) (first.vacant r spares state)

theorem kept_alloc (h : Heap) {c : Cell} (idle : c.state ≠ .forcing) (spared : Ref → Prop) :
    h.Kept (h.alloc c).2 spared where
  forcing := by
    intro r
    rw [state?_alloc]
    split
    · next new =>
      subst new
      rw [show (h.alloc c).1 = ⟨h.size⟩ from rfl, state?_size]
      simp [idle]
    · rfl
  vacant := fun _ _ state => state?_alloc_of_some state c

theorem kept_fill (vacant : h.state? r = some .vacant) (t : Ref) (others : ∀ q, spared q → q ≠ r) :
    h.Kept (h.setState r (.redirect t)) spared where
  forcing := by
    intro q
    by_cases same : q = r
    · subst same
      rw [state?_setState_self vacant, vacant]
      simp
    · rw [state?_setState_ne same]
  vacant := by
    intro q spares state
    rw [state?_setState_ne (others q spares), state]

/-- A cell is forced while nothing else changes but what is kept. -/
theorem kept_of_forced (pending : h.state? r = some (.pending w))
    (kept : (h.setState r .forcing).Kept h' spared) (v : Value) :
    h.Kept (h'.publish r v) spared where
  forcing := by
    intro q
    by_cases same : q = r
    · subst same
      have forcing := (kept.forcing q).2 (state?_setState_self pending _)
      rw [Heap.publish, state?_setState_self forcing, pending]
      simp
    · rw [Heap.publish, state?_setState_ne same, kept.forcing q, state?_setState_ne same]
  vacant := by
    intro q spares state
    have other : q ≠ r := by
      rintro rfl
      rw [pending] at state
      cases state
    rw [Heap.publish, state?_setState_ne other]
    exact kept.vacant q spares (by rw [state?_setState_ne other, state])

end
end Heap
end CallByNeed
