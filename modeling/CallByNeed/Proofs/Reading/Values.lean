import CallByNeed.Proofs.Likeness.Same
import CallByNeed.Proofs.Likeness.Values
import CallByNeed.Proofs.Reading.Scripts

/- Keys, order and equality of values only demand cells, so what they come to is what they read; and
   what they read within some bound they read within every larger one. -/
namespace CallByNeed

/-- What a script reads a script reads that goes on where the first one gives up. -/
theorem Script.Reads.of_alike {α : Type} {h : Heap} {m m' : Script α} {o : Except Fault α}
    (reads : m.Reads h o) (like : Alike .exact .same Eq m m') : m'.Reads h o := by
  unfold Alike at like
  induction reads generalizing m' with
  | done =>
    cases like with
    | done results =>
      obtain ⟨_, results⟩ := results
      cases results with
      | ok same =>
        cases same
        exact .done
  | raise =>
    cases like with
    | raise results =>
      obtain ⟨_, results⟩ := results
      cases results with
      | error faults =>
        cases faults.eq_of_exact
        exact .raise
  | demand replies _ ih =>
    cases like with
    | demand _ cells rest =>
      cases cells
      exact .demand replies (ih (rest _ _ (Value.like_refl Manner.exact_admits _)))

namespace LazyList
variable {β γ : Type}

theorem isReader_walk {visit : β → Ref → Script (ForInStep β)}
    (each : ∀ b r, (visit b r).IsReader) (bound : Nat) (l : LazyList) (b : β) :
    (l.walk visit bound b).IsReader := by
  induction bound generalizing l b with
  | zero => exact .stall
  | succ bound ih =>
    cases l with
    | nil => exact .done b
    | cons head tail =>
      refine (each b head).bind fun step => ?_
      cases step with
      | done b' => exact .done b'
      | yield b' => exact (Script.isReader_forceList tail).bind fun l => ih l b'

theorem isReader_walkPairs {visit : Ref → Ref → Script (Option γ)} (ended : Ordering → γ)
    (each : ∀ x y, (visit x y).IsReader) (bound : Nat) (l l' : LazyList) :
    (l.walkPairs visit ended bound l').IsReader := by
  induction bound generalizing l l' with
  | zero => exact .stall
  | succ bound ih =>
    cases l with
    | nil => cases l' <;> exact .done _
    | cons x xs =>
      cases l' with
      | nil => exact .done _
      | cons y ys =>
        refine (each x y).bind fun answer => ?_
        cases answer with
        | some answer => exact .done answer
        | none =>
          refine (Script.isReader_forceList xs).bind fun l => ?_
          exact (Script.isReader_forceList ys).bind fun l' => ih l l'

end LazyList

section
variable {h : Heap} {bound bound' : Nat}

/-- A visit of two cells that forces them one after the other. -/
theorem Script.isReader_forceBoth {α β : Type} {f : Value → Value → Script α} {g : α → Script β}
    (compares : ∀ v u, (f v u).IsReader) (rest : ∀ a, (g a).IsReader) (x y : Ref) :
    (do
      let v ← force x
      g (← f v (← force y))).IsReader := by
  refine (isReader_force x).bind fun v => (isReader_force y).bind fun u => ?_
  exact (compares v u).bind rest

namespace Key

theorem isReader_ofEntries {f : Value → Script Key} (each : ∀ v, (f v).IsReader)
    (es : List (Key × Ref)) : (ofEntries f es).IsReader := by
  induction es with
  | nil => exact .done []
  | cons e es ih =>
    refine (Script.isReader_force e.2).bind fun v => (each v).bind fun x => ?_
    exact ih.bind fun _ => .done _

theorem isReader_ofValue (bound : Nat) (v : Value) : (ofValue bound v).IsReader := by
  induction bound generalizing v with
  | zero => exact .stall
  | succ bound ih =>
    cases v with
    | list l =>
      refine (LazyList.isReader_walk (fun keys r => ?_) bound l []).bind fun _ => .done _
      exact (Script.isReader_force r).bind fun v => (ih v).bind fun _ => .done _
    | dict d => exact (isReader_ofEntries ih d.entries).bind fun _ => .done _
    | error e => exact .raise e
    | function f => exact .raise _
    | native f => exact .raise _
    | effect action => exact .raise _
    | _ => exact .done _

theorem reads_ofValue_of_le {v : Value} {o : Except Fault Key} (le : bound ≤ bound')
    (reads : (ofValue bound v).Reads h o) : (ofValue bound' v).Reads h o :=
  reads.of_alike (alike_ofValue (.inr ⟨trivial, le⟩) (Value.like_refl Manner.exact_admits v))

end Key

namespace Value

theorem isReader_compareEntries {f : Value → Value → Script Ordering}
    (each : ∀ v u, (f v u).IsReader) (es gs : List (Key × Ref)) :
    (compareEntries f es gs).IsReader := by
  induction es generalizing gs with
  | nil => cases gs <;> exact .done _
  | cons e es ih =>
    cases gs with
    | nil => exact .done _
    | cons g gs =>
      simp only [compareEntries]
      split
      · refine Script.isReader_forceBoth each (fun o => ?_) e.2 g.2
        cases o with
        | eq => exact ih gs
        | lt => exact .done _
        | gt => exact .done _
      · exact .done _

theorem isReader_compare (bound : Nat) (v u : Value) : (compare bound v u).IsReader := by
  induction bound generalizing v u with
  | zero => exact .stall
  | succ bound ih =>
    unfold compare
    split
    · exact .raise _
    · exact .raise _
    · exact .done _
    · exact .done _
    · exact .done _
    · refine LazyList.isReader_walkPairs id (fun x y => ?_) bound _ _
      refine Script.isReader_forceBoth ih (fun o => ?_) x y
      cases o <;> exact .done _
    · exact isReader_compareEntries ih _ _
    · split <;> exact .raise _

theorem isReader_equalEntries {f : Value → Value → Script Bool} (each : ∀ v u, (f v u).IsReader)
    (es gs : List (Key × Ref)) : (equalEntries f es gs).IsReader := by
  induction es generalizing gs with
  | nil => exact .done _
  | cons e es ih =>
    cases gs with
    | nil => exact .done _
    | cons g gs =>
      simp only [equalEntries]
      split
      · refine Script.isReader_forceBoth each (fun same => ?_) e.2 g.2
        cases same with
        | true => exact ih gs
        | false => exact .done _
      · exact .done _

theorem isReader_equal (bound : Nat) (v u : Value) : (equal bound v u).IsReader := by
  induction bound generalizing v u with
  | zero => exact .stall
  | succ bound ih =>
    unfold equal
    split
    · exact .raise _
    · exact .raise _
    · exact .done _
    · exact .done _
    · exact .done _
    · refine LazyList.isReader_walkPairs _ (fun x y => ?_) bound _ _
      refine Script.isReader_forceBoth ih (fun same => ?_) x y
      cases same <;> exact .done _
    · split
      · exact isReader_equalEntries ih _ _
      · exact .done _
    · split
      · exact .raise _
      · split
        · exact .raise _
        · exact .done _

variable {v u : Value}

theorem reads_compare_of_le {o : Except Fault Ordering} (le : bound ≤ bound')
    (reads : (compare bound v u).Reads h o) : (compare bound' v u).Reads h o := by
  apply reads.of_alike
  apply alike_compare (.inr ⟨trivial, le⟩)
  · exact Value.like_refl Manner.exact_admits v
  · exact Value.like_refl Manner.exact_admits u

theorem reads_equal_of_le {o : Except Fault Bool} (le : bound ≤ bound')
    (reads : (equal bound v u).Reads h o) : (equal bound' v u).Reads h o := by
  apply reads.of_alike
  apply alike_equal (.inr ⟨trivial, le⟩)
  · exact Value.like_refl Manner.exact_admits v
  · exact Value.like_refl Manner.exact_admits u

end Value
end
end CallByNeed
