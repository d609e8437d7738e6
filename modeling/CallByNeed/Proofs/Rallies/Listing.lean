import CallByNeed.Proofs.Known.Acts
import CallByNeed.Proofs.Rallies.Aloof
import Mathlib.Data.List.Nodup
import Mathlib.Data.List.Perm.Subperm

/- The books of a rally, which say what has been listed and in which order, and the scripts that keep
   them. No order of reports and late arguments lists one place twice. -/
namespace CallByNeed

namespace Rally

/-- The arguments at these places have been listed, in this order, and no others. -/
structure Counts (y : Rally) (order : List Nat) : Prop where
  sizes : y.listed.size = y.arguments.size
  once : order.Nodup
  marks : ∀ i, y.listed[i]? = some true ↔ i ∈ order
  left : y.left + order.length = y.arguments.size

variable {y : Rally} {order : List Nat} {i : Nat} {r : Ref}

theorem counts_ofRefs (arguments : List Ref) : (ofRefs arguments).Counts [] where
  sizes := by simp [ofRefs]
  once := .nil
  marks := by simp [ofRefs, Array.getElem?_replicate]
  left := by simp [ofRefs]

theorem Counts.report (counts : y.Counts order) (i : Nat) : (y.report i).Counts order :=
  ⟨counts.sizes, counts.once, counts.marks, counts.left⟩

theorem Counts.poll (counts : y.Counts order) : y.poll.2.Counts order := by
  obtain ⟨sizes, once, marks, left⟩ := counts
  unfold Rally.poll
  split
  · exact ⟨sizes, once, marks, left⟩
  · split
    · exact ⟨sizes, once, marks, left⟩
    · split
      · exact ⟨sizes, once, marks, left⟩
      · split <;> exact ⟨sizes, once, marks, left⟩

theorem reports_of_poll (polled : i ∈ y.poll.2.reports) : i ∈ y.reports := by
  unfold poll at polled
  split at polled
  · exact polled
  · split at polled
    · next same =>
      rw [same]
      exact List.mem_cons_of_mem _ polled
    · split at polled
      · exact polled
      · split at polled <;> exact polled

theorem mem_of_reported (reported : y.poll.1 = .reported i) : i ∈ y.reports := by
  unfold poll at reported
  split at reported
  · cases reported
  · split at reported
    · next same =>
      cases reported
      rw [same]
      exact List.mem_cons_self
    · split at reported
      · cases reported
      · split at reported <;> cases reported

theorem argument_of_late (late : y.poll.1 = .late i r) : y.arguments[i]? = some r := by
  unfold poll at late
  split at late
  · cases late
  · split at late
    · cases late
    · split at late
      · cases late
      · split at late
        · next found =>
          cases late
          exact found
        · cases late

/-- What has been listed are arguments. -/
theorem Counts.inside (counts : y.Counts order) : order ⊆ List.range y.arguments.size := by
  intro i member
  have marked := (counts.marks i).2 member
  have bound := (Array.getElem?_eq_some_iff.1 marked).1
  rw [counts.sizes] at bound
  exact List.mem_range.2 bound

/-- Only when nothing is left has a rally come to its end. -/
theorem Counts.left_of_exhausted (counts : y.Counts order) (exhausted : y.poll.1 = .exhausted) :
    y.left = 0 := by
  by_contra some_left
  unfold Rally.poll at exhausted
  rw [if_neg some_left] at exhausted
  split at exhausted
  · cases exhausted
  · split at exhausted
    · next none_left =>
      have all : List.range y.arguments.size ⊆ order := by
        intro i inside
        have bound : i < y.listed.size := by
          rw [counts.sizes]
          exact List.mem_range.1 inside
        have marked := Array.findIdx?_eq_none_iff.1 none_left y.listed[i] (Array.getElem_mem bound)
        apply (counts.marks i).1
        rw [Array.getElem?_eq_getElem bound]
        simpa using marked
      have many := (List.subperm_of_subset List.nodup_range all).length_le
      have left := counts.left
      rw [List.length_range] at many
      omega
    · next j found =>
      have bound := (Array.findIdx?_eq_some_iff_getElem.1 found).1
      rw [counts.sizes] at bound
      rw [Array.getElem?_eq_getElem bound] at exhausted
      cases exhausted

/-- To list an argument is to put its place behind all others. -/
theorem Counts.listed (counts : y.Counts order) (listed : (y.list i).1 = some r) :
    y.arguments[i]? = some r ∧ (y.list i).2.Counts (order ++ [i]) := by
  unfold Rally.list at listed ⊢
  split at listed
  · next unlisted argument =>
    cases listed
    have fresh : i ∉ order := by
      intro member
      rw [(counts.marks i).2 member] at unlisted
      cases unlisted
    have bound := (Array.getElem?_eq_some_iff.1 unlisted).1
    have once : (order ++ [i]).Nodup := by
      rw [← List.concat_eq_append]
      exact counts.once.concat fresh
    have more : (order ++ [i]).length ≤ y.arguments.size := by
      have within : order ++ [i] ⊆ List.range y.arguments.size := by
        refine List.append_subset.2 ⟨counts.inside, ?_⟩
        simpa [counts.sizes] using bound
      simpa using (List.subperm_of_subset once within).length_le
    refine ⟨argument, ⟨by simp [counts.sizes], once, fun j => ?_, ?_⟩⟩
    · rw [Array.getElem?_setIfInBounds]
      by_cases same : i = j
      · subst same
        simp [bound]
      · simp [same, Ne.symm same, counts.marks]
    · have left := counts.left
      simp only [List.length_append, List.length_singleton] at more ⊢
      omega
  · cases listed

theorem list_of_none (unlisted : (y.list i).1 = none) : (y.list i).2 = y := by
  unfold list at unlisted ⊢
  split
  · next other argument =>
    rw [other, argument] at unlisted
    cases unlisted
  · rfl

theorem reports_of_list (y : Rally) (i : Nat) : (y.list i).2.reports = y.reports := by
  unfold list
  split <;> rfl

/-- The elements at all places, in order, are all elements. -/
theorem filterMap_range (rs : List Ref) : (List.range rs.length).filterMap (rs[·]?) = rs := by
  induction rs with
  | nil => rfl
  | cons r rs ih =>
    simpa [List.range_succ_eq_map, List.filterMap_map, Function.comp_def] using ih

/-- The arguments that have been listed, and those that are left. -/
theorem Counts.parts (counts : y.Counts order) :
    ∃ rest : List Nat, rest.length = y.left ∧
      ((order ++ rest).filterMap (y.arguments[·]?)).Perm y.arguments.toList := by
  let rest := (List.range y.arguments.size).filter (· ∉ order)
  have apart : (order ++ rest).Nodup := by
    rw [List.nodup_append]
    refine ⟨counts.once, List.nodup_range.filter _, ?_⟩
    rintro i member j other rfl
    simp [rest, member] at other
  have whole : (order ++ rest).Perm (List.range y.arguments.size) := by
    refine (List.perm_ext_iff_of_nodup apart List.nodup_range).2 fun i => ?_
    have inside := @counts.inside
    simp only [List.mem_append, rest, List.mem_filter, List.mem_range]
    constructor
    · rintro (member | ⟨bound, _⟩)
      · exact List.mem_range.1 (inside member)
      · exact bound
    · intro bound
      by_cases member : i ∈ order
      · exact .inl member
      · exact .inr ⟨bound, by simpa using member⟩
  refine ⟨rest, ?_, ?_⟩
  · have size := whole.length_eq
    have left := counts.left
    simp only [List.length_append, List.length_range] at size
    omega
  · have all : (List.range y.arguments.size).filterMap (y.arguments[·]?) =
        y.arguments.toList := by
      simpa using filterMap_range y.arguments.toList
    exact all ▸ whole.filterMap _

end Rally

/-! ### The scripts of a rally -/

namespace Builtin

/-- How a tail of the list goes on once it knows what to list. -/
def listing (id : Nat) : Option Ref → Script Outcome
  | none => answer (.list .nil)
  | some head => do answer (.list (.cons head (← alloc (.ofSuspension (.rally id)))))

/-- Looks for the next argument to list. -/
def seeking (bound id : Nat) : Script Outcome := nextOfRally id bound >>= listing id

/-- Has found an argument, which somebody else may have found before. -/
def picking (bound id i : Nat) : Script Outcome :=
  .act (.listRally id i) fun
    | some r => listing id (some r)
    | none => seeking bound id

/-- Hands the arguments from a place on to the pool, and then lists them all. -/
def submitting (bound id i : Nat) (others : List Ref) : Script Outcome :=
  submitAll id i others >>= fun _ => seeking bound id

/-- The body of `rally` walks the list of the arguments to its end first. -/
def gathering (bound : Nat) (arguments : Ref) : Script (List Ref) :=
  forceList arguments >>= fun l => l.elements bound

/-- The body of `rally` once it has the elements of its list. -/
def rallyOf (bound : Nat) (arguments : List Ref) : Script Outcome :=
  .act (.openRally arguments) fun id => submitting bound id 0 arguments

variable {bound id i : Nat} {r : Ref} {others : List Ref}

theorem rallyCells_bind (bound id : Nat) :
    (rallyCells bound id >>= fun l => answer (.list l)) = seeking bound id := by
  unfold rallyCells seeking
  rw [bind_assoc]
  congr 1
  funext found
  cases found <;> rfl

theorem rallyAll_eq (bound : Nat) (arguments : Ref) :
    rallyAll bound arguments = gathering bound arguments >>= rallyOf bound := by
  unfold rallyAll gathering
  rw [bind_assoc]
  congr 1
  funext l
  congr 1
  funext rs
  simp only [rallyOf, submitting, ← rallyCells_bind]
  rfl

theorem submitting_nil : submitting bound id i [] = seeking bound id := rfl

theorem submitting_cons : submitting bound id i (r :: others) =
    .act (.submit { target := r, report := some (id, i) }) fun _ =>
      submitting bound id (i + 1) others :=
  rfl

theorem seeking_zero : seeking 0 id = .stall := rfl

theorem seeking_succ : seeking (bound + 1) id =
    .act (.pollRally id) fun
      | .exhausted => listing id none
      | .reported i => picking bound id i
      | .late i r => .demand .pure r fun _ => picking bound id i := by
  have list (i : Nat) : (Script.act (.listRally id i) fun
      | some r => (pure (some r) : Script (Option Ref))
      | none => nextOfRally id bound) >>= listing id = picking bound id i := by
    change Script.act _ _ = Script.act _ _
    congr 1
    funext listed
    cases listed <;> rfl
  change Script.act _ _ = Script.act _ _
  congr 1
  funext polled
  cases polled with
  | exhausted => rfl
  | reported i => exact list i
  | late i r =>
    change Script.demand _ _ _ = Script.demand _ _ _
    congr 1
    funext v
    exact list i

end Builtin

/-! ### Scripts in order -/

namespace Script
variable {α : Type} {bound : Nat}

/-- Whatever the script does about rallies, it does because it has come to the body of `rally`. -/
def Orderly (bound : Nat) : Script Outcome → Prop
  | .done _ | .raise _ | .panic _ | .stall => True
  | .demand _ _ next => ∀ v, Orderly bound (next v)
  | .act a next => (a.Aloof ∧ ∀ x, Orderly bound (next x)) ∨
      ∃ arguments, Script.act a next = Builtin.rallyOf bound arguments
  | .ask _ next => ∀ x, Orderly bound (next x)

theorem Aloof.orderly {m : Script Outcome} (aloof : m.Aloof) : m.Orderly bound := by
  induction m with
  | done | raise | panic | stall => trivial
  | demand how r next ih => exact fun v => ih v (aloof v)
  | act a next ih => exact .inl ⟨aloof.1, fun x => ih x (aloof.2 x)⟩
  | ask q next ih => exact fun x => ih x (aloof x)

theorem Aloof.bind_orderly {m : Script α} {f : α → Script Outcome} (aloof : m.Aloof)
    (rest : ∀ a, (f a).Orderly bound) : (m >>= f).Orderly bound := by
  change (m.bind f).Orderly bound
  induction m with
  | done a => exact rest a
  | raise | panic | stall => trivial
  | demand how r next ih => exact fun v => ih v (aloof v)
  | act a next ih => exact .inl ⟨aloof.1, fun x => ih x (aloof.2 x)⟩
  | ask q next ih => exact fun x => ih x (aloof x)

theorem orderly_rallyOf (arguments : List Ref) :
    (Builtin.rallyOf bound arguments).Orderly bound :=
  .inr ⟨arguments, rfl⟩

theorem orderly_rallyAll (arguments : Ref) :
    (Builtin.rallyAll bound arguments).Orderly bound := by
  rw [Builtin.rallyAll_eq]
  refine Aloof.bind_orderly ?_ orderly_rallyOf
  exact (aloof_forceList arguments).bind (LazyList.aloof_elements bound)

end Script

theorem Builtin.orderly_run (b : Builtin) (bound : Nat) (cells : List Ref) :
    (b.run bound cells).Orderly bound := by
  by_cases same : b = .rally
  · subst same
    rcases cells with _ | ⟨r, _ | ⟨r', cells⟩⟩
    · trivial
    · exact Script.orderly_rallyAll r
    · trivial
  · exact (aloof_run same bound cells).orderly

theorem Body.orderly_run (body : Body) (bound : Nat) (cells : List Ref) :
    (body.run bound cells).Orderly bound := by
  cases body with
  | builtin b => exact b.orderly_run bound cells
  | code bindings result =>
    refine Script.Aloof.bind_orderly (Expr.aloof_bindLocals bindings cells) fun locals => ?_
    exact Script.Aloof.orderly (by grind)
  | parameter i =>
    simp only [run]
    split <;> trivial
  | parameters => exact Script.Aloof.orderly (by grind [run])

theorem Value.orderly_call (v : Value) (bound : Nat) (arguments : Arguments) :
    (v.call bound arguments).Orderly bound := by
  unfold call
  split
  · next f =>
    refine Script.Aloof.bind_orderly (Signature.aloof_bind _ _) fun parameters => ?_
    split
    · exact Script.Aloof.orderly (by grind)
    · exact f.body.orderly_run bound parameters
  all_goals exact Script.Aloof.orderly (by grind)

/-- Work that is not to list an argument keeps to the order. -/
theorem Work.orderly_script {w : Work} (other : w.rally? = none) (bound : Nat) :
    (w.task.script bound).Orderly bound := by
  obtain ⟨task, site⟩ := w
  cases task with
  | call function arguments =>
    exact Script.Aloof.bind_orderly (Script.aloof_force function) fun v => v.orderly_call _ _
  | resume s =>
    cases s with
    | branch b matched => exact Script.Aloof.orderly (by grind [Task.script, Suspension.script])
    | concat tail rest => exact Script.Aloof.orderly (by grind [Task.script, Suspension.script])
    | entries es => exact Script.Aloof.orderly (by grind [Task.script, Suspension.script])
    | action body parameters => exact body.orderly_run bound parameters
    | rally id => cases other
    | traced label target => exact .inl ⟨trivial, fun _ => trivial⟩

theorem Work.script_of_rally? {w : Work} {id : Nat} (lists : w.rally? = some id) (bound : Nat) :
    w.task.script bound = Builtin.seeking bound id := by
  rw [Work.task_of_rally? lists]
  exact Builtin.rallyCells_bind bound id

end CallByNeed
