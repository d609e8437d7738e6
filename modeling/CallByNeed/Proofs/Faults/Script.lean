import CallByNeed.Proofs.Accounts.Paths

/- Scripts that pass on every fault they are answered. Once a demand is answered with a fault, such a
   script has ended with it, so of all answers it has got only the last one can be a fault. -/
namespace CallByNeed
namespace Script
variable {α β : Type}

/-- A demand that is answered with such a fault ends the script with that fault. -/
def PassesOn (P : Fault → Prop) : Script α → Prop
  | .done _ | .raise _ | .panic _ | .stall => True
  | .demand _ _ next => (∀ e, P e → next (.error e) = .raise e) ∧ ∀ v, PassesOn P (next v)
  | .act _ next => ∀ x, PassesOn P (next x)
  | .ask _ next => ∀ x, PassesOn P (next x)

/-- A demand that is answered with a fault ends the script with that fault. -/
def Strict : Script α → Prop
  | .done _ | .raise _ | .panic _ | .stall => True
  | .demand _ _ next => (∀ e, next (.error e) = .raise e) ∧ ∀ v, Strict (next v)
  | .act _ next => ∀ x, Strict (next x)
  | .ask _ next => ∀ x, Strict (next x)

section
variable {P : Fault → Prop} {g h : Heap} {m m' : Script α} {log : List (Ref × Value)} {r : Ref}
variable {e : Fault}

theorem PassesOn.goes (passes : m.PassesOn P) (path : m.Goes g h log m') : m'.PassesOn P := by
  induction path with
  | start => exact passes
  | demand _ _ ih => exact ih.2 _
  | alloc _ _ ih => exact ih _
  | act _ _ ih => exact ih _
  | ask _ ih => exact ih _

/-- Wherever such a fault has come up, the script raises it and does nothing more. -/
theorem PassesOn.raises (passes : m.PassesOn P) (path : m.Goes g h log m')
    (met : (r, .error e) ∈ log) (such : P e) : m' = .raise e := by
  induction path with
  | start => cases met
  | @demand log how q next v path replies ih =>
    rcases List.mem_append.1 met with earlier | last
    · cases ih earlier
    · cases List.mem_singleton.1 last
      exact (passes.goes path).1 e such
  | alloc _ _ ih | act _ _ ih | ask _ ih => cases ih met

theorem PassesOn.follows {o : Except Fault α} (passes : m.PassesOn P) (path : m.Follows g h log o)
    (met : (r, .error e) ∈ log) (such : P e) : o = .error e := by
  induction path with
  | done | raise => cases met
  | @demand how q next v log o replies rest ih =>
    rcases List.mem_cons.1 met with first | later
    · cases first
      rw [passes.1 e such] at rest
      cases rest
      rfl
    · exact ih (passes.2 v) later
  | alloc _ _ ih | act _ _ ih | ask _ ih => exact ih (passes _) met

theorem PassesOn.bind {f : α → Script β} (passes : m.PassesOn P) (rest : ∀ a, (f a).PassesOn P) :
    (m >>= f).PassesOn P := by
  change (m.bind f).PassesOn P
  induction m with
  | done a => exact rest a
  | raise | panic | stall => trivial
  | demand how r next ih =>
    refine ⟨fun e such => ?_, fun v => ih v (passes.2 v)⟩
    change (next (.error e)).bind f = .raise e
    rw [passes.1 e such]
    rfl
  | act a next ih => exact fun x => ih x (passes x)
  | ask q next ih => exact fun x => ih x (passes x)

/-! ### Scripts that pass on all faults -/

theorem strict_iff : m.Strict ↔ m.PassesOn fun _ => True := by
  induction m with
  | done | raise | panic | stall => exact Iff.rfl
  | demand how r next ih => simp only [Strict, PassesOn, ih, true_implies]
  | act a next ih | ask q next ih => simp only [Strict, PassesOn, ih]

theorem Strict.passesOn (strict : m.Strict) : m.PassesOn P := by
  induction m with
  | done | raise | panic | stall => trivial
  | demand how r next ih => exact ⟨fun e _ => strict.1 e, fun v => ih v (strict.2 v)⟩
  | act a next ih => exact fun x => ih x (strict x)
  | ask q next ih => exact fun x => ih x (strict x)

theorem Strict.raises (strict : m.Strict) (path : m.Goes g h log m')
    (met : (r, .error e) ∈ log) : m' = .raise e :=
  (strict_iff.1 strict).raises path met trivial

theorem Strict.follows {o : Except Fault α} (strict : m.Strict) (path : m.Follows g h log o)
    (met : (r, .error e) ∈ log) : o = .error e :=
  (strict_iff.1 strict).follows path met trivial

/-- Who is told what a script has failed with may let some of the faults be and pass on the others. -/
theorem Strict.attempt {f : Except Fault α → Script β} (strict : m.Strict)
    (raises : ∀ e, P e → f (.error e) = .raise e) (rest : ∀ x, (f x).PassesOn P) :
    (m.attempt >>= f).PassesOn P := by
  change (m.attempt.bind f).PassesOn P
  induction m with
  | done a => exact rest (.ok a)
  | raise e => exact rest (.error e)
  | panic | stall => trivial
  | demand how r next ih =>
    refine ⟨fun e such => ?_, fun v => ih v (strict.2 v)⟩
    change (next (.error e)).attempt.bind f = .raise e
    rw [strict.1 e]
    exact raises e such
  | act a next ih => exact fun x => ih x (strict x)
  | ask q next ih => exact fun x => ih x (strict x)

end

/-! ### Strict scripts one after the other -/

section
variable {m : Script α} {f : α → Script β}

theorem Strict.bind (strict : m.Strict) (rest : ∀ a, (f a).Strict) : (m >>= f).Strict :=
  strict_iff.2 ((strict_iff.1 strict).bind fun a => strict_iff.1 (rest a))

theorem strict_pure (a : α) : (pure a : Script α).Strict := trivial

theorem strict_fail (c : Cause) : (fail c : Script α).Strict := trivial

/-- What ends a script needs no more than its answer. -/
theorem Strict.map (strict : m.Strict) (f : α → β) : (m >>= fun a => pure (f a)).Strict :=
  strict.bind fun a => strict_pure (f a)

theorem strict_act (a : Action) : (act a done).Strict := fun _ => trivial

theorem strict_alloc (c : Cell) : (alloc c : Script Ref).Strict := strict_act _

theorem strict_allocValue (v : Value) : (allocValue v : Script Ref).Strict := strict_alloc _

theorem strict_allocCall (v : Value) (positionals : List Ref) :
    (allocCall v positionals : Script Ref).Strict :=
  (strict_allocValue v).bind fun _ => strict_alloc _

theorem strict_fillHandle (handle target : Ref) : (fillHandle handle target).Strict := by
  intro filled
  cases filled <;> trivial

theorem strict_force (r : Ref) : (force r).Strict := by
  refine ⟨fun e => rfl, fun v => ?_⟩
  cases v <;> trivial

theorem strict_forceNumber (r : Ref) : (forceNumber r).Strict :=
  (strict_force r).bind fun v => by cases v <;> trivial

theorem strict_forceString (r : Ref) : (forceString r).Strict :=
  (strict_force r).bind fun v => by cases v <;> trivial

theorem strict_forceBool (r : Ref) : (forceBool r).Strict :=
  (strict_force r).bind fun v => by cases v <;> trivial

theorem strict_forceList (r : Ref) : (forceList r).Strict :=
  (strict_force r).bind fun v => by cases v <;> trivial

theorem strict_forceDict (r : Ref) : (forceDict r).Strict :=
  (strict_force r).bind fun v => by cases v <;> trivial

theorem strict_foldlM {γ : Type} {f : α → γ → Script α} (each : ∀ a x, (f a x).Strict) (l : List γ)
    (a : α) : (l.foldlM f a).Strict := by
  induction l generalizing a with
  | nil => exact strict_pure a
  | cons x l ih =>
    rw [List.foldlM_cons]
    exact (each a x).bind ih

theorem strict_mapM {γ : Type} {f : γ → Script α} (each : ∀ x, (f x).Strict) (l : List γ) :
    (l.mapM f).Strict := by
  induction l with
  | nil =>
    rw [List.mapM_nil]
    exact strict_pure _
  | cons x l ih =>
    rw [List.mapM_cons]
    exact (each x).bind fun _ => ih.map _

end
end Script
end CallByNeed
