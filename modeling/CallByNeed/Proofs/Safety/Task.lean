import CallByNeed.Proofs.Safety.Builtins

/- The script of every cell settles if its work fits. A binding gives a body as many cells as it has
   parameters, so no body misses one; an effect's body is run for the effect alone. -/
namespace CallByNeed
open Script

section
variable {quiet : Prop}

theorem Builtin.settles_run {b : Builtin} (loud : b.isEffect = true → ¬ quiet) (bound : Nat)
    {cells : List Ref} (fits : cells.length = b.signature.arity) :
    (b.run bound cells).Settles quiet := by
  cases b with
  | sum =>
    obtain ⟨numbers, rfl⟩ := List.length_eq_one_iff.1 fits
    exact ((tame_foldNumbers _ _ _ _).bind fun _ => gives_answer (v := .number _) trivial).settles
  | product =>
    obtain ⟨numbers, rfl⟩ := List.length_eq_one_iff.1 fits
    exact ((tame_foldNumbers _ _ _ _).bind fun _ => gives_answer (v := .number _) trivial).settles
  | difference =>
    obtain ⟨head, others, rfl⟩ := List.length_eq_two.1 fits
    exact (gives_foldFrom _ _ _ _ _).settles
  | quotient =>
    obtain ⟨head, others, rfl⟩ := List.length_eq_two.1 fits
    exact (gives_foldFrom _ _ _ _ _).settles
  | floorQuotient =>
    obtain ⟨head, others, rfl⟩ := List.length_eq_two.1 fits
    exact (gives_foldFrom _ _ _ _ _).settles
  | remainder =>
    obtain ⟨left, right, rfl⟩ := List.length_eq_two.1 fits
    exact ((tame_forceNumber _).bind fun _ => (tame_forceNumber _).bind fun _ =>
      gives_answer (v := .number _) trivial).settles
  | power =>
    obtain ⟨left, right, rfl⟩ := List.length_eq_two.1 fits
    exact ((tame_forceNumber _).bind fun _ => (tame_forceNumber _).bind fun _ =>
      gives_answer (v := .number _) trivial).settles
  | isInt =>
    obtain ⟨r, rfl⟩ := List.length_eq_one_iff.1 fits
    exact ((tame_forceNumber _).bind fun _ => gives_answer (v := .bool _) trivial).settles
  | equal =>
    obtain ⟨arguments, rfl⟩ := List.length_eq_one_iff.1 fits
    exact (gives_allEqual _ _).settles
  | less =>
    obtain ⟨arguments, rfl⟩ := List.length_eq_one_iff.1 fits
    exact (gives_chained _ _ _ _).settles
  | lessEq =>
    obtain ⟨arguments, rfl⟩ := List.length_eq_one_iff.1 fits
    exact (gives_chained _ _ _ _).settles
  | greater =>
    obtain ⟨arguments, rfl⟩ := List.length_eq_one_iff.1 fits
    exact (gives_chained _ _ _ _).settles
  | greaterEq =>
    obtain ⟨arguments, rfl⟩ := List.length_eq_one_iff.1 fits
    exact (gives_chained _ _ _ _).settles
  | compare =>
    obtain ⟨left, right, rfl⟩ := List.length_eq_two.1 fits
    exact (gives_compareTwo _ _ _).settles
  | isOrdered =>
    obtain ⟨r, rfl⟩ := List.length_eq_one_iff.1 fits
    exact ((tame_force _).bind fun _ => gives_answer (v := .bool _) trivial).settles
  | merge =>
    obtain ⟨head, others, rfl⟩ := List.length_eq_two.1 fits
    exact (gives_mergeAll _ _ _).settles
  | append =>
    obtain ⟨l, elements, rfl⟩ := List.length_eq_two.1 fits
    exact ((tame_allocCall merge.fits_value _).bind fun _ => gives_tail _).settles
  | first =>
    obtain ⟨l, rfl⟩ := List.length_eq_one_iff.1 fits
    exact ((tame_forceList _).bind fun _ => (LazyList.tame_first _).bind fun _ =>
      gives_tail _).settles
  | rest =>
    obtain ⟨l, rfl⟩ := List.length_eq_one_iff.1 fits
    exact ((tame_forceList _).bind fun _ => (LazyList.tame_rest _).bind fun _ =>
      gives_tail _).settles
  | prepend =>
    obtain ⟨arguments, rfl⟩ := List.length_eq_one_iff.1 fits
    exact (gives_prependAll _ _).settles
  | insert =>
    obtain ⟨collection, key, value, rfl⟩ := List.length_eq_three.1 fits
    exact (gives_insertInto _ _ _ _).settles
  | delete =>
    obtain ⟨collection, key, rfl⟩ := List.length_eq_two.1 fits
    exact (gives_deleteFrom _ _ _).settles
  | «include» =>
    obtain ⟨collection, element, rfl⟩ := List.length_eq_two.1 fits
    exact (gives_includes _ _ _).settles
  | index =>
    obtain ⟨collection, key, rfl⟩ := List.length_eq_two.1 fits
    exact (gives_indexOf _ _ _).settles
  | size =>
    obtain ⟨collection, rfl⟩ := List.length_eq_one_iff.1 fits
    exact (gives_sizeOf _ _).settles
  | toList =>
    obtain ⟨collection, rfl⟩ := List.length_eq_one_iff.1 fits
    exact (gives_toLazyList _).settles
  | list =>
    obtain ⟨elements, rfl⟩ := List.length_eq_one_iff.1 fits
    exact (gives_tail _).settles
  | dict =>
    obtain ⟨arguments, rfl⟩ := List.length_eq_one_iff.1 fits
    exact (gives_dictOf _ _).settles
  | choose =>
    obtain ⟨condition, yes, no, rfl⟩ := List.length_eq_three.1 fits
    exact ((tame_forceBool _).bind fun _ => gives_tail _).settles
  | partialCall =>
    obtain ⟨function, arguments, keywords, rfl⟩ := List.length_eq_three.1 fits
    exact (gives_answer (v := .native _) trivial).settles
  | typeOf =>
    obtain ⟨r, rfl⟩ := List.length_eq_one_iff.1 fits
    exact ((gives_observe _).bind fun _ _ => gives_answer (v := .string _) trivial).settles
  | toStr =>
    obtain ⟨r, rfl⟩ := List.length_eq_one_iff.1 fits
    exact ((tame_force _).bind fun _ => (Value.tame_text _ _).bind fun _ =>
      gives_answer (v := .string _) trivial).settles
  | dump =>
    obtain ⟨r, rfl⟩ := List.length_eq_one_iff.1 fits
    exact ((tame_force _).bind fun _ => (Value.tame_dump _ _).bind fun _ =>
      gives_answer (v := .string _) trivial).settles
  | error =>
    obtain ⟨name, message, rfl⟩ := List.length_eq_two.1 fits
    refine Gives.settles ((tame_forceString _).bind fun _ => (tame_forceString _).bind fun _ => ?_)
    exact gives_fail _
  | «catch» =>
    obtain ⟨r, rfl⟩ := List.length_eq_one_iff.1 fits
    exact (gives_catchFault _).settles
  | fix =>
    obtain ⟨function, rfl⟩ := List.length_eq_one_iff.1 fits
    exact settles_fixedPoint _
  | fixAll =>
    obtain ⟨functions, rfl⟩ := List.length_eq_one_iff.1 fits
    exact settles_fixedPoints _ _
  | seq =>
    obtain ⟨head, others, rfl⟩ := List.length_eq_two.1 fits
    exact (gives_inSequence _ _ _).settles
  | effectSeq =>
    obtain ⟨head, others, rfl⟩ := List.length_eq_two.1 fits
    exact (gives_effectsInSequence (loud rfl) _ _ _).settles
  | par =>
    obtain ⟨head, others, rfl⟩ := List.length_eq_two.1 fits
    exact (gives_inParallel _ _ _).settles
  | rally =>
    obtain ⟨arguments, rfl⟩ := List.length_eq_one_iff.1 fits
    exact (gives_rallyAll _ _).settles
  | write =>
    obtain ⟨arguments, separator, ending, file, mode, rfl⟩ :
        ∃ a b c d e, cells = [a, b, c, d, e] := by
      match cells, fits with
      | [a, b, c, d, e], _ => exact ⟨a, b, c, d, e, rfl⟩
    exact (gives_writeTo (loud rfl) _ _ _ _ _ _).settles
  | read =>
    obtain ⟨file, rfl⟩ := List.length_eq_one_iff.1 fits
    exact (gives_readFrom _).settles

theorem Body.settles_run {body : Body} {isEffect : Bool} (loud : isEffect = true → ¬ quiet)
    (bound : Nat) {cells : List Ref} (fits : body.Fits isEffect cells.length) :
    (body.run bound cells).Settles quiet := by
  cases body with
  | builtin b => exact Builtin.settles_run (fun effect => loud (fits.2 effect)) bound fits.1.symm
  | code bindings result =>
    refine (Expr.gives_bindLocals fits.1).next fun locals count => ?_
    refine (Expr.tame_interpret ?_).next fun r => (gives_tail r).safe fun _ => id
    rw [count]
    exact fits.2
  | parameter i =>
    have found : cells[i]? = some (cells.get ⟨i, fits⟩) := List.getElem?_eq_getElem fits
    simp only [run, found]
    exact (gives_tail _).settles
  | parameters =>
    exact ((LazyList.tame_ofRefs _).bind fun _ => gives_answer (v := .list _) trivial).settles

namespace Value

theorem settles_call {v : Value} (fits : v.Fits) (bound : Nat) (a : Arguments) :
    (v.call bound a).Settles quiet := by
  cases v with
  | function f =>
    refine (f.signature.gives_bind a).next fun parameters count => ?_
    have body : f.body.Fits f.isEffect parameters.length := by
      rw [count]
      exact fits
    split
    · next effect =>
      rw [effect] at body
      exact ⟨body, nofun, nofun, fun _ => ⟨rfl, fun r => ⟨_, rfl, rfl⟩⟩⟩
    · next plain => exact Body.settles_run (fun effect => absurd effect plain) bound body
  | native f =>
    cases f with
    | partialCall f positionals keywords =>
      exact ((Arguments.tame_merge _ _).bind fun _ => (tame_allocOfCall _ _ _).bind fun r =>
        gives_tail r).settles
    | fixedPoint f self =>
      exact ((Arguments.tame_merge _ _).bind fun _ => (tame_allocOfCall _ _ _).bind fun r =>
        gives_tail r).settles
  | list l =>
    refine (indexSignature.gives_bind a).next fun parameters count => ?_
    obtain ⟨place, rfl⟩ := List.length_eq_one_iff.1 count
    exact ((tame_forceNumber place).bind fun _ => (LazyList.tame_index _ _).bind fun r =>
      gives_tail r).safe fun _ => id
  | dict d =>
    refine (indexSignature.gives_bind a).next fun parameters count => ?_
    obtain ⟨key, rfl⟩ := List.length_eq_one_iff.1 count
    exact ((tame_force key).bind fun _ => (Dict.tame_lookUp _ _ _).bind fun r =>
      gives_tail r).safe fun _ => id
  | _ => exact Gives.settles (gives_fail _)

end Value

theorem Suspension.settles_script {s : Suspension} (fits : s.Fits)
    (loud : ∀ body parameters, s = .action body parameters → ¬ quiet) (bound : Nat) :
    (s.script bound).Settles quiet := by
  cases s with
  | branch b matched =>
    refine (tame_force matched).next fun v => ?_
    refine Safe.bind (Safe.attempt (P := fun _ _ => True) (Key.tame_ofValue bound v)
      (fun _ _ _ => trivial) fun _ _ => trivial) fun held key _ => ?_
    refine (Branch.gives_select fits key).next fun e in_scope => ?_
    exact (Expr.tame_interpret in_scope).next fun r => (gives_tail r).safe fun _ => id
  | concat tail rest =>
    exact ((tame_forceList _).bind fun _ => (LazyList.tame_concat _ _ _).bind fun _ =>
      gives_answer (v := .list _) trivial).settles
  | entries es =>
    exact ((Dict.tame_listEntries es).bind fun _ => gives_answer (v := .list _) trivial).settles
  | action body parameters =>
    exact Body.settles_run (fun _ => loud body parameters rfl) bound fits
  | rally id =>
    exact ((Builtin.tame_rallyCells bound id).bind fun _ =>
      gives_answer (v := .list _) trivial).settles
  | traced label target =>
    exact ((gives_tail target).settles : Script.Settles quiet _)

theorem Work.settles_script {w : Work} (fits : w.Fits) (calm : quiet → ¬ w.Performs) (bound : Nat) :
    (w.task.script bound).Settles quiet := by
  obtain ⟨task, site⟩ := w
  cases task with
  | call function arguments =>
    exact (gives_force function).next fun v replies => Value.settles_call replies.1 bound arguments
  | resume s =>
    refine Suspension.settles_script fits ?_ bound
    rintro body parameters rfl silent
    exact calm silent ⟨body, parameters, rfl⟩

end
end CallByNeed
