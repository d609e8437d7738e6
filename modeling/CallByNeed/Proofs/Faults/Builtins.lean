import CallByNeed.Proofs.Faults.Data
import CallByNeed.Proofs.Likeness.Builtins

/- Bodies of builtins, and lists and dictionaries that are called, pass on all faults. Some builtins
   look at faults themselves: `typeOf` and `catch`, the listing of a rally, and those that fetch the
   next argument before they leave the last one, be what they have fetched a fault or not. -/
namespace CallByNeed
open Script

/-- The body does not look at the faults it is answered. -/
def Builtin.IsStrict (b : Builtin) : Prop :=
  b ∉ [.typeOf, .catch, .rally, .seq, .effectSeq, .par]

theorem strict_answer (v : Value) : (answer v).Strict := strict_pure _

theorem strict_tail (r : Ref) : (pure (.tail r) : Script Outcome).Strict := strict_pure _

namespace Builtin

/-! ### Numbers and comparisons -/

theorem strict_foldNumbers (bound : Nat) (op : Number → Number → Number) (start : Number)
    (numbers : Ref) : (foldNumbers bound op start numbers).Strict := by
  refine (strict_forceList numbers).bind fun l => LazyList.strict_walk (fun _ r => ?_) bound l start
  exact (strict_forceNumber r).map _

theorem strict_foldFrom (bound : Nat) (b : Builtin) (op : Number → Number → Number)
    (first rest : Ref) : (foldFrom bound b op first rest).Strict := by
  refine (strict_forceNumber first).bind fun x => (strict_forceList rest).bind fun l => ?_
  refine (LazyList.strict_walk (fun y r => (strict_forceNumber r).map _) bound l _).bind fun y => ?_
  dsimp only
  split
  · exact strict_fail _
  · exact strict_answer _

theorem strict_binary (op : Number → Number → Number) (left right : Ref) :
    (binary op left right).Strict :=
  (strict_forceNumber left).bind fun _ => (strict_forceNumber right).bind fun _ => strict_answer _

theorem strict_allEqual (bound : Nat) (arguments : Ref) : (allEqual bound arguments).Strict := by
  refine (strict_forceList arguments).bind fun l => ?_
  cases l with
  | nil => exact strict_answer _
  | cons head tail =>
    refine (strict_force head).bind fun v => (strict_forceList tail).bind fun l => ?_
    refine (LazyList.strict_walk (fun _ r => ?_) bound l _).bind fun _ => strict_answer _
    refine (strict_force r).bind fun u => (Value.strict_equal bound v u).bind fun same => ?_
    cases same <;> exact strict_pure _

theorem strict_chained (bound : Nat) (b : Builtin) (holds : Ordering → Bool) (arguments : Ref) :
    (chained bound b holds arguments).Strict := by
  refine (strict_forceList arguments).bind fun l => ?_
  refine (LazyList.strict_walk (fun x r => ?_) bound l _).bind fun _ => ?_
  · refine (strict_force r).bind fun v => ?_
    obtain ⟨_ | last, all⟩ := x
    · exact strict_pure _
    · refine (Value.strict_compare bound last v).bind fun o => ?_
      split <;> exact strict_pure _
  · dsimp only
    split
    · exact strict_fail _
    · exact strict_answer _

theorem strict_compareTwo (bound : Nat) (left right : Ref) :
    (compareTwo bound left right).Strict := by
  refine (strict_force left).bind fun v => (strict_force right).bind fun u => ?_
  refine (Value.strict_compare bound v u).bind fun o => ?_
  cases o <;> exact strict_answer _

/-! ### Collections -/

theorem strict_mergeAll (bound : Nat) (first rest : Ref) : (mergeAll bound first rest).Strict := by
  refine (strict_force first).bind fun v => ?_
  cases v with
  | list l => exact (LazyList.strict_concat bound l rest).bind fun _ => strict_answer _
  | dict d =>
    refine (strict_forceList rest).bind fun l => ?_
    refine (LazyList.strict_walk (fun _ r => ?_) bound l d).bind fun _ => strict_answer _
    exact (strict_forceDict r).map _
  | _ => exact strict_fail _

theorem strict_prependAll (bound : Nat) (arguments : Ref) :
    (prependAll bound arguments).Strict := by
  refine (strict_forceList arguments).bind fun l => ?_
  refine (LazyList.strict_elements bound l).bind fun rs => ?_
  cases rs.reverse with
  | nil => exact strict_fail _
  | cons last heads =>
    refine (strict_forceList last).bind fun l => ?_
    exact (strict_foldlM LazyList.strict_push heads l).bind fun _ => strict_answer _

theorem strict_insertInto (bound : Nat) (collection key value : Ref) :
    (insertInto bound collection key value).Strict := by
  refine (strict_force collection).bind fun v => ?_
  cases v with
  | list l =>
    refine (strict_forceNumber key).bind fun x => ?_
    exact (LazyList.strict_insert l x value).bind fun _ => strict_answer _
  | dict d =>
    refine (strict_force key).bind fun v => ?_
    exact (Key.strict_ofValue bound v).bind fun _ => strict_answer _
  | _ => exact strict_fail _

theorem strict_deleteFrom (bound : Nat) (collection key : Ref) :
    (deleteFrom bound collection key).Strict := by
  refine (strict_force collection).bind fun v => ?_
  cases v with
  | list l =>
    refine (strict_forceNumber key).bind fun x => ?_
    exact (LazyList.strict_delete l x).bind fun _ => strict_answer _
  | dict d =>
    refine (strict_force key).bind fun v => (d.strict_lookUp bound v).bind fun _ => ?_
    exact (Key.strict_ofValue bound v).bind fun _ => strict_answer _
  | _ => exact strict_fail _

theorem strict_includes (bound : Nat) (collection element : Ref) :
    (includes bound collection element).Strict := by
  refine (strict_force element).bind fun v => (strict_force collection).bind fun u => ?_
  cases u with
  | list l => exact (l.strict_includes bound v).bind fun _ => strict_answer _
  | dict d => exact (Key.strict_ofValue bound v).bind fun _ => strict_answer _
  | string s => cases v <;> trivial
  | _ => exact strict_fail _

theorem strict_indexOf (bound : Nat) (collection key : Ref) :
    (indexOf bound collection key).Strict := by
  refine (strict_force collection).bind fun v => ?_
  cases v with
  | list l => exact (strict_forceNumber key).bind fun x => (l.strict_index x).map _
  | dict d => exact (strict_force key).bind fun v => (d.strict_lookUp bound v).map _
  | _ => exact strict_fail _

theorem strict_sizeOf (bound : Nat) (collection : Ref) : (sizeOf bound collection).Strict := by
  refine (strict_force collection).bind fun v => ?_
  cases v with
  | list l => exact (l.strict_length bound).bind fun _ => strict_answer _
  | dict d => exact strict_answer _
  | string s => exact strict_answer _
  | _ => exact strict_fail _

theorem strict_toLazyList (collection : Ref) : (toLazyList collection).Strict := by
  refine (strict_force collection).bind fun v => ?_
  cases v with
  | list l => exact strict_answer _
  | dict d => exact (Dict.strict_listEntries d.entries).bind fun _ => strict_answer _
  | string s =>
    refine (strict_mapM (fun c => strict_allocValue _) s.toList).bind fun cells => ?_
    exact (LazyList.strict_ofRefs cells).bind fun _ => strict_answer _
  | _ => exact strict_fail _

theorem strict_insertPairs (bound : Nat) (d : Dict Ref) (rs : List Ref) :
    (insertPairs bound d rs).Strict := by
  fun_induction insertPairs bound d rs with
  | case1 d key value more ih =>
    exact (strict_force key).bind fun v => (Key.strict_ofValue bound v).bind ih
  | case2 => exact strict_pure _

theorem strict_dictOf (bound : Nat) (arguments : Ref) : (dictOf bound arguments).Strict := by
  refine (strict_forceList arguments).bind fun l => ?_
  refine (LazyList.strict_elements bound l).bind fun rs => ?_
  split
  · exact strict_fail _
  · exact (strict_insertPairs bound .empty rs).bind fun _ => strict_answer _

/-! ### Control -/

theorem strict_raiseCustom (name message : Ref) : (raiseCustom name message).Strict :=
  (strict_forceString name).bind fun _ => (strict_forceString message).bind fun _ => strict_fail _

theorem strict_fixedPoint (function : Ref) : (fixedPoint function).Strict := by
  refine (strict_alloc .vacant).bind fun handle => (strict_allocValue _).bind fun target => ?_
  exact (strict_fillHandle handle target).bind fun _ => strict_answer _

theorem strict_fixedPoints (bound : Nat) (functions : Ref) :
    (fixedPoints bound functions).Strict := by
  refine (strict_alloc .vacant).bind fun handle => (strict_forceList functions).bind fun l => ?_
  refine (LazyList.strict_elements bound l).bind fun fs => ?_
  refine (strict_mapM (fun f => strict_allocValue _) fs).bind fun results => ?_
  refine (LazyList.strict_ofRefs results).bind fun l => (strict_allocValue _).bind fun target => ?_
  exact (strict_fillHandle handle target).bind fun _ => strict_answer _

/-! ### Streams -/

theorem strict_write (sink : Sink) (text : String) {next : Except FileError Unit → Script Outcome}
    (written : (next (.ok ())).Strict) (refused : ∀ e, (next (.error e)).Strict) :
    (Script.ask (.write sink text) next).Strict := by
  intro x
  cases x with
  | ok _ => exact written
  | error e => exact refused e

theorem strict_writeTo (bound : Nat) (arguments separator ending file mode : Ref) :
    (writeTo bound arguments separator ending file mode).Strict := by
  refine (strict_forceString separator).bind fun sep => (strict_forceList arguments).bind fun l => ?_
  refine (LazyList.strict_walk (fun parts r => ?_) bound l _).bind fun parts => ?_
  · exact (strict_force r).bind fun v => (Value.strict_text bound v).map _
  refine (strict_forceString ending).bind fun ending => (strict_force file).bind fun v => ?_
  have written : (answer (.list .nil)).Strict := strict_answer _
  have refused (e : FileError) : (fail (.file e) : Script Outcome).Strict := strict_fail _
  cases v with
  | number x =>
    dsimp only
    split
    · exact strict_write _ _ written refused
    · split
      · exact strict_write _ _ written refused
      · exact strict_fail _
  | string path =>
    exact (strict_forceNumber mode).bind fun x => strict_write _ _ written refused
  | _ => exact strict_fail _

theorem strict_read (source : Source) {next : Except FileError String → Script Outcome}
    (read : ∀ text, (next (.ok text)).Strict) (refused : ∀ e, (next (.error e)).Strict) :
    (Script.ask (.read source) next).Strict := by
  intro x
  cases x with
  | ok text => exact read text
  | error e => exact refused e

theorem strict_readFrom (file : Ref) : (readFrom file).Strict := by
  refine (strict_force file).bind fun v => ?_
  have read (text : String) : (answer (.string text)).Strict := strict_answer _
  have refused (e : FileError) : (fail (.file e) : Script Outcome).Strict := strict_fail _
  cases v with
  | number x =>
    dsimp only
    split
    · exact strict_read _ read refused
    · exact strict_fail _
  | string path => exact strict_read _ read refused
  | _ => exact strict_fail _

/-! ### All bodies -/

section
variable {b : Builtin} {bound : Nat} {cells : List Ref}

theorem strict_one (count : cells.length = 1) (each : ∀ r, (b.run bound [r]).Strict) :
    (b.run bound cells).Strict := by
  obtain ⟨r, rfl⟩ := List.length_eq_one_iff.1 count
  exact each r

theorem strict_two (count : cells.length = 2) (each : ∀ r t, (b.run bound [r, t]).Strict) :
    (b.run bound cells).Strict := by
  obtain ⟨r, t, rfl⟩ := List.length_eq_two.1 count
  exact each r t

theorem strict_three (count : cells.length = 3)
    (each : ∀ r t u, (b.run bound [r, t, u]).Strict) : (b.run bound cells).Strict := by
  obtain ⟨r, t, u, rfl⟩ := List.length_eq_three.1 count
  exact each r t u

end

/-- On a wrong number of cells a builtin panics. -/
theorem strict_run (bound : Nat) {b : Builtin} (strict : b.IsStrict) (cells : List Ref) :
    (b.run bound cells).Strict := by
  by_cases count : cells.length = b.signature.arity
  · cases b with
    | typeOf | «catch» | rally | seq | effectSeq | par => exact absurd strict (by simp [IsStrict])
    | sum | product =>
      refine strict_one count fun _ => (strict_foldNumbers bound _ _ _).bind fun _ => ?_
      exact strict_answer _
    | difference | quotient | floorQuotient =>
      exact strict_two count fun _ _ => strict_foldFrom bound _ _ _ _
    | remainder | power => exact strict_two count fun _ _ => strict_binary _ _ _
    | isInt =>
      exact strict_one count fun r => (strict_forceNumber r).bind fun _ => strict_answer _
    | equal => exact strict_one count fun _ => strict_allEqual bound _
    | less | lessEq | greater | greaterEq =>
      exact strict_one count fun _ => strict_chained bound _ _ _
    | compare => exact strict_two count fun _ _ => strict_compareTwo bound _ _
    | isOrdered => exact strict_one count fun r => (strict_force r).bind fun _ => strict_answer _
    | merge => exact strict_two count fun _ _ => strict_mergeAll bound _ _
    | append => exact strict_two count fun _ _ => (strict_allocCall _ _).map _
    | first =>
      exact strict_one count fun l => (strict_forceList l).bind fun l => l.strict_first.map _
    | rest =>
      exact strict_one count fun l => (strict_forceList l).bind fun l => l.strict_rest.map _
    | prepend => exact strict_one count fun _ => strict_prependAll bound _
    | insert => exact strict_three count fun _ _ _ => strict_insertInto bound _ _ _
    | delete => exact strict_two count fun _ _ => strict_deleteFrom bound _ _
    | «include» => exact strict_two count fun _ _ => strict_includes bound _ _
    | index => exact strict_two count fun _ _ => strict_indexOf bound _ _
    | size => exact strict_one count fun _ => strict_sizeOf bound _
    | toList => exact strict_one count fun _ => strict_toLazyList _
    | list => exact strict_one count fun _ => strict_tail _
    | dict => exact strict_one count fun _ => strict_dictOf bound _
    | choose => exact strict_three count fun condition _ _ => (strict_forceBool condition).map _
    | partialCall => exact strict_three count fun _ _ _ => strict_answer _
    | toStr =>
      refine strict_one count fun r => (strict_force r).bind fun v => ?_
      exact (v.strict_text bound).bind fun _ => strict_answer _
    | dump =>
      refine strict_one count fun r => (strict_force r).bind fun v => ?_
      exact (v.strict_dump bound).bind fun _ => strict_answer _
    | error => exact strict_two count fun _ _ => strict_raiseCustom _ _
    | fix => exact strict_one count fun _ => strict_fixedPoint _
    | fixAll => exact strict_one count fun _ => strict_fixedPoints bound _
    | write =>
      match cells with
      | [_, _, _, _, _] => exact strict_writeTo bound _ _ _ _ _
    | read => exact strict_one count fun _ => strict_readFrom _
  · rw [run_of_length_ne bound b cells count]
    trivial

end Builtin

/-- A builtin that is an effect is called strictly whatever its body does. -/
theorem Builtin.strict_call (bound : Nat) {b : Builtin} (strict : b.IsStrict ∨ b.isEffect = true)
    (a : Arguments) : ((Value.function b.function).call bound a).Strict := by
  refine (Signature.strict_bind _ a).bind fun parameters => ?_
  split
  · exact (strict_alloc _).bind fun action => strict_answer (.effect action)
  · next pure => exact Builtin.strict_run bound (strict.resolve_right pure) parameters

theorem LazyList.strict_call (bound : Nat) (l : LazyList) (a : Arguments) :
    ((Value.list l).call bound a).Strict := by
  refine (Signature.strict_bind _ a).bind fun parameters => ?_
  cases parameters with
  | nil => trivial
  | cons place rest => exact (strict_forceNumber place).bind fun x => (l.strict_index x).map _

theorem Dict.strict_call (bound : Nat) (d : Dict Ref) (a : Arguments) :
    ((Value.dict d).call bound a).Strict := by
  refine (Signature.strict_bind _ a).bind fun parameters => ?_
  cases parameters with
  | nil => trivial
  | cons key rest => exact (strict_force key).bind fun v => (d.strict_lookUp bound v).map _

end CallByNeed
