import CallByNeed.Proofs.Likeness.Builtins
import CallByNeed.Proofs.Reading.Values

/- Scripts that leave rallies alone: they open none, read and list none, hand no job to the pool that
   reports to one, and make no cell that waits to list one. Of all scripts there are, only the body
   of `rally` and the work of its tails do such a thing. -/
namespace CallByNeed

/-- The rally that the work is to list the next argument of. -/
def Work.rally? (w : Work) : Option Nat :=
  match w.task with
  | .resume (.rally id) => some id
  | _ => none

theorem Work.task_of_rally? {w : Work} {id : Nat} (lists : w.rally? = some id) :
    w.task = .resume (.rally id) := by
  unfold rally? at lists
  split at lists
  · next same =>
    cases lists
    exact same
  · cases lists

def CellState.Aloof : CellState → Prop
  | .pending w => w.rally? = none
  | _ => True

def Action.Aloof : Action → Prop
  | .alloc c => c.state.Aloof
  | .fill _ _ | .trace _ => True
  | .submit job => job.report = none
  | .openRally _ | .pollRally _ | .listRally _ _ => False

namespace Script
variable {α β γ : Type}

/-- No action of the script has to do with a rally, whatever it is answered. -/
def Aloof : Script α → Prop
  | .done _ | .raise _ | .panic _ | .stall => True
  | .demand _ _ next => ∀ v, Aloof (next v)
  | .act a next => a.Aloof ∧ ∀ x, Aloof (next x)
  | .ask _ next => ∀ x, Aloof (next x)

@[grind ←]
theorem Aloof.bind {m : Script α} {f : α → Script β} (aloof : m.Aloof)
    (rest : ∀ a, (f a).Aloof) : (m >>= f).Aloof := by
  change (m.bind f).Aloof
  induction m with
  | done a => exact rest a
  | raise | panic | stall => trivial
  | demand how r next ih => exact fun v => ih v (aloof v)
  | act a next ih => exact ⟨aloof.1, fun x => ih x (aloof.2 x)⟩
  | ask q next ih => exact fun x => ih x (aloof x)

@[grind ←]
theorem Aloof.attempt {m : Script α} (aloof : m.Aloof) : m.attempt.Aloof := by
  induction m with
  | done | raise | panic | stall => trivial
  | demand how r next ih => exact fun v => ih v (aloof v)
  | act a next ih => exact ⟨aloof.1, fun x => ih x (aloof.2 x)⟩
  | ask q next ih => exact fun x => ih x (aloof x)

theorem IsReader.aloof {m : Script α} (reader : m.IsReader) : m.Aloof := by
  induction reader with
  | done | raise | panic | stall => trivial
  | demand how r _ ih => exact fun v => ih v

@[grind .]
theorem aloof_pure (a : α) : (pure a : Script α).Aloof := trivial

@[grind .]
theorem aloof_raise (e : Fault) : (raise e : Script α).Aloof := trivial

@[grind .]
theorem aloof_fail (c : Cause) : (fail c : Script α).Aloof := trivial

@[grind .]
theorem aloof_panic (p : Panic) : (panic p : Script α).Aloof := trivial

@[grind .]
theorem aloof_stall : (stall : Script α).Aloof := trivial

@[grind ←]
theorem aloof_ask {q : Request} {next : q.Answer → Script α} (rest : ∀ x, (next x).Aloof) :
    (ask q next).Aloof :=
  rest

@[grind ←]
theorem aloof_act {a : Action} {next : a.Answer → Script α} (aloof : a.Aloof)
    (rest : ∀ x, (next x).Aloof) : (act a next).Aloof :=
  ⟨aloof, rest⟩

@[grind .]
theorem aloof_observe (r : Ref) : (observe r).Aloof := fun _ => trivial

@[grind .]
theorem aloof_perform (r : Ref) : (perform r).Aloof := fun _ => trivial

@[grind .]
theorem aloof_force (r : Ref) : (force r).Aloof := (isReader_force r).aloof

@[grind .]
theorem aloof_forceNumber (r : Ref) : (forceNumber r).Aloof := by grind [forceNumber]

@[grind .]
theorem aloof_forceString (r : Ref) : (forceString r).Aloof := by grind [forceString]

@[grind .]
theorem aloof_forceBool (r : Ref) : (forceBool r).Aloof := by grind [forceBool]

@[grind .]
theorem aloof_forceList (r : Ref) : (forceList r).Aloof := by grind [forceList]

@[grind .]
theorem aloof_forceDict (r : Ref) : (forceDict r).Aloof := by grind [forceDict]

@[grind ←]
theorem aloof_alloc {c : Cell} (aloof : c.state.Aloof) : (alloc c : Script Ref).Aloof :=
  ⟨aloof, fun _ => trivial⟩

@[grind .]
theorem aloof_allocValue (v : Value) : (allocValue v : Script Ref).Aloof := aloof_alloc trivial

@[grind .]
theorem aloof_allocCall (function : Value) (positionals : List Ref) :
    (allocCall function positionals : Script Ref).Aloof :=
  (aloof_allocValue _).bind fun _ => aloof_alloc rfl

@[grind .]
theorem aloof_fillHandle (handle target : Ref) : (fillHandle handle target).Aloof := by
  refine ⟨trivial, fun filled => ?_⟩
  cases filled <;> trivial

@[grind ←]
theorem aloof_foldlM {f : α → γ → Script α} (each : ∀ a x, (f a x).Aloof) (l : List γ) (a : α) :
    (l.foldlM f a).Aloof := by
  induction l generalizing a with
  | nil => exact aloof_pure a
  | cons x l ih =>
    rw [List.foldlM_cons]
    exact (each a x).bind ih

@[grind ←]
theorem aloof_mapM {f : γ → Script α} (each : ∀ x, (f x).Aloof) (l : List γ) :
    (l.mapM f).Aloof := by
  induction l with
  | nil => exact aloof_pure _
  | cons x l ih =>
    rw [List.mapM_cons]
    exact (each x).bind fun _ => ih.bind fun _ => aloof_pure _

end Script

/-! ### Cells as they are made -/

@[grind .]
theorem Cell.aloof_vacant : Cell.vacant.state.Aloof := trivial

@[grind .]
theorem Cell.aloof_ofCall (function : Ref) (arguments : Arguments) (site : Option Location) :
    (Cell.ofCall function arguments site).state.Aloof :=
  rfl

@[grind .]
theorem Cell.aloof_ofConcat (tail rest : Ref) :
    (Cell.ofSuspension (.concat tail rest)).state.Aloof :=
  rfl

@[grind .]
theorem Cell.aloof_ofEntries (es : List (Key × Ref)) :
    (Cell.ofSuspension (.entries es)).state.Aloof :=
  rfl

@[grind .]
theorem Cell.aloof_ofBranch (b : Branch) (matched : Ref) :
    (Cell.ofSuspension (.branch b matched)).state.Aloof :=
  rfl

@[grind .]
theorem Cell.aloof_ofAction (body : Body) (parameters : List Ref) :
    (Cell.ofSuspension (.action body parameters)).state.Aloof :=
  rfl

@[grind .]
theorem Action.aloof_submit (target : Ref) : (Action.submit { target }).Aloof := rfl

/-! ### Lists -/

namespace LazyList
variable {β : Type}

@[grind .]
theorem aloof_push (l : LazyList) (head : Ref) : (l.push head : Script LazyList).Aloof := by
  grind [LazyList.push]

@[grind .]
theorem aloof_ofRefs (elements : List Ref) : (ofRefs elements : Script LazyList).Aloof := by
  grind [ofRefs]

@[grind ←]
theorem aloof_walk {visit : β → Ref → Script (ForInStep β)} (each : ∀ b r, (visit b r).Aloof)
    (bound : Nat) (l : LazyList) (b : β) : (l.walk visit bound b).Aloof := by
  fun_induction walk visit bound l b <;> grind

@[grind ←]
theorem aloof_trail {leave : β → Script Unit} {visit : Ref → Script β}
    (leaves : ∀ b, (leave b).Aloof) (visits : ∀ r, (visit r).Aloof) (bound : Nat) (l : LazyList)
    (b : β) : (l.trail leave visit bound b).Aloof := by
  fun_induction trail leave visit bound l b <;> grind

@[grind .]
theorem aloof_elements (bound : Nat) (l : LazyList) : (l.elements bound).Aloof := by
  grind [elements]

@[grind .]
theorem aloof_length (bound : Nat) (l : LazyList) : (l.length bound).Aloof := by grind [length]

@[grind .]
theorem aloof_first (l : LazyList) : l.first.Aloof := by cases l <;> grind [first]

@[grind .]
theorem aloof_rest (l : LazyList) : l.rest.Aloof := by cases l <;> grind [rest]

@[grind .]
theorem aloof_skip (n : Nat) (l : LazyList) : (l.skip n).Aloof := by
  fun_induction LazyList.skip n l <;> grind

@[grind .]
theorem aloof_position (index : Number) : (position index).Aloof := by grind [position]

@[grind .]
theorem aloof_split (n : Nat) (heads : List Ref) (l : LazyList) : (split n heads l).Aloof := by
  fun_induction split n heads l <;> grind

@[grind .]
theorem aloof_rejoin (heads : List Ref) (tail : Ref) : (rejoin heads tail).Aloof := by
  cases heads <;> grind [rejoin]

@[grind .]
theorem aloof_index (l : LazyList) (place : Number) : (l.index place).Aloof := by grind [index]

@[grind .]
theorem aloof_delete (l : LazyList) (place : Number) : (l.delete place).Aloof := by
  cases l <;> grind [delete]

@[grind .]
theorem aloof_insert (l : LazyList) (place : Number) (element : Ref) :
    (l.insert place element).Aloof := by
  grind [insert]

@[grind .]
theorem aloof_concat (bound : Nat) (l : LazyList) (rest : Ref) :
    (l.concat bound rest).Aloof := by
  fun_induction concat bound l rest <;> grind

end LazyList

/-! ### Keys, texts and comparisons -/

namespace Key

@[grind .]
theorem aloof_ofValue (bound : Nat) (v : Value) : (ofValue bound v).Aloof :=
  (isReader_ofValue bound v).aloof

mutual
@[grind .]
theorem aloof_toValue : ∀ k : Key, (k.toValue : Script Value).Aloof
  | .bool b => by grind [toValue]
  | .number x => by grind [toValue]
  | .string s => by grind [toValue]
  | .list keys => by
    have elements := aloof_toElements keys
    grind [toValue]
  | .dict entries => by
    have pairs := aloof_toEntries entries
    grind [toValue]

theorem aloof_toElements : ∀ keys : List Key, (toElements keys : Script (List Ref)).Aloof
  | [] => by grind [toElements]
  | k :: ks => by
    have first := aloof_toValue k
    have rest := aloof_toElements ks
    grind [toElements]

theorem aloof_toEntries :
    ∀ es : List (Key × Key), (toEntries es : Script (List (Key × Ref))).Aloof
  | [] => by grind [toEntries]
  | (k, x) :: es => by
    have first := aloof_toValue x
    have rest := aloof_toEntries es
    grind [toEntries]
end

end Key

namespace Value

@[grind .]
theorem aloof_compare (bound : Nat) (v u : Value) : (compare bound v u).Aloof :=
  (isReader_compare bound v u).aloof

@[grind .]
theorem aloof_equal (bound : Nat) (v u : Value) : (equal bound v u).Aloof :=
  (isReader_equal bound v u).aloof

@[grind ←]
theorem aloof_dumpWith {text : Value → Script String} (texts : ∀ v, (text v).Aloof) (v : Value) :
    (dumpWith text v).Aloof := by
  cases v <;> grind [dumpWith]

@[grind ←]
theorem aloof_dumpEntries {dump : Value → Script String} (each : ∀ v, (dump v).Aloof)
    (es : List (Key × Ref)) : (dumpEntries dump es).Aloof := by
  fun_induction dumpEntries dump es <;> grind

@[grind .]
theorem aloof_text (bound : Nat) (v : Value) : (text bound v).Aloof := by
  induction bound generalizing v with
  | zero => trivial
  | succ bound ih =>
    have parts := aloof_dumpWith ih
    cases v <;> grind [text]

@[grind .]
theorem aloof_dump (bound : Nat) (v : Value) : (dump bound v).Aloof := by grind [dump]

end Value

@[grind .]
theorem Dict.aloof_listEntries (es : List (Key × Ref)) : (listEntries es).Aloof := by
  cases es <;> grind [listEntries]

@[grind .]
theorem Dict.aloof_lookUp (bound : Nat) (d : Dict Ref) (key : Value) :
    (d.lookUp bound key).Aloof := by
  grind [Dict.lookUp]

@[grind .]
theorem LazyList.aloof_includes (bound : Nat) (l : LazyList) (v : Value) :
    (l.includes bound v).Aloof := by
  grind [LazyList.includes]

/-! ### Arguments and signatures -/

namespace Arguments

@[grind .]
theorem aloof_ofCall (positionals : List (Ref × Bool)) (keywords : List (String × Ref))
    (dicts : List Ref) : (ofCall positionals keywords dicts : Script Arguments).Aloof := by
  grind [ofCall, allocMerge, allocAppend]

@[grind .]
theorem aloof_merge (a b : Arguments) : (a.merge b : Script Arguments).Aloof := by
  grind [merge, allocMerge, allocAppend]

@[grind .]
theorem aloof_nextPositional (a : Arguments) : a.nextPositional.Aloof := by
  grind [nextPositional]

@[grind .]
theorem aloof_restPositionals (a : Arguments) : a.restPositionals.Aloof := by
  grind [restPositionals, allocMerge]

@[grind .]
theorem aloof_takeEntry (key : Key) (ds : List Ref) : (takeEntry key ds).Aloof := by
  fun_induction takeEntry key ds <;> grind

@[grind .]
theorem aloof_takeKeyword (a : Arguments) (name : String) : (a.takeKeyword name).Aloof := by
  grind [takeKeyword]

@[grind .]
theorem aloof_restKeywords (a : Arguments) : a.restKeywords.Aloof := by
  grind [restKeywords, allocMerge]

@[grind .]
theorem aloof_countEntries (ds : List Ref) : (countEntries ds).Aloof := by
  fun_induction countEntries ds <;> grind

@[grind .]
theorem aloof_checkTaken (a : Arguments) : a.checkTaken.Aloof := by grind [checkTaken]

end Arguments

@[grind .]
theorem Default.aloof_ref (d : Default) : d.ref.Aloof := by cases d <;> grind [Default.ref]

namespace Binding

@[grind .]
theorem aloof_findKeyword (b : Binding) (name : String) : (b.findKeyword name).Aloof := by
  grind [findKeyword]

@[grind .]
theorem aloof_findPositional (b : Binding) (name : String) : (b.findPositional name).Aloof := by
  grind [findPositional]

@[grind ←]
theorem aloof_bindNamed {find : Binding → String → Script (Option Ref × Binding)}
    (finds : ∀ b name, (find b name).Aloof) (missing : Cause) (half : Half Default) (b : Binding) :
    (b.bindNamed find missing half).Aloof := by
  grind [bindNamed]

@[grind ←]
theorem aloof_bindRest {rest : Arguments → Script (Ref × Arguments)}
    (rests : ∀ a, (rest a).Aloof) (half : Half Default) (b : Binding) :
    (b.bindRest rest half).Aloof := by
  grind [bindRest]

end Binding

@[grind .]
theorem Signature.aloof_bind (sig : Signature Default) (a : Arguments) : (sig.bind a).Aloof := by
  grind [Signature.bind]

/-! ### Code -/

namespace Expr

mutual
@[grind .]
theorem aloof_interpret (locals : List Ref) : ∀ e : Expr, (interpret locals e : Script Ref).Aloof
  | .literal l => by grind [interpret]
  | .predefined p => by grind [interpret]
  | .cell r => by grind [interpret]
  | .local i => by grind [interpret]
  | .call function positionals keywords dicts site => by
    have called := aloof_interpret locals function
    have first := aloof_interpretPositionals locals positionals
    have named := aloof_interpretKeywords locals keywords
    have last := aloof_interpretAll locals dicts
    simp only [interpret]
    grind
  | .switch value cases default => by
    have matched := aloof_interpret locals value
    simp only [interpret]
    grind

theorem aloof_interpretPositionals (locals : List Ref) : ∀ ps : List PositionalExpr,
    (interpretPositionals locals ps : Script (List (Ref × Bool))).Aloof
  | [] => by grind [interpretPositionals]
  | ⟨value, expanded⟩ :: rest => by
    have first := aloof_interpret locals value
    have others := aloof_interpretPositionals locals rest
    grind [interpretPositionals]

theorem aloof_interpretKeywords (locals : List Ref) : ∀ ks : List KeywordExpr,
    (interpretKeywords locals ks : Script (List (String × Ref))).Aloof
  | [] => by grind [interpretKeywords]
  | ⟨name, value⟩ :: rest => by
    have first := aloof_interpret locals value
    have others := aloof_interpretKeywords locals rest
    grind [interpretKeywords]

theorem aloof_interpretAll (locals : List Ref) : ∀ es : List Expr,
    (interpretAll locals es : Script (List Ref)).Aloof
  | [] => by grind [interpretAll]
  | e :: rest => by
    have first := aloof_interpret locals e
    have others := aloof_interpretAll locals rest
    grind [interpretAll]
end

@[grind .]
theorem aloof_bindLocals (bindings : List Expr) (parameters : List Ref) :
    (bindLocals bindings parameters : Script (List Ref)).Aloof := by
  grind [bindLocals]

end Expr

@[grind .]
theorem Branch.aloof_select (b : Branch) (key : Except Fault Key) : (b.select key).Aloof := by
  cases key <;> grind [Branch.select]

/-! ### Builtins -/

namespace Builtin

@[grind .]
theorem aloof_answer (v : Value) : (answer v).Aloof := trivial

@[grind .]
theorem aloof_foldNumbers (bound : Nat) (op : Number → Number → Number) (start : Number)
    (numbers : Ref) : (foldNumbers bound op start numbers).Aloof := by
  grind [foldNumbers]

@[grind .]
theorem aloof_foldFrom (bound : Nat) (b : Builtin) (op : Number → Number → Number)
    (first rest : Ref) : (foldFrom bound b op first rest).Aloof := by
  grind [foldFrom]

@[grind .]
theorem aloof_binary (op : Number → Number → Number) (left right : Ref) :
    (binary op left right).Aloof := by
  grind [binary]

@[grind .]
theorem aloof_chained (bound : Nat) (b : Builtin) (holds : Ordering → Bool) (arguments : Ref) :
    (chained bound b holds arguments).Aloof := by
  refine (Script.aloof_forceList arguments).bind fun l => ?_
  refine (LazyList.aloof_walk (fun found r => ?_) bound l _).bind fun found => ?_
  · refine (Script.aloof_force r).bind fun v => ?_
    cases found.1 <;> grind
  · grind

@[grind .]
theorem aloof_insertPairs (bound : Nat) (d : Dict Ref) (rs : List Ref) :
    (insertPairs bound d rs).Aloof := by
  fun_induction insertPairs bound d rs <;> grind

@[grind .]
theorem aloof_allEqual (bound : Nat) (arguments : Ref) : (allEqual bound arguments).Aloof := by
  refine (Script.aloof_forceList arguments).bind fun l => ?_
  cases l with
  | nil => trivial
  | cons head tail =>
    refine (Script.aloof_force head).bind fun v => ?_
    refine (Script.aloof_forceList tail).bind fun others => ?_
    exact (LazyList.aloof_walk (fun _ r => by grind) bound others true).bind fun _ => trivial

@[grind .]
theorem aloof_mergeAll (bound : Nat) (first rest : Ref) : (mergeAll bound first rest).Aloof := by
  refine (Script.aloof_force first).bind fun v => ?_
  cases v with
  | dict d =>
    refine (Script.aloof_forceList rest).bind fun l => ?_
    exact (LazyList.aloof_walk (fun _ r => by grind) bound l d).bind fun _ => trivial
  | _ => grind

@[grind .]
theorem aloof_prependAll (bound : Nat) (arguments : Ref) : (prependAll bound arguments).Aloof := by
  refine (Script.aloof_forceList arguments).bind fun l => ?_
  refine (LazyList.aloof_elements bound l).bind fun rs => ?_
  cases rs.reverse <;> grind

@[grind .]
theorem aloof_fixedPoints (bound : Nat) (functions : Ref) :
    (fixedPoints bound functions).Aloof := by
  refine (Script.aloof_alloc Cell.aloof_vacant).bind fun handle => ?_
  refine (Script.aloof_forceList functions).bind fun l => ?_
  refine (LazyList.aloof_elements bound l).bind fun fs => ?_
  exact (Script.aloof_mapM (fun f => by grind) fs).bind fun results => by grind

@[grind .]
theorem aloof_effectsInSequence (bound : Nat) (first rest : Ref) :
    (effectsInSequence bound first rest).Aloof := by
  refine (Script.aloof_perform first).bind fun result => ?_
  refine (Script.aloof_forceList rest).bind fun l => ?_
  refine (LazyList.aloof_trail (fun v => ?_) Script.aloof_perform bound l result).bind ?_
  · cases v <;> trivial
  · exact fun last => trivial

@[grind .]
theorem aloof_inParallel (bound : Nat) (first rest : Ref) :
    (inParallel bound first rest).Aloof := by
  refine (Script.aloof_forceList rest).bind fun l => ?_
  refine (LazyList.aloof_trail (fun last => ?_) Script.aloof_pure bound l first).bind ?_
  · exact ⟨rfl, fun _ => trivial⟩
  · exact fun last => trivial

@[grind .]
theorem aloof_writeTo (bound : Nat) (arguments separator ending file mode : Ref) :
    (writeTo bound arguments separator ending file mode).Aloof := by
  refine (Script.aloof_forceString separator).bind fun separator => ?_
  refine (Script.aloof_forceList arguments).bind fun l => ?_
  refine (LazyList.aloof_walk (fun _ r => by grind) bound l []).bind fun parts => ?_
  refine (Script.aloof_forceString ending).bind fun ending => ?_
  exact (Script.aloof_force file).bind fun v => by cases v <;> grind

@[grind .]
theorem aloof_readFrom (file : Ref) : (readFrom file).Aloof := by
  exact (Script.aloof_force file).bind fun v => by cases v <;> grind

/-- Only one builtin has to do with rallies. -/
theorem aloof_run {b : Builtin} (other : b ≠ .rally) (bound : Nat) (cells : List Ref) :
    (b.run bound cells).Aloof := by
  fun_cases Builtin.run bound b cells
  case case41 => exact absurd rfl other
  all_goals grind [sumOf, productOf, isIntegral, compareTwo, hasOrder, appendAll, insertInto,
    deleteFrom, includes, notCollection, indexOf, sizeOf, toLazyList, Dict.toLazyList, dictOf,
    chooseBranch, typeName, textOf, dumpOf, raiseCustom, catchFault, fixedPoint, inSequence]

end Builtin
end CallByNeed
