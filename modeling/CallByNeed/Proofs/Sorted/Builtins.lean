import CallByNeed.Proofs.Sorted.Binding

/- Bodies of builtins among sorted dictionaries. Only merging, inserting, deleting, collecting and
   catching make dictionaries; all other bodies answer cells or values of other kinds. -/
namespace CallByNeed
open Script

theorem sorts_answer {v : Value} (sorted : v.Sorted) : (answer v).Sorts Outcome.Sorted :=
  sorts_pure sorted

theorem sorts_tail (r : Ref) : (pure (.tail r) : Script Outcome).Sorts Outcome.Sorted :=
  sorts_pure trivial

/-- A list is answered, whatever its cells hold. -/
theorem Script.Neat.answerList {s : Script LazyList} (neat : s.Neat) :
    (s >>= fun l => answer (.list l)).Sorts Outcome.Sorted :=
  neat.bind fun _ => sorts_answer (v := .list _) trivial

theorem Script.Neat.answerNumber {s : Script Number} (neat : s.Neat) :
    (s >>= fun x => answer (.number x)).Sorts Outcome.Sorted :=
  neat.bind fun _ => sorts_answer (v := .number _) trivial

theorem Script.Neat.answerString {s : Script String} (neat : s.Neat) :
    (s >>= fun text => answer (.string text)).Sorts Outcome.Sorted :=
  neat.bind fun _ => sorts_answer (v := .string _) trivial

theorem Script.Neat.answerBool {α : Type} {s : Script α} (neat : s.Neat) (f : α → Bool) :
    (s >>= fun a => answer (.bool (f a))).Sorts Outcome.Sorted :=
  neat.bind fun _ => sorts_answer (v := .bool _) trivial

theorem Script.Neat.goOn {s : Script Ref} (neat : s.Neat) :
    (s >>= fun r => pure (.tail r)).Sorts Outcome.Sorted :=
  neat.bind fun r => sorts_tail r

namespace Builtin

/-! ### Numbers -/

theorem neat_foldNumbers (bound : Nat) (op : Number → Number → Number) (start : Number)
    (numbers : Ref) : (foldNumbers bound op start numbers).Neat := by
  refine (neat_forceList numbers).bind fun l => LazyList.neat_walk (fun total r => ?_) bound l start
  exact (neat_forceNumber r).bind fun _ => neat_pure _

theorem sorts_foldFrom (bound : Nat) (b : Builtin) (op : Number → Number → Number)
    (first rest : Ref) : (foldFrom bound b op first rest).Sorts Outcome.Sorted := by
  refine (neat_forceNumber first).bind fun x => (neat_forceList rest).bind fun l => ?_
  refine (LazyList.neat_walk (fun y r => ?_) bound l _).bind fun y => ?_
  · exact (neat_forceNumber r).bind fun _ => neat_pure _
  · dsimp only
    split
    · exact sorts_fail _
    · exact sorts_answer trivial

theorem sorts_binary (op : Number → Number → Number) (left right : Ref) :
    (binary op left right).Sorts Outcome.Sorted :=
  (neat_forceNumber left).bind fun _ => (neat_forceNumber right).bind fun _ =>
    sorts_answer (v := .number _) trivial

/-! ### Comparisons -/

theorem sorts_allEqual (bound : Nat) (arguments : Ref) :
    (allEqual bound arguments).Sorts Outcome.Sorted := by
  refine (neat_forceList arguments).bind fun l => ?_
  cases l with
  | nil => exact sorts_answer trivial
  | cons head tail =>
    refine (neat_force head).bind fun v => (neat_forceList tail).bind fun l => ?_
    refine (LazyList.neat_walk (fun _ r => ?_) bound l _).answerBool _
    refine (neat_force r).bind fun u => (Value.neat_equal bound v u).bind fun same => ?_
    cases same <;> exact neat_pure _

theorem sorts_chained (bound : Nat) (b : Builtin) (holds : Ordering → Bool) (arguments : Ref) :
    (chained bound b holds arguments).Sorts Outcome.Sorted := by
  refine (neat_forceList arguments).bind fun l => ?_
  refine (LazyList.neat_walk (fun x r => ?_) bound l _).bind fun x => ?_
  · refine (neat_force r).bind fun v => ?_
    obtain ⟨_ | last, all⟩ := x
    · exact neat_pure _
    · refine (Value.neat_compare bound last v).bind fun o => ?_
      split <;> exact neat_pure _
  · dsimp only
    split
    · exact sorts_fail _
    · exact sorts_answer trivial

theorem sorts_compareTwo (bound : Nat) (left right : Ref) :
    (compareTwo bound left right).Sorts Outcome.Sorted := by
  refine (neat_force left).bind fun v => (neat_force right).bind fun u => ?_
  refine (Value.neat_compare bound v u).bind fun o => ?_
  cases o <;> exact sorts_answer trivial

/-! ### Collections -/

theorem sorts_mergeAll (bound : Nat) (first rest : Ref) :
    (mergeAll bound first rest).Sorts Outcome.Sorted := by
  refine (sorts_force first).bind fun v sorted => ?_
  cases v with
  | list l => exact (LazyList.neat_concat bound l rest).answerList
  | dict d =>
    refine (neat_forceList rest).bind fun l => ?_
    refine (LazyList.sorts_walk (I := Dict.Sorted) (fun d r sorted => ?_) bound l sorted).bind
      fun d sorted => sorts_answer (v := .dict _) sorted
    exact (sorts_forceDict r).bind fun _ sorted' => sorts_pure (sorted.merge sorted')
  | _ => exact sorts_fail _

theorem sorts_prependAll (bound : Nat) (arguments : Ref) :
    (prependAll bound arguments).Sorts Outcome.Sorted := by
  refine (neat_forceList arguments).bind fun l => (LazyList.neat_elements bound l).bind fun rs => ?_
  cases rs.reverse with
  | nil => exact sorts_fail _
  | cons last heads =>
    refine (neat_forceList last).bind fun l => ?_
    exact (neat_foldlM LazyList.neat_push heads l).answerList

theorem sorts_insertInto (bound : Nat) (collection key value : Ref) :
    (insertInto bound collection key value).Sorts Outcome.Sorted := by
  refine (sorts_force collection).bind fun v sorted => ?_
  cases v with
  | list l =>
    exact (neat_forceNumber key).bind fun x => (LazyList.neat_insert l x value).answerList
  | dict d =>
    refine (sorts_force key).bind fun v value => (Key.sorts_ofValue bound value).bind fun k key => ?_
    exact sorts_answer (v := .dict _) (Dict.Sorted.insert sorted key)
  | _ => exact sorts_fail _

theorem sorts_deleteFrom (bound : Nat) (collection key : Ref) :
    (deleteFrom bound collection key).Sorts Outcome.Sorted := by
  refine (sorts_force collection).bind fun v sorted => ?_
  cases v with
  | list l => exact (neat_forceNumber key).bind fun x => (LazyList.neat_delete l x).answerList
  | dict d =>
    refine (neat_force key).bind fun v => (Dict.neat_lookUp bound d v).bind fun _ => ?_
    refine (Key.neat_ofValue bound v).bind fun k => ?_
    exact sorts_answer (v := .dict _) (Dict.Sorted.erase sorted)
  | _ => exact sorts_fail _

theorem sorts_includes (bound : Nat) (collection element : Ref) :
    (includes bound collection element).Sorts Outcome.Sorted := by
  refine (neat_force element).bind fun u => (neat_force collection).bind fun v => ?_
  cases v with
  | list l => exact (LazyList.neat_includes bound l u).answerBool _
  | dict d => exact (Key.neat_ofValue bound u).answerBool _
  | string s => cases u <;> first | exact sorts_answer trivial | exact sorts_fail _
  | _ => exact sorts_fail _

theorem sorts_indexOf (bound : Nat) (collection key : Ref) :
    (indexOf bound collection key).Sorts Outcome.Sorted := by
  refine (neat_force collection).bind fun v => ?_
  cases v with
  | list l => exact (neat_forceNumber key).bind fun x => (LazyList.neat_index l x).goOn
  | dict d => exact (neat_force key).bind fun v => (Dict.neat_lookUp bound d v).goOn
  | _ => exact sorts_fail _

theorem sorts_sizeOf (bound : Nat) (collection : Ref) :
    (sizeOf bound collection).Sorts Outcome.Sorted := by
  refine (neat_force collection).bind fun v => ?_
  cases v with
  | list l => exact (LazyList.neat_length bound l).bind fun _ => sorts_answer trivial
  | _ => first | exact sorts_answer trivial | exact sorts_fail _

theorem sorts_toLazyList (collection : Ref) :
    (toLazyList collection).Sorts Outcome.Sorted := by
  refine (sorts_force collection).bind fun v sorted => ?_
  cases v with
  | list l => exact sorts_answer trivial
  | dict d =>
    have entries : (⟨d.entries⟩ : Dict Ref).Sorted := sorted
    exact (Dict.neat_listEntries entries).answerList
  | string s =>
    refine (neat_mapM (fun c => ?_) s.toList).bind fun rs => (LazyList.neat_ofRefs rs).answerList
    exact neat_allocValue (v := .string _) trivial
  | _ => exact sorts_fail _

theorem sorts_insertPairs (bound : Nat) : ∀ {d : Dict Ref} (rs : List Ref), d.Sorted →
    (insertPairs bound d rs).Sorts Dict.Sorted
  | _, key :: value :: more, sorted => by
    refine (sorts_force key).bind fun v value => (Key.sorts_ofValue bound value).bind fun k key => ?_
    exact sorts_insertPairs bound more (sorted.insert key)
  | _, [], sorted => sorts_pure sorted
  | _, [_], sorted => sorts_pure sorted

theorem sorts_dictOf (bound : Nat) (arguments : Ref) :
    (dictOf bound arguments).Sorts Outcome.Sorted := by
  refine (neat_forceList arguments).bind fun l => (LazyList.neat_elements bound l).bind fun rs => ?_
  split
  · exact sorts_fail _
  · exact (sorts_insertPairs bound rs Dict.sorted_empty).bind fun _ sorted =>
      sorts_answer (v := .dict _) sorted

/-! ### Control -/

theorem sorts_raiseCustom (name message : Ref) :
    (raiseCustom name message).Sorts Outcome.Sorted :=
  (neat_forceString name).bind fun _ => (neat_forceString message).bind fun _ => sorts_fail _

theorem sorts_catchFault (r : Ref) : (catchFault r).Sorts Outcome.Sorted := by
  refine (sorts_observe r).bind fun v _ => ?_
  cases v with
  | error e =>
    refine (neat_allocValue (v := .string e.name) trivial).bind fun name => ?_
    refine (neat_allocValue (v := .string e.message) trivial).bind fun message => ?_
    exact sorts_answer (v := .dict _) (Dict.sorted_ofList (by simp [Key.Sorted]))
  | _ => exact sorts_answer (v := .dict _) Dict.sorted_empty

theorem sorts_fixedPoint (function : Ref) : (fixedPoint function).Sorts Outcome.Sorted := by
  refine (neat_alloc (c := .vacant) trivial).bind fun handle => ?_
  refine (neat_allocValue (v := .native _) trivial).bind fun target => ?_
  exact (neat_fillHandle handle target).bind fun _ => sorts_answer (v := .native _) trivial

theorem sorts_fixedPoints (bound : Nat) (functions : Ref) :
    (fixedPoints bound functions).Sorts Outcome.Sorted := by
  refine (neat_alloc (c := .vacant) trivial).bind fun handle => ?_
  refine (neat_forceList functions).bind fun l => (LazyList.neat_elements bound l).bind fun fs => ?_
  refine (neat_mapM (fun f => neat_allocValue (v := .native _) trivial) fs).bind fun results => ?_
  refine (LazyList.neat_ofRefs results).bind fun l => (neat_allocList l).bind fun target => ?_
  exact (neat_fillHandle handle target).bind fun _ => sorts_answer (v := .list _) trivial

theorem sorts_inSequence (bound : Nat) (first rest : Ref) :
    (inSequence bound first rest).Sorts Outcome.Sorted := by
  refine (neat_forceList rest).bind fun l => ?_
  refine (LazyList.sorts_trail (fun last => ?_) neat_pure bound l (b := first) trivial).neat.goOn
  exact (neat_force last).bind fun _ => neat_pure _

theorem sorts_effectsInSequence (bound : Nat) (first rest : Ref) :
    (effectsInSequence bound first rest).Sorts Outcome.Sorted := by
  refine (sorts_perform first).bind fun v sorted => (neat_forceList rest).bind fun l => ?_
  refine (LazyList.sorts_trail (fun last => ?_) sorts_perform bound l sorted).bind
    fun v sorted => sorts_answer sorted
  cases last <;> trivial

theorem sorts_inParallel (bound : Nat) (first rest : Ref) :
    (inParallel bound first rest).Sorts Outcome.Sorted := by
  refine (neat_forceList rest).bind fun l => ?_
  refine (LazyList.sorts_trail (fun last => ?_) neat_pure bound l (b := first) trivial).neat.goOn
  exact ⟨trivial, fun _ => trivial⟩

theorem neat_nextOfRally (bound id : Nat) : (nextOfRally id bound).Neat := by
  induction bound with
  | zero => trivial
  | succ bound ih =>
    have lists (i : Nat) {next : Option Ref → Script (Option Ref)}
        (answers : ∀ r, next (some r) = pure (some r)) (goesOn : next none = nextOfRally id bound) :
        (Script.act (.listRally id i) next).Neat := by
      refine ⟨trivial, fun listed => ?_⟩
      cases listed with
      | some r =>
        rw [answers]
        exact neat_pure _
      | none =>
        rw [goesOn]
        exact ih
    refine ⟨trivial, fun poll => ?_⟩
    cases poll with
    | exhausted => exact neat_pure (none : Option Ref)
    | reported i => exact lists i (fun _ => rfl) rfl
    | late i r => exact (sorts_observe r).bind fun _ _ => lists i (fun _ => rfl) rfl

theorem neat_rallyCells (bound id : Nat) : (rallyCells bound id).Neat := by
  refine (neat_nextOfRally bound id).bind fun found => ?_
  cases found with
  | none => exact neat_pure _
  | some head =>
    exact (neat_alloc (c := .ofSuspension (.rally id)) trivial).bind fun _ => neat_pure _

theorem neat_submitAll (id i : Nat) (rs : List Ref) : (submitAll id i rs).Neat := by
  induction rs generalizing i with
  | nil => exact neat_pure ()
  | cons r rs ih => exact ⟨trivial, fun _ => ih (i + 1)⟩

theorem sorts_rallyAll (bound : Nat) (arguments : Ref) :
    (rallyAll bound arguments).Sorts Outcome.Sorted := by
  refine (neat_forceList arguments).bind fun l => (LazyList.neat_elements bound l).bind fun rs => ?_
  have opens : (Script.act (.openRally rs) .done).Neat := ⟨trivial, fun _ => trivial⟩
  refine opens.bind fun id => (neat_submitAll id 0 rs).bind fun _ => ?_
  exact (neat_rallyCells bound id).answerList

/-! ### Streams -/

theorem sorts_write (sink : Sink) (text : String) {next : Except FileError Unit → Script Outcome}
    (written : (next (.ok ())).Sorts Outcome.Sorted)
    (refused : ∀ e, (next (.error e)).Sorts Outcome.Sorted) :
    (Script.ask (.write sink text) next).Sorts Outcome.Sorted := by
  intro x
  cases x with
  | ok _ => exact written
  | error e => exact refused e

theorem sorts_writeTo (bound : Nat) (arguments separator ending file mode : Ref) :
    (writeTo bound arguments separator ending file mode).Sorts Outcome.Sorted := by
  refine (neat_forceString separator).bind fun sep => (neat_forceList arguments).bind fun l => ?_
  refine (LazyList.neat_walk (fun parts r => ?_) bound l _).bind fun parts => ?_
  · exact (neat_force r).bind fun v => (Value.neat_text bound v).bind fun _ => neat_pure _
  refine (neat_forceString ending).bind fun ending => (neat_force file).bind fun v => ?_
  have written : (answer (.list .nil)).Sorts Outcome.Sorted := sorts_answer (v := .list .nil) trivial
  cases v with
  | number x =>
    dsimp only
    split
    · exact (neat_pure _).bind fun sink => sorts_write sink _ written fun e => sorts_fail _
    · split
      · exact (neat_pure _).bind fun sink => sorts_write sink _ written fun e => sorts_fail _
      · exact sorts_fail _
  | string path =>
    refine (neat_forceNumber mode).bind fun x => (neat_pure _).bind fun sink => ?_
    exact sorts_write sink _ written fun e => sorts_fail _
  | _ => exact sorts_fail _

theorem sorts_read (source : Source) {next : Except FileError String → Script Outcome}
    (read : ∀ text, (next (.ok text)).Sorts Outcome.Sorted)
    (refused : ∀ e, (next (.error e)).Sorts Outcome.Sorted) :
    (Script.ask (.read source) next).Sorts Outcome.Sorted := by
  intro x
  cases x with
  | ok text => exact read text
  | error e => exact refused e

theorem sorts_readFrom (file : Ref) : (readFrom file).Sorts Outcome.Sorted := by
  refine (neat_force file).bind fun v => ?_
  have read (text : String) : (answer (.string text)).Sorts Outcome.Sorted :=
    sorts_answer (v := .string text) trivial
  cases v with
  | number x =>
    dsimp only
    split
    · exact (neat_pure _).bind fun source => sorts_read source read fun e => sorts_fail _
    · exact sorts_fail _
  | string path => exact (neat_pure _).bind fun source => sorts_read source read fun e => sorts_fail _
  | _ => exact sorts_fail _

end Builtin
end CallByNeed
