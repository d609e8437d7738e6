import CallByNeed.Proofs.Safety.Binding

/- Bodies of builtins on as many cells as they have parameters. Fixed points fill the one handle they
   make; only the bodies of effect functions perform effects and write. -/
namespace CallByNeed
open Script

def Outcome.Fits : Outcome → Prop
  | .value v => v.Fits
  | .tail _ => True

/-- The rest of the script of a cell: it answers what fits, and may have made an effect just now. -/
def Script.SettlesFrom (quiet : Prop) (held : Option Ref) (s : Script Outcome) : Prop :=
  s.Safe quiet (fun r o => o = .value (.effect r)) (fun _ o => o.Fits) held

def Script.Settles (quiet : Prop) (s : Script Outcome) : Prop := s.SettlesFrom quiet none

section
variable {quiet : Prop} {held : Option Ref}

theorem Script.Gives.settles {s : Script Outcome} (gives : s.Gives quiet none Outcome.Fits) :
    s.Settles quiet :=
  gives.safe fun _ => id

theorem gives_answer {v : Value} (fits : v.Fits) : (answer v).Gives quiet held Outcome.Fits :=
  gives_pure fits

theorem gives_tail (r : Ref) : (pure (.tail r) : Script Outcome).Gives quiet held Outcome.Fits :=
  gives_pure trivial

namespace Dict

theorem tame_lookUp (bound : Nat) (d : Dict Ref) (key : Value) :
    (d.lookUp bound key).Tame quiet held := by
  refine (Key.tame_ofValue bound key).bind fun k => ?_
  split
  · exact tame_pure _
  · exact (Value.tame_dump bound key).bind fun _ => gives_fail _

end Dict

namespace Builtin

theorem tame_foldNumbers (bound : Nat) (op : Number → Number → Number) (start : Number)
    (numbers : Ref) : (foldNumbers bound op start numbers).Tame quiet held := by
  refine (tame_forceList numbers).bind fun l => LazyList.tame_walk (fun total r => ?_) bound l start
  exact (tame_forceNumber r).bind fun _ => tame_pure _

theorem gives_foldFrom (bound : Nat) (b : Builtin) (op : Number → Number → Number) (first rest : Ref) :
    (foldFrom bound b op first rest).Gives quiet held Outcome.Fits := by
  refine (tame_forceNumber first).bind fun x => (tame_forceList rest).bind fun l => ?_
  refine (LazyList.tame_walk (fun y r => ?_) bound l _).bind fun y => ?_
  · exact (tame_forceNumber r).bind fun _ => tame_pure _
  · dsimp only
    split
    · exact gives_fail _
    · exact gives_answer trivial

theorem gives_mergeAll (bound : Nat) (first rest : Ref) :
    (mergeAll bound first rest).Gives quiet held Outcome.Fits := by
  refine (tame_force first).bind fun v => ?_
  cases v with
  | list l => exact (LazyList.tame_concat bound l rest).bind fun _ => gives_answer trivial
  | dict d =>
    refine (tame_forceList rest).bind fun l => ?_
    refine (LazyList.tame_walk (fun d r => ?_) bound l d).bind fun _ => gives_answer trivial
    exact (tame_forceDict r).bind fun _ => tame_pure _
  | _ => exact gives_fail _

theorem gives_prependAll (bound : Nat) (arguments : Ref) :
    (prependAll bound arguments).Gives quiet held Outcome.Fits := by
  refine (tame_forceList arguments).bind fun l => (LazyList.tame_elements bound l).bind fun rs => ?_
  cases rs.reverse with
  | nil => exact gives_fail _
  | cons last heads =>
    refine (tame_forceList last).bind fun l => ?_
    exact (tame_foldlM LazyList.tame_push heads l).bind fun _ => gives_answer trivial

theorem gives_insertInto (bound : Nat) (collection key value : Ref) :
    (insertInto bound collection key value).Gives quiet held Outcome.Fits := by
  refine (tame_force collection).bind fun v => ?_
  cases v with
  | list l =>
    refine (tame_forceNumber key).bind fun x => ?_
    exact (LazyList.tame_insert l x value).bind fun _ => gives_answer trivial
  | dict d =>
    refine (tame_force key).bind fun v => ?_
    exact (Key.tame_ofValue bound v).bind fun _ => gives_answer trivial
  | _ => exact gives_fail _

theorem gives_deleteFrom (bound : Nat) (collection key : Ref) :
    (deleteFrom bound collection key).Gives quiet held Outcome.Fits := by
  refine (tame_force collection).bind fun v => ?_
  cases v with
  | list l =>
    refine (tame_forceNumber key).bind fun x => ?_
    exact (LazyList.tame_delete l x).bind fun _ => gives_answer trivial
  | dict d =>
    refine (tame_force key).bind fun v => (Dict.tame_lookUp bound d v).bind fun _ => ?_
    exact (Key.tame_ofValue bound v).bind fun _ => gives_answer trivial
  | _ => exact gives_fail _

theorem gives_includes (bound : Nat) (collection element : Ref) :
    (includes bound collection element).Gives quiet held Outcome.Fits := by
  refine (tame_force element).bind fun u => (tame_force collection).bind fun v => ?_
  cases v with
  | list l => exact (LazyList.tame_includes bound l u).bind fun _ => gives_answer trivial
  | dict d => exact (Key.tame_ofValue bound u).bind fun _ => gives_answer trivial
  | string s => cases u <;> first | exact gives_answer trivial | exact gives_fail _
  | _ => exact gives_fail _

theorem gives_indexOf (bound : Nat) (collection key : Ref) :
    (indexOf bound collection key).Gives quiet held Outcome.Fits := by
  refine (tame_force collection).bind fun v => ?_
  cases v with
  | list l =>
    refine (tame_forceNumber key).bind fun x => ?_
    exact (LazyList.tame_index l x).bind fun r => gives_tail r
  | dict d =>
    refine (tame_force key).bind fun v => ?_
    exact (Dict.tame_lookUp bound d v).bind fun r => gives_tail r
  | _ => exact gives_fail _

theorem gives_sizeOf (bound : Nat) (collection : Ref) :
    (sizeOf bound collection).Gives quiet held Outcome.Fits := by
  refine (tame_force collection).bind fun v => ?_
  cases v with
  | list l => exact (LazyList.tame_length bound l).bind fun _ => gives_answer trivial
  | _ => first | exact gives_answer trivial | exact gives_fail _

theorem gives_toLazyList (collection : Ref) :
    (toLazyList collection).Gives quiet held Outcome.Fits := by
  refine (tame_force collection).bind fun v => ?_
  cases v with
  | list l => exact gives_answer trivial
  | dict d => exact (Dict.tame_listEntries d.entries).bind fun _ => gives_answer trivial
  | string s =>
    refine (tame_mapM (fun c => ?_) s.toList).bind fun rs => ?_
    · exact tame_allocValue (v := .string _) trivial
    · exact (LazyList.tame_ofRefs rs).bind fun _ => gives_answer trivial
  | _ => exact gives_fail _

theorem tame_insertPairs (bound : Nat) (d : Dict Ref) (rs : List Ref) :
    (insertPairs bound d rs).Tame quiet held := by
  fun_induction insertPairs bound d rs with
  | case1 d key value more ih =>
    refine (tame_force key).bind fun v => (Key.tame_ofValue bound v).bind fun k => ih k
  | case2 d rs => exact tame_pure _

theorem gives_dictOf (bound : Nat) (arguments : Ref) :
    (dictOf bound arguments).Gives quiet held Outcome.Fits := by
  refine (tame_forceList arguments).bind fun l => (LazyList.tame_elements bound l).bind fun rs => ?_
  split
  · exact gives_fail _
  · exact (tame_insertPairs bound _ rs).bind fun _ => gives_answer trivial

theorem gives_allEqual (bound : Nat) (arguments : Ref) :
    (allEqual bound arguments).Gives quiet held Outcome.Fits := by
  refine (tame_forceList arguments).bind fun l => ?_
  cases l with
  | nil => exact gives_answer trivial
  | cons head tail =>
    refine (tame_force head).bind fun v => (tame_forceList tail).bind fun l => ?_
    refine (LazyList.tame_walk (fun _ r => ?_) bound l _).bind fun _ => gives_answer trivial
    refine (tame_force r).bind fun u => (Value.tame_equal bound v u).bind fun same => ?_
    cases same <;> exact tame_pure _

theorem gives_chained (bound : Nat) (b : Builtin) (holds : Ordering → Bool) (arguments : Ref) :
    (chained bound b holds arguments).Gives quiet held Outcome.Fits := by
  refine (tame_forceList arguments).bind fun l => ?_
  refine (LazyList.tame_walk (fun x r => ?_) bound l _).bind fun x => ?_
  · refine (tame_force r).bind fun v => ?_
    obtain ⟨last?, all⟩ := x
    cases last? with
    | none => exact tame_pure _
    | some last =>
      refine (Value.tame_compare bound last v).bind fun o => ?_
      split <;> exact tame_pure _
  · dsimp only
    split
    · exact gives_fail _
    · exact gives_answer trivial

theorem gives_compareTwo (bound : Nat) (left right : Ref) :
    (compareTwo bound left right).Gives quiet held Outcome.Fits := by
  refine (tame_force left).bind fun v => (tame_force right).bind fun u => ?_
  refine (Value.tame_compare bound v u).bind fun o => ?_
  cases o <;> exact gives_answer trivial

theorem gives_catchFault (r : Ref) : (catchFault r).Gives quiet held Outcome.Fits := by
  refine (gives_observe r).bind fun v _ => ?_
  cases v with
  | error e =>
    refine (tame_allocValue (v := .string e.name) trivial).bind fun name => ?_
    refine (tame_allocValue (v := .string e.message) trivial).bind fun message => ?_
    exact gives_answer trivial
  | _ => exact gives_answer trivial

/-- The handle that is made is the one that is filled. -/
theorem safe_fillHandle {made : Ref → Unit → Prop} {P : Option Ref → Unit → Prop}
    (handle target : Ref) (filled : P none ()) :
    (fillHandle handle target).Safe quiet made P (some handle) :=
  ⟨rfl, filled⟩

theorem safe_allocVacant {P : Option Ref → Ref → Prop} (result : ∀ r, P (some r) r) :
    (alloc .vacant : Script Ref).Safe quiet (fun _ _ => False) P none := by
  refine ⟨trivial, ?_, fun _ => ⟨rfl, fun r => result r⟩, ?_⟩
  · rintro ⟨⟩
  · rintro ⟨⟩

theorem settles_fixedPoint (function : Ref) : (fixedPoint function).Settles quiet := by
  refine Safe.bind (safe_allocVacant (P := fun held r => held = some r) fun _ => rfl) ?_
  rintro _ handle rfl
  refine (tame_allocValue (v := .native _) trivial).next fun target => ?_
  refine Safe.bind (safe_fillHandle (P := fun held _ => held = none) handle target rfl) ?_
  rintro _ _ rfl
  exact (gives_answer (v := .native _) trivial).safe fun _ => id

theorem settles_fixedPoints (bound : Nat) (functions : Ref) :
    (fixedPoints bound functions).Settles quiet := by
  refine Safe.bind (safe_allocVacant (P := fun held r => held = some r) fun _ => rfl) ?_
  rintro _ handle rfl
  refine (tame_forceList functions).next fun l => (LazyList.tame_elements bound l).next fun fs => ?_
  refine (tame_mapM (fun f => tame_allocValue (v := .native _) trivial) fs).next fun results => ?_
  refine (LazyList.tame_ofRefs results).next fun l => (tame_allocList l).next fun target => ?_
  refine Safe.bind (safe_fillHandle (P := fun held _ => held = none) handle target rfl) ?_
  rintro _ _ rfl
  exact (gives_answer (v := .list _) trivial).safe fun _ => id

theorem gives_inSequence (bound : Nat) (first rest : Ref) :
    (inSequence bound first rest).Gives quiet held Outcome.Fits := by
  refine (tame_forceList rest).bind fun l => ?_
  refine (LazyList.gives_trail (I := fun _ => True) (fun last => ?_) tame_pure bound l
    trivial).bind fun r _ => gives_tail r
  exact (tame_force last).bind fun _ => tame_pure _

theorem gives_effectsInSequence (loud : ¬ quiet) (bound : Nat) (first rest : Ref) :
    (effectsInSequence bound first rest).Gives quiet held Outcome.Fits := by
  refine (gives_perform loud first).bind fun v replies => (tame_forceList rest).bind fun l => ?_
  refine (LazyList.gives_trail (I := Value.Fits) (fun last => ?_) (fun r => ?_) bound l
    replies.1).bind fun v fits => gives_answer fits
  · cases last <;> first | exact tame_pure () | exact gives_raise _
  · exact (gives_perform loud r).imp fun _ replies => replies.1

theorem gives_inParallel (bound : Nat) (first rest : Ref) :
    (inParallel bound first rest).Gives quiet held Outcome.Fits := by
  refine (tame_forceList rest).bind fun l => ?_
  refine (LazyList.gives_trail (I := fun _ => True) (fun last => ?_) tame_pure bound l
    trivial).bind fun r _ => gives_tail r
  exact (tame_pure () : Script.Tame quiet held _)

theorem tame_nextOfRally (bound id : Nat) : (nextOfRally id bound).Tame quiet held := by
  induction bound with
  | zero => exact gives_stall
  | succ bound ih =>
    have lists (i : Nat) {next : Option Ref → Script (Option Ref)}
        (answers : ∀ r, next (some r) = pure (some r)) (goesOn : next none = nextOfRally id bound) :
        (Script.act (.listRally id i) next).Tame quiet held := by
      intro listed
      cases listed with
      | some r =>
        rw [answers]
        exact (tame_pure (some r) : Script.Tame quiet held _)
      | none =>
        rw [goesOn]
        exact ih
    intro poll
    cases poll with
    | exhausted => exact (tame_pure (none : Option Ref) : Script.Tame quiet held _)
    | reported i => exact lists i (fun _ => rfl) rfl
    | late i r => exact (gives_observe r).bind fun _ _ => lists i (fun _ => rfl) rfl

theorem tame_rallyCells (bound id : Nat) : (rallyCells bound id).Tame quiet held := by
  refine (tame_nextOfRally bound id).bind fun found => ?_
  cases found with
  | none => exact tame_pure _
  | some head => exact (tame_suspendRally id).bind fun _ => tame_pure _

theorem tame_submitAll (id i : Nat) (rs : List Ref) : (submitAll id i rs).Tame quiet held := by
  induction rs generalizing i with
  | nil => exact (tame_pure () : Script.Tame quiet held _)
  | cons r rs ih => exact ih (i + 1)

theorem gives_rallyAll (bound : Nat) (arguments : Ref) :
    (rallyAll bound arguments).Gives quiet held Outcome.Fits := by
  refine (tame_forceList arguments).bind fun l => (LazyList.tame_elements bound l).bind fun rs => ?_
  have opens : (Script.act (.openRally rs) .done).Tame quiet held :=
    fun id => (tame_pure id : Script.Tame quiet held _)
  refine opens.bind fun id => (tame_submitAll id 0 rs).bind fun _ => ?_
  exact (tame_rallyCells bound id).bind fun _ => gives_answer trivial

theorem gives_write (loud : ¬ quiet) (sink : Sink) (text : String)
    {next : Except FileError Unit → Script Outcome}
    (written : (next (.ok ())).Gives quiet held Outcome.Fits)
    (refused : ∀ e, (next (.error e)).Gives quiet held Outcome.Fits) :
    (Script.ask (.write sink text) next).Gives quiet held Outcome.Fits := by
  refine ⟨fun silent => absurd silent loud, fun a => ?_⟩
  cases a with
  | ok _ => exact written
  | error e => exact refused e

theorem gives_writeTo (loud : ¬ quiet) (bound : Nat) (arguments separator ending file mode : Ref) :
    (writeTo bound arguments separator ending file mode).Gives quiet held Outcome.Fits := by
  refine (tame_forceString separator).bind fun sep => (tame_forceList arguments).bind fun l => ?_
  refine (LazyList.tame_walk (fun parts r => ?_) bound l _).bind fun parts => ?_
  · exact (tame_force r).bind fun v => (Value.tame_text bound v).bind fun _ => tame_pure _
  refine (tame_forceString ending).bind fun ending => (tame_force file).bind fun v => ?_
  have written : (answer (.list .nil)).Gives quiet held Outcome.Fits := gives_answer trivial
  cases v with
  | number x =>
    dsimp only
    split
    · exact (tame_pure _).bind fun sink => gives_write loud sink _ written fun e => gives_fail _
    · split
      · exact (tame_pure _).bind fun sink => gives_write loud sink _ written fun e => gives_fail _
      · exact gives_fail _
  | string path =>
    refine (tame_forceNumber mode).bind fun x => (tame_pure _).bind fun sink => ?_
    exact gives_write loud sink _ written fun e => gives_fail _
  | _ => exact gives_fail _

theorem gives_read (source : Source) {next : Except FileError String → Script Outcome}
    (read : ∀ text, (next (.ok text)).Gives quiet held Outcome.Fits)
    (refused : ∀ e, (next (.error e)).Gives quiet held Outcome.Fits) :
    (Script.ask (.read source) next).Gives quiet held Outcome.Fits := by
  refine ⟨fun _ => trivial, fun a => ?_⟩
  cases a with
  | ok text => exact read text
  | error e => exact refused e

theorem gives_readFrom (file : Ref) : (readFrom file).Gives quiet held Outcome.Fits := by
  refine (tame_force file).bind fun v => ?_
  have read (text : String) : (answer (.string text)).Gives quiet held Outcome.Fits :=
    gives_answer trivial
  cases v with
  | number x =>
    dsimp only
    split
    · exact (tame_pure _).bind fun source => gives_read source read fun e => gives_fail _
    · exact gives_fail _
  | string path => exact (tame_pure _).bind fun source => gives_read source read fun e => gives_fail _
  | _ => exact gives_fail _

end Builtin
end
end CallByNeed
