import CallByNeed.Call
import CallByNeed.Proofs.Faults.Script

/- Lists, keys, comparisons, texts and bindings pass on all faults: they force cells and look at no
   fault themselves. -/
namespace CallByNeed
open Script

section
variable {α β γ : Type}

namespace LazyList

theorem strict_push (l : LazyList) (head : Ref) : (l.push head : Script LazyList).Strict :=
  (strict_allocValue _).map _

theorem strict_ofRefs (rs : List Ref) : (ofRefs rs : Script LazyList).Strict :=
  strict_foldlM strict_push _ _

theorem strict_walk {visit : β → Ref → Script (ForInStep β)} (each : ∀ b r, (visit b r).Strict)
    (bound : Nat) (l : LazyList) (b : β) : (l.walk visit bound b).Strict := by
  induction bound generalizing l b with
  | zero => trivial
  | succ bound ih =>
    cases l with
    | nil => exact strict_pure b
    | cons head tail =>
      refine (each b head).bind fun step => ?_
      cases step with
      | done b' => exact strict_pure b'
      | yield b' => exact (strict_forceList tail).bind fun l => ih l b'

theorem strict_walkPairs {visit : Ref → Ref → Script (Option γ)} (ended : Ordering → γ)
    (each : ∀ x y, (visit x y).Strict) (bound : Nat) (l l' : LazyList) :
    (l.walkPairs visit ended bound l').Strict := by
  induction bound generalizing l l' with
  | zero => trivial
  | succ bound ih =>
    cases l with
    | nil => cases l' <;> exact strict_pure _
    | cons x xs =>
      cases l' with
      | nil => exact strict_pure _
      | cons y ys =>
        refine (each x y).bind fun answer => ?_
        cases answer with
        | some answer => exact strict_pure answer
        | none =>
          exact (strict_forceList xs).bind fun l => (strict_forceList ys).bind fun l' => ih l l'

theorem strict_elements (bound : Nat) (l : LazyList) : (l.elements bound).Strict :=
  (strict_walk (fun _ _ => strict_pure _) bound l _).map _

theorem strict_length (bound : Nat) (l : LazyList) : (l.length bound).Strict :=
  strict_walk (fun _ _ => strict_pure _) bound l _

theorem strict_first (l : LazyList) : l.first.Strict := by
  cases l <;> trivial

theorem strict_rest (l : LazyList) : l.rest.Strict := by
  cases l <;> trivial

theorem strict_position (index : Number) : (position index).Strict := by
  unfold position
  split
  · exact strict_fail _
  · split
    · exact strict_fail _
    · exact strict_pure _

theorem strict_skip (n : Nat) (l : LazyList) : (l.skip n).Strict := by
  induction n generalizing l with
  | zero => cases l <;> trivial
  | succ n ih =>
    cases l with
    | nil => exact strict_fail _
    | cons head tail => exact (strict_forceList tail).bind ih

theorem strict_split (n : Nat) (heads : List Ref) (l : LazyList) : (split n heads l).Strict := by
  induction n generalizing heads l with
  | zero => exact strict_pure _
  | succ n ih =>
    cases l with
    | nil => exact strict_fail _
    | cons head tail => exact (strict_forceList tail).bind fun l => ih _ l

theorem strict_rejoin (heads : List Ref) (tail : Ref) : (rejoin heads tail).Strict := by
  cases heads with
  | nil => exact strict_forceList tail
  | cons last heads => exact strict_foldlM strict_push _ _

theorem strict_index (l : LazyList) (place : Number) : (l.index place).Strict :=
  (strict_position place).bind fun n => strict_skip n l

theorem strict_delete (l : LazyList) (place : Number) : (l.delete place).Strict := by
  cases l with
  | nil => exact strict_fail _
  | cons head tail =>
    refine (strict_position place).bind fun n => (strict_split n _ _).bind fun (heads, rest) => ?_
    cases rest with
    | nil => exact strict_fail _
    | cons head tail => exact strict_rejoin _ _

theorem strict_insert (l : LazyList) (place : Number) (element : Ref) :
    (l.insert place element).Strict := by
  refine (strict_position place).bind fun n => (strict_split n _ _).bind fun parts => ?_
  exact (strict_allocValue _).bind fun _ => (strict_allocValue _).bind fun _ => strict_rejoin _ _

theorem strict_concat (bound : Nat) (l : LazyList) (rest : Ref) : (l.concat bound rest).Strict := by
  induction bound generalizing l rest with
  | zero => trivial
  | succ bound ih =>
    cases l with
    | cons head tail => exact (strict_alloc (.ofSuspension (.concat tail rest))).map _
    | nil =>
      refine (strict_forceList rest).bind fun l => ?_
      cases l with
      | nil => exact strict_pure _
      | cons next rest => exact (strict_forceList next).bind fun l => ih l rest

end LazyList

/-! ### Keys, comparisons and texts -/

namespace Key

theorem strict_ofEntries {f : Value → Script Key} (each : ∀ v, (f v).Strict)
    (es : List (Key × Ref)) : (ofEntries f es).Strict := by
  induction es with
  | nil => exact strict_pure []
  | cons e es ih =>
    exact (strict_force e.2).bind fun v => (each v).bind fun _ => ih.map _

theorem strict_ofValue (bound : Nat) (v : Value) : (ofValue bound v).Strict := by
  induction bound generalizing v with
  | zero => trivial
  | succ bound ih =>
    cases v with
    | list l =>
      refine (LazyList.strict_walk (fun keys r => ?_) bound l _).map _
      exact (strict_force r).bind fun v => (ih v).map _
    | dict d => exact (strict_ofEntries ih d.entries).map _
    | _ => trivial

mutual
theorem strict_toValue : ∀ k : Key, (k.toValue : Script Value).Strict
  | .bool _ | .number _ | .string _ => strict_pure _
  | .list keys => by
    simp only [toValue]
    exact (strict_toElements keys).bind fun _ => (LazyList.strict_ofRefs _).map _
  | .dict entries => by
    simp only [toValue]
    exact (strict_toEntries entries).map _

theorem strict_toElements : ∀ keys : List Key, (toElements keys : Script (List Ref)).Strict
  | [] => by
    simp only [toElements]
    exact strict_pure _
  | k :: ks => by
    simp only [toElements]
    exact (strict_toValue k).bind fun _ => (strict_allocValue _).bind fun _ =>
      (strict_toElements ks).map _

theorem strict_toEntries : ∀ es : List (Key × Key),
    (toEntries es : Script (List (Key × Ref))).Strict
  | [] => by
    simp only [toEntries]
    exact strict_pure _
  | (_, x) :: es => by
    simp only [toEntries]
    exact (strict_toValue x).bind fun _ => (strict_allocValue _).bind fun _ =>
      (strict_toEntries es).map _
end

end Key

namespace Dict

theorem strict_listEntries (es : List (Key × Ref)) : (listEntries es).Strict := by
  cases es with
  | nil => exact strict_pure _
  | cons e es =>
    refine (Key.strict_toValue e.1).bind fun _ => (strict_allocValue _).bind fun _ => ?_
    refine (LazyList.strict_ofRefs _).bind fun _ => (strict_allocValue _).bind fun _ => ?_
    exact (strict_alloc _).map _

end Dict

namespace Value

/-- Two cells are forced one after the other and then compared. -/
theorem strict_forceBoth {f : Value → Value → Script α} {next : α → Script β}
    (compares : ∀ v u, (f v u).Strict) (rest : ∀ a, (next a).Strict) (x y : Ref) :
    (do
      let v ← force x
      next (← f v (← force y))).Strict :=
  (strict_force x).bind fun v => (strict_force y).bind fun u => (compares v u).bind rest

theorem strict_compareEntries {f : Value → Value → Script Ordering}
    (each : ∀ v u, (f v u).Strict) (es gs : List (Key × Ref)) :
    (compareEntries f es gs).Strict := by
  induction es generalizing gs with
  | nil => cases gs <;> exact strict_pure _
  | cons e es ih =>
    cases gs with
    | nil => exact strict_pure _
    | cons g gs =>
      simp only [compareEntries]
      split
      · refine strict_forceBoth each (fun o => ?_) e.2 g.2
        cases o with
        | eq => exact ih gs
        | lt => exact strict_pure _
        | gt => exact strict_pure _
      · exact strict_pure _

theorem strict_compare (bound : Nat) (v u : Value) : (compare bound v u).Strict := by
  induction bound generalizing v u with
  | zero => trivial
  | succ bound ih =>
    unfold compare
    split
    case h_6 xs ys =>
      refine LazyList.strict_walkPairs id (fun x y => ?_) bound _ _
      refine strict_forceBoth ih (fun o => ?_) x y
      cases o <;> exact strict_pure _
    case h_7 xs ys => exact strict_compareEntries ih _ _
    case h_8 => split <;> exact strict_fail _
    all_goals trivial

theorem strict_equalEntries {f : Value → Value → Script Bool} (each : ∀ v u, (f v u).Strict)
    (es gs : List (Key × Ref)) : (equalEntries f es gs).Strict := by
  induction es generalizing gs with
  | nil => exact strict_pure _
  | cons e es ih =>
    cases gs with
    | nil => exact strict_pure _
    | cons g gs =>
      simp only [equalEntries]
      split
      · refine strict_forceBoth each (fun same => ?_) e.2 g.2
        cases same with
        | true => exact ih gs
        | false => exact strict_pure _
      · exact strict_pure _

theorem strict_equal (bound : Nat) (v u : Value) : (equal bound v u).Strict := by
  induction bound generalizing v u with
  | zero => trivial
  | succ bound ih =>
    unfold equal
    split
    case h_6 xs ys =>
      refine LazyList.strict_walkPairs _ (fun x y => ?_) bound _ _
      refine strict_forceBoth ih (fun same => ?_) x y
      cases same <;> exact strict_pure _
    case h_7 xs ys =>
      split
      · exact strict_equalEntries ih _ _
      · exact strict_pure _
    case h_8 =>
      split
      · exact strict_fail _
      · split
        · exact strict_fail _
        · exact strict_pure _
    all_goals trivial

theorem strict_dumpWith {f : Value → Script String} {v : Value} (texts : (f v).Strict) :
    (dumpWith f v).Strict := by
  cases v <;> first | exact texts | trivial

theorem strict_dumpEntries {f : Value → Script String} (each : ∀ v, (f v).Strict)
    (es : List (Key × Ref)) : (dumpEntries f es).Strict := by
  induction es with
  | nil => exact strict_pure _
  | cons e es ih => exact (strict_force e.2).bind fun v => (each v).bind fun _ => ih.map _

theorem strict_text (bound : Nat) (v : Value) : (text bound v).Strict := by
  induction bound generalizing v with
  | zero => trivial
  | succ bound ih =>
    cases v with
    | list l =>
      refine (LazyList.strict_walk (fun parts r => ?_) bound l _).map _
      exact (strict_force r).bind fun v => (strict_dumpWith (ih v)).map _
    | dict d =>
      exact (strict_dumpEntries (fun v => strict_dumpWith (ih v)) d.entries).map _
    | _ => trivial

theorem strict_dump (bound : Nat) (v : Value) : (dump bound v).Strict :=
  strict_dumpWith (strict_text bound v)

end Value

theorem LazyList.strict_includes (bound : Nat) (l : LazyList) (v : Value) :
    (l.includes bound v).Strict := by
  refine strict_walk (fun _ r => ?_) bound l _
  refine (strict_force r).bind fun u => (Value.strict_equal bound u v).bind fun same => ?_
  cases same <;> exact strict_pure _

theorem Dict.strict_lookUp (bound : Nat) (d : Dict Ref) (key : Value) :
    (d.lookUp bound key).Strict := by
  refine (Key.strict_ofValue bound key).bind fun k => ?_
  split
  · exact strict_pure _
  · exact (Value.strict_dump bound key).bind fun _ => strict_fail _

/-! ### Binding -/

namespace Arguments

theorem strict_allocMerge (collections : List Ref) :
    (allocMerge collections : Script Ref).Strict :=
  strict_allocCall _ collections

theorem strict_nextPositional (a : Arguments) : a.nextPositional.Strict := by
  unfold nextPositional
  split
  · exact strict_pure _
  · exact strict_pure _
  · refine (strict_forceList _).bind fun l => ?_
    cases l <;> exact strict_pure _

theorem strict_restPositionals (a : Arguments) : a.restPositionals.Strict := by
  refine (LazyList.strict_ofRefs _).bind fun l => (strict_allocValue _).bind fun explicit => ?_
  cases a.spread with
  | none => exact strict_pure _
  | some list => exact (strict_allocMerge _).map _

theorem strict_takeEntry (key : Key) (ds : List Ref) : (takeEntry key ds).Strict := by
  induction ds with
  | nil => exact strict_pure _
  | cons d ds ih =>
    refine (strict_forceDict d).bind fun dict => ?_
    split
    · exact (strict_allocValue _).map _
    · refine ih.bind fun taken => ?_
      cases taken <;> exact strict_pure _

theorem strict_takeKeyword (a : Arguments) (name : String) : (a.takeKeyword name).Strict := by
  unfold takeKeyword
  split
  · exact strict_pure _
  · refine (strict_takeEntry _ _).bind fun taken => ?_
    cases taken <;> exact strict_pure _

theorem strict_restKeywords (a : Arguments) : a.restKeywords.Strict := by
  refine (strict_allocValue _).bind fun d => ?_
  split
  · exact strict_pure _
  · exact (strict_allocMerge _).map _

theorem strict_countEntries (ds : List Ref) : (countEntries ds).Strict := by
  induction ds with
  | nil => exact strict_pure _
  | cons d ds ih => exact (strict_forceDict d).bind fun dict => ih.map _

theorem strict_checkTaken (a : Arguments) : a.checkTaken.Strict := by
  have counted (left : Nat) :
      (if 0 < left then fail (.extraPositionals left)
      else do
        let left := a.keywords.length + (← countEntries a.dicts)
        if 0 < left then fail (.extraKeywords left) else pure () : Script Unit).Strict := by
    split
    · exact strict_fail _
    · refine (strict_countEntries _).bind fun n => ?_
      dsimp only
      split
      · exact strict_fail _
      · exact strict_pure _
  unfold checkTaken
  split
  · refine (strict_nextPositional a).bind fun (found, _) => ?_
    cases found
    · exact counted 0
    · exact counted 1
  · exact counted _

end Arguments

theorem Default.strict_ref (d : Default) : d.ref.Strict := by
  cases d with
  | literal l => exact strict_allocValue _
  | cell r => exact strict_pure _

namespace Binding

theorem strict_findKeyword (b : Binding) (name : String) : (b.findKeyword name).Strict :=
  (Arguments.strict_takeKeyword b.left name).map _

theorem strict_findPositional (b : Binding) (name : String) : (b.findPositional name).Strict := by
  have by_name (left : Arguments) :
      (do
        let taken ← left.takeKeyword name
        pure (taken.1, { b with left := taken.2, named := true }) :
          Script (Option Ref × Binding)).Strict :=
    (Arguments.strict_takeKeyword left name).map _
  unfold findPositional
  dsimp only
  split
  · exact by_name b.left
  · refine (Arguments.strict_nextPositional b.left).bind fun (found, left) => ?_
    cases found
    · exact by_name left
    · exact strict_pure _

theorem strict_bindNamed {find : Binding → String → Script (Option Ref × Binding)}
    (finds : ∀ b name, (find b name).Strict) (missing : Cause) (half : Half Default)
    (b : Binding) : (b.bindNamed find missing half).Strict := by
  refine (strict_foldlM (fun b name => ?_) half.requireds b).bind fun b =>
    strict_foldlM (fun b optional => ?_) half.optionals b
  · refine (finds b name).bind fun (found, _) => ?_
    cases found <;> trivial
  · refine (finds b optional.1).bind fun (found, _) => ?_
    cases found
    · exact optional.2.strict_ref.map _
    · exact strict_pure _

theorem strict_bindRest {rest : Arguments → Script (Ref × Arguments)}
    (rests : ∀ a, (rest a).Strict) (half : Half Default) (b : Binding) :
    (b.bindRest rest half).Strict := by
  unfold bindRest
  cases half.rest with
  | none => exact strict_pure _
  | some name => exact (rests b.left).map _

end Binding

theorem Signature.strict_bind (s : Signature Default) (a : Arguments) : (s.bind a).Strict := by
  refine (Binding.strict_bindNamed Binding.strict_findPositional _ s.positional _).bind fun b => ?_
  refine (Binding.strict_bindRest Arguments.strict_restPositionals s.positional b).bind fun b => ?_
  refine (Binding.strict_bindNamed Binding.strict_findKeyword _ s.keyword b).bind fun b => ?_
  refine (Binding.strict_bindRest Arguments.strict_restKeywords s.keyword b).bind fun b => ?_
  exact (Arguments.strict_checkTaken b.left).map _

end
end CallByNeed
