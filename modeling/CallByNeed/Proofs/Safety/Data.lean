import CallByNeed.Proofs.Safety.Script

/- Lists, keys, comparisons and texts are tame: they demand values and make lists. Loops go by
   induction on their bound. -/
namespace CallByNeed
open Script

section
variable {α β γ : Type} {quiet : Prop} {held : Option Ref}

namespace LazyList

theorem tame_push (l : LazyList) (head : Ref) : (l.push head : Script LazyList).Tame quiet held :=
  (tame_allocList l).bind fun _ => tame_pure _

theorem tame_ofRefs (rs : List Ref) : (ofRefs rs : Script LazyList).Tame quiet held :=
  tame_foldlM tame_push _ _

theorem gives_walk {I : β → Prop} {visit : β → Ref → Script (ForInStep β)}
    (each : ∀ b r, I b → (visit b r).Gives quiet held fun step => I step.value) (bound : Nat)
    (l : LazyList) {b : β} (starts : I b) : (l.walk visit bound b).Gives quiet held I := by
  induction bound generalizing l b with
  | zero => exact gives_stall
  | succ bound ih =>
    cases l with
    | nil => exact gives_pure starts
    | cons head tail =>
      refine (each b head starts).bind fun step next => ?_
      cases step with
      | done b' => exact gives_pure next
      | yield b' => exact (tame_forceList tail).bind fun l => ih l next

theorem tame_walk {visit : β → Ref → Script (ForInStep β)}
    (each : ∀ b r, (visit b r).Tame quiet held) (bound : Nat) (l : LazyList) (b : β) :
    (l.walk visit bound b).Tame quiet held :=
  gives_walk (I := fun _ => True) (fun b r _ => (each b r).imp fun _ _ => trivial) bound l trivial

/-- An attempt to force a list holds what was held, whatever it is answered. -/
theorem tame_attemptList (r : Ref) : (forceList r).attempt.Tame quiet held := by
  refine ⟨fun _ => rfl, fun v _ => ?_⟩
  cases v <;> exact ⟨rfl, trivial⟩

theorem gives_trail {I : β → Prop} {leave : β → Script Unit} {visit : Ref → Script β}
    (leaves : ∀ b, (leave b).Tame quiet held) (visits : ∀ r, (visit r).Gives quiet held I)
    (bound : Nat) (l : LazyList) {b : β} (starts : I b) :
    (l.trail leave visit bound b).Gives quiet held I := by
  induction bound generalizing l b with
  | zero => exact gives_stall
  | succ bound ih =>
    cases l with
    | nil => exact gives_pure starts
    | cons head tail =>
      refine (leaves b).bind fun _ => (visits head).bind fun c next => ?_
      refine (tame_attemptList tail).bind fun found => ?_
      cases found with
      | ok l => exact ih l next
      | error e => exact (leaves c).bind fun _ => gives_raise e

theorem tame_walkPairs {visit : Ref → Ref → Script (Option γ)} (ended : Ordering → γ)
    (each : ∀ x y, (visit x y).Tame quiet held) (bound : Nat) (l l' : LazyList) :
    (l.walkPairs visit ended bound l').Tame quiet held := by
  induction bound generalizing l l' with
  | zero => exact gives_stall
  | succ bound ih =>
    cases l with
    | nil => cases l' <;> exact tame_pure _
    | cons x xs =>
      cases l' with
      | nil => exact tame_pure _
      | cons y ys =>
        refine (each x y).bind fun answer => ?_
        cases answer with
        | some answer => exact tame_pure _
        | none =>
          refine (tame_forceList xs).bind fun l => ?_
          exact (tame_forceList ys).bind fun l' => ih l l'

theorem tame_elements (bound : Nat) (l : LazyList) : (l.elements bound).Tame quiet held :=
  (tame_walk (fun _ _ => tame_pure _) bound l _).bind fun _ => tame_pure _

theorem tame_length (bound : Nat) (l : LazyList) : (l.length bound).Tame quiet held :=
  tame_walk (fun _ _ => tame_pure _) bound l _

theorem tame_first (l : LazyList) : l.first.Tame quiet held := by
  cases l <;> first | exact tame_pure _ | exact gives_fail _

theorem tame_rest (l : LazyList) : l.rest.Tame quiet held := by
  cases l <;> first | exact tame_pure _ | exact gives_fail _

theorem tame_position (index : Number) : (position index).Tame quiet held := by
  unfold position
  split
  · exact gives_fail _
  · split
    · exact gives_fail _
    · exact tame_pure _

theorem tame_skip (n : Nat) (l : LazyList) : (l.skip n).Tame quiet held := by
  induction n generalizing l with
  | zero => cases l <;> first | exact tame_pure _ | exact gives_fail _
  | succ n ih =>
    cases l with
    | nil => exact gives_fail _
    | cons head tail => exact (tame_forceList tail).bind ih

theorem tame_split (n : Nat) (heads : List Ref) (l : LazyList) :
    (split n heads l).Tame quiet held := by
  induction n generalizing heads l with
  | zero => exact tame_pure _
  | succ n ih =>
    cases l with
    | nil => exact gives_fail _
    | cons head tail => exact (tame_forceList tail).bind fun l => ih _ l

theorem tame_rejoin (heads : List Ref) (tail : Ref) : (rejoin heads tail).Tame quiet held := by
  cases heads with
  | nil => exact tame_forceList tail
  | cons last heads => exact tame_foldlM tame_push _ _

theorem tame_index (l : LazyList) (place : Number) : (l.index place).Tame quiet held :=
  (tame_position place).bind fun n => tame_skip n l

theorem tame_delete (l : LazyList) (place : Number) : (l.delete place).Tame quiet held := by
  cases l with
  | nil => exact gives_fail _
  | cons head tail =>
    refine (tame_position place).bind fun n => (tame_split n _ _).bind fun parts => ?_
    obtain ⟨heads, rest⟩ := parts
    cases rest with
    | nil => exact gives_fail _
    | cons head tail => exact tame_rejoin _ _

theorem tame_insert (l : LazyList) (place : Number) (element : Ref) :
    (l.insert place element).Tame quiet held := by
  refine (tame_position place).bind fun n => (tame_split n _ _).bind fun parts => ?_
  refine (tame_allocList _).bind fun tail => ?_
  exact (tame_allocList _).bind fun r => tame_rejoin _ _

theorem tame_concat (bound : Nat) (l : LazyList) (rest : Ref) :
    (l.concat bound rest).Tame quiet held := by
  induction bound generalizing l rest with
  | zero => exact gives_stall
  | succ bound ih =>
    cases l with
    | cons head tail => exact (tame_suspendConcat _ _).bind fun _ => tame_pure _
    | nil =>
      refine (tame_forceList rest).bind fun l => ?_
      cases l with
      | nil => exact tame_pure _
      | cons next rest => exact (tame_forceList next).bind fun l => ih l rest

end LazyList

namespace Key

theorem tame_ofEntries {f : Value → Script Key} (each : ∀ v, (f v).Tame quiet held)
    (es : List (Key × Ref)) : (ofEntries f es).Tame quiet held := by
  induction es with
  | nil => exact tame_pure _
  | cons e es ih =>
    refine (tame_force e.2).bind fun v => (each v).bind fun x => ?_
    exact ih.bind fun _ => tame_pure _

theorem tame_ofValue (bound : Nat) (v : Value) : (ofValue bound v).Tame quiet held := by
  induction bound generalizing v with
  | zero => exact gives_stall
  | succ bound ih =>
    cases v with
    | list l =>
      refine (LazyList.tame_walk (fun keys r => ?_) bound l _).bind fun _ => tame_pure _
      exact (tame_force r).bind fun v => (ih v).bind fun _ => tame_pure _
    | dict d => exact (tame_ofEntries ih d.entries).bind fun _ => tame_pure _
    | _ => first | exact tame_pure _ | exact gives_fail _ | exact gives_raise _

mutual
theorem gives_toValue : ∀ k : Key, (k.toValue : Script Value).Gives quiet held Value.Fits
  | .bool b => gives_pure trivial
  | .number x => gives_pure trivial
  | .string s => gives_pure trivial
  | .list keys => by
    simp only [toValue]
    exact (tame_toElements keys).bind fun _ => (LazyList.tame_ofRefs _).bind fun _ => gives_pure trivial
  | .dict entries => by
    simp only [toValue]
    exact (tame_toEntries entries).bind fun _ => gives_pure trivial

theorem tame_toElements : ∀ keys : List Key, (toElements keys : Script (List Ref)).Tame quiet held
  | [] => by
    simp only [toElements]
    exact tame_pure _
  | k :: ks => by
    simp only [toElements]
    refine (gives_toValue k).bind fun v fits => (tame_allocValue fits).bind fun r => ?_
    exact (tame_toElements ks).bind fun _ => tame_pure _

theorem tame_toEntries : ∀ es : List (Key × Key),
    (toEntries es : Script (List (Key × Ref))).Tame quiet held
  | [] => by
    simp only [toEntries]
    exact tame_pure _
  | (k, x) :: es => by
    simp only [toEntries]
    refine (gives_toValue x).bind fun v fits => (tame_allocValue fits).bind fun r => ?_
    exact (tame_toEntries es).bind fun _ => tame_pure _
end

end Key

namespace Dict

theorem tame_listEntries (es : List (Key × Ref)) : (listEntries es).Tame quiet held := by
  cases es with
  | nil => exact tame_pure _
  | cons e es =>
    refine (Key.gives_toValue e.1).bind fun v fits => (tame_allocValue fits).bind fun key => ?_
    refine (LazyList.tame_ofRefs _).bind fun l => (tame_allocList _).bind fun pair => ?_
    exact (tame_suspendEntries _).bind fun _ => tame_pure _

end Dict

namespace Value

theorem tame_compareEntries {f : Value → Value → Script Ordering}
    (each : ∀ v u, (f v u).Tame quiet held) (es gs : List (Key × Ref)) :
    (compareEntries f es gs).Tame quiet held := by
  induction es generalizing gs with
  | nil => cases gs <;> exact tame_pure _
  | cons e es ih =>
    cases gs with
    | nil => exact tame_pure _
    | cons g gs =>
      simp only [compareEntries]
      split
      · refine (tame_force e.2).bind fun v => (tame_force g.2).bind fun u => ?_
        refine (each v u).bind fun o => ?_
        cases o with
        | eq => exact ih gs
        | lt => exact tame_pure _
        | gt => exact tame_pure _
      · exact tame_pure _

theorem tame_compare (bound : Nat) (v u : Value) : (compare bound v u).Tame quiet held := by
  induction bound generalizing v u with
  | zero => exact gives_stall
  | succ bound ih =>
    unfold compare
    split
    · exact gives_raise _
    · exact gives_raise _
    · exact tame_pure _
    · exact tame_pure _
    · exact tame_pure _
    · refine LazyList.tame_walkPairs id (fun x y => ?_) bound _ _
      refine (tame_force x).bind fun v => (tame_force y).bind fun u => ?_
      refine (ih v u).bind fun o => ?_
      cases o <;> exact tame_pure _
    · exact tame_compareEntries ih _ _
    · split <;> exact gives_fail _

theorem tame_equalEntries {f : Value → Value → Script Bool}
    (each : ∀ v u, (f v u).Tame quiet held) (es gs : List (Key × Ref)) :
    (equalEntries f es gs).Tame quiet held := by
  induction es generalizing gs with
  | nil => exact tame_pure _
  | cons e es ih =>
    cases gs with
    | nil => exact tame_pure _
    | cons g gs =>
      simp only [equalEntries]
      split
      · refine (tame_force e.2).bind fun v => (tame_force g.2).bind fun u => ?_
        refine (each v u).bind fun same => ?_
        cases same with
        | true => exact ih gs
        | false => exact tame_pure _
      · exact tame_pure _

theorem tame_equal (bound : Nat) (v u : Value) : (equal bound v u).Tame quiet held := by
  induction bound generalizing v u with
  | zero => exact gives_stall
  | succ bound ih =>
    unfold equal
    split
    · exact gives_raise _
    · exact gives_raise _
    · exact tame_pure _
    · exact tame_pure _
    · exact tame_pure _
    · refine LazyList.tame_walkPairs _ (fun x y => ?_) bound _ _
      refine (tame_force x).bind fun v => (tame_force y).bind fun u => ?_
      refine (ih v u).bind fun same => ?_
      cases same <;> exact tame_pure _
    · split
      · exact tame_equalEntries ih _ _
      · exact tame_pure _
    · split
      · exact gives_fail _
      · split
        · exact gives_fail _
        · exact tame_pure _

theorem tame_dumpWith {f : Value → Script String} {v : Value} (texts : (f v).Tame quiet held) :
    (dumpWith f v).Tame quiet held := by
  cases v <;> first | exact texts | exact tame_pure _ | exact gives_raise _

theorem tame_dumpEntries {f : Value → Script String} (each : ∀ v, (f v).Tame quiet held)
    (es : List (Key × Ref)) : (dumpEntries f es).Tame quiet held := by
  induction es with
  | nil => exact tame_pure _
  | cons e es ih =>
    refine (tame_force e.2).bind fun v => (each v).bind fun x => ?_
    exact ih.bind fun _ => tame_pure _

theorem tame_text (bound : Nat) (v : Value) : (text bound v).Tame quiet held := by
  induction bound generalizing v with
  | zero => exact gives_stall
  | succ bound ih =>
    cases v with
    | list l =>
      refine (LazyList.tame_walk (fun parts r => ?_) bound l _).bind fun _ => tame_pure _
      exact (tame_force r).bind fun v => (tame_dumpWith (ih v)).bind fun _ => tame_pure _
    | dict d =>
      exact (tame_dumpEntries (fun v => tame_dumpWith (ih v)) d.entries).bind fun _ => tame_pure _
    | _ => first | exact tame_pure _ | exact gives_fail _ | exact gives_raise _

theorem tame_dump (bound : Nat) (v : Value) : (dump bound v).Tame quiet held :=
  tame_dumpWith (tame_text bound v)

end Value

theorem LazyList.tame_includes (bound : Nat) (l : LazyList) (v : Value) :
    (l.includes bound v).Tame quiet held := by
  refine tame_walk (fun _ r => ?_) bound l _
  refine (tame_force r).bind fun u => (Value.tame_equal bound u v).bind fun same => ?_
  cases same <;> exact tame_pure _

end
end CallByNeed
