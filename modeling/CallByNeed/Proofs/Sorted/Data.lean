import CallByNeed.Call
import CallByNeed.Proofs.Keys.Sorted
import CallByNeed.Proofs.Reading.Scripts
import CallByNeed.Proofs.Reading.Values

/- Scripts that are answered sorted dictionaries make no others. A script is followed through all
   answers that it can get; what it puts into new cells and what it ends with is looked at, and what
   it demands, fills or asks for is not. A key made of a sorted value is sorted, and so is the value
   made of a sorted key. -/
namespace CallByNeed
open Script

def Value.Sorted : Value → Prop
  | .dict d => d.Sorted
  | _ => True

/-- The entries that are still to be listed are those of a sorted dictionary. -/
def Suspension.Sorted : Suspension → Prop
  | .entries es => (⟨es⟩ : Dict Ref).Sorted
  | _ => True

def Task.Sorted : Task → Prop
  | .resume s => s.Sorted
  | .call _ _ => True

def CellState.Sorted : CellState → Prop
  | .forced v => v.Sorted
  | .pending w => w.task.Sorted
  | _ => True

def Action.Sorted : Action → Prop
  | .alloc c => c.state.Sorted
  | _ => True

def Outcome.Sorted : Outcome → Prop
  | .value v => v.Sorted
  | .tail _ => True

/-- All dictionaries in the heap are sorted. -/
def Heap.Sorted (h : Heap) : Prop := ∀ r c, h.state? r = some c → c.Sorted

namespace Script
variable {α β : Type}

/-- As long as it is answered sorted values, the script makes sorted ones, and it ends with what
    satisfies `post`. -/
def Sorts (post : α → Prop) : Script α → Prop
  | .done a => post a
  | .raise _ | .panic _ | .stall => True
  | .demand _ _ next => ∀ v, v.Sorted → Sorts post (next v)
  | .act a next => a.Sorted ∧ ∀ x, Sorts post (next x)
  | .ask _ next => ∀ x, Sorts post (next x)

def Neat (s : Script α) : Prop := s.Sorts fun _ => True

end Script

section
variable {α β : Type} {post : α → Prop} {post' : β → Prop} {s : Script α} {f : α → Script β}

theorem Value.sorted_through? {v : Value} (sorted : v.Sorted) (site : Option Location) :
    (v.through? site).Sorted := by
  cases v with
  | dict d => exact sorted
  | _ => trivial

theorem Literal.sorted_value (l : Literal) : l.value.Sorted := by
  cases l <;> trivial

theorem Predefined.sorted_value (p : Predefined) : p.value.Sorted := by
  cases p <;> trivial

namespace Script

theorem Sorts.bind (sorts : s.Sorts post) (rest : ∀ a, post a → (f a).Sorts post') :
    (s >>= f).Sorts post' := by
  change (s.bind f).Sorts post'
  induction s with
  | done a => exact rest a sorts
  | raise | panic | stall => trivial
  | demand how r next ih => exact fun v sorted => ih v (sorts v sorted)
  | act a next ih => exact ⟨sorts.1, fun x => ih x (sorts.2 x)⟩
  | ask q next ih => exact fun x => ih x (sorts x)

theorem Neat.bind (neat : s.Neat) (rest : ∀ a, (f a).Sorts post') : (s >>= f).Sorts post' :=
  Sorts.bind neat fun a _ => rest a

theorem Sorts.imp {weaker : α → Prop} (sorts : s.Sorts post) (imp : ∀ a, post a → weaker a) :
    s.Sorts weaker := by
  induction s with
  | done a => exact imp a sorts
  | raise | panic | stall => trivial
  | demand how r next ih => exact fun v sorted => ih v (sorts v sorted)
  | act a next ih => exact ⟨sorts.1, fun x => ih x (sorts.2 x)⟩
  | ask q next ih => exact fun x => ih x (sorts x)

theorem Sorts.neat (sorts : s.Sorts post) : s.Neat := sorts.imp fun _ _ => trivial

/-- A fault that is answered is no value. -/
theorem Neat.attempt (neat : s.Neat) : s.attempt.Neat := by
  induction s with
  | done | raise | panic | stall => trivial
  | demand how r next ih => exact fun v sorted => ih v (neat v sorted)
  | act a next ih => exact ⟨neat.1, fun x => ih x (neat.2 x)⟩
  | ask q next ih => exact fun x => ih x (neat x)

theorem IsReader.neat (reader : s.IsReader) : s.Neat := by
  induction reader with
  | done | raise | panic | stall => trivial
  | demand how r _ ih => exact fun v _ => ih v

theorem sorts_pure {a : α} (holds : post a) : (pure a : Script α).Sorts post := holds

theorem neat_pure (a : α) : (pure a : Script α).Neat := sorts_pure trivial

theorem sorts_fail (c : Cause) : (fail c : Script α).Sorts post := trivial

theorem sorts_raise (e : Fault) : (raise e : Script α).Sorts post := trivial

theorem neat_alloc {c : Cell} (sorted : c.state.Sorted) : (alloc c : Script Ref).Neat :=
  ⟨sorted, fun _ => trivial⟩

theorem neat_allocValue {v : Value} (sorted : v.Sorted) : (allocValue v : Script Ref).Neat :=
  neat_alloc sorted

theorem neat_allocList (l : LazyList) : (allocValue (.list l) : Script Ref).Neat :=
  neat_allocValue trivial

theorem neat_allocOfCall (function : Ref) (a : Arguments) (site : Option Location) :
    (alloc (.ofCall function a site) : Script Ref).Neat :=
  neat_alloc trivial

theorem neat_allocCall (f : Function) (positionals : List Ref) :
    (allocCall (.function f) positionals : Script Ref).Neat :=
  (neat_allocValue (v := .function f) trivial).bind fun _ => neat_allocOfCall _ _ _

theorem neat_fillHandle (handle target : Ref) : (fillHandle handle target).Neat := by
  refine ⟨trivial, fun filled => ?_⟩
  cases filled <;> trivial

theorem sorts_observe (r : Ref) : (observe r).Sorts Value.Sorted := fun _ sorted => sorted

theorem sorts_perform (r : Ref) : (perform r).Sorts Value.Sorted := fun _ sorted => sorted

theorem sorts_force (r : Ref) : (force r).Sorts Value.Sorted := by
  intro v sorted
  cases v with
  | error e => trivial
  | _ => exact sorted

theorem neat_force (r : Ref) : (force r).Neat := (sorts_force r).neat

theorem sorts_forceDict (r : Ref) : (forceDict r).Sorts Dict.Sorted := by
  refine (sorts_force r).bind fun v sorted => ?_
  cases v with
  | dict d => exact sorts_pure sorted
  | _ => exact sorts_fail _

theorem neat_forceList (r : Ref) : (forceList r).Neat := (isReader_forceList r).neat

theorem neat_forceNumber (r : Ref) : (forceNumber r).Neat := by
  refine (neat_force r).bind fun v => ?_
  cases v <;> first | exact neat_pure _ | exact sorts_fail _

theorem neat_forceString (r : Ref) : (forceString r).Neat := by
  refine (neat_force r).bind fun v => ?_
  cases v <;> first | exact neat_pure _ | exact sorts_fail _

theorem neat_forceBool (r : Ref) : (forceBool r).Neat := by
  refine (neat_force r).bind fun v => ?_
  cases v <;> first | exact neat_pure _ | exact sorts_fail _

theorem neat_foldlM {γ : Type} {f : α → γ → Script α} (each : ∀ a x, (f a x).Neat) (l : List γ)
    (a : α) : (l.foldlM f a).Neat := by
  induction l generalizing a with
  | nil => exact neat_pure a
  | cons x l ih =>
    rw [List.foldlM_cons]
    exact (each a x).bind fun b => ih b

theorem neat_mapM {γ : Type} {f : γ → Script α} (each : ∀ x, (f x).Neat) (l : List γ) :
    (l.mapM f).Neat := by
  induction l with
  | nil =>
    rw [List.mapM_nil]
    exact neat_pure _
  | cons x l ih =>
    rw [List.mapM_cons]
    exact (each x).bind fun _ => ih.bind fun _ => neat_pure _

end Script
end

/-! ### Lists, keys, comparisons and texts -/

section
variable {α β : Type}

namespace LazyList

theorem neat_push (l : LazyList) (head : Ref) : (l.push head : Script LazyList).Neat :=
  (neat_allocList l).bind fun _ => neat_pure _

theorem neat_ofRefs (rs : List Ref) : (ofRefs rs : Script LazyList).Neat :=
  neat_foldlM neat_push _ _

theorem sorts_walk {I : β → Prop} {visit : β → Ref → Script (ForInStep β)}
    (each : ∀ b r, I b → (visit b r).Sorts fun step => I step.value) (bound : Nat) (l : LazyList)
    {b : β} (starts : I b) : (l.walk visit bound b).Sorts I := by
  induction bound generalizing l b with
  | zero => trivial
  | succ bound ih =>
    cases l with
    | nil => exact sorts_pure starts
    | cons head tail =>
      refine (each b head starts).bind fun step next => ?_
      cases step with
      | done b' => exact sorts_pure next
      | yield b' => exact (neat_forceList tail).bind fun l => ih l next

theorem neat_walk {visit : β → Ref → Script (ForInStep β)} (each : ∀ b r, (visit b r).Neat)
    (bound : Nat) (l : LazyList) (b : β) : (l.walk visit bound b).Neat :=
  sorts_walk (I := fun _ => True) (fun b r _ => each b r) bound l trivial

theorem sorts_trail {I : β → Prop} {leave : β → Script Unit} {visit : Ref → Script β}
    (leaves : ∀ b, (leave b).Neat) (visits : ∀ r, (visit r).Sorts I) (bound : Nat) (l : LazyList)
    {b : β} (starts : I b) : (l.trail leave visit bound b).Sorts I := by
  induction bound generalizing l b with
  | zero => trivial
  | succ bound ih =>
    cases l with
    | nil => exact sorts_pure starts
    | cons head tail =>
      refine (leaves b).bind fun _ => (visits head).bind fun c next => ?_
      refine (neat_forceList tail).attempt.bind fun found => ?_
      cases found with
      | ok l => exact ih l next
      | error e => exact (leaves c).bind fun _ => sorts_raise e

theorem neat_elements (bound : Nat) (l : LazyList) : (l.elements bound).Neat :=
  (neat_walk (fun _ _ => neat_pure _) bound l _).bind fun _ => neat_pure _

theorem neat_length (bound : Nat) (l : LazyList) : (l.length bound).Neat :=
  neat_walk (fun _ _ => neat_pure _) bound l _

theorem neat_first (l : LazyList) : l.first.Neat := by
  cases l <;> first | exact neat_pure _ | exact sorts_fail _

theorem neat_rest (l : LazyList) : l.rest.Neat := by
  cases l <;> first | exact neat_pure _ | exact sorts_fail _

theorem neat_position (index : Number) : (position index).Neat := by
  unfold position
  split
  · exact sorts_fail _
  · split
    · exact sorts_fail _
    · exact neat_pure _

theorem neat_skip (n : Nat) (l : LazyList) : (l.skip n).Neat := by
  induction n generalizing l with
  | zero => cases l <;> first | exact neat_pure _ | exact sorts_fail _
  | succ n ih =>
    cases l with
    | nil => exact sorts_fail _
    | cons head tail => exact (neat_forceList tail).bind ih

theorem neat_split (n : Nat) (heads : List Ref) (l : LazyList) : (split n heads l).Neat := by
  induction n generalizing heads l with
  | zero => exact neat_pure _
  | succ n ih =>
    cases l with
    | nil => exact sorts_fail _
    | cons head tail => exact (neat_forceList tail).bind fun l => ih _ l

theorem neat_rejoin (heads : List Ref) (tail : Ref) : (rejoin heads tail).Neat := by
  cases heads with
  | nil => exact neat_forceList tail
  | cons last heads => exact neat_foldlM neat_push _ _

theorem neat_index (l : LazyList) (place : Number) : (l.index place).Neat :=
  (neat_position place).bind fun n => neat_skip n l

theorem neat_delete (l : LazyList) (place : Number) : (l.delete place).Neat := by
  cases l with
  | nil => exact sorts_fail _
  | cons head tail =>
    refine (neat_position place).bind fun n => (neat_split n _ _).bind fun parts => ?_
    obtain ⟨heads, rest⟩ := parts
    cases rest with
    | nil => exact sorts_fail _
    | cons head tail => exact neat_rejoin _ _

theorem neat_insert (l : LazyList) (place : Number) (element : Ref) :
    (l.insert place element).Neat := by
  refine (neat_position place).bind fun n => (neat_split n _ _).bind fun parts => ?_
  refine (neat_allocList _).bind fun tail => ?_
  exact (neat_allocList _).bind fun r => neat_rejoin _ _

theorem neat_concat (bound : Nat) (l : LazyList) (rest : Ref) : (l.concat bound rest).Neat := by
  induction bound generalizing l rest with
  | zero => trivial
  | succ bound ih =>
    cases l with
    | cons head tail =>
      exact (neat_alloc (c := .ofSuspension (.concat tail rest)) trivial).bind fun _ => neat_pure _
    | nil =>
      refine (neat_forceList rest).bind fun l => ?_
      cases l with
      | nil => exact neat_pure _
      | cons next rest => exact (neat_forceList next).bind fun l => ih l rest

end LazyList

/-! ### Keys -/

namespace Key

/-- The entries keep their keys, in their order. -/
theorem sorts_ofEntries {f : Value → Script Key} (each : ∀ v, v.Sorted → (f v).Sorts Sorted)
    (es : List (Key × Ref)) : (ofEntries f es).Sorts fun found =>
      found.map Prod.fst = es.map Prod.fst ∧ ∀ e ∈ found, e.2.Sorted := by
  induction es with
  | nil => exact sorts_pure ⟨rfl, by simp⟩
  | cons e es ih =>
    refine (sorts_force e.2).bind fun v sorted => (each v sorted).bind fun x value => ?_
    refine ih.bind fun found rest => sorts_pure ⟨by simp [rest.1], ?_⟩
    exact List.forall_mem_cons.2 ⟨value, rest.2⟩

theorem sorts_ofValue (bound : Nat) {v : Value} (sorted : v.Sorted) :
    (ofValue bound v).Sorts Sorted := by
  induction bound generalizing v with
  | zero => trivial
  | succ bound ih =>
    cases v with
    | list l =>
      refine (LazyList.sorts_walk (I := fun keys => ∀ k ∈ keys, k.Sorted) (fun keys r all => ?_)
        bound l (by simp)).bind fun keys all => ?_
      · refine (sorts_force r).bind fun v sorted => (ih sorted).bind fun k key => ?_
        exact sorts_pure (List.forall_mem_cons.2 ⟨key, all⟩)
      · exact sorts_pure (sortedAll_iff.2 (by simpa using all))
    | dict d =>
      refine (sorts_ofEntries (fun v => ih) d.entries).bind fun es found => ?_
      exact sorts_pure (sorted_dict_iff.2 ⟨Dict.Sorted.of_keys sorted found.1, found.2⟩)
    | bool | number | string => exact sorts_pure trivial
    | error e => exact sorts_raise e
    | _ => exact sorts_fail _

theorem neat_ofValue (bound : Nat) (v : Value) : (ofValue bound v).Neat :=
  (isReader_ofValue bound v).neat

mutual
theorem sorts_toValue : ∀ {k : Key}, k.Sorted → (k.toValue : Script Value).Sorts Value.Sorted
  | .bool b, _ => sorts_pure trivial
  | .number x, _ => sorts_pure trivial
  | .string s, _ => sorts_pure trivial
  | .list keys, sorted => by
    simp only [toValue]
    exact (neat_toElements sorted).bind fun _ => (LazyList.neat_ofRefs _).bind fun _ =>
      sorts_pure trivial
  | .dict entries, sorted => by
    simp only [toValue]
    refine (sorts_toEntries sorted.1).bind fun es keys => sorts_pure ?_
    exact Dict.sorted_ofList keys

theorem neat_toElements : ∀ {keys : List Key}, sortedAll keys →
    (toElements keys : Script (List Ref)).Neat
  | [], _ => by
    simp only [toElements]
    exact neat_pure _
  | k :: ks, sorted => by
    simp only [toElements]
    refine (sorts_toValue sorted.1).bind fun v value => (neat_allocValue value).bind fun r => ?_
    exact (neat_toElements sorted.2).bind fun _ => neat_pure _

theorem sorts_toEntries : ∀ {es : List (Key × Key)}, sortedEntries es →
    (toEntries es : Script (List (Key × Ref))).Sorts fun made => ∀ e ∈ made, e.1.Sorted
  | [], _ => by
    simp only [toEntries]
    exact sorts_pure (by simp)
  | (k, x) :: es, sorted => by
    simp only [toEntries]
    refine (sorts_toValue sorted.2.1).bind fun v value => (neat_allocValue value).bind fun r => ?_
    refine (sorts_toEntries sorted.2.2).bind fun made keys => sorts_pure ?_
    exact List.forall_mem_cons.2 ⟨sorted.1, keys⟩
end

end Key

namespace Dict

theorem neat_listEntries {es : List (Key × Ref)} (sorted : (⟨es⟩ : Dict Ref).Sorted) :
    (listEntries es).Neat := by
  cases es with
  | nil => exact neat_pure _
  | cons e es =>
    have first := sorted.keys e (List.mem_cons_self ..)
    rw [listEntries_cons]
    refine (Key.sorts_toValue first).bind fun v value => (neat_allocValue value).bind fun key => ?_
    refine (LazyList.neat_ofRefs _).bind fun l => (neat_allocList l).bind fun pair => ?_
    exact (neat_alloc (c := .ofSuspension (.entries es)) sorted.tail).bind fun _ => neat_pure _

end Dict

/-! ### Comparisons and texts -/

namespace Value

theorem neat_compare (bound : Nat) (v u : Value) : (compare bound v u).Neat :=
  (isReader_compare bound v u).neat

theorem neat_equal (bound : Nat) (v u : Value) : (equal bound v u).Neat :=
  (isReader_equal bound v u).neat

theorem neat_dumpWith {f : Value → Script String} {v : Value} (texts : (f v).Neat) :
    (dumpWith f v).Neat := by
  cases v <;> first | exact texts | exact neat_pure _ | exact sorts_raise _

theorem neat_dumpEntries {f : Value → Script String} (each : ∀ v, (f v).Neat)
    (es : List (Key × Ref)) : (dumpEntries f es).Neat := by
  induction es with
  | nil => exact neat_pure _
  | cons e es ih =>
    exact (neat_force e.2).bind fun v => (each v).bind fun x => ih.bind fun _ => neat_pure _

theorem neat_text (bound : Nat) (v : Value) : (text bound v).Neat := by
  induction bound generalizing v with
  | zero => trivial
  | succ bound ih =>
    cases v with
    | list l =>
      refine (LazyList.neat_walk (fun parts r => ?_) bound l _).bind fun _ => neat_pure _
      exact (neat_force r).bind fun v => (neat_dumpWith (ih v)).bind fun _ => neat_pure _
    | dict d =>
      exact (neat_dumpEntries (fun v => neat_dumpWith (ih v)) d.entries).bind fun _ => neat_pure _
    | _ => first | exact neat_pure _ | exact sorts_fail _ | exact sorts_raise _

theorem neat_dump (bound : Nat) (v : Value) : (dump bound v).Neat := neat_dumpWith (neat_text bound v)

end Value

theorem LazyList.neat_includes (bound : Nat) (l : LazyList) (v : Value) :
    (l.includes bound v).Neat := by
  refine neat_walk (fun _ r => ?_) bound l _
  refine (neat_force r).bind fun u => (Value.neat_equal bound u v).bind fun same => ?_
  cases same <;> exact neat_pure _

theorem Dict.neat_lookUp (bound : Nat) (d : Dict Ref) (key : Value) : (d.lookUp bound key).Neat := by
  refine (Key.neat_ofValue bound key).bind fun k => ?_
  split
  · exact neat_pure _
  · exact (Value.neat_dump bound key).bind fun _ => sorts_fail _

end
end CallByNeed
