import CallByNeed.Proofs.Rallies.Aloof

/- Scripts that do not look into functions. What a function is called, what it takes and whether it
   makes effects is all that a script can learn of one; only a call runs its body. So answers that
   differ in bodies alone are told apart by no script but a call. -/
namespace CallByNeed

namespace Value

/-- The value without the body, if it is a function. -/
def bare : Value → Value
  | .function f => .function { f with body := .parameters }
  | v => v

@[simp, grind =]
theorem bare_bare (v : Value) : v.bare.bare = v.bare := by cases v <;> rfl

@[simp, grind =]
theorem type_bare (v : Value) : v.bare.type = v.type := by cases v <;> rfl

@[simp, grind =]
theorem isOrdered_bare (v : Value) : v.bare.isOrdered = v.isOrdered := by cases v <;> rfl

end Value

namespace Script
variable {α β γ : Type}

/-- No demand of the script looks into a function, whatever it is answered. -/
def Blind : Script α → Prop
  | .done _ | .raise _ | .panic _ | .stall => True
  | .demand _ _ next => ∀ v, next v.bare = next v ∧ Blind (next v)
  | .act _ next => ∀ x, Blind (next x)
  | .ask _ next => ∀ x, Blind (next x)

@[grind ←]
theorem Blind.bind {m : Script α} {f : α → Script β} (blind : m.Blind)
    (rest : ∀ a, (f a).Blind) : (m >>= f).Blind := by
  change (m.bind f).Blind
  induction m with
  | done a => exact rest a
  | raise | panic | stall => trivial
  | demand how r next ih =>
    intro v
    exact ⟨congrArg (Script.bind · f) (blind v).1, ih v (blind v).2⟩
  | act a next ih => exact fun x => ih x (blind x)
  | ask q next ih => exact fun x => ih x (blind x)

@[grind ←]
theorem Blind.attempt {m : Script α} (blind : m.Blind) : m.attempt.Blind := by
  induction m with
  | done | raise | panic | stall => trivial
  | demand how r next ih => exact fun v => ⟨congrArg Script.attempt (blind v).1, ih v (blind v).2⟩
  | act a next ih => exact fun x => ih x (blind x)
  | ask q next ih => exact fun x => ih x (blind x)

@[grind .]
theorem blind_pure (a : α) : (pure a : Script α).Blind := trivial

@[grind .]
theorem blind_raise (e : Fault) : (raise e : Script α).Blind := trivial

@[grind .]
theorem blind_fail (c : Cause) : (fail c : Script α).Blind := trivial

@[grind .]
theorem blind_panic (p : Panic) : (panic p : Script α).Blind := trivial

@[grind .]
theorem blind_stall : (stall : Script α).Blind := trivial

@[grind ←]
theorem blind_act {a : Action} {next : a.Answer → Script α} (rest : ∀ x, (next x).Blind) :
    (act a next).Blind :=
  rest

/-- To force a cell and go on with its value is blind if what follows is. -/
@[grind ←]
theorem blind_force {f : Value → Script β} (r : Ref) (same : ∀ v, f v.bare = f v)
    (rest : ∀ v, (f v).Blind) : (force r >>= f).Blind := by
  intro v
  cases v with
  | error e => exact ⟨rfl, trivial⟩
  | function g => exact ⟨same _, rest _⟩
  | _ => exact ⟨rfl, rest _⟩

@[grind ←]
theorem blind_observe {f : Value → Script β} (r : Ref) (same : ∀ v, f v.bare = f v)
    (rest : ∀ v, (f v).Blind) : (observe r >>= f).Blind :=
  fun v => ⟨same v, rest v⟩

@[grind .]
theorem blind_forceNumber (r : Ref) : (forceNumber r).Blind := by
  refine blind_force r (fun v => ?_) fun v => ?_ <;> cases v <;> first | rfl | trivial

@[grind .]
theorem blind_forceString (r : Ref) : (forceString r).Blind := by
  refine blind_force r (fun v => ?_) fun v => ?_ <;> cases v <;> first | rfl | trivial

@[grind .]
theorem blind_forceBool (r : Ref) : (forceBool r).Blind := by
  refine blind_force r (fun v => ?_) fun v => ?_ <;> cases v <;> first | rfl | trivial

@[grind .]
theorem blind_forceList (r : Ref) : (forceList r).Blind := by
  refine blind_force r (fun v => ?_) fun v => ?_ <;> cases v <;> first | rfl | trivial

@[grind .]
theorem blind_forceDict (r : Ref) : (forceDict r).Blind := by
  refine blind_force r (fun v => ?_) fun v => ?_ <;> cases v <;> first | rfl | trivial

@[grind .]
theorem blind_alloc (c : Cell) : (alloc c : Script Ref).Blind := fun _ => trivial

@[grind .]
theorem blind_allocValue (v : Value) : (allocValue v : Script Ref).Blind := blind_alloc _

@[grind .]
theorem blind_allocCall (function : Value) (positionals : List Ref) :
    (allocCall function positionals : Script Ref).Blind :=
  (blind_allocValue _).bind fun _ => blind_alloc _

@[grind .]
theorem blind_fillHandle (handle target : Ref) : (fillHandle handle target).Blind := by
  intro filled
  cases filled <;> trivial

@[grind ←]
theorem blind_foldlM {f : α → γ → Script α} (each : ∀ a x, (f a x).Blind) (l : List γ) (a : α) :
    (l.foldlM f a).Blind := by
  induction l generalizing a with
  | nil => exact blind_pure a
  | cons x l ih =>
    rw [List.foldlM_cons]
    exact (each a x).bind ih

@[grind ←]
theorem blind_mapM {f : γ → Script α} (each : ∀ x, (f x).Blind) (l : List γ) :
    (l.mapM f).Blind := by
  induction l with
  | nil => exact blind_pure _
  | cons x l ih =>
    rw [List.mapM_cons]
    exact (each x).bind fun _ => ih.bind fun _ => blind_pure _

end Script

/-! ### Lists -/

namespace LazyList
variable {β γ : Type}

@[grind .]
theorem blind_push (l : LazyList) (head : Ref) : (l.push head : Script LazyList).Blind := by
  grind [LazyList.push]

@[grind .]
theorem blind_ofRefs (elements : List Ref) : (ofRefs elements : Script LazyList).Blind := by
  grind [ofRefs]

@[grind ←]
theorem blind_walk {visit : β → Ref → Script (ForInStep β)} (each : ∀ b r, (visit b r).Blind)
    (bound : Nat) (l : LazyList) (b : β) : (l.walk visit bound b).Blind := by
  fun_induction walk visit bound l b <;> grind

@[grind ←]
theorem blind_trail {leave : β → Script Unit} {visit : Ref → Script β}
    (leaves : ∀ b, (leave b).Blind) (visits : ∀ r, (visit r).Blind) (bound : Nat) (l : LazyList)
    (b : β) : (l.trail leave visit bound b).Blind := by
  fun_induction trail leave visit bound l b <;> grind

@[grind ←]
theorem blind_walkPairs {visit : Ref → Ref → Script (Option β)} (each : ∀ x y, (visit x y).Blind)
    (ended : Ordering → β) (bound : Nat) (xs ys : LazyList) :
    (walkPairs visit ended bound xs ys).Blind := by
  fun_induction walkPairs visit ended bound xs ys <;> grind

theorem walk_congr {Alike : β → β → Prop} {visit : β → Ref → Script (ForInStep β)}
    {f : β → Script γ} (visits : ∀ b b', Alike b b' → ∀ r, visit b r = visit b' r)
    (ends : ∀ b b', Alike b b' → f b = f b') {b b' : β} (alike : Alike b b') (bound : Nat)
    (l : LazyList) : (l.walk visit bound b >>= f) = (l.walk visit bound b' >>= f) := by
  cases bound with
  | zero => rfl
  | succ bound =>
    cases l with
    | nil => exact ends b b' alike
    | cons head tail => simp only [walk, visits b b' alike head]

/-- What a visit leaves behind may hold what no later one looks into. -/
theorem blind_walk_bind (Alike : β → β → Prop) {visit : β → Ref → Script (ForInStep β)}
    {f : β → Script γ} (visits : ∀ b b', Alike b b' → ∀ r, visit b r = visit b' r)
    (ends : ∀ b b', Alike b b' → f b = f b') (rest : ∀ b, (f b).Blind)
    (each : ∀ b r (next : β → Script γ), (∀ b b', Alike b b' → next b = next b') →
      (∀ b, (next b).Blind) →
      (visit b r >>= fun | .done b => f b | .yield b => next b).Blind)
    (bound : Nat) (l : LazyList) (b : β) : (l.walk visit bound b >>= f).Blind := by
  induction bound generalizing l b with
  | zero => trivial
  | succ bound ih =>
    cases l with
    | nil => exact rest b
    | cons head tail =>
      let next (b : β) : Script γ := forceList tail >>= fun l => l.walk visit bound b >>= f
      have again : ∀ b b', Alike b b' → next b = next b' := fun b b' alike =>
        congrArg (forceList tail >>= ·) (funext fun l => walk_congr visits ends alike bound l)
      have blind := each b head next again fun b =>
        (Script.blind_forceList tail).bind fun l => ih l b
      convert blind using 1
      simp only [walk, bind_assoc]
      refine congrArg (visit b head >>= ·) (funext fun step => ?_)
      cases step with
      | done b => rfl
      | yield b => exact bind_assoc _ _ _

@[grind .]
theorem blind_elements (bound : Nat) (l : LazyList) : (l.elements bound).Blind := by
  grind [elements]

@[grind .]
theorem blind_length (bound : Nat) (l : LazyList) : (l.length bound).Blind := by grind [length]

@[grind .]
theorem blind_first (l : LazyList) : l.first.Blind := by cases l <;> grind [first]

@[grind .]
theorem blind_rest (l : LazyList) : l.rest.Blind := by cases l <;> grind [rest]

@[grind .]
theorem blind_skip (n : Nat) (l : LazyList) : (l.skip n).Blind := by
  fun_induction LazyList.skip n l <;> grind

@[grind .]
theorem blind_position (index : Number) : (position index).Blind := by grind [position]

@[grind .]
theorem blind_split (n : Nat) (heads : List Ref) (l : LazyList) : (split n heads l).Blind := by
  fun_induction split n heads l <;> grind

@[grind .]
theorem blind_rejoin (heads : List Ref) (tail : Ref) : (rejoin heads tail).Blind := by
  cases heads <;> grind [rejoin]

@[grind .]
theorem blind_index (l : LazyList) (place : Number) : (l.index place).Blind := by grind [index]

@[grind .]
theorem blind_delete (l : LazyList) (place : Number) : (l.delete place).Blind := by
  cases l <;> grind [delete]

@[grind .]
theorem blind_insert (l : LazyList) (place : Number) (element : Ref) :
    (l.insert place element).Blind := by
  grind [insert]

@[grind .]
theorem blind_concat (bound : Nat) (l : LazyList) (rest : Ref) :
    (l.concat bound rest).Blind := by
  fun_induction concat bound l rest <;> grind

end LazyList

/-! ### Keys, texts and comparisons -/

namespace Key

@[grind ←]
theorem blind_ofEntries {ofValue : Value → Script Key} (same : ∀ v, ofValue v.bare = ofValue v)
    (each : ∀ v, (ofValue v).Blind) (es : List (Key × Ref)) : (ofEntries ofValue es).Blind := by
  fun_induction ofEntries ofValue es <;> grind

@[simp, grind =]
theorem ofValue_bare (bound : Nat) (v : Value) : ofValue bound v.bare = ofValue bound v := by
  cases bound <;> cases v <;> rfl

@[grind .]
theorem blind_ofValue (bound : Nat) (v : Value) : (ofValue bound v).Blind := by
  induction bound generalizing v with
  | zero => trivial
  | succ bound ih => cases v <;> grind [ofValue]

mutual
@[grind .]
theorem blind_toValue : ∀ k : Key, (k.toValue : Script Value).Blind
  | .bool b => by grind [toValue]
  | .number x => by grind [toValue]
  | .string s => by grind [toValue]
  | .list keys => by
    have elements := blind_toElements keys
    grind [toValue]
  | .dict entries => by
    have pairs := blind_toEntries entries
    grind [toValue]

theorem blind_toElements : ∀ keys : List Key, (toElements keys : Script (List Ref)).Blind
  | [] => by grind [toElements]
  | k :: ks => by
    have first := blind_toValue k
    have rest := blind_toElements ks
    grind [toElements]

theorem blind_toEntries :
    ∀ es : List (Key × Key), (toEntries es : Script (List (Key × Ref))).Blind
  | [] => by grind [toEntries]
  | (k, x) :: es => by
    have first := blind_toValue x
    have rest := blind_toEntries es
    grind [toEntries]
end

end Key

namespace Value

@[simp, grind =]
theorem compare_bare_left (bound : Nat) (v u : Value) :
    compare bound v.bare u = compare bound v u := by
  cases bound <;> cases v <;> first | rfl | (cases u <;> rfl)

@[simp, grind =]
theorem compare_bare_right (bound : Nat) (v u : Value) :
    compare bound v u.bare = compare bound v u := by
  cases bound <;> cases u <;> first | rfl | (cases v <;> rfl)

@[grind ←]
theorem blind_compareEntries {compare : Value → Value → Script Ordering}
    (left : ∀ v u, compare v.bare u = compare v u) (right : ∀ v u, compare v u.bare = compare v u)
    (each : ∀ v u, (compare v u).Blind) (xs ys : List (Key × Ref)) :
    (compareEntries compare xs ys).Blind := by
  fun_induction compareEntries compare xs ys <;> grind

@[grind .]
theorem blind_compare (bound : Nat) (v u : Value) : (compare bound v u).Blind := by
  induction bound generalizing v u with
  | zero => trivial
  | succ bound ih => cases v <;> cases u <;> grind [compare]

@[simp, grind =]
theorem equal_bare_left (bound : Nat) (v u : Value) :
    equal bound v.bare u = equal bound v u := by
  cases bound <;> cases v <;> first | rfl | (cases u <;> rfl)

@[simp, grind =]
theorem equal_bare_right (bound : Nat) (v u : Value) :
    equal bound v u.bare = equal bound v u := by
  cases bound <;> cases u <;> first | rfl | (cases v <;> rfl)

@[grind ←]
theorem blind_equalEntries {equal : Value → Value → Script Bool}
    (left : ∀ v u, equal v.bare u = equal v u) (right : ∀ v u, equal v u.bare = equal v u)
    (each : ∀ v u, (equal v u).Blind) (xs ys : List (Key × Ref)) :
    (equalEntries equal xs ys).Blind := by
  fun_induction equalEntries equal xs ys <;> grind

@[grind .]
theorem blind_equal (bound : Nat) (v u : Value) : (equal bound v u).Blind := by
  induction bound generalizing v u with
  | zero => trivial
  | succ bound ih => cases v <;> cases u <;> grind [equal]

@[simp, grind =]
theorem dumpWith_bare (text : Value → Script String) (v : Value) :
    dumpWith text v.bare = dumpWith text v := by
  cases v <;> rfl

theorem blind_dumpWith {text : Value → Script String} (texts : ∀ v, (text v).Blind) (v : Value) :
    (dumpWith text v).Blind := by
  cases v <;> grind [dumpWith]

@[grind ←]
theorem blind_dumpEntries {dump : Value → Script String} (same : ∀ v, dump v.bare = dump v)
    (each : ∀ v, (dump v).Blind) (es : List (Key × Ref)) : (dumpEntries dump es).Blind := by
  fun_induction dumpEntries dump es <;> grind

@[simp, grind =]
theorem text_bare (bound : Nat) (v : Value) : text bound v.bare = text bound v := by
  cases bound <;> cases v <;> rfl

@[grind .]
theorem blind_text (bound : Nat) (v : Value) : (text bound v).Blind := by
  induction bound generalizing v with
  | zero => trivial
  | succ bound ih =>
    have each := blind_dumpWith ih
    cases v <;> grind [text]

@[simp, grind =]
theorem dump_bare (bound : Nat) (v : Value) : dump bound v.bare = dump bound v := by
  cases v <;> rfl

@[grind .]
theorem blind_dump (bound : Nat) (v : Value) : (dump bound v).Blind :=
  blind_dumpWith (blind_text bound) v

end Value

@[grind .]
theorem Dict.blind_listEntries (es : List (Key × Ref)) : (listEntries es).Blind := by
  cases es <;> grind [listEntries]

@[simp, grind =]
theorem Dict.lookUp_bare (bound : Nat) (d : Dict Ref) (key : Value) :
    d.lookUp bound key.bare = d.lookUp bound key := by
  simp [Dict.lookUp]

@[grind .]
theorem Dict.blind_lookUp (bound : Nat) (d : Dict Ref) (key : Value) :
    (d.lookUp bound key).Blind := by
  grind [Dict.lookUp]

@[simp, grind =]
theorem LazyList.includes_bare (bound : Nat) (l : LazyList) (v : Value) :
    l.includes bound v.bare = l.includes bound v := by
  simp [LazyList.includes]

@[grind .]
theorem LazyList.blind_includes (bound : Nat) (l : LazyList) (v : Value) :
    (l.includes bound v).Blind := by
  grind [LazyList.includes]

/-! ### Arguments and signatures -/

namespace Arguments

@[grind .]
theorem blind_merge (a b : Arguments) : (a.merge b : Script Arguments).Blind := by
  grind [merge, allocMerge, allocAppend]

@[grind .]
theorem blind_nextPositional (a : Arguments) : a.nextPositional.Blind := by
  grind [nextPositional]

@[grind .]
theorem blind_restPositionals (a : Arguments) : a.restPositionals.Blind := by
  grind [restPositionals, allocMerge]

@[grind .]
theorem blind_takeEntry (key : Key) (ds : List Ref) : (takeEntry key ds).Blind := by
  fun_induction takeEntry key ds <;> grind

@[grind .]
theorem blind_takeKeyword (a : Arguments) (name : String) : (a.takeKeyword name).Blind := by
  grind [takeKeyword]

@[grind .]
theorem blind_restKeywords (a : Arguments) : a.restKeywords.Blind := by
  grind [restKeywords, allocMerge]

@[grind .]
theorem blind_countEntries (ds : List Ref) : (countEntries ds).Blind := by
  fun_induction countEntries ds <;> grind

@[grind .]
theorem blind_checkTaken (a : Arguments) : a.checkTaken.Blind := by grind [checkTaken]

end Arguments

@[grind .]
theorem Default.blind_ref (d : Default) : d.ref.Blind := by cases d <;> grind [Default.ref]

namespace Binding

@[grind .]
theorem blind_findKeyword (b : Binding) (name : String) : (b.findKeyword name).Blind := by
  grind [findKeyword]

@[grind .]
theorem blind_findPositional (b : Binding) (name : String) : (b.findPositional name).Blind := by
  grind [findPositional]

@[grind ←]
theorem blind_bindNamed {find : Binding → String → Script (Option Ref × Binding)}
    (finds : ∀ b name, (find b name).Blind) (missing : Cause) (half : Half Default) (b : Binding) :
    (b.bindNamed find missing half).Blind := by
  grind [bindNamed]

@[grind ←]
theorem blind_bindRest {rest : Arguments → Script (Ref × Arguments)}
    (rests : ∀ a, (rest a).Blind) (half : Half Default) (b : Binding) :
    (b.bindRest rest half).Blind := by
  grind [bindRest]

end Binding

@[grind .]
theorem Signature.blind_bind (sig : Signature Default) (a : Arguments) : (sig.bind a).Blind := by
  grind [Signature.bind]

/-! ### Builtins -/

namespace Builtin

@[grind .]
theorem blind_answer (v : Value) : (answer v).Blind := trivial

@[grind .]
theorem blind_foldNumbers (bound : Nat) (op : Number → Number → Number) (start : Number)
    (numbers : Ref) : (foldNumbers bound op start numbers).Blind := by
  grind [foldNumbers]

@[grind .]
theorem blind_foldFrom (bound : Nat) (b : Builtin) (op : Number → Number → Number)
    (first rest : Ref) : (foldFrom bound b op first rest).Blind := by
  grind [foldFrom]

@[grind .]
theorem blind_binary (op : Number → Number → Number) (left right : Ref) :
    (binary op left right).Blind := by
  grind [binary]

@[grind .]
theorem blind_insertPairs (bound : Nat) (d : Dict Ref) (rs : List Ref) :
    (insertPairs bound d rs).Blind := by
  fun_induction insertPairs bound d rs <;> grind

/-- The only loop that keeps a value keeps it to compare the next one with. -/
@[grind .]
theorem blind_chained (bound : Nat) (b : Builtin) (holds : Ordering → Bool) (arguments : Ref) :
    (chained bound b holds arguments).Blind := by
  refine (Script.blind_forceList arguments).bind fun l => ?_
  refine LazyList.blind_walk_bind
    (fun x y => x.1.map Value.bare = y.1.map Value.bare ∧ x.2 = y.2) ?_ ?_ ?_ ?_ bound l _
  · rintro ⟨_ | v, x⟩ ⟨_ | u, y⟩ ⟨same, rfl⟩ r
    · rfl
    · cases same
    · cases same
    · have same : v.bare = u.bare := Option.some.inj same
      refine congrArg (force r >>= ·) (funext fun w => ?_)
      simp only [← Value.compare_bare_left bound v, ← Value.compare_bare_left bound u, same]
  · rintro ⟨_ | v, x⟩ ⟨_ | u, y⟩ ⟨same, rfl⟩ <;> first | rfl | cases same
  · rintro ⟨_ | v, x⟩ <;> trivial
  · rintro ⟨_ | last, x⟩ r next same each
    · simp only [bind_assoc, pure_bind]
      exact Script.blind_force r (fun v => same _ _ ⟨by simp, rfl⟩) fun v => each _
    · simp only [bind_assoc]
      refine Script.blind_force r (fun v => ?_) fun v => ?_
      · rw [Value.compare_bare_right]
        refine congrArg (Value.compare bound last v >>= ·) (funext fun o => ?_)
        split
        · exact same _ _ ⟨by simp, rfl⟩
        · rfl
      · refine (Value.blind_compare bound last v).bind fun o => ?_
        split
        · exact each _
        · trivial

@[grind .]
theorem blind_allEqual (bound : Nat) (arguments : Ref) : (allEqual bound arguments).Blind := by
  refine (Script.blind_forceList arguments).bind fun l => ?_
  cases l with
  | nil => trivial
  | cons head tail =>
    refine Script.blind_force head (fun v => by simp) fun v => ?_
    refine (Script.blind_forceList tail).bind fun others => ?_
    exact (LazyList.blind_walk (fun _ r => by grind) bound others true).bind fun _ => trivial

@[grind .]
theorem blind_mergeAll (bound : Nat) (first rest : Ref) : (mergeAll bound first rest).Blind := by
  refine Script.blind_force first (fun v => by cases v <;> rfl) fun v => ?_
  cases v <;> grind

@[grind .]
theorem blind_prependAll (bound : Nat) (arguments : Ref) : (prependAll bound arguments).Blind := by
  refine (Script.blind_forceList arguments).bind fun l => ?_
  refine (LazyList.blind_elements bound l).bind fun rs => ?_
  cases rs.reverse <;> grind

@[grind .]
theorem blind_insertInto (bound : Nat) (collection key value : Ref) :
    (insertInto bound collection key value).Blind := by
  refine Script.blind_force collection (fun v => by cases v <;> rfl) fun v => ?_
  cases v <;> grind [notCollection]

@[grind .]
theorem blind_deleteFrom (bound : Nat) (collection key : Ref) :
    (deleteFrom bound collection key).Blind := by
  refine Script.blind_force collection (fun v => by cases v <;> rfl) fun v => ?_
  cases v with
  | dict d => exact Script.blind_force key (fun v => by simp) fun v => by grind
  | _ => grind [notCollection]

@[grind .]
theorem blind_includes (bound : Nat) (collection element : Ref) :
    (includes bound collection element).Blind := by
  refine Script.blind_force element (fun v => ?_) fun v => ?_
  · simp only [LazyList.includes_bare, Key.ofValue_bare]
    cases v <;> rfl
  · refine Script.blind_force collection (fun u => by cases u <;> rfl) fun u => ?_
    cases u <;> grind [notCollection]

@[grind .]
theorem blind_indexOf (bound : Nat) (collection key : Ref) :
    (indexOf bound collection key).Blind := by
  refine Script.blind_force collection (fun v => by cases v <;> rfl) fun v => ?_
  cases v with
  | dict d => exact Script.blind_force key (fun v => by simp) fun v => by grind
  | _ => grind [notCollection]

@[grind .]
theorem blind_sizeOf (bound : Nat) (collection : Ref) : (sizeOf bound collection).Blind := by
  refine Script.blind_force collection (fun v => by cases v <;> rfl) fun v => ?_
  cases v <;> grind [notCollection]

@[grind .]
theorem blind_toLazyList (collection : Ref) : (toLazyList collection).Blind := by
  refine Script.blind_force collection (fun v => by cases v <;> rfl) fun v => ?_
  cases v <;> grind [notCollection, Dict.toLazyList]

@[grind .]
theorem blind_catchFault (r : Ref) : (catchFault r).Blind := by
  refine Script.blind_observe r (fun v => by cases v <;> rfl) fun v => ?_
  cases v <;> grind

@[grind .]
theorem blind_fixedPoints (bound : Nat) (functions : Ref) :
    (fixedPoints bound functions).Blind := by
  refine (Script.blind_alloc .vacant).bind fun handle => ?_
  refine (Script.blind_forceList functions).bind fun l => ?_
  refine (LazyList.blind_elements bound l).bind fun fs => ?_
  exact (Script.blind_mapM (fun f => by grind) fs).bind fun results => by grind

@[grind .]
theorem blind_inSequence (bound : Nat) (first rest : Ref) :
    (inSequence bound first rest).Blind := by
  refine (Script.blind_forceList rest).bind fun l => ?_
  refine (LazyList.blind_trail (fun last => ?_) Script.blind_pure bound l first).bind ?_
  · exact Script.blind_force last (fun _ => rfl) fun _ => trivial
  · exact fun last => trivial

@[grind .]
theorem blind_inParallel (bound : Nat) (first rest : Ref) :
    (inParallel bound first rest).Blind := by
  refine (Script.blind_forceList rest).bind fun l => ?_
  refine (LazyList.blind_trail (fun last => ?_) Script.blind_pure bound l first).bind ?_
  · exact fun _ => trivial
  · exact fun last => trivial

/-- Scripts that have to do with the host aside, only a call looks into a function. -/
theorem blind_run {b : Builtin} (quiet : b.needsHost = false) (bound : Nat) (cells : List Ref) :
    (b.run bound cells).Blind := by
  fun_cases Builtin.run bound b cells
  all_goals grind [needsHost, sumOf, productOf, isIntegral, compareTwo, hasOrder, appendAll,
    dictOf, chooseBranch, typeName, textOf, dumpOf, raiseCustom, fixedPoint]

end Builtin
end CallByNeed
