import CallByNeed.Proofs.Safety.Data

/- Binding and interpreting are tame. A binding gives one cell for each parameter, and code is
   interpreted among as many locals as it is in scope for. -/
namespace CallByNeed
open Script

section
variable {quiet : Prop} {held : Option Ref}

namespace Arguments

theorem tame_allocMerge (collections : List Ref) :
    (allocMerge collections : Script Ref).Tame quiet held :=
  tame_allocCall (Builtin.fits_value .merge) collections

theorem tame_allocAppend (list : Ref) (elements : List Ref) :
    (allocAppend list elements : Script Ref).Tame quiet held :=
  tame_allocCall (Builtin.fits_value .append) (list :: elements)

theorem tame_ofCall (ps : List (Ref × Bool)) (ks : List (String × Ref)) (ds : List Ref) :
    (ofCall ps ks ds : Script Arguments).Tame quiet held := by
  unfold ofCall
  split
  · exact tame_pure _
  · refine (tame_foldlM (fun list p => ?_) _ _).bind fun _ => tame_pure _
    split
    · exact tame_allocMerge _
    · exact tame_allocAppend _ _

theorem tame_merge (a b : Arguments) : (a.merge b : Script Arguments).Tame quiet held := by
  unfold merge
  cases a.spread with
  | none => exact tame_pure _
  | some list =>
    cases b.spread with
    | none =>
      dsimp only
      split
      · exact tame_pure _
      · exact (tame_allocAppend _ _).bind fun _ => tame_pure _
    | some more =>
      dsimp only
      split
      · exact (tame_allocMerge _).bind fun _ => tame_pure _
      · exact (tame_allocAppend _ _).bind fun _ => (tame_allocMerge _).bind fun _ => tame_pure _

theorem tame_nextPositional (a : Arguments) : a.nextPositional.Tame quiet held := by
  unfold nextPositional
  split
  · exact tame_pure _
  · exact tame_pure _
  · refine (tame_forceList _).bind fun l => ?_
    cases l <;> exact tame_pure _

theorem tame_restPositionals (a : Arguments) : a.restPositionals.Tame quiet held := by
  refine (LazyList.tame_ofRefs _).bind fun l => (tame_allocList l).bind fun explicit => ?_
  cases a.spread with
  | none => exact tame_pure _
  | some list => exact (tame_allocMerge _).bind fun _ => tame_pure _

theorem tame_takeEntry (key : Key) (ds : List Ref) : (takeEntry key ds).Tame quiet held := by
  induction ds with
  | nil => exact tame_pure _
  | cons d ds ih =>
    refine (tame_forceDict d).bind fun dict => ?_
    split
    · exact (tame_allocDict _).bind fun _ => tame_pure _
    · refine ih.bind fun taken => ?_
      cases taken <;> exact tame_pure _

theorem tame_takeKeyword (a : Arguments) (name : String) : (a.takeKeyword name).Tame quiet held := by
  unfold takeKeyword
  split
  · exact tame_pure _
  · refine (tame_takeEntry _ _).bind fun taken => ?_
    cases taken <;> exact tame_pure _

theorem tame_restKeywords (a : Arguments) : a.restKeywords.Tame quiet held := by
  refine (tame_allocDict _).bind fun d => ?_
  split
  · exact tame_pure _
  · exact (tame_allocMerge _).bind fun _ => tame_pure _

theorem tame_countEntries (ds : List Ref) : (countEntries ds).Tame quiet held := by
  induction ds with
  | nil => exact tame_pure _
  | cons d ds ih => exact (tame_forceDict d).bind fun dict => ih.bind fun _ => tame_pure _

theorem tame_checkTaken (a : Arguments) : a.checkTaken.Tame quiet held := by
  have counted (left : Nat) :
      (if 0 < left then fail (.extraPositionals left)
      else do
        let left := a.keywords.length + (← countEntries a.dicts)
        if 0 < left then fail (.extraKeywords left) else pure () : Script Unit).Tame quiet held := by
    split
    · exact gives_fail _
    · refine (tame_countEntries _).bind fun n => ?_
      dsimp only
      split
      · exact gives_fail _
      · exact tame_pure _
  unfold checkTaken
  split
  · refine (tame_nextPositional a).bind fun x => ?_
    obtain ⟨found, left⟩ := x
    cases found with
    | some r => exact counted 1
    | none => exact counted 0
  · exact counted _

end Arguments

theorem Default.tame_ref (d : Default) : d.ref.Tame quiet held := by
  cases d with
  | literal l => exact tame_allocValue l.fits_value
  | cell r => exact tame_pure _

namespace Binding

/-- How many parameters are bound. -/
def Has (n : Nat) (b : Binding) : Prop := b.bound.length = n

/-- Looking for an argument binds nothing. -/
def FindsFor (find : Binding → String → Script (Option Ref × Binding)) (quiet : Prop)
    (held : Option Ref) : Prop :=
  ∀ b name, (find b name).Gives quiet held fun x => x.2.bound = b.bound

theorem findsFor_keyword : FindsFor findKeyword quiet held := fun b name =>
  (Arguments.tame_takeKeyword b.left name).bind fun _ => gives_pure rfl

theorem findsFor_positional : FindsFor findPositional quiet held := by
  intro b name
  unfold findPositional
  have by_name (left : Arguments) :
      (do
        let taken ← left.takeKeyword name
        pure (taken.1, { b with left := taken.2, named := true }) :
          Script (Option Ref × Binding)).Gives quiet held fun x => x.2.bound = b.bound :=
    (Arguments.tame_takeKeyword left name).bind fun _ => gives_pure rfl
  dsimp only
  split
  · exact by_name b.left
  · refine (Arguments.tame_nextPositional b.left).bind fun x => ?_
    obtain ⟨found, left⟩ := x
    cases found with
    | some r => exact gives_pure rfl
    | none => exact by_name left

theorem has_push {n : Nat} {b : Binding} (has : b.Has n) (r : Ref) (left : Arguments) :
    (b.push r left).Has (n + 1) := congrArg (· + 1) has

theorem has_of_bound {n : Nat} {b c : Binding} (has : b.Has n) (same : c.bound = b.bound) :
    c.Has n := by
  rw [Has, same]
  exact has

theorem gives_bindNamed {find : Binding → String → Script (Option Ref × Binding)}
    (finds : FindsFor find quiet held) (missing : Cause) (half : Half Default) {n : Nat} {b : Binding}
    (has : b.Has n) : (b.bindNamed find missing half).Gives quiet held
      (Has (n + half.requireds.length + half.optionals.length)) := by
  refine (gives_foldlM_count (I := Has) (fun n b name has => ?_) half.requireds has).bind
    fun b has => gives_foldlM_count (I := Has) (fun n b optional has => ?_) half.optionals has
  · refine (finds b name).bind fun x same => ?_
    obtain ⟨found, c⟩ := x
    cases found with
    | some r => exact gives_pure (has_push (has_of_bound has same) r _)
    | none => exact gives_fail _
  · refine (finds b optional.1).bind fun x same => ?_
    obtain ⟨found, c⟩ := x
    cases found with
    | some r => exact gives_pure (has_push (has_of_bound has same) r _)
    | none =>
      exact optional.2.tame_ref.bind fun r => gives_pure (has_push (has_of_bound has same) r _)

theorem gives_bindRest {rest : Arguments → Script (Ref × Arguments)}
    (rests : ∀ a, (rest a).Tame quiet held) (half : Half Default) {n : Nat} {b : Binding}
    (has : b.Has n) : (b.bindRest rest half).Gives quiet held (Has (n + half.rest.toList.length)) := by
  unfold bindRest
  cases half.rest with
  | none => exact gives_pure has
  | some name => exact (rests b.left).bind fun x => gives_pure (has_push has _ _)

end Binding

theorem Signature.gives_bind (s : Signature Default) (a : Arguments) :
    (s.bind a).Gives quiet held fun rs => rs.length = s.arity := by
  have starts : Binding.Has 0 { left := a } := rfl
  refine (Binding.gives_bindNamed Binding.findsFor_positional _ s.positional starts).bind
    fun b has => ?_
  refine (Binding.gives_bindRest Arguments.tame_restPositionals s.positional has).bind fun b has => ?_
  refine (Binding.gives_bindNamed Binding.findsFor_keyword _ s.keyword has).bind fun b has => ?_
  refine (Binding.gives_bindRest Arguments.tame_restKeywords s.keyword has).bind fun b has => ?_
  refine (Arguments.tame_checkTaken b.left).bind fun _ => gives_pure ?_
  have count : b.bound.length = _ := has
  simp only [List.length_reverse, count, Signature.arity, Half.arity]
  omega

namespace Expr

mutual
theorem tame_interpret {locals : List Ref} : ∀ {e : Expr}, e.InScope locals.length →
    (interpret locals e : Script Ref).Tame quiet held
  | .literal l, _ => by
    simp only [interpret]
    exact tame_allocValue l.fits_value
  | .predefined p, _ => by
    simp only [interpret]
    exact tame_allocValue p.fits_value
  | .cell r, _ => by
    simp only [interpret]
    exact tame_pure _
  | .local i, in_scope => by
    have found : locals[i]? = some (locals.get ⟨i, in_scope⟩) := List.getElem?_eq_getElem in_scope
    simp only [interpret, found]
    exact tame_pure _
  | .call function positionals keywords dicts site, ⟨first, second, third, fourth⟩ => by
    simp only [interpret]
    refine (tame_interpret first).bind fun f => (tame_interpretPositionals second).bind fun ps => ?_
    refine (tame_interpretKeywords third).bind fun ks => (tame_interpretAll fourth).bind fun ds => ?_
    exact (Arguments.tame_ofCall _ _ _).bind fun _ => tame_allocOfCall _ _ _
  | .switch value cases none, ⟨values, results⟩ => by
    simp only [interpret]
    refine (tame_interpret values).bind fun r => tame_suspendBranch ⟨results, ?_⟩ r
    rintro e ⟨⟩
  | .switch value cases (some default), ⟨values, results, defaults⟩ => by
    simp only [interpret]
    refine (tame_interpret values).bind fun r => tame_suspendBranch ⟨results, ?_⟩ r
    rintro e ⟨⟩
    exact defaults

theorem tame_interpretPositionals {locals : List Ref} : ∀ {ps : List PositionalExpr},
    positionalsInScope locals.length ps →
      (interpretPositionals locals ps : Script (List (Ref × Bool))).Tame quiet held
  | [], _ => by
    simp only [interpretPositionals]
    exact tame_pure _
  | ⟨value, expanded⟩ :: rest, ⟨first, others⟩ => by
    simp only [interpretPositionals]
    exact (tame_interpret first).bind fun _ => (tame_interpretPositionals others).bind fun _ =>
      tame_pure _

theorem tame_interpretKeywords {locals : List Ref} : ∀ {ks : List KeywordExpr},
    keywordsInScope locals.length ks →
      (interpretKeywords locals ks : Script (List (String × Ref))).Tame quiet held
  | [], _ => by
    simp only [interpretKeywords]
    exact tame_pure _
  | ⟨name, value⟩ :: rest, ⟨first, others⟩ => by
    simp only [interpretKeywords]
    exact (tame_interpret first).bind fun _ => (tame_interpretKeywords others).bind fun _ =>
      tame_pure _

theorem tame_interpretAll {locals : List Ref} : ∀ {es : List Expr},
    exprsInScope locals.length es → (interpretAll locals es : Script (List Ref)).Tame quiet held
  | [], _ => by
    simp only [interpretAll]
    exact tame_pure _
  | e :: rest, ⟨first, others⟩ => by
    simp only [interpretAll]
    exact (tame_interpret first).bind fun _ => (tame_interpretAll others).bind fun _ => tame_pure _
end

theorem gives_bindLocals {bindings : List Expr} {parameters : List Ref}
    (in_scope : bindingsInScope parameters.length bindings) :
    (bindLocals bindings parameters : Script (List Ref)).Gives quiet held fun locals =>
      locals.length = parameters.length + bindings.length := by
  unfold bindLocals
  induction bindings generalizing parameters with
  | nil => exact gives_pure rfl
  | cons e es ih =>
    rw [List.foldlM_cons]
    refine ((tame_interpret in_scope.1).bind (P := fun locals => locals.length =
      parameters.length + 1) fun r => gives_pure (by simp)).bind fun locals count => ?_
    refine (ih (by rw [count]; exact in_scope.2)).imp fun all total => ?_
    rw [total, count, List.length_cons]
    omega

end Expr

theorem casesInScope_iff {locals : Nat} {cases : List CaseExpr} :
    casesInScope locals cases ↔ ∀ c ∈ cases, c.result.InScope locals := by
  induction cases with
  | nil => simp [casesInScope]
  | cons c cases ih =>
    obtain ⟨pattern, result⟩ := c
    simp [casesInScope, ih]

theorem Branch.inScope_of_find {locals : Nat} {key : Key} {cases : List CaseExpr} {e : Expr}
    (in_scope : casesInScope locals cases) (found : Branch.find key cases = some e) :
    e.InScope locals := by
  obtain ⟨i, _, found⟩ := Option.bind_eq_some_iff.1 found
  obtain ⟨c, place, rfl⟩ := Option.map_eq_some_iff.1 found
  exact casesInScope_iff.1 in_scope c (List.mem_of_getElem? place)

theorem Branch.gives_select {b : Branch} (fits : b.Fits) (key : Except Fault Key) :
    (b.select key).Gives quiet held (Expr.InScope b.locals.length) := by
  unfold select
  cases key with
  | ok key =>
    dsimp only [pure_bind]
    cases found : find key b.cases with
    | some e => exact gives_pure (Branch.inScope_of_find fits.cases found)
    | none =>
      cases default : b.default with
      | some e => exact gives_pure (fits.default e default)
      | none => exact gives_fail _
  | error e =>
    by_cases incomparable : e.cause.isIncomparable
    · simp only [incomparable, ↓reduceIte]
      cases default : b.default with
      | some e => exact gives_pure (fits.default e default)
      | none => exact gives_fail _
    · simp only [incomparable]
      exact gives_raise _

theorem Branch.inScope_of_select {b : Branch} (fits : b.Fits) {key : Except Fault Key} {e : Expr}
    (selects : b.select key = .done e) : e.InScope b.locals.length := by
  have gives : (b.select key).Gives True none (Expr.InScope b.locals.length) :=
    Branch.gives_select fits key
  rw [selects] at gives
  exact gives.2

end
end CallByNeed
