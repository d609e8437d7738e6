import CallByNeed.Proofs.Likeness.Binding
import CallByNeed.Call
import CallByNeed.Proofs.Likeness.Builtins

/- Likeness of interpreting code among locals, and of the choice of a branch. -/
namespace CallByNeed

section
variable {M : Manner} {B : Bond}

namespace Expr

mutual
theorem alike_interpret {rs rs' : List Ref} (locals : RefsLike B rs rs') :
    ∀ {e e' : Expr}, ExprLike M B rs.length e e' →
      Alike M B B.cells (interpret rs e : Script Ref) (interpret rs' e')
  | _, _, .literal l => by
    simp only [interpret]
    exact .allocValue l.like_value
  | _, _, .predefined like => by
    simp only [interpret]
    exact .allocValue like.value
  | _, _, .cell cells => by
    simp only [interpret]
    exact .pure cells
  | .local i, _, .local in_scope => by
    simp only [interpret]
    have found := locals.getElem? i
    cases looked : rs[i]? with
    | some r =>
      cases looked' : rs'[i]? with
      | some r' =>
        rw [looked, looked'] at found
        cases found with
        | some cells => exact .pure cells
      | none =>
        rw [looked, looked'] at found
        cases found
    | none =>
      have behind : rs.length ≤ i := List.getElem?_eq_none_iff.1 looked
      have behind' : rs'.length ≤ i := locals.length_eq ▸ behind
      have strays : M.strays := in_scope.resolve_left (by omega)
      rw [List.getElem?_eq_none behind']
      exact .alloc ⟨.vacant strays, rfl⟩
  | _, _, .call function positionals keywords dicts site => by
    simp only [interpret]
    refine (alike_interpret locals function).bind fun f f' functions => ?_
    refine (alike_interpretPositionals locals positionals).bind fun ps ps' places => ?_
    refine (alike_interpretKeywords locals keywords).bind fun ks ks' named => ?_
    refine (alike_interpretAll locals dicts).bind fun ds ds' more => ?_
    refine (Arguments.alike_ofCall places named more).bind fun a a' arguments => ?_
    exact .allocOfCall functions arguments site
  | _, _, .switch value cases default => by
    simp only [interpret]
    refine (alike_interpret locals value).bind fun r r' matched => ?_
    exact .suspend (.branch ⟨cases, default, locals⟩ matched)

theorem alike_interpretPositionals {rs rs' : List Ref} (locals : RefsLike B rs rs') :
    ∀ {ps ps' : List PositionalExpr}, PositionalsLike M B rs.length ps ps' →
      Alike M B (PlacesLike B) (interpretPositionals rs ps : Script (List (Ref × Bool)))
        (interpretPositionals rs' ps')
  | _, _, .nil => by
    simp only [interpretPositionals]
    exact .pure .nil
  | _, _, .cons value expanded rest => by
    simp only [interpretPositionals]
    refine (alike_interpret locals value).bind fun r r' cells => ?_
    exact (alike_interpretPositionals locals rest).bind fun qs qs' others =>
      .pure (.cons ⟨cells, rfl⟩ others)

theorem alike_interpretKeywords {rs rs' : List Ref} (locals : RefsLike B rs rs') :
    ∀ {ks ks' : List KeywordExpr}, KeywordsLike M B rs.length ks ks' →
      Alike M B (EntriesLike B.cells) (interpretKeywords rs ks : Script (List (String × Ref)))
        (interpretKeywords rs' ks')
  | _, _, .nil => by
    simp only [interpretKeywords]
    exact .pure .nil
  | _, _, .cons name value rest => by
    simp only [interpretKeywords]
    refine (alike_interpret locals value).bind fun r r' cells => ?_
    exact (alike_interpretKeywords locals rest).bind fun qs qs' others =>
      .pure (.cons ⟨rfl, cells⟩ others)

theorem alike_interpretAll {rs rs' : List Ref} (locals : RefsLike B rs rs') :
    ∀ {es es' : List Expr}, ExprsLike M B rs.length es es' →
      Alike M B (RefsLike B) (interpretAll rs es : Script (List Ref)) (interpretAll rs' es')
  | _, _, .nil => by
    simp only [interpretAll]
    exact .pure .nil
  | _, _, .cons first rest => by
    simp only [interpretAll]
    refine (alike_interpret locals first).bind fun r r' cells => ?_
    exact (alike_interpretAll locals rest).bind fun qs qs' others => .pure (.cons cells others)
end

theorem alike_bindLocals {rs rs' : List Ref} (locals : RefsLike B rs rs') {es es' : List Expr}
    (binds : BindingsLike M B rs.length es es') :
    Alike M B (fun ls ls' => RefsLike B ls ls' ∧ ls.length = rs.length + es.length)
      (bindLocals es rs : Script (List Ref)) (bindLocals es' rs') := by
  unfold bindLocals
  generalize arity : rs.length = n at binds
  induction binds generalizing rs rs' with
  | nil => exact .pure ⟨locals, by simp [arity]⟩
  | @cons n e e' es es' first _ ih =>
    subst arity
    simp only [List.foldlM_cons]
    have one_more : Alike M B (fun ls ls' => RefsLike B ls ls' ∧ ls.length = rs.length + 1)
        (do pure (rs ++ [← interpret rs e])) (do pure (rs' ++ [← interpret rs' e'])) := by
      refine (alike_interpret locals first).bind fun r r' cells => ?_
      exact .pure ⟨List.rel_append locals (.cons cells .nil), by simp⟩
    refine one_more.bind ?_
    rintro ls ls' ⟨likes, count⟩
    refine (ih likes count).imp ?_
    rintro qs qs' ⟨all, length⟩
    exact ⟨all, by simp only [length, List.length_cons]; omega⟩

end Expr

namespace Branch

theorem like_getElem? {n : Nat} {cs cs' : List CaseExpr} (cases : CasesLike M B n cs cs') :
    cs.map (·.pattern) = cs'.map (·.pattern) ∧
      ∀ i : Nat, OptionLike M B n (cs[i]?.map (·.result)) (cs'[i]?.map (·.result)) := by
  induction cs generalizing cs' with
  | nil =>
    cases cases
    exact ⟨rfl, fun _ => .none⟩
  | cons c cs ih =>
    cases cases with
    | cons pattern result rest =>
      obtain ⟨patterns, results⟩ := ih rest
      refine ⟨congrArg (pattern :: ·) patterns, fun i => ?_⟩
      cases i with
      | zero => exact .some result
      | succ i => exact results i

/-- Cases with the same patterns have the same table. -/
theorem like_find {n : Nat} (key : Key) {cs cs' : List CaseExpr} (cases : CasesLike M B n cs cs') :
    OptionLike M B n (find key cs) (find key cs') := by
  obtain ⟨patterns, results⟩ := like_getElem? cases
  have tables : table cs = table cs' := by rw [table, table, patterns]
  unfold find
  rw [tables]
  cases (table cs').get? key with
  | none => exact .none
  | some i => exact results i

theorem alike_select {b b' : Branch} (like : BranchLike M B b b') {key key' : Except Fault Key}
    (keys : ResultLike M Eq key key') :
    Alike M B (ExprLike M B b.locals.length) (b.select key) (b'.select key') := by
  obtain ⟨cases, default, _⟩ := like
  unfold select
  generalize b.default = d, b'.default = d' at default
  cases keys with
  | @ok key _ same =>
    cases same
    have found := like_find key cases
    dsimp only [pure_bind]
    generalize find key b.cases = o, find key b'.cases = o' at found
    cases found with
    | some like => exact .pure like
    | none =>
      cases default with
      | some like => exact .pure like
      | none => exact .fail _
  | @error e e' faults =>
    simp only [faults.cause]
    split
    · cases default with
      | some like => exact .pure like
      | none => exact .fail _
    · exact .raise faults

end Branch
end

/-! ### Whole tasks

Likeness of whole tasks: like work has like scripts. This is all that is used of the language
where two heaps or two engines are compared. -/

section
variable {M : Manner} {B : Bond} {bound bound' : Nat}

theorem Settled.error {held : Held} {e e' : Fault} (faults : FaultLike M e e') :
    Settled M B held (.error e) (.error e') :=
  ResultLike.error faults

theorem BodyLike.like_run {isEffect : Bool} {rs rs' : List Ref} {b b' : Body}
    (like : BodyLike M B isEffect rs.length b b') (performed : isEffect = true → M.hosted)
    (bounds : M.Bounds bound bound') (cells : RefsLike B rs rs') :
    ScriptLike M B (Settled M B) .nothing (b.run bound rs) (b'.run bound' rs') := by
  cases like with
  | @builtin b permitted =>
    have quiet : M.Permits false b := by
      rcases permitted with hosted | effect | quiet
      · exact .inl hosted
      · exact .inl (performed effect)
      · exact .inr (.inr quiet)
    exact Builtin.like_run quiet bounds cells
  | code binds results =>
    refine Alike.settled ?_
    refine (Expr.alike_bindLocals cells binds).bind ?_
    rintro ls ls' ⟨locals, count⟩
    exact (Expr.alike_interpret locals (count ▸ results)).bind fun _ _ => alike_tail
  | parameter i =>
    have found := cells.getElem? i
    simp only [Body.run]
    generalize rs[i]? = o, rs'[i]? = o' at found
    cases found with
    | some tails => exact (alike_tail tails).settled
    | none => exact .panic .missingParameter
  | parameters =>
    refine Alike.settled ?_
    exact (LazyList.alike_ofRefs cells).bind fun _ _ lists => alike_answer (.list lists)

theorem Alike.action {b b' : Body} {ps ps' : List Ref} (bodies : BodyLike M B true ps.length b b')
    (parameters : RefsLike B ps ps') :
    Alike M B B.actions (CallByNeed.alloc (.ofSuspension (.action b ps)) : Script Ref)
      (CallByNeed.alloc (.ofSuspension (.action b' ps'))) :=
  ScriptLike.action bodies parameters fun _ _ actions => .done ⟨rfl, .ok actions⟩

theorem FunctionLike.like_call {f f' : Function} (like : FunctionLike M B f f')
    (bounds : M.Bounds bound bound') {a a' : Arguments} (arguments : ArgumentsLike B a a') :
    ScriptLike M B (Settled M B) .nothing ((Value.function f).call bound a)
      ((Value.function f').call bound' a') := by
  obtain ⟨_, signature, body, isEffect⟩ := like
  refine .bind_unchanged (signature.alike_bind arguments) (fun _ _ => .error) ?_
  rintro ps ps' ⟨parameters, count⟩
  rw [← count] at body
  rw [← isEffect]
  cases effect : f.isEffect with
  | true =>
    rw [effect] at body
    refine Alike.settled ?_
    exact (Alike.action body parameters).bind fun _ _ actions => alike_answer (.effect actions)
  | false => exact body.like_run (by simp [effect]) bounds parameters

theorem NativeLike.alike_call {f f' : Native} (like : NativeLike B f f') {a a' : Arguments}
    (arguments : ArgumentsLike B a a') :
    Alike M B (OutcomeLike M B) ((Value.native f).call bound a)
      ((Value.native f').call bound' a') := by
  cases like with
  | @partialCall f f' ps ps' ks ks' function positionals keywords =>
    have held : ArgumentsLike B { spread := some ps, dicts := [ks] }
        { spread := some ps', dicts := [ks'] } :=
      ⟨.nil, .some positionals, .nil, .cons keywords .nil⟩
    refine (Arguments.alike_merge held arguments).bind fun b b' all => ?_
    exact (Alike.allocOfCall function all none).bind fun _ _ => alike_tail
  | @fixedPoint f f' self self' function selves =>
    have held : ArgumentsLike B { positionals := [self] } { positionals := [self'] } :=
      ⟨.cons selves .nil, .none, .nil, .nil⟩
    refine (Arguments.alike_merge held arguments).bind fun b b' all => ?_
    exact (Alike.allocOfCall function all none).bind fun _ _ => alike_tail

/-- Lists and dictionaries are called with one place. -/
theorem alike_bindIndex {a a' : Arguments} (arguments : ArgumentsLike B a a')
    {s s' : Ref → Script Outcome}
    (rest : ∀ r r', B.cells r r' → Alike M B (OutcomeLike M B) (s r) (s' r')) :
    Alike M B (OutcomeLike M B)
      (do
        match ← indexSignature.bind a with
        | place :: _ => s place
        | [] => .panic .missingParameter)
      (do
        match ← indexSignature.bind a' with
        | place :: _ => s' place
        | [] => .panic .missingParameter) := by
  have plain : SignatureLike (DefaultLike B) indexSignature indexSignature :=
    ⟨halfLike_self (by simp [indexSignature, Signature.plain]),
      halfLike_self (by simp [indexSignature, Signature.plain])⟩
  refine (plain.alike_bind arguments).bind ?_
  rintro ps ps' ⟨parameters, _⟩
  cases parameters with
  | nil => exact .panic .missingParameter
  | cons first others => exact rest _ _ first

theorem ValueLike.like_call {v v' : Value} (like : ValueLike M B v v')
    (bounds : M.Bounds bound bound') {a a' : Arguments} (arguments : ArgumentsLike B a a') :
    ScriptLike M B (Settled M B) .nothing (v.call bound a) (v'.call bound' a') := by
  cases like with
  | function functions => exact functions.like_call bounds arguments
  | native natives => exact (natives.alike_call arguments).settled
  | list lists =>
    refine Alike.settled (alike_bindIndex arguments fun r r' places => ?_)
    refine (alike_forceNumber places).bind ?_
    rintro n _ rfl
    exact (LazyList.alike_index lists n).bind fun _ _ => alike_tail
  | dict dicts =>
    refine Alike.settled (alike_bindIndex arguments fun r r' places => ?_)
    refine (Alike.force places).bind fun u u' keys => ?_
    exact (Builtin.alike_lookUp bounds dicts keys).bind fun _ _ => alike_tail
  | _ => exact (Alike.fail _).settled

theorem SuspensionLike.like_script {s s' : Suspension} (like : SuspensionLike M B s s')
    (bounds : M.Bounds bound bound') :
    ScriptLike M B (Settled M B) .nothing (s.script bound) (s'.script bound') := by
  cases like with
  | branch branches matched =>
    refine Alike.settled ?_
    refine (Alike.force matched).bind fun v v' values => ?_
    refine (Key.alike_ofValue bounds values).attempt.bind fun key key' keys => ?_
    refine (Branch.alike_select branches keys).bind fun e e' chosen => ?_
    exact (Expr.alike_interpret branches.locals chosen).bind fun _ _ => alike_tail
  | concat tails rests =>
    refine Alike.settled ?_
    refine (alike_forceList tails).bind fun l l' lists => ?_
    exact (LazyList.alike_concat bounds lists rests).bind fun _ _ all => alike_answer (.list all)
  | entries entries =>
    refine Alike.settled ?_
    exact (Dict.alike_listEntries entries).bind fun _ _ lists => alike_answer (.list lists)
  | action hosted bodies parameters => exact bodies.like_run (fun _ => hosted) bounds parameters
  | rally hosted =>
    refine Alike.settled ?_
    exact (Builtin.alike_rallyCells hosted bounds _).bind fun _ _ lists =>
      alike_answer (.list lists)
  | traced targets => exact .trace _ (alike_tail targets).settled

/-- Like work has like scripts. -/
theorem TaskLike.like_script {t t' : Task} (like : TaskLike M B t t')
    (bounds : M.Bounds bound bound') :
    ScriptLike M B (Settled M B) .nothing (t.script bound) (t'.script bound') := by
  cases like with
  | call functions arguments =>
    refine .bind_unchanged (Alike.force functions) (fun _ _ => .error) fun v v' values => ?_
    exact values.like_call bounds arguments
  | resume suspensions => exact suspensions.like_script bounds

end
end CallByNeed
