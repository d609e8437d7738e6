import CallByNeed.Proofs.Likeness.Data
import CallByNeed.Proofs.Loading.Handles

/- Resolved code mentions handles and nothing else, names only locals it has, and uses the builtins
   that the program names. So it is the same code wherever the handles are. -/
namespace CallByNeed

mutual
/-- The names an expression looks up. A pattern is a constant and looks up none that matter. -/
def Node.globals : Node → List String
  | .literal _ | .local _ => []
  | .global name => [name]
  | .call function positionals keywords dicts _ =>
    function.globals ++ positionalGlobals positionals ++ keywordGlobals keywords ++
      nodesGlobals dicts
  | .switch value cases none => value.globals ++ caseGlobals cases
  | .switch value cases (some default) => value.globals ++ caseGlobals cases ++ default.globals

def positionalGlobals : List PositionalNode → List String
  | [] => []
  | ⟨value, _⟩ :: rest => value.globals ++ positionalGlobals rest

def keywordGlobals : List KeywordNode → List String
  | [] => []
  | ⟨_, value⟩ :: rest => value.globals ++ keywordGlobals rest

def caseGlobals : List CaseNode → List String
  | [] => []
  | ⟨_, value⟩ :: rest => value.globals ++ caseGlobals rest

def nodesGlobals : List Node → List String
  | [] => []
  | node :: rest => node.globals ++ nodesGlobals rest
end

def Half.globals (h : Half Node) : List String := h.optionals.flatMap fun o => o.2.globals

def Definition.globals : Definition → List String
  | .variable _ value => value.globals
  | .function _ signature bindings result =>
    signature.positional.globals ++ signature.keyword.globals ++ nodesGlobals bindings ++
      result.globals

def Program.globals (p : Program) : List String :=
  p.definitions.flatMap Definition.globals ++ p.outputs.flatMap fun o => o.value.globals

/-- The program looks up the name of a builtin and does not define it. -/
def Program.Uses (p : Program) (b : Builtin) : Prop :=
  ∃ name ∈ p.globals, name ∉ p.names ∧ Predefined.named? name = some (.function b)

theorem Except.ok_of_bind {ε α β : Type} {x : Except ε α} {f : α → Except ε β} {b : β}
    (e : (x >>= f) = .ok b) : ∃ a, x = .ok a ∧ f a = .ok b := by
  cases x with
  | error _ => cases e
  | ok a => exact ⟨a, rfl, e⟩

inductive MeaningLike (M : Manner) (B : Bond) : Meaning → Meaning → Prop where
  | «variable» {e e' : Expr} (value : ExprLike M B 0 e e') :
      MeaningLike M B (.variable e) (.variable e')
  | function (name : String) {s s' : Signature Expr} {es es' : List Expr} {e e' : Expr}
      (signature : SignatureLike (ExprLike M B 0) s s') (binds : BindingsLike M B s.arity es es')
      (result : ExprLike M B (s.arity + es.length) e e') :
      MeaningLike M B (.function name s es e) (.function name s' es' e')

/-- Builtins looked up under these names are permitted. -/
def Manner.Allows (M : Manner) (handles : Handles) (names : List String) : Prop :=
  ∀ name ∈ names, handles.lookup name = none →
    ∀ b, Predefined.named? name = some (.function b) → M.Permits b.isEffect b

theorem Manner.Allows.subset {M : Manner} {handles : Handles} {names fewer : List String}
    (allows : M.Allows handles names) (sub : fewer ⊆ names) : M.Allows handles fewer :=
  fun name mem => allows name (sub mem)

theorem forall₂_of_mapM {ε α β : Type} {f : α → Except ε β} {l : List α} {l' : List β}
    (ok : l.mapM f = .ok l') : List.Forall₂ (fun a b => f a = .ok b) l l' := by
  induction l generalizing l' with
  | nil =>
    cases ok
    exact .nil
  | cons a l ih =>
    rw [List.mapM_cons] at ok
    obtain ⟨b, first, ok⟩ := Except.ok_of_bind ok
    obtain ⟨bs, others, ok⟩ := Except.ok_of_bind ok
    cases ok
    exact .cons first (ih others)

theorem mapM_of_forall₂ {ε α β : Type} {f : α → Except ε β} {l : List α} {l' : List β}
    (each : List.Forall₂ (fun a b => f a = .ok b) l l') : l.mapM f = .ok l' := by
  induction each with
  | nil => rfl
  | cons first _ ih =>
    rw [List.mapM_cons, first, ih]
    rfl

section
variable {M : Manner} {B : Bond} {handles handles' : Handles}

/-- Each handle is bonded to itself. -/
def Bond.Ties (B : Bond) (handles : Handles) : Prop := ∀ p ∈ handles, B.cells p.2 p.2

/-- The same names have handles on both sides, and those of one name are bonded. -/
def Bond.Joins (B : Bond) (handles handles' : Handles) : Prop :=
  ∀ name, Option.Rel B.cells (handles.lookup name) (handles'.lookup name)

theorem Bond.Ties.joins (ties : B.Ties handles) : B.Joins handles handles := by
  intro name
  cases found : handles.lookup name with
  | none => exact .none
  | some r => exact .some (ties (name, r) (mem_of_lookup found))

namespace Node

theorem resolve_pattern (joins : B.Joins handles handles') {scope : Scope} {node : Node} {k : Key}
    (ok : node.pattern handles scope = .ok k) : node.pattern handles' scope = .ok k := by
  cases node with
  | literal l => cases l <;> exact ok
  | «local» i => exact ok
  | global name =>
    have join := joins name
    simp only [pattern] at ok ⊢
    generalize handles.lookup name = o, handles'.lookup name = o' at join ok
    cases join <;> exact ok
  | call function positionals keywords dicts site => exact ok
  | switch value cases default => exact ok

mutual
theorem like_resolve (joins : B.Joins handles handles') {scope : Scope} :
    ∀ {node : Node} {e : Expr}, M.Allows handles node.globals →
      node.resolve handles scope = .ok e →
      ∃ e', node.resolve handles' scope = .ok e' ∧ ExprLike M B scope.locals e e'
  | .literal l, e, _, ok => by
    cases ok
    exact ⟨_, rfl, .literal l⟩
  | .local i, e, _, ok => by
    simp only [resolve] at ok ⊢
    split at ok
    · next in_scope =>
      cases ok
      rw [if_pos in_scope]
      exact ⟨_, rfl, .local (.inl in_scope)⟩
    · cases ok
  | .global name, e, allows, ok => by
    have join := joins name
    have allowed := allows name (by simp [Node.globals])
    simp only [resolve] at ok ⊢
    generalize handles.lookup name = o, handles'.lookup name = o' at join ok allowed
    cases join with
    | some cells =>
      cases ok
      exact ⟨_, rfl, .cell cells⟩
    | none =>
      cases named : Predefined.named? name with
      | none =>
        rw [named] at ok
        cases ok
      | some p =>
        rw [named] at ok
        cases ok
        cases p with
        | constant b => exact ⟨_, rfl, .predefined rfl⟩
        | function b => exact ⟨_, rfl, .predefined ⟨rfl, allowed rfl b named⟩⟩
  | .call function positionals keywords dicts site, e, allows, ok => by
    simp only [resolve] at ok ⊢
    obtain ⟨f, function_ok, ok⟩ := Except.ok_of_bind ok
    obtain ⟨ps, positionals_ok, ok⟩ := Except.ok_of_bind ok
    obtain ⟨ks, keywords_ok, ok⟩ := Except.ok_of_bind ok
    obtain ⟨ds, dicts_ok, ok⟩ := Except.ok_of_bind ok
    cases ok
    obtain ⟨f', function_ok', functions⟩ := like_resolve joins
      (allows.subset fun _ mem => by simp [Node.globals, mem]) function_ok
    obtain ⟨ps', positionals_ok', positionals⟩ := like_resolvePositionals joins
      (allows.subset fun _ mem => by simp [Node.globals, mem]) positionals_ok
    obtain ⟨ks', keywords_ok', keywords⟩ := like_resolveKeywords joins
      (allows.subset fun _ mem => by simp [Node.globals, mem]) keywords_ok
    obtain ⟨ds', dicts_ok', dicts⟩ := like_resolveAll joins
      (allows.subset fun _ mem => by simp [Node.globals, mem]) dicts_ok
    rw [function_ok', positionals_ok', keywords_ok', dicts_ok']
    exact ⟨_, rfl, .call functions positionals keywords dicts _⟩
  | .switch value cases none, e, allows, ok => by
    simp only [resolve] at ok ⊢
    split at ok
    · cases ok
    · next full =>
      obtain ⟨cs, cases_ok, ok⟩ := Except.ok_of_bind ok
      obtain ⟨o, option_ok, ok⟩ := Except.ok_of_bind ok
      obtain ⟨v, value_ok, ok⟩ := Except.ok_of_bind ok
      cases option_ok
      cases ok
      obtain ⟨v', value_ok', values⟩ := like_resolve joins
        (allows.subset fun _ mem => by simp [Node.globals, mem]) value_ok
      obtain ⟨cs', cases_ok', branches⟩ := like_resolveCases joins
        (allows.subset fun _ mem => by simp [Node.globals, mem]) cases_ok
      rw [if_neg full, cases_ok', value_ok']
      exact ⟨_, rfl, .switch values branches .none⟩
  | .switch value cases (some default), e, allows, ok => by
    simp only [resolve] at ok ⊢
    split at ok
    · cases ok
    · next full =>
      obtain ⟨cs, cases_ok, ok⟩ := Except.ok_of_bind ok
      obtain ⟨o, option_ok, ok⟩ := Except.ok_of_bind ok
      obtain ⟨d, default_ok, option_ok⟩ := Except.ok_of_bind option_ok
      obtain ⟨v, value_ok, ok⟩ := Except.ok_of_bind ok
      cases option_ok
      cases ok
      obtain ⟨v', value_ok', values⟩ := like_resolve joins
        (allows.subset fun _ mem => by simp [Node.globals, mem]) value_ok
      obtain ⟨cs', cases_ok', branches⟩ := like_resolveCases joins
        (allows.subset fun _ mem => by simp [Node.globals, mem]) cases_ok
      obtain ⟨d', default_ok', defaults⟩ := like_resolve joins
        (allows.subset fun _ mem => by simp [Node.globals, mem]) default_ok
      rw [if_neg full, cases_ok', value_ok', resolveOption, default_ok']
      exact ⟨_, rfl, .switch values branches (.some defaults)⟩

theorem like_resolvePositionals (joins : B.Joins handles handles') {scope : Scope} :
    ∀ {nodes : List PositionalNode} {es : List PositionalExpr},
      M.Allows handles (positionalGlobals nodes) →
      resolvePositionals handles scope nodes = .ok es →
      ∃ es', resolvePositionals handles' scope nodes = .ok es' ∧
        PositionalsLike M B scope.locals es es'
  | [], es, _, ok => by
    cases ok
    exact ⟨_, rfl, .nil⟩
  | ⟨value, expanded⟩ :: rest, es, allows, ok => by
    simp only [resolvePositionals] at ok ⊢
    obtain ⟨e, value_ok, ok⟩ := Except.ok_of_bind ok
    obtain ⟨es, rest_ok, ok⟩ := Except.ok_of_bind ok
    cases ok
    obtain ⟨e', value_ok', values⟩ := like_resolve joins
      (allows.subset fun _ mem => by simp [positionalGlobals, mem]) value_ok
    obtain ⟨es', rest_ok', others⟩ := like_resolvePositionals joins
      (allows.subset fun _ mem => by simp [positionalGlobals, mem]) rest_ok
    rw [value_ok', rest_ok']
    exact ⟨_, rfl, .cons values expanded others⟩

theorem like_resolveKeywords (joins : B.Joins handles handles') {scope : Scope} :
    ∀ {nodes : List KeywordNode} {es : List KeywordExpr},
      M.Allows handles (keywordGlobals nodes) → resolveKeywords handles scope nodes = .ok es →
      ∃ es', resolveKeywords handles' scope nodes = .ok es' ∧ KeywordsLike M B scope.locals es es'
  | [], es, _, ok => by
    cases ok
    exact ⟨_, rfl, .nil⟩
  | ⟨name, value⟩ :: rest, es, allows, ok => by
    simp only [resolveKeywords] at ok ⊢
    obtain ⟨e, value_ok, ok⟩ := Except.ok_of_bind ok
    obtain ⟨es, rest_ok, ok⟩ := Except.ok_of_bind ok
    cases ok
    obtain ⟨e', value_ok', values⟩ := like_resolve joins
      (allows.subset fun _ mem => by simp [keywordGlobals, mem]) value_ok
    obtain ⟨es', rest_ok', others⟩ := like_resolveKeywords joins
      (allows.subset fun _ mem => by simp [keywordGlobals, mem]) rest_ok
    rw [value_ok', rest_ok']
    exact ⟨_, rfl, .cons name values others⟩

theorem like_resolveCases (joins : B.Joins handles handles') {scope : Scope} :
    ∀ {nodes : List CaseNode} {es : List CaseExpr}, M.Allows handles (caseGlobals nodes) →
      resolveCases handles scope nodes = .ok es →
      ∃ es', resolveCases handles' scope nodes = .ok es' ∧ CasesLike M B scope.locals es es'
  | [], es, _, ok => by
    cases ok
    exact ⟨_, rfl, .nil⟩
  | ⟨key, value⟩ :: rest, es, allows, ok => by
    simp only [resolveCases] at ok ⊢
    obtain ⟨k, key_ok, ok⟩ := Except.ok_of_bind ok
    obtain ⟨e, value_ok, ok⟩ := Except.ok_of_bind ok
    obtain ⟨es, rest_ok, ok⟩ := Except.ok_of_bind ok
    cases ok
    obtain ⟨e', value_ok', values⟩ := like_resolve joins
      (allows.subset fun _ mem => by simp [caseGlobals, mem]) value_ok
    obtain ⟨es', rest_ok', others⟩ := like_resolveCases joins
      (allows.subset fun _ mem => by simp [caseGlobals, mem]) rest_ok
    rw [resolve_pattern joins key_ok, value_ok', rest_ok']
    exact ⟨_, rfl, .cons k values others⟩

theorem like_resolveAll (joins : B.Joins handles handles') {scope : Scope} :
    ∀ {nodes : List Node} {es : List Expr}, M.Allows handles (nodesGlobals nodes) →
      resolveAll handles scope nodes = .ok es →
      ∃ es', resolveAll handles' scope nodes = .ok es' ∧ ExprsLike M B scope.locals es es'
  | [], es, _, ok => by
    cases ok
    exact ⟨_, rfl, .nil⟩
  | node :: rest, es, allows, ok => by
    simp only [resolveAll] at ok ⊢
    obtain ⟨e, node_ok, ok⟩ := Except.ok_of_bind ok
    obtain ⟨es, rest_ok, ok⟩ := Except.ok_of_bind ok
    cases ok
    obtain ⟨e', node_ok', first⟩ := like_resolve joins
      (allows.subset fun _ mem => by simp [nodesGlobals, mem]) node_ok
    obtain ⟨es', rest_ok', others⟩ := like_resolveAll joins
      (allows.subset fun _ mem => by simp [nodesGlobals, mem]) rest_ok
    rw [node_ok', rest_ok']
    exact ⟨_, rfl, .cons first others⟩
end

end Node

theorem like_resolveOptionals (joins : B.Joins handles handles') {scope : Scope}
    {nodes : List (String × Node)} {es : List (String × Expr)}
    (allows : M.Allows handles (nodes.flatMap fun o => o.2.globals))
    (each : List.Forall₂ (fun o e => (do pure (o.1, ← o.2.resolve handles scope)) = Except.ok e)
      nodes es) :
    ∃ es', List.Forall₂ (fun o e => (do pure (o.1, ← o.2.resolve handles' scope)) = Except.ok e)
        nodes es' ∧ EntriesLike (ExprLike M B scope.locals) es es' := by
  induction each with
  | nil => exact ⟨[], .nil, .nil⟩
  | @cons o e nodes es first _ ih =>
    obtain ⟨v, value_ok, made⟩ := Except.ok_of_bind first
    obtain ⟨v', value_ok', values⟩ := Node.like_resolve joins
      (allows.subset fun _ mem => by simp [mem]) value_ok
    obtain ⟨es', each', entries⟩ := ih (allows.subset fun _ mem => by
      rw [List.flatMap_cons]
      exact List.mem_append_right _ mem)
    cases made
    refine ⟨(o.1, v') :: es', .cons ?_ each', .cons ⟨rfl, values⟩ entries⟩
    rw [value_ok']
    rfl

theorem Half.like_resolve (joins : B.Joins handles handles') {scope : Scope} {h : Half Node}
    {k : Half Expr} (allows : M.Allows handles h.globals) (ok : h.resolve handles scope = .ok k) :
    ∃ k', h.resolve handles' scope = .ok k' ∧ HalfLike (ExprLike M B scope.locals) k k' ∧
      k.arity = h.arity := by
  obtain ⟨optionals, optionals_ok, ok⟩ := Except.ok_of_bind ok
  cases ok
  have each := forall₂_of_mapM optionals_ok
  obtain ⟨optionals', each', entries⟩ := like_resolveOptionals joins allows each
  refine ⟨{ requireds := h.requireds, optionals := optionals', rest := h.rest }, ?_,
    ⟨rfl, entries, rfl⟩, ?_⟩
  · unfold Half.resolve
    rw [mapM_of_forall₂ each']
    rfl
  · simp [arity, each.length_eq]

theorem like_resolveBindings (joins : B.Joins handles handles') {name : String} {locals : Nat}
    {nodes : List Node} {es : List Expr} (allows : M.Allows handles (nodesGlobals nodes))
    (ok : Definition.resolveBindings handles name locals nodes = .ok es) :
    ∃ es', Definition.resolveBindings handles' name locals nodes = .ok es' ∧
      BindingsLike M B locals es es' ∧ es.length = nodes.length := by
  induction nodes generalizing locals es with
  | nil =>
    cases ok
    exact ⟨[], rfl, .nil, rfl⟩
  | cons node rest ih =>
    simp only [Definition.resolveBindings] at ok ⊢
    obtain ⟨e, node_ok, ok⟩ := Except.ok_of_bind ok
    obtain ⟨es, rest_ok, ok⟩ := Except.ok_of_bind ok
    cases ok
    obtain ⟨e', node_ok', first⟩ := Node.like_resolve joins
      (allows.subset fun _ mem => by simp [nodesGlobals, mem]) node_ok
    obtain ⟨es', rest_ok', others, count⟩ := ih
      (allows.subset fun _ mem => by simp [nodesGlobals, mem]) rest_ok
    rw [node_ok', rest_ok']
    exact ⟨_, rfl, .cons first others, by simp [count]⟩

/-- With handles of the same names in other cells, the same definition means the same with those. -/
theorem Definition.like_resolve (joins : B.Joins handles handles') {d : Definition} {m : Meaning}
    (allows : M.Allows handles d.globals) (ok : d.resolve handles = .ok m) :
    ∃ m', d.resolve handles' = .ok m' ∧ MeaningLike M B m m' := by
  cases d with
  | «variable» name value =>
    obtain ⟨e, value_ok, ok⟩ := Except.ok_of_bind ok
    cases ok
    obtain ⟨e', value_ok', values⟩ := Node.like_resolve joins allows value_ok
    simp only [Definition.resolve]
    rw [value_ok']
    exact ⟨_, rfl, .variable values⟩
  | function name signature bindings result =>
    obtain ⟨s, signature_ok, ok⟩ := Except.ok_of_bind ok
    obtain ⟨es, bindings_ok, ok⟩ := Except.ok_of_bind ok
    obtain ⟨e, result_ok, ok⟩ := Except.ok_of_bind ok
    obtain ⟨positional, positional_ok, signature_ok⟩ := Except.ok_of_bind signature_ok
    obtain ⟨keyword, keyword_ok, signature_ok⟩ := Except.ok_of_bind signature_ok
    cases ok
    cases signature_ok
    obtain ⟨positional', positional_ok', positionals, places⟩ := signature.positional.like_resolve
      joins (allows.subset fun _ mem => by simp [Definition.globals, mem]) positional_ok
    obtain ⟨keyword', keyword_ok', keywords, names⟩ := signature.keyword.like_resolve joins
      (allows.subset fun _ mem => by simp [Definition.globals, mem]) keyword_ok
    obtain ⟨es', bindings_ok', binds, count⟩ := like_resolveBindings joins
      (allows.subset fun _ mem => by simp [Definition.globals, mem]) bindings_ok
    obtain ⟨e', result_ok', results⟩ := Node.like_resolve joins
      (allows.subset fun _ mem => by simp [Definition.globals, mem]) result_ok
    have arity : Signature.arity { positional, keyword } = signature.arity := by
      simp only [Signature.arity, places, names]
    simp only [Definition.resolve, Signature.resolve]
    rw [positional_ok', keyword_ok', bindings_ok', result_ok']
    refine ⟨_, rfl, .function name ⟨positionals, keywords⟩ ?_ ?_⟩
    · rw [arity]
      exact binds
    · rw [arity, count]
      exact results

/-- What is resolved is like itself. -/
theorem Node.like_resolve_self (bonded : B.Ties handles) {scope : Scope} {node : Node} {e : Expr}
    (allows : M.Allows handles node.globals) (ok : node.resolve handles scope = .ok e) :
    ExprLike M B scope.locals e e := by
  obtain ⟨e', again, like⟩ := Node.like_resolve bonded.joins allows ok
  cases ok.symm.trans again
  exact like

theorem Definition.like_resolve_self (bonded : B.Ties handles) {d : Definition} {m : Meaning}
    (allows : M.Allows handles d.globals) (ok : d.resolve handles = .ok m) :
    MeaningLike M B m m := by
  obtain ⟨m', again, like⟩ := Definition.like_resolve bonded.joins allows ok
  cases ok.symm.trans again
  exact like

/-- Only the name of a definition resolves to its handle. -/
theorem global_of_resolve {scope : Scope} {node : Node} {r : Ref}
    (ok : node.resolve handles scope = .ok (.cell r)) :
    ∃ name, node = .global name ∧ handles.lookup name = some r := by
  cases node with
  | literal l => cases ok
  | «local» i =>
    simp only [Node.resolve] at ok
    split at ok <;> cases ok
  | global name =>
    simp only [Node.resolve] at ok
    split at ok
    · next found =>
      cases ok
      exact ⟨name, rfl, found⟩
    · split at ok <;> cases ok
  | call function positionals keywords dicts site =>
    simp only [Node.resolve] at ok
    obtain ⟨_, _, ok⟩ := Except.ok_of_bind ok
    obtain ⟨_, _, ok⟩ := Except.ok_of_bind ok
    obtain ⟨_, _, ok⟩ := Except.ok_of_bind ok
    obtain ⟨_, _, ok⟩ := Except.ok_of_bind ok
    cases ok
  | switch value cases default =>
    simp only [Node.resolve] at ok
    split at ok
    · cases ok
    · obtain ⟨_, _, ok⟩ := Except.ok_of_bind ok
      obtain ⟨_, _, ok⟩ := Except.ok_of_bind ok
      obtain ⟨_, _, ok⟩ := Except.ok_of_bind ok
      cases ok

end
end CallByNeed
