import CallByNeed.Proofs.Loading.Resolving
import CallByNeed.Proofs.Safety.Loading

/- Putting code in the place of locals, in programs as they are written and in resolved code. The
   bindings of a function can be put in the place of the locals that stand for them, which leaves a
   function without bindings; resolving does not care which of the two is done first. -/
namespace CallByNeed

namespace Expr

mutual
/-- The code in the place of each local. Code that stands nowhere stays away. -/
def subst (σ : List Expr) : Expr → Expr
  | .literal l => .literal l
  | .predefined p => .predefined p
  | .cell r => .cell r
  | .local i => σ.getD i (.local i)
  | .call function positionals keywords dicts site =>
    .call (subst σ function) (substPositionals σ positionals) (substKeywords σ keywords)
      (substAll σ dicts) site
  | .switch value cases default =>
    .switch (subst σ value) (substCases σ cases) (substOption σ default)

def substPositionals (σ : List Expr) : List PositionalExpr → List PositionalExpr
  | [] => []
  | ⟨value, expanded⟩ :: rest => ⟨subst σ value, expanded⟩ :: substPositionals σ rest

def substKeywords (σ : List Expr) : List KeywordExpr → List KeywordExpr
  | [] => []
  | ⟨name, value⟩ :: rest => ⟨name, subst σ value⟩ :: substKeywords σ rest

def substCases (σ : List Expr) : List CaseExpr → List CaseExpr
  | [] => []
  | ⟨pattern, result⟩ :: rest => ⟨pattern, subst σ result⟩ :: substCases σ rest

def substAll (σ : List Expr) : List Expr → List Expr
  | [] => []
  | e :: rest => subst σ e :: substAll σ rest

def substOption (σ : List Expr) : Option Expr → Option Expr
  | none => none
  | some e => some (subst σ e)
end

/-- What stands for the locals of a body, each binding in the place of its local. -/
def expand (σ bindings : List Expr) : List Expr :=
  bindings.foldl (fun σ e => σ ++ [e.subst σ]) σ

/-- The parameters of a function. -/
def parameters (arity : Nat) : List Expr := (List.range arity).map .local

/-- The result of a body without its bindings. -/
def inlined (arity : Nat) (bindings : List Expr) (result : Expr) : Expr :=
  result.subst (expand (parameters arity) bindings)

variable {σ τ : List Expr} {e x : Expr} {i n : Nat}

theorem subst_local (found : σ[i]? = some x) : (Expr.local i).subst σ = x := by
  simp [subst, found]

@[simp]
theorem expand_nil (σ : List Expr) : expand σ [] = σ := rfl

@[simp]
theorem expand_cons (σ : List Expr) (e : Expr) (bindings : List Expr) :
    expand σ (e :: bindings) = expand (σ ++ [e.subst σ]) bindings := rfl

@[simp]
theorem length_parameters (arity : Nat) : (parameters arity).length = arity := by
  simp [parameters]

@[simp]
theorem length_expand (σ bindings : List Expr) :
    (expand σ bindings).length = σ.length + bindings.length := by
  induction bindings generalizing σ with
  | nil => rfl
  | cons e bindings ih =>
    rw [expand_cons, ih]
    simp only [List.length_append, List.length_cons, List.length_nil]
    omega

mutual
theorem subst_subst (σ τ : List Expr) : ∀ e : Expr, e.InScope σ.length →
    (e.subst σ).subst τ = e.subst (σ.map (subst τ))
  | .literal l, _ => rfl
  | .predefined p, _ => rfl
  | .cell r, _ => rfl
  | .local i, bound => by
    have bound : i < σ.length := bound
    have found : σ[i]? = some σ[i] := List.getElem?_eq_getElem bound
    have mapped : (σ.map (subst τ))[i]? = some (subst τ σ[i]) := by
      rw [List.getElem?_map, found]
      rfl
    rw [subst_local found, subst_local mapped]
  | .call f ps ks ds site, within => by
    obtain ⟨function, positionals, keywords, dicts⟩ := within
    simp only [subst, subst_subst σ τ f function, substPositionals_subst σ τ ps positionals,
      substKeywords_subst σ τ ks keywords, substAll_subst σ τ ds dicts]
  | .switch v cs none, within => by
    obtain ⟨value, cases⟩ := within
    simp only [subst, substOption, subst_subst σ τ v value, substCases_subst σ τ cs cases]
  | .switch v cs (some d), within => by
    obtain ⟨value, cases, default⟩ := within
    simp only [subst, substOption, subst_subst σ τ v value, substCases_subst σ τ cs cases,
      subst_subst σ τ d default]

theorem substPositionals_subst (σ τ : List Expr) : ∀ ps : List PositionalExpr,
    positionalsInScope σ.length ps →
      substPositionals τ (substPositionals σ ps) = substPositionals (σ.map (subst τ)) ps
  | [], _ => rfl
  | ⟨e, _⟩ :: ps, within => by
    simp only [substPositionals, subst_subst σ τ e within.1,
      substPositionals_subst σ τ ps within.2]

theorem substKeywords_subst (σ τ : List Expr) : ∀ ks : List KeywordExpr,
    keywordsInScope σ.length ks →
      substKeywords τ (substKeywords σ ks) = substKeywords (σ.map (subst τ)) ks
  | [], _ => rfl
  | ⟨_, e⟩ :: ks, within => by
    simp only [substKeywords, subst_subst σ τ e within.1, substKeywords_subst σ τ ks within.2]

theorem substCases_subst (σ τ : List Expr) : ∀ cs : List CaseExpr,
    casesInScope σ.length cs →
      substCases τ (substCases σ cs) = substCases (σ.map (subst τ)) cs
  | [], _ => rfl
  | ⟨_, e⟩ :: cs, within => by
    simp only [substCases, subst_subst σ τ e within.1, substCases_subst σ τ cs within.2]

theorem substAll_subst (σ τ : List Expr) : ∀ es : List Expr, exprsInScope σ.length es →
    substAll τ (substAll σ es) = substAll (σ.map (subst τ)) es
  | [], _ => rfl
  | e :: es, within => by
    simp only [substAll, subst_subst σ τ e within.1, substAll_subst σ τ es within.2]
end

theorem map_expand {bindings : List Expr} (within : bindingsInScope σ.length bindings)
    (τ : List Expr) : (expand σ bindings).map (subst τ) = expand (σ.map (subst τ)) bindings := by
  induction bindings generalizing σ with
  | nil => rfl
  | cons e bindings ih =>
    rw [expand_cons, expand_cons, ih (by simpa using within.2), List.map_append,
      ← subst_subst σ τ e within.1]
    rfl

theorem map_parameters {arity : Nat} (count : τ.length = arity) :
    (parameters arity).map (subst τ) = τ := by
  refine List.ext_getElem (by simp [count]) fun i _ bound => ?_
  simp only [parameters, List.map_map, List.getElem_map, List.getElem_range, Function.comp_apply]
  exact subst_local (List.getElem?_eq_getElem bound)

/-- To give a body its parameters and then its bindings is to give the inlined result its
    parameters. -/
theorem inlined_subst {bindings : List Expr} {result : Expr} (count : τ.length = n)
    (within : bindingsInScope n bindings) (inside : result.InScope (n + bindings.length)) :
    (inlined n bindings result).subst τ = result.subst (expand τ bindings) := by
  rw [inlined, subst_subst _ _ _ (by simpa using inside), map_expand (by simpa using within),
    map_parameters count]

end Expr

/-! ### Likeness -/

section
variable {M : Manner} {B : Bond} {n k : Nat} {σ σ' : List Expr}

mutual
theorem ExprLike.subst (tidy : ¬ M.strays) (each : List.Forall₂ (ExprLike M B k) σ σ')
    (count : σ.length = n) {e e' : Expr} :
    ExprLike M B n e e' → ExprLike M B k (e.subst σ) (e'.subst σ')
  | .literal l => .literal l
  | .predefined like => .predefined like
  | .cell cells => .cell cells
  | .local (i := i) in_scope => by
    have bound : i < σ.length := count ▸ in_scope.resolve_right tidy
    have bound' : i < σ'.length := each.length_eq ▸ bound
    rw [Expr.subst_local (List.getElem?_eq_getElem bound),
      Expr.subst_local (List.getElem?_eq_getElem bound')]
    exact each.get bound bound'
  | .call f ps ks ds site =>
    .call (f.subst tidy each count) (ps.subst tidy each count) (ks.subst tidy each count)
      (ds.subst tidy each count) site
  | .switch value cases default =>
    .switch (value.subst tidy each count) (cases.subst tidy each count)
      (default.subst tidy each count)

theorem PositionalsLike.subst (tidy : ¬ M.strays) (each : List.Forall₂ (ExprLike M B k) σ σ')
    (count : σ.length = n) {ps ps' : List PositionalExpr} :
    PositionalsLike M B n ps ps' →
      PositionalsLike M B k (Expr.substPositionals σ ps) (Expr.substPositionals σ' ps')
  | .nil => .nil
  | .cons value expanded rest =>
    .cons (value.subst tidy each count) expanded (rest.subst tidy each count)

theorem KeywordsLike.subst (tidy : ¬ M.strays) (each : List.Forall₂ (ExprLike M B k) σ σ')
    (count : σ.length = n) {ks ks' : List KeywordExpr} :
    KeywordsLike M B n ks ks' →
      KeywordsLike M B k (Expr.substKeywords σ ks) (Expr.substKeywords σ' ks')
  | .nil => .nil
  | .cons name value rest => .cons name (value.subst tidy each count) (rest.subst tidy each count)

theorem CasesLike.subst (tidy : ¬ M.strays) (each : List.Forall₂ (ExprLike M B k) σ σ')
    (count : σ.length = n) {cs cs' : List CaseExpr} :
    CasesLike M B n cs cs' → CasesLike M B k (Expr.substCases σ cs) (Expr.substCases σ' cs')
  | .nil => .nil
  | .cons pattern result rest =>
    .cons pattern (result.subst tidy each count) (rest.subst tidy each count)

theorem ExprsLike.subst (tidy : ¬ M.strays) (each : List.Forall₂ (ExprLike M B k) σ σ')
    (count : σ.length = n) {es es' : List Expr} :
    ExprsLike M B n es es' → ExprsLike M B k (Expr.substAll σ es) (Expr.substAll σ' es')
  | .nil => .nil
  | .cons first rest => .cons (first.subst tidy each count) (rest.subst tidy each count)

theorem OptionLike.subst (tidy : ¬ M.strays) (each : List.Forall₂ (ExprLike M B k) σ σ')
    (count : σ.length = n) {o o' : Option Expr} :
    OptionLike M B n o o' → OptionLike M B k (Expr.substOption σ o) (Expr.substOption σ' o')
  | .none => .none
  | .some like => .some (like.subst tidy each count)
end

theorem BindingsLike.expand (tidy : ¬ M.strays) {es es' : List Expr}
    (like : BindingsLike M B n es es') (each : List.Forall₂ (ExprLike M B k) σ σ')
    (count : σ.length = n) :
    List.Forall₂ (ExprLike M B k) (Expr.expand σ es) (Expr.expand σ' es') := by
  induction like generalizing σ σ' with
  | nil => exact each
  | cons first _ ih =>
    rw [Expr.expand_cons, Expr.expand_cons]
    refine ih (List.rel_append each (.cons (first.subst tidy each count) .nil)) ?_
    rw [List.length_append, count]
    rfl

theorem exprLike_parameters (arity : Nat) :
    List.Forall₂ (ExprLike M B arity) (Expr.parameters arity) (Expr.parameters arity) := by
  refine List.forall₂_same.2 fun x mem => ?_
  obtain ⟨i, bound, rfl⟩ := List.mem_map.1 mem
  exact .local (.inl (List.mem_range.1 bound))

/-- Like bodies are alike without their bindings. -/
theorem ExprLike.inlined (tidy : ¬ M.strays) {es es' : List Expr} {e e' : Expr}
    (binds : BindingsLike M B n es es') (results : ExprLike M B (n + es.length) e e') :
    ExprLike M B n (Expr.inlined n es e) (Expr.inlined n es' e') :=
  results.subst tidy (binds.expand tidy (exprLike_parameters n) (Expr.length_parameters n))
    (by simp)

end

/-! ### Programs -/

namespace Node

mutual
/-- The code in the place of each local. Patterns are constants. -/
def subst (σ : List Node) : Node → Node
  | .literal l => .literal l
  | .local i => σ.getD i (.local i)
  | .global name => .global name
  | .call function positionals keywords dicts site =>
    .call (subst σ function) (substPositionals σ positionals) (substKeywords σ keywords)
      (substAll σ dicts) site
  | .switch value cases default =>
    .switch (subst σ value) (substCases σ cases) (substOption σ default)

def substPositionals (σ : List Node) : List PositionalNode → List PositionalNode
  | [] => []
  | ⟨value, expanded⟩ :: rest => ⟨subst σ value, expanded⟩ :: substPositionals σ rest

def substKeywords (σ : List Node) : List KeywordNode → List KeywordNode
  | [] => []
  | ⟨name, value⟩ :: rest => ⟨name, subst σ value⟩ :: substKeywords σ rest

def substCases (σ : List Node) : List CaseNode → List CaseNode
  | [] => []
  | ⟨pattern, value⟩ :: rest => ⟨pattern, subst σ value⟩ :: substCases σ rest

def substAll (σ : List Node) : List Node → List Node
  | [] => []
  | node :: rest => subst σ node :: substAll σ rest

def substOption (σ : List Node) : Option Node → Option Node
  | none => none
  | some node => some (subst σ node)
end

/-- What stands for the locals of a body, each binding in the place of its local. -/
def expand (σ bindings : List Node) : List Node :=
  bindings.foldl (fun σ node => σ ++ [node.subst σ]) σ

/-- The parameters of a function. -/
def parameters (arity : Nat) : List Node := (List.range arity).map .local

@[simp]
theorem length_parameters (arity : Nat) : (parameters arity).length = arity := by
  simp [parameters]

@[simp]
theorem length_expand (σ bindings : List Node) :
    (expand σ bindings).length = σ.length + bindings.length := by
  induction bindings generalizing σ with
  | nil => rfl
  | cons node bindings ih =>
    change (expand (σ ++ [node.subst σ]) bindings).length = _
    rw [ih]
    simp only [List.length_append, List.length_cons, List.length_nil]
    omega

end Node

/-- A function that names each of its bindings no more, but has it wherever it was named. -/
def Definition.inlined : Definition → Definition
  | .variable name value => .variable name value
  | .function name signature bindings result =>
    .function name signature []
      (result.subst (Node.expand (Node.parameters signature.arity) bindings))

/-- The program without the bindings of the functions that are chosen. -/
def Program.inlined (p : Program) (chosen : String → Bool) : Program :=
  { p with definitions := p.definitions.map fun d => if chosen d.name then d.inlined else d }

def Meaning.inlined : Meaning → Meaning
  | .variable value => .variable value
  | .function name signature bindings result =>
    .function name signature [] (Expr.inlined signature.arity bindings result)

namespace Node
variable {handles : Handles} {definition : Option String} {n k : Nat} {σ : List Node}
variable {τ : List Expr}

mutual
/-- Code resolves in its new place if what is put there does. -/
theorem resolve_subst
    (each : List.Forall₂ (fun x e => resolve handles { definition, locals := k } x = .ok e) σ τ)
    (count : σ.length = n) : ∀ (node : Node) {e : Expr},
      resolve handles { definition, locals := n } node = .ok e →
        resolve handles { definition, locals := k } (subst σ node) = .ok (e.subst τ)
  | .literal l, e, ok => by
    cases ok
    rfl
  | .global name, e, ok => by
    simp only [resolve, Scope.context] at ok
    simp only [subst, resolve, Scope.context]
    split at ok
    · cases ok
      rfl
    · split at ok
      · cases ok
        rfl
      · cases ok
  | .local i, e, ok => by
    simp only [resolve] at ok
    split at ok
    · next bound =>
      cases ok
      have bound : i < σ.length := count ▸ bound
      have bound' : i < τ.length := each.length_eq ▸ bound
      rw [Expr.subst_local (List.getElem?_eq_getElem bound')]
      simp only [subst, List.getD_eq_getElem?_getD, List.getElem?_eq_getElem bound,
        Option.getD_some]
      exact each.get bound bound'
    · cases ok
  | .call f ps ks ds site, e, ok => by
    simp only [resolve] at ok
    obtain ⟨f', f_ok, ok⟩ := Except.ok_of_bind ok
    obtain ⟨ps', ps_ok, ok⟩ := Except.ok_of_bind ok
    obtain ⟨ks', ks_ok, ok⟩ := Except.ok_of_bind ok
    obtain ⟨ds', ds_ok, ok⟩ := Except.ok_of_bind ok
    cases ok
    simp only [subst, resolve, resolve_subst each count f f_ok,
      resolve_substPositionals each count ps ps_ok, resolve_substKeywords each count ks ks_ok,
      resolve_substAll each count ds ds_ok]
    rfl
  | .switch v cs d, e, ok => by
    simp only [resolve] at ok
    split at ok
    · cases ok
    · next ways =>
      obtain ⟨cs', cs_ok, ok⟩ := Except.ok_of_bind ok
      obtain ⟨d', d_ok, ok⟩ := Except.ok_of_bind ok
      obtain ⟨v', v_ok, ok⟩ := Except.ok_of_bind ok
      cases ok
      have same : ((substCases σ cs).isEmpty && (substOption σ d).isNone) =
          (cs.isEmpty && d.isNone) := by
        rcases cs with _ | ⟨⟨_, _⟩, _⟩ <;> cases d <;> rfl
      simp only [subst, resolve, same, ways, resolve_substCases each count cs cs_ok,
        resolve_substOption each count d d_ok, resolve_subst each count v v_ok]
      rfl

theorem resolve_substPositionals
    (each : List.Forall₂ (fun x e => resolve handles { definition, locals := k } x = .ok e) σ τ)
    (count : σ.length = n) : ∀ (ps : List PositionalNode) {es : List PositionalExpr},
      resolvePositionals handles { definition, locals := n } ps = .ok es →
        resolvePositionals handles { definition, locals := k } (substPositionals σ ps) =
          .ok (Expr.substPositionals τ es)
  | [], es, ok => by
    cases ok
    rfl
  | ⟨v, expanded⟩ :: ps, es, ok => by
    simp only [resolvePositionals] at ok
    obtain ⟨v', v_ok, ok⟩ := Except.ok_of_bind ok
    obtain ⟨ps', ps_ok, ok⟩ := Except.ok_of_bind ok
    cases ok
    simp only [substPositionals, resolvePositionals, resolve_subst each count v v_ok,
      resolve_substPositionals each count ps ps_ok]
    rfl

theorem resolve_substKeywords
    (each : List.Forall₂ (fun x e => resolve handles { definition, locals := k } x = .ok e) σ τ)
    (count : σ.length = n) : ∀ (ks : List KeywordNode) {es : List KeywordExpr},
      resolveKeywords handles { definition, locals := n } ks = .ok es →
        resolveKeywords handles { definition, locals := k } (substKeywords σ ks) =
          .ok (Expr.substKeywords τ es)
  | [], es, ok => by
    cases ok
    rfl
  | ⟨name, v⟩ :: ks, es, ok => by
    simp only [resolveKeywords] at ok
    obtain ⟨v', v_ok, ok⟩ := Except.ok_of_bind ok
    obtain ⟨ks', ks_ok, ok⟩ := Except.ok_of_bind ok
    cases ok
    simp only [substKeywords, resolveKeywords, resolve_subst each count v v_ok,
      resolve_substKeywords each count ks ks_ok]
    rfl

theorem resolve_substCases
    (each : List.Forall₂ (fun x e => resolve handles { definition, locals := k } x = .ok e) σ τ)
    (count : σ.length = n) : ∀ (cs : List CaseNode) {es : List CaseExpr},
      resolveCases handles { definition, locals := n } cs = .ok es →
        resolveCases handles { definition, locals := k } (substCases σ cs) =
          .ok (Expr.substCases τ es)
  | [], es, ok => by
    cases ok
    rfl
  | ⟨key, v⟩ :: cs, es, ok => by
    simp only [resolveCases] at ok
    obtain ⟨key', key_ok, ok⟩ := Except.ok_of_bind ok
    obtain ⟨v', v_ok, ok⟩ := Except.ok_of_bind ok
    obtain ⟨cs', cs_ok, ok⟩ := Except.ok_of_bind ok
    cases ok
    have key_ok : key.pattern handles { definition, locals := k } = .ok key' := key_ok
    simp only [substCases, resolveCases, key_ok, resolve_subst each count v v_ok,
      resolve_substCases each count cs cs_ok]
    rfl

theorem resolve_substAll
    (each : List.Forall₂ (fun x e => resolve handles { definition, locals := k } x = .ok e) σ τ)
    (count : σ.length = n) : ∀ (nodes : List Node) {es : List Expr},
      resolveAll handles { definition, locals := n } nodes = .ok es →
        resolveAll handles { definition, locals := k } (substAll σ nodes) =
          .ok (Expr.substAll τ es)
  | [], es, ok => by
    cases ok
    rfl
  | node :: nodes, es, ok => by
    simp only [resolveAll] at ok
    obtain ⟨e, e_ok, ok⟩ := Except.ok_of_bind ok
    obtain ⟨es', es_ok, ok⟩ := Except.ok_of_bind ok
    cases ok
    simp only [substAll, resolveAll, resolve_subst each count node e_ok,
      resolve_substAll each count nodes es_ok]
    rfl

theorem resolve_substOption
    (each : List.Forall₂ (fun x e => resolve handles { definition, locals := k } x = .ok e) σ τ)
    (count : σ.length = n) : ∀ (o : Option Node) {o' : Option Expr},
      resolveOption handles { definition, locals := n } o = .ok o' →
        resolveOption handles { definition, locals := k } (substOption σ o) =
          .ok (Expr.substOption τ o')
  | none, o', ok => by
    cases ok
    rfl
  | some node, o', ok => by
    simp only [resolveOption] at ok
    obtain ⟨e, e_ok, ok⟩ := Except.ok_of_bind ok
    cases ok
    simp only [substOption, resolveOption, resolve_subst each count node e_ok]
    rfl
end

theorem resolve_expand {name : String} (bindings : List Node) {es : List Expr}
    (ok : Definition.resolveBindings handles name n bindings = .ok es)
    (each : List.Forall₂
      (fun x e => resolve handles { definition := some name, locals := k } x = .ok e) σ τ)
    (count : σ.length = n) :
    List.Forall₂ (fun x e => resolve handles { definition := some name, locals := k } x = .ok e)
      (expand σ bindings) (Expr.expand τ es) := by
  induction bindings generalizing n es σ τ with
  | nil =>
    cases ok
    exact each
  | cons node bindings ih =>
    simp only [Definition.resolveBindings] at ok
    obtain ⟨e, e_ok, ok⟩ := Except.ok_of_bind ok
    obtain ⟨es', es_ok, ok⟩ := Except.ok_of_bind ok
    cases ok
    rw [Expr.expand_cons]
    refine ih es_ok (List.rel_append each (.cons (resolve_subst each count node e_ok) .nil)) ?_
    rw [List.length_append, count]
    rfl

theorem resolve_parameters (handles : Handles) (definition : Option String) (arity : Nat) :
    List.Forall₂ (fun x e => resolve handles { definition, locals := arity } x = .ok e)
      (parameters arity) (Expr.parameters arity) := by
  unfold parameters Expr.parameters
  rw [List.forall₂_map_left_iff, List.forall₂_map_right_iff]
  refine List.forall₂_same.2 fun i mem => ?_
  have bound : i < arity := List.mem_range.1 mem
  simp [resolve, bound]
  rfl

end Node

end CallByNeed
