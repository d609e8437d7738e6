import CallByNeed.Proofs.Likeness.Data

/- Likeness under the bond of each cell with itself: it is equality, but for the call sites that
   faults have passed. -/
namespace CallByNeed

def Bond.same : Bond where
  cells := Eq
  actions := Eq

/-- Nothing is asked of code, and every chain is like itself. -/
structure Manner.Admits (M : Manner) : Prop where
  hosted : M.hosted
  strays : M.strays
  chains : ∀ l, M.chains l l

section
variable {M : Manner}

theorem refsLike_same {rs rs' : List Ref} : RefsLike .same rs rs' ↔ rs = rs' := by
  unfold RefsLike Bond.same
  rw [List.forall₂_eq_eq_eq]

theorem entriesLike_eq {κ α : Type} {es es' : List (κ × α)} (like : EntriesLike Eq es es') :
    es = es' := by
  unfold EntriesLike at like
  induction like with
  | nil => rfl
  | cons first _ ih => rw [ih, Prod.ext first.1 first.2]

theorem entriesLike_refl {κ α : Type} {like : α → α → Prop} (es : List (κ × α))
    (each : ∀ e ∈ es, like e.2 e.2) : EntriesLike like es es :=
  List.forall₂_same.2 fun e mem => ⟨rfl, each e mem⟩

theorem optionRel_same {o o' : Option Ref} : Option.Rel Bond.same.cells o o' ↔ o = o' := by
  constructor
  · intro like
    cases like with
    | some cells => exact congrArg some cells
    | none => rfl
  · rintro rfl
    cases o with
    | none => exact .none
    | some r => exact .some rfl

mutual
theorem Expr.like_refl (admits : M.Admits) (n : Nat) : ∀ e : Expr, ExprLike M .same n e e
  | .literal l => .literal l
  | .predefined (.constant _) => .predefined rfl
  | .predefined (.function _) => .predefined ⟨rfl, .inl admits.hosted⟩
  | .cell _ => .cell rfl
  | .local _ => .local (.inr admits.strays)
  | .call f ps ks ds site =>
    .call (Expr.like_refl admits n f) (positionals_like_refl admits n ps) (keywords_like_refl admits n ks)
      (exprs_like_refl admits n ds) site
  | .switch e cs none => .switch (Expr.like_refl admits n e) (cases_like_refl admits n cs) .none
  | .switch e cs (some d) =>
    .switch (Expr.like_refl admits n e) (cases_like_refl admits n cs) (.some (Expr.like_refl admits n d))

theorem positionals_like_refl (admits : M.Admits) (n : Nat) :
    ∀ ps : List PositionalExpr, PositionalsLike M .same n ps ps
  | [] => .nil
  | ⟨e, expanded⟩ :: ps => .cons (Expr.like_refl admits n e) expanded (positionals_like_refl admits n ps)

theorem keywords_like_refl (admits : M.Admits) (n : Nat) :
    ∀ ks : List KeywordExpr, KeywordsLike M .same n ks ks
  | [] => .nil
  | ⟨name, e⟩ :: ks => .cons name (Expr.like_refl admits n e) (keywords_like_refl admits n ks)

theorem cases_like_refl (admits : M.Admits) (n : Nat) :
    ∀ cs : List CaseExpr, CasesLike M .same n cs cs
  | [] => .nil
  | ⟨pattern, e⟩ :: cs => .cons pattern (Expr.like_refl admits n e) (cases_like_refl admits n cs)

theorem exprs_like_refl (admits : M.Admits) (n : Nat) : ∀ es : List Expr, ExprsLike M .same n es es
  | [] => .nil
  | e :: es => .cons (Expr.like_refl admits n e) (exprs_like_refl admits n es)
end

section
variable (admits : M.Admits)
include admits

theorem option_like_refl (n : Nat) (o : Option Expr) : OptionLike M .same n o o := by
  cases o with
  | none => exact .none
  | some e => exact .some (Expr.like_refl admits n e)

theorem bindings_like_refl (n : Nat) (es : List Expr) : BindingsLike M .same n es es := by
  induction es generalizing n with
  | nil => exact .nil
  | cons e es ih => exact .cons (Expr.like_refl admits n e) (ih (n + 1))

theorem Body.like_refl (isEffect : Bool) (n : Nat) (b : Body) :
    BodyLike M .same isEffect n b b := by
  cases b with
  | builtin b => exact .builtin (.inl admits.hosted)
  | code bindings result =>
    exact .code (bindings_like_refl admits _ _) (Expr.like_refl admits _ _)
  | parameter i => exact .parameter i
  | parameters => exact .parameters

omit admits in
theorem Default.like_refl (d : Default) : DefaultLike .same d d := by
  cases d with
  | literal l => exact .literal l
  | cell r => exact .cell rfl

theorem Function.like_refl (f : Function) : FunctionLike M .same f f := by
  have halves : ∀ h : Half Default, HalfLike (DefaultLike .same) h h := fun h =>
    ⟨rfl, entriesLike_refl h.optionals fun e _ => e.2.like_refl, rfl⟩
  exact ⟨rfl, ⟨halves _, halves _⟩, Body.like_refl admits _ _ _, rfl⟩

theorem Value.like_refl (v : Value) : ValueLike M .same v v := by
  cases v with
  | bool b => exact .bool b
  | number x => exact .number x
  | string s => exact .string s
  | list l =>
    cases l with
    | nil => exact .list .nil
    | cons head tail => exact .list (.cons rfl rfl)
  | dict d => exact .dict (entriesLike_refl d.entries fun _ _ => rfl)
  | function f => exact .function (f.like_refl admits)
  | native f =>
    cases f with
    | partialCall f ps ks => exact .native (.partialCall rfl rfl rfl)
    | fixedPoint f self => exact .native (.fixedPoint rfl rfl)
  | error e => exact .error ⟨rfl, admits.chains _⟩
  | effect a => exact .effect rfl

theorem Suspension.like_refl (s : Suspension) : SuspensionLike M .same s s := by
  cases s with
  | branch b matched =>
    have locals : RefsLike .same b.locals b.locals := refsLike_same.2 rfl
    exact .branch ⟨cases_like_refl admits _ _, option_like_refl admits _ _, locals⟩ rfl
  | concat tail rest => exact .concat rfl rfl
  | entries es => exact .entries (entriesLike_refl es fun _ _ => rfl)
  | action b ps => exact .action admits.hosted (b.like_refl admits _ _) (refsLike_same.2 rfl)
  | rally id => exact .rally admits.hosted
  | traced label r => exact .traced rfl

theorem Work.like_refl (w : Work) : WorkLike M .same w w := by
  refine ⟨?_, rfl⟩
  cases w.task with
  | call f a =>
    have arguments : ArgumentsLike .same a a :=
      ⟨refsLike_same.2 rfl, optionRel_same.2 rfl, entriesLike_refl _ fun _ _ => rfl,
        refsLike_same.2 rfl⟩
    exact .call rfl arguments
  | resume s => exact .resume (s.like_refl admits)

end

theorem PredefinedLike.eq {p p' : Predefined} (like : PredefinedLike M p p') : p = p' := by
  cases p <;> cases p'
  case constant.constant => exact congrArg _ like
  case constant.function => exact like.elim
  case function.constant => exact like.elim
  case function.function => exact congrArg _ like.1

mutual
theorem ExprLike.eq {n : Nat} {e e' : Expr} : ExprLike M .same n e e' → e = e'
  | .literal l => rfl
  | .predefined like => congrArg Expr.predefined like.eq
  | .cell cells => congrArg Expr.cell cells
  | .local _ => rfl
  | .call f ps ks ds site => by rw [f.eq, ps.eq, ks.eq, ds.eq]
  | .switch value cases .none => by rw [value.eq, cases.eq]
  | .switch value cases (.some like) => by rw [value.eq, cases.eq, like.eq]

theorem PositionalsLike.eq {n : Nat} {ps ps' : List PositionalExpr} :
    PositionalsLike M .same n ps ps' → ps = ps'
  | .nil => rfl
  | .cons value _ rest => by rw [value.eq, rest.eq]

theorem KeywordsLike.eq {n : Nat} {ks ks' : List KeywordExpr} :
    KeywordsLike M .same n ks ks' → ks = ks'
  | .nil => rfl
  | .cons _ value rest => by rw [value.eq, rest.eq]

theorem CasesLike.eq {n : Nat} {cs cs' : List CaseExpr} : CasesLike M .same n cs cs' → cs = cs'
  | .nil => rfl
  | .cons _ result rest => by rw [result.eq, rest.eq]

theorem ExprsLike.eq {n : Nat} {es es' : List Expr} : ExprsLike M .same n es es' → es = es'
  | .nil => rfl
  | .cons first rest => by rw [first.eq, rest.eq]
end

theorem BindingsLike.eq {n : Nat} {es es' : List Expr} (like : BindingsLike M .same n es es') :
    es = es' := by
  induction like with
  | nil => rfl
  | cons first _ ih => rw [first.eq, ih]

theorem BodyLike.eq {isEffect : Bool} {n : Nat} {b b' : Body}
    (like : BodyLike M .same isEffect n b b') : b = b' := by
  cases like with
  | builtin _ => rfl
  | code binds results => rw [binds.eq, results.eq]
  | parameter i => rfl
  | parameters => rfl

theorem HalfLike.eq {h h' : Half Default} (like : HalfLike (DefaultLike .same) h h') : h = h' := by
  obtain ⟨requireds, optionals, rest⟩ := like
  have same : h.optionals = h'.optionals := by
    refine entriesLike_eq (optionals.imp fun d d' defaults => ?_)
    cases defaults with
    | literal l => rfl
    | cell cells => exact congrArg Default.cell cells
  cases h
  cases h'
  simp_all

theorem FunctionLike.eq {f f' : Function} (like : FunctionLike M .same f f') : f = f' := by
  obtain ⟨name, signature, body, isEffect⟩ := like
  have signatures : f.signature = f'.signature := by
    obtain ⟨positional, keyword⟩ := signature
    have both : f.signature = ⟨f.signature.positional, f.signature.keyword⟩ := rfl
    rw [both, positional.eq, keyword.eq]
  have bodies := body.eq
  cases f
  cases f'
  simp_all

/-- Like values are equal, or like faults. -/
theorem ValueLike.eq_or_error {v v' : Value} (like : ValueLike M .same v v') :
    v = v' ∨ ∃ e e', v = .error e ∧ v' = .error e' ∧ FaultLike M e e' := by
  cases like with
  | list lists =>
    cases lists with
    | nil => exact .inl rfl
    | cons heads tails =>
      cases heads
      cases tails
      exact .inl rfl
  | @dict d d' dicts =>
    have same : d.entries = d'.entries := entriesLike_eq dicts
    cases d
    cases d'
    exact .inl (by simp_all)
  | function functions => exact .inl (by rw [functions.eq])
  | native natives =>
    cases natives with
    | partialCall f ps ks =>
      cases f
      cases ps
      cases ks
      exact .inl rfl
    | fixedPoint f self =>
      cases f
      cases self
      exact .inl rfl
  | error faults => exact .inr ⟨_, _, rfl, rfl, faults⟩
  | effect actions =>
    cases actions
    exact .inl rfl
  | _ => exact .inl rfl

theorem ArgumentsLike.eq {a a' : Arguments} (like : ArgumentsLike .same a a') : a = a' := by
  obtain ⟨positionals, spread, keywords, dicts⟩ := like
  have keywords := entriesLike_eq keywords
  rw [refsLike_same] at positionals dicts
  rw [optionRel_same] at spread
  cases a
  cases a'
  simp_all

theorem OptionLike.eq {n : Nat} {o o' : Option Expr} (like : OptionLike M .same n o o') :
    o = o' := by
  cases like with
  | none => rfl
  | some like => rw [like.eq]

theorem BranchLike.eq {b b' : Branch} (like : BranchLike M .same b b') : b = b' := by
  have cases_eq := like.cases.eq
  have default_eq := like.default.eq
  have locals_eq := refsLike_same.1 like.locals
  cases b
  cases b'
  simp_all

theorem SuspensionLike.eq {s s' : Suspension} (like : SuspensionLike M .same s s') : s = s' := by
  cases like with
  | branch branches matched => rw [branches.eq, show _ = _ from matched]
  | concat tails rests => rw [show _ = _ from tails, show _ = _ from rests]
  | entries entries => rw [entriesLike_eq entries]
  | action _ bodies parameters => rw [bodies.eq, refsLike_same.1 parameters]
  | rally _ => rfl
  | traced targets => rw [show _ = _ from targets]

theorem WorkLike.eq {w w' : Work} (like : WorkLike M .same w w') : w = w' := by
  obtain ⟨task, site⟩ := w
  obtain ⟨task', site'⟩ := w'
  obtain ⟨tasks, sites⟩ := like
  dsimp only at tasks sites
  subst sites
  cases tasks with
  | call functions arguments => rw [arguments.eq, show _ = _ from functions]
  | resume suspensions => rw [suspensions.eq]

end

/-- What two bounds of one engine are compared in: values are equal, if both have them. -/
def Manner.exact : Manner where
  chains := Eq
  chains_nil := rfl
  lax := True
  hosted := True
  strays := True

theorem Manner.exact_admits : Manner.exact.Admits := ⟨trivial, trivial, fun _ => rfl⟩

theorem FaultLike.eq_of_exact {e e' : Fault} (like : FaultLike .exact e e') : e = e' := by
  obtain ⟨cause, passed⟩ := e
  obtain ⟨cause', passed'⟩ := e'
  obtain ⟨causes, chains⟩ := like
  cases causes
  cases chains
  rfl

theorem eq_of_exact {v v' : Value} (values : ValueLike .exact .same v v') : v = v' := by
  rcases values.eq_or_error with same | ⟨e, e', rfl, rfl, faults⟩
  · exact same
  · exact congrArg Value.error faults.eq_of_exact

theorem state_eq_of_exact {c c' : CellState} (states : StateLike .exact .same c c') : c = c' := by
  cases states with
  | vacant _ => rfl
  | pending works => rw [works.eq]
  | forced values => rw [eq_of_exact values]

end CallByNeed
