import CallByNeed.Builtin.Arithmetic
import Mathlib.Data.List.Forall2
import Mathlib.Data.Option.Basic

/- Likeness of data in two heaps. A bond says which cells stand for each other; data are alike if
   they differ only in such cells, and faults also in the call sites they passed. Nothing is said
   here about what the bonded cells hold. -/
namespace CallByNeed

/-- In what sense two sides are alike. -/
structure Manner where
  /-- How the sites that two like faults have passed compare. -/
  chains : List Location → List Location → Prop
  chains_nil : chains [] []
  /-- The left side may give up where the right one goes on. -/
  lax : Prop
  /-- There are a host and a pool, so code may read, rally and perform effects. -/
  hosted : Prop
  /-- Code may name locals it does not have. -/
  strays : Prop

structure Bond where
  cells : Ref → Ref → Prop
  /-- Cells of effects that have been made. -/
  actions : Ref → Ref → Prop

namespace Bond

instance : LE Bond where
  le B C := (∀ r r', B.cells r r' → C.cells r r') ∧ ∀ r r', B.actions r r' → C.actions r r'

theorem le_refl (B : Bond) : B ≤ B := ⟨fun _ _ => id, fun _ _ => id⟩

theorem le_trans {B C D : Bond} (first : B ≤ C) (second : C ≤ D) : B ≤ D :=
  ⟨fun r r' bonded => second.1 r r' (first.1 r r' bonded),
    fun r r' bonded => second.2 r r' (first.2 r r' bonded)⟩

end Bond

/-- Bounds of two sides: the right one is no smaller if the manner is lax, and the same if not. -/
def Manner.Bounds (M : Manner) (bound bound' : Nat) : Prop :=
  bound = bound' ∨ (M.lax ∧ bound ≤ bound')

/-- The bodies of these reach the host or the pool, or perform effects. -/
def Builtin.needsHost : Builtin → Bool
  | .read | .rally | .write | .effectSeq => true
  | _ => false

/-- The body of an effect function is not run unless the effect is performed. -/
def Manner.Permits (M : Manner) (isEffect : Bool) (b : Builtin) : Prop :=
  M.hosted ∨ isEffect = true ∨ b.needsHost = false

section
variable (M : Manner) (B : Bond)

structure FaultLike (e e' : Fault) : Prop where
  cause : e.cause = e'.cause
  passed : M.chains e.passed e'.passed

def RefsLike : List Ref → List Ref → Prop := List.Forall₂ B.cells

/-- Pairs of one key and like values. -/
def EntriesLike {κ α β : Type} (like : α → β → Prop) : List (κ × α) → List (κ × β) → Prop :=
  List.Forall₂ fun e e' => e.1 = e'.1 ∧ like e.2 e'.2

def DictLike {α β : Type} (like : α → β → Prop) (d : Dict α) (d' : Dict β) : Prop :=
  EntriesLike like d.entries d'.entries

inductive LazyListLike : LazyList → LazyList → Prop where
  | nil : LazyListLike .nil .nil
  | cons {head head' tail tail' : Ref} (heads : B.cells head head') (tails : B.cells tail tail') :
      LazyListLike (.cons head tail) (.cons head' tail')

inductive DefaultLike : Default → Default → Prop where
  | literal (l : Literal) : DefaultLike (.literal l) (.literal l)
  | cell {r r' : Ref} (cells : B.cells r r') : DefaultLike (.cell r) (.cell r')

structure HalfLike {δ δ' : Type} (like : δ → δ' → Prop) (h : Half δ) (h' : Half δ') : Prop where
  requireds : h.requireds = h'.requireds
  optionals : EntriesLike like h.optionals h'.optionals
  rest : h.rest = h'.rest

structure SignatureLike {δ δ' : Type} (like : δ → δ' → Prop) (s : Signature δ)
    (s' : Signature δ') : Prop where
  positional : HalfLike like s.positional s'.positional
  keyword : HalfLike like s.keyword s'.keyword

structure ArgumentsLike (a a' : Arguments) : Prop where
  positionals : RefsLike B a.positionals a'.positionals
  spread : Option.Rel B.cells a.spread a'.spread
  keywords : EntriesLike B.cells a.keywords a'.keywords
  dicts : RefsLike B a.dicts a'.dicts

def PredefinedLike : Predefined → Predefined → Prop
  | .constant b, .constant b' => b = b'
  | .function b, .function b' => b = b' ∧ M.Permits b.isEffect b
  | _, _ => False

mutual
inductive ExprLike (locals : Nat) : Expr → Expr → Prop where
  | literal (l : Literal) : ExprLike locals (.literal l) (.literal l)
  | predefined {p p' : Predefined} (like : PredefinedLike M p p') :
      ExprLike locals (.predefined p) (.predefined p')
  | cell {r r' : Ref} (cells : B.cells r r') : ExprLike locals (.cell r) (.cell r')
  | «local» {i : Nat} (in_scope : i < locals ∨ M.strays) : ExprLike locals (.local i) (.local i)
  | call {f f' : Expr} {ps ps' : List PositionalExpr} {ks ks' : List KeywordExpr}
      {ds ds' : List Expr} (function : ExprLike locals f f')
      (positionals : PositionalsLike locals ps ps') (keywords : KeywordsLike locals ks ks')
      (dicts : ExprsLike locals ds ds') (site : Option Location) :
      ExprLike locals (.call f ps ks ds site) (.call f' ps' ks' ds' site)
  | switch {e e' : Expr} {cs cs' : List CaseExpr} {d d' : Option Expr}
      (value : ExprLike locals e e') (cases : CasesLike locals cs cs')
      (default : OptionLike locals d d') :
      ExprLike locals (.switch e cs d) (.switch e' cs' d')

inductive PositionalsLike (locals : Nat) : List PositionalExpr → List PositionalExpr → Prop where
  | nil : PositionalsLike locals [] []
  | cons {e e' : Expr} {ps ps' : List PositionalExpr} (value : ExprLike locals e e')
      (expanded : Bool) (rest : PositionalsLike locals ps ps') :
      PositionalsLike locals (⟨e, expanded⟩ :: ps) (⟨e', expanded⟩ :: ps')

inductive KeywordsLike (locals : Nat) : List KeywordExpr → List KeywordExpr → Prop where
  | nil : KeywordsLike locals [] []
  | cons {e e' : Expr} {ks ks' : List KeywordExpr} (name : String) (value : ExprLike locals e e')
      (rest : KeywordsLike locals ks ks') :
      KeywordsLike locals (⟨name, e⟩ :: ks) (⟨name, e'⟩ :: ks')

inductive CasesLike (locals : Nat) : List CaseExpr → List CaseExpr → Prop where
  | nil : CasesLike locals [] []
  | cons {e e' : Expr} {cs cs' : List CaseExpr} (pattern : Key) (result : ExprLike locals e e')
      (rest : CasesLike locals cs cs') :
      CasesLike locals (⟨pattern, e⟩ :: cs) (⟨pattern, e'⟩ :: cs')

inductive ExprsLike (locals : Nat) : List Expr → List Expr → Prop where
  | nil : ExprsLike locals [] []
  | cons {e e' : Expr} {es es' : List Expr} (first : ExprLike locals e e')
      (rest : ExprsLike locals es es') :
      ExprsLike locals (e :: es) (e' :: es')

inductive OptionLike (locals : Nat) : Option Expr → Option Expr → Prop where
  | none : OptionLike locals none none
  | some {e e' : Expr} (like : ExprLike locals e e') : OptionLike locals (some e) (some e')
end

/-- Each binding sees the locals and the bindings before it. -/
inductive BindingsLike : Nat → List Expr → List Expr → Prop where
  | nil {locals : Nat} : BindingsLike locals [] []
  | cons {locals : Nat} {e e' : Expr} {es es' : List Expr} (first : ExprLike M B locals e e')
      (rest : BindingsLike (locals + 1) es es') : BindingsLike locals (e :: es) (e' :: es')

inductive BodyLike (isEffect : Bool) (arity : Nat) : Body → Body → Prop where
  | builtin {b : Builtin} (permitted : M.Permits isEffect b) :
      BodyLike isEffect arity (.builtin b) (.builtin b)
  | code {bindings bindings' : List Expr} {result result' : Expr}
      (binds : BindingsLike M B arity bindings bindings')
      (results : ExprLike M B (arity + bindings.length) result result') :
      BodyLike isEffect arity (.code bindings result) (.code bindings' result')
  | parameter (i : Nat) : BodyLike isEffect arity (.parameter i) (.parameter i)
  | parameters : BodyLike isEffect arity .parameters .parameters

structure FunctionLike (f f' : Function) : Prop where
  name : f.name = f'.name
  signature : SignatureLike (DefaultLike B) f.signature f'.signature
  body : BodyLike M B f.isEffect f.signature.arity f.body f'.body
  isEffect : f.isEffect = f'.isEffect

inductive NativeLike : Native → Native → Prop where
  | partialCall {f f' ps ps' ks ks' : Ref} (function : B.cells f f') (positionals : B.cells ps ps')
      (keywords : B.cells ks ks') : NativeLike (.partialCall f ps ks) (.partialCall f' ps' ks')
  | fixedPoint {f f' self self' : Ref} (function : B.cells f f') (selves : B.cells self self') :
      NativeLike (.fixedPoint f self) (.fixedPoint f' self')

inductive ValueLike : Value → Value → Prop where
  | bool (b : Bool) : ValueLike (.bool b) (.bool b)
  | number (x : Number) : ValueLike (.number x) (.number x)
  | string (s : String) : ValueLike (.string s) (.string s)
  | list {l l' : LazyList} (lists : LazyListLike B l l') : ValueLike (.list l) (.list l')
  | dict {d d' : Dict Ref} (dicts : DictLike B.cells d d') : ValueLike (.dict d) (.dict d')
  | function {f f' : Function} (functions : FunctionLike M B f f') :
      ValueLike (.function f) (.function f')
  | native {f f' : Native} (natives : NativeLike B f f') : ValueLike (.native f) (.native f')
  | error {e e' : Fault} (faults : FaultLike M e e') : ValueLike (.error e) (.error e')
  | effect {a a' : Ref} (actions : B.actions a a') : ValueLike (.effect a) (.effect a')

structure BranchLike (b b' : Branch) : Prop where
  cases : CasesLike M B b.locals.length b.cases b'.cases
  default : OptionLike M B b.locals.length b.default b'.default
  locals : RefsLike B b.locals b'.locals

inductive SuspensionLike : Suspension → Suspension → Prop where
  | branch {b b' : Branch} {r r' : Ref} (branches : BranchLike M B b b') (matched : B.cells r r') :
      SuspensionLike (.branch b r) (.branch b' r')
  | concat {tail tail' rest rest' : Ref} (tails : B.cells tail tail') (rests : B.cells rest rest') :
      SuspensionLike (.concat tail rest) (.concat tail' rest')
  | entries {es es' : List (Key × Ref)} (entries : EntriesLike B.cells es es') :
      SuspensionLike (.entries es) (.entries es')
  | action {b b' : Body} {ps ps' : List Ref} (hosted : M.hosted)
      (bodies : BodyLike M B true ps.length b b') (parameters : RefsLike B ps ps') :
      SuspensionLike (.action b ps) (.action b' ps')
  | rally {id : Nat} (hosted : M.hosted) : SuspensionLike (.rally id) (.rally id)
  | traced {label : String} {r r' : Ref} (targets : B.cells r r') :
      SuspensionLike (.traced label r) (.traced label r')

inductive TaskLike : Task → Task → Prop where
  | call {f f' : Ref} {a a' : Arguments} (functions : B.cells f f')
      (arguments : ArgumentsLike B a a') : TaskLike (.call f a) (.call f' a')
  | resume {s s' : Suspension} (suspensions : SuspensionLike M B s s') :
      TaskLike (.resume s) (.resume s')

structure WorkLike (w w' : Work) : Prop where
  task : TaskLike M B w.task w'.task
  site : w.site = w'.site

/-- What a bonded cell may hold when it is made. -/
inductive StateLike : CellState → CellState → Prop where
  | vacant (strays : M.strays) : StateLike .vacant .vacant
  | pending {w w' : Work} (works : WorkLike M B w w') : StateLike (.pending w) (.pending w')
  | forced {v v' : Value} (values : ValueLike M B v v') : StateLike (.forced v) (.forced v')

structure CellLike (c c' : Cell) : Prop where
  state : StateLike M B c.state c'.state
  site : c.site = c'.site

inductive OutcomeLike : Outcome → Outcome → Prop where
  | value {v v' : Value} (values : ValueLike M B v v') : OutcomeLike (.value v) (.value v')
  | tail {r r' : Ref} (tails : B.cells r r') : OutcomeLike (.tail r) (.tail r')

end

theorem faultLike_of_cause (M : Manner) (c : Cause) : FaultLike M { cause := c } { cause := c } :=
  ⟨rfl, M.chains_nil⟩

section
variable {M : Manner} {B C : Bond}

theorem RefsLike.mono (grows : B ≤ C) {rs rs' : List Ref} (like : RefsLike B rs rs') :
    RefsLike C rs rs' :=
  List.Forall₂.imp grows.1 like

theorem EntriesLike.imp {κ α β : Type} {p q : α → β → Prop} (weaker : ∀ a b, p a b → q a b)
    {es : List (κ × α)} {es' : List (κ × β)} (like : EntriesLike p es es') : EntriesLike q es es' :=
  List.Forall₂.imp (fun _ _ e => ⟨e.1, weaker _ _ e.2⟩) like

theorem LazyListLike.mono (grows : B ≤ C) {l l' : LazyList} (like : LazyListLike B l l') :
    LazyListLike C l l' := by
  cases like with
  | nil => exact .nil
  | cons heads tails => exact .cons (grows.1 _ _ heads) (grows.1 _ _ tails)

theorem DefaultLike.mono (grows : B ≤ C) {d d' : Default} (like : DefaultLike B d d') :
    DefaultLike C d d' := by
  cases like with
  | literal l => exact .literal l
  | cell cells => exact .cell (grows.1 _ _ cells)

theorem HalfLike.imp {δ δ' : Type} {p q : δ → δ' → Prop} (weaker : ∀ a b, p a b → q a b)
    {h : Half δ} {h' : Half δ'} (like : HalfLike p h h') : HalfLike q h h' :=
  ⟨like.requireds, like.optionals.imp weaker, like.rest⟩

theorem SignatureLike.imp {δ δ' : Type} {p q : δ → δ' → Prop} (weaker : ∀ a b, p a b → q a b)
    {s : Signature δ} {s' : Signature δ'} (like : SignatureLike p s s') : SignatureLike q s s' :=
  ⟨like.positional.imp weaker, like.keyword.imp weaker⟩

theorem ArgumentsLike.mono (grows : B ≤ C) {a a' : Arguments} (like : ArgumentsLike B a a') :
    ArgumentsLike C a a' := by
  obtain ⟨positionals, spread, keywords, dicts⟩ := like
  refine ⟨positionals.mono grows, ?_, keywords.imp grows.1, dicts.mono grows⟩
  generalize a.spread = s, a'.spread = s' at spread ⊢
  cases spread with
  | some cells => exact .some (grows.1 _ _ cells)
  | none => exact .none

mutual
theorem ExprLike.mono (grows : B ≤ C) {n : Nat} {e e' : Expr} :
    ExprLike M B n e e' → ExprLike M C n e e'
  | .literal l => .literal l
  | .predefined like => .predefined like
  | .cell cells => .cell (grows.1 _ _ cells)
  | .local in_scope => .local in_scope
  | .call f ps ks ds site => .call (f.mono grows) (ps.mono grows) (ks.mono grows) (ds.mono grows) site
  | .switch value cases default =>
    .switch (value.mono grows) (cases.mono grows) (default.mono grows)

theorem PositionalsLike.mono (grows : B ≤ C) {n : Nat} {ps ps' : List PositionalExpr} :
    PositionalsLike M B n ps ps' → PositionalsLike M C n ps ps'
  | .nil => .nil
  | .cons value expanded rest => .cons (value.mono grows) expanded (rest.mono grows)

theorem KeywordsLike.mono (grows : B ≤ C) {n : Nat} {ks ks' : List KeywordExpr} :
    KeywordsLike M B n ks ks' → KeywordsLike M C n ks ks'
  | .nil => .nil
  | .cons name value rest => .cons name (value.mono grows) (rest.mono grows)

theorem CasesLike.mono (grows : B ≤ C) {n : Nat} {cs cs' : List CaseExpr} :
    CasesLike M B n cs cs' → CasesLike M C n cs cs'
  | .nil => .nil
  | .cons pattern result rest => .cons pattern (result.mono grows) (rest.mono grows)

theorem ExprsLike.mono (grows : B ≤ C) {n : Nat} {es es' : List Expr} :
    ExprsLike M B n es es' → ExprsLike M C n es es'
  | .nil => .nil
  | .cons first rest => .cons (first.mono grows) (rest.mono grows)

theorem OptionLike.mono (grows : B ≤ C) {n : Nat} {o o' : Option Expr} :
    OptionLike M B n o o' → OptionLike M C n o o'
  | .none => .none
  | .some like => .some (like.mono grows)
end

theorem BindingsLike.mono (grows : B ≤ C) {n : Nat} {es es' : List Expr}
    (like : BindingsLike M B n es es') : BindingsLike M C n es es' := by
  induction like with
  | nil => exact .nil
  | cons first _ ih => exact .cons (first.mono grows) ih

theorem BodyLike.mono (grows : B ≤ C) {isEffect : Bool} {n : Nat} {b b' : Body}
    (like : BodyLike M B isEffect n b b') : BodyLike M C isEffect n b b' := by
  cases like with
  | builtin permitted => exact .builtin permitted
  | code binds results => exact .code (binds.mono grows) (results.mono grows)
  | parameter i => exact .parameter i
  | parameters => exact .parameters

theorem FunctionLike.mono (grows : B ≤ C) {f f' : Function} (like : FunctionLike M B f f') :
    FunctionLike M C f f' :=
  ⟨like.name, like.signature.imp fun _ _ => DefaultLike.mono grows, like.body.mono grows,
    like.isEffect⟩

theorem NativeLike.mono (grows : B ≤ C) {f f' : Native} (like : NativeLike B f f') :
    NativeLike C f f' := by
  cases like with
  | partialCall f ps ks =>
    exact .partialCall (grows.1 _ _ f) (grows.1 _ _ ps) (grows.1 _ _ ks)
  | fixedPoint f self => exact .fixedPoint (grows.1 _ _ f) (grows.1 _ _ self)

theorem ValueLike.mono (grows : B ≤ C) {v v' : Value} (like : ValueLike M B v v') :
    ValueLike M C v v' := by
  cases like with
  | bool b => exact .bool b
  | number x => exact .number x
  | string s => exact .string s
  | list lists => exact .list (lists.mono grows)
  | dict dicts => exact .dict (EntriesLike.imp grows.1 dicts)
  | function functions => exact .function (functions.mono grows)
  | native natives => exact .native (natives.mono grows)
  | error faults => exact .error faults
  | effect actions => exact .effect (grows.2 _ _ actions)

theorem BranchLike.mono (grows : B ≤ C) {b b' : Branch} (like : BranchLike M B b b') :
    BranchLike M C b b' :=
  ⟨like.cases.mono grows, like.default.mono grows, like.locals.mono grows⟩

theorem SuspensionLike.mono (grows : B ≤ C) {s s' : Suspension} (like : SuspensionLike M B s s') :
    SuspensionLike M C s s' := by
  cases like with
  | branch branches matched => exact .branch (branches.mono grows) (grows.1 _ _ matched)
  | concat tails rests => exact .concat (grows.1 _ _ tails) (grows.1 _ _ rests)
  | entries entries => exact .entries (entries.imp grows.1)
  | action hosted bodies parameters =>
    exact .action hosted (bodies.mono grows) (parameters.mono grows)
  | rally hosted => exact .rally hosted
  | traced targets => exact .traced (grows.1 _ _ targets)

theorem WorkLike.mono (grows : B ≤ C) {w w' : Work} (like : WorkLike M B w w') :
    WorkLike M C w w' := by
  obtain ⟨task, site⟩ := like
  refine ⟨?_, site⟩
  generalize w.task = t, w'.task = t' at task ⊢
  cases task with
  | call functions arguments => exact .call (grows.1 _ _ functions) (arguments.mono grows)
  | resume suspensions => exact .resume (suspensions.mono grows)

theorem StateLike.mono (grows : B ≤ C) {s s' : CellState} (like : StateLike M B s s') :
    StateLike M C s s' := by
  cases like with
  | vacant strays => exact .vacant strays
  | pending works => exact .pending (works.mono grows)
  | forced values => exact .forced (values.mono grows)

end
end CallByNeed
