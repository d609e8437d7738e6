import CallByNeed.Proofs.Inlining.Blind
import CallByNeed.Proofs.Inlining.Making
import CallByNeed.Proofs.Likeness.Peers
import CallByNeed.Proofs.Likeness.Task

/- Cells that are alike but for bindings. A body tells what it is without its bindings, and a branch
   that waits in a cell tells what becomes of it when the code that its locals stand for is put
   in their place. Kin are cells that tell the like, and so do the cells they mention. -/
namespace CallByNeed

def Body.inlined (arity : Nat) : Body → Body
  | .code bindings result => .code [] (Expr.inlined arity bindings result)
  | b => b

def Body.InScope (arity : Nat) : Body → Prop
  | .code bindings result =>
    bindingsInScope arity bindings ∧ result.InScope (arity + bindings.length)
  | _ => True

def Function.inlined (f : Function) : Function :=
  { f with body := f.body.inlined f.signature.arity }

/-- The value without bindings, if it is a function. -/
def Value.inlined : Value → Value
  | .function f => .function f.inlined
  | v => v

def Value.InScope : Value → Prop
  | .function f => f.body.InScope f.signature.arity
  | _ => True

/-- The branch without locals. -/
def Branch.closed (σ : List Expr) (b : Branch) : Branch where
  cases := Expr.substCases σ b.cases
  default := Expr.substOption σ b.default
  locals := []

/-- No code is in the task itself. -/
def Task.Plain : Task → Prop
  | .resume (.branch _ _) | .resume (.action _ _) => False
  | _ => True

/-- What a cell tells. -/
inductive Heap.Tells (g : Heap) (r : Ref) : CellState → Prop where
  | forced {v : Value} (state : g.state? r = some (.forced v)) (in_scope : v.InScope) :
      Tells g r (.forced v.inlined)
  | redirect {t : Ref} (state : g.state? r = some (.redirect t)) : Tells g r (.redirect t)
  | pending {w : Work} (state : g.state? r = some (.pending w)) (plain : w.task.Plain) :
      Tells g r (.pending w)
  | branch {b : Branch} {matched : Ref} {site : Option Location} {σ : List Expr}
      (state : g.state? r = some (.pending { task := .resume (.branch b matched), site }))
      (locals : g.EmbodiesAll σ b.locals) (fits : b.Fits) :
      Tells g r (.pending { task := .resume (.branch (b.closed σ) matched), site })
  | action {b : Body} {ps : List Ref} {site : Option Location}
      (state : g.state? r = some (.pending { task := .resume (.action b ps), site }))
      (in_scope : b.InScope ps.length) :
      Tells g r (.pending { task := .resume (.action (b.inlined ps.length) ps), site })

/-- Bonded cells tell the like. -/
structure Bond.Suits (B : Bond) (g g' : Heap) : Prop where
  cells : ∀ r r', B.cells r r' → ∃ c c', g.Tells r c ∧ g'.Tells r' c' ∧ OriginLike B c c'
  actions : ∀ r r', B.actions r r' → ∃ c c', g.Tells r c ∧ g'.Tells r' c' ∧ EffectLike B c c'

/-- All the cells that tell the like. -/
def Heap.kin (g g' : Heap) : Bond where
  cells := fun r r' => ∃ B : Bond, B.Suits g g' ∧ B.cells r r'
  actions := fun r r' => ∃ B : Bond, B.Suits g g' ∧ B.actions r r'

/-- Values that are alike without the bindings of functions. -/
structure Value.Kin (B : Bond) (v v' : Value) : Prop where
  left : v.InScope
  right : v'.InScope
  values : ValueLike .quiet B v.inlined v'.inlined

theorem Manner.quiet_reverses : Manner.quiet.Reverses := fun _ _ _ => trivial

theorem Manner.quiet_tidy : ¬ Manner.quiet.strays := id

/-! ### Scope and likeness -/

section
variable {M : Manner} {B C : Bond} {n : Nat}

mutual
theorem ExprLike.inScope (tidy : ¬ M.strays) {e e' : Expr} : ExprLike M B n e e' → e.InScope n
  | .literal _ => trivial
  | .predefined _ => trivial
  | .cell _ => trivial
  | .local in_scope => in_scope.resolve_right tidy
  | .call f ps ks ds _ => ⟨f.inScope tidy, ps.inScope tidy, ks.inScope tidy, ds.inScope tidy⟩
  | .switch value cases .none => ⟨value.inScope tidy, cases.inScope tidy⟩
  | .switch value cases (.some like) =>
    ⟨value.inScope tidy, cases.inScope tidy, like.inScope tidy⟩

theorem PositionalsLike.inScope (tidy : ¬ M.strays) {ps ps' : List PositionalExpr} :
    PositionalsLike M B n ps ps' → positionalsInScope n ps
  | .nil => trivial
  | .cons value _ rest => ⟨value.inScope tidy, rest.inScope tidy⟩

theorem KeywordsLike.inScope (tidy : ¬ M.strays) {ks ks' : List KeywordExpr} :
    KeywordsLike M B n ks ks' → keywordsInScope n ks
  | .nil => trivial
  | .cons _ value rest => ⟨value.inScope tidy, rest.inScope tidy⟩

theorem CasesLike.inScope (tidy : ¬ M.strays) {cs cs' : List CaseExpr} :
    CasesLike M B n cs cs' → casesInScope n cs
  | .nil => trivial
  | .cons _ result rest => ⟨result.inScope tidy, rest.inScope tidy⟩

theorem ExprsLike.inScope (tidy : ¬ M.strays) {es es' : List Expr} :
    ExprsLike M B n es es' → exprsInScope n es
  | .nil => trivial
  | .cons first rest => ⟨first.inScope tidy, rest.inScope tidy⟩
end

theorem BindingsLike.inScope (tidy : ¬ M.strays) {es es' : List Expr}
    (like : BindingsLike M B n es es') : bindingsInScope n es := by
  induction like with
  | nil => trivial
  | cons first _ ih => exact ⟨first.inScope tidy, ih⟩

theorem BodyLike.inScope (tidy : ¬ M.strays) {isEffect : Bool} {b b' : Body}
    (like : BodyLike M B isEffect n b b') : b.InScope n := by
  cases like with
  | code binds results => exact ⟨binds.inScope tidy, results.inScope tidy⟩
  | _ => trivial

theorem ValueLike.inScope (tidy : ¬ M.strays) {v v' : Value} (like : ValueLike M B v v') :
    v.InScope := by
  cases like with
  | function functions => exact functions.body.inScope tidy
  | _ => trivial

theorem BranchLike.fits (tidy : ¬ M.strays) {b b' : Branch} (like : BranchLike M B b b') :
    b.Fits := by
  refine ⟨like.cases.inScope tidy, fun e chosen => ?_⟩
  have default := like.default
  rw [chosen] at default
  generalize b'.default = d at default
  cases default with
  | some like => exact like.inScope tidy

theorem BodyLike.inlined (tidy : ¬ M.strays) {isEffect : Bool} {b b' : Body}
    (like : BodyLike M B isEffect n b b') :
    BodyLike M B isEffect n (b.inlined n) (b'.inlined n) := by
  cases like with
  | builtin permitted => exact .builtin permitted
  | code binds results => exact .code .nil (ExprLike.inlined tidy binds results)
  | parameter i => exact .parameter i
  | parameters => exact .parameters

theorem FunctionLike.inlined (tidy : ¬ M.strays) {f f' : Function} (like : FunctionLike M B f f') :
    FunctionLike M B f.inlined f'.inlined := by
  refine ⟨like.name, like.signature, ?_, like.isEffect⟩
  have bodies := like.body.inlined tidy
  simp only [Function.inlined, ← like.signature.arity_eq]
  exact bodies

theorem ValueLike.inlined (tidy : ¬ M.strays) {v v' : Value} (like : ValueLike M B v v') :
    ValueLike M B v.inlined v'.inlined := by
  cases like with
  | function functions => exact .function (functions.inlined tidy)
  | _ => constructor <;> assumption

/-- Like locals stand for like code: for themselves. -/
theorem BranchLike.closed (tidy : ¬ M.strays) {b b' : Branch} (like : BranchLike M B b b') :
    BranchLike M B (b.closed (b.locals.map .cell)) (b'.closed (b'.locals.map .cell)) := by
  have each : List.Forall₂ (ExprLike M B 0) (b.locals.map .cell) (b'.locals.map .cell) := by
    rw [List.forall₂_map_left_iff, List.forall₂_map_right_iff]
    exact like.locals.imp fun _ _ => .cell
  exact ⟨like.cases.subst tidy each (by simp), like.default.subst tidy each (by simp), .nil⟩

end

section
variable {B C : Bond} {g g' a a' : Heap} {c c' : CellState} {r r' : Ref} {v v' u u' : Value}

theorem ValueLike.kin (values : ValueLike .quiet B v v') : v.Kin B v' :=
  ⟨values.inScope Manner.quiet_tidy,
    (values.flip Manner.quiet_reverses).inScope Manner.quiet_tidy,
    values.inlined Manner.quiet_tidy⟩

namespace Value

@[simp]
theorem bare_inlined (v : Value) : v.inlined.bare = v.bare := by cases v <;> rfl

@[simp]
theorem type_inlined (v : Value) : v.inlined.type = v.type := by cases v <;> rfl

theorem Kin.mono (grows : B ≤ C) (kin : v.Kin B v') : v.Kin C v' :=
  ⟨kin.left, kin.right, kin.values.mono grows⟩

theorem Kin.flip (kin : v.Kin B v') : v'.Kin B.flip v :=
  ⟨kin.right, kin.left, kin.values.flip Manner.quiet_reverses⟩

theorem Resembles.inlined (resembles : v.Resembles u) : v.inlined.Resembles u.inlined := by
  cases resembles with
  | same => exact .same _
  | error cause => exact .error cause

theorem Resembles.inScope (resembles : v.Resembles u) (in_scope : v.InScope) : u.InScope := by
  cases resembles with
  | same => exact in_scope
  | error cause => trivial

theorem Kin.resembling (kin : v.Kin B v') (left : v.Resembles u) (right : v'.Resembles u') :
    u.Kin B u' :=
  ⟨left.inScope kin.left, right.inScope kin.right,
    kin.values.resembling left.inlined right.inlined⟩

end Value

theorem Demand.reply_inlined {how : Demand} {site : Option Location}
    (reply : how.reply site v = .resume u) : how.reply site v.inlined = .resume u.inlined := by
  cases how <;> cases v <;> cases reply <;> rfl

theorem Demand.pure_reply_inScope {site : Option Location}
    (reply : Demand.pure.reply site v = .resume u) (in_scope : v.InScope) : u.InScope := by
  cases v <;> cases reply <;> exact in_scope

/-- Demanding kin is answered with kin. -/
theorem Value.Kin.reply {site site' : Option Location} (kin : v.Kin B v')
    (left : Demand.pure.reply site v = .resume u)
    (right : Demand.pure.reply site' v' = .resume u') : u.Kin B u' :=
  ⟨Demand.pure_reply_inScope left kin.left, Demand.pure_reply_inScope right kin.right,
    kin.values.reply (Demand.reply_inlined left) (Demand.reply_inlined right)⟩

/-! ### Kin -/

theorem OriginLike.flip (like : OriginLike B c c') : OriginLike B.flip c' c := by
  cases like with
  | made states => exact .made (states.flip Manner.quiet_reverses)
  | redirect targets => exact .redirect targets

theorem EffectLike.flip (like : EffectLike B c c') : EffectLike B.flip c' c := by
  cases like with
  | made bodies parameters =>
    have count : _ = _ := parameters.length_eq
    exact .made (count ▸ bodies.flip) parameters.flip

namespace Heap

theorem Tells.mono (grows : g.Grows a) (tells : g.Tells r c) : a.Tells r c := by
  cases tells with
  | forced state in_scope => exact .forced (grows _ _ state (by simp)) in_scope
  | redirect state => exact .redirect (grows _ _ state (by simp))
  | pending state plain => exact .pending (grows _ _ state (by simp)) plain
  | branch state locals fits =>
    exact .branch (grows _ _ state (by simp)) (locals.mono grows) fits
  | action state in_scope => exact .action (grows _ _ state (by simp)) in_scope

/-- Cells that hold the like tell the like. -/
theorem tells_of_like (state : g.state? r = some c) (state' : g'.state? r' = some c')
    (like : StateLike .quiet B c c') :
    ∃ d d', g.Tells r d ∧ g'.Tells r' d' ∧ StateLike .quiet B d d' := by
  cases like with
  | vacant strays => exact strays.elim
  | forced values =>
    have kin := values.kin
    exact ⟨_, _, .forced state kin.left, .forced state' kin.right, .forced kin.values⟩
  | @pending w w' works =>
    obtain ⟨task, site⟩ := w
    obtain ⟨task', site'⟩ := w'
    obtain ⟨tasks, same⟩ := works
    cases tasks with
    | call functions arguments =>
      exact ⟨_, _, .pending state trivial, .pending state' trivial,
        .pending ⟨.call functions arguments, same⟩⟩
    | resume suspensions =>
      cases suspensions with
      | branch branches matched =>
        exact ⟨_, _, .branch state (embodiesAll_cells g _) (branches.fits Manner.quiet_tidy),
          .branch state' (embodiesAll_cells g' _) (branches.flip.fits Manner.quiet_tidy),
          .pending ⟨.resume (.branch (branches.closed Manner.quiet_tidy) matched), same⟩⟩
      | concat tails rests =>
        exact ⟨_, _, .pending state trivial, .pending state' trivial,
          .pending ⟨.resume (.concat tails rests), same⟩⟩
      | entries entries =>
        exact ⟨_, _, .pending state trivial, .pending state' trivial,
          .pending ⟨.resume (.entries entries), same⟩⟩
      | action hosted => exact hosted.elim
      | rally hosted => exact hosted.elim
      | traced targets =>
        exact ⟨_, _, .pending state trivial, .pending state' trivial,
          .pending ⟨.resume (.traced targets), same⟩⟩

/-- Effects that were made alike tell the like. -/
theorem tells_of_effects (state : g.state? r = some c) (state' : g'.state? r' = some c')
    (like : EffectLike B c c') :
    ∃ d d', g.Tells r d ∧ g'.Tells r' d' ∧ EffectLike B d d' := by
  cases like with
  | made bodies parameters =>
    have count : _ = _ := parameters.length_eq
    have others := bodies.inlined Manner.quiet_tidy
    refine ⟨_, _, .action state (bodies.inScope Manner.quiet_tidy), .action state' ?_,
      .made (count ▸ others) parameters⟩
    exact count ▸ bodies.flip.inScope Manner.quiet_tidy

theorem le_kin (suits : B.Suits g g') : B ≤ g.kin g' :=
  ⟨fun _ _ cells => ⟨B, suits, cells⟩, fun _ _ actions => ⟨B, suits, actions⟩⟩

theorem kin_suits (g g' : Heap) : (g.kin g').Suits g g' := by
  constructor
  · rintro r r' ⟨B, suits, cells⟩
    obtain ⟨c, c', tells, tells', like⟩ := suits.cells r r' cells
    exact ⟨c, c', tells, tells', like.mono (le_kin suits)⟩
  · rintro r r' ⟨B, suits, actions⟩
    obtain ⟨c, c', tells, tells', like⟩ := suits.actions r r' actions
    exact ⟨c, c', tells, tells', like.mono (le_kin suits)⟩

theorem kin_mono (left : g.Grows a) (right : g'.Grows a') : g.kin g' ≤ a.kin a' := by
  refine le_kin ⟨fun r r' cells => ?_, fun r r' actions => ?_⟩
  · obtain ⟨c, c', tells, tells', like⟩ := (kin_suits g g').cells r r' cells
    exact ⟨c, c', tells.mono left, tells'.mono right, like⟩
  · obtain ⟨c, c', tells, tells', like⟩ := (kin_suits g g').actions r r' actions
    exact ⟨c, c', tells.mono left, tells'.mono right, like⟩

theorem kin_flip (g g' : Heap) : (g.kin g').flip ≤ g'.kin g := by
  refine le_kin ⟨fun r' r cells => ?_, fun r' r actions => ?_⟩
  · obtain ⟨c, c', tells, tells', like⟩ := (kin_suits g g').cells r r' cells
    exact ⟨c', c, tells', tells, like.flip⟩
  · obtain ⟨c, c', tells, tells', like⟩ := (kin_suits g g').actions r r' actions
    exact ⟨c', c, tells', tells, like.flip⟩

/-- What kin hold. -/
inductive Kindred (g g' : Heap) (r r' : Ref) : Prop where
  | forced {v v' : Value} (left : g.state? r = some (.forced v))
      (right : g'.state? r' = some (.forced v')) (kin : v.Kin (g.kin g') v')
  | redirect {t t' : Ref} (left : g.state? r = some (.redirect t))
      (right : g'.state? r' = some (.redirect t')) (targets : (g.kin g').cells t t')
  | call {f f' : Ref} {x y : Arguments} {site : Option Location}
      (left : g.state? r = some (.pending { task := .call f x, site }))
      (right : g'.state? r' = some (.pending { task := .call f' y, site }))
      (functions : (g.kin g').cells f f') (arguments : ArgumentsLike (g.kin g') x y)
  | suspension {s s' : Suspension} {site : Option Location}
      (left : g.state? r = some (.pending { task := .resume s, site }))
      (right : g'.state? r' = some (.pending { task := .resume s', site }))
      (plain : (Task.resume s).Plain)
      (suspensions : SuspensionLike .quiet (g.kin g') s s')
  | branch {b b' : Branch} {m m' : Ref} {σ σ' : List Expr} {site : Option Location}
      (left : g.state? r = some (.pending { task := .resume (.branch b m), site }))
      (right : g'.state? r' = some (.pending { task := .resume (.branch b' m'), site }))
      (locals : g.EmbodiesAll σ b.locals) (locals' : g'.EmbodiesAll σ' b'.locals) (fits : b.Fits)
      (fits' : b'.Fits) (branches : BranchLike .quiet (g.kin g') (b.closed σ) (b'.closed σ'))
      (matched : (g.kin g').cells m m')

theorem kindred (cells : (g.kin g').cells r r') : g.Kindred g' r r' := by
  obtain ⟨c, c', tells, tells', like⟩ := (kin_suits g g').cells r r' cells
  cases like with
  | redirect targets =>
    cases tells with
    | redirect state =>
      cases tells' with
      | redirect state' => exact .redirect state state' targets
  | made states =>
    cases states with
    | vacant strays => exact strays.elim
    | forced values =>
      cases tells with
      | forced state in_scope =>
        cases tells' with
        | forced state' in_scope' => exact .forced state state' ⟨in_scope, in_scope', values⟩
    | @pending w w' works =>
      obtain ⟨task, site⟩ := w
      obtain ⟨task', site'⟩ := w'
      obtain ⟨tasks, same⟩ := works
      cases same
      cases tasks with
      | call functions arguments =>
        cases tells with
        | pending state =>
          cases tells' with
          | pending state' => exact .call state state' functions arguments
      | resume suspensions =>
        cases tells with
        | pending state plain =>
          cases tells' with
          | pending state' => exact .suspension state state' plain suspensions
          | branch =>
            cases suspensions with
            | branch => exact plain.elim
          | action =>
            cases suspensions with
            | action hosted => exact hosted.elim
        | branch state locals fits =>
          cases suspensions with
          | branch branches matched =>
            cases tells' with
            | pending _ plain => exact plain.elim
            | branch state' locals' fits' =>
              exact .branch state state' locals locals' fits fits' branches matched
        | action =>
          cases suspensions with
          | action hosted => exact hosted.elim

/-- Pairs of cells are kin if they tell the like, given that they are. -/
theorem kin_of_pairs {pairs : List (Ref × Ref)}
    (each : ∀ p ∈ pairs, ∃ c c', g.Tells p.1 c ∧ g'.Tells p.2 c' ∧
      OriginLike ((g.kin g').add pairs) c c') :
    ∀ p ∈ pairs, (g.kin g').cells p.1 p.2 := by
  have suits : ((g.kin g').add pairs).Suits g g' := by
    constructor
    · rintro r r' (old | new)
      · obtain ⟨c, c', tells, tells', like⟩ := (kin_suits g g').cells r r' old
        exact ⟨c, c', tells, tells', like.mono (Bond.le_add _ _)⟩
      · exact each (r, r') new
    · intro r r' actions
      obtain ⟨c, c', tells, tells', like⟩ := (kin_suits g g').actions r r' actions
      exact ⟨c, c', tells, tells', like.mono (Bond.le_add _ _)⟩
  exact fun p mem => (le_kin suits).1 _ _ (.inr mem)

theorem kin_of_tells (tells : g.Tells r c) (tells' : g'.Tells r' c')
    (like : StateLike .quiet (g.kin g') c c') : (g.kin g').cells r r' := by
  suffices each : ∀ p ∈ [(r, r')], (g.kin g').cells p.1 p.2 from each _ (List.mem_singleton_self _)
  refine kin_of_pairs fun p mem => ?_
  obtain rfl := List.mem_singleton.1 mem
  exact ⟨c, c', tells, tells', .made (like.mono (Bond.le_add _ _))⟩

theorem kin_of_like (state : g.state? r = some c) (state' : g'.state? r' = some c')
    (like : StateLike .quiet (g.kin g') c c') : (g.kin g').cells r r' := by
  obtain ⟨d, d', tells, tells', states⟩ := tells_of_like state state' like
  exact kin_of_tells tells tells' states

/-- Effects that tell the like among kin are kin. -/
theorem kin_of_told_effects (tells : g.Tells r c) (tells' : g'.Tells r' c')
    (like : EffectLike (g.kin g') c c') : (g.kin g').actions r r' := by
  let B : Bond :=
    { g.kin g' with actions := fun q q' => (g.kin g').actions q q' ∨ q = r ∧ q' = r' }
  have grows : g.kin g' ≤ B := ⟨fun _ _ => id, fun _ _ => .inl⟩
  have suits : B.Suits g g' := by
    constructor
    · intro q q' cells
      obtain ⟨d, d', told, told', like⟩ := (kin_suits g g').cells q q' cells
      exact ⟨d, d', told, told', like.mono grows⟩
    · rintro q q' (old | ⟨rfl, rfl⟩)
      · obtain ⟨d, d', told, told', like⟩ := (kin_suits g g').actions q q' old
        exact ⟨d, d', told, told', like.mono grows⟩
      · exact ⟨c, c', tells, tells', like.mono grows⟩
  exact (le_kin suits).2 r r' (.inr ⟨rfl, rfl⟩)

theorem kin_of_effects (state : g.state? r = some c) (state' : g'.state? r' = some c')
    (like : EffectLike (g.kin g') c c') : (g.kin g').actions r r' := by
  obtain ⟨d, d', tells, tells', effects⟩ := tells_of_effects state state' like
  exact kin_of_told_effects tells tells' effects

/-- Like scripts that make cells come to what is like among kin. -/
theorem Mints.agree {α β : Type} {post : α → β → Prop} {s : Script α} {s' : Script β} {x : α}
    {y : β} (alike : Alike .quiet (g.kin g') post s s') (mints : g.Mints s x)
    (mints' : g'.Mints s' y) : post x y := by
  induction mints generalizing s' y with
  | done x =>
    cases alike with
    | done results =>
      cases mints'
      cases results.2 with
      | ok results => exact results
  | alloc state full _ ih =>
    cases alike with
    | alloc made rest =>
      cases mints' with
      | alloc state' full' rest' => exact ih (rest _ _ (kin_of_like state state' made.state)) rest'
    | action bodies parameters rest =>
      cases mints' with
      | alloc state' full' rest' =>
        exact ih (rest _ _ (kin_of_effects state state' (.made bodies parameters))) rest'
    | vacant rest => exact absurd rfl full

end Heap

mutual
/-- What stands for like code is kin. -/
theorem ExprLike.kin : ∀ {e e' : Expr} {r r' : Ref}, ExprLike .quiet (g.kin g') 0 e e' →
    g.Embodies e r → g'.Embodies e' r' → (g.kin g').cells r r'
  | _, _, _, _, .literal l, .literal state, .literal state' =>
    Heap.kin_of_like state state' (.forced l.like_value)
  | _, _, _, _, .predefined like, .predefined state, .predefined state' =>
    Heap.kin_of_like state state' (.forced like.value)
  | _, _, _, _, .cell cells, .cell _, .cell _ => cells
  | _, _, _, _, .call f ps ks ds _, .call called positionals named spread arguments state,
    .call called' positionals' named' spread' arguments' state' => by
    have functions := f.kin called called'
    have places := ps.kin positionals positionals'
    have keywords := ks.kin named named'
    have dicts := ds.kin spread spread'
    have like := arguments.agree (Arguments.alike_ofCall places keywords dicts) arguments'
    exact Heap.kin_of_like state state' (.pending ⟨.call functions like, rfl⟩)
  | _, _, _, _, .switch e cs d, .switch value locals fits here default state,
    .switch value' locals' fits' there default' state' => by
    subst here default there default'
    have matched := e.kin value value'
    exact Heap.kin_of_tells (.branch state locals fits) (.branch state' locals' fits')
      (.pending ⟨.resume (.branch ⟨cs, d, .nil⟩ matched), rfl⟩)

theorem PositionalsLike.kin : ∀ {ps ps' : List PositionalExpr} {places places' : List (Ref × Bool)},
    PositionalsLike .quiet (g.kin g') 0 ps ps' → g.EmbodiesPositionals ps places →
      g'.EmbodiesPositionals ps' places' → PlacesLike (g.kin g') places places'
  | _, _, _, _, .nil, .nil, .nil => .nil
  | _, _, _, _, .cons e _ ps, .cons value _ rest, .cons value' _ rest' =>
    .cons ⟨e.kin value value', rfl⟩ (ps.kin rest rest')

theorem KeywordsLike.kin : ∀ {ks ks' : List KeywordExpr} {keywords keywords' : List (String × Ref)},
    KeywordsLike .quiet (g.kin g') 0 ks ks' → g.EmbodiesKeywords ks keywords →
      g'.EmbodiesKeywords ks' keywords' → EntriesLike (g.kin g').cells keywords keywords'
  | _, _, _, _, .nil, .nil, .nil => .nil
  | _, _, _, _, .cons _ e ks, .cons _ value rest, .cons _ value' rest' =>
    .cons ⟨rfl, e.kin value value'⟩ (ks.kin rest rest')

theorem ExprsLike.kin : ∀ {es es' : List Expr} {rs rs' : List Ref},
    ExprsLike .quiet (g.kin g') 0 es es' → g.EmbodiesAll es rs → g'.EmbodiesAll es' rs' →
      RefsLike (g.kin g') rs rs'
  | _, _, _, _, .nil, .nil, .nil => .nil
  | _, _, _, _, .cons e es, .cons first rest, .cons first' rest' =>
    .cons (e.kin first first') (es.kin rest rest')
end

end
end CallByNeed
