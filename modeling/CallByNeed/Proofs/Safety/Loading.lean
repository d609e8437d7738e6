import CallByNeed.Proofs.Safety.Threads

/- Loading makes cells, and then fills one handle for each definition; it does nothing else to the
   heap, so it takes no work. What it leaves fits: the resolver lets no expression name a local that
   it does not have. -/
namespace CallByNeed

section
variable {M : Manner} {B : Bond}

mutual
theorem ExprLike.in_scope (tidy : ¬ M.strays) {n : Nat} {e e' : Expr} :
    ExprLike M B n e e' → e.InScope n
  | .literal _ => trivial
  | .predefined _ => trivial
  | .cell _ => trivial
  | .local in_scope => in_scope.resolve_right tidy
  | .call function positionals keywords dicts _ =>
    ⟨function.in_scope tidy, positionals.in_scope tidy, keywords.in_scope tidy,
      dicts.in_scope tidy⟩
  | .switch value cases .none => ⟨value.in_scope tidy, cases.in_scope tidy⟩
  | .switch value cases (.some default) =>
    ⟨value.in_scope tidy, cases.in_scope tidy, default.in_scope tidy⟩

theorem PositionalsLike.in_scope (tidy : ¬ M.strays) {n : Nat} {ps ps' : List PositionalExpr} :
    PositionalsLike M B n ps ps' → positionalsInScope n ps
  | .nil => trivial
  | .cons value _ rest => ⟨value.in_scope tidy, rest.in_scope tidy⟩

theorem KeywordsLike.in_scope (tidy : ¬ M.strays) {n : Nat} {ks ks' : List KeywordExpr} :
    KeywordsLike M B n ks ks' → keywordsInScope n ks
  | .nil => trivial
  | .cons _ value rest => ⟨value.in_scope tidy, rest.in_scope tidy⟩

theorem CasesLike.in_scope (tidy : ¬ M.strays) {n : Nat} {cs cs' : List CaseExpr} :
    CasesLike M B n cs cs' → casesInScope n cs
  | .nil => trivial
  | .cons _ result rest => ⟨result.in_scope tidy, rest.in_scope tidy⟩

theorem ExprsLike.in_scope (tidy : ¬ M.strays) {n : Nat} {es es' : List Expr} :
    ExprsLike M B n es es' → exprsInScope n es
  | .nil => trivial
  | .cons first rest => ⟨first.in_scope tidy, rest.in_scope tidy⟩
end

theorem BindingsLike.in_scope (tidy : ¬ M.strays) {n : Nat} {es es' : List Expr}
    (like : BindingsLike M B n es es') : bindingsInScope n es := by
  induction like with
  | nil => trivial
  | cons first _ ih => exact ⟨first.in_scope tidy, ih⟩

end

/-- Defaults see no locals. -/
def Half.InScope (h : Half Expr) : Prop := ∀ o ∈ h.optionals, o.2.InScope 0

/-- Each part of a definition names only locals that it is given. -/
def Meaning.InScope : Meaning → Prop
  | .variable value => value.InScope 0
  | .function _ signature bindings result =>
    signature.positional.InScope ∧ signature.keyword.InScope ∧
      bindingsInScope signature.arity bindings ∧
      result.InScope (signature.arity + bindings.length)

theorem HalfLike.in_scope {B : Bond} {h : Half Expr} (like : HalfLike (ExprLike .loaded B 0) h h) :
    h.InScope :=
  fun o mem => (List.forall₂_same.1 like.optionals o mem).2.in_scope not_false

theorem MeaningLike.in_scope {B : Bond} {m : Meaning} (like : MeaningLike .loaded B m m) :
    m.InScope := by
  cases like with
  | «variable» value => exact value.in_scope not_false
  | function name signature binds result =>
    exact ⟨signature.positional.in_scope, signature.keyword.in_scope, binds.in_scope not_false,
      result.in_scope not_false⟩

namespace Heap

/-- All that may be done to a heap until a program is loaded: cells are made, and vacant handles are
    filled, these and no others in this order. -/
inductive Loads : Heap → List Ref → Heap → Prop where
  | done {h : Heap} : Loads h [] h
  | alloc {h h' : Heap} {filled : List Ref} (c : Cell) (rest : Loads (h.alloc c).2 filled h') :
      Loads h filled h'
  | fill {h h' : Heap} {handle target : Ref} {filled : List Ref}
      (vacant : h.state? handle = some .vacant)
      (rest : Loads (h.setState handle (.redirect target)) filled h') :
      Loads h (handle :: filled) h'

theorem Loads.trans {h h' h'' : Heap} {filled filled' : List Ref} (first : Loads h filled h')
    (rest : Loads h' filled' h'') : Loads h (filled ++ filled') h'' := by
  induction first with
  | done => exact rest
  | alloc c _ ih => exact .alloc c (ih rest)
  | fill vacant _ ih => exact .fill vacant (ih rest)

theorem loads_of_built {α : Type} {s : Script α} {h h' : Heap} {a : α}
    (built : s.built h = some (a, h')) : Loads h [] h' := by
  induction s generalizing h with
  | done b =>
    cases built
    exact .done
  | act action next ih =>
    cases action with
    | alloc c =>
      simp only [Script.built] at built
      split at built
      · cases built
      · exact .alloc c (ih _ built)
    | _ => cases built
  | _ => cases built

theorem loads_of_allocHandles (names : List String) (h : Heap) :
    Loads h [] ((Program.allocHandles names : StateM Heap Handles).run h).2 := by
  induction names generalizing h with
  | nil => exact .done
  | cons name names ih =>
    refine .alloc .vacant ?_
    unfold Program.allocHandles
    rw [List.mapM_cons]
    exact ih (h.alloc .vacant).2

theorem loads_of_fillAll {handles targets : List Ref} {h : Heap} (nodup : handles.Nodup)
    (count : handles.length = targets.length) (vacant : ∀ r ∈ handles, h.state? r = some .vacant) :
    Loads h handles (Program.fillAll handles targets h) := by
  induction handles generalizing targets h with
  | nil => exact .done
  | cons handle handles ih =>
    cases targets with
    | nil => cases count
    | cons target targets =>
      have first := vacant handle (List.mem_cons_self ..)
      obtain ⟨apart, nodup⟩ := List.nodup_cons.1 nodup
      have filled : (h.fill handle target).2 = h.setState handle (.redirect target) := by
        simp [fill, first]
      rw [Program.fillAll, filled]
      refine .fill first (ih nodup (by simpa using count) fun r mem => ?_)
      rw [state?_setState_ne (by rintro rfl; exact apart mem)]
      exact vacant r (List.mem_cons_of_mem _ mem)

/-- Code that fits, and no work of an effect anywhere. -/
structure Plain (h : Heap) : Prop where
  fits : h.Fits
  calm : ∀ r w, h.state? r = some (.pending w) → ¬ w.Performs

theorem Plain.alloc {h : Heap} (plain : h.Plain) {c : Cell} (fits : c.state.Fits)
    (calm : c.isAction = false) : (h.alloc c).2.Plain := by
  refine ⟨plain.fits.alloc fits, fun r w pending => ?_⟩
  rw [state?_alloc] at pending
  split at pending
  · have work : c.state = .pending w := Option.some.inj pending
    rintro ⟨body, parameters, task⟩
    obtain ⟨_, site⟩ := w
    subst task
    simp [Cell.isAction, work] at calm
  · exact plain.calm r w pending

theorem Plain.fillAll {h : Heap} (plain : h.Plain) (handles targets : List Ref) :
    (Program.fillAll handles targets h).Plain := by
  induction handles generalizing targets h with
  | nil => simpa [Program.fillAll] using plain
  | cons handle handles ih =>
    cases targets with
    | nil => simpa [Program.fillAll] using plain
    | cons target targets =>
      rw [Program.fillAll]
      refine ih ?_ targets
      unfold fill
      split
      · refine ⟨plain.fits.setState handle trivial, fun r w pending => ?_⟩
        by_cases same : r = handle
        · subst same
          rw [state?_setState, if_pos rfl] at pending
          obtain ⟨_, _, never⟩ := Option.map_eq_some_iff.1 pending
          cases never
        · rw [state?_setState_ne same] at pending
          exact plain.calm r w pending
      · exact plain

end Heap

theorem Cell.not_isAction_of_built {α : Type} {c : Cell} {next : Ref → Script α} {h h' : Heap} {a : α}
    (built : (Script.act (.alloc c) next).built h = some (a, h')) :
    c.isAction = false ∧ (next (h.alloc c).1).built (h.alloc c).2 = some (a, h') := by
  simp only [Script.built] at built
  split at built
  · cases built
  · next plain => exact ⟨by simpa using plain, built⟩

/-- Cells that a safe script makes are plain if it makes nothing else. -/
theorem Heap.Plain.of_built {α : Type} {quiet : Prop} {post : Option Ref → α → Prop} {s : Script α}
    {held : Option Ref} {h h' : Heap} {a : α} (plain : h.Plain)
    (safe : s.Safe quiet (fun _ _ => False) post held) (built : s.built h = some (a, h')) :
    h'.Plain := by
  induction s generalizing held h with
  | done b =>
    cases built
    exact plain
  | act action next ih =>
    cases action with
    | alloc c =>
      obtain ⟨calm, built⟩ := Cell.not_isAction_of_built built
      obtain ⟨fits, plainly, handle, action⟩ := safe
      have later := plain.alloc fits calm
      cases role : c.role with
      | plain => exact ih _ later (plainly role _) built
      | handle => exact ih _ later ((handle role).2 _) built
      | action =>
        obtain ⟨_, _, never⟩ := (action role).2 (h.alloc c).1
        exact never.elim
    | _ => cases built
  | _ => cases built

section
variable {quiet : Prop} {held : Option Ref}

theorem Expr.tame_interpret_closed {e : Expr} (in_scope : e.InScope 0) :
    (e.interpret [] : Script Ref).Tame quiet held := by
  have among : e.InScope ([] : List Ref).length := in_scope
  exact tame_interpret among

theorem gives_shareHalf {h : Half Expr} (in_scope : h.InScope) :
    (Signature.shareHalf h : Script (Half Default)).Gives quiet held fun k => k.arity = h.arity := by
  refine (Script.gives_mapM h.optionals fun o mem => ?_).bind fun optionals count => ?_
  · exact (Expr.tame_interpret_closed (in_scope o mem)).bind fun _ => Script.tame_pure _
  · exact Script.gives_pure (by simp [Half.arity, count])

theorem gives_share {s : Signature Expr} (positional : s.positional.InScope)
    (keyword : s.keyword.InScope) :
    (s.share : Script (Signature Default)).Gives quiet held fun k => k.arity = s.arity := by
  refine (gives_shareHalf positional).bind fun k places => ?_
  refine (gives_shareHalf keyword).bind fun l names => ?_
  exact Script.gives_pure (by simp only [Signature.arity, places, names])

theorem tame_build {m : Meaning} (in_scope : m.InScope) :
    (Program.build m : Script Ref).Tame quiet held := by
  cases m with
  | «variable» value => exact Expr.tame_interpret_closed in_scope
  | function name signature bindings result =>
    obtain ⟨positional, keyword, binds, results⟩ := in_scope
    refine (gives_share positional keyword).bind fun k arity => ?_
    have fits : Value.Fits (.function { name, signature := k, body := .code bindings result }) := by
      change bindingsInScope k.arity bindings ∧ result.InScope (k.arity + bindings.length)
      rw [arity]
      exact ⟨binds, results⟩
    exact Script.tame_allocValue fits

end

namespace Program
variable {p : Program} {m : Module} {h : Heap}

/-- What loading goes through: the heap of the handles, that of the definitions' cells, and that of
    the outputs' cells as well. -/
structure Stages (p : Program) (m : Module) (h : Heap) (meanings : List Meaning)
    (outputs : List (Expr × Bool)) (cells : List Ref) (h₁ h₂ h₃ : Heap) : Prop where
  handled : Handled p.names {} m.definitions h₁
  vacant : Heap.Loads {} [] h₁
  resolved : List.Forall₂ (fun d x => Definition.resolve m.definitions d = .ok x) p.definitions
    meanings
  listed : List.Forall₂ (fun o x => o.value.resolve m.definitions {} = .ok x.1) p.outputs outputs
  built : (meanings.mapM build : Script (List Ref)).built h₁ = some (cells, h₂)
  made : (outputs.mapM fun o => do
    pure { cell := ← o.1.interpret [], expanded := o.2 } : Script (List Output)).built h₂ =
      some (m.outputs, h₃)
  filled : h = fillAll (m.definitions.map Prod.snd) cells h₃

theorem stages_of_load (e : p.load {} = .ok (m, h)) :
    ∃ meanings outputs cells h₁ h₂ h₃, Stages p m h meanings outputs cells h₁ h₂ h₃ := by
  unfold load at e
  obtain ⟨_, names_ok, e⟩ := Except.ok_of_bind e
  obtain ⟨_, aliases_ok, e⟩ := Except.ok_of_bind e
  have handled := handled_of_allocHandles p.names {}
  have vacant := Heap.loads_of_allocHandles p.names {}
  generalize (allocHandles p.names : StateM Heap Handles).run {} = first at handled vacant e
  obtain ⟨handles, h₁⟩ := first
  dsimp only at handled e
  obtain ⟨meanings, meanings_ok, e⟩ := Except.ok_of_bind e
  obtain ⟨outputs, outputs_ok, e⟩ := Except.ok_of_bind e
  have built := builds_mapM builds_build meanings h₁
  generalize (meanings.mapM build : StateM Heap (List Ref)).run h₁ = second at built e
  obtain ⟨cells, h₂⟩ := second
  dsimp only at e
  have made := builds_mapM (fun o : Expr × Bool => builds_bind (Expr.builds_interpret [] o.1)
    fun r => builds_pure ({ cell := r, expanded := o.2 } : Output)) outputs h₂
  generalize (outputs.mapM fun o => do
    pure { cell := ← o.1.interpret [], expanded := o.2 } : StateM Heap (List Output)).run h₂ =
      third at made e
  obtain ⟨listed, h₃⟩ := third
  cases e
  refine ⟨meanings, outputs, cells, h₁, h₂, h₃, handled, vacant, forall₂_of_mapM meanings_ok, ?_,
    built, made, rfl⟩
  refine (forall₂_of_mapM outputs_ok).imp fun o x found => ?_
  obtain ⟨value, value_ok, found⟩ := Except.ok_of_bind found
  cases found
  exact value_ok

theorem allows_all (handles : Handles) (names : List String) :
    Manner.loaded.Allows handles names :=
  fun _ _ _ _ _ => .inl trivial

theorem ties_all (handles : Handles) : (Bond.among Set.univ).Ties handles :=
  fun _ _ => ⟨rfl, trivial⟩

theorem inScope_of_resolve {handles : Handles} {d : Definition} {x : Meaning}
    (ok : d.resolve handles = .ok x) : x.InScope :=
  (Definition.like_resolve_self (ties_all handles) (allows_all handles _) ok).in_scope

theorem node_inScope_of_resolve {handles : Handles} {scope : Scope} {node : Node} {e : Expr}
    (ok : node.resolve handles scope = .ok e) : e.InScope scope.locals :=
  (Node.like_resolve_self (ties_all handles) (allows_all handles _) ok).in_scope not_false

/-- Each has its like. -/
theorem exists_of_forall₂ {α β : Type} {R : α → β → Prop} {as : List α} {bs : List β}
    (all : List.Forall₂ R as bs) {a : α} (mem : a ∈ as) : ∃ b ∈ bs, R a b := by
  induction all with
  | nil => cases mem
  | cons first _ ih =>
    rcases List.mem_cons.1 mem with rfl | later
    · exact ⟨_, List.mem_cons_self .., first⟩
    · obtain ⟨b, member, like⟩ := ih later
      exact ⟨b, List.mem_cons_of_mem _ member, like⟩

namespace Stages
variable {meanings : List Meaning} {outputs : List (Expr × Bool)} {cells : List Ref}
variable {h₁ h₂ h₃ : Heap}

theorem loads (stages : Stages p m h meanings outputs cells h₁ h₂ h₃) :
    Heap.Loads {} (m.definitions.map Prod.snd) h := by
  have vacant : ∀ r ∈ m.definitions.map Prod.snd, h₃.state? r = some .vacant := fun r mem =>
    Script.keeps_of_built stages.made
      (Script.keeps_of_built stages.built (stages.handled.vacant r mem))
  have count : (m.definitions.map Prod.snd).length = cells.length := by
    rw [← (built_of_mapM stages.built).length_eq, ← stages.resolved.length_eq]
    simpa [Program.names] using congrArg List.length stages.handled.names
  rw [stages.filled]
  exact (stages.vacant.trans (Heap.loads_of_built stages.built)).trans
    ((Heap.loads_of_built stages.made).trans
      (Heap.loads_of_fillAll stages.handled.nodup count vacant))

theorem plain (stages : Stages p m h meanings outputs cells h₁ h₂ h₃) : h.Plain := by
  have handles : h₁.Plain := by
    have state : ∀ r c, h₁.state? r = some c → c = .vacant := by
      intro r c known
      by_cases mine : r ∈ m.definitions.map Prod.snd
      · rw [stages.handled.vacant r mine] at known
        exact (Option.some.inj known).symm
      · rw [stages.handled.others r mine] at known
        cases known
    refine ⟨fun r c known => ?_, fun r w pending => ?_⟩
    · rw [state r c known]
      trivial
    · cases state r _ pending
  have in_scope : ∀ x ∈ meanings, x.InScope := by
    intro x mem
    obtain ⟨d, _, resolved⟩ := exists_of_forall₂ stages.resolved.flip mem
    exact inScope_of_resolve resolved
  have listed : ∀ o ∈ outputs, o.1.InScope 0 := by
    intro o mem
    obtain ⟨node, _, resolved⟩ := exists_of_forall₂ stages.listed.flip mem
    exact node_inScope_of_resolve resolved
  have definitions : (meanings.mapM build : Script (List Ref)).Gives True none fun cells =>
      cells.length = meanings.length :=
    Script.gives_mapM meanings fun x mem => tame_build (in_scope x mem)
  have expressions : (outputs.mapM fun o => do
      pure { cell := ← o.1.interpret [], expanded := o.2 } : Script (List Output)).Gives True none
        fun made => made.length = outputs.length :=
    Script.gives_mapM outputs fun o mem =>
      (Expr.tame_interpret_closed (listed o mem)).bind fun _ => Script.tame_pure _
  rw [stages.filled]
  exact ((handles.of_built definitions stages.built).of_built expressions stages.made).fillAll _ _

end Stages

end Program

/-- All cells may be forced; no effect has been shown. -/
def Heap.ken (h : Heap) : Ken := { cells := h.domain, actions := h.domain }

theorem Program.Loaded.sealed {m : Module} {h : Heap} (loaded : Program.Loaded .loaded m h)
    (plain : h.Plain) : ({ heap := h } : Store).Sealed h.ken := by
  refine ⟨⟨plain.fits, fun r known => ?_⟩, by simp, by simp⟩
  have cell : r ∈ h.domain := known.elim id id
  obtain ⟨c, state, within⟩ := loaded.within r cell
  refine ⟨c, state, ?_, fun _ w work => plain.calm r w (work ▸ state)⟩
  cases within with
  | vacant waits => cases waits
  | pending works => exact .pending works
  | forcing => exact .forcing
  | redirect known => exact .redirect known
  | forced values => exact .forced values

end CallByNeed
