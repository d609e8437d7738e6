import CallByNeed.Proofs.Inlining.Kin
import CallByNeed.Proofs.Loading.Effectless

/- Programs without bindings load as they do with them, cell by cell. Only the functions that have
   lost their bindings differ, and they are kin. -/
namespace CallByNeed

/-- The same state, or that of a function that has lost its bindings. -/
inductive CellState.Inlines : CellState → CellState → Prop where
  | same (c : CellState) : Inlines c c
  | forced (v : Value) : Inlines (.forced v) (.forced v.inlined)

/-- Some functions of the heap have lost their bindings. -/
structure Heap.Inlines (h h' : Heap) : Prop where
  size : h'.size = h.size
  cells : ∀ r, Option.Rel CellState.Inlines (h.state? r) (h'.state? r)

section
variable {h h' k : Heap}

namespace Heap

theorem inlines_refl (h : Heap) : h.Inlines h := by
  refine ⟨rfl, fun r => ?_⟩
  cases h.state? r with
  | none => exact .none
  | some c => exact .some (.same c)

theorem Inlines.alloc (inlines : h.Inlines h') {c c' : Cell} (states : c.state.Inlines c'.state) :
    (h'.alloc c').1 = (h.alloc c).1 ∧ (h.alloc c).2.Inlines (h'.alloc c').2 := by
  have same : (h'.alloc c').1 = (h.alloc c).1 := congrArg Ref.mk inlines.size
  refine ⟨same, ?_, fun r => ?_⟩
  · rw [size_alloc, size_alloc, inlines.size]
  · rw [state?_alloc, state?_alloc, same]
    split
    · exact .some states
    · exact inlines.cells r

theorem Inlines.fill (inlines : h.Inlines h') (handle target : Ref) :
    (h.fill handle target).2.Inlines (h'.fill handle target).2 := by
  have cells := inlines.cells handle
  unfold Heap.fill
  generalize state : h.state? handle = o, state' : h'.state? handle = o' at cells
  cases cells with
  | none => exact inlines
  | @some c _ states =>
    cases states with
    | forced v => exact inlines
    | same =>
      cases c with
      | vacant =>
        refine ⟨by rw [size_setState, size_setState, inlines.size], fun r => ?_⟩
        by_cases same : r = handle
        · subst same
          rw [state?_setState_self state, state?_setState_self state']
          exact .some (.same _)
        · rw [state?_setState_ne same, state?_setState_ne same]
          exact inlines.cells r
      | _ => exact inlines

theorem Inlines.fillAll (inlines : h.Inlines h') (handles targets : List Ref) :
    (Program.fillAll handles targets h).Inlines (Program.fillAll handles targets h') := by
  induction handles generalizing targets h h' with
  | nil => exact inlines
  | cons handle handles ih =>
    cases targets with
    | nil => exact inlines
    | cons target targets => exact ih (inlines.fill handle target) targets

end Heap

/-- What a builder makes does not depend on the cells that are there already. -/
theorem Script.built_inlines {α : Type} {s : Script α} {a : α} (built : s.built h = some (a, k))
    (inlines : h.Inlines h') : ∃ k', s.built h' = some (a, k') ∧ k.Inlines k' := by
  induction s generalizing h h' with
  | done b =>
    cases built
    exact ⟨h', rfl, inlines⟩
  | act action next ih =>
    cases action with
    | alloc c =>
      obtain ⟨plain, built⟩ := Cell.not_isAction_of_built built
      obtain ⟨same, inlines⟩ := inlines.alloc (c := c) (.same c.state)
      obtain ⟨k', built', later⟩ := ih _ built inlines
      refine ⟨k', ?_, later⟩
      rw [← built', Script.built, if_neg (by simp [plain]), same]
    | _ => cases built
  | _ => cases built

theorem Script.built_of_bind {α β : Type} {s : Script α} {f : α → Script β} {b : β}
    (built : (s >>= f).built h = some (b, k)) :
    ∃ a k', s.built h = some (a, k') ∧ (f a).built k' = some (b, k) := by
  change (s.bind f).built h = _ at built
  rw [Script.built_bind] at built
  obtain ⟨⟨a, k'⟩, first, rest⟩ := Option.bind_eq_some_iff.1 built
  exact ⟨a, k', first, rest⟩

theorem Script.built_bind_of {α β : Type} {s : Script α} {f : α → Script β} {a : α} {k' : Heap}
    (first : s.built h = some (a, k')) : (s >>= f).built h = (f a).built k' := by
  change (s.bind f).built h = _
  rw [Script.built_bind, first]
  rfl

theorem Script.built_allocValue (v : Value) (h : Heap) :
    (allocValue v : Script Ref).built h = some (h.alloc (.ofValue v)) :=
  builds_allocValue v h

/-- Defaults are given cells, and keep their places. -/
theorem Signature.arity_of_share {s : Signature Expr} {t : Signature Default}
    (built : (s.share : Script (Signature Default)).built h = some (t, k)) : t.arity = s.arity := by
  have half (half : Half Expr) : HalfLike (ExprLike .exact .same 0) half half :=
    ⟨rfl, List.forall₂_same.2 fun _ _ => ⟨rfl, Expr.like_refl Manner.exact_admits 0 _⟩, rfl⟩
  have like : SignatureLike (ExprLike .exact .same 0) s s := ⟨half _, half _⟩
  obtain ⟨t', k', _, again, results, _⟩ :=
    Script.built_abreast (alike_share like) built h fun _ _ => rfl
  cases built.symm.trans again
  exact results.2

namespace Program

/-- A definition may have lost its bindings before it is built. -/
theorem built_inlined {m m' : Meaning} (inlined : m' = m ∨ m' = m.inlined) {r : Ref}
    (built : (build m : Script Ref).built h = some (r, k)) (inlines : h.Inlines h') :
    ∃ k', (build m' : Script Ref).built h' = some (r, k') ∧ k.Inlines k' := by
  rcases inlined with rfl | rfl
  · exact Script.built_inlines built inlines
  · cases m with
    | «variable» value => exact Script.built_inlines built inlines
    | function name signature bindings result =>
      obtain ⟨t, k₁, share, built⟩ := Script.built_of_bind built
      obtain ⟨k₁', share', inlines⟩ := Script.built_inlines share inlines
      let f : Function := { name, signature := t, body := .code bindings result }
      have arity := Signature.arity_of_share share
      have states : CellState.Inlines (Cell.ofValue (.function f)).state
          (Cell.ofValue (Value.function f).inlined).state := .forced _
      obtain ⟨same, later⟩ := inlines.alloc states
      rw [Script.built_allocValue] at built
      cases built
      refine ⟨_, ?_, later⟩
      simp only [Meaning.inlined, build]
      rw [Script.built_bind_of share', Script.built_allocValue, ← arity]
      exact congrArg some (Prod.ext same rfl)

theorem built_mapM_inlined {meanings meanings' : List Meaning}
    (each : List.Forall₂ (fun m m' => m' = m ∨ m' = Meaning.inlined m) meanings meanings')
    {cells : List Ref} (built : (meanings.mapM build : Script (List Ref)).built h = some (cells, k))
    (inlines : h.Inlines h') :
    ∃ k', (meanings'.mapM build : Script (List Ref)).built h' = some (cells, k') ∧
      k.Inlines k' := by
  induction each generalizing cells h h' with
  | nil =>
    cases built
    exact ⟨h', rfl, inlines⟩
  | cons first _ ih =>
    rw [List.mapM_cons] at built ⊢
    obtain ⟨r, k₁, made, built⟩ := Script.built_of_bind built
    obtain ⟨rs, k₂, others, built⟩ := Script.built_of_bind built
    cases built
    obtain ⟨k₁', made', inlines⟩ := built_inlined first made inlines
    obtain ⟨k₂', others', inlines⟩ := ih others inlines
    refine ⟨k₂', ?_, inlines⟩
    rw [Script.built_bind_of made', Script.built_bind_of others']
    rfl

end Program
end

section
variable {handles : Handles} {scope : Scope}

theorem Half.arity_of_resolve {half : Half Node} {k : Half Expr}
    (ok : half.resolve handles scope = .ok k) : k.arity = half.arity := by
  obtain ⟨optionals, optionals_ok, ok⟩ := Except.ok_of_bind ok
  cases ok
  simp [Half.arity, (forall₂_of_mapM optionals_ok).length_eq]

theorem Signature.arity_of_resolve {name : String} {s : Signature Node} {t : Signature Expr}
    (ok : s.resolve handles name = .ok t) : t.arity = s.arity := by
  obtain ⟨positional, positional_ok, ok⟩ := Except.ok_of_bind ok
  obtain ⟨keyword, keyword_ok, ok⟩ := Except.ok_of_bind ok
  cases ok
  simp only [Signature.arity, Half.arity_of_resolve positional_ok,
    Half.arity_of_resolve keyword_ok]

/-- Resolving a definition without its bindings is resolving it, without its bindings. -/
theorem Definition.resolve_inlined {d : Definition} {m : Meaning}
    (ok : d.resolve handles = .ok m) : d.inlined.resolve handles = .ok m.inlined := by
  cases d with
  | «variable» name value =>
    obtain ⟨e, value_ok, made⟩ := Except.ok_of_bind ok
    cases made
    exact ok
  | function name signature bindings result =>
    obtain ⟨t, signature_ok, ok⟩ := Except.ok_of_bind ok
    obtain ⟨es, bindings_ok, ok⟩ := Except.ok_of_bind ok
    obtain ⟨e, result_ok, ok⟩ := Except.ok_of_bind ok
    cases ok
    have each := Node.resolve_expand bindings bindings_ok
      (Node.resolve_parameters handles (some name) signature.arity) (by simp)
    have inlined := Node.resolve_subst each (by simp) result result_ok
    simp only [Definition.inlined, Definition.resolve, signature_ok, Definition.resolveBindings,
      Meaning.inlined, Expr.inlined, Signature.arity_of_resolve signature_ok]
    simp only [List.length_nil, Nat.add_zero]
    change (do pure (Meaning.function name t [] (← Node.resolve handles _ _))) = _
    rw [inlined]
    rfl

end

namespace Program

theorem names_inlined (p : Program) (chosen : String → Bool) :
    (p.inlined chosen).names = p.names := by
  simp only [names, inlined, List.map_map]
  refine List.map_congr_left fun d _ => ?_
  simp only [Function.comp_apply]
  split
  · cases d <;> rfl
  · rfl

theorem aliases_inlined (p : Program) (chosen : String → Bool) :
    aliases (p.inlined chosen).definitions = aliases p.definitions := by
  have names := p.names_inlined chosen
  simp only [Program.names] at names
  simp only [aliases, names]
  simp only [inlined, List.filterMap_map]
  refine List.filterMap_congr fun d _ => ?_
  simp only [Function.comp_apply]
  by_cases here : chosen d.name
  · rw [if_pos here]
    cases d <;> rfl
  · rw [if_neg here]

theorem resolved_inlined {handles : Handles} (chosen : String → Bool) {ds : List Definition}
    {meanings : List Meaning}
    (resolved : List.Forall₂ (fun d m => Definition.resolve handles d = .ok m) ds meanings) :
    ∃ meanings', List.Forall₂ (fun m m' => m' = m ∨ m' = Meaning.inlined m) meanings meanings' ∧
      List.Forall₂ (fun d m => Definition.resolve handles d = .ok m)
        (ds.map fun d => if chosen d.name then d.inlined else d) meanings' := by
  induction resolved with
  | nil => exact ⟨[], .nil, .nil⟩
  | @cons d m _ _ first _ ih =>
    obtain ⟨meanings', each, resolved⟩ := ih
    by_cases here : chosen d.name
    · refine ⟨m.inlined :: meanings', .cons (.inr rfl) each, ?_⟩
      rw [List.map_cons, if_pos here]
      exact .cons (Definition.resolve_inlined first) resolved
    · refine ⟨m :: meanings', .cons (.inl rfl) each, ?_⟩
      rw [List.map_cons, if_neg here]
      exact .cons first resolved

/-- A program whose names and aliases are right loads if every step of it succeeds. -/
theorem Loads.load {p : Program} {handles : Handles} {meanings : List Meaning}
    {exprs : List (Expr × Bool)} {cells : List Ref} {outputs : List Output} {h₀ h₁ h₂ : Heap}
    (loads : p.Loads handles meanings exprs cells outputs h₀ h₁ h₂)
    (names_ok : checkNames [] p.names = .ok ())
    (aliases_ok : checkAliases (aliases p.definitions) = .ok ()) :
    p.load {} =
      .ok ({ definitions := handles, outputs }, fillAll (handles.map Prod.snd) cells h₂) := by
  have allocated : (allocHandles p.names : StateM Heap Handles).run {} = (handles, h₀) :=
    Option.some.inj ((builds_allocHandles p.names {}).symm.trans loads.allocated)
  have built : (meanings.mapM build : StateM Heap (List Ref)).run h₀ = (cells, h₁) :=
    Option.some.inj ((builds_mapM builds_build meanings h₀).symm.trans loads.built)
  have listed : (showAll exprs : StateM Heap (List Output)).run h₁ = (outputs, h₂) :=
    Option.some.inj ((builds_showAll exprs h₁).symm.trans loads.listed)
  unfold Program.load
  rw [names_ok, aliases_ok, allocated]
  dsimp only
  rw [mapM_of_forall₂ loads.resolved, loads.shown]
  unfold showAll at listed
  simp only [bind, Except.bind, built] at listed ⊢
  rw [listed]
  rfl

/-- A program that loads does so without bindings, too. -/
theorem inlined_of_load {p : Program} {m : Module} {h : Heap} (chosen : String → Bool)
    (e : p.load {} = .ok (m, h)) :
    ∃ h', (p.inlined chosen).load {} = .ok (m, h') ∧ h.Inlines h' := by
  obtain ⟨meanings, exprs, cells, h₀, h₁, h₂, loads, rfl⟩ := loads_of_load e
  unfold load at e
  obtain ⟨_, names_ok, e⟩ := Except.ok_of_bind e
  obtain ⟨_, aliases_ok, -⟩ := Except.ok_of_bind e
  have same := p.names_inlined chosen
  obtain ⟨meanings', each, resolved⟩ := resolved_inlined chosen loads.resolved
  obtain ⟨h₁', built, inlines⟩ := built_mapM_inlined each loads.built h₀.inlines_refl
  obtain ⟨h₂', listed, inlines⟩ := Script.built_inlines loads.listed inlines
  have loads' : (p.inlined chosen).Loads m.definitions meanings' exprs cells m.outputs h₀ h₁' h₂' :=
    { distinct := same ▸ loads.distinct
      handled := same ▸ loads.handled
      allocated := same ▸ loads.allocated
      resolved, shown := loads.shown, built, listed }
  refine ⟨_, loads'.load (same ▸ names_ok) ?_, inlines.fillAll _ _⟩
  rw [aliases_inlined]
  exact aliases_ok

end Program
/-! ### Kin -/

/-- There are no bindings to lose a second time. -/
theorem Body.inlined_inlined {arity : Nat} {b : Body} (within : b.InScope arity) :
    (b.inlined arity).inlined arity = b.inlined arity := by
  cases b with
  | code es e =>
    simp only [inlined]
    congr 1
    exact Expr.inlined_subst (Expr.length_parameters arity) within.1 within.2
  | _ => rfl

theorem Value.inlined_inlined {v : Value} (within : v.InScope) : v.inlined.inlined = v.inlined := by
  cases v with
  | function f =>
    simp only [inlined, Function.inlined]
    rw [Body.inlined_inlined within]
  | _ => rfl

namespace Heap.Inlines
variable {h h' : Heap}

theorem bond_eq (inlines : h.Inlines h') : h'.bond = h.bond := by
  have domain : h'.domain = h.domain := by
    ext r
    have cells := inlines.cells r
    simp only [Heap.domain, Set.mem_ofPred_eq]
    generalize h.state? r = o, h'.state? r = o' at cells
    cases cells <;> simp
  simp only [Heap.bond, domain]

theorem idle (inlines : h.Inlines h') (idle : ∀ r, h.state? r ≠ some .forcing) (r : Ref) :
    h'.state? r ≠ some .forcing := by
  have cells := inlines.cells r
  have idle := idle r
  generalize h.state? r = o, h'.state? r = o' at cells idle
  cases cells with
  | none => simp
  | some states =>
    cases states with
    | same => exact idle
    | forced => simp

/-- Functions that have lost their bindings are as loaded as the others. -/
theorem loaded (inlines : h.Inlines h')
    (loaded : ∀ r ∈ h.domain, ∃ c, h.state? r = some c ∧ c.Loaded .quiet h.bond) :
    ∀ r ∈ h'.domain, ∃ c, h'.state? r = some c ∧ c.Loaded .quiet h'.bond := by
  rintro r ⟨c', state'⟩
  have cells := inlines.cells r
  rw [state'] at cells
  generalize state : h.state? r = o at cells
  cases cells with
  | some states =>
    obtain ⟨c, found, loaded⟩ := loaded r ⟨_, state⟩
    rw [inlines.bond_eq]
    cases state.symm.trans found
    refine ⟨c', state', ?_⟩
    cases states with
    | same => exact loaded
    | forced v =>
      cases loaded with
      | made likes =>
        cases likes with
        | forced values => exact .made (.forced (values.inlined Manner.quiet_tidy))

/-- Each cell is kin to what it has become. -/
theorem bond_le_kin (inlines : h.Inlines h')
    (loaded : ∀ r ∈ h.domain, ∃ c, h.state? r = some c ∧ c.Loaded .quiet h.bond) :
    h.bond ≤ h.kin h' := by
  refine Heap.le_kin ⟨?_, fun _ _ never => never.elim⟩
  rintro r _ ⟨rfl, known⟩
  obtain ⟨c, state, loaded⟩ := loaded r known
  have cells := inlines.cells r
  rw [state] at cells
  generalize state' : h'.state? r = o at cells
  cases cells with
  | some states =>
    cases loaded with
    | redirect known =>
      cases states with
      | same => exact ⟨_, _, .redirect state, .redirect state', .redirect known⟩
    | made likes =>
      cases states with
      | same =>
        obtain ⟨d, d', tells, tells', likes⟩ := Heap.tells_of_like state state' likes
        exact ⟨d, d', tells, tells', .made likes⟩
      | forced v =>
        cases likes with
        | forced values =>
          have within := values.inScope Manner.quiet_tidy
          have inlined := values.inlined Manner.quiet_tidy
          have tells' := Heap.Tells.forced state' (inlined.inScope Manner.quiet_tidy)
          rw [Value.inlined_inlined within] at tells'
          exact ⟨_, _, .forced state within, tells', .made (.forced inlined)⟩

end Heap.Inlines
end CallByNeed
