import CallByNeed.Proofs.Loading.Layout
import CallByNeed.Proofs.Loading.Checking
import CallByNeed.Proofs.Renaming.Cells

/- Programs of the same definitions in another order. Their handles and the blocks of their cells
   stand in another order too; the rest of the heap is the same, so one heap is the other renamed. -/
namespace CallByNeed

theorem lookup_of_mem {β : Type} {name : String} {b : β} {l : List (String × β)}
    (nodup : (l.map Prod.fst).Nodup) (mem : (name, b) ∈ l) : l.lookup name = some b := by
  induction l with
  | nil => cases mem
  | cons p l ih =>
    obtain ⟨key, value⟩ := p
    obtain ⟨apart, nodup⟩ := List.nodup_cons.1 nodup
    rw [List.lookup_cons]
    rcases List.mem_cons.1 mem with same | later
    · cases same
      simp
    · have member : name ∈ l.map Prod.fst := List.mem_map_of_mem later
      have other : (name == key) = false := by
        rw [beq_eq_false_iff_ne]
        rintro rfl
        exact apart member
      rw [other]
      exact ih nodup later

theorem mem_zip_join {ι α β : Type} {l : List ι} {as : List α} {bs : List β} {i : ι} {a : α} {b : β}
    (nodup : l.Nodup) (left : (i, a) ∈ l.zip as) (right : (i, b) ∈ l.zip bs) :
    (a, b) ∈ as.zip bs := by
  obtain ⟨n, bound, at_n⟩ := List.getElem_of_mem left
  obtain ⟨m, bound', at_m⟩ := List.getElem_of_mem right
  rw [List.getElem_zip, Prod.mk.injEq] at at_n at_m
  rw [List.length_zip] at bound bound'
  have same : n = m := (nodup.getElem_inj_iff).1 (at_n.1.trans at_m.1.symm)
  subst same
  have inside : n < (as.zip bs).length := by
    rw [List.length_zip]
    omega
  have pair := List.getElem_mem inside
  rwa [List.getElem_zip, at_n.2, at_m.2] at pair

/-- All cells are bonded. -/
def Bond.all : Bond where
  cells := fun _ _ => True
  actions := fun _ _ => True

/-- How many cells a definition takes, wherever it is built. -/
def Meaning.weight (m : Meaning) : Nat := ((Program.build m : StateM Heap Ref).run {}).2.size

theorem size_of_build {m m' : Meaning} (like : MeaningLike .loaded .all m m') {h k : Heap} {r : Ref}
    (built : (Program.build m' : Script Ref).built h = some (r, k)) :
    k.size = h.size + m.weight := by
  obtain ⟨r', k', count, again, _, abreast⟩ :=
    Script.built_abreast (alike_build like) (builds_build m {}) h fun _ _ => trivial
  rw [built] at again
  cases again
  have weight : m.weight = 0 + count := abreast.size
  rw [abreast.size', weight, Nat.zero_add]

namespace Program

/-- What a definition means under these handles, as a builder. -/
def builder (handles : Handles) (d : Definition) : Script Ref :=
  match d.resolve handles with
  | .ok m => build m
  | .error _ => .stall

/-- How many cells a definition takes under these handles. -/
def width (handles : Handles) (d : Definition) : Nat :=
  match d.resolve handles with
  | .ok m => m.weight
  | .error _ => 0

/-- The cells of all outputs. -/
def showAll {m : Type → Type} [Monad m] [Allocates m] (exprs : List (Expr × Bool)) :
    m (List Output) :=
  exprs.mapM fun o => do pure { cell := ← o.1.interpret [], expanded := o.2 }

theorem builds_showAll (exprs : List (Expr × Bool)) :
    (showAll exprs : Script (List Output)).Builds (showAll exprs) := by
  unfold showAll
  refine builds_mapM (fun o => ?_) exprs
  exact builds_bind (Expr.builds_interpret [] o.1) fun _ => builds_pure _

/-- The steps of loading, one after another. -/
structure Loads (p : Program) (handles : Handles) (meanings : List Meaning)
    (exprs : List (Expr × Bool)) (cells : List Ref) (outputs : List Output) (h₀ h₁ h₂ : Heap) :
    Prop where
  distinct : p.names.Nodup
  handled : Handled p.names {} handles h₀
  allocated : (allocHandles p.names : Script Handles).built {} = some (handles, h₀)
  resolved : List.Forall₂ (fun d m => Definition.resolve handles d = .ok m) p.definitions meanings
  shown : (p.outputs.mapM fun o => do pure (← o.value.resolve handles {}, o.expanded)) = .ok exprs
  built : (meanings.mapM build : Script (List Ref)).built h₀ = some (cells, h₁)
  listed : (showAll exprs : Script (List Output)).built h₁ = some (outputs, h₂)

theorem builds_allocHandles (names : List String) :
    (allocHandles names : Script Handles).Builds (allocHandles names) :=
  builds_mapM (fun _ => builds_bind (builds_alloc rfl) fun _ => builds_pure _) names

theorem loads_of_load {p : Program} {m : Module} {h : Heap} (e : p.load {} = .ok (m, h)) :
    ∃ meanings exprs cells h₀ h₁ h₂,
      p.Loads m.definitions meanings exprs cells m.outputs h₀ h₁ h₂ ∧
        h = fillAll (m.definitions.map Prod.snd) cells h₂ := by
  unfold load at e
  obtain ⟨_, names_ok, e⟩ := Except.ok_of_bind e
  obtain ⟨_, aliases_ok, e⟩ := Except.ok_of_bind e
  have handled := handled_of_allocHandles p.names {}
  have allocated := builds_allocHandles p.names {}
  generalize (allocHandles p.names : StateM Heap Handles).run {} = first at handled allocated e
  obtain ⟨handles, h₀⟩ := first
  dsimp only at handled e
  obtain ⟨meanings, meanings_ok, e⟩ := Except.ok_of_bind e
  obtain ⟨exprs, exprs_ok, e⟩ := Except.ok_of_bind e
  have built := builds_mapM builds_build meanings h₀
  generalize (meanings.mapM build : StateM Heap (List Ref)).run h₀ = second at built e
  obtain ⟨cells, h₁⟩ := second
  dsimp only at e
  have listed := builds_showAll exprs h₁
  generalize run : (exprs.mapM fun o => do
    pure { cell := ← o.1.interpret [], expanded := o.2 } : StateM Heap (List Output)).run h₁ =
      third at e
  obtain ⟨outputs, h₂⟩ := third
  have shown : (showAll exprs : StateM Heap (List Output)).run h₁ = (outputs, h₂) := run
  rw [shown] at listed
  cases e
  exact ⟨meanings, exprs, cells, h₀, h₁, h₂,
    ⟨(nodup_of_checkNames names_ok).1, handled, allocated, forall₂_of_mapM meanings_ok, exprs_ok,
      built, listed⟩, rfl⟩

theorem size_fillAll (handles targets : List Ref) (h : Heap) :
    (fillAll handles targets h).size = h.size := by
  induction handles generalizing targets h with
  | nil => rfl
  | cons handle handles ih =>
    cases targets with
    | nil => rfl
    | cons target targets =>
      simp only [fillAll, ih]
      unfold Heap.fill
      split
      · exact Heap.size_setState ..
      · rfl

theorem site?_fillAll (handles targets : List Ref) (h : Heap) (r : Ref) :
    (fillAll handles targets h).site? r = h.site? r := by
  induction handles generalizing targets h with
  | nil => rfl
  | cons handle handles ih =>
    cases targets with
    | nil => rfl
    | cons target targets =>
      simp only [fillAll, ih]
      unfold Heap.fill
      split
      · exact Heap.site?_setState ..
      · rfl

theorem allows_loaded (handles : Handles) (names : List String) :
    Manner.loaded.Allows handles names :=
  fun _ _ _ _ _ => .inl trivial

section
variable {handles handles' : Handles} {d : Definition} {m : Meaning}

theorem builder_of_ok (ok : d.resolve handles = .ok m) : builder handles d = build m := by
  simp only [builder, ok]

theorem mapM_builder {ds : List Definition} {meanings : List Meaning}
    (resolved : List.Forall₂ (fun d m => Definition.resolve handles d = .ok m) ds meanings) :
    (meanings.mapM build : Script (List Ref)) = ds.mapM (builder handles) := by
  induction resolved with
  | nil => rfl
  | cons first _ ih => rw [List.mapM_cons, List.mapM_cons, ih, builder_of_ok first]

theorem size_of_builder (joins : Bond.all.Joins handles handles') (ok : d.resolve handles = .ok m)
    {h k : Heap} {r : Ref} (built : (builder handles' d).built h = some (r, k)) :
    k.size = h.size + width handles d := by
  obtain ⟨m', ok', like⟩ := Definition.like_resolve joins (allows_loaded handles _) ok
  rw [builder_of_ok ok'] at built
  simp only [width, ok]
  exact size_of_build like built

end

section
variable {p : Program} {handles : Handles} {meanings : List Meaning} {exprs : List (Expr × Bool)}
variable {cells : List Ref} {outputs : List Output} {h₀ h₁ h₂ : Heap}

theorem Loads.nodup (loads : p.Loads handles meanings exprs cells outputs h₀ h₁ h₂) :
    p.definitions.Nodup :=
  List.Nodup.of_map Definition.name loads.distinct

theorem Loads.meaning (loads : p.Loads handles meanings exprs cells outputs h₀ h₁ h₂)
    {d : Definition} (mem : d ∈ p.definitions) : ∃ m, d.resolve handles = .ok m := by
  obtain ⟨i, bound, rfl⟩ := List.getElem_of_mem mem
  exact ⟨_, loads.resolved.get bound (loads.resolved.length_eq ▸ bound)⟩

end

/-- The handle of one definition. -/
def handleOf (d : Definition) : Script (String × Ref) := do pure (d.name, ← alloc .vacant)

theorem of_handleOf {d : Definition} {h k : Heap} {b : String × Ref}
    (built : (handleOf d).built h = some (b, k)) :
    b = (d.name, (h.alloc .vacant).1) ∧ k = (h.alloc .vacant).2 := by
  have made := builds_bind (builds_alloc (c := .vacant) rfl) (fun r => builds_pure (d.name, r)) h
  cases built.symm.trans made
  exact ⟨rfl, rfl⟩

section
variable [DecidableEq Definition]

/-- Handles and blocks of definitions go where they are in the other order. -/
structure Rearranges (π : Renaming) (width : Definition → Nat) (ds ds' : List Definition) : Prop where
  handles : ∀ d ∈ ds, π.of ⟨blockStart (fun _ => 1) ds d⟩ = ⟨blockStart (fun _ => 1) ds' d⟩
  cells : ∀ d ∈ ds, ∀ o < width d, π.of ⟨ds.length + blockStart width ds d + o⟩ =
    ⟨ds'.length + blockStart width ds' d + o⟩
  beyond : ∀ r : Ref, ds.length + (ds.map width).sum ≤ r.index → π.of r = r

theorem exists_rearranges {ds ds' : List Definition} (perm : ds.Perm ds') (nodup : ds.Nodup)
    (width : Definition → Nat) : ∃ π, Rearranges π width ds ds' := by
  let size : Definition ⊕ Definition → Nat := Sum.elim (fun _ => 1) width
  have apart : (ds.map .inl ++ ds.map .inr : List (Definition ⊕ Definition)).Nodup := by
    refine List.Nodup.append (nodup.map Sum.inl_injective) (nodup.map Sum.inr_injective) ?_
    simp [List.Disjoint]
  obtain ⟨f, moves⟩ := exists_moves size ((perm.map Sum.inl).append (perm.map Sum.inr)) apart
  have ones (l : List Definition) : ((l.map Sum.inl).map size).sum = l.length := by
    simp [size, Function.comp_def]
  have widths (l : List Definition) : ((l.map Sum.inr).map size).sum = (l.map width).sum := by
    simp [size, Function.comp_def]
  have of_handle {l : List Definition} {d : Definition} (mem : d ∈ l) :
      blockStart size (l.map .inl ++ l.map .inr) (.inl d) = blockStart (fun _ => 1) l d := by
    rw [blockStart_append_left (List.mem_map_of_mem mem), blockStart_map Sum.inl_injective]
    rfl
  have of_cells (l : List Definition) (d : Definition) :
      blockStart size (l.map .inl ++ l.map .inr) (.inr d) = l.length + blockStart width l d := by
    rw [blockStart_append_right (by simp), blockStart_map Sum.inr_injective, ones]
    rfl
  refine ⟨⟨fun r => ⟨f r.index⟩, fun r t same => ?_⟩, ?_, ?_, ?_⟩
  · obtain ⟨i⟩ := r
    obtain ⟨j⟩ := t
    exact congrArg Ref.mk (moves.injective (Ref.mk.inj same))
  · intro d mem
    have moved := moves.blocks (.inl d) (List.mem_append_left _ (List.mem_map_of_mem mem)) 0
      Nat.one_pos
    rw [of_handle mem, of_handle (perm.mem_iff.1 mem)] at moved
    exact congrArg Ref.mk moved
  · intro d mem o within
    have moved := moves.blocks (.inr d) (List.mem_append_right _ (List.mem_map_of_mem mem)) o within
    rw [of_cells, of_cells] at moved
    exact congrArg Ref.mk moved
  · intro r outside
    refine congrArg Ref.mk (moves.beyond r.index ?_)
    rw [List.map_append, List.sum_append, ones, widths]
    exact outside

section
variable {p p' : Program} {handles handles' : Handles} {meanings meanings' : List Meaning}
variable {exprs exprs' : List (Expr × Bool)} {cells cells' : List Ref}
variable {outputs outputs' : List Output} {h₀ h₁ h₂ h₀' h₁' h₂' : Heap}

/-- The handles come first, in the order of the definitions. -/
theorem Loads.handle (loads : p.Loads handles meanings exprs cells outputs h₀ h₁ h₂) :
    h₀.size = p.definitions.length ∧ ∀ d ∈ p.definitions,
      (d, (d.name, ⟨blockStart (fun _ => 1) p.definitions d⟩)) ∈ p.definitions.zip handles ∧
        h₀.cell? ⟨blockStart (fun _ => 1) p.definitions d⟩ = some .vacant := by
  have allocated : (p.definitions.mapM handleOf).built {} = some (handles, h₀) := by
    rw [← loads.allocated, allocHandles, Program.names, List.mapM_map]
    rfl
  have blocks : Blocks handleOf (fun _ => 1) p.definitions handles {} h₀ := by
    refine blocks_of_mapM (fun d _ h b k built => ?_) allocated
    rw [(of_handleOf built).2, Heap.size_alloc]
  have empty : ({} : Heap).size = 0 := rfl
  refine ⟨by simp [blocks.size, empty], fun d mem => ?_⟩
  obtain ⟨b, h, k, pair, start, built, keeps⟩ := blocks.each d mem
  obtain ⟨rfl, rfl⟩ := of_handleOf built
  rw [empty, Nat.zero_add] at start
  have place : (h.alloc .vacant).1 = ⟨blockStart (fun _ => 1) p.definitions d⟩ :=
    congrArg Ref.mk start
  have new : (h.alloc .vacant).1.index < (h.alloc .vacant).2.size := by
    rw [Heap.size_alloc]
    exact Nat.lt_succ_self _
  rw [← place]
  refine ⟨pair, ?_⟩
  rw [keeps _ new, Heap.cell?_alloc, if_pos rfl]

theorem Loads.lookup (loads : p.Loads handles meanings exprs cells outputs h₀ h₁ h₂)
    {d : Definition} (mem : d ∈ p.definitions) :
    handles.lookup d.name = some ⟨blockStart (fun _ => 1) p.definitions d⟩ := by
  refine lookup_of_mem ?_ (List.of_mem_zip (loads.handle.2 d mem).1).2
  rw [loads.handled.names]
  exact loads.distinct

/-- Then come the cells of each definition. -/
theorem Loads.blocks (loads : p.Loads handles meanings exprs cells outputs h₀ h₁ h₂)
    {origin : Handles} (joins : Bond.all.Joins origin handles)
    (resolved : ∀ d ∈ p.definitions, ∃ m, d.resolve origin = .ok m) :
    Blocks (builder handles) (width origin) p.definitions cells h₀ h₁ := by
  have built := loads.built
  rw [mapM_builder loads.resolved] at built
  refine blocks_of_mapM (fun d mem h r k made => ?_) built
  obtain ⟨m, ok⟩ := resolved d mem
  exact size_of_builder joins ok made

variable (loads : p.Loads handles meanings exprs cells outputs h₀ h₁ h₂)
  (loads' : p'.Loads handles' meanings' exprs' cells' outputs' h₀' h₁' h₂')
  (perm : p.definitions.Perm p'.definitions) {π : Renaming}
  (rearranges : Rearranges π (width handles) p.definitions p'.definitions)

include loads loads' perm

theorem joins_of_perm {B : Bond}
    (bonded : ∀ d ∈ p.definitions, B.cells ⟨blockStart (fun _ => 1) p.definitions d⟩
      ⟨blockStart (fun _ => 1) p'.definitions d⟩) : B.Joins handles handles' := by
  intro name
  have named := loads.handled.namedBy name
  have named' := loads'.handled.namedBy name
  by_cases known : name ∈ p.names
  · obtain ⟨d, mem, rfl⟩ := List.mem_map.1 known
    rw [loads.lookup mem, loads'.lookup (perm.mem_iff.1 mem)]
    exact .some (bonded d mem)
  · have unknown : name ∉ p'.names := fun mem => known ((perm.map Definition.name).mem_iff.2 mem)
    rw [← named, Bool.not_eq_true, Option.isSome_eq_false_iff, Option.isNone_iff_eq_none] at known
    rw [← named', Bool.not_eq_true, Option.isSome_eq_false_iff, Option.isNone_iff_eq_none] at unknown
    rw [known, unknown]
    exact .none

include rearranges

theorem joins_of_rearranges : π.bond.Joins handles handles' :=
  joins_of_perm loads loads' perm rearranges.handles

/-- The blocks of a definition are alike, and so are the cells that stand for it. -/
theorem cells_of_rearranges {d : Definition} (mem : d ∈ p.definitions) :
    ∃ r, (d, r) ∈ p.definitions.zip cells ∧ (d, π.of r) ∈ p'.definitions.zip cells' ∧
      ∀ o < width handles d, ∃ c c',
        h₁.cell? ⟨h₀.size + blockStart (width handles) p.definitions d + o⟩ = some c ∧
        h₁'.cell? ⟨h₀'.size + blockStart (width handles) p'.definitions d + o⟩ = some c' ∧
        CellLike .loaded π.bond c c' := by
  have sources : ∀ d ∈ p.definitions, ∃ m, d.resolve handles = .ok m := fun _ => loads.meaning
  have all : Bond.all.Joins handles handles' :=
    joins_of_perm loads loads' perm fun _ _ => trivial
  have self : Bond.all.Joins handles handles := Bond.Ties.joins fun _ _ => trivial
  obtain ⟨r, h, k, pair, start, built, keeps⟩ := (loads.blocks self sources).each d mem
  obtain ⟨r', h', k', pair', start', built', keeps'⟩ := (loads'.blocks all fun d mem =>
    sources d (perm.mem_iff.2 mem)).each d (perm.mem_iff.1 mem)
  obtain ⟨m, ok⟩ := loads.meaning mem
  obtain ⟨m', ok', like⟩ := Definition.like_resolve (joins_of_rearranges loads loads' perm rearranges)
    (allows_loaded handles _) ok
  have grown := size_of_builder self ok built
  rw [builder_of_ok ok] at built
  rw [builder_of_ok ok'] at built'
  have places : ∀ o, h.size + o < k.size → π.bond.cells ⟨h.size + o⟩ ⟨h'.size + o⟩ := by
    intro o before
    rw [start, start', loads.handle.1, loads'.handle.1]
    exact rearranges.cells d mem o (by omega)
  obtain ⟨r'', k'', count, again, bonded, abreast⟩ :=
    Script.built_abreast (alike_build like) built h' places
  rw [built'] at again
  cases again
  obtain rfl : π.of r = r' := bonded
  refine ⟨r, pair, pair', fun o within => ?_⟩
  have before : o < count := by
    have := abreast.size
    omega
  obtain ⟨c, c', found, found', likes⟩ := abreast.cells o before
  have here := keeps ⟨h.size + o⟩ (by have := abreast.size; simp only; omega)
  have here' := keeps' ⟨h'.size + o⟩ (by have := abreast.size'; simp only; omega)
  rw [start] at here found
  rw [start'] at here' found'
  exact ⟨c, c', here.trans found, here'.trans found', likes⟩

omit [DecidableEq Definition] perm rearranges in
theorem exprs_of_joins (joins : π.bond.Joins handles handles') (same : p'.outputs = p.outputs) :
    List.Forall₂ (fun e e' => e.2 = e'.2 ∧ ExprLike .loaded π.bond 0 e.1 e'.1) exprs exprs' := by
  have each := forall₂_of_mapM loads.shown
  have each' := forall₂_of_mapM loads'.shown
  rw [same] at each'
  generalize p.outputs = l at each each'
  clear loads loads' same
  induction each generalizing exprs' with
  | nil =>
    cases each'
    exact .nil
  | cons first _ ih =>
    cases each' with
    | cons first' rest' =>
      obtain ⟨e, ok, made⟩ := Except.ok_of_bind first
      obtain ⟨e', ok', made'⟩ := Except.ok_of_bind first'
      obtain ⟨e'', again, like⟩ := Node.like_resolve joins (allows_loaded handles _) ok
      cases ok'.symm.trans again
      cases made
      cases made'
      exact .cons ⟨rfl, like⟩ (ih rest')

/-- The cells of the outputs come last, in the same order and in the same places. -/
theorem outputs_of_rearranges (same : p'.outputs = p.outputs) :
    h₁.size = p.definitions.length + (p.definitions.map (width handles)).sum ∧
    List.Forall₂ (fun o o' => o.expanded = o'.expanded ∧ π.of o.cell = o'.cell) outputs outputs' ∧
      h₁'.size = h₁.size ∧ ∃ count, Heap.Abreast .loaded π.bond count h₁ h₂ h₁' h₂' := by
  have sources : ∀ d ∈ p.definitions, ∃ m, d.resolve handles = .ok m := fun _ => loads.meaning
  have all : Bond.all.Joins handles handles' := joins_of_perm loads loads' perm fun _ _ => trivial
  have self : Bond.all.Joins handles handles := Bond.Ties.joins fun _ _ => trivial
  have size := (loads.blocks self sources).size
  have size' := (loads'.blocks all fun d mem => sources d (perm.mem_iff.2 mem)).size
  rw [loads.handle.1] at size
  rw [loads'.handle.1, ← perm.length_eq, ← (perm.map (width handles)).sum_eq, ← size] at size'
  have exprs_like := exprs_of_joins loads loads' (joins_of_rearranges loads loads' perm rearranges)
    same
  have alike : Alike .loaded π.bond
      (List.Forall₂ fun o o' : Output => o.expanded = o'.expanded ∧ π.of o.cell = o'.cell)
      (showAll exprs) (showAll exprs') := by
    refine Alike.mapM ?_ exprs_like
    rintro ⟨e, expanded⟩ ⟨e', _⟩ ⟨rfl, like⟩
    exact (Expr.alike_interpret .nil like).bind fun r r' cells => .pure ⟨rfl, cells⟩
  have places : ∀ o, h₁.size + o < h₂.size → π.bond.cells ⟨h₁.size + o⟩ ⟨h₁'.size + o⟩ := by
    intro o _
    rw [size']
    refine rearranges.beyond _ ?_
    simp only [size]
    omega
  obtain ⟨outs, k, count, again, bonded, abreast⟩ :=
    Script.built_abreast alike loads.listed h₁' places
  cases loads'.listed.symm.trans again
  exact ⟨size, bonded, size', count, abreast⟩

end

end

end Program
end CallByNeed
