import CallByNeed.Proofs.Acceptance
import CallByNeed.Proofs.Loading.Reordered

/- What loads of the same definitions in two orders leave: the second heap is the first one renamed,
   names go to renamed handles, and outputs to renamed cells. Either both are accepted or neither. -/
namespace CallByNeed

theorem Heap.lt_size_of_cell {h : Heap} {r : Ref} {c : Cell} (found : h.cell? r = some c) :
    r.index < h.size := by
  obtain ⟨bound, _⟩ := Array.getElem?_eq_some_iff.1 found
  exact bound

theorem Heap.lt_size_of_state {h : Heap} {r : Ref} {c : CellState} (found : h.state? r = some c) :
    r.index < h.size := by
  obtain ⟨cell, found, _⟩ := Option.map_eq_some_iff.1 found
  exact lt_size_of_cell found

theorem Heap.cell?_of_le {h : Heap} {r : Ref} (outside : h.size ≤ r.index) : h.cell? r = none :=
  Array.getElem?_eq_none outside

namespace Program

section
variable {p : Program} {handles : Handles} {meanings : List Meaning} {exprs : List (Expr × Bool)}
variable {cells : List Ref} {outputs : List Output} {h₀ h₁ h₂ : Heap}

/-- Cells that were made before the others are as they were made. -/
theorem Loads.kept (loads : p.Loads handles meanings exprs cells outputs h₀ h₁ h₂) {r : Ref} :
    (r.index < h₀.size → h₂.cell? r = h₀.cell? r) ∧ (r.index < h₁.size → h₂.cell? r = h₁.cell? r) := by
  obtain ⟨more, keeps⟩ := Script.kept_of_built loads.built
  obtain ⟨_, keeps'⟩ := Script.kept_of_built loads.listed
  refine ⟨fun old => ?_, keeps' r⟩
  rw [keeps' r (by omega), keeps r old]

theorem Loads.counts (loads : p.Loads handles meanings exprs cells outputs h₀ h₁ h₂) :
    handles.length = p.definitions.length ∧ cells.length = p.definitions.length := by
  constructor
  · simpa [Program.names] using congrArg List.length loads.handled.names
  · have each := (List.forall₂_iff_get.1 loads.resolved).1
    rw [each]
    exact (built_of_mapM loads.built).length_eq.symm

theorem Loads.vacant (loads : p.Loads handles meanings exprs cells outputs h₀ h₁ h₂) :
    ∀ r ∈ handles.map Prod.snd, h₂.state? r = some .vacant := by
  intro r mine
  have first := loads.handled.vacant r mine
  have old := Heap.lt_size_of_state first
  simpa only [Heap.state?, loads.kept.1 old] using first

variable [DecidableEq Definition]

/-- What loading leaves at a handle. -/
theorem Loads.filled_handle (loads : p.Loads handles meanings exprs cells outputs h₀ h₁ h₂)
    {d : Definition} (mem : d ∈ p.definitions) {t : Ref} (pair : (d, t) ∈ p.definitions.zip cells) :
    (fillAll (handles.map Prod.snd) cells h₂).state?
        ⟨blockStart (fun _ => 1) p.definitions d⟩ = some (.redirect t) ∧
      (fillAll (handles.map Prod.snd) cells h₂).site?
        ⟨blockStart (fun _ => 1) p.definitions d⟩ = none := by
  obtain ⟨named, made⟩ := loads.handle.2 d mem
  have count : (handles.map Prod.snd).length = cells.length := by
    rw [List.length_map, loads.counts.1, loads.counts.2]
  have redirects := (state?_fillAll loads.handled.nodup count loads.vacant).1
  have joined := mem_zip_join loads.nodup named pair
  have filled : (⟨blockStart (fun _ => 1) p.definitions d⟩, t) ∈ (handles.map Prod.snd).zip cells := by
    rw [List.zip_map_left]
    exact List.mem_map.2 ⟨_, joined, rfl⟩
  refine ⟨redirects _ filled, ?_⟩
  rw [site?_fillAll, Heap.site?, loads.kept.1 (Heap.lt_size_of_cell made), made]
  rfl

/-- What loading leaves anywhere else. -/
theorem Loads.filled_other (loads : p.Loads handles meanings exprs cells outputs h₀ h₁ h₂)
    {r : Ref} (outside : p.definitions.length ≤ r.index) :
    (fillAll (handles.map Prod.snd) cells h₂).state? r = h₂.state? r ∧
      (fillAll (handles.map Prod.snd) cells h₂).site? r = h₂.site? r := by
  refine ⟨?_, site?_fillAll ..⟩
  have count : (handles.map Prod.snd).length = cells.length := by
    rw [List.length_map, loads.counts.1, loads.counts.2]
  refine (state?_fillAll loads.handled.nodup count loads.vacant).2 r fun mine => ?_
  have inside := Heap.lt_size_of_state (loads.handled.vacant r mine)
  rw [loads.handle.1] at inside
  omega

/-- A cell of the program is a handle, or a cell of a definition, or one that was made after them. -/
theorem Loads.places (loads : p.Loads handles meanings exprs cells outputs h₀ h₁ h₂) (r : Ref) :
    (∃ d ∈ p.definitions, r = ⟨blockStart (fun _ => 1) p.definitions d⟩) ∨
      (∃ d ∈ p.definitions, ∃ o < width handles d,
        r = ⟨h₀.size + blockStart (width handles) p.definitions d + o⟩) ∨
      p.definitions.length + (p.definitions.map (width handles)).sum ≤ r.index := by
  have ones : (p.definitions.map fun _ => 1).sum = p.definitions.length := by simp
  have nodup := loads.nodup
  rw [loads.handle.1]
  by_cases first : r.index < p.definitions.length
  · obtain ⟨d, mem, o, within, place⟩ := exists_block _ nodup (ones.symm ▸ first)
    obtain rfl : o = 0 := by omega
    exact .inl ⟨d, mem, congrArg Ref.mk place⟩
  · by_cases second : r.index < p.definitions.length + (p.definitions.map (width handles)).sum
    · obtain ⟨d, mem, o, within, place⟩ :=
        exists_block (width handles) nodup (n := r.index - p.definitions.length) (by omega)
      refine .inr (.inl ⟨d, mem, o, within, ?_⟩)
      have index : r.index =
          p.definitions.length + blockStart (width handles) p.definitions d + o := by omega
      exact congrArg Ref.mk index
    · exact .inr (.inr (by omega))

end

theorem rel_of_cellLike {π : Renaming} {h h' : Heap} {r r' : Ref} {c c' : Cell}
    (found : h.cell? r = some c) (found' : h'.cell? r' = some c')
    (like : CellLike .loaded π.bond c c') :
    Option.Rel (CellState.Renamed π) (h.state? r) (h'.state? r') ∧ h.site? r = h'.site? r' := by
  simp only [Heap.state?, Heap.site?, found, found']
  exact ⟨.some like.state.renamed, like.site⟩

section
variable [DecidableEq Definition] {p p' : Program} {handles handles' : Handles}
variable {meanings meanings' : List Meaning} {exprs exprs' : List (Expr × Bool)}
variable {cells cells' : List Ref} {outputs outputs' : List Output} {h₀ h₁ h₂ h₀' h₁' h₂' : Heap}

theorem renamed_of_rearranges {π : Renaming}
    (loads : p.Loads handles meanings exprs cells outputs h₀ h₁ h₂)
    (loads' : p'.Loads handles' meanings' exprs' cells' outputs' h₀' h₁' h₂')
    (perm : p.definitions.Perm p'.definitions) (same : p'.outputs = p.outputs)
    (rearranges : Rearranges π (width handles) p.definitions p'.definitions) :
    (fillAll (handles.map Prod.snd) cells h₂).Renamed π
      (fillAll (handles'.map Prod.snd) cells' h₂') := by
  have count := perm.length_eq
  obtain ⟨size, _, size', made, abreast⟩ :=
    outputs_of_rearranges loads loads' perm rearranges same
  have each : ∀ r, Option.Rel (CellState.Renamed π)
        ((fillAll (handles.map Prod.snd) cells h₂).state? r)
        ((fillAll (handles'.map Prod.snd) cells' h₂').state? (π.of r)) ∧
      (fillAll (handles.map Prod.snd) cells h₂).site? r =
        (fillAll (handles'.map Prod.snd) cells' h₂').site? (π.of r) := by
    intro r
    rcases loads.places r with ⟨d, mem, rfl⟩ | ⟨d, mem, o, within, rfl⟩ | beyond
    · obtain ⟨t, pair, pair', _⟩ := cells_of_rearranges loads loads' perm rearranges mem
      obtain ⟨state, site⟩ := loads.filled_handle mem pair
      obtain ⟨state', site'⟩ := loads'.filled_handle (perm.mem_iff.1 mem) pair'
      rw [rearranges.handles d mem, state, state', site, site']
      exact ⟨.some (.redirect t), rfl⟩
    · obtain ⟨_, _, _, alike⟩ := cells_of_rearranges loads loads' perm rearranges mem
      obtain ⟨c, c', found, found', like⟩ := alike o within
      have moved := rearranges.cells d mem o within
      rw [← loads.handle.1, ← loads'.handle.1] at moved
      have inside := loads.handle.1
      have inside' := loads'.handle.1
      obtain ⟨state, site⟩ := loads.filled_other
        (r := ⟨h₀.size + blockStart (width handles) p.definitions d + o⟩) (by simp only; omega)
      obtain ⟨state', site'⟩ := loads'.filled_other
        (r := ⟨h₀'.size + blockStart (width handles) p'.definitions d + o⟩) (by simp only; omega)
      rw [moved, state, state', site, site']
      refine rel_of_cellLike ?_ ?_ like
      · rw [loads.kept.2 (Heap.lt_size_of_cell found), found]
      · rw [loads'.kept.2 (Heap.lt_size_of_cell found'), found']
    · obtain ⟨state, site⟩ := loads.filled_other (r := r) (by omega)
      obtain ⟨state', site'⟩ := loads'.filled_other (r := r) (by omega)
      rw [rearranges.beyond r beyond, state, state', site, site']
      by_cases inside : r.index < h₂.size
      · obtain ⟨c, c', found, found', like⟩ := abreast.cells (r.index - h₁.size) (by
          have := abreast.size
          omega)
        have index : h₁.size + (r.index - h₁.size) = r.index := by omega
        rw [index] at found
        rw [size', index] at found'
        exact rel_of_cellLike found found' like
      · have outside : h₂'.size ≤ r.index := by
          have := abreast.size
          have := abreast.size'
          omega
        simp only [Heap.state?, Heap.site?, Heap.cell?_of_le (Nat.le_of_not_lt inside),
          Heap.cell?_of_le outside]
        exact ⟨.none, trivial⟩
  constructor
  case size =>
    have := abreast.size
    have := abreast.size'
    rw [size_fillAll, size_fillAll]
    omega
  case fresh =>
    intro r outside
    have := abreast.size
    rw [size_fillAll] at outside
    exact rearranges.beyond r (by omega)
  case states => exact fun r => (each r).1
  case sites => exact fun r => (each r).2

end

/-- The cell is what the name of the definition means everywhere, and it redirects to what was made
    of the definition. -/
structure StandsFor (m : Module) (h : Heap) (d : Definition) (r : Ref) : Prop where
  resolves : ∀ scope, (Node.global d.name).resolve m.definitions scope = .ok (.cell r)
  built : ∃ meaning target before after, d.resolve m.definitions = .ok meaning ∧
    (build meaning : StateM Heap Ref).run before = (target, after) ∧ h.Redirects r target ∧
      ∀ q : Ref, before.size ≤ q.index → q.index < after.size → h.state? q = after.state? q

/-- Two loads whose heaps are the same but for the addresses of cells. -/
structure LoadedAlike (π : Renaming) (m m' : Module) (h h' : Heap) : Prop where
  heap : h.Renamed π h'
  definitions : π.bond.Joins m.definitions m'.definitions
  outputs : List.Forall₂ (fun o o' => o.expanded = o'.expanded ∧ π.of o.cell = o'.cell)
    m.outputs m'.outputs

section
variable [DecidableEq Definition] {p : Program} {m : Module} {meanings : List Meaning}
variable {exprs : List (Expr × Bool)} {cells : List Ref} {h₀ h₁ h₂ : Heap}

theorem Loads.standsFor (loads : p.Loads m.definitions meanings exprs cells m.outputs h₀ h₁ h₂)
    {d : Definition} (mem : d ∈ p.definitions) :
    StandsFor m (fillAll (m.definitions.map Prod.snd) cells h₂) d
      ⟨blockStart (fun _ => 1) p.definitions d⟩ := by
  have self : Bond.all.Joins m.definitions m.definitions := Bond.Ties.joins fun _ _ => trivial
  obtain ⟨t, k, k', pair, start, built, keeps⟩ :=
    (loads.blocks self fun _ => loads.meaning).each d mem
  obtain ⟨meaning, ok⟩ := loads.meaning mem
  rw [builder_of_ok ok, builds_build meaning k] at built
  refine ⟨fun scope => ?_, meaning, t, k, k', ok, Option.some.inj built,
    (loads.filled_handle mem pair).1, fun q after before => ?_⟩
  · simp only [Node.resolve, loads.lookup mem]
    rfl
  · have handles := loads.handle.1
    have same := keeps q before
    have found : k'.cell? q = some _ := Array.getElem?_eq_getElem before
    have inside := Heap.lt_size_of_cell (same.trans found)
    rw [(loads.filled_other (by omega)).1, Heap.state?, Heap.state?, loads.kept.2 inside, same]

end

/-- Loads of the same definitions are alike, and each name stands for the same definition in both. -/
theorem loadedAlike_of_perm {p p' : Program} (perm : p.definitions.Perm p'.definitions)
    (same : p'.outputs = p.outputs) {m m' : Module} {h h' : Heap} (e : p.load {} = .ok (m, h))
    (e' : p'.load {} = .ok (m', h')) :
    ∃ π, LoadedAlike π m m' h h' ∧
      ∀ d ∈ p.definitions, ∃ r, StandsFor m h d r ∧ StandsFor m' h' d (π.of r) := by
  classical
  obtain ⟨meanings, exprs, cells, h₀, h₁, h₂, loads, rfl⟩ := loads_of_load e
  obtain ⟨meanings', exprs', cells', h₀', h₁', h₂', loads', rfl⟩ := loads_of_load e'
  obtain ⟨π, rearranges⟩ := exists_rearranges perm loads.nodup (width m.definitions)
  refine ⟨π, ⟨renamed_of_rearranges loads loads' perm same rearranges,
    joins_of_rearranges loads loads' perm rearranges,
    (outputs_of_rearranges loads loads' perm rearranges same).2.1⟩, fun d mem => ?_⟩
  refine ⟨_, loads.standsFor mem, ?_⟩
  rw [rearranges.handles d mem]
  exact loads'.standsFor (perm.mem_iff.1 mem)

section
variable {p p' : Program}

theorem holds_of_perm (perm : p.definitions.Perm p'.definitions) (same : p'.outputs = p.outputs)
    {scope : Scope} {node : Node} (holds : p'.Holds scope node) : p.Holds scope node := by
  cases holds with
  | definition mem holds => exact .definition (perm.mem_iff.2 mem) holds
  | output mem => exact .output (same ▸ mem)

theorem sound_of_perm (names : ∀ name, name ∈ p'.names ↔ name ∈ p.names) {locals : Nat}
    {node : Node} (sound : node.Sound p locals) : node.Sound p' locals := by
  cases node with
  | literal l => trivial
  | «local» index => exact sound
  | global name => exact sound.imp (names name).2 id
  | call function positionals keywords dicts site => trivial
  | switch value cases default =>
    refine ⟨sound.1, fun case mem => ?_⟩
    have constant := sound.2 case mem
    generalize case.pattern = pattern at constant
    cases pattern with
    | literal l => trivial
    | global name => exact ⟨fun defined => constant.1 ((names name).1 defined), constant.2⟩
    | «local» index => exact constant
    | call function positionals keywords dicts site => exact constant
    | switch value cases default => exact constant

theorem wellFormed_of_perm (perm : p.definitions.Perm p'.definitions)
    (same : p'.outputs = p.outputs) (good : p.WellFormed) : p'.WellFormed := by
  have permuted : p.names.Perm p'.names := perm.map Definition.name
  have names : ∀ name, name ∈ p'.names ↔ name ∈ p.names := fun _ => permuted.mem_iff.symm
  have aliases : p'.Alias = p.Alias := by
    funext name target
    exact propext ⟨fun h => ⟨perm.mem_iff.2 h.1, (names target).1 h.2⟩,
      fun h => ⟨perm.mem_iff.1 h.1, (names target).2 h.2⟩⟩
  constructor
  case distinct => exact permuted.nodup_iff.1 good.distinct
  case acyclic =>
    rw [aliases]
    exact good.acyclic
  case sound =>
    intro scope whole part holds inside
    exact sound_of_perm names (good.sound scope whole part (holds_of_perm perm same holds) inside)

theorem isOk_load_iff (p : Program) (heap : Heap) :
    (∃ m h, p.load heap = .ok (m, h)) ↔ p.WellFormed := by
  have tests := tests_load p heap
  cases loaded : p.load heap with
  | ok result =>
    rw [loaded] at tests
    exact ⟨fun _ => tests, fun _ => ⟨result.1, result.2, rfl⟩⟩
  | error e =>
    rw [loaded] at tests
    refine ⟨?_, fun good => absurd good (Defect.not_wellFormed tests)⟩
    rintro ⟨m, h, accepted⟩
    cases accepted

theorem isOk_load_of_perm (perm : p.definitions.Perm p'.definitions)
    (same : p'.outputs = p.outputs) :
    (∃ m h, p.load {} = .ok (m, h)) ↔ ∃ m h, p'.load {} = .ok (m, h) := by
  rw [isOk_load_iff, isOk_load_iff]
  exact ⟨wellFormed_of_perm perm same, wellFormed_of_perm perm.symm same.symm⟩

end

end Program
end CallByNeed
