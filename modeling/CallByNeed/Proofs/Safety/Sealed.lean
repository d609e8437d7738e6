import CallByNeed.Proofs.Redirects
import CallByNeed.Proofs.Safety.Script

/- Stores that keep their effects to themselves. Known cells hold code that fits and mention known
   cells only; the cell of an effect that has been made is mentioned as an effect, and never as a cell
   that somebody may force. So its work is not found by those who force what they know. -/
namespace CallByNeed

/-- What may be mentioned: cells to force, and the cells of effects. -/
structure Ken where
  cells : Set Ref
  actions : Set Ref
  /-- The cells that somebody has been shown who asked for the result of an effect. -/
  shown : Set Ref := ∅
  /-- Whether one may know handles that have not been filled. -/
  gaps : Prop := False

namespace Ken

instance : LE Ken where
  le G K := G.cells ⊆ K.cells ∧ G.actions ⊆ K.actions ∧ G.shown ⊆ K.shown ∧ (G.gaps ↔ K.gaps)

theorem le_refl (G : Ken) : G ≤ G := ⟨Set.Subset.rfl, Set.Subset.rfl, Set.Subset.rfl, .rfl⟩

theorem le_trans {G K L : Ken} (first : G ≤ K) (second : K ≤ L) : G ≤ L :=
  ⟨first.1.trans second.1, first.2.1.trans second.2.1, first.2.2.1.trans second.2.2.1,
    first.2.2.2.trans second.2.2.2⟩

def Knows (G : Ken) (r : Ref) : Prop := r ∈ G.cells ∨ r ∈ G.actions

/-- Each known cell with itself. -/
def bond (G : Ken) : Bond where
  cells := fun r r' => r = r' ∧ r ∈ G.cells
  actions := fun r r' => r = r' ∧ r ∈ G.actions

theorem bond_mono {G K : Ken} (grows : G ≤ K) : G.bond ≤ K.bond :=
  ⟨fun _ _ cells => ⟨cells.1, grows.1 cells.2⟩, fun _ _ actions => ⟨actions.1, grows.2.1 actions.2⟩⟩

def withCells (G : Ken) (more : Set Ref) : Ken := { G with cells := G.cells ∪ more }

def withAction (G : Ken) (r : Ref) : Ken := { G with actions := insert r G.actions }

def withShown (G : Ken) (r : Ref) : Ken := { G with shown := insert r G.shown }

theorem le_withCells (G : Ken) (more : Set Ref) : G ≤ G.withCells more :=
  ⟨Set.subset_union_left, Set.Subset.rfl, Set.Subset.rfl, .rfl⟩

theorem withCells_of_mem {G : Ken} {r : Ref} (known : r ∈ G.cells) : G.withCells {r} = G := by
  simp [withCells, Set.insert_eq_of_mem known]

theorem le_withAction (G : Ken) (r : Ref) : G ≤ G.withAction r :=
  ⟨Set.Subset.rfl, Set.subset_insert .., Set.Subset.rfl, .rfl⟩

theorem le_withShown (G : Ken) (r : Ref) : G ≤ G.withShown r :=
  ⟨Set.Subset.rfl, Set.Subset.rfl, Set.subset_insert .., .rfl⟩

end Ken

/-- What a known cell may hold. -/
inductive CellState.Known (G : Ken) : CellState → Prop where
  | pending {w : Work} (works : WorkLike .loaded G.bond w w) : Known G (.pending w)
  | forcing : Known G .forcing
  | redirect {target : Ref} (known : target ∈ G.cells) : Known G (.redirect target)
  | forced {v : Value} (values : ValueLike .loaded G.bond v v) : Known G (.forced v)
  | vacant (gaps : G.gaps) : Known G .vacant

/-- Nobody finds the work of an effect in a cell to force. -/
structure CellState.Sealed (G : Ken) (r : Ref) (c : CellState) : Prop where
  known : c.Known G
  calm : r ∈ G.cells → ∀ w, c = .pending w → ¬ w.Performs

structure Heap.Sealed (G : Ken) (h : Heap) : Prop where
  fits : h.Fits
  known : ∀ r, G.Knows r → ∃ c, h.state? r = some c ∧ c.Sealed G r

structure Store.Sealed (G : Ken) (s : Store) : Prop where
  heap : s.heap.Sealed G
  pool : ∀ job ∈ s.pool, job.target ∈ G.cells
  rallies : ∀ y ∈ s.rallies, ∀ r ∈ y.arguments, r ∈ G.cells

/-- The handle that is held. -/
def Held.handle? : Held → Option Ref
  | .nothing => none
  | .knot handle _ _ => some handle

def Held.handles (held : Held) : List Ref := held.handle?.toList

/-- What a script holds mentions known cells, the handle, and what else it holds. -/
def Held.Known (G : Ken) (h : Heap) : Held → Prop
  | .nothing => True
  | .knot handle handle' made =>
    handle = handle' ∧ ∀ p ∈ made, p.1 = p.2 ∧ ∃ v, h.state? p.1 = some (.forced v) ∧
      ValueLike .loaded (G.bond.tie handle handle' made) v v

section
variable {G K : Ken} {h h' : Heap} {r : Ref} {c : CellState}

theorem CellState.Known.mono (grows : G ≤ K) (known : c.Known G) : c.Known K := by
  cases known with
  | pending works => exact .pending (works.mono (Ken.bond_mono grows))
  | forcing => exact .forcing
  | redirect known => exact .redirect (grows.1 known)
  | forced values => exact .forced (values.mono (Ken.bond_mono grows))
  | vacant gaps => exact .vacant (grows.2.2.2.1 gaps)

theorem StateLike.known (like : StateLike .loaded G.bond c c) : c.Known G := by
  cases like with
  | vacant strays => exact strays.elim
  | pending works => exact .pending works
  | forced values => exact .forced values

theorem CellState.Sealed.mono (grows : G ≤ K) (same : r ∈ K.cells → r ∈ G.cells)
    (sealed : c.Sealed G r) : c.Sealed K r :=
  ⟨sealed.known.mono grows, fun mem => sealed.calm (same mem)⟩

theorem CellState.Known.sealed (known : c.Known G) (idle : ∀ w, c ≠ .pending w) : c.Sealed G r :=
  ⟨known, fun _ w work => absurd work (idle w)⟩

theorem Held.known_nothing : Held.Known G h .nothing := trivial

theorem Held.Known.mono (grows : G ≤ K) (evolves : h.Evolves h') {held : Held}
    (known : held.Known G h) : held.Known K h' := by
  cases held with
  | nothing => trivial
  | knot handle handle' made =>
    obtain ⟨same, each⟩ := known
    refine ⟨same, fun p mine => ?_⟩
    obtain ⟨diagonal, v, forced, values⟩ := each p mine
    have wider := Bond.add_mono (Ken.bond_mono grows) (List.Subset.refl ((handle, handle') :: made))
    exact ⟨diagonal, v, evolves.forced forced, values.mono wider⟩

namespace Heap

theorem Fits.alloc (fits : h.Fits) {c : Cell} (new : c.state.Fits) : (h.alloc c).2.Fits := by
  intro r s known
  rw [state?_alloc] at known
  split at known
  · cases known
    exact new
  · exact fits r s known

theorem Fits.setState (fits : h.Fits) (r : Ref) (new : c.Fits) : (h.setState r c).Fits := by
  intro t s known
  by_cases same : t = r
  · subst same
    rw [state?_setState, if_pos rfl] at known
    obtain ⟨_, _, rfl⟩ := Option.map_eq_some_iff.1 known
    exact new
  · rw [state?_setState_ne same] at known
    exact fits t s known

namespace Sealed

theorem of_state (sealed : h.Sealed G) (known : G.Knows r) (state : h.state? r = some c) :
    c.Sealed G r := by
  obtain ⟨c', state', inside⟩ := sealed.known r known
  rw [state] at state'
  cases state'
  exact inside

theorem fresh (sealed : h.Sealed G) (free : h.state? r = none) : ¬ G.Knows r := by
  intro known
  obtain ⟨c, state, _⟩ := sealed.known r known
  rw [free] at state
  cases state

/-- Known cells stay as they are, and what is new to know is sealed. -/
theorem grow (sealed : h.Sealed G) (grows : G ≤ K) (fits : h'.Fits)
    (keeps : ∀ r c, G.Knows r → h.state? r = some c → h'.state? r = some c)
    (new : ∀ r, K.Knows r → ¬ G.Knows r → ∃ c, h'.state? r = some c ∧ c.Sealed K r)
    (apart : ∀ r ∈ K.cells, r ∈ G.actions → r ∈ G.cells) : h'.Sealed K := by
  refine ⟨fits, fun r mem => ?_⟩
  by_cases old : G.Knows r
  · obtain ⟨c, state, inside⟩ := sealed.known r old
    exact ⟨c, keeps r c old state, inside.mono grows fun cell => old.elim id (apart r cell)⟩
  · exact new r mem old

/-- A new cell need not be known. -/
theorem alloc_aside (sealed : h.Sealed G) {c : Cell} (fits : c.state.Fits) :
    (h.alloc c).2.Sealed G :=
  sealed.grow G.le_refl (sealed.fits.alloc fits) (fun _ _ _ state => state?_alloc_of_some state c)
    (fun _ known unknown => absurd known unknown) fun _ mem _ => mem

theorem alloc (sealed : h.Sealed G) {c : Cell} (fits : c.state.Fits) (known : c.state.Known G)
    (calm : ∀ w, c.state = .pending w → ¬ w.Performs) :
    (h.alloc c).2.Sealed (G.withCells {(h.alloc c).1}) := by
  have grows := G.le_withCells {(h.alloc c).1}
  refine sealed.grow grows (sealed.fits.alloc fits)
    (fun _ _ _ state => state?_alloc_of_some state c) (fun r known' unknown => ?_) fun r mem action => ?_
  · have same : r = (h.alloc c).1 := by
      rcases known' with (cell | new) | action
      · exact absurd (.inl cell) unknown
      · exact new
      · exact absurd (.inr action) unknown
    refine ⟨c.state, by rw [state?_alloc, if_pos same], known.mono grows, fun _ => calm⟩
  · refine mem.resolve_right fun new => ?_
    have unknown : ¬ G.Knows (h.alloc c).1 := sealed.fresh h.state?_size
    exact unknown (.inr (Set.mem_singleton_iff.1 new ▸ action))

/-- The cell of an effect. -/
theorem alloc_action (sealed : h.Sealed G) {c : Cell} (fits : c.state.Fits)
    (known : c.state.Known G) : (h.alloc c).2.Sealed (G.withAction (h.alloc c).1) := by
  have grows := G.le_withAction (h.alloc c).1
  refine sealed.grow grows (sealed.fits.alloc fits)
    (fun _ _ _ state => state?_alloc_of_some state c) (fun r known' unknown => ?_) fun _ mem _ => mem
  have same : r = (h.alloc c).1 := by
    rcases known' with cell | new | action
    · exact absurd (.inl cell) unknown
    · exact new
    · exact absurd (.inr action) unknown
  have unknown : ¬ G.Knows (h.alloc c).1 := sealed.fresh h.state?_size
  refine ⟨c.state, by rw [state?_alloc, if_pos same], known.mono grows, fun cell => ?_⟩
  exact absurd (.inl (same ▸ cell)) unknown

theorem show_action (sealed : h.Sealed G) (r : Ref) : h.Sealed (G.withShown r) :=
  sealed.grow (G.le_withShown r) sealed.fits (fun _ _ _ state => state)
    (fun _ known unknown => absurd known unknown) fun _ mem _ => mem

/-- A known cell takes another state, and may be forced from then on. -/
theorem setState (sealed : h.Sealed G) {old : CellState} (state : h.state? r = some old)
    (fits : c.Fits) (known : c.Known (G.withCells {r})) (idle : ∀ w, c ≠ .pending w) :
    (h.setState r c).Sealed (G.withCells {r}) := by
  refine ⟨sealed.fits.setState r fits, fun t mem => ?_⟩
  by_cases same : t = r
  · subst same
    exact ⟨c, state?_setState_self state c, known.sealed idle⟩
  · have before : G.Knows t := mem.imp (fun cell => cell.resolve_right same) id
    obtain ⟨s, found, inside⟩ := sealed.known t before
    refine ⟨s, by rw [state?_setState_ne same, found], inside.mono (G.le_withCells _) fun cell => ?_⟩
    exact cell.resolve_right same

theorem setState_cell (sealed : h.Sealed G) (running : r ∈ G.cells) (fits : c.Fits)
    (known : c.Known G) (idle : ∀ w, c ≠ .pending w) : (h.setState r c).Sealed G := by
  obtain ⟨old, state, _⟩ := sealed.known r (.inl running)
  have same := Ken.withCells_of_mem running
  exact same ▸ sealed.setState state fits (same.symm ▸ known) idle

/-- The handle leads to a held cell, and nothing that was held is unknown any more. -/
theorem fill (sealed : h.Sealed G) {handle target : Ref} {made : List (Ref × Ref)}
    (mine : Held.Known G h (.knot handle handle made)) (vacant : h.state? handle = some .vacant)
    (held : target ∈ made.map Prod.fst) :
    (h.setState handle (.redirect target)).Sealed
      (G.withCells {r | r ∈ handle :: made.map Prod.fst}) := by
  let K := G.withCells {r | r ∈ handle :: made.map Prod.fst}
  have grows : G ≤ K := G.le_withCells _
  have tied : G.bond.tie handle handle made ≤ K.bond := by
    refine ⟨?_, (Ken.bond_mono grows).2⟩
    rintro r r' (old | member)
    · exact (Ken.bond_mono grows).1 r r' old
    · cases member with
      | head => exact ⟨rfl, .inr (List.mem_cons_self ..)⟩
      | tail _ member =>
        exact ⟨(mine.2 _ member).1, .inr (List.mem_cons_of_mem _ (List.mem_map_of_mem member))⟩
  refine ⟨sealed.fits.setState handle trivial, fun r known => ?_⟩
  by_cases same : r = handle
  · subst same
    have redirect : CellState.Known K (.redirect target) :=
      .redirect (.inr (List.mem_cons_of_mem _ held))
    exact ⟨_, state?_setState_self vacant _, redirect.sealed (by simp)⟩
  · rw [state?_setState_ne same]
    by_cases loose : r ∈ made.map Prod.fst
    · obtain ⟨p, pair, rfl⟩ := List.mem_map.1 loose
      obtain ⟨_, v, forced, values⟩ := mine.2 p pair
      exact ⟨_, forced, (CellState.Known.forced (values.mono tied)).sealed (by simp)⟩
    · have new : r ∉ {r | r ∈ handle :: made.map Prod.fst} := by
        simpa [same] using loose
      have before : G.Knows r := known.imp (fun cell => cell.resolve_right new) id
      obtain ⟨c, state, inside⟩ := sealed.known r before
      exact ⟨c, state, inside.mono grows fun cell => cell.resolve_right new⟩

end Sealed
end Heap

theorem Store.Sealed.with_heap {s : Store} (sealed : s.Sealed G) (grows : G ≤ K) {h : Heap}
    (heap : h.Sealed K) : ({ s with heap := h } : Store).Sealed K :=
  ⟨heap, fun job mine => grows.1 (sealed.pool job mine),
    fun y listed r mine => grows.1 (sealed.rallies y listed r mine)⟩

end
end CallByNeed
