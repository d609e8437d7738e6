import CallByNeed.Proofs.Heap.Moves
import CallByNeed.Proofs.Redirects

/- Stores that are the same but for the addresses of their cells. Whatever a script does to one of
   them, a like script does to the other. New cells have the same address in both, since a renaming
   leaves alone what is not made yet. -/
namespace CallByNeed

/-- Each cell is somewhere else, and no two cells are in one place. -/
structure Renaming where
  of : Ref → Ref
  injective : Function.Injective of

/-- Each cell with the one it is renamed to. -/
def Renaming.bond (π : Renaming) : Bond where
  cells := fun r r' => π.of r = r'
  actions := fun r r' => π.of r = r'

section
variable (π : Renaming)

inductive CellState.Renamed : CellState → CellState → Prop where
  | vacant : Renamed .vacant .vacant
  | pending {w w' : Work} (works : WorkLike .loaded π.bond w w') :
      Renamed (.pending w) (.pending w')
  | forcing : Renamed .forcing .forcing
  | redirect (target : Ref) : Renamed (.redirect target) (.redirect (π.of target))
  | forced {v v' : Value} (values : ValueLike .loaded π.bond v v') :
      Renamed (.forced v) (.forced v')

structure Heap.Renamed (h h' : Heap) : Prop where
  size : h.size = h'.size
  fresh : ∀ r, h.size ≤ r.index → π.of r = r
  states : ∀ r, Option.Rel (CellState.Renamed π) (h.state? r) (h'.state? (π.of r))
  sites : ∀ r, h.site? r = h'.site? (π.of r)

def Job.rename (job : Job) : Job := { job with target := π.of job.target }

def Rally.rename (y : Rally) : Rally := { y with arguments := y.arguments.map π.of }

structure Store.Renamed (s s' : Store) : Prop where
  heap : s.heap.Renamed π s'.heap
  rallies : s'.rallies = s.rallies.map (Rally.rename π)
  pool : s'.pool = s.pool.map (Job.rename π)
  trace : s'.trace = s.trace

/-- What a script holds is renamed like everything else. -/
def Held.Renamed : Held → Prop
  | .nothing => True
  | .knot handle handle' made => π.of handle = handle' ∧ ∀ p ∈ made, π.of p.1 = p.2

end

section
variable {π : Renaming} {h h' : Heap} {s s' : Store}

theorem refsLike_bond {rs rs' : List Ref} : RefsLike π.bond rs rs' ↔ rs' = rs.map π.of := by
  unfold RefsLike Renaming.bond
  rw [← List.forall₂_map_left_iff (R := Eq), List.forall₂_eq_eq_eq]
  exact eq_comm

theorem StateLike.renamed {c c' : CellState} (like : StateLike .loaded π.bond c c') :
    c.Renamed π c' := by
  cases like with
  | vacant strays => exact strays.elim
  | pending works => exact .pending works
  | forced values => exact .forced values

/-- What mentions held cells mentions renamed ones. -/
theorem Renaming.add_le {handle handle' : Ref} {made : List (Ref × Ref)}
    (held : (Held.knot handle handle' made).Renamed π) :
    π.bond.add ((handle, handle') :: made) ≤ π.bond := by
  refine ⟨?_, fun _ _ => id⟩
  rintro r r' (old | mine)
  · exact old
  · cases mine with
    | head => exact held.1
    | tail _ mine => exact held.2 _ mine

namespace Heap.Renamed

theorem of_state (renamed : h.Renamed π h') {r : Ref} {c : CellState} (state : h.state? r = some c) :
    ∃ c', h'.state? (π.of r) = some c' ∧ c.Renamed π c' := by
  have states := renamed.states r
  rw [state] at states
  generalize h'.state? (π.of r) = o at states
  cases states with
  | some states => exact ⟨_, rfl, states⟩

theorem of_none (renamed : h.Renamed π h') {r : Ref} (state : h.state? r = none) :
    h'.state? (π.of r) = none := by
  have states := renamed.states r
  rw [state] at states
  generalize h'.state? (π.of r) = o at states
  cases states
  rfl

theorem new (renamed : h.Renamed π h') (c c' : Cell) : π.of (h.alloc c).1 = (h'.alloc c').1 := by
  have fixed : π.of ⟨h.size⟩ = ⟨h.size⟩ := renamed.fresh ⟨h.size⟩ (Nat.le_refl _)
  have size := renamed.size
  simp only [Heap.alloc, ← size, fixed]

theorem alloc (renamed : h.Renamed π h') {c c' : Cell} (states : c.state.Renamed π c'.state)
    (site : c.site = c'.site) : (h.alloc c).2.Renamed π (h'.alloc c').2 := by
  have new := renamed.new c c'
  have grown (k : Heap) (d : Cell) : (k.alloc d).2.size = k.size + 1 := by
    simp [Heap.alloc, Heap.size]
  constructor
  case size => rw [grown, grown, renamed.size]
  case fresh =>
    intro r outside
    rw [grown] at outside
    exact renamed.fresh r (by omega)
  case states =>
    intro r
    rw [Heap.state?_alloc, Heap.state?_alloc, ← new]
    by_cases same : r = (h.alloc c).1
    · rw [if_pos same, if_pos (congrArg π.of same)]
      exact .some states
    · rw [if_neg same, if_neg fun again => same (π.injective again)]
      exact renamed.states r
  case sites =>
    intro r
    simp only [Heap.site?, Heap.cell?_alloc, ← new]
    by_cases same : r = (h.alloc c).1
    · rw [if_pos same, if_pos (congrArg π.of same)]
      exact site
    · rw [if_neg same, if_neg fun again => same (π.injective again)]
      exact renamed.sites r

theorem setState (renamed : h.Renamed π h') (r : Ref) {c c' : CellState}
    (states : c.Renamed π c') : (h.setState r c).Renamed π (h'.setState (π.of r) c') := by
  constructor
  case size => rw [Heap.size_setState, Heap.size_setState, renamed.size]
  case fresh =>
    intro t outside
    rw [Heap.size_setState] at outside
    exact renamed.fresh t outside
  case states =>
    intro t
    rw [Heap.state?_setState, Heap.state?_setState]
    have old := renamed.states t
    by_cases same : t = r
    · subst same
      rw [if_pos rfl, if_pos rfl]
      generalize h.state? t = o, h'.state? (π.of t) = o' at old
      cases old with
      | some => exact .some states
      | none => exact .none
    · rw [if_neg same, if_neg fun again => same (π.injective again)]
      exact old
  case sites =>
    intro t
    rw [Heap.site?_setState, Heap.site?_setState]
    exact renamed.sites t

theorem publish (renamed : h.Renamed π h') (r : Ref) {v v' : Value}
    (values : ValueLike .loaded π.bond v v') :
    (h.publish r v).Renamed π (h'.publish (π.of r) v') :=
  renamed.setState r (.forced values)

/-- Both handles are filled, or both are no handles any more. -/
theorem fill (renamed : h.Renamed π h') (handle target : Ref) :
    (h.fill handle target).1 = (h'.fill (π.of handle) (π.of target)).1 ∧
      (h.fill handle target).2.Renamed π (h'.fill (π.of handle) (π.of target)).2 := by
  have states := renamed.states handle
  have moved := renamed.setState handle (.redirect target)
  unfold Heap.fill
  generalize h.state? handle = o, h'.state? (π.of handle) = o' at states
  cases states with
  | none => exact ⟨rfl, renamed⟩
  | some states =>
    cases states with
    | vacant => exact ⟨rfl, moved⟩
    | pending works => exact ⟨rfl, renamed⟩
    | forcing => exact ⟨rfl, renamed⟩
    | redirect t => exact ⟨rfl, renamed⟩
    | forced values => exact ⟨rfl, renamed⟩

end Heap.Renamed

theorem Store.Renamed.with_heap (renamed : s.Renamed π s') (heap : h.Renamed π h') :
    ({ s with heap := h } : Store).Renamed π { s' with heap := h' } :=
  ⟨heap, renamed.rallies, renamed.pool, renamed.trace⟩

theorem Rally.poll_rename (π : Renaming) (y : Rally) :
    PollLike π.bond y.poll.1 (y.rename π).poll.1 ∧ (y.rename π).poll.2 = y.poll.2.rename π := by
  unfold Rally.poll
  simp only [Rally.rename, Array.getElem?_map]
  split
  · exact ⟨.exhausted, rfl⟩
  · split
    · exact ⟨.reported _, rfl⟩
    · split
      · exact ⟨.exhausted, rfl⟩
      · next i found =>
        cases y.arguments[i]? with
        | none => exact ⟨.exhausted, rfl⟩
        | some r => exact ⟨.late i rfl, rfl⟩

theorem Rally.list_rename (π : Renaming) (y : Rally) (i : Nat) :
    Option.Rel π.bond.cells (y.list i).1 ((y.rename π).list i).1 ∧
      ((y.rename π).list i).2 = (y.list i).2.rename π := by
  unfold Rally.list
  simp only [Rally.rename, Array.getElem?_map]
  cases y.listed[i]? with
  | none => exact ⟨.none, rfl⟩
  | some listed =>
    cases y.arguments[i]? with
    | none => cases listed <;> exact ⟨.none, rfl⟩
    | some r =>
      cases listed with
      | false => exact ⟨.some rfl, rfl⟩
      | true => exact ⟨.none, rfl⟩

/-- Like scripts that take one action go on alike. -/
structure Script.Acted (π : Renaming) {α β : Type}
    (post : Held → Except Fault α → Except Fault β → Prop) (held : Held) (rest : Script α)
    (rest' : Script β) (s s' : Store) : Prop where
  mine : held.Renamed π
  scripts : ScriptLike .loaded π.bond post held rest rest'
  stores : s.Renamed π s'

section
variable {α β : Type} {post : Held → Except Fault α → Except Fault β → Prop} {held : Held}

theorem Store.Renamed.act (renamed : s.Renamed π s') (mine : held.Renamed π) {a : Action}
    {next : a.Answer → Script α} {script' : Script β}
    (scripts : ScriptLike .loaded π.bond post held (.act a next) script') :
    ∃ (a' : Action) (next' : a'.Answer → Script β), script' = .act a' next' ∧
      ∃ held', Script.Acted π post held' (next (s.act a).1) (next' (s'.act a').1) (s.act a).2
        (s'.act a').2 := by
  cases scripts with
  | @alloc c c' _ next' made rest =>
    refine ⟨.alloc c', next', rfl, .nothing, trivial, rest _ _ (renamed.heap.new c c'), ?_⟩
    exact renamed.with_heap (renamed.heap.alloc made.state.renamed made.site)
  | @action b b' ps ps' _ next' bodies parameters rest =>
    have new := renamed.heap.new (.ofSuspension (.action b ps)) (.ofSuspension (.action b' ps'))
    refine ⟨.alloc (.ofSuspension (.action b' ps')), next', rfl, .nothing, trivial, rest _ _ new, ?_⟩
    exact renamed.with_heap
      (renamed.heap.alloc (.pending ⟨.resume (.action trivial bodies parameters), rfl⟩) rfl)
  | @vacant _ next' rest =>
    have new := renamed.heap.new .vacant .vacant
    refine ⟨.alloc .vacant, next', rfl, .knot _ _ [], ⟨new, by simp⟩, rest _ _, ?_⟩
    exact renamed.with_heap (renamed.heap.alloc .vacant rfl)
  | @hold handle handle' made v v' _ next' values rest =>
    have new := renamed.heap.new (.ofValue v) (.ofValue v')
    refine ⟨.alloc (.ofValue v'), next', rfl, .knot handle handle' ((_, _) :: made),
      ⟨mine.1, ?_⟩, rest _ _, ?_⟩
    · intro p member
      cases member with
      | head => exact new
      | tail _ member => exact mine.2 p member
    · exact renamed.with_heap
        (renamed.heap.alloc (.forced (values.mono (Renaming.add_le mine))) rfl)
  | @fill handle handle' target target' made _ next' member rest refused =>
    obtain ⟨rfl, each⟩ := id mine
    have same : π.of target = target' := each _ member
    subst same
    obtain ⟨same, heap⟩ := renamed.heap.fill handle target
    refine ⟨.fill (π.of handle) (π.of target), next', rfl, ?_⟩
    have acted := renamed.with_heap heap
    simp only [Store.act, ← same]
    cases (s.heap.fill handle target).1 with
    | true =>
      refine ⟨.nothing, trivial, rest fun p member => ?_, acted⟩
      cases member with
      | head => rfl
      | tail _ member => exact each p member
    | false => exact ⟨.knot handle (π.of handle) made, mine, refused, acted⟩
  | @trace _ _ next' label rest =>
    refine ⟨.trace label, next', rfl, held, mine, rest, renamed.heap, renamed.rallies, renamed.pool,
      ?_⟩
    simp only [Store.act, renamed.trace]
  | @submit _ r r' _ next' targets report rest =>
    have same : π.of r = r' := targets
    subst same
    refine ⟨.submit { target := π.of r, report }, next', rfl, held, mine, rest, renamed.heap,
      renamed.rallies, ?_, renamed.trace⟩
    simp only [Store.act, renamed.pool, Array.map_push]
    rfl
  | @openRally _ rs rs' _ next' hosted arguments rest =>
    rw [refsLike_bond] at arguments
    subst arguments
    have count : s'.rallies.size = s.rallies.size := by simp [renamed.rallies]
    refine ⟨.openRally (rs.map π.of), next', rfl, held, mine, ?_, renamed.heap, ?_, renamed.pool,
      renamed.trace⟩
    · simp only [Store.act, count]
      exact rest _
    · simp [Store.act, renamed.rallies, Rally.ofRefs, Rally.rename]
  | @pollRally _ _ next' hosted id rest =>
    refine ⟨.pollRally id, next', rfl, held, ?_⟩
    simp only [Store.act, renamed.rallies, Array.getElem?_map]
    cases s.rallies[id]? with
    | none => exact ⟨mine, rest _ _ .exhausted, renamed⟩
    | some y =>
      obtain ⟨answers, left⟩ := y.poll_rename π
      refine ⟨mine, rest _ _ answers, renamed.heap, ?_, renamed.pool, renamed.trace⟩
      simp [left, Array.map_setIfInBounds]
  | @listRally _ _ next' hosted id i rest =>
    refine ⟨.listRally id i, next', rfl, held, ?_⟩
    simp only [Store.act, renamed.rallies, Array.getElem?_map]
    cases s.rallies[id]? with
    | none => exact ⟨mine, rest _ _ .none, renamed⟩
    | some y =>
      obtain ⟨answers, left⟩ := y.list_rename π i
      refine ⟨mine, rest _ _ answers, renamed.heap, ?_, renamed.pool, renamed.trace⟩
      simp [left, Array.map_setIfInBounds]

end
end
end CallByNeed
