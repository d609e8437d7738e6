import CallByNeed.Proofs.Heap.Moves
import CallByNeed.Proofs.Safety.Script
import CallByNeed.Proofs.Safety.Builtins
import CallByNeed.Proofs.Safety.Sealed

/- Handles that somebody is about to fill. They are vacant, nobody else fills them, and the steps of
   others leave them alone. -/
namespace CallByNeed

/-- What a step makes of the handles that a forcer holds: it may drop some, or make a new one. -/
structure Heap.Passes (h h' : Heap) (held held' : List Ref) : Prop where
  vacant : ∀ r ∈ held', h'.state? r = some .vacant
  others : ∀ r, h.state? r = some .vacant → r ∉ held → h'.state? r = some .vacant
  owns : held'.Sublist held ∨ ∃ r, held' = r :: held ∧ h.state? r = none

/-- Distinct vacant handles. -/
structure Heap.Holds (h : Heap) (held : List Ref) : Prop where
  apart : held.Nodup
  vacant : ∀ r ∈ held, h.state? r = some .vacant

namespace Heap
variable {h h' : Heap} {held held' : List Ref}

theorem Holds.passes_same (holds : h.Holds held) (fewer : held'.Sublist held) :
    h.Passes h held held' :=
  ⟨fun r mem => holds.vacant r (fewer.subset mem), fun _ known _ => known, .inl fewer⟩

/-- No handle changes when a cell that is not vacant does. -/
theorem Holds.passes_setState (holds : h.Holds held) (fewer : held'.Sublist held) {r : Ref}
    {c : CellState} (known : h.state? r = some c) (full : c ≠ .vacant) (c' : CellState) :
    h.Passes (h.setState r c') held held' := by
  have keeps : ∀ t, h.state? t = some .vacant → (h.setState r c').state? t = some .vacant := by
    intro t vacant
    rw [state?_setState_ne _ _, vacant]
    rintro rfl
    rw [known] at vacant
    exact full (Option.some.inj vacant)
  exact ⟨fun t mem => keeps t (holds.vacant t (fewer.subset mem)), fun t vacant _ => keeps t vacant,
    .inl fewer⟩

theorem Holds.passes_alloc (holds : h.Holds held) (c : Cell) : h.Passes (h.alloc c).2 held held :=
  ⟨fun r mem => state?_alloc_of_some (holds.vacant r mem) c,
    fun _ vacant _ => state?_alloc_of_some vacant c, .inl (.refl _)⟩

theorem Holds.passes_handle (holds : h.Holds held) {c : Cell} (vacant : c.state = .vacant) :
    h.Passes (h.alloc c).2 held ((h.alloc c).1 :: held) := by
  refine ⟨fun r mem => ?_, fun _ known _ => state?_alloc_of_some known _,
    .inr ⟨_, rfl, h.state?_size⟩⟩
  rcases List.mem_cons.1 mem with rfl | old
  · rw [state?_alloc, if_pos rfl, vacant]
  · exact state?_alloc_of_some (holds.vacant r old) _

theorem Holds.passes_fill {handle : Ref} (holds : h.Holds (handle :: held)) (target : Ref) :
    h.Passes (h.setState handle (.redirect target)) (handle :: held) held := by
  obtain ⟨apart, _⟩ := List.nodup_cons.1 holds.apart
  refine ⟨fun r mem => ?_, fun r vacant other => ?_, .inl (List.sublist_cons_self _ _)⟩
  · have other : r ≠ handle := by
      rintro rfl
      exact apart mem
    rw [state?_setState_ne other, holds.vacant r (List.mem_cons_of_mem _ mem)]
  · rw [state?_setState_ne _ _, vacant]
    rintro rfl
    exact other (List.mem_cons_self ..)

/-- Whatever else is held by others stays theirs. -/
theorem Passes.holds_amid {before after : List Ref} (passes : h.Passes h' held held')
    (holds : h.Holds (before ++ (held ++ after))) : h'.Holds (before ++ (held' ++ after)) := by
  have away : ∀ r, r ∈ before ∨ r ∈ after → r ∉ held := by
    have apart := holds.apart
    simp only [List.nodup_append, List.mem_append] at apart
    intro r outside mine
    rcases outside with left | right
    · exact apart.2.2 r left r (.inl mine) rfl
    · exact apart.2.1.2.2 r mine r right rfl
  constructor
  case apart =>
    rcases passes.owns with fewer | ⟨r, rfl, fresh⟩
    · exact holds.apart.sublist (.append_left (.append_right fewer _) _)
    · rw [List.cons_append, List.perm_middle.nodup_iff]
      refine List.nodup_cons.2 ⟨fun mem => ?_, holds.apart⟩
      rw [holds.vacant r mem] at fresh
      cases fresh
  case vacant =>
    intro r mem
    simp only [List.mem_append] at mem
    rcases mem with left | mine | right
    · exact passes.others r (holds.vacant r (by simp [left])) (away r (.inl left))
    · exact passes.vacant r mine
    · exact passes.others r (holds.vacant r (by simp [right])) (away r (.inr right))

theorem Holds.sublist (holds : h.Holds held) (fewer : held'.Sublist held) : h.Holds held' :=
  ⟨holds.apart.sublist fewer, fun r mem => holds.vacant r (fewer.subset mem)⟩

end Heap

/-! ### One action at a time

Scripts that are safe and keep to known cells, one action at a time. The two halves tell different
things about a new cell: the first says that the cell of an effect goes into the effect and nowhere
else, the second that every other cell mentions what is known. -/

/-- What is asked of a script and of how it ends. -/
structure Terms (α : Type) where
  quiet : Prop
  made : Ref → α → Prop
  ends : α → Prop
  post : Bond → Held → Except Fault α → Except Fault α → Prop
  /-- A script that ends with a new effect ends well. -/
  closes : ∀ r a, made r a →
    ends a ∧ ∀ B : Bond, B.actions r r → post B .nothing (.ok a) (.ok a)

/-- The script of a cell. -/
def Terms.cell (quiet : Prop) : Terms Outcome where
  quiet := quiet
  made := fun r o => o = .value (.effect r)
  ends := Outcome.Fits
  post := Settled .loaded
  closes := by
    rintro r _ rfl
    exact ⟨trivial, fun B action => .ok (.value (.effect action))⟩

/-- A script that belongs to no cell. -/
def Terms.own {α : Type} (ends : α → Prop) (post : Bond → α → α → Prop) : Terms α where
  quiet := True
  made := fun _ _ => False
  ends := ends
  post := fun B => Unchanged .loaded (post B) .nothing
  closes := nofun

section
variable {α : Type} {T : Terms α} {G K : Ken} {held : Held}

/-- All that a script does from here on is safe, and mentions known cells. -/
structure Script.Sealed (T : Terms α) (G : Ken) (held : Held) (s : Script α) : Prop where
  safe : s.Safe T.quiet T.made (fun _ => T.ends) held.handle?
  knows : ∀ K, G ≤ K → ScriptLike .loaded K.bond (T.post K.bond) held s s

theorem Script.Sealed.mono {s : Script α} (grows : G ≤ K) (script : s.Sealed T G held) :
    s.Sealed T K held :=
  ⟨script.safe, fun L wider => script.knows L (Ken.le_trans grows wider)⟩

/-- Some action has been taken: what is known now, and what the script holds now. -/
structure Store.Reseals (T : Terms α) (G : Ken) (held : Held) (behind : List Ref) (s s' : Store)
    (rest : Script α) (K : Ken) (held' : Held) : Prop where
  grows : G ≤ K
  shown : K.shown = G.shown
  sealed : s'.Sealed K
  mine : held'.Known K s'.heap
  script : rest.Sealed T K held'
  passes : s.heap.Passes s'.heap (held.handles ++ behind) (held'.handles ++ behind)

variable {s : Store} {behind : List Ref}

theorem Held.eq_nothing (none : held.handle? = none) : held = .nothing := by
  cases held with
  | nothing => rfl
  | knot handle handle' made => cases none

/-- What the two halves say about a new cell that is no handle. -/
theorem Script.Sealed.known_of_alloc {c : Cell} {next : Ref → Script α}
    (script : Script.Sealed T G .nothing (.act (.alloc c) next)) (full : c.role ≠ .handle) :
    c.state.Known G := by
  cases script.knows G G.le_refl with
  | alloc made _ => exact made.state.known
  | action bodies parameters _ => exact .pending ⟨.resume (.action trivial bodies parameters), rfl⟩
  | vacant _ => exact absurd rfl full

theorem Cell.vacant_of_role {c : Cell} (role : c.role = .handle) : c.state = .vacant := by
  unfold Cell.role at role
  split at role <;> first | assumption | cases role

theorem Cell.not_performs_of_role {c : Cell} (role : c.role = .plain) {w : Work}
    (work : c.state = .pending w) : ¬ w.Performs := by
  rintro ⟨body, parameters, task⟩
  obtain ⟨_, site⟩ := w
  subst task
  simp [Cell.role, work] at role

/-- A new cell that anybody may force. -/
theorem Script.Sealed.alloc_plain (sealed : s.Sealed G) (mine : held.Known G s.heap)
    (holds : s.heap.Holds (held.handles ++ behind)) {c : Cell} {next : Ref → Script α}
    (script : Script.Sealed T G held (.act (.alloc c) next)) (role : c.role = .plain) :
    ∃ K held', Store.Reseals T G held behind s (s.act (.alloc c)).2 (next (s.act (.alloc c)).1) K
      held' := by
  let r := (s.heap.alloc c).1
  obtain ⟨fits, plain, _, _⟩ := script.safe
  have safe := plain role r
  cases held with
  | nothing =>
    have known := script.known_of_alloc (by simp [role])
    have grows := G.le_withCells {r}
    have sealed' := sealed.heap.alloc fits known fun _ => Cell.not_performs_of_role role
    refine ⟨G.withCells {r}, .nothing, grows, rfl, sealed.with_heap grows sealed', trivial,
      ⟨safe, fun K wider => ?_⟩, holds.passes_alloc c⟩
    have new : r ∈ K.cells := wider.1 (.inr rfl)
    cases script.knows K (Ken.le_trans grows wider) with
    | alloc _ rest => exact rest r r ⟨rfl, new⟩
    | action _ _ _ => cases role
    | vacant _ => cases role
  | knot handle handle' made =>
    obtain ⟨same, each⟩ := mine
    subst same
    obtain ⟨v, rfl, values⟩ : ∃ v, c = .ofValue v ∧
        ValueLike .loaded (G.bond.tie handle handle made) v v := by
      cases script.knows G G.le_refl with
      | hold values _ => exact ⟨_, rfl, values⟩
    have forced : (s.heap.alloc (.ofValue v)).2.state? r = some (.forced v) := by
      rw [Heap.state?_alloc, if_pos rfl]
      rfl
    have evolves := s.heap.evolves_alloc (.ofValue v)
    have more : (handle, handle) :: made ⊆ (handle, handle) :: (r, r) :: made := by simp
    have wider := Bond.add_mono (Bond.le_refl G.bond) more
    have sealed' : (s.heap.alloc (.ofValue v)).2.Sealed G := sealed.heap.alloc_aside fits
    refine ⟨G, .knot handle handle ((r, r) :: made), G.le_refl, rfl,
      sealed.with_heap G.le_refl sealed', ⟨rfl, fun p member => ?_⟩, ⟨safe, fun K grows => ?_⟩,
      holds.passes_alloc _⟩
    · cases member with
      | head => exact ⟨rfl, v, forced, values.mono wider⟩
      | tail _ member =>
        obtain ⟨diagonal, u, old, like⟩ := each p member
        exact ⟨diagonal, u, evolves.forced old, like.mono wider⟩
    · cases script.knows K grows with
      | hold _ rest => exact rest r r

/-- A new handle, which the script holds from now on. -/
theorem Script.Sealed.alloc_handle (sealed : s.Sealed G)
    (holds : s.heap.Holds (held.handles ++ behind)) {c : Cell} {next : Ref → Script α}
    (script : Script.Sealed T G held (.act (.alloc c) next)) (role : c.role = .handle) :
    ∃ K held', Store.Reseals T G held behind s (s.act (.alloc c)).2 (next (s.act (.alloc c)).1) K
      held' := by
  let r := (s.heap.alloc c).1
  obtain ⟨fits, _, handle, _⟩ := script.safe
  obtain ⟨free, later⟩ := handle role
  obtain rfl := Held.eq_nothing free
  have vacant := Cell.vacant_of_role role
  have sealed' : (s.heap.alloc c).2.Sealed G := sealed.heap.alloc_aside fits
  refine ⟨G, .knot r r [], G.le_refl, rfl, sealed.with_heap G.le_refl sealed', ⟨rfl, nofun⟩,
    ⟨later r, fun K grows => ?_⟩, holds.passes_handle vacant⟩
  cases script.knows K grows with
  | alloc made _ =>
    have strays : StateLike .loaded K.bond .vacant .vacant := vacant ▸ made.state
    cases strays with
    | vacant strays => exact strays.elim
  | action _ _ _ => cases role
  | vacant rest => exact rest r r

/-- A new effect: its cell is mentioned by the effect, which the script answers. -/
theorem Script.Sealed.alloc_action (sealed : s.Sealed G)
    (holds : s.heap.Holds (held.handles ++ behind)) {c : Cell} {next : Ref → Script α}
    (script : Script.Sealed T G held (.act (.alloc c) next)) (role : c.role = .action) :
    ∃ K held', Store.Reseals T G held behind s (s.act (.alloc c)).2 (next (s.act (.alloc c)).1) K
      held' := by
  let r := (s.heap.alloc c).1
  obtain ⟨fits, _, _, action⟩ := script.safe
  obtain ⟨free, ends⟩ := action role
  obtain rfl := Held.eq_nothing free
  obtain ⟨a, done, made⟩ := ends r
  obtain ⟨well, post⟩ := T.closes r a made
  have known := script.known_of_alloc (by simp [role])
  have grows := G.le_withAction r
  have sealed' := sealed.heap.alloc_action fits known
  refine ⟨G.withAction r, .nothing, grows, rfl, sealed.with_heap grows sealed', trivial, ?_,
    holds.passes_alloc c⟩
  have rest : next (s.act (.alloc c)).1 = .done a := done
  rw [rest]
  exact ⟨well, fun K wider => .done (post K.bond ⟨rfl, wider.2.1 (Set.mem_insert ..)⟩)⟩

theorem Script.Sealed.fill (sealed : s.Sealed G) (mine : held.Known G s.heap)
    (holds : s.heap.Holds (held.handles ++ behind)) {handle target : Ref} {next : Bool → Script α}
    (script : Script.Sealed T G held (.act (.fill handle target) next)) :
    ∃ K held', Store.Reseals T G held behind s (s.act (.fill handle target)).2
      (next (s.act (.fill handle target)).1) K held' := by
  obtain ⟨mine', later⟩ := script.safe
  obtain ⟨made, rfl, member⟩ : ∃ made, held = .knot handle handle made ∧
      target ∈ made.map Prod.fst := by
    cases script.knows G G.le_refl with
    | fill member _ _ => exact ⟨_, by rw [mine.1], List.mem_map_of_mem member⟩
  have vacant : s.heap.state? handle = some .vacant := holds.vacant handle (List.mem_cons_self ..)
  have filled : s.heap.fill handle target = (true, s.heap.setState handle (.redirect target)) := by
    simp [Heap.fill, vacant]
  let K := G.withCells {r | r ∈ handle :: made.map Prod.fst}
  have grows : G ≤ K := G.le_withCells _
  simp only [Store.act, filled]
  refine ⟨K, .nothing, grows, rfl, sealed.with_heap grows (sealed.heap.fill mine vacant member),
    trivial, ⟨later, fun L wider => ?_⟩, Heap.Holds.passes_fill holds target⟩
  cases script.knows L (Ken.le_trans grows wider) with
  | fill _ rest _ =>
    refine rest fun p held => ?_
    cases held with
    | head => exact ⟨rfl, wider.1 (.inr (List.mem_cons_self ..))⟩
    | tail _ held =>
      refine ⟨(mine.2 p held).1, wider.1 (.inr ?_)⟩
      exact List.mem_cons_of_mem _ (List.mem_map_of_mem held)

/-- What has nothing to do with the heap keeps to what is known. -/
theorem Store.Sealed.reseals_same {s' : Store} {rest : Script α} (sealed : s.Sealed G)
    (mine : held.Known G s.heap) (holds : s.heap.Holds (held.handles ++ behind))
    (same : s'.heap = s.heap) (pool : ∀ job ∈ s'.pool, job ∈ s.pool ∨ job.target ∈ G.cells)
    (rallies : ∀ y ∈ s'.rallies, ∀ r ∈ y.arguments, r ∈ G.cells) (script : rest.Sealed T G held) :
    ∃ K held', Store.Reseals T G held behind s s' rest K held' := by
  refine ⟨G, held, G.le_refl, rfl, ⟨same ▸ sealed.heap, ?_, rallies⟩, same ▸ mine, script, ?_⟩
  · intro job member
    exact (pool job member).elim (sealed.pool job) id
  · rw [same]
    exact holds.passes_same (.refl _)

theorem Store.Sealed.rally (sealed : s.Sealed G) {id : Nat} {y y' : Rally}
    (found : s.rallies[id]? = some y) (same : y'.arguments = y.arguments) :
    ∀ z ∈ s.rallies.setIfInBounds id y', ∀ r ∈ z.arguments, r ∈ G.cells := by
  intro z member r mine
  rcases Array.mem_or_eq_of_mem_setIfInBounds member with old | new
  · exact sealed.rallies z old r mine
  · subst new
    exact sealed.rallies y (Array.mem_of_getElem? found) r (same ▸ mine)

/-- Whatever the script does to the store, the store stays sealed and the script safe. -/
theorem Script.Sealed.act (sealed : s.Sealed G) (mine : held.Known G s.heap)
    (holds : s.heap.Holds (held.handles ++ behind)) {a : Action} {next : a.Answer → Script α}
    (script : Script.Sealed T G held (.act a next)) :
    ∃ K held', Store.Reseals T G held behind s (s.act a).2 (next (s.act a).1) K held' := by
  cases a with
  | alloc c =>
    cases role : c.role with
    | plain => exact script.alloc_plain sealed mine holds role
    | handle => exact script.alloc_handle sealed holds role
    | action => exact script.alloc_action sealed holds role
  | fill handle target => exact script.fill sealed mine holds
  | trace label =>
    refine sealed.reseals_same mine holds rfl (fun _ => .inl) sealed.rallies
      ⟨script.safe, fun K grows => ?_⟩
    cases script.knows K grows with
    | trace _ rest => exact rest
  | submit job =>
    refine sealed.reseals_same mine holds rfl (fun job' member => ?_) sealed.rallies
      ⟨script.safe, fun K grows => ?_⟩
    · rcases Array.mem_push.1 member with old | new
      · exact .inl old
      · subst new
        cases script.knows G G.le_refl with
        | submit targets _ _ => exact .inr targets.2
    · cases script.knows K grows with
      | submit _ _ rest => exact rest
  | openRally arguments =>
    refine sealed.reseals_same mine holds rfl (fun _ => .inl) (fun y member r argument => ?_)
      ⟨script.safe _, fun K grows => ?_⟩
    · rcases Array.mem_push.1 member with old | new
      · exact sealed.rallies y old r argument
      · subst new
        cases script.knows G G.le_refl with
        | openRally _ cells _ =>
          have asked : r ∈ arguments := by simpa [Rally.ofRefs] using argument
          exact (List.forall₂_same.1 cells r asked).2
    · cases script.knows K grows with
      | openRally _ _ rest => exact rest _
  | pollRally id =>
    have go_on : ∀ p, (∀ i r, p = .late i r → r ∈ G.cells) → (next p).Sealed T G held := by
      refine fun p late => ⟨script.safe p, fun K grows => ?_⟩
      cases script.knows K grows with
      | pollRally _ _ rest =>
        refine rest p p ?_
        cases p with
        | exhausted => exact .exhausted
        | reported i => exact .reported i
        | late i r => exact .late i ⟨rfl, grows.1 (late i r rfl)⟩
    simp only [Store.act]
    split
    · exact sealed.reseals_same mine holds rfl (fun _ => .inl) sealed.rallies (go_on _ (by simp))
    · next y found =>
      refine sealed.reseals_same mine holds rfl (fun _ => .inl) (sealed.rally found y.arguments_of_poll)
        (go_on _ fun i r late => ?_)
      exact sealed.rallies y (Array.mem_of_getElem? found) r (Rally.mem_of_late late)
  | listRally id i =>
    have go_on : ∀ o : Option Ref, (∀ r, o = some r → r ∈ G.cells) →
        (next o).Sealed T G held := by
      refine fun o listed => ⟨script.safe o, fun K grows => ?_⟩
      cases script.knows K grows with
      | listRally _ _ _ rest =>
        refine rest o o ?_
        cases o with
        | none => exact .none
        | some r => exact .some ⟨rfl, grows.1 (listed r rfl)⟩
    simp only [Store.act]
    split
    · exact sealed.reseals_same mine holds rfl (fun _ => .inl) sealed.rallies (go_on _ (by simp))
    · next y found =>
      refine sealed.reseals_same mine holds rfl (fun _ => .inl)
        (sealed.rally found (y.arguments_of_list i)) (go_on _ fun r listed => ?_)
      exact sealed.rallies y (Array.mem_of_getElem? found) r (Rally.mem_of_list listed)

end
end CallByNeed
