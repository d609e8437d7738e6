import CallByNeed.Proofs.Heap.Moves
import CallByNeed.Proofs.Likeness.Task
import Mathlib.Data.Set.Insert

/- Cells that are known. Data within a set of cells mention no others, and a heap is within a set if
   its cells exist and hold data within it. A script may hold cells that are not known yet; once it
   has filled its handle, all of them are. -/
namespace CallByNeed

/-- Each of these cells with itself. -/
def Bond.among (G : Set Ref) : Bond where
  cells := fun r r' => r = r' ∧ r ∈ G
  actions := fun r r' => r = r' ∧ r ∈ G

theorem Bond.among_mono {G K : Set Ref} (grows : G ⊆ K) : Bond.among G ≤ Bond.among K :=
  ⟨fun _ _ cells => ⟨cells.1, grows cells.2⟩, fun _ _ actions => ⟨actions.1, grows actions.2⟩⟩

/-- What a known cell may hold; `unfilled` says that it may be a handle before it is filled. -/
inductive CellState.Within (M : Manner) (G : Set Ref) (unfilled : Prop) : CellState → Prop where
  | vacant (waits : unfilled) : Within M G unfilled .vacant
  | pending {w : Work} (works : WorkLike M (.among G) w w) : Within M G unfilled (.pending w)
  | forcing : Within M G unfilled .forcing
  | redirect {target : Ref} (known : target ∈ G) : Within M G unfilled (.redirect target)
  | forced {v : Value} (values : ValueLike M (.among G) v v) : Within M G unfilled (.forced v)

/-- All known cells exist and mention known cells only; those in `unfilled` may be vacant. -/
def Heap.Within (M : Manner) (G unfilled : Set Ref) (h : Heap) : Prop :=
  ∀ r ∈ G, ∃ c, h.state? r = some c ∧ c.Within M G (r ∈ unfilled)

structure Store.Within (M : Manner) (G : Set Ref) (s : Store) : Prop where
  heap : s.heap.Within M G ∅
  pool : ∀ job ∈ s.pool, job.target ∈ G
  rallies : ∀ y ∈ s.rallies, ∀ r ∈ y.arguments, r ∈ G

/-- What a script holds mentions known cells, the handle, and what else it holds. -/
def Held.Within (M : Manner) (G : Set Ref) (h : Heap) : Held → Prop
  | .nothing => True
  | .knot handle handle' made =>
    handle = handle' ∧ ∀ p ∈ made, p.1 = p.2 ∧ ∃ v, h.state? p.1 = some (.forced v) ∧
      ValueLike M ((Bond.among G).tie handle handle' made) v v

/-- The script is like itself, whatever else comes to be known. -/
def Script.Knows {α : Type} (M : Manner) (G : Set Ref)
    (post : Bond → Held → Except Fault α → Except Fault α → Prop) (held : Held)
    (s : Script α) : Prop :=
  ∀ K, G ⊆ K → ScriptLike M (.among K) (post (.among K)) held s s

section
variable {M : Manner} {G K unfilled : Set Ref} {h h' : Heap} {r : Ref}

theorem CellState.Within.mono (grows : G ⊆ K) {unfilled unfilled' : Prop}
    (weaker : unfilled → unfilled') {c : CellState} (within : c.Within M G unfilled) :
    c.Within M K unfilled' := by
  cases within with
  | vacant waits => exact .vacant (weaker waits)
  | pending works => exact .pending (works.mono (Bond.among_mono grows))
  | forcing => exact .forcing
  | redirect known => exact .redirect (grows known)
  | forced values => exact .forced (values.mono (Bond.among_mono grows))

theorem StateLike.within (tidy : ¬ M.strays) {unfilled : Prop} {c : CellState}
    (like : StateLike M (.among G) c c) : c.Within M G unfilled := by
  cases like with
  | vacant strays => exact absurd strays tidy
  | pending works => exact .pending works
  | forced values => exact .forced values

namespace Heap

theorem Within.of_state (within : h.Within M G unfilled) (known : r ∈ G) {c : CellState}
    (state : h.state? r = some c) : c.Within M G (r ∈ unfilled) := by
  obtain ⟨c', state', inside⟩ := within r known
  rw [state] at state'
  cases state'
  exact inside

/-- A new cell need not be known. -/
theorem Within.alloc_aside (within : h.Within M G unfilled) (c : Cell) :
    (h.alloc c).2.Within M G unfilled := by
  intro r known
  obtain ⟨s, state, inside⟩ := within r known
  exact ⟨s, state?_alloc_of_some state c, inside⟩

theorem Within.alloc (within : h.Within M G unfilled) {c : Cell}
    (inside : ∀ waits, c.state.Within M (insert (h.alloc c).1 G) waits) :
    (h.alloc c).2.Within M (insert (h.alloc c).1 G) unfilled := by
  intro r known
  by_cases fresh : r = (h.alloc c).1
  · refine ⟨c.state, ?_, inside _⟩
    rw [state?_alloc, if_pos fresh]
  · obtain ⟨s, state, old⟩ := within r (Set.mem_of_mem_insert_of_ne known fresh)
    exact ⟨s, state?_alloc_of_some state c, old.mono (Set.subset_insert ..) id⟩

theorem Within.setState (within : h.Within M G unfilled) {c : CellState}
    (inside : c.Within M G (r ∈ unfilled)) : (h.setState r c).Within M G unfilled := by
  intro t known
  obtain ⟨s, state, old⟩ := within t known
  by_cases same : t = r
  · subst same
    exact ⟨c, state?_setState_self state c, inside⟩
  · exact ⟨s, by rw [state?_setState_ne same, state], old⟩

end Heap

theorem Bond.add_le {pairs : List (Ref × Ref)} (grows : G ⊆ K)
    (known : ∀ p ∈ pairs, p.1 = p.2 ∧ p.1 ∈ K) : (Bond.among G).add pairs ≤ Bond.among K := by
  refine ⟨?_, fun r r' actions => ⟨actions.1, grows actions.2⟩⟩
  rintro r r' (old | mine)
  · exact ⟨old.1, grows old.2⟩
  · exact known _ mine

theorem Bond.add_mono {B C : Bond} (grows : B ≤ C) {pairs pairs' : List (Ref × Ref)}
    (more : pairs ⊆ pairs') : B.add pairs ≤ C.add pairs' := by
  refine ⟨?_, grows.2⟩
  rintro r r' (old | mine)
  · exact .inl (grows.1 r r' old)
  · exact .inr (more mine)

theorem Held.within_nothing : Held.Within M G h .nothing := trivial

theorem Held.Within.mono (grows : G ⊆ K) (evolves : h.Evolves h') {held : Held}
    (within : held.Within M G h) : held.Within M K h' := by
  cases held with
  | nothing => trivial
  | knot handle handle' made =>
    obtain ⟨same, each⟩ := within
    refine ⟨same, fun p mine => ?_⟩
    obtain ⟨diagonal, v, forced, values⟩ := each p mine
    have wider := Bond.add_mono (Bond.among_mono grows) (List.Subset.refl ((handle, handle') :: made))
    exact ⟨diagonal, v, evolves.forced forced, values.mono wider⟩

theorem Script.Knows.mono {α : Type} {post : Bond → Held → Except Fault α → Except Fault α → Prop}
    {held : Held} {s : Script α} (grows : G ⊆ K) (knows : s.Knows M G post held) :
    s.Knows M K post held :=
  fun L wider => knows L (Set.Subset.trans grows wider)

/-- The handle leads to a held cell, and nothing that was held is unknown any more. -/
theorem Heap.Within.fill (within : h.Within M G unfilled) {handle target : Ref}
    {made : List (Ref × Ref)} (mine : Held.Within M G h (.knot handle handle made))
    (vacant : h.state? handle = some .vacant) (held : target ∈ made.map Prod.fst) :
    (h.setState handle (.redirect target)).Within M
      (G ∪ {r | r ∈ handle :: made.map Prod.fst}) unfilled := by
  have grows : G ⊆ G ∪ {r | r ∈ handle :: made.map Prod.fst} := Set.subset_union_left
  have tied : (Bond.among G).tie handle handle made ≤
      Bond.among (G ∪ {r | r ∈ handle :: made.map Prod.fst}) := by
    refine Bond.add_le grows fun p member => ?_
    cases member with
    | head => exact ⟨rfl, .inr (List.mem_cons_self ..)⟩
    | tail _ member =>
      exact ⟨(mine.2 p member).1, .inr (List.mem_cons_of_mem _ (List.mem_map_of_mem member))⟩
  intro r known
  by_cases same : r = handle
  · subst same
    refine ⟨_, state?_setState_self vacant _, .redirect (.inr ?_)⟩
    exact List.mem_cons_of_mem _ held
  · rw [state?_setState_ne same]
    rcases known with old | new
    · obtain ⟨c, state, inside⟩ := within r old
      exact ⟨c, state, inside.mono grows id⟩
    · have member : r ∈ made.map Prod.fst := (List.mem_cons.1 new).resolve_left same
      obtain ⟨p, pair, rfl⟩ := List.mem_map.1 member
      obtain ⟨_, v, forced, values⟩ := mine.2 p pair
      exact ⟨_, forced, .forced (values.mono tied)⟩

end

/-! ### One action at a time

What a script that keeps to known cells does to the store, one action at a time: the store stays
within what is known, which may have grown, and the script still keeps to it. -/

theorem Rally.arguments_of_poll (y : Rally) : y.poll.2.arguments = y.arguments := by
  unfold poll
  split
  · rfl
  · split
    · rfl
    · split
      · rfl
      · split <;> rfl

theorem Rally.mem_of_late {y : Rally} {i : Nat} {r : Ref} (late : y.poll.1 = .late i r) :
    r ∈ y.arguments := by
  unfold poll at late
  split at late
  · cases late
  · split at late
    · cases late
    · split at late
      · cases late
      · split at late
        · next found =>
          cases late
          exact Array.mem_of_getElem? found
        · cases late

theorem Rally.arguments_of_list (y : Rally) (i : Nat) : (y.list i).2.arguments = y.arguments := by
  unfold list
  split <;> rfl

theorem Rally.mem_of_list {y : Rally} {i : Nat} {r : Ref} (listed : (y.list i).1 = some r) :
    r ∈ y.arguments := by
  unfold list at listed
  split at listed
  · next argument =>
    cases listed
    exact Array.mem_of_getElem? argument
  · cases listed

section
variable {M : Manner} {G K : Set Ref} {α : Type}
variable {post : Bond → Held → Except Fault α → Except Fault α → Prop} {held : Held} {s : Store}

/-- Some action has been taken: what is known now, and what the script holds now. -/
structure Store.Acted (M : Manner) (G : Set Ref)
    (post : Bond → Held → Except Fault α → Except Fault α → Prop) (s s' : Store) (rest : Script α)
    (K : Set Ref) (held : Held) : Prop where
  grows : G ⊆ K
  within : s'.Within M K
  mine : held.Within M K s'.heap
  knows : rest.Knows M K post held
  relinks : s.heap.Relinks s'.heap

theorem Store.Within.with_heap (within : s.Within M G) (grows : G ⊆ K) {h : Heap}
    (heap : h.Within M K ∅) : ({ s with heap := h } : Store).Within M K :=
  ⟨heap, fun job mine => grows (within.pool job mine),
    fun y open_rally r mine => grows (within.rallies y open_rally r mine)⟩

theorem Script.Knows.of_alloc (hosted : M.hosted) {c : Cell}
    {next : Ref → Script α} (knows : Script.Knows M G post .nothing (.act (.alloc c) next))
    (full : c ≠ .vacant) :
    StateLike M (.among G) c.state c.state ∧
      ∀ K, G ⊆ K → ∀ r ∈ K, ScriptLike M (.among K) (post (.among K)) .nothing (next r) (next r) := by
  constructor
  · cases knows G Set.Subset.rfl with
    | alloc made _ => exact made.state
    | action bodies parameters _ =>
      exact .pending ⟨.resume (.action hosted bodies parameters), rfl⟩
    | vacant _ => exact absurd rfl full
  · intro K grows r known
    cases knows K grows with
    | alloc _ rest => exact rest r r ⟨rfl, known⟩
    | action _ _ rest => exact rest r r ⟨rfl, known⟩
    | vacant _ => exact absurd rfl full

theorem Script.Knows.of_vacant (tidy : ¬ M.strays) {next : Ref → Script α}
    (knows : Script.Knows M G post .nothing (.act (.alloc .vacant) next)) (r : Ref) :
    (next r).Knows M G post (.knot r r []) := by
  intro K grows
  cases knows K grows with
  | alloc made _ =>
    cases made.state with
    | vacant strays => exact absurd strays tidy
  | vacant rest => exact rest r r

theorem acted_of_alloc (hosted : M.hosted) (tidy : ¬ M.strays) (within : s.Within M G)
    (mine : held.Within M G s.heap) {c : Cell} {next : Ref → Script α}
    (knows : Script.Knows M G post held (.act (.alloc c) next)) :
    ∃ K held', Store.Acted M G post s (s.act (.alloc c)).2 (next (s.act (.alloc c)).1) K held' := by
  let r := (s.heap.alloc c).1
  have evolves := s.heap.evolves_alloc c
  cases held with
  | nothing =>
    by_cases vacant : c = .vacant
    · subst vacant
      refine ⟨G, .knot r r [], Set.Subset.rfl, ?_, ⟨rfl, by simp⟩, knows.of_vacant tidy r, ?_⟩
      · exact within.with_heap Set.Subset.rfl (within.heap.alloc_aside _)
      · exact Heap.relinks_alloc _ (by simp [Cell.vacant])
    · obtain ⟨made, rest⟩ := knows.of_alloc hosted vacant
      have grows : G ⊆ insert r G := Set.subset_insert ..
      refine ⟨insert r G, .nothing, grows, ?_, trivial, ?_, ?_⟩
      · refine within.with_heap grows (within.heap.alloc fun waits => ?_)
        exact (made.mono (Bond.among_mono grows)).within tidy
      · intro K wider
        exact rest K (grows.trans wider) r (wider (Set.mem_insert ..))
      · refine Heap.relinks_alloc _ fun t redirect => ?_
        rw [redirect] at made
        cases made
  | knot handle handle' made =>
    obtain ⟨same, each⟩ := mine
    subst same
    have inverted : ∃ v, c = .ofValue v ∧ ValueLike M ((Bond.among G).tie handle handle made) v v := by
      cases knows G Set.Subset.rfl with
      | hold values _ => exact ⟨_, rfl, values⟩
    obtain ⟨v, rfl, values⟩ := inverted
    have new_forced : (s.heap.alloc (.ofValue v)).2.state? r = some (.forced v) := by
      rw [Heap.state?_alloc, if_pos rfl]
      rfl
    refine ⟨G, .knot handle handle ((r, r) :: made), Set.Subset.rfl, ?_, ⟨rfl, ?_⟩, ?_, ?_⟩
    · exact within.with_heap Set.Subset.rfl (within.heap.alloc_aside _)
    · have more : (handle, handle) :: made ⊆ (handle, handle) :: (r, r) :: made := by simp
      have wider := Bond.add_mono (Bond.le_refl (.among G)) more
      intro p member
      cases member with
      | head => exact ⟨rfl, v, new_forced, values.mono wider⟩
      | tail _ member =>
        obtain ⟨diagonal, u, forced, old⟩ := each p member
        exact ⟨diagonal, u, evolves.forced forced, old.mono wider⟩
    · intro K grows
      cases knows K grows with
      | hold _ rest => exact rest r r
    · exact Heap.relinks_alloc _ (by simp [Cell.ofValue])

theorem acted_of_fill (within : s.Within M G) (mine : held.Within M G s.heap)
    {handle target : Ref} {next : Bool → Script α}
    (knows : Script.Knows M G post held (.act (.fill handle target) next)) :
    ∃ K held', Store.Acted M G post s (s.act (.fill handle target)).2
      (next (s.act (.fill handle target)).1) K held' := by
  have inverted : ∃ made, held = .knot handle handle made ∧ target ∈ made.map Prod.fst := by
    cases knows G Set.Subset.rfl with
    | fill member _ _ => exact ⟨_, rfl, List.mem_map_of_mem member⟩
  obtain ⟨made, rfl, member⟩ := inverted
  by_cases vacant : s.heap.state? handle = some .vacant
  · have filled : s.heap.fill handle target =
        (true, s.heap.setState handle (.redirect target)) := by
      simp [Heap.fill, vacant]
    let K := G ∪ {r | r ∈ handle :: made.map Prod.fst}
    have grows : G ⊆ K := Set.subset_union_left
    simp only [Store.act, filled]
    refine ⟨K, .nothing, grows, ?_, trivial, ?_, ?_⟩
    · exact within.with_heap grows (within.heap.fill mine vacant member)
    · intro L wider
      cases knows L (grows.trans wider) with
      | fill _ rest _ =>
        refine rest fun p held => ?_
        have diagonal : p.1 = p.2 := by
          cases held with
          | head => rfl
          | tail _ held => exact (mine.2 p held).1
        refine ⟨diagonal, wider (.inr ?_)⟩
        cases held with
        | head => exact List.mem_cons_self ..
        | tail _ held => exact List.mem_cons_of_mem _ (List.mem_map_of_mem held)
    · obtain ⟨p, pair, rfl⟩ := List.mem_map.1 member
      obtain ⟨_, v, forced, _⟩ := mine.2 p pair
      exact Heap.relinks_fill vacant forced
  · have refused : s.heap.fill handle target = (false, s.heap) := by
      unfold Heap.fill
      split
      · next yes => exact absurd yes vacant
      · rfl
    simp only [Store.act, refused]
    refine ⟨G, _, Set.Subset.rfl, within, mine, ?_, s.heap.relinks_refl⟩
    intro L wider
    cases knows L wider with
    | fill _ _ refused => exact refused

/-- What has nothing to do with the heap keeps to what is known. -/
theorem acted_of_other {s' : Store} {rest : Script α} (within : s.Within M G)
    (mine : held.Within M G s.heap) (same : s'.heap = s.heap)
    (pool : ∀ job ∈ s'.pool, job ∈ s.pool ∨ job.target ∈ G)
    (rallies : ∀ y ∈ s'.rallies, ∀ r ∈ y.arguments, r ∈ G) (knows : rest.Knows M G post held) :
    ∃ K held', Store.Acted M G post s s' rest K held' := by
  refine ⟨G, held, Set.Subset.rfl, ⟨same ▸ within.heap, ?_, rallies⟩, same ▸ mine, knows, ?_⟩
  · intro job member
    exact (pool job member).elim (within.pool job) id
  · rw [same]
    exact s.heap.relinks_refl

theorem Store.Within.rally (within : s.Within M G) {id : Nat} {y y' : Rally}
    (found : s.rallies[id]? = some y) (same : y'.arguments = y.arguments) :
    ∀ z ∈ s.rallies.setIfInBounds id y', ∀ r ∈ z.arguments, r ∈ G := by
  intro z member r mine
  rcases Array.mem_or_eq_of_mem_setIfInBounds member with old | new
  · exact within.rallies z old r mine
  · subst new
    exact within.rallies y (Array.mem_of_getElem? found) r (same ▸ mine)

/-- Whatever the script does to the store, both keep to known cells. -/
theorem acted_of_act (hosted : M.hosted) (tidy : ¬ M.strays) (within : s.Within M G)
    (mine : held.Within M G s.heap) {a : Action} {next : a.Answer → Script α}
    (knows : Script.Knows M G post held (.act a next)) :
    ∃ K held', Store.Acted M G post s (s.act a).2 (next (s.act a).1) K held' := by
  cases a with
  | alloc c => exact acted_of_alloc hosted tidy within mine knows
  | fill handle target => exact acted_of_fill within mine knows
  | trace label =>
    refine acted_of_other within mine rfl (fun _ => .inl) within.rallies fun K grows => ?_
    cases knows K grows with
    | trace _ rest => exact rest
  | submit job =>
    refine acted_of_other within mine rfl ?_ within.rallies fun K grows => ?_
    · intro job' member
      rcases Array.mem_push.1 member with old | new
      · exact .inl old
      · subst new
        cases knows G Set.Subset.rfl with
        | submit targets _ _ => exact .inr targets.2
    · cases knows K grows with
      | submit _ _ rest => exact rest
  | openRally arguments =>
    refine acted_of_other within mine rfl (fun _ => .inl) ?_ fun K grows => ?_
    · intro y member r argument
      rcases Array.mem_push.1 member with old | new
      · exact within.rallies y old r argument
      · subst new
        cases knows G Set.Subset.rfl with
        | openRally _ cells _ =>
          have asked : r ∈ arguments := by simpa [Rally.ofRefs] using argument
          exact (List.forall₂_same.1 cells r asked).2
    · cases knows K grows with
      | openRally _ _ rest => exact rest _
  | pollRally id =>
    have go_on : ∀ p, PollLike (.among G) p p → (next p).Knows M G post held := by
      intro p polls K grows
      cases knows K grows with
      | pollRally _ _ rest =>
        refine rest p p ?_
        cases polls with
        | exhausted => exact .exhausted
        | reported i => exact .reported i
        | late i cells => exact .late i ⟨rfl, grows cells.2⟩
    simp only [Store.act]
    split
    · exact acted_of_other within mine rfl (fun _ => .inl) within.rallies (go_on _ .exhausted)
    · next y found =>
      refine acted_of_other within mine rfl (fun _ => .inl)
        (within.rally found y.arguments_of_poll) (go_on _ ?_)
      cases polled : y.poll.1 with
      | exhausted => exact .exhausted
      | reported i => exact .reported i
      | late i r =>
        have known := within.rallies y (Array.mem_of_getElem? found) r (Rally.mem_of_late polled)
        exact .late i ⟨rfl, known⟩
  | listRally id i =>
    have go_on : ∀ o : Option Ref, (∀ r, o = some r → r ∈ G) → (next o).Knows M G post held := by
      intro o known K grows
      cases knows K grows with
      | listRally _ _ _ rest =>
        refine rest o o ?_
        cases o with
        | none => exact .none
        | some r => exact .some ⟨rfl, grows (known r rfl)⟩
    simp only [Store.act]
    split
    · exact acted_of_other within mine rfl (fun _ => .inl) within.rallies (go_on _ (by simp))
    · next y found =>
      refine acted_of_other within mine rfl (fun _ => .inl)
        (within.rally found (y.arguments_of_list i)) (go_on _ ?_)
      intro r listed
      exact within.rallies y (Array.mem_of_getElem? found) r (Rally.mem_of_list listed)

end
end CallByNeed
