import CallByNeed.Proofs.Concatenation.Drawing
import CallByNeed.Proofs.Reading.Demands

/- Bodies that only demand, run beside their cell. Where such a body is run by a cell, it can be run as
   well while the cell still waits to be forced, and the run is the same but for that cell. Nobody
   gets to force the cell meanwhile: its body would come to demand what the run itself is forcing, and
   the run would not end. -/
namespace CallByNeed
open Relation (ReflTransGen)

namespace Heap
variable {h : Heap} {a r : Ref} {old c c' : CellState} {w : Work}

theorem setState_comm (apart : r ≠ a) (h : Heap) (c c' : CellState) :
    (h.setState a c).setState r c' = (h.setState r c').setState a c := by
  have other : r.index ≠ a.index := fun same => apart (by cases r; cases a; cases same; rfl)
  simp only [setState, mk.injEq]
  refine Array.ext (by simp) fun i _ _ => ?_
  simp only [Array.getElem_modify]
  split <;> split <;> first | rfl | omega

theorem setState_setState (h : Heap) (a : Ref) (c c' : CellState) :
    (h.setState a c).setState a c' = h.setState a c' := by
  simp only [setState, mk.injEq]
  refine Array.ext (by simp) fun i _ _ => ?_
  simp only [Array.getElem_modify]
  split <;> rfl

theorem alloc_setState (known : h.state? a = some old) (c : CellState) (cell : Cell) :
    (h.setState a c).alloc cell = ((h.alloc cell).1, (h.alloc cell).2.setState a c) := by
  have inside : a.index < h.cells.size := by
    obtain ⟨found, state, _⟩ := exists_cell known
    exact (Array.getElem?_eq_some_iff.1 state).1
  simp only [alloc, size_setState]
  congr 1
  simp only [setState, mk.injEq]
  refine Array.ext (by simp) fun i _ _ => ?_
  simp only [Array.getElem_push, Array.getElem_modify, Array.size_modify]
  grind

theorem fill_setState (waits : h.state? a = some (.pending w)) (handle target : Ref) :
    (h.setState a .forcing).fill handle target =
      ((h.fill handle target).1, (h.fill handle target).2.setState a .forcing) := by
  by_cases same : handle = a
  · subst same
    simp only [fill, state?_setState_self waits, waits]
  · simp only [fill, state?_setState_ne same]
    split
    · rw [setState_comm same]
    · rfl

end Heap

namespace Store
variable {s : Store} {a : Ref} {w : Work}

theorem act_start (waits : s.heap.state? a = some (.pending w)) (x : Action) :
    ((s.start a).act x).1 = (s.act x).1 ∧ ((s.start a).act x).2 = (s.act x).2.start a := by
  cases x with
  | alloc c => simp only [act, start, Heap.alloc_setState waits, and_self]
  | fill handle target => simp only [act, start, Heap.fill_setState waits, and_self]
  | trace | submit | openRally => exact ⟨rfl, rfl⟩
  | pollRally id | listRally id i =>
    simp only [act, start]
    split <;> exact ⟨rfl, rfl⟩

theorem state?_act (waits : s.heap.state? a = some (.pending w)) (x : Action) :
    (s.act x).2.heap.state? a = some (.pending w) := by
  have idle : s.heap.Forcing [] := nofun
  exact ((Store.served_act idle x).keeps a w waits).resolve_right nofun

end Store

/-! ### Steps -/

section
variable {E : Engine} {c c' : Control} {frames frames' : List Frame} {s s' t : Store} {a : Ref}
variable {w : Work}

/-- A step takes the work of a waiting cell to run it, or leaves the cell alone. -/
theorem Engine.Advance.takes (step : E.Advance c frames s c' frames' s')
    (forcing : s.heap.Forcing (c.cells ++ frames.map Frame.cell))
    (waits : s.heap.state? a = some (.pending w)) :
    s'.heap.state? a = some (.pending w) ∨
      ∃ cell, c' = .run cell w.site (w.task.script E.bound) := by
  have publishes {cell : Ref} (mine : cell ∈ c.cells ++ frames.map Frame.cell) (v : Value) :
      (s.heap.publish cell v).state? a = some (.pending w) := by
    refine (Heap.state?_setState_ne ?_ _).trans waits
    rintro rfl
    rw [forcing _ mine] at waits
    cases waits
  cases step with
  | found | follow | tail | demand | resume | perform => exact .inl waits
  | @start r _ _ _ pending =>
    by_cases same : a = r
    · subst same
      cases waits.symm.trans pending
      exact .inr ⟨a, rfl⟩
    · exact .inl ((Heap.state?_setState_ne same _).trans waits)
  | value | fault | pass => exact .inl (publishes (by simp [Control.cells]) _)
  | @splice cell child _ _ _ _ _ pending =>
    by_cases same : a = child
    · subst same
      cases waits.symm.trans pending
      exact .inr ⟨cell, rfl⟩
    · exact .inl ((Heap.state?_setState_ne same _).trans waits)
  | act => exact .inl (Store.state?_act waits _)

/-- A step that leaves a waiting cell alone is the same step while that cell is being forced. -/
theorem Engine.Advance.begun (step : E.Advance c frames s c' frames' s')
    (waits : s.heap.state? a = some (.pending w)) (still : s'.heap.state? a = some (.pending w)) :
    E.Advance c frames (s.start a) c' frames' (s'.start a) := by
  suffices moved : ∃ t, E.Advance c frames (s.start a) c' frames' t ∧ t = s'.start a by
    obtain ⟨_, step, rfl⟩ := moved
    exact step
  have others {r : Ref} {state : CellState} (known : s.heap.state? r = some state)
      (other : ∀ w, state ≠ .pending w) : (s.start a).heap.state? r = some state := by
    refine (Heap.state?_setState_ne ?_ _).trans known
    rintro rfl
    exact other w (Option.some.inj (known.symm.trans waits))
  have changes {r : Ref} (state : CellState) (other : state ≠ .pending w)
      (after : (s.heap.setState r state).state? a = some (.pending w)) :
      r ≠ a ∧ ({ s.start a with heap := (s.start a).heap.setState r state } : Store) =
        Store.start { s with heap := s.heap.setState r state } a := by
    have apart : r ≠ a := by
      rintro rfl
      rw [Heap.state?_setState_self waits] at after
      cases after
      exact other rfl
    exact ⟨apart, by simp only [Store.start, Heap.setState_comm apart]⟩
  cases step with
  | found forced => exact ⟨_, .found (others forced nofun), rfl⟩
  | follow redirect => exact ⟨_, .follow (others redirect nofun), rfl⟩
  | start pending =>
    obtain ⟨apart, same⟩ := changes .forcing nofun still
    exact ⟨_, .start ((Heap.state?_setState_ne apart _).trans pending), same⟩
  | value => exact ⟨_, .value, (changes (.forced _) nofun still).2⟩
  | fault => exact ⟨_, .fault, (changes (.forced _) nofun still).2⟩
  | splice splices pending =>
    obtain ⟨apart, same⟩ := changes (.redirect _) nofun still
    exact ⟨_, .splice splices ((Heap.state?_setState_ne apart _).trans pending), same⟩
  | @tail _ child _ _ _ keeps =>
    refine ⟨_, .tail fun splices u => ?_, rfl⟩
    by_cases same : child = a
    · subst same
      simp [Store.start, Heap.state?_setState_self waits]
    · simpa only [Store.start, Heap.state?_setState_ne same] using keeps splices u
  | demand => exact ⟨_, .demand, rfl⟩
  | @act _ _ x _ _ _ =>
    obtain ⟨answer, acts⟩ := Store.act_start waits x
    rw [← answer]
    exact ⟨_, .act, acts⟩
  | pass => exact ⟨_, .pass, (changes (.forced _) nofun still).2⟩
  | resume reply =>
    exact ⟨_, .resume (by simpa only [Store.start, Heap.site?_setState] using reply), rfl⟩
  | perform reply =>
    exact ⟨_, .perform (by simpa only [Store.start, Heap.site?_setState] using reply), rfl⟩

/-- A step taken while a cell is being forced, and not by who forces it, is the same step while that
    cell waits, unless the cell is the tail of a body. -/
theorem Engine.Advance.of_start (step : E.Advance c frames (s.start a) c' frames' s')
    (waits : s.heap.state? a = some (.pending w)) (apart : a ∉ c.cells ++ frames.map Frame.cell) :
    (∃ t, s' = t.start a ∧ E.Advance c frames s c' frames' t ∧
      t.heap.state? a = some (.pending w)) ∨ c' = .enter a ∧ s' = s.start a := by
  have busy : (s.start a).heap.state? a = some .forcing := Heap.state?_setState_self waits _
  have others {r : Ref} {state : CellState} (known : (s.start a).heap.state? r = some state)
      (other : state ≠ .forcing) : r ≠ a ∧ s.heap.state? r = some state := by
    have ne : r ≠ a := by
      rintro rfl
      rw [busy] at known
      cases known
      exact other rfl
    exact ⟨ne, (Heap.state?_setState_ne ne _).symm.trans known⟩
  have changes {r : Ref} (state : CellState) (ne : r ≠ a) :
      ({ s.start a with heap := (s.start a).heap.setState r state } : Store) =
          Store.start { s with heap := s.heap.setState r state } a ∧
        (s.heap.setState r state).state? a = some (.pending w) :=
    ⟨by simp only [Store.start, Heap.setState_comm ne],
      (Heap.state?_setState_ne ne.symm _).trans waits⟩
  have running {cell : Ref} (mine : cell ∈ c.cells ++ frames.map Frame.cell) : cell ≠ a := by
    rintro rfl
    exact apart mine
  cases step with
  | found forced => exact .inl ⟨s, rfl, .found (others forced nofun).2, waits⟩
  | follow redirect => exact .inl ⟨s, rfl, .follow (others redirect nofun).2, waits⟩
  | start pending =>
    obtain ⟨ne, pending⟩ := others pending nofun
    obtain ⟨same, still⟩ := changes .forcing ne
    exact .inl ⟨_, same, .start pending, still⟩
  | value =>
    obtain ⟨same, still⟩ := changes (.forced _) (running (List.mem_cons_self ..))
    exact .inl ⟨_, same, .value, still⟩
  | fault =>
    obtain ⟨same, still⟩ := changes (.forced _) (running (List.mem_cons_self ..))
    exact .inl ⟨_, same, .fault, still⟩
  | splice splices pending =>
    obtain ⟨ne, pending⟩ := others pending nofun
    obtain ⟨same, still⟩ := changes (.redirect _) ne
    exact .inl ⟨_, same, .splice splices pending, still⟩
  | @tail _ child _ _ _ keeps =>
    by_cases same : child = a
    · exact .inr ⟨congrArg _ same, rfl⟩
    · refine .inl ⟨s, rfl, .tail fun splices u pending => ?_, waits⟩
      exact keeps splices u ((Heap.state?_setState_ne same _).trans pending)
  | demand => exact .inl ⟨s, rfl, .demand, waits⟩
  | @act _ _ x _ _ _ =>
    obtain ⟨answer, acts⟩ := Store.act_start waits x
    rw [answer, acts]
    exact .inl ⟨_, rfl, .act, Store.state?_act waits x⟩
  | pass =>
    obtain ⟨same, still⟩ := changes (.forced _) (running (List.mem_cons_self ..))
    exact .inl ⟨_, same, .pass, still⟩
  | resume reply =>
    exact .inl ⟨s, rfl, .resume (by simpa only [Store.start, Heap.site?_setState] using reply), waits⟩
  | perform reply =>
    exact .inl ⟨s, rfl, .perform (by simpa only [Store.start, Heap.site?_setState] using reply), waits⟩

/-! ### Runs -/

namespace Runner
variable {α : Type} {r r' : Runner α} {m : Script α} {world world' : World} {o : Except Fault α}

theorem Advance.takes (step : r.Advance E s r' s') (forcing : s.heap.Forcing r.owned)
    (waits : s.heap.state? a = some (.pending w)) :
    s'.heap.state? a = some (.pending w) ∨ ∃ how q next cell frames,
      r' = .forcing how q next (.run cell w.site (w.task.script E.bound)) frames := by
  cases step with
  | demand | resume | perform => exact .inl waits
  | act => exact .inl (Store.state?_act waits _)
  | engine step =>
    refine (step.takes forcing waits).imp id ?_
    rintro ⟨cell, rfl⟩
    exact ⟨_, _, _, cell, _, rfl⟩

theorem Advance.of_start (step : r.Advance E (s.start a) r' s')
    (waits : s.heap.state? a = some (.pending w)) (apart : a ∉ r.owned) :
    (∃ t, s' = t.start a ∧ r.Advance E s r' t ∧ t.heap.state? a = some (.pending w)) ∨
      ∃ how q next frames, r' = .forcing how q next (.enter a) frames ∧ s' = s.start a := by
  cases step with
  | demand => exact .inl ⟨s, rfl, .demand, waits⟩
  | @act x _ _ =>
    obtain ⟨answer, acts⟩ := Store.act_start waits x
    rw [answer, acts]
    exact .inl ⟨_, rfl, .act, Store.state?_act waits x⟩
  | engine step =>
    rcases step.of_start waits apart with ⟨t, rfl, step, still⟩ | ⟨rfl, rfl⟩
    · exact .inl ⟨t, rfl, .engine step, still⟩
    · exact .inr ⟨_, _, _, _, rfl, rfl⟩
  | resume reply =>
    exact .inl ⟨s, rfl, .resume (by simpa only [Store.start, Heap.site?_setState] using reply), waits⟩
  | perform reply =>
    exact .inl ⟨s, rfl, .perform (by simpa only [Store.start, Heap.site?_setState] using reply), waits⟩

theorem Advance.begun (step : r.Advance E s r' s') (waits : s.heap.state? a = some (.pending w))
    (still : s'.heap.state? a = some (.pending w)) : r.Advance E (s.start a) r' (s'.start a) := by
  cases step with
  | demand => exact .demand
  | @act x _ _ =>
    obtain ⟨answer, acts⟩ := Store.act_start waits x
    rw [← answer, ← acts]
    exact .act
  | engine step => exact .engine (step.begun waits still)
  | resume reply => exact .resume (by simpa only [Store.start, Heap.site?_setState] using reply)
  | perform reply => exact .perform (by simpa only [Store.start, Heap.site?_setState] using reply)

/-- Where the engine comes to a halt, the runner comes to no end. -/
theorem not_leaves_of_sticks {how : Demand} {q : Ref} {next : Value → Script α}
    (sticks : E.Sticks (c, frames, s)) :
    ¬ (Runner.forcing how q next c frames).Leaves E s world o t world' := by
  obtain ⟨y, halt, u, moves, halts⟩ := sticks
  generalize same : (c, frames, s) = x at moves
  induction moves using ReflTransGen.head_induction_on generalizing c frames s with
  | refl =>
    subst same
    rintro ⟨_ | fuel, run⟩
    · cases o <;> cases run
    · simp only [Runner.run, Runner.step, halts] at run
      cases o <;> cases run
  | @head x z move _ ih =>
    subst same
    exact fun leaves => ih rfl (leaves.after (.engine move))

end Runner

theorem Engine.Sticks.of_moves {x y : Control × List Frame × Store}
    (moves : ReflTransGen E.Moves x y) (sticks : E.Sticks y) : E.Sticks x := by
  induction moves using ReflTransGen.head_induction_on with
  | refl => exact sticks
  | head move _ ih => exact ih.head move

theorem Engine.sticks_of_leads {q d : Ref} (leads : s.heap.Leads q d)
    (busy : s.heap.state? d = some .forcing) : E.Sticks (.enter q, frames, s) := by
  induction leads using ReflTransGen.head_induction_on with
  | refl => exact Engine.sticks_of_forcing busy
  | head redirect _ ih => exact ih.head (Engine.Advance.follow redirect).move

/-- A body sticks that comes to demand what is being forced already. -/
theorem Script.Demands.sticks {m : Script Outcome} {cell q d : Ref} {site : Option Location}
    (demands : m.Demands s.heap q) (leads : s.heap.Leads q d)
    (busy : s.heap.state? d = some .forcing) : E.Sticks (.run cell site m, frames, s) := by
  -- What is found forced is passed over, and so is an effect that has been performed.
  have found {how : Demand} {r : Ref} {u : Value} {next : Value → Script Outcome}
      (yields : s.heap.Yields r u)
      (given : E.Sticks (.give u, { cell, site, wait := .reply how r next } :: frames, s)) :
      E.Sticks (.enter r, { cell, site, wait := .reply how r next } :: frames, s) :=
    .of_moves ((Runner.returns_of_yields yields).moves _) given
  have passes {how : Demand} {r : Ref} {v : Value} {next : Value → Script Outcome}
      (replies : s.heap.Replies how r v) (rest : E.Sticks (.run cell site (next v), frames, s)) :
      E.Sticks (.enter r, { cell, site, wait := .reply how r next } :: frames, s) := by
    induction replies with
    | resume yields reply => exact found yields (rest.head (Engine.Advance.resume reply).move)
    | perform yields reply _ ih =>
      exact found yields ((ih rest).head (Engine.Advance.perform reply).move)
  induction demands with
  | here => exact (Engine.sticks_of_leads leads busy).head Engine.Advance.demand.move
  | action yields reply =>
    refine (found yields ?_).head Engine.Advance.demand.move
    exact (Engine.sticks_of_leads leads busy).head (Engine.Advance.perform reply).move
  | later replies _ ih => exact (passes replies (ih leads)).head Engine.Advance.demand.move

/-! ### Whole runs -/

/-- Whoever is served waits for a cell that is being forced. -/
theorem Heap.Serves.leads {h : Heap} {cell q : Ref} {site : Option Location} {m : Script Outcome}
    {calls : List Ref} (serves : h.Serves (.run cell site m) frames calls)
    (call : calls.getLast? = some q) : ∃ d ∈ cell :: frames.map Frame.cell, h.Leads q d := by
  obtain ⟨answers, waiting⟩ := serves
  have cells : List.Forall₂ (fun d call => h.Leads call d) (cell :: frames.map Frame.cell) _ :=
    .cons answers (List.forall₂_map_left_iff.2 waiting)
  obtain ⟨i, bound, rfl⟩ := List.getElem_of_mem (List.mem_of_getLast? call)
  have same := cells.length_eq
  exact ⟨_, List.getElem_mem (by omega), cells.get (by omega) bound⟩

section
variable {m : Script Outcome} {world world' : World} {o : Except Fault Outcome}

/-- A body that only demands, run while its cell waits, leaves the cell alone, and is run as well when
    the cell is being forced. -/
theorem Script.IsReader.leaves_begun (reader : m.IsReader) (body : w.task.script E.bound = m)
    (waits : s.heap.state? a = some (.pending w)) (leaves : m.Leaves E s world o t world') :
    t.heap.state? a = some (.pending w) ∧ m.Leaves E (s.start a) world o (t.start a) world' := by
  refine Runner.Leaves.induct (motive := fun r s world => r.Along s.heap m → r.owned.Nodup →
    s.heap.Forcing r.owned → s.heap.state? a = some (.pending w) →
    t.heap.state? a = some (.pending w) ∧ r.Leaves E (s.start a) world o (t.start a) world')
    ?_ ?_ ?_ leaves ⟨reader, nofun, fun _ _ _ demands => demands⟩ List.nodup_nil nofun waits
  · exact fun _ _ _ waits => ⟨waits, Runner.leaves_of_ended o _ _⟩
  · intro r r₁ s s₁ _ step rest ih along apart forcing waits
    obtain ⟨apart₁, forcing₁⟩ := step.keeps forcing apart
    have along₁ := along.step step forcing
    rcases step.takes forcing waits with still | ⟨how, q, next, cell, frames, rfl⟩
    · obtain ⟨last, goesOn⟩ := ih along₁ apart₁ forcing₁ still
      exact ⟨last, goesOn.of_advance (step.begun waits still)⟩
    · -- The body has been begun once more on behalf of a cell that it demands.
      obtain ⟨calls, serves, call⟩ := along₁.serving rfl
      have demands : m.Demands s₁.heap q := along₁.demands _ q s₁.heap.before_refl .here
      obtain ⟨d, mine, leads⟩ := serves.leads call
      rw [body] at rest
      exact absurd rest (Runner.not_leaves_of_sticks (demands.sticks leads (forcing₁ d mine)))
  · intro r s s₁ world q next step ih along apart forcing waits
    have owned := Runner.owned_of_ask step (World.answer q world).1
    obtain ⟨rfl, asks⟩ := Runner.of_ask step
    obtain ⟨last, goesOn⟩ := ih (along.ask step _) (owned ▸ apart) (owned ▸ forcing) waits
    refine ⟨last, goesOn.of_ask ?_⟩
    rcases asks with ⟨rest, rfl, rfl⟩ | ⟨how, r, rest, cell, site, script, frames, rfl, rfl⟩
    · rfl
    · rfl

/-- What is run while a cell is being forced, and not by who forces it, is run as well while that cell
    waits. -/
theorem Script.Leaves.of_start {α : Type} {m : Script α} {o : Except Fault α}
    (waits : s.heap.state? a = some (.pending w))
    (leaves : m.Leaves E (s.start a) world o t world') :
    ∃ t', t = t'.start a ∧ m.Leaves E s world o t' world' := by
  refine Runner.Leaves.induct (motive := fun r u world => ∀ s, u = s.start a →
    s.heap.state? a = some (.pending w) → r.owned.Nodup → s.heap.Forcing r.owned →
    ∃ t', t = t'.start a ∧ r.Leaves E s world o t' world') ?_ ?_ ?_ leaves s rfl waits
    List.nodup_nil nofun
  · rintro s rfl _ _ _
    exact ⟨s, rfl, Runner.leaves_of_ended o _ _⟩
  · rintro r r₁ _ s₁ _ step rest ih s rfl waits apart forcing
    have other : a ∉ r.owned := by
      intro mine
      rw [forcing a mine] at waits
      cases waits
    rcases step.of_start waits other with ⟨t', rfl, step, still⟩ | ⟨how, q, next, frames, rfl, rfl⟩
    · obtain ⟨apart₁, forcing₁⟩ := step.keeps forcing apart
      obtain ⟨u, same, goesOn⟩ := ih t' rfl still apart₁ forcing₁
      exact ⟨u, same, goesOn.of_advance step⟩
    · have busy : (s.start a).heap.state? a = some .forcing := Heap.state?_setState_self waits _
      exact absurd rest (Runner.not_leaves_of_sticks (Engine.sticks_of_forcing busy))
  · rintro r _ _ world q next step ih s rfl waits apart forcing
    have owned := Runner.owned_of_ask step (World.answer q world).1
    obtain ⟨rfl, asks⟩ := Runner.of_ask step
    obtain ⟨t', same, goesOn⟩ := ih s rfl waits (owned ▸ apart) (owned ▸ forcing)
    refine ⟨t', same, goesOn.of_ask ?_⟩
    rcases asks with ⟨rest, rfl, rfl⟩ | ⟨how, r, rest, cell, site, script, frames, rfl, rfl⟩
    · rfl
    · rfl

/-- A body that only demands comes to the same end in its cell and outside of it. -/
theorem Script.IsReader.leaves_start_iff (reader : m.IsReader) (body : w.task.script E.bound = m)
    (waits : s.heap.state? a = some (.pending w)) : m.Leaves E (s.start a) world o t world' ↔
      ∃ t', m.Leaves E s world o t' world' ∧ t'.heap.state? a = some (.pending w) ∧
        t = t'.start a := by
  constructor
  · intro leaves
    obtain ⟨t', rfl, beside⟩ := leaves.of_start waits
    exact ⟨t', beside, (reader.leaves_begun body waits beside).1, rfl⟩
  · rintro ⟨t', leaves, _, rfl⟩
    exact (reader.leaves_begun body waits leaves).2

end
end

end CallByNeed
