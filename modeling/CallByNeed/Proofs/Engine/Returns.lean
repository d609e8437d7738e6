import CallByNeed.Proofs.Engine.Runs

/- What a control comes to, whatever frames wait for it. The engine works step by step with a stack;
   here each demand is one premise, so that proofs about whole evaluations are inductions over the
   demands. Both views agree. -/
namespace CallByNeed
open Relation (ReflTransGen)

/-- The engine brings a control to a value without asking anything. -/
inductive Engine.Returns (E : Engine) : Control → Store → Value → Store → Prop where
  | give {v : Value} {s : Store} : Returns E (.give v) s v s
  | found {r : Ref} {v : Value} {s : Store} (forced : s.heap.state? r = some (.forced v)) :
      Returns E (.enter r) s v s
  | follow {r target : Ref} {v : Value} {s s' : Store}
      (redirect : s.heap.state? r = some (.redirect target))
      (rest : Returns E (.enter target) s v s') : Returns E (.enter r) s v s'
  | start {r : Ref} {w : Work} {v : Value} {s s' : Store}
      (pending : s.heap.state? r = some (.pending w))
      (rest : Returns E (.run r w.site (w.task.script E.bound))
        { s with heap := s.heap.setState r .forcing } v s') : Returns E (.enter r) s v s'
  | value {cell : Ref} {site : Option Location} {v : Value} {s : Store} :
      Returns E (.run cell site (.done (.value v))) s (v.through? site)
        { s with heap := s.heap.publish cell (v.through? site) }
  | fault {cell : Ref} {site : Option Location} {e : Fault} {s : Store} :
      Returns E (.run cell site (.raise e)) s (.error (e.through? site))
        { s with heap := s.heap.publish cell (.error (e.through? site)) }
  | splice {cell child : Ref} {site : Option Location} {w : Work} {v : Value} {s s' : Store}
      (splices : E.splices = true) (pending : s.heap.state? child = some (.pending w))
      (rest : Returns E (.run cell w.site (w.task.script E.bound))
        { s with heap := s.heap.setState child (.redirect cell) } v s') :
      Returns E (.run cell site (.done (.tail child))) s v s'
  | tail {cell child : Ref} {site : Option Location} {v : Value} {s s' : Store}
      (keeps : E.splices = true → ∀ w, s.heap.state? child ≠ some (.pending w))
      (rest : Returns E (.enter child) s v s') :
      Returns E (.run cell site (.done (.tail child))) s (v.through? site)
        { s' with heap := s'.heap.publish cell (v.through? site) }
  | demand {cell r : Ref} {site : Option Location} {how : Demand}
      {next : Value → Script Outcome} {v v' u : Value} {s s₁ s' : Store}
      (first : Returns E (.enter r) s v s₁) (reply : how.reply (s₁.heap.site? r) v = .resume v')
      (rest : Returns E (.run cell site (next v')) s₁ u s') :
      Returns E (.run cell site (.demand how r next)) s u s'
  | perform {cell r action : Ref} {site : Option Location} {how : Demand}
      {next : Value → Script Outcome} {v u : Value} {s s₁ s' : Store}
      (first : Returns E (.enter r) s v s₁)
      (reply : how.reply (s₁.heap.site? r) v = .perform action)
      (rest : Returns E (.run cell site (.demand .pure action next)) s₁ u s') :
      Returns E (.run cell site (.demand how r next)) s u s'
  | act {cell : Ref} {site : Option Location} {a : Action} {next : a.Answer → Script Outcome}
      {v : Value} {s s' : Store}
      (rest : Returns E (.run cell site (next (s.act a).1)) (s.act a).2 v s') :
      Returns E (.run cell site (.act a next)) s v s'

/-- What becomes of a value that is given to frames. -/
inductive Engine.Unwinds (E : Engine) : List Frame → Value → Store → Value → Store → Prop where
  | nil {v : Value} {s : Store} : Unwinds E [] v s v s
  | tail {cell : Ref} {site : Option Location} {frames : List Frame} {v u : Value} {s s' : Store}
      (rest : Unwinds E frames (v.through? site)
        { s with heap := s.heap.publish cell (v.through? site) } u s') :
      Unwinds E ({ cell, site, wait := .tail } :: frames) v s u s'
  | reply {cell r : Ref} {site : Option Location} {how : Demand} {next : Value → Script Outcome}
      {frames : List Frame} {v v' u x : Value} {s s₁ s' : Store}
      (reply : how.reply (s.heap.site? r) v = .resume v')
      (body : E.Returns (.run cell site (next v')) s u s₁) (rest : Unwinds E frames u s₁ x s') :
      Unwinds E ({ cell, site, wait := .reply how r next } :: frames) v s x s'
  | perform {cell r action : Ref} {site : Option Location} {how : Demand}
      {next : Value → Script Outcome} {frames : List Frame} {v u x : Value} {s s₁ s' : Store}
      (reply : how.reply (s.heap.site? r) v = .perform action)
      (body : E.Returns (.run cell site (.demand .pure action next)) s u s₁)
      (rest : Unwinds E frames u s₁ x s') :
      Unwinds E ({ cell, site, wait := .reply how r next } :: frames) v s x s'

/-- The control returns and its frames unwind. -/
def Engine.Finishes (E : Engine) (x : Control × List Frame × Store) (v : Value) (s' : Store) :
    Prop :=
  ∃ u s₁, E.Returns x.1 x.2.2 u s₁ ∧ E.Unwinds x.2.1 u s₁ v s'

section
variable {E : Engine} {c c' : Control} {frames frames' : List Frame} {s s' t : Store} {v : Value}

/-- A step before an evaluation is part of the evaluation. -/
theorem Engine.Advance.finishes (step : E.Advance c frames s c' frames' s')
    (rest : E.Finishes (c', frames', s') v t) : E.Finishes (c, frames, s) v t := by
  obtain ⟨u, s₁, returns, unwinds⟩ := rest
  dsimp only at returns unwinds
  cases step with
  | found forced =>
    cases returns with
    | give => exact ⟨_, _, .found forced, unwinds⟩
  | follow redirect => exact ⟨u, s₁, .follow redirect returns, unwinds⟩
  | start pending => exact ⟨u, s₁, .start pending returns, unwinds⟩
  | value =>
    cases returns with
    | give => exact ⟨_, _, .value, unwinds⟩
  | fault =>
    cases returns with
    | give => exact ⟨_, _, .fault, unwinds⟩
  | splice splices pending => exact ⟨u, s₁, .splice splices pending returns, unwinds⟩
  | tail keeps =>
    cases unwinds with
    | tail rest => exact ⟨_, _, .tail keeps returns, rest⟩
  | demand =>
    cases unwinds with
    | reply reply body rest => exact ⟨_, _, .demand returns reply body, rest⟩
    | perform reply body rest => exact ⟨_, _, .perform returns reply body, rest⟩
  | act => exact ⟨u, s₁, .act returns, unwinds⟩
  | pass =>
    cases returns with
    | give => exact ⟨_, _, .give, .tail unwinds⟩
  | resume reply => exact ⟨_, _, .give, .reply reply returns unwinds⟩
  | perform reply =>
    cases unwinds with
    | reply again body rest =>
      exact ⟨_, _, .give, .perform reply (.demand returns again body) rest⟩
    | perform again body rest =>
      exact ⟨_, _, .give, .perform reply (.perform returns again body) rest⟩

theorem Engine.returns_of_moves (moves : ReflTransGen E.Moves (c, [], s) (.give v, [], s')) :
    E.Returns c s v s' := by
  have finishes : ∀ x, ReflTransGen E.Moves x (.give v, [], s') → E.Finishes x v s' := by
    intro x moves
    induction moves using ReflTransGen.head_induction_on with
    | refl => exact ⟨v, s', .give, .nil⟩
    | head move _ ih => exact Engine.Advance.finishes move ih
  obtain ⟨u, s₁, returns, unwinds⟩ := finishes _ moves
  cases unwinds with
  | nil => exact returns

theorem Engine.Returns.moves (returns : E.Returns c s v s') (frames : List Frame) :
    ReflTransGen E.Moves (c, frames, s) (.give v, frames, s') := by
  induction returns generalizing frames with
  | give => exact .refl
  | found forced => exact .single (Advance.found forced).move
  | follow redirect _ ih => exact .head (Advance.follow redirect).move (ih frames)
  | start pending _ ih => exact .head (Advance.start pending).move (ih frames)
  | value => exact .single Advance.value.move
  | fault => exact .single Advance.fault.move
  | splice splices pending _ ih => exact .head (Advance.splice splices pending).move (ih frames)
  | tail keeps _ ih => exact .head (Advance.tail keeps).move ((ih _).tail Advance.pass.move)
  | demand _ reply _ ih ih' =>
    exact .head Advance.demand.move ((ih _).trans (.head (Advance.resume reply).move (ih' frames)))
  | perform _ reply _ ih ih' =>
    -- The action is demanded as any cell is, but for the step that demands it.
    refine .head Advance.demand.move ((ih _).trans (.head (Advance.perform reply).move ?_))
    rcases (ih' frames).cases_head with same | ⟨⟨c, others, t⟩, first, rest⟩
    · cases same
    · have demands : E.Advance _ _ _ c others t := first
      cases demands
      exact rest
  | act _ ih => exact .head Advance.act.move (ih frames)

end

/-- No host: what is asked has no answer. -/
instance : Host Option where
  answer _ := none

/-- A cell is forced with nobody to ask and nobody else at work, under some bound of loops. -/
def Store.Forces (s : Store) (r : Ref) (v : Value) (s' : Store) : Prop :=
  ∃ bound fuel, (observe r).run { bound } fuel s = some (.answer v, s')

def Store.Ends (s : Store) (r : Ref) : Prop := ∃ v s', s.Forces r v s'

theorem Demand.pure_reply (site : Option Location) (v : Value) :
    ∃ u, Demand.pure.reply site v = .resume u := by
  cases v <;> exact ⟨_, rfl⟩

namespace Runner
variable {E : Engine} {c : Control} {frames : List Frame} {r : Ref} {v : Value} {s s' : Store}

theorem moves_of_run {fuel : Nat}
    (run : (Runner.forcing .pure r .done c frames).run E fuel s = some (.answer v, s')) :
    ∃ u, ReflTransGen E.Moves (c, frames, s) (.give u, [], s') ∧
      Demand.pure.reply (s'.heap.site? r) u = .resume v := by
  induction fuel generalizing c frames s with
  | zero => cases run
  | succ fuel ih =>
    simp only [Runner.run, step] at run
    cases progress : E.step c frames s with
    | next c' frames' s₁ =>
      simp only [progress] at run
      obtain ⟨u, moves, reply⟩ := ih run
      exact ⟨u, .head (Engine.advance_of_step progress) moves, reply⟩
    | ask q control frames' s₁ =>
      simp only [progress] at run
      cases run
    | halted h s₁ =>
      simp only [progress] at run
      cases run
    | finished u s₁ =>
      obtain ⟨rfl, rfl, rfl⟩ := Engine.of_finished progress
      simp only [progress] at run
      obtain ⟨x, reply⟩ := Demand.pure_reply (s₁.heap.site? r) u
      simp only [reply] at run
      cases fuel with
      | zero => cases run
      | succ fuel =>
        cases run
        exact ⟨u, .refl, reply⟩

theorem run_of_moves {u : Value}
    (moves : ReflTransGen E.Moves (c, frames, s) (.give u, [], s'))
    (reply : Demand.pure.reply (s'.heap.site? r) u = .resume v) :
    ∃ fuel, (Runner.forcing .pure r .done c frames).run E fuel s = some (.answer v, s') := by
  generalize start : (c, frames, s) = x at moves
  induction moves using ReflTransGen.head_induction_on generalizing c frames s with
  | refl =>
    cases start
    exact ⟨2, by simp [Runner.run, step, Engine.step, Engine.give, reply]⟩
  | @head _ y move _ ih =>
    subst start
    obtain ⟨c₁, frames₁, s₁⟩ := y
    obtain ⟨fuel, run⟩ := ih rfl
    refine ⟨fuel + 1, ?_⟩
    simp only [Runner.run, step, Engine.step_of_advance move]
    exact run

end Runner

/-- Forcing a cell is bringing it to a value, which is shown unless it is an effect. -/
theorem Store.forces_iff {s s' : Store} {r : Ref} {v : Value} :
    s.Forces r v s' ↔ ∃ bound u,
      ReflTransGen (Engine.Moves { bound }) (.enter r, [], s) (.give u, [], s') ∧
        Demand.pure.reply (s'.heap.site? r) u = .resume v := by
  constructor
  · rintro ⟨bound, fuel, run⟩
    cases fuel with
    | zero => cases run
    | succ fuel => exact ⟨bound, Runner.moves_of_run run⟩
  · rintro ⟨bound, u, moves, reply⟩
    obtain ⟨fuel, run⟩ := Runner.run_of_moves moves reply
    exact ⟨bound, fuel + 1, run⟩

end CallByNeed
