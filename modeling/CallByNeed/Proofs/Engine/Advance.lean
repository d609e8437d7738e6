import CallByNeed.Runner

/- What one step of the engine, or of a runner, can do, by kind of step. Later proofs split these
   cases and never the code of the step. -/
namespace CallByNeed

/-- Only a demand for the result of an effect performs one. -/
theorem Demand.effect_of_perform {how : Demand} {site : Option Location} {v : Value} {action : Ref}
    (reply : how.reply site v = .perform action) : how = .effect ∧ v = .effect action := by
  cases how <;> cases v <;> cases reply
  exact ⟨rfl, rfl⟩

inductive Engine.Advance (E : Engine) :
    Control → List Frame → Store → Control → List Frame → Store → Prop where
  /-- The demanded cell is forced already. -/
  | found {r : Ref} {v : Value} {frames : List Frame} {s : Store}
      (forced : s.heap.state? r = some (.forced v)) :
      Advance E (.enter r) frames s (.give v) frames s
  | follow {r target : Ref} {frames : List Frame} {s : Store}
      (redirect : s.heap.state? r = some (.redirect target)) :
      Advance E (.enter r) frames s (.enter target) frames s
  | start {r : Ref} {w : Work} {frames : List Frame} {s : Store}
      (pending : s.heap.state? r = some (.pending w)) :
      Advance E (.enter r) frames s (.run r w.site (w.task.script E.bound)) frames
        { s with heap := s.heap.setState r .forcing }
  | value {cell : Ref} {site : Option Location} {v : Value} {frames : List Frame} {s : Store} :
      Advance E (.run cell site (.done (.value v))) frames s (.give (v.through? site)) frames
        { s with heap := s.heap.publish cell (v.through? site) }
  | fault {cell : Ref} {site : Option Location} {e : Fault} {frames : List Frame} {s : Store} :
      Advance E (.run cell site (.raise e)) frames s (.give (.error (e.through? site))) frames
        { s with heap := s.heap.publish cell (.error (e.through? site)) }
  /-- The work of the tail moves into the running cell. -/
  | splice {cell child : Ref} {site : Option Location} {w : Work} {frames : List Frame} {s : Store}
      (splices : E.splices = true) (pending : s.heap.state? child = some (.pending w)) :
      Advance E (.run cell site (.done (.tail child))) frames s
        (.run cell w.site (w.task.script E.bound)) frames
        { s with heap := s.heap.setState child (.redirect cell) }
  | tail {cell child : Ref} {site : Option Location} {frames : List Frame} {s : Store}
      (keeps : E.splices = true → ∀ w, s.heap.state? child ≠ some (.pending w)) :
      Advance E (.run cell site (.done (.tail child))) frames s (.enter child)
        ({ cell, site, wait := .tail } :: frames) s
  | demand {cell : Ref} {site : Option Location} {how : Demand} {r : Ref}
      {next : Value → Script Outcome} {frames : List Frame} {s : Store} :
      Advance E (.run cell site (.demand how r next)) frames s (.enter r)
        ({ cell, site, wait := .reply how r next } :: frames) s
  | act {cell : Ref} {site : Option Location} {a : Action} {next : a.Answer → Script Outcome}
      {frames : List Frame} {s : Store} :
      Advance E (.run cell site (.act a next)) frames s (.run cell site (next (s.act a).1)) frames
        (s.act a).2
  /-- The value of a tail is the value of the cell that waits for it. -/
  | pass {cell : Ref} {site : Option Location} {v : Value} {frames : List Frame} {s : Store} :
      Advance E (.give v) ({ cell, site, wait := .tail } :: frames) s (.give (v.through? site))
        frames { s with heap := s.heap.publish cell (v.through? site) }
  | resume {cell r : Ref} {site : Option Location} {how : Demand} {next : Value → Script Outcome}
      {v v' : Value} {frames : List Frame} {s : Store}
      (reply : how.reply (s.heap.site? r) v = .resume v') :
      Advance E (.give v) ({ cell, site, wait := .reply how r next } :: frames) s
        (.run cell site (next v')) frames s
  | perform {cell r action : Ref} {site : Option Location} {how : Demand}
      {next : Value → Script Outcome} {v : Value} {frames : List Frame} {s : Store}
      (reply : how.reply (s.heap.site? r) v = .perform action) :
      Advance E (.give v) ({ cell, site, wait := .reply how r next } :: frames) s (.enter action)
        ({ cell, site, wait := .reply .pure action next } :: frames) s

namespace Engine
variable {E : Engine} {c c' : Control} {frames frames' : List Frame} {s s' : Store}

theorem advance_of_enter {r : Ref} (e : E.enter r frames s = .next c' frames' s') :
    E.Advance (.enter r) frames s c' frames' s' := by
  unfold enter Heap.enter at e
  cases state : s.heap.state? r with
  | none => simp [state] at e
  | some cell =>
    cases cell with
    | vacant => simp [state] at e
    | pending w =>
      simp only [state, Progress.next.injEq] at e
      obtain ⟨rfl, rfl, rfl⟩ := e
      exact .start state
    | forcing => simp [state] at e
    | redirect target =>
      simp only [state, Progress.next.injEq] at e
      obtain ⟨rfl, rfl, rfl⟩ := e
      exact .follow state
    | forced v =>
      simp only [state, Progress.next.injEq] at e
      obtain ⟨rfl, rfl, rfl⟩ := e
      exact .found state

theorem advance_of_tail {cell child : Ref} {site : Option Location}
    (e : E.run cell site frames s (.done (.tail child)) = .next c' frames' s') :
    E.Advance (.run cell site (.done (.tail child))) frames s c' frames' s' := by
  unfold run takeWork Heap.takeWork at e
  by_cases splices : E.splices = true
  · by_cases pending : ∃ w, s.heap.state? child = some (.pending w)
    · obtain ⟨w, pending⟩ := pending
      simp only [splices, pending, ↓reduceIte, Progress.next.injEq] at e
      obtain ⟨rfl, rfl, rfl⟩ := e
      exact .splice splices pending
    · have keeps : ∀ w, s.heap.state? child ≠ some (.pending w) := by simpa using pending
      simp only [splices, ↓reduceIte] at e
      cases e
      exact .tail fun _ => keeps
  · simp only [splices, Bool.false_eq_true, ↓reduceIte, Progress.next.injEq] at e
    obtain ⟨rfl, rfl, rfl⟩ := e
    exact .tail fun yes => absurd yes splices

theorem advance_of_give {v : Value} (e : give v s frames = .next c' frames' s') :
    E.Advance (.give v) frames s c' frames' s' := by
  cases frames with
  | nil => simp [give] at e
  | cons frame frames =>
    obtain ⟨cell, site, wait⟩ := frame
    cases wait with
    | tail =>
      cases e
      exact .pass
    | reply how r next =>
      simp only [give] at e
      split at e
      · next reply => cases e; exact .resume reply
      · next reply => cases e; exact .perform reply

theorem advance_of_step (e : E.step c frames s = .next c' frames' s') :
    E.Advance c frames s c' frames' s' := by
  cases c with
  | enter r => exact advance_of_enter e
  | give v => exact advance_of_give e
  | run cell site script =>
    cases script with
    | done outcome =>
      cases outcome with
      | value v => cases e; exact .value
      | tail child => exact advance_of_tail e
    | raise e' => cases e; exact .fault
    | panic p => cases e
    | stall => cases e
    | demand how r next => cases e; exact .demand
    | act a next => cases e; exact .act
    | ask q next => cases e

/-- The cases of `Advance` are not only all steps, each of them is one. -/
theorem step_of_advance (advance : E.Advance c frames s c' frames' s') :
    E.step c frames s = .next c' frames' s' := by
  cases advance with
  | found forced => simp [step, enter, Heap.enter, forced]
  | follow redirect => simp [step, enter, Heap.enter, redirect]
  | start pending => simp [step, enter, Heap.enter, pending]
  | value => rfl
  | fault => rfl
  | splice splices pending => simp [step, run, takeWork, Heap.takeWork, splices, pending]
  | @tail cell child site _ _ keeps =>
    have nothing : E.takeWork cell child s.heap = (none, s.heap) := by
      unfold takeWork Heap.takeWork
      split
      · next splices =>
        split
        · next w pending => exact absurd pending (keeps splices w)
        · rfl
      · rfl
    simp [step, run, nothing]
  | demand => rfl
  | act => rfl
  | pass => rfl
  | resume reply => simp [step, give, reply]
  | perform reply => simp [step, give, reply]

theorem of_finished {v : Value} (e : E.step c frames s = .finished v s') :
    c = .give v ∧ frames = [] ∧ s' = s := by
  cases c with
  | enter r =>
    simp only [step, enter] at e
    split at e <;> cases e
  | run cell site script =>
    simp only [step, run] at e
    split at e <;> try split at e
    all_goals cases e
  | give w =>
    cases frames with
    | nil => cases e; exact ⟨rfl, rfl, rfl⟩
    | cons frame frames =>
      simp only [step, give] at e
      split at e <;> try split at e
      all_goals simp_all [publish]

theorem of_ask {q : Request} {control : q.Answer → Control}
    (e : E.step c frames s = .ask q control frames' s') :
    ∃ cell site next, c = .run cell site (.ask q next) ∧
      control = (fun a => .run cell site (next a)) ∧ frames' = frames ∧ s' = s := by
  cases c with
  | enter r =>
    simp only [step, enter] at e
    split at e <;> cases e
  | run cell site script =>
    cases script with
    | ask q next => cases e; exact ⟨cell, site, next, rfl, rfl, rfl, rfl⟩
    | done outcome =>
      cases outcome with
      | value v => cases e
      | tail child =>
        simp only [step, run] at e
        split at e <;> cases e
    | raise e' => cases e
    | panic p => cases e
    | stall => cases e
    | demand how r next => cases e
    | act a next => cases e
  | give v =>
    simp only [step, give] at e
    split at e <;> try split at e
    all_goals cases e

end Engine

inductive Runner.Advance {α : Type} (E : Engine) : Runner α → Store → Runner α → Store → Prop where
  | demand {how : Demand} {r : Ref} {next : Value → Script α} {s : Store} :
      Advance E (.ready (.demand how r next)) s (.demand how r next) s
  | act {a : Action} {next : a.Answer → Script α} {s : Store} :
      Advance E (.ready (.act a next)) s (.ready (next (s.act a).1)) (s.act a).2
  | engine {how : Demand} {r : Ref} {next : Value → Script α} {c c' : Control}
      {frames frames' : List Frame} {s s' : Store} (step : E.Advance c frames s c' frames' s') :
      Advance E (.forcing how r next c frames) s (.forcing how r next c' frames') s'
  | resume {how : Demand} {r : Ref} {next : Value → Script α} {v v' : Value} {s : Store}
      (reply : how.reply (s.heap.site? r) v = .resume v') :
      Advance E (.forcing how r next (.give v) []) s (.ready (next v')) s
  | perform {how : Demand} {r action : Ref} {next : Value → Script α} {v : Value} {s : Store}
      (reply : how.reply (s.heap.site? r) v = .perform action) :
      Advance E (.forcing how r next (.give v) []) s (.demand .pure action next) s

namespace Runner
variable {α : Type} {E : Engine} {w w' : Runner α} {s s' : Store}

theorem advance_of_step (e : w.step E s = .next w' s') : w.Advance E s w' s' := by
  cases w with
  | ready script =>
    cases script with
    | demand how r next => cases e; exact .demand
    | act a next => cases e; exact .act
    | done a => cases e
    | raise fault => cases e
    | panic p => cases e
    | stall => cases e
    | ask q next => cases e
  | forcing how r next c frames =>
    simp only [step] at e
    cases progress : E.step c frames s with
    | next c' frames' s' =>
      simp only [progress, Progress.next.injEq] at e
      obtain ⟨rfl, rfl⟩ := e
      exact .engine (Engine.advance_of_step progress)
    | ask q control frames' s' => simp [progress] at e
    | halted h s' => simp [progress] at e
    | finished v s' =>
      obtain ⟨rfl, rfl, rfl⟩ := Engine.of_finished progress
      simp only [progress] at e
      split at e
      · next reply => cases e; exact .resume reply
      · next reply => cases e; exact .perform reply

theorem step_of_advance (advance : w.Advance E s w' s') : w.step E s = .next w' s' := by
  cases advance with
  | demand => rfl
  | act => rfl
  | engine step => simp [Runner.step, Engine.step_of_advance step]
  | resume reply => simp [step, Engine.step, Engine.give, reply]
  | perform reply => simp [step, Engine.step, Engine.give, reply]

/-- A runner that asks waits in a script, its own or that of a cell. -/
theorem of_ask {q : Request} {next : q.Answer → Runner α} (e : w.step E s = .ask q next s') :
    s' = s ∧ ((∃ rest, w = .ready (.ask q rest) ∧ next = fun a => .ready (rest a)) ∨
      ∃ how r rest cell site script frames,
        w = .forcing how r rest (.run cell site (.ask q script)) frames ∧
        next = fun a => .forcing how r rest (.run cell site (script a)) frames) := by
  cases w with
  | ready script =>
    cases script with
    | ask q next => cases e; exact ⟨rfl, .inl ⟨next, rfl, rfl⟩⟩
    | demand how r next => cases e
    | act a next => cases e
    | done a => cases e
    | raise fault => cases e
    | panic p => cases e
    | stall => cases e
  | forcing how r rest c frames =>
    simp only [step] at e
    cases progress : E.step c frames s with
    | next c' frames' s' => simp [progress] at e
    | halted h s' => simp [progress] at e
    | finished v s' =>
      simp only [progress] at e
      split at e <;> cases e
    | ask q control frames' s' =>
      obtain ⟨cell, site, script, rfl, rfl, rfl, rfl⟩ := Engine.of_ask progress
      simp only [progress] at e
      cases e
      exact ⟨rfl, .inr ⟨how, r, rest, cell, site, script, _, rfl, rfl⟩⟩

/-- Only a script of its own can end a runner, unless it halts. -/
theorem of_ended {ending : Ending α} (e : w.step E s = .ended ending s') :
    (∃ h, ending = .halt h) ∨ (∃ a, w = .ready (.done a) ∧ ending = .answer a ∧ s' = s) ∨
      ∃ fault, w = .ready (.raise fault) ∧ ending = .fault fault ∧ s' = s := by
  cases w with
  | ready script =>
    cases script with
    | done a => cases e; exact .inr (.inl ⟨a, rfl, rfl, rfl⟩)
    | raise fault => cases e; exact .inr (.inr ⟨fault, rfl, rfl, rfl⟩)
    | panic p => cases e; exact .inl ⟨_, rfl⟩
    | stall => cases e; exact .inl ⟨_, rfl⟩
    | demand how r next => cases e
    | act a next => cases e
    | ask q next => cases e
  | forcing how r next c frames =>
    simp only [step] at e
    split at e
    · cases e
    · cases e
    · cases e; exact .inl ⟨_, rfl⟩
    · split at e <;> cases e

end Runner
end CallByNeed
