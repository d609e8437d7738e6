import CallByNeed.Proofs.Reading.Runs

/- How runs of scripts end, by the form of the script. A script that is run alone comes to one end at
   most, so what a script comes to tells all about its run. -/
namespace CallByNeed

namespace Runner
variable {α : Type} {E : Engine} {w : Runner α} {s t t' : Store} {world world' world'' : World}
variable {o o' : Except Fault α}

theorem of_leaves_ended (leaves : (Runner.ready (Script.ended o)).Leaves E s world o' t world') :
    o' = o ∧ t = s ∧ world' = world := by
  obtain ⟨_ | fuel, run⟩ := leaves <;> cases o <;> cases o' <;> cases run <;> exact ⟨rfl, rfl, rfl⟩

/-- There is one end. -/
theorem Leaves.unique (leaves : w.Leaves E s world o t world')
    (leaves' : w.Leaves E s world o' t' world'') : o' = o ∧ t' = t ∧ world'' = world' := by
  refine Leaves.induct (motive := fun w s world => w.Leaves E s world o' t' world'' →
    o' = o ∧ t' = t ∧ world'' = world') of_leaves_ended ?_ ?_ leaves leaves'
  · rintro w w₁ s s₁ world step _ ih ⟨_ | fuel, run⟩
    · cases o' <;> cases run
    · refine ih ⟨fuel, ?_⟩
      simpa only [Runner.run, step_of_advance step] using run
  · rintro w s s₁ world q next step ih ⟨_ | fuel, run⟩
    · cases o' <;> cases run
    · refine ih ⟨fuel, ?_⟩
      simp only [Runner.run, step] at run
      exact run

/-- A cell that another one forces is still being forced at the end. -/
theorem Leaves.busy {r : Ref} (leaves : w.Leaves E s world o t world')
    (forcing : s.heap.Forcing w.owned) (apart : w.owned.Nodup) (other : r ∉ w.owned)
    (busy : s.heap.state? r = some .forcing) : t.heap.state? r = some .forcing := by
  refine Leaves.induct (motive := fun w s _ => s.heap.Forcing w.owned → w.owned.Nodup →
    r ∉ w.owned → s.heap.state? r = some .forcing → t.heap.state? r = some .forcing) ?_ ?_ ?_ leaves
    forcing apart other busy
  · exact fun _ _ _ busy => busy
  · intro w w₁ s s₁ _ step _ ih forcing apart other busy
    obtain ⟨handed, served⟩ := step.served forcing apart
    obtain ⟨apart₁, forcing₁⟩ := step.keeps forcing apart
    refine ih forcing₁ apart₁ ?_ (served.others r busy other)
    rcases served.owns with same | less | ⟨q, work, more, pending⟩
    · rwa [same]
    · exact fun mem => other (List.mem_of_mem_tail (less ▸ mem))
    · rw [more, List.mem_cons]
      rintro (rfl | mem)
      · rw [busy] at pending
        cases pending
      · exact other mem
  · intro w s s₁ world q next step ih forcing apart other busy
    obtain ⟨rfl, _⟩ := Runner.of_ask step
    have owned := owned_of_ask step (World.answer q world).1
    exact ih (owned ▸ forcing) (owned ▸ apart) (owned ▸ other) busy

end Runner

namespace Script
variable {α β : Type} {E : Engine} {m : Script α} {f : α → Script β} {s t t' : Store}
variable {world world' world'' : World} {o o' : Except Fault α}

/-- What a script certainly comes to is the end of its run. -/
theorem Comes.leaves_iff (comes : m.Comes E s o t) :
    m.Leaves E s world o' t' world' ↔ o' = o ∧ t' = t ∧ world' = world := by
  constructor
  · exact comes.leaves.unique
  · rintro ⟨rfl, rfl, rfl⟩
    exact comes.leaves

theorem leaves_pure_iff {a : α} :
    (pure a : Script α).Leaves E s world o t world' ↔ o = .ok a ∧ t = s ∧ world' = world :=
  Comes.leaves_iff .done

theorem leaves_fail_iff {c : Cause} : (fail c : Script α).Leaves E s world o t world' ↔
    o = .error { cause := c } ∧ t = s ∧ world' = world :=
  Comes.leaves_iff .raise

theorem leaves_bind_iff {o : Except Fault β} : (m >>= f).Leaves E s world o t world' ↔
    (∃ a s₁ world₁, m.Leaves E s world (.ok a) s₁ world₁ ∧
      (f a).Leaves E s₁ world₁ o t world') ∨
    ∃ e, m.Leaves E s world (.error e) t world' ∧ o = .error e :=
  Runner.leaves_bind_iff (w := .ready m)

theorem leaves_fail_bind_iff {c : Cause} {o : Except Fault β} :
    (fail c >>= f).Leaves E s world o t world' ↔
      o = .error { cause := c } ∧ t = s ∧ world' = world :=
  Comes.leaves_iff (Comes.bind_error .raise)

theorem leaves_pure_bind_iff {a : α} {o : Except Fault β} :
    (pure a >>= f).Leaves E s world o t world' ↔ (f a).Leaves E s world o t world' := by
  rw [pure_bind]

/-- What goes on after a script that certainly answers. -/
theorem Comes.leaves_bind_iff {a : α} {o : Except Fault β} (comes : m.Comes E s (.ok a) t') :
    (m >>= f).Leaves E s world o t world' ↔ (f a).Leaves E t' world o t world' := by
  rw [Script.leaves_bind_iff]
  simp [comes.leaves_iff]

/-- What goes on after a script that has answered. -/
theorem Leaves.bind_iff {a : α} {o : Except Fault β} (leaves : m.Leaves E s world (.ok a) t' world'') :
    (m >>= f).Leaves E s world o t world' ↔ (f a).Leaves E t' world'' o t world' := by
  constructor
  · intro all
    rcases Script.leaves_bind_iff.1 all with ⟨b, s₁, world₁, first, rest⟩ | ⟨e, first, _⟩
    · obtain ⟨same, rfl, rfl⟩ := leaves.unique first
      cases same
      exact rest
    · cases (leaves.unique first).1
  · exact leaves.bind

/-- The world answers at once. -/
theorem leaves_ask_iff {q : Request} {next : q.Answer → Script α} :
    (Script.ask q next).Leaves E s world o t world' ↔
      (next (World.answer q world).1).Leaves E s (World.answer q world).2 o t world' := by
  constructor
  · rintro ⟨_ | fuel, run⟩
    · cases o <;> cases run
    · exact ⟨fuel, run⟩
  · have asks : (Runner.ready (.ask q next)).step E s = .ask q (fun x => .ready (next x)) s := rfl
    exact Runner.Leaves.of_ask asks

end Script

/-! ### Faults answered -/

namespace Runner
variable {α : Type}

/-- The runner, with its fault for an answer. -/
def attempt : Runner α → Runner (Except Fault α)
  | .ready m => .ready m.attempt
  | .forcing how r next c frames => .forcing how r (fun v => (next v).attempt) c frames

variable {E : Engine} {w w' : Runner α} {s s' : Store} {world world' : World} {o : Except Fault α}

theorem Advance.attempt (step : w.Advance E s w' s') : w.attempt.Advance E s w'.attempt s' := by
  cases step with
  | demand => exact .demand
  | act => exact .act
  | engine step => exact .engine step
  | resume reply => exact .resume reply
  | perform reply => exact .perform reply

theorem step_attempt_of_ask {q : Request} {next : q.Answer → Runner α}
    (step : w.step E s = .ask q next s') :
    w.attempt.step E s = .ask q (fun x => (next x).attempt) s' := by
  obtain ⟨rfl, ⟨rest, rfl, rfl⟩ | ⟨how, r, rest, cell, site, script, frames, rfl, rfl⟩⟩ :=
    of_ask step
  · rfl
  · rfl

/-- A script whose fault is answered ends where it ends, with an answer. -/
theorem Leaves.attempt (leaves : w.Leaves E s world o s' world') :
    w.attempt.Leaves E s world (.ok o) s' world' := by
  refine Leaves.induct (motive := fun w s world => w.attempt.Leaves E s world (.ok o) s' world')
    ?_ ?_ ?_ leaves
  · cases o <;> exact leaves_of_ended (.ok _) _ _
  · exact fun step _ ih => ih.of_advance step.attempt
  · exact fun step ih => ih.of_ask (step_attempt_of_ask step)

theorem step_attempt_of_halt {halt : Halt} (step : w.step E s = .ended (.halt halt) s') :
    w.attempt.step E s = .ended (.halt halt) s' := by
  cases w with
  | ready m => cases m <;> cases step <;> rfl
  | forcing how r next c frames =>
    simp only [Runner.step] at step
    split at step
    · cases step
    · cases step
    · next halted =>
      cases step
      simp only [Runner.attempt, Runner.step, halted]
    · split at step <;> cases step

theorem Leaves.of_attempt {x : Except Fault (Except Fault α)}
    (leaves : w.attempt.Leaves E s world x s' world') :
    ∃ o, w.Leaves E s world o s' world' ∧ x = .ok o := by
  obtain ⟨fuel, run⟩ := leaves
  induction fuel generalizing w s world with
  | zero => cases x <;> cases run
  | succ fuel ih =>
    simp only [Runner.run] at run
    cases moved : w.step E s with
    | next w₁ s₁ =>
      have step := advance_of_step moved
      simp only [step_of_advance step.attempt] at run
      obtain ⟨o, first, same⟩ := ih run
      exact ⟨o, first.of_advance step, same⟩
    | ask q rest s₁ =>
      simp only [step_attempt_of_ask moved] at run
      obtain ⟨o, first, same⟩ := ih run
      exact ⟨o, first.of_ask moved, same⟩
    | ended ending s₁ =>
      rcases of_ended moved with ⟨halt, rfl⟩ | ⟨a, rfl, rfl, rfl⟩ | ⟨e, rfl, rfl, rfl⟩
      · simp only [step_attempt_of_halt moved] at run
        cases x <;> cases run
      · cases x <;> cases run
        exact ⟨.ok a, leaves_of_ended (.ok a) _ _, rfl⟩
      · cases x <;> cases run
        exact ⟨.error e, leaves_of_ended (.error e) _ _, rfl⟩

end Runner

theorem Script.leaves_attempt_iff {α : Type} {m : Script α} {E : Engine} {s s' : Store}
    {world world' : World} {x : Except Fault (Except Fault α)} :
    m.attempt.Leaves E s world x s' world' ↔ ∃ o, m.Leaves E s world o s' world' ∧ x = .ok o := by
  constructor
  · exact Runner.Leaves.of_attempt (w := .ready m)
  · rintro ⟨o, leaves, rfl⟩
    exact Runner.Leaves.attempt leaves

/-! ### Bodies of cells

Bodies of cells as scripts of their own. A runner that has a body run for a cell takes the steps of
the body, with one frame more, until the body has come to its end. -/

theorem Engine.Advance.append {E : Engine} {c c' : Control} {frames frames' : List Frame}
    {s s' : Store} (step : E.Advance c frames s c' frames' s') (base : List Frame) :
    E.Advance c (frames ++ base) s c' (frames' ++ base) s' := by
  cases step with
  | found forced => exact .found forced
  | follow redirect => exact .follow redirect
  | start pending => exact .start pending
  | value => exact .value
  | fault => exact .fault
  | splice splices pending => exact .splice splices pending
  | tail keeps => exact .tail keeps
  | demand => exact .demand
  | act => exact .act
  | pass => exact .pass
  | resume reply => exact .resume reply
  | perform reply => exact .perform reply

/-- Whether the engine halts does not depend on who waits. -/
theorem Engine.step_append_of_halted {E : Engine} {c : Control} {frames : List Frame}
    {s s' : Store} {halt : Halt} (halted : E.step c frames s = .halted halt s')
    (base : List Frame) : E.step c (frames ++ base) s = .halted halt s' := by
  cases c with
  | enter r =>
    simp only [step, enter] at halted ⊢
    split at halted <;> simp_all
  | run cell site body =>
    cases body with
    | done outcome =>
      cases outcome with
      | value v => cases halted
      | tail child =>
        simp only [step, run] at halted
        split at halted <;> cases halted
    | panic | stall => exact halted
    | _ => cases halted
  | give v =>
    simp only [step, give] at halted
    split at halted <;> try split at halted
    all_goals cases halted

namespace Runner
variable {α : Type}

/-- The body of a cell, run on behalf of a demand that waits for the cell. -/
def within (cell : Ref) (site : Option Location) (how : Demand) (r : Ref)
    (next : Value → Script α) : Runner Outcome → Runner α
  | .ready body => .forcing how r next (.run cell site body) []
  | .forcing how' q rest c frames =>
    .forcing how r next c (frames ++ [{ cell, site, wait := .reply how' q rest }])

section
variable {E : Engine} {w w' : Runner Outcome} {s s' t : Store} {world world' : World}
variable {cell r : Ref} {site : Option Location} {how : Demand} {next : Value → Script α}
variable {o : Except Fault α}

theorem Advance.within (step : w.Advance E s w' s') :
    (w.within cell site how r next).Advance E s (w'.within cell site how r next) s' := by
  cases step with
  | demand => exact .engine .demand
  | act => exact .engine .act
  | engine step => exact .engine (step.append _)
  | resume reply => exact .engine (.resume reply)
  | perform reply => exact .engine (.perform reply)

theorem step_within_of_ask {q : Request} {rest : q.Answer → Runner Outcome}
    (step : w.step E s = .ask q rest s') :
    (w.within cell site how r next).step E s =
      .ask q (fun x => (rest x).within cell site how r next) s' := by
  obtain ⟨rfl, ⟨rest, rfl, rfl⟩ | ⟨how, r, rest, cell, site, script, frames, rfl, rfl⟩⟩ :=
    of_ask step
  · rfl
  · rfl

theorem step_within_of_halt {halt : Halt} (step : w.step E s = .ended (.halt halt) s') :
    (w.within cell site how r next).step E s = .ended (.halt halt) s' := by
  cases w with
  | ready body => cases body <;> cases step <;> rfl
  | forcing how' q rest c frames =>
    simp only [Runner.step] at step
    split at step
    · cases step
    · cases step
    · next halted =>
      cases step
      simp only [Runner.within, Runner.step, Engine.step_append_of_halted halted]
    · split at step <;> cases step

/-- Where a demand has been answered, the body of the cell has come to an end. -/
theorem Leaves.of_within (leaves : (w.within cell site how r next).Leaves E s world o t world') :
    ∃ x s₁ world₁, w.Leaves E s world x s₁ world₁ ∧
      ((Runner.ready (Script.ended x)).within cell site how r next).Leaves E s₁ world₁ o t world' := by
  obtain ⟨fuel, run⟩ := leaves
  induction fuel generalizing w s world with
  | zero => cases o <;> cases run
  | succ fuel ih =>
    simp only [Runner.run] at run
    cases moved : w.step E s with
    | next w₁ s₁ =>
      have step := advance_of_step moved
      simp only [step_of_advance step.within] at run
      obtain ⟨x, s₂, world₂, first, rest⟩ := ih run
      exact ⟨x, s₂, world₂, first.of_advance step, rest⟩
    | ask q rest s₁ =>
      simp only [step_within_of_ask moved] at run
      obtain ⟨x, s₂, world₂, first, rest⟩ := ih run
      exact ⟨x, s₂, world₂, first.of_ask moved, rest⟩
    | ended ending s₁ =>
      have all : (w.within cell site how r next).Leaves E s world o t world' :=
        ⟨fuel + 1, by simpa only [Runner.run] using run⟩
      rcases of_ended moved with ⟨halt, rfl⟩ | ⟨a, rfl, rfl, rfl⟩ | ⟨e, rfl, rfl, rfl⟩
      · simp only [step_within_of_halt moved] at run
        cases o <;> cases run
      · exact ⟨.ok a, s₁, world, leaves_of_ended (.ok a) _ _, all⟩
      · exact ⟨.error e, s₁, world, leaves_of_ended (.error e) _ _, all⟩

theorem Leaves.within {x : Except Fault Outcome} {s₁ : Store} {world₁ : World}
    (first : w.Leaves E s world x s₁ world₁)
    (rest : ((Runner.ready (Script.ended x)).within cell site how r next).Leaves E s₁ world₁ o t
      world') : (w.within cell site how r next).Leaves E s world o t world' := by
  refine Leaves.induct (motive := fun w s world =>
    (w.within cell site how r next).Leaves E s world o t world') rest ?_ ?_ first
  · exact fun step _ ih => ih.of_advance step.within
  · exact fun step ih => ih.of_ask (step_within_of_ask step)

/-- Once the body of the cell has come to its end, only the rest counts. -/
theorem Leaves.within_iff {x : Except Fault Outcome} {s₁ : Store} {world₁ : World}
    (first : w.Leaves E s world x s₁ world₁) :
    (w.within cell site how r next).Leaves E s world o t world' ↔
      ((Runner.ready (Script.ended x)).within cell site how r next).Leaves E s₁ world₁ o t world' := by
  constructor
  · intro all
    obtain ⟨x', s₁', world₁', body, rest⟩ := all.of_within
    obtain ⟨rfl, rfl, rfl⟩ := first.unique body
    exact rest
  · exact first.within

/-- What is left of a run after a step. -/
theorem Leaves.after {w w' : Runner α} (leaves : w.Leaves E s world o t world')
    (step : w.Advance E s w' s') : w'.Leaves E s' world o t world' := by
  obtain ⟨_ | fuel, run⟩ := leaves
  · cases o <;> cases run
  · exact ⟨fuel, by simpa only [Runner.run, step_of_advance step] using run⟩

theorem Advance.leaves_iff {w w' : Runner α} (step : w.Advance E s w' s') :
    w.Leaves E s world o t world' ↔ w'.Leaves E s' world o t world' :=
  ⟨fun leaves => leaves.after step, Leaves.of_advance step⟩

theorem leaves_iff_of_moves {x y : Control × List Frame × Store}
    (moves : Relation.ReflTransGen E.Moves x y) :
    (Runner.forcing how r next x.1 x.2.1).Leaves E x.2.2 world o t world' ↔
      (Runner.forcing how r next y.1 y.2.1).Leaves E y.2.2 world o t world' := by
  induction moves using Relation.ReflTransGen.head_induction_on with
  | refl => exact .rfl
  | head move _ ih => exact (Advance.engine move).leaves_iff.trans ih

/-- To demand a cell with work is to run its body, and then to go on with what it has come to. -/
theorem leaves_demand_iff_of_pending {work : Work} {x : Except Fault Outcome} {s₁ : Store}
    {world₁ : World} (pending : s.heap.state? r = some (.pending work))
    (body : (work.task.script E.bound).Leaves E { s with heap := s.heap.setState r .forcing } world x
      s₁ world₁) :
    (Script.demand how r next).Leaves E s world o t world' ↔
      ((Runner.ready (Script.ended x)).within r work.site how r next).Leaves E s₁ world₁ o t
        world' := by
  have enters : (Runner.ready (Script.demand how r next)).Advance E s
      (.forcing how r next (.enter r) []) s := .demand
  have starts : (Runner.forcing how r next (.enter r) []).Advance E s
      (.forcing how r next (.run r work.site (work.task.script E.bound)) [])
      { s with heap := s.heap.setState r .forcing } := .engine (.start pending)
  exact enters.leaves_iff.trans (starts.leaves_iff.trans
    (Leaves.within_iff (w := .ready (work.task.script E.bound)) body))

/-- A cell with work is forced by running its body. -/
theorem Leaves.of_pending {work : Work} {q : Ref}
    (leaves : (Runner.forcing how r next (.enter q) []).Leaves E s world o t world')
    (pending : s.heap.state? q = some (.pending work)) :
    ∃ x s₁ world₁, (work.task.script E.bound).Leaves E { s with heap := s.heap.setState q .forcing }
        world x s₁ world₁ ∧
      ((Runner.ready (Script.ended x)).within q work.site how r next).Leaves E s₁ world₁ o t
        world' :=
  Leaves.of_within (w := .ready (work.task.script E.bound)) (leaves.after (.engine (.start pending)))

/-- The fault of the body answers the demand. -/
theorem Leaves.of_within_raise {e : Fault}
    (leaves : ((Runner.ready (.raise e)).within cell site how r next).Leaves E s world o t world') :
    (next (.error (e.through? site))).Leaves E
      { s with heap := s.heap.publish cell (.error (e.through? site)) } world o t world' :=
  (leaves.after (.engine .fault)).after (.resume (by cases how <;> rfl))

theorem leaves_within_raise_iff {e : Fault} :
    ((Runner.ready (.raise e)).within cell site how r next).Leaves E s world o t world' ↔
      (next (.error (e.through? site))).Leaves E
        { s with heap := s.heap.publish cell (.error (e.through? site)) } world o t world' := by
  constructor
  · exact Leaves.of_within_raise
  · intro rest
    exact .of_advance (.engine .fault) (.of_advance (.resume (by cases how <;> rfl)) rest)

/-- The value of the body answers the demand. -/
theorem Leaves.of_within_value {v u : Value} (reply : ∀ site, how.reply site v = .resume u)
    (sound : ∀ e, v ≠ .error e)
    (leaves : ((Runner.ready (.done (.value v))).within cell site how r next).Leaves E s world o t
      world') :
    (next u).Leaves E { s with heap := s.heap.publish cell v } world o t world' := by
  have same : v.through? site = v := by
    cases v with
    | error e => exact absurd rfl (sound e)
    | _ => rfl
  have given := leaves.after (.engine .value)
  rw [same] at given
  exact given.after (.resume (reply _))

/-- Whoever asks for the result of an effect goes on with its action. -/
theorem Leaves.of_within_effect {action : Ref}
    (leaves : ((Runner.ready (.done (.value (.effect action)))).within cell site .effect r
      next).Leaves E s world o t world') :
    (Runner.forcing .pure action next (.enter action) []).Leaves E
      { s with heap := s.heap.publish cell (.effect action) } world o t world' :=
  (leaves.after (.engine .value)).after (.perform rfl)

/-! ### Tails -/

/-- Where frames wait below those of a run that has ended, there was a value for them, the one of the
    first call. -/
theorem Leaves.of_frames {c : Control} {frames base : List Frame} {calls : List Ref} {q : Ref}
    (leaves : (Runner.forcing how r next c (frames ++ base)).Leaves E s world o t world')
    (serves : s.heap.Serves c frames calls) (call : calls.getLast? = some q)
    (apart : (Runner.forcing how r next c (frames ++ base)).owned.Nodup)
    (forcing : s.heap.Forcing (Runner.forcing how r next c (frames ++ base)).owned) :
    ∃ v s₁ world₁, s.heap.Before s₁.heap ∧ s₁.heap.Yields q v ∧
      s₁.heap.Forcing (base.map Frame.cell) ∧
      (Runner.forcing how r next (.give v) base).Leaves E s₁ world₁ o t world' := by
  obtain ⟨fuel, run⟩ := leaves
  induction fuel generalizing c frames calls s world with
  | zero => cases o <;> cases run
  | succ fuel ih =>
    have given : ∀ {v : Value}, c = .give v → frames = [] →
        ∃ v s₁ world₁, s.heap.Before s₁.heap ∧ s₁.heap.Yields q v ∧
          s₁.heap.Forcing (base.map Frame.cell) ∧
          (Runner.forcing how r next (.give v) base).Leaves E s₁ world₁ o t world' := by
      rintro v rfl rfl
      exact ⟨v, s, world, Heap.before_refl _, serves.yields call, forcing, fuel + 1, run⟩
    cases moved : (Runner.forcing how r next c frames).step E s with
    | next w s₁ =>
      cases advance_of_step moved with
      | @engine _ _ _ _ c' _ frames' _ _ step =>
        have below := step.append base
        have whole : (Runner.forcing how r next c (frames ++ base)).Advance E s
            (.forcing how r next c' (frames' ++ base)) s₁ := .engine below
        simp only [Runner.run, step_of_advance whole] at run
        have mine : s.heap.Forcing (c.cells ++ frames.map Frame.cell) := by
          intro cell mem
          refine forcing cell ?_
          simp only [owned, List.map_append, List.mem_append] at mem ⊢
          exact mem.elim .inl fun mem => .inr (.inl mem)
        obtain ⟨apart₁, forcing₁⟩ := whole.keeps forcing apart
        obtain ⟨v, s₂, world₂, later, found⟩ := ih (step.serves mine serves)
          ((step.lastCall serves).trans call) apart₁ forcing₁ run
        exact ⟨v, s₂, world₂, (whole.before forcing).trans later, found⟩
      | resume => exact given rfl rfl
      | perform => exact given rfl rfl
    | ask x rest s₁ =>
      obtain ⟨rfl, ⟨_, no, _⟩ | ⟨_, _, _, cell, site, script, _, same, rfl⟩⟩ :=
        Runner.of_ask moved
      · cases no
      · cases same
        have asks : (Runner.forcing how r next (.run cell site (.ask x script))
            (frames ++ base)).step E s₁ = .ask x (fun a => .forcing how r next
              (.run cell site (script a)) (frames ++ base)) s₁ := rfl
        simp only [Runner.run, asks] at run
        cases serves with
        | intro answers waiting =>
          exact ih (c := .run cell site (script _)) (.intro answers waiting) call apart forcing run
    | ended ending s₁ =>
      rcases of_ended moved with ⟨halt, rfl⟩ | ⟨_, no, _⟩ | ⟨_, no, _⟩
      · have halted : (Runner.forcing how r next c (frames ++ base)).step E s =
            .ended (.halt halt) s₁ := by
          simp only [Runner.step] at moved ⊢
          split at moved
          · cases moved
          · cases moved
          · next halted =>
            cases moved
            rw [Engine.step_append_of_halted halted]
          · split at moved <;> cases moved
        simp only [Runner.run, halted] at run
        cases o <;> cases run
      · cases no
      · cases no

/-- A cell that has gone on with a tail has the value of its tail. A fault may have passed its site. -/
theorem yields_of_leaves_tail {child : Ref} {x : Except Fault Value}
    (leaves : (Runner.forcing .pure r .done (.run r site (.done (.tail child))) []).Leaves E s world
      x t world') (busy : s.heap.state? r = some .forcing) :
    ∃ u u', t.heap.Yields child u ∧ t.heap.Yields r u' ∧ (u' = u ∨ u' = u.through? site) := by
  have answered : ∀ {v : Value} {s₁ : Store} {world₁ : World},
      (Runner.forcing .pure r .done (.give v) []).Leaves E s₁ world₁ x t world' → t = s₁ := by
    intro v s₁ world₁ given
    obtain ⟨u, reply⟩ := Demand.pure_reply (s₁.heap.site? r) v
    exact (of_leaves_ended (o := .ok u) (given.after (.resume reply))).2.1
  have own : ∀ cell ∈ [r], s.heap.state? cell = some .forcing := by simpa using busy
  by_cases splices : E.splices = true ∧ ∃ w, s.heap.state? child = some (.pending w)
  · obtain ⟨splices, w, pending⟩ := splices
    have step : (Runner.forcing .pure r .done (.run r site (.done (.tail child))) []).Advance E s
        (.forcing .pure r .done (.run r w.site (w.task.script E.bound)) [])
        { s with heap := s.heap.setState child (.redirect r) } := .engine (.splice splices pending)
    obtain ⟨apart, forcing⟩ := step.keeps own (by simp [owned, Control.cells])
    have rest : (Runner.forcing .pure r .done (.run r w.site (w.task.script E.bound))
        ([] ++ [])).Leaves E { s with heap := s.heap.setState child (.redirect r) } world x t
        world' := leaves.after step
    obtain ⟨v, s₁, _, later, yields, _, given⟩ :=
      rest.of_frames (.intro .refl .nil) rfl apart forcing
    obtain rfl := answered given
    have linked : t.heap.Leads child r :=
      .single (later.redirects (Heap.state?_setState_self pending _))
    obtain ⟨d, path, forced⟩ := yields
    exact ⟨v, v, ⟨d, linked.trans path, forced⟩, ⟨d, path, forced⟩, .inl rfl⟩
  · have keeps : E.splices = true → ∀ w, s.heap.state? child ≠ some (.pending w) :=
      fun splices' w pending => splices ⟨splices', w, pending⟩
    have step : (Runner.forcing .pure r .done (.run r site (.done (.tail child))) []).Advance E s
        (.forcing .pure r .done (.enter child) [{ cell := r, site, wait := .tail }]) s :=
      .engine (.tail keeps)
    obtain ⟨apart, forcing⟩ := step.keeps own (by simp [owned, Control.cells])
    have rest : (Runner.forcing .pure r .done (.enter child)
        ([] ++ [{ cell := r, site, wait := .tail }])).Leaves E s world x t world' :=
      leaves.after step
    obtain ⟨v, s₁, _, _, yields, waits, given⟩ :=
      rest.of_frames (s.heap.serves_first child) rfl apart forcing
    have forced := waits r (by simp)
    obtain rfl := answered (given.after (.engine .pass))
    have published := Heap.before_publish forced (v.through? site)
    exact ⟨v, v.through? site, published.yields yields,
      ⟨r, .refl, Heap.state?_setState_self forced _⟩, .inr rfl⟩

end
end Runner
end CallByNeed
