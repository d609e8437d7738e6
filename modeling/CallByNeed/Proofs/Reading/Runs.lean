import CallByNeed.Proofs.Binding.Evaluation
import CallByNeed.Proofs.Known.Steps
import CallByNeed.Proofs.Reading.Scripts
import CallByNeed.Proofs.Sharing.Ownership

/- Runs of scripts that only demand. Whatever else has happened meanwhile, such a script ends with
   what it reads in the heap at its end; and where it reads an end already, its run comes to that end
   and changes nothing. -/
namespace CallByNeed
open Relation (ReflTransGen)

theorem Heap.Before.serves {h h' : Heap} (before : h.Before h') {c : Control}
    {frames : List Frame} {calls : List Ref} (serves : h.Serves c frames calls) :
    h'.Serves c frames calls := by
  cases serves with
  | intro answers waiting =>
    refine .intro ?_ (waiting.imp fun _ _ path => before.leads path)
    cases c with
    | enter r => exact before.leads answers
    | run r site script => exact before.leads answers
    | give v => exact before.yields answers

theorem Heap.serves_first (h : Heap) (r : Ref) : h.Serves (.enter r) [] [r] := by
  apply Heap.Serves.intro
  · exact ReflTransGen.refl
  · exact .nil

/-- The first call of an engine stays open until the engine gives it a value. -/
theorem Engine.Advance.lastCall {E : Engine} {c c' : Control} {frames frames' : List Frame}
    {s s' : Store} {calls : List Ref} (step : E.Advance c frames s c' frames' s')
    (serves : s.heap.Serves c frames calls) :
    (c.callsAfter calls (some c')).getLast? = calls.getLast? := by
  obtain ⟨_, waiting⟩ := serves
  cases step with
  | tail | demand => exact List.getLast?_cons_cons
  | pass | resume | perform =>
    cases waiting
    simp [Control.callsAfter]
  | _ => rfl

/-- A value that is given to no frame is the value of the first call. -/
theorem Heap.Serves.yields {h : Heap} {v : Value} {calls : List Ref} {r : Ref}
    (serves : h.Serves (.give v) [] calls) (call : calls.getLast? = some r) : h.Yields r v := by
  cases serves with
  | intro answers waiting =>
    cases waiting
    cases call
    exact answers

namespace Runner
variable {α : Type}

/-- Once the runner has read the rest, the whole script reads the same. The first call of its engine
    is for the demanded cell. -/
inductive Tells (h : Heap) (whole : Script α) : Runner α → Prop where
  | ready {rest : Script α} (reader : rest.IsReader)
      (tells : ∀ h' o, h.Before h' → rest.Reads h' o → whole.Reads h' o) :
      Tells h whole (.ready rest)
  | forcing {how : Demand} {r : Ref} {next : Value → Script α} {c : Control} {frames : List Frame}
      {calls : List Ref} (reader : ∀ v, (next v).IsReader) (serves : h.Serves c frames calls)
      (call : calls.getLast? = some r)
      (tells : ∀ h' v o, h.Before h' → h'.Replies how r v → (next v).Reads h' o →
        whole.Reads h' o) :
      Tells h whole (.forcing how r next c frames)

section
variable {E : Engine} {w w' : Runner α} {s s' : Store}

/-- One step of a runner serves the cells that it is forcing. -/
theorem Advance.served (step : w.Advance E s w' s') (forcing : s.heap.Forcing w.owned)
    (apart : w.owned.Nodup) :
    ∃ handed, s.heap.Served s'.heap w.owned w'.owned handed := by
  cases step with
  | demand => exact ⟨[], Heap.served_same forcing⟩
  | act => exact ⟨[], Store.served_act forcing _⟩
  | engine step => exact ⟨_, step.served forcing apart⟩
  | resume => exact ⟨[], Heap.served_same forcing⟩
  | perform => exact ⟨[], Heap.served_same forcing⟩

theorem Advance.before (step : w.Advance E s w' s') (forcing : s.heap.Forcing w.owned) :
    s.heap.Before s'.heap := by
  cases step with
  | act => exact Store.before_act _ _
  | engine step => exact step.before forcing
  | demand | resume | perform => exact s.heap.before_refl

/-- What a runner forces after a step is its own. -/
theorem Advance.keeps (step : w.Advance E s w' s') (forcing : s.heap.Forcing w.owned)
    (apart : w.owned.Nodup) : w'.owned.Nodup ∧ s'.heap.Forcing w'.owned := by
  obtain ⟨handed, served⟩ := step.served forcing apart
  have own : ([] ++ (w.owned ++ [])).Nodup := by simpa using apart
  have takes : s.heap.Forcing ([] ++ (w.owned ++ [])) := by simpa using forcing
  exact ⟨by simpa using served.apart own takes, served.forcing⟩

/-- A runner that asks goes on forcing what it forces. -/
theorem owned_of_ask {q : Request} {next : q.Answer → Runner α} (e : w.step E s = .ask q next s')
    (a : q.Answer) : (next a).owned = w.owned := by
  obtain ⟨_, ⟨rest, rfl, rfl⟩ | ⟨how, r, rest, cell, site, script, frames, rfl, rfl⟩⟩ := of_ask e
  · rfl
  · rfl

end

section
variable {E : Engine} {h h' : Heap} {whole : Script α} {w w' : Runner α} {s s' : Store}

theorem tells_start (reader : whole.IsReader) (h : Heap) : Tells h whole (.ready whole) :=
  .ready reader fun _ _ _ reads => reads

theorem Tells.before (before : h.Before h') (tells : w.Tells h whole) : w.Tells h' whole := by
  cases tells with
  | ready reader tells => exact .ready reader fun h'' o later => tells h'' o (before.trans later)
  | forcing reader serves call tells =>
    exact .forcing reader (before.serves serves) call fun h'' v o later =>
      tells h'' v o (before.trans later)

/-- One step of a runner that only demands. -/
theorem Tells.step (tells : w.Tells s.heap whole) (step : w.Advance E s w' s')
    (forcing : s.heap.Forcing w.owned) : w'.Tells s'.heap whole := by
  cases step with
  | demand =>
    cases tells with
    | ready reader tells =>
      cases reader with
      | demand _ _ rest =>
        apply Tells.forcing rest (Heap.serves_first _ _) rfl
        intro h' v o later replies reads
        exact tells h' o later (.demand replies reads)
  | act =>
    cases tells with
    | ready reader _ => cases reader
  | engine step =>
    cases tells with
    | forcing reader serves call tells =>
      have later := step.before forcing
      apply Tells.forcing reader (step.serves forcing serves) ((step.lastCall serves).trans call)
      exact fun h' v o after => tells h' v o (later.trans after)
  | resume reply =>
    cases tells with
    | forcing reader serves call tells =>
      have yields := serves.yields call
      apply Tells.ready (reader _)
      intro h' o later reads
      rw [← later.site_of_yields yields] at reply
      exact tells h' _ o later (.resume (later.yields yields) reply) reads
  | perform reply =>
    cases tells with
    | forcing reader serves call tells =>
      have yields := serves.yields call
      apply Tells.forcing reader (Heap.serves_first _ _) rfl
      intro h' v o later replies reads
      rw [← later.site_of_yields yields] at reply
      exact tells h' v o later (.perform (later.yields yields) reply replies) reads

theorem Tells.ask {q : Request} {next : q.Answer → Runner α} (tells : w.Tells s.heap whole)
    (step : w.step E s = .ask q next s') (a : q.Answer) : (next a).Tells s'.heap whole := by
  obtain ⟨rfl, ⟨rest, rfl, rfl⟩ | ⟨how, r, rest, cell, site, script, frames, rfl, rfl⟩⟩ :=
    of_ask step
  · cases tells with
    | ready reader _ => cases reader
  · cases tells with
    | forcing reader serves call tells =>
      cases serves with
      | intro answers waiting => exact .forcing reader (.intro answers waiting) call tells

theorem Tells.ended {o : Except Fault α} (tells : (Runner.ready (Script.ended o)).Tells h whole) :
    whole.Reads h o := by
  cases tells with
  | ready _ tells => exact tells h o h.before_refl (Script.reads_ended o)

theorem Tells.done {a : α} (tells : (Runner.ready (.done a)).Tells h whole) :
    whole.Reads h (.ok a) :=
  tells.ended (o := .ok a)

theorem Tells.raise {e : Fault} (tells : (Runner.ready (.raise e)).Tells h whole) :
    whole.Reads h (.error e) :=
  tells.ended (o := .error e)

end

/-- Given enough fuel, the runner ends like this in this store and world. -/
def Leaves (E : Engine) (w : Runner α) (s : Store) (world : World) (o : Except Fault α)
    (s' : Store) (world' : World) : Prop :=
  ∃ fuel, (w.run E fuel s : StateM World _) world = ((Script.ending o, s'), world')

section
variable {E : Engine} {whole : Script α} {w w' : Runner α} {s s₁ s' : Store}
variable {world world' : World} {o : Except Fault α}

theorem leaves_of_ended (o : Except Fault α) (s : Store) (world : World) :
    (Runner.ready (Script.ended o)).Leaves E s world o s world := by
  cases o <;> exact ⟨1, rfl⟩

theorem Leaves.of_advance (step : w.Advance E s w' s₁) (rest : w'.Leaves E s₁ world o s' world') :
    w.Leaves E s world o s' world' := by
  obtain ⟨fuel, run⟩ := rest
  refine ⟨fuel + 1, ?_⟩
  simpa only [Runner.run, step_of_advance step] using run

theorem Leaves.of_ask {q : Request} {next : q.Answer → Runner α} (step : w.step E s = .ask q next s₁)
    (rest : (next (World.answer q world).1).Leaves E s₁ (World.answer q world).2 o s' world') :
    w.Leaves E s world o s' world' := by
  obtain ⟨fuel, run⟩ := rest
  refine ⟨fuel + 1, ?_⟩
  simp only [Runner.run, step]
  exact run

/-- A run that comes to an end is a number of steps and questions before it. -/
theorem Leaves.induct {motive : Runner α → Store → World → Prop}
    (ended : motive (.ready (Script.ended o)) s' world')
    (advance : ∀ {w w' : Runner α} {s s₁ : Store} {world : World}, w.Advance E s w' s₁ →
      w'.Leaves E s₁ world o s' world' → motive w' s₁ world → motive w s world)
    (ask : ∀ {w : Runner α} {s s₁ : Store} {world : World} {q : Request}
      {next : q.Answer → Runner α}, w.step E s = .ask q next s₁ →
      motive (next (World.answer q world).1) s₁ (World.answer q world).2 → motive w s world)
    (leaves : w.Leaves E s world o s' world') : motive w s world := by
  obtain ⟨fuel, run⟩ := leaves
  induction fuel generalizing w s world with
  | zero => cases o <;> cases run
  | succ fuel ih =>
    simp only [Runner.run] at run
    cases moved : w.step E s with
    | next w₁ s₁ =>
      simp only [moved] at run
      exact advance (advance_of_step moved) ⟨fuel, run⟩ (ih run)
    | ask q next s₁ =>
      simp only [moved] at run
      exact ask moved (ih run)
    | ended ending s₁ =>
      simp only [moved] at run
      cases run
      rcases of_ended moved with ⟨halt, no⟩ | ⟨a, rfl, answer, rfl⟩ | ⟨e, rfl, fault, rfl⟩
      · cases o <;> cases no
      · cases o <;> cases answer
        exact ended
      · cases o <;> cases fault
        exact ended

/-- What a script of demands has come to is what it reads at its end. -/
theorem Tells.reads_of_leaves (tells : w.Tells s.heap whole) (apart : w.owned.Nodup)
    (forcing : s.heap.Forcing w.owned) (leaves : Leaves E w s world o s' world') :
    s.heap.Before s'.heap ∧ whole.Reads s'.heap o := by
  refine Leaves.induct (motive := fun w s _ => w.Tells s.heap whole → w.owned.Nodup →
    s.heap.Forcing w.owned → s.heap.Before s'.heap ∧ whole.Reads s'.heap o) ?_ ?_ ?_ leaves tells
    apart forcing
  · exact fun tells _ _ => ⟨Heap.before_refl _, tells.ended⟩
  · intro w w₁ s s₁ _ step _ ih tells apart forcing
    obtain ⟨apart₁, forcing₁⟩ := step.keeps forcing apart
    obtain ⟨later, reads⟩ := ih (tells.step step forcing) apart₁ forcing₁
    exact ⟨(step.before forcing).trans later, reads⟩
  · intro w s s₁ world q next step ih tells apart forcing
    obtain ⟨rfl, _⟩ := of_ask step
    have owned := owned_of_ask step (World.answer q world).1
    exact ih (tells.ask step _) (owned ▸ apart) (owned ▸ forcing)

end

section
variable {E : Engine} {s s' : Store} {world world' : World}
variable {o : Except Fault α} {how : Demand} {r : Ref} {next : Value → Script α}

theorem Leaves.of_moves {x y : Control × List Frame × Store} (moves : ReflTransGen E.Moves x y)
    (rest : (Runner.forcing how r next y.1 y.2.1).Leaves E y.2.2 world o s' world') :
    (Runner.forcing how r next x.1 x.2.1).Leaves E x.2.2 world o s' world' := by
  induction moves using ReflTransGen.head_induction_on with
  | refl => exact rest
  | head move _ ih => exact .of_advance (.engine move) ih

/-- To find a cell forced takes no work. -/
theorem returns_of_yields {v : Value} (yields : s.heap.Yields r v) :
    E.Returns (.enter r) s v s := by
  obtain ⟨d, path, forced⟩ := yields
  induction path using ReflTransGen.head_induction_on with
  | refl => exact .found forced
  | head redirect _ ih => exact .follow redirect ih

theorem Leaves.of_replies {v : Value} (replies : s.heap.Replies how r v)
    (rest : (Runner.ready (next v)).Leaves E s world o s' world') :
    (Runner.demand how r next).Leaves E s world o s' world' := by
  induction replies with
  | resume yields reply => exact .of_moves ((returns_of_yields yields).moves []) (.of_advance (.resume reply) rest)
  | perform yields reply _ ih =>
    exact .of_moves ((returns_of_yields yields).moves []) (.of_advance (.perform reply) (ih rest))

end

/-! ### One script after another -/

/-- The runner, with more to do when it has come to an answer. -/
def bind {β : Type} (f : α → Script β) : Runner α → Runner β
  | .ready m => .ready (m >>= f)
  | .forcing how r next c frames => .forcing how r (fun v => next v >>= f) c frames

section
variable {β : Type} {f : α → Script β} {E : Engine} {w w' : Runner α} {s s₁ s' : Store}
variable {world world₁ world' : World} {o : Except Fault β}

theorem Advance.bind (step : w.Advance E s w' s') : (w.bind f).Advance E s (w'.bind f) s' := by
  cases step with
  | demand => exact .demand
  | act => exact .act
  | engine step => exact .engine step
  | resume reply => exact .resume reply
  | perform reply => exact .perform reply

theorem step_bind_of_ask {q : Request} {next : q.Answer → Runner α}
    (step : w.step E s = .ask q next s') :
    (w.bind f).step E s = .ask q (fun x => (next x).bind f) s' := by
  obtain ⟨rfl, ⟨rest, rfl, rfl⟩ | ⟨how, r, rest, cell, site, script, frames, rfl, rfl⟩⟩ :=
    of_ask step
  · rfl
  · rfl

theorem step_bind_of_halt {halt : Halt} (step : w.step E s = .ended (.halt halt) s') :
    (w.bind f).step E s = .ended (.halt halt) s' := by
  cases w with
  | ready m => cases m <;> cases step <;> rfl
  | forcing how r next c frames =>
    simp only [Runner.step, Runner.bind] at step ⊢
    split at step
    · cases step
    · cases step
    · cases step
      rfl
    · split at step <;> cases step

/-- Up to the end of its first part, a script in two parts does what its first part does. -/
theorem Leaves.bind {o : Except Fault α} {o' : Except Fault β}
    (first : w.Leaves E s world o s₁ world₁)
    (rest : ((Runner.ready (Script.ended o)).bind f).Leaves E s₁ world₁ o' s' world') :
    (w.bind f).Leaves E s world o' s' world' := by
  refine Leaves.induct (motive := fun w s world => (w.bind f).Leaves E s world o' s' world')
    rest ?_ ?_ first
  · exact fun step _ ih => ih.of_advance step.bind
  · exact fun step ih => ih.of_ask (step_bind_of_ask step)

/-- A run of a script in two parts is a run of the first part, and one of the second part if the first
    one has come to an answer. -/
theorem leaves_bind_iff : (w.bind f).Leaves E s world o s' world' ↔
    (∃ a s₁ world₁, w.Leaves E s world (.ok a) s₁ world₁ ∧
      (Runner.ready (f a)).Leaves E s₁ world₁ o s' world') ∨
    ∃ e, w.Leaves E s world (.error e) s' world' ∧ o = .error e := by
  constructor
  · rintro ⟨fuel, run⟩
    induction fuel generalizing w s world with
    | zero => cases o <;> cases run
    | succ fuel ih =>
      simp only [Runner.run] at run
      cases moved : w.step E s with
      | next w₁ s₁ =>
        have step := advance_of_step moved
        simp only [step_of_advance step.bind] at run
        rcases ih run with ⟨a, s₂, world₂, first, rest⟩ | ⟨e, first, same⟩
        · exact .inl ⟨a, s₂, world₂, first.of_advance step, rest⟩
        · exact .inr ⟨e, first.of_advance step, same⟩
      | ask q next s₁ =>
        simp only [step_bind_of_ask moved] at run
        rcases ih run with ⟨a, s₂, world₂, first, rest⟩ | ⟨e, first, same⟩
        · exact .inl ⟨a, s₂, world₂, first.of_ask moved, rest⟩
        · exact .inr ⟨e, first.of_ask moved, same⟩
      | ended ending s₁ =>
        rcases of_ended moved with ⟨halt, rfl⟩ | ⟨a, rfl, rfl, rfl⟩ | ⟨e, rfl, rfl, rfl⟩
        · simp only [step_bind_of_halt moved] at run
          cases o <;> cases run
        · exact .inl ⟨a, s₁, world, leaves_of_ended (.ok a) _ _, fuel + 1, run⟩
        · cases o <;> cases run
          exact .inr ⟨e, leaves_of_ended (.error e) _ _, rfl⟩
  · rintro (⟨a, s₁, world₁, first, rest⟩ | ⟨e, first, rfl⟩)
    · exact first.bind rest
    · exact first.bind (leaves_of_ended (.error e) s' world')

end
end Runner

namespace Script
variable {α β : Type} {E : Engine} {m : Script α} {f : α → Script β} {s s₁ s' : Store}
variable {world world₁ world' : World} {o : Except Fault α} {o' : Except Fault β} {a : α}

/-- Given enough fuel, the script runs to this end and leaves this store and world. -/
def Leaves (E : Engine) (m : Script α) (s : Store) (world : World) (o : Except Fault α)
    (s' : Store) (world' : World) : Prop :=
  (Runner.ready m).Leaves E s world o s' world'

/-- What a script of demands has come to is what it reads at its end. -/
theorem IsReader.reads_of_leaves (reader : m.IsReader) (leaves : m.Leaves E s world o s' world') :
    s.heap.Before s'.heap ∧ m.Reads s'.heap o := by
  apply (Runner.tells_start reader s.heap).reads_of_leaves _ _ leaves
  · simp [Runner.owned]
  · simp [Runner.owned, Heap.Forcing]

/-- Where a script reads an end, its run comes to that end and changes nothing. -/
theorem Reads.leaves (reads : m.Reads s.heap o) : m.Leaves E s world o s world := by
  generalize same : s.heap = h at reads
  unfold Leaves
  induction reads with
  | done => exact ⟨1, rfl⟩
  | raise => exact ⟨1, rfl⟩
  | demand replies _ ih =>
    subst same
    exact .of_advance .demand (.of_replies replies ih)

theorem Comes.leaves (comes : m.Comes E s o s') : m.Leaves E s world o s' world := by
  obtain ⟨fuel, run⟩ := comes.run (h := StateM World)
  exact ⟨fuel, congrFun run world⟩

theorem Leaves.bind (first : m.Leaves E s world (.ok a) s₁ world₁)
    (rest : (f a).Leaves E s₁ world₁ o' s' world') : (m >>= f).Leaves E s world o' s' world' :=
  Runner.Leaves.bind first rest

theorem leaves_pure : (pure a : Script α).Leaves E s world (.ok a) s world := ⟨1, rfl⟩

theorem not_leaves_stall : ¬ (stall : Script α).Leaves E s world o s' world' := by
  rintro ⟨_ | fuel, run⟩ <;> cases o <;> cases run

theorem of_leaves_pure {b : α} (leaves : (pure a : Script α).Leaves E s world (.ok b) s' world') :
    b = a ∧ s' = s ∧ world' = world := by
  obtain ⟨_ | fuel, run⟩ := leaves <;> cases run
  exact ⟨rfl, rfl, rfl⟩

theorem not_leaves_raise {e : Fault} :
    ¬ (raise e : Script α).Leaves E s world (.ok a) s' world' := by
  rintro ⟨_ | fuel, run⟩ <;> cases run

/-- A script in two parts has come to an answer if its parts have, one after the other. -/
theorem of_leaves_bind {b : β} (leaves : (m >>= f).Leaves E s world (.ok b) s' world') :
    ∃ a s₁ world₁, m.Leaves E s world (.ok a) s₁ world₁ ∧
      (f a).Leaves E s₁ world₁ (.ok b) s' world' := by
  obtain found | ⟨_, _, no⟩ := Runner.leaves_bind_iff (w := .ready m).1 leaves
  · exact found
  · cases no

end Script
end CallByNeed
