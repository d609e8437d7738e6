import CallByNeed.Proofs.Failure
import CallByNeed.Proofs.Outputs
import CallByNeed.Proofs.Outputs.Single

/- One permit makes a sequence of the outputs. They begin in the order of the list, each after the end
   of the one before it, and what they leave behind is what one thread leaves behind that performs
   them one after another. -/
namespace CallByNeed
open Relation (ReflTransGen)

namespace Output

/-- Outputs begin and end one at a time, in the order of the list. -/
structure Journal.Sequential (outputs : List Output) (x : Journal) : Prop where
  begun : x.begun = (outputs.take x.begun.length).mapIdx fun i o => (.output i, o.cell)
  ended : x.ended.map Prod.fst = (List.range x.ended.length).map fun i => .item (.output i)
  alone : x.ended.length ≤ x.begun.length ∧ x.begun.length ≤ x.ended.length + 1
  /-- No output has begun before the one before it has ended. -/
  after : ∀ (k : Nat) (cell : Ref), (.output (k + 1), cell) ∈ x.begun →
    ∃ o, (.item (.output k), o) ∈ x.ended

/-- One thread that performs all outputs, and the workers. -/
def soloCrew (outputs : List Output) : List Thread :=
  .perform (.ready (performAll (outputs.map Output.cell))) :: List.replicate workers (.work .idle)

section
variable {E : Engine} {outputs : List Output} {ts holder loop pool : List Noted} {x : Journal}
variable {solo solo' : Solo}

theorem sequential_of_single (single : Single outputs holder loop pool x solo) :
    x.Sequential outputs := by
  have alone : x.ended.length ≤ x.begun.length ∧ x.begun.length ≤ x.ended.length + 1 := by
    have who := single.holder
    generalize x.begun.length = k, x.ended.length = l, x.shared.free = free at who ⊢
    cases who <;> omega
  refine ⟨single.begun, single.ended, alone, fun k cell begun => ?_⟩
  have place : k + 1 < x.begun.length := by
    rw [single.begun] at begun
    obtain ⟨i, bound, same⟩ := List.mem_iff_getElem.1 begun
    simp only [List.getElem_mapIdx, Prod.mk.injEq, Item.output.injEq] at same
    simp only [List.length_mapIdx, List.length_take] at bound
    omega
  have ended : Duty.item (.output k) ∈ x.ended.map Prod.fst := by
    rw [single.ended]
    exact List.mem_map.2 ⟨k, List.mem_range.2 (by omega), rfl⟩
  obtain ⟨⟨_, o⟩, member, rfl⟩ := List.mem_map.1 ended
  exact ⟨o, member⟩

/-- The threads of a solo run. -/
def Solo.crew (solo : Solo) : List Thread × Shared × World :=
  (.perform solo.runner :: solo.others, { store := solo.store, free := 0 }, solo.world)

theorem Solo.Step.crew (step : Solo.Step E solo solo') :
    Crew.Step (Thread.turn E) solo.crew solo'.crew := by
  cases step with
  | @tick w w' others s s' world world' tick =>
    have leads : (Thread.turn E (.perform w) ⟨s, 0, none⟩).Leads world [.perform w'] ⟨s', 0, none⟩
        world' := by
      simp only [Thread.turn, Runner.turn]
      cases tick with
      | next world step =>
        rw [step]
        exact .goOn ..
      | ask world step =>
        rw [step]
        exact .ask ..
    exact Crew.step_of_leads leads [] others
  | @other w others others' s s' world world' step =>
    obtain ⟨before, t, after, threads, parts, parts', leads⟩ := Crew.leads_of_step step
    dsimp only at parts parts'
    rw [Solo.crew, Solo.crew, parts, parts']
    exact Crew.step_of_leads leads (.perform w :: before) after

/-- A worker that takes a turn takes up a job. -/
theorem exists_busy_of_step {others others' : List Thread} {x x' : Shared} {world world' : World}
    (idle : ∀ t ∈ others, t = .work .idle)
    (step : Crew.Step (Thread.turn E) (others, x, world) (others', x', world')) :
    ∃ job w, .work (.force job w) ∈ others' := by
  obtain ⟨before, t, after, threads, rfl, parts, leads⟩ := Crew.leads_of_step step
  rw [idle t (by simp)] at leads
  simp only [Thread.turn, Worker.turn] at leads
  dsimp only at parts
  split at leads
  · cases leads
  · next job _ =>
    cases leads
    exact ⟨job, .ready (observe job.target), by rw [parts]; simp⟩

/-- Where all workers stay idle, only the thread that performs all outputs takes steps. -/
theorem Solo.Step.tick_of_idle (step : Solo.Step E solo solo')
    (idle : ∀ t ∈ solo.others, t = .work .idle) (idle' : ∀ t ∈ solo'.others, t = .work .idle) :
    Runner.Tick E (solo.runner, solo.store, solo.world) (solo'.runner, solo'.store, solo'.world) := by
  cases step with
  | tick tick => exact tick
  | other step =>
    obtain ⟨job, w, busy⟩ := exists_busy_of_step idle step
    cases idle' _ busy

/-- A worker that has taken up a job. -/
def Thread.isBusy : Thread → Bool
  | .work .idle => false
  | .work _ => true
  | _ => false

def Idle (threads : List Thread) : Prop := ∀ t ∈ threads, t.isBusy = false

/-- The moments of two runs of the same outputs: by the threads of a run, and by one thread that
    performs all outputs. As long as workers are idle, the one thread is alone. -/
def Follows (E : Engine) (start : Solo) (outputs : List Output) (idle : Prop)
    (a : List Noted × Journal × World) (solo : Solo) : Prop :=
  ∃ holder loop pool, a.1 = holder ++ loop ++ pool ∧ a.2.2 = solo.world ∧
    Single outputs holder loop pool a.2.1 solo ∧
    (a.2.1.shared.failure = none → ReflTransGen (Solo.Step E) start solo ∧
      (idle → ReflTransGen (Runner.Tick E) (start.runner, start.store, start.world)
        (solo.runner, solo.store, solo.world)))

theorem Single.others_of_idle (single : Single outputs holder loop pool x solo)
    (idle : Idle ((holder ++ loop ++ pool).map Noted.thread)) :
    ∀ t ∈ solo.others, t = .work .idle := by
  rw [← single.others]
  intro t member
  obtain ⟨u, mine, rfl⟩ := List.mem_map.1 member
  obtain ⟨w, rfl⟩ := single.workers u mine
  have free := idle _ (List.mem_map.2 ⟨_, List.mem_append_right _ mine, rfl⟩)
  cases w with
  | idle => rfl
  | force | report => cases free

/-- A failure stays. -/
theorem fine_of_step {a b : List Noted × Journal × World}
    (step : Crew.Step (Thread.turn E) (unnoted a) (unnoted b))
    (fine : b.2.1.shared.failure = none) : a.2.1.shared.failure = none := by
  by_contra failed
  have still := (awaited_of_step (Option.isSome_iff_ne_none.2 failed) step).1
  rw [show (unnoted b).2.1.failure = none from fine] at still
  cases still

theorem follows_of_step (plain : ∀ o ∈ outputs, o.expanded = false) {start : Solo} {before : Prop}
    {a b : List Noted × Journal × World} (follows : Follows E start outputs before a solo)
    (step : Crew.Step (Noted.turn E) a b)
    (same : Crew.Step (Thread.turn E) (unnoted a) (unnoted b)) :
    ∃ solo', Follows E start outputs
      (before ∧ Idle (a.1.map Noted.thread) ∧ Idle (b.1.map Noted.thread)) b solo' := by
  obtain ⟨ts, x, world⟩ := a
  obtain ⟨holder, loop, pool, rfl, rfl, single, follows⟩ := follows
  obtain ⟨holder', loop', pool', solo', parts, single', worlds, steps⟩ :=
    single.steps_of_step plain step
  refine ⟨solo', holder', loop', pool', parts, worlds.symm, single', fun fine => ?_⟩
  obtain ⟨runs, alone⟩ := follows (fine_of_step same fine)
  rcases steps fine with rfl | step
  · exact ⟨runs, fun idle => alone idle.1⟩
  · refine ⟨.tail runs step, fun ⟨before, idle, idle'⟩ => .tail (alone before) ?_⟩
    rw [parts] at idle'
    exact step.tick_of_idle (single.others_of_idle idle) (single'.others_of_idle idle')

/-- The thread that performs all outputs of a run. -/
def Solo.start (outputs : List Output) (s : Store) (w : World) : Solo :=
  ⟨.ready (performAll (outputs.map Output.cell)), List.replicate workers (.work .idle), s, w⟩

theorem follows_of_run (plain : ∀ o ∈ outputs, o.expanded = false) {permits n : Nat}
    (one : permits ≤ 1) {s : Store} {w : World} {noted : Nat → List Noted × Journal × World}
    {run : Nat → List Thread × Shared × World}
    (first : noted 0 = (notedCrew outputs, { shared := .start permits s }, w))
    (steps : Crew.IsRun (Noted.turn E) noted n) (same : ∀ i ≤ n, unnoted (noted i) = run i)
    (turns : Crew.IsRun (Thread.turn E) run n) :
    ∀ i ≤ n, ∃ solo, Follows E (.start outputs s w) outputs (∀ j ≤ i, Idle (run j).1) (noted i)
      solo := by
  intro i
  induction i with
  | zero =>
    intro _
    rw [first]
    exact ⟨_, [], _, _, rfl, rfl, single_start outputs one s w, fun _ => ⟨.refl, fun _ => .refl⟩⟩
  | succ i ih =>
    intro bound
    obtain ⟨solo, follows⟩ := ih (by omega)
    have turn := turns i (by omega)
    rw [← same i (by omega), ← same (i + 1) bound] at turn
    obtain ⟨solo', holder, loop, pool, parts, worlds, single, follows⟩ :=
      follows_of_step plain follows (steps i (by omega)) turn
    refine ⟨solo', holder, loop, pool, parts, worlds, single, fun fine => ?_⟩
    obtain ⟨runs, alone⟩ := follows fine
    refine ⟨runs, fun idle => alone ⟨fun j le => idle j (by omega), ?_, ?_⟩⟩
    · have now := idle i (by omega)
      rw [← same i (by omega)] at now
      exact now
    · have later := idle (i + 1) (Nat.le_refl _)
      rw [← same (i + 1) bound] at later
      exact later

theorem Holder.nobody_of_workers {free begun ended : Nat} {runner : Runner Unit}
    (who : Holder outputs holder free begun ended runner)
    (left : ∀ t ∈ holder, t.thread.isWorker) :
    holder = [] ∧ free = 1 ∧ runner = .ready (performFrom outputs begun) := by
  cases who with
  | nobody rest => exact ⟨rfl, rfl, rest⟩
  | performs => cases left _ (List.mem_singleton_self _)
  | leaves => cases left _ (List.mem_singleton_self _)

theorem Loop.over_of_workers {failure : Option Fault} {begun : Nat}
    (main : Loop outputs failure loop begun) (left : ∀ t ∈ loop, t.thread.isWorker) :
    loop = [] ∧ (failure = none → outputs.length ≤ begun) := by
  cases main with
  | looks => cases left _ (List.mem_singleton_self _)
  | waits => cases left _ (List.mem_singleton_self _)
  | ended all => exact ⟨rfl, all⟩

/-- At the end of a run without a failure, the thread that performs all outputs has done so. -/
theorem solo_of_verdict (single : Single outputs holder loop pool x solo)
    (ended : verdict ((holder ++ loop ++ pool).map Noted.thread) x.shared = some (.ok ())) :
    x.shared.failure = none ∧ x.begun.length = outputs.length ∧
      solo.runner = .ready (.done ()) ∧ (holder ++ loop ++ pool).map Noted.thread = solo.others ∧
      x.shared = { store := solo.store, free := 1 } := by
  obtain ⟨left, ⟨_, fine⟩ | ⟨e, no, _⟩⟩ := verdict_eq_some ended
  · have workers (t : Noted) (among : t ∈ holder ++ loop ++ pool) : t.thread.isWorker :=
      left _ (List.mem_map_of_mem among)
    obtain ⟨rfl, free, rest⟩ := single.holder.nobody_of_workers fun t mine => workers t (by simp [mine])
    obtain ⟨rfl, all⟩ := single.loop.over_of_workers fun t mine => workers t (by simp [mine])
    have most : x.begun.length ≤ outputs.length := by
      rw [single.begun]
      simp
    have total : x.begun.length = outputs.length := by
      have least := all fine
      omega
    refine ⟨fine, total, ?_, single.others, ?_⟩
    · rw [rest, total, performFrom, List.drop_length]
      rfl
    · rw [← single.store, ← free, ← fine]
  · cases no

/-- Who has performed all outputs gives the permit back. -/
theorem runs_of_solo {start solo : Solo} (runs : ReflTransGen (Solo.Step E) start solo)
    (done : solo.runner = .ready (.done ())) :
    Crew.Runs (Thread.turn E) start.crew
      (solo.others, { store := solo.store, free := 1 }, solo.world) := by
  have crews : Crew.Runs (Thread.turn E) start.crew solo.crew :=
    runs.lift Solo.crew fun _ _ step => step.crew
  have last : solo.crew =
      (.perform (.ready (.done ())) :: solo.others, { store := solo.store, free := 0 }, solo.world) := by
    rw [Solo.crew, done]
  rw [last] at crews
  have leaves : (Thread.turn E (.perform (.ready (.done ()))) { store := solo.store, free := 0 }).Leads
      solo.world [.leave] { store := solo.store, free := 0 } solo.world := .goOn ..
  have gone : (Thread.turn E .leave { store := solo.store, free := 0 }).Leads solo.world []
      { store := solo.store, free := 1 } solo.world := .goOn ..
  exact (crews.tail (Crew.step_of_leads leaves [] solo.others)).tail
    (Crew.step_of_leads gone [] solo.others)

/-- The runner that has come to the end of its steps gives its answer. -/
theorem exists_run_of_ticks {x : Runner Unit × Store × World} {s : Store} {w : World}
    (ticks : ReflTransGen (Runner.Tick E) x (.ready (.done ()), s, w)) :
    ∃ fuel, (x.1.run E fuel x.2.1 : StateM World _) x.2.2 = ((.answer (), s), w) := by
  induction ticks using ReflTransGen.head_induction_on with
  | refl => exact ⟨1, rfl⟩
  | head tick _ ih =>
    obtain ⟨fuel, ends⟩ := ih
    refine ⟨fuel + 1, ?_⟩
    cases tick with
    | next world step =>
      simp only [Runner.run, step]
      exact ends
    | ask world step =>
      simp only [Runner.run, step]
      exact ends

end

/-- For every list of plain outputs, at most one permit and every order of turns: outputs begin and
    end one at a time, in the order of the list, whether they fail or not. When a run ends without a
    failure, one thread that performs the outputs one after another can come to the very same threads,
    store and world, beside the same workers; and if no worker has taken up a job, it is what performing
    them one after another comes to. -/
theorem one_permit_makes_a_sequence (E : Engine) {permits : Nat} (one : permits ≤ 1)
    {outputs : List Output} (plain : ∀ o ∈ outputs, o.expanded = false) (s : Store) (w : World)
    {run : Nat → List Thread × Shared × World} {n : Nat}
    (first : run 0 = (crew outputs, .start permits s, w))
    (steps : Crew.IsRun (Thread.turn E) run n) :
    ∃ noted : Nat → List Noted × Journal × World,
      noted 0 = (notedCrew outputs, { shared := .start permits s }, w) ∧
      Crew.IsRun (Noted.turn E) noted n ∧
      ∀ i ≤ n, unnoted (noted i) = run i ∧ (noted i).2.1.Sequential outputs ∧
        (verdict (run i).1 (run i).2.1 = some (.ok ()) →
          (noted i).2.1.begun.length = outputs.length ∧
          Crew.Runs (Thread.turn E) (soloCrew outputs, { store := s, free := 0 }, w) (run i) ∧
          ((∀ j ≤ i, Idle (run j).1) → ∃ fuel,
            (Script.run E fuel (performAll (outputs.map Output.cell)) s : StateM World _) w =
              ((.answer (), (run i).2.1.store), (run i).2.2))) := by
  obtain ⟨noted, start, noted_steps, same⟩ := exists_noted first steps
  refine ⟨noted, start, noted_steps, fun i bound => ?_⟩
  obtain ⟨solo, holder, loop, pool, parts, worlds, single, follows⟩ :=
    follows_of_run plain one start noted_steps same steps i bound
  refine ⟨same i bound, sequential_of_single single, fun ended => ?_⟩
  have erased := same i bound
  rw [← erased] at ended ⊢
  have ended' : verdict ((holder ++ loop ++ pool).map Noted.thread) (noted i).2.1.shared =
      some (.ok ()) := by
    rw [← parts]
    exact ended
  obtain ⟨fine, total, done, threads, shared⟩ := solo_of_verdict single ended'
  obtain ⟨runs, alone⟩ := follows fine
  have final : unnoted (noted i) = (solo.others, { store := solo.store, free := 1 }, solo.world) := by
    rw [← threads, ← shared, ← worlds, ← parts]
    rfl
  refine ⟨total, ?_, fun idle => ?_⟩
  · rw [final]
    exact runs_of_solo runs done
  · have ticks := alone idle
    rw [done] at ticks
    rw [final]
    exact exists_run_of_ticks ticks

/-- Two outputs that write the same word, which is chosen when it is needed. -/
def greetings : Program where
  definitions := [.variable "word" (.call (.global "if") [⟨.global "true", false⟩,
    ⟨.literal (.string "hello"), false⟩, ⟨.literal (.string "bye"), false⟩] [] [] none)]
  outputs := List.replicate 2
    { value := .call (.global "write") [⟨.global "word", false⟩] [] [] none }

/-- The main loop waits for the permit while the first output is performed. -/
def greetingsRun (m : Module) (h : Heap) : Nat → List Thread × Shared × World :=
  Crew.followed (Thread.turn { bound := 4 }) (0 :: 0 :: 1 :: List.replicate 89 0)
    (crew m.outputs, .start 0 { heap := h }, {})

set_option maxRecDepth 4000 in
/-- The word is written twice and chosen once. -/
theorem one_permit_makes_a_sequence_of_greetings :
    ∃ m h, greetings.load {} = .ok (m, h) ∧ (∀ o ∈ m.outputs, o.expanded = false) ∧
      Crew.IsRun (Thread.turn { bound := 4 }) (greetingsRun m h) 92 ∧
      verdict (greetingsRun m h 92).1 (greetingsRun m h 92).2.1 = some (.ok ()) ∧
      (∀ j ≤ 92, Idle (greetingsRun m h j).1) ∧
      (greetingsRun m h 92).2.2.stdout = "hello\nhello\n" ∧
      ∃ fuel, (Script.run { bound := 4 } fuel (performAll (m.outputs.map Output.cell))
        { heap := h } : StateM World _) {} =
          ((.answer (), (greetingsRun m h 92).2.1.store), (greetingsRun m h 92).2.2) := by
  have loads : ∃ m h, greetings.load {} = .ok (m, h) := ⟨_, _, rfl⟩
  obtain ⟨m, h, loads⟩ := loads
  have plain : ∀ o ∈ m.outputs, o.expanded = false := by
    cases loads
    decide
  have steps : Crew.IsRun (Thread.turn { bound := 4 }) (greetingsRun m h) 92 := by
    cases loads
    exact Crew.isRun_of_follow _ _ _ rfl
  have ended : verdict (greetingsRun m h 92).1 (greetingsRun m h 92).2.1 = some (.ok ()) := by
    cases loads
    rfl
  have idle : ∀ j ≤ 92, Idle (greetingsRun m h j).1 := by
    cases loads
    unfold Idle
    decide +kernel
  have wrote : (greetingsRun m h 92).2.2.stdout = "hello\nhello\n" := by
    cases loads
    rfl
  obtain ⟨_, _, _, moments⟩ :=
    one_permit_makes_a_sequence { bound := 4 } (Nat.zero_le 1) plain { heap := h } {} rfl steps
  obtain ⟨_, _, ends⟩ := moments 92 (Nat.le_refl 92)
  exact ⟨m, h, loads, plain, steps, ended, idle, wrote, (ends ended).2.2 idle⟩

end Output
end CallByNeed
