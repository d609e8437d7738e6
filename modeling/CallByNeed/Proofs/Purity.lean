import CallByNeed.Proofs.Safety

/- Forcing is pure. Whoever forces may read; only a thread that performs an output writes, and it does
   so in the script of an effect's cell, which was shown to somebody who asked for the result of the
   effect. Nobody is answered with an effect. -/
namespace CallByNeed

/-- Output streams and files are as they were. -/
structure World.Intact (w w' : World) : Prop where
  stdout : w'.stdout = w.stdout
  stderr : w'.stderr = w.stderr
  files : w'.files = w.files

namespace World

theorem intact_refl (w : World) : w.Intact w := ⟨rfl, rfl, rfl⟩

theorem Intact.trans {u v w : World} (first : u.Intact v) (rest : v.Intact w) : u.Intact w :=
  ⟨rest.stdout.trans first.stdout, rest.stderr.trans first.stderr, rest.files.trans first.files⟩

/-- Reading takes from standard input at most. -/
theorem intact_of_reads {q : Request} (reads : q.Reads) (w : World) :
    w.Intact (World.answer q w).2 := by
  cases q with
  | write sink text => exact reads.elim
  | read source =>
    cases source with
    | stdin => exact ⟨rfl, rfl, rfl⟩
    | file path =>
      simp only [answer, read]
      split
      · exact w.intact_refl
      · exact w.intact_refl
      · split <;> exact w.intact_refl

end World

namespace Output

def worldAt (run : Nat → List Thread × Shared × World) (i : Nat) : World := (run i).2.2

/-- The script of a forced cell has ended with this value. -/
def Thread.Answers (t : Thread) (v : Value) : Prop := ∃ job, t = .work (.force job (.ready (.done v)))

section
variable {G : Ken} {E : Engine} {a b : List Thread × Shared × World}

/-- Whoever writes performs an output and is in the script of a cell that was shown. -/
theorem intact_of_step (sealed : Sealed G a.1 a.2.1.store) (step : Crew.Step (Thread.turn E) a b) :
    a.2.2.Intact b.2.2 ∨ ∃ cell ∈ G.shown, ∃ t ∈ a.1, t.Performs cell := by
  cases step with
  | goOn before after w moved => exact .inl w.intact_refl
  | @ask t x x' q threads before after w asks =>
    obtain ⟨hs, all, _⟩ := sealed.safe
    have among : t ∈ before ++ t :: after := by simp
    obtain ⟨mine, thread⟩ := all.of_mem among
    obtain ⟨_, request, _⟩ := sealed_of_ask asks thread
    rcases request with reads | ⟨cell, shown, performs⟩
    · exact .inl (World.intact_of_reads reads w)
    · exact .inr ⟨cell, shown, t, among, performs⟩

/-- Workers stay workers. -/
theorem workers_of_step (workers : ∀ t ∈ a.1, t.isWorker = true)
    (step : Crew.Step (Thread.turn E) a b) : ∀ t ∈ b.1, t.isWorker = true := by
  have among {before more after : List Thread} {t : Thread}
      (all : ∀ u ∈ before ++ t :: after, u.isWorker = true) (new : ∀ u ∈ more, u.isWorker = true) :
      ∀ u ∈ before ++ more ++ after, u.isWorker = true := by
    intro u mem
    simp only [List.mem_append] at mem
    rcases mem with (left | mine) | right
    · exact all u (List.mem_append_left _ left)
    · exact new u mine
    · exact all u (List.mem_append_right _ (List.mem_cons_of_mem _ right))
  have mapped {ws : List Worker} : ∀ u ∈ ws.map Thread.work, u.isWorker = true := by
    intro u mem
    obtain ⟨_, _, rfl⟩ := List.mem_map.1 mem
    rfl
  have turn {t : Thread} (worker : t.isWorker = true) : ∃ w, t = .work w := by
    cases t <;> first | exact ⟨_, rfl⟩ | cases worker
  cases step with
  | @goOn t x x' threads before after w moved =>
    obtain ⟨worker, rfl⟩ := turn (workers t (by simp))
    refine among workers ?_
    simp only [Thread.turn] at moved
    cases turned : worker.turn E x.store <;> rw [turned] at moved <;> cases moved
    exact mapped
  | @ask t x x' q threads before after w moved =>
    obtain ⟨worker, rfl⟩ := turn (workers t (by simp))
    refine among workers ?_
    simp only [Thread.turn] at moved
    cases turned : worker.turn E x.store <;> rw [turned] at moved <;> cases moved
    exact mapped

/-- What a forcer ends with is no effect. -/
theorem Thread.Sealed.answers_no_effect {h : Heap} {mine : List Ref} {t : Thread}
    (thread : t.Sealed G h mine) {v : Value} (answers : t.Answers v) (action : Ref) :
    v ≠ .effect action := by
  obtain ⟨job, rfl⟩ := answers
  cases thread with
  | work worker =>
    cases worker with
    | force runner =>
      cases runner with
      | ready known scripts => exact scripts.of_done.1.2 action

end

section
variable {G : Ken} {E : Engine} {run : Nat → List Thread × Shared × World} {n : Nat}

theorem intact_of_run (sealed : Sealed G (run 0).1 (run 0).2.1.store) (unshown : G.shown = ∅)
    (steps : Crew.IsRun (Thread.turn E) run n) {i : Nat} (less : i < n) :
    (worldAt run i).Intact (worldAt run (i + 1)) ∨
      ∃ cell, ShownBefore run i cell ∧ ∃ t ∈ (run i).1, t.Performs cell := by
  obtain ⟨K, _, kept, shown⟩ := sealed_of_run (n := i) sealed unshown fun j before =>
    steps j (by omega)
  rcases intact_of_step kept (steps i less) with intact | ⟨cell, mem, performs⟩
  · exact .inl intact
  · exact .inr ⟨cell, shown cell mem, performs⟩

/-- Workers alone leave the world as it was. -/
theorem intact_of_workers (sealed : Sealed G (run 0).1 (run 0).2.1.store) (unshown : G.shown = ∅)
    (steps : Crew.IsRun (Thread.turn E) run n) (workers : ∀ t ∈ (run 0).1, t.isWorker = true) :
    (worldAt run 0).Intact (worldAt run n) ∧ ∀ t ∈ (run n).1, t.isWorker = true := by
  induction n with
  | zero => exact ⟨World.intact_refl _, workers⟩
  | succ n ih =>
    obtain ⟨intact, still⟩ := ih fun i less => steps i (by omega)
    refine ⟨intact.trans ?_, workers_of_step still (steps n (by omega))⟩
    rcases intact_of_run sealed unshown steps (by omega : n < n + 1) with now | ⟨_, _, t, mem, performs⟩
    · exact now
    · have worker := still t mem
      cases t <;> first | exact performs.elim | cases worker

end

/-- Threads that force cells of a store leave output streams and files as they were; whoever writes
    performs an output, in the script of an effect that somebody has asked for. The body of an effect
    begins after that only, no other function has the body of an effect, and no effect is the answer
    to a demand or what a forcer ends with. -/
theorem forcing_has_no_visible_effect {G : Ken} {x : Shared} (sealed : x.store.Sealed G)
    (unshown : G.shown = ∅) (E : Engine) {threads : List Thread}
    (begins : ∀ t ∈ threads, t.Begins G) {run : Nat → List Thread × Shared × World} {w : World}
    {n : Nat} (first : run 0 = (threads, x, w)) (steps : Crew.IsRun (Thread.turn E) run n) :
    ((∀ t ∈ threads, t.isWorker = true) → w.Intact (worldAt run n)) ∧
    (∀ i < n, (worldAt run i).Intact (worldAt run (i + 1)) ∨
      ∃ cell, ShownBefore run i cell ∧ ∃ t ∈ (run i).1, t.Performs cell) ∧
    (∀ i < n, ∀ r work, (heapAt run i).state? r = some (.pending work) → work.Performs →
      (heapAt run (i + 1)).state? r = some (.pending work) ∨ ShownBefore run i r) ∧
    (∀ r f b, (heapAt run n).state? r = some (.forced (.function f)) → f.body = .builtin b →
      b.isEffect = true → f.isEffect = true) ∧
    (∀ t ∈ (run n).1, ∀ v action, t.Answers v → v ≠ .effect action) ∧
    (∀ (how : Demand) site v u action, how.reply site v = .resume u → u ≠ .effect action) ∧
    ∃ K, G ≤ K ∧ (run n).2.1.store.Sealed K := by
  have start : Sealed G (run 0).1 (run 0).2.1.store := by
    rw [first]
    exact sealed_of_begins sealed begins
  obtain ⟨K, grows, kept, _⟩ := sealed_of_run start unshown steps
  refine ⟨fun workers => ?_, fun i less => intact_of_run start unshown steps less,
    fun i less r work pending performs => ?_, fun r f b holds body isEffect => ?_,
    fun t mem v action => ?_, fun how site v u action reply => ?_, K, grows, kept.store⟩
  · have intact := (intact_of_workers start unshown steps (by rwa [first])).1
    rwa [worldAt, first] at intact
  · obtain ⟨L, _, kept, shown⟩ := sealed_of_run (n := i) start unshown fun j before =>
      steps j (by omega)
    obtain ⟨_, _, _, _, takes⟩ := sealed_of_step kept (steps i less)
    exact (takes r work pending performs).imp id (shown r)
  · have fits : f.body.Fits f.isEffect f.signature.arity := kept.store.heap.fits r _ holds
    rw [body] at fits
    exact fits.2 isEffect
  · obtain ⟨hs, all, _⟩ := kept.safe
    obtain ⟨mine, thread⟩ := all.of_mem mem
    exact fun answers => thread.answers_no_effect answers action
  · cases how <;> cases v <;> cases reply <;> simp

/-- A variable whose value is an effect. -/
def deferringProgram : Program where
  definitions := [
    .variable "deferred"
      (.call (.global "effectSeq") [⟨.literal (.bool true), false⟩] [] [] none)]

/-- Whoever forces the variable gets a fault, and the effect is left alone; its body begins when
    somebody performs the variable. -/
theorem forcing_has_no_visible_effect_of_deferring :
    ∃ m h, deferringProgram.load {} = .ok (m, h) ∧
      (∃ run, Crew.IsRun (Thread.turn { bound := 1 }) run 10 ∧
        (∃ t ∈ (run 10).1, t.Answers (.error { cause := .impure })) ∧
        World.Intact {} (worldAt run 10)) ∧
      ∃ run r work, Crew.IsRun (Thread.turn { bound := 1 }) run 11 ∧
        (heapAt run 10).state? r = some (.pending work) ∧ work.Performs ∧
        (heapAt run 11).state? r = some .forcing ∧ ShownBefore run 10 r := by
  have loads : ∃ m h, deferringProgram.load {} = .ok (m, h) := ⟨_, _, rfl⟩
  obtain ⟨m, h, loads⟩ := loads
  have sealed := Program.sealed_of_load loads
  have loaded : Program.Loaded .loaded m h :=
    Program.loaded_of_load not_false (fun _ _ => .inl trivial) loads
  have known : (⟨0⟩ : Ref) ∈ h.ken.cells := by
    have explicit := loads
    cases explicit
    exact ⟨_, rfl⟩
  refine ⟨m, h, loads, ?forces, ?performs⟩
  case forces =>
    let start : List Thread × Shared × World :=
      ([.work (.force { target := ⟨0⟩ } (.ready (observe ⟨0⟩)))], .start 1 { heap := h }, {})
    let run := Crew.followed (Thread.turn { bound := 1 }) (List.replicate 10 0) start
    have explicit := loads
    cases explicit
    have steps : Crew.IsRun (Thread.turn { bound := 1 }) run 10 := Crew.isRun_of_follow _ _ start rfl
    have pure := forcing_has_no_visible_effect (x := .start 1 { heap := _ }) sealed rfl _ (by
      intro t mem
      obtain rfl := List.mem_singleton.1 mem
      exact .force known .observe) rfl steps
    refine ⟨run, steps, ⟨_, List.mem_singleton.2 rfl, _, rfl⟩, pure.1 ?_⟩
    intro t mem
    obtain rfl := List.mem_singleton.1 mem
    rfl
  case performs =>
    let start : List Thread × Shared × World :=
      ([.perform (.ready (performCell ⟨0⟩))], .start 1 { heap := h }, {})
    let run := Crew.followed (Thread.turn { bound := 1 }) (List.replicate 11 0) start
    have explicit := loads
    cases explicit
    have steps : Crew.IsRun (Thread.turn { bound := 1 }) run 11 := Crew.isRun_of_follow _ _ start rfl
    have pure := forcing_has_no_visible_effect (x := .start 1 { heap := _ }) sealed rfl _ (by
      intro t mem
      obtain rfl := List.mem_singleton.1 mem
      exact .perform known) rfl steps
    let work : Work := { task := .resume (.action (.builtin .effectSeq) [⟨2⟩, ⟨4⟩]) }
    have performs : work.Performs := ⟨_, _, rfl⟩
    have waits : (heapAt run 10).state? ⟨5⟩ = some (.pending work) := by
      rfl
    have begun : (heapAt run 11).state? ⟨5⟩ = some .forcing := by
      rfl
    refine ⟨run, ⟨5⟩, work, steps, waits, performs, begun, ?_⟩
    rcases pure.2.2.1 10 (by omega) ⟨5⟩ work waits performs with same | shown
    · rw [begun] at same
      cases same
    · exact shown

end Output
end CallByNeed
