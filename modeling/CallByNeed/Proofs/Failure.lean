import CallByNeed.Proofs.Redirects

/- Outputs after a failure. Whoever is about to start an output looks at the failure first and waits
   for a permit afterwards, so a failure that comes in between does not stop it. Nobody else starts
   an output any more: a failure lets no further thread begin to wait. -/
namespace CallByNeed

/-- The turn of a runner's thread goes on with the runner, or its script has come to an end. -/
theorem Runner.of_turn {α τ σ : Type} {E : Engine} {thread : Runner α → τ} {share : Store → σ}
    {finish : Except Fault α → σ → Turn τ σ} {w : Runner α} {s : Store} {threads : List τ} {x : σ}
    (turned : w.turn E thread share finish s = .goOn threads x) :
    (∃ w' s', threads = [thread w'] ∧ x = share s') ∨
      ∃ a s', finish a (share s') = .goOn threads x := by
  unfold turn at turned
  split at turned
  · cases turned
    exact .inl ⟨_, _, rfl, rfl⟩
  · cases turned
  · exact .inr ⟨_, _, turned⟩
  · exact .inr ⟨_, _, turned⟩
  · cases turned

theorem Runner.of_turn_ask {α τ σ : Type} {E : Engine} {thread : Runner α → τ} {share : Store → σ}
    {finish : Except Fault α → σ → Turn τ σ} {w : Runner α} {s : Store} {q : Request}
    {next : q.Answer → List τ} {x : σ}
    (finishes : ∀ a y, ∃ threads z, finish a y = .goOn threads z)
    (turned : w.turn E thread share finish s = .ask q next x) :
    ∃ (w' : q.Answer → Runner α) (s' : Store),
      (∀ a, next a = [thread (w' a)]) ∧ x = share s' := by
  have never {a : Except Fault α} {y : σ} : finish a y ≠ .ask q next x := by
    obtain ⟨_, _, goes_on⟩ := finishes a y
    simp [goes_on]
  unfold turn at turned
  split at turned
  · cases turned
  · cases turned
    exact ⟨_, _, fun _ => rfl, rfl⟩
  · exact absurd turned never
  · exact absurd turned never
  · cases turned

namespace Output

/-- The cells that a thread waits to start as outputs. -/
def Thread.awaited : Thread → List Ref
  | .acquire cell next => cell :: next.awaited
  | _ => []

def awaited (threads : List Thread) : List Ref := threads.flatMap Thread.awaited

/-- A turn that starts a cell as an output. -/
def Begins (a b : List Thread × Shared × World) (cell : Ref) : Prop :=
  ∃ before after next, a.1 = before ++ .acquire cell next :: after ∧
    b.1 = before ++ [.perform (.ready (performCell cell)), next] ++ after

section
variable {E : Engine} {t : Thread} {threads : List Thread} {x x' : Shared}

theorem awaited_append (before after : List Thread) :
    awaited (before ++ after) = awaited before ++ awaited after := by
  simp [awaited]

theorem failure_record {x : Shared} (failed : x.failure.isSome) (e : Fault) :
    (x.record e).failure.isSome := by
  obtain ⟨e', first⟩ := Option.isSome_iff_exists.1 failed
  simp [Shared.record, first]

/-- After a failure a thread starts what it waits to start, and waits for nothing new. -/
theorem awaited_of_turn (failed : x.failure.isSome) (turned : t.turn E x = .goOn threads x') :
    x'.failure.isSome ∧ (awaited threads).Sublist t.awaited := by
  obtain ⟨store, free, failure⟩ := x
  cases t with
  | main outputs =>
    cases outputs with
    | nil =>
      cases turned
      exact ⟨failed, .slnil⟩
    | cons o outputs =>
      simp only [Thread.turn, failed, ↓reduceIte] at turned
      cases turned
      exact ⟨failed, .slnil⟩
  | acquire cell next =>
    cases free with
    | zero => cases turned
    | succ free =>
      cases turned
      refine ⟨failed, ?_⟩
      simp [awaited, Thread.awaited]
  | walk w =>
    simp only [Thread.turn] at turned
    rcases Runner.of_turn turned with ⟨w', s', rfl, rfl⟩ | ⟨e | l, s', ended⟩
    · exact ⟨failed, .slnil⟩
    · cases ended
      exact ⟨failure_record failed e, .slnil⟩
    · cases l <;> cases ended <;> exact ⟨failed, .slnil⟩
  | reach head tail =>
    simp only [Thread.turn, failed, ↓reduceIte] at turned
    cases turned
    exact ⟨failed, .slnil⟩
  | perform w =>
    simp only [Thread.turn] at turned
    rcases Runner.of_turn turned with ⟨w', s', rfl, rfl⟩ | ⟨e | _, s', ended⟩
    · exact ⟨failed, .slnil⟩
    · cases ended
      exact ⟨failure_record failed e, .slnil⟩
    · cases ended
      exact ⟨failed, .slnil⟩
  | leave =>
    cases turned
    exact ⟨failed, .slnil⟩
  | work w =>
    simp only [Thread.turn] at turned
    cases moved : w.turn E store with
    | goOn ws s' =>
      rw [moved] at turned
      cases turned
      refine ⟨failed, ?_⟩
      simp [awaited, List.flatMap_map, Thread.awaited]
    | ask q next s' => rw [moved] at turned; cases turned
    | wait s' => rw [moved] at turned; cases turned

theorem awaited_of_ask {q : Request} {next : q.Answer → List Thread} (failed : x.failure.isSome)
    (turned : t.turn E x = .ask q next x') (a : q.Answer) :
    x'.failure.isSome ∧ awaited (next a) = [] := by
  obtain ⟨store, free, failure⟩ := x
  cases t with
  | main outputs =>
    cases outputs with
    | nil => cases turned
    | cons o outputs =>
      simp only [Thread.turn, failed, ↓reduceIte] at turned
      cases turned
  | acquire cell next => cases free <;> cases turned
  | walk w =>
    simp only [Thread.turn] at turned
    obtain ⟨w', s', more, rfl⟩ := Runner.of_turn_ask (fun a y => by
      rcases a with e | l
      · exact ⟨_, _, rfl⟩
      · cases l <;> exact ⟨_, _, rfl⟩) turned
    exact ⟨failed, by rw [more]; rfl⟩
  | reach head tail =>
    simp only [Thread.turn, failed, ↓reduceIte] at turned
    cases turned
  | perform w =>
    simp only [Thread.turn] at turned
    obtain ⟨w', s', more, rfl⟩ := Runner.of_turn_ask (fun a y => by
      cases a <;> exact ⟨_, _, rfl⟩) turned
    exact ⟨failed, by rw [more]; rfl⟩
  | leave => cases turned
  | work w =>
    simp only [Thread.turn] at turned
    cases moved : w.turn E store with
    | goOn ws s' => rw [moved] at turned; cases turned
    | ask q' more s' =>
      rw [moved] at turned
      cases turned
      exact ⟨failed, by simp [awaited, List.flatMap_map, Thread.awaited]⟩
    | wait s' => rw [moved] at turned; cases turned

/-- A failure stays, and the threads that wait for a permit only get fewer. -/
theorem awaited_of_step {a b : List Thread × Shared × World} (failed : a.2.1.failure.isSome)
    (step : Crew.Step (Thread.turn E) a b) :
    b.2.1.failure.isSome ∧ (awaited b.1).Sublist (awaited a.1) := by
  cases step with
  | goOn before after w turned =>
    obtain ⟨still, fewer⟩ := awaited_of_turn failed turned
    refine ⟨still, ?_⟩
    simp only [awaited_append, List.append_assoc]
    exact (List.Sublist.refl _).append (fewer.append (List.Sublist.refl _))
  | ask before after w turned =>
    obtain ⟨still, none⟩ := awaited_of_ask failed turned (World.answer _ w).1
    refine ⟨still, ?_⟩
    simp only [awaited_append, none, List.append_nil]
    exact (List.Sublist.refl _).append (List.sublist_append_right _ _)

/-- Whoever is started does not wait any more. -/
theorem awaited_of_begins {a b : List Thread × Shared × World} {cell : Ref}
    (begins : Begins a b cell) :
    ∃ l r, awaited a.1 = l ++ cell :: r ∧ awaited b.1 = l ++ r := by
  obtain ⟨before, after, next, first, second⟩ := begins
  refine ⟨awaited before, next.awaited ++ awaited after, ?_, ?_⟩
  · rw [first]
    simp [awaited, Thread.awaited]
  · rw [second]
    simp [awaited, Thread.awaited]

end

/-- Once a run has a failure it keeps one; those who wait for a permit then are the only ones that
    can still start, each of them once. -/
theorem begins_after_failure (E : Engine) {run : Nat → List Thread × Shared × World} {n i : Nat}
    (steps : Crew.IsRun (Thread.turn E) run n) (failed : (run i).2.1.failure.isSome) :
    ∀ k, i ≤ k → k ≤ n → (run k).2.1.failure.isSome ∧
      (awaited (run k).1).Sublist (awaited (run i).1) ∧
      ∀ cell, k < n → Begins (run k) (run (k + 1)) cell →
        cell ∈ awaited (run i).1 ∧
        ∃ l r, awaited (run k).1 = l ++ cell :: r ∧ awaited (run (k + 1)).1 = l ++ r := by
  intro k after
  induction k, after using Nat.le_induction with
  | base =>
    refine fun _ => ⟨failed, .refl _, fun cell _ begins => ?_⟩
    obtain ⟨l, r, waits, started⟩ := awaited_of_begins begins
    exact ⟨by simp [waits], l, r, waits, started⟩
  | succ k after ih =>
    intro within
    obtain ⟨still, fewer, _⟩ := ih (by omega)
    obtain ⟨failed', step⟩ := awaited_of_step still (steps k (by omega))
    have since := step.trans fewer
    refine ⟨failed', since, fun cell _ begins => ?_⟩
    obtain ⟨l, r, waits, started⟩ := awaited_of_begins begins
    exact ⟨since.subset (by simp [waits]), l, r, waits, started⟩

/-- An output that is no effect, and one that makes a list. -/
def failingProgram : Program where
  outputs := [{ value := .literal (.number .one) },
    { value := .call (.global "list") [] [] [] none }]

/-- With one permit: the main loop looks for a failure before each output, the first output fails,
    gives its permit back, and the main loop starts the second one. -/
def failingRun (m : Module) (h : Heap) : Nat → List Thread × Shared × World :=
  Crew.followed (Thread.turn { bound := 1 }) [0, 0, 1, 0, 0, 0, 0, 0, 0, 0, 0]
    (crew m.outputs, .start 1 { heap := h }, {})

/-- At the failure the second output has not been forced, and later it is. -/
theorem waiting_output_is_forced_after_failure :
    ∃ m h, failingProgram.load {} = .ok (m, h) ∧ m.outputs.map Output.cell = [⟨0⟩, ⟨2⟩] ∧
      failingRun m h 0 = (crew m.outputs, .start 1 { heap := h }, {}) ∧
      Crew.IsRun (Thread.turn { bound := 1 }) (failingRun m h) 11 ∧
      (failingRun m h 7).2.1.failure.isSome ∧
      (∃ w, (heapAt (failingRun m h) 7).state? ⟨2⟩ = some (.pending w)) ∧
      Begins (failingRun m h 8) (failingRun m h 9) ⟨2⟩ ∧
      (heapAt (failingRun m h) 11).state? ⟨2⟩ = some .forcing := by
  have loads : ∃ m h, failingProgram.load {} = .ok (m, h) := ⟨_, _, rfl⟩
  obtain ⟨m, h, loads⟩ := loads
  refine ⟨m, h, loads, ?_⟩
  cases loads
  refine ⟨rfl, rfl, ?_, rfl, ⟨_, rfl⟩, ?_, rfl⟩
  · exact Crew.isRun_of_follow _ _ _ rfl
  · exact ⟨[], _, .main [], rfl, rfl⟩

/-- The only one that waits at the failure is the one that starts after it. -/
theorem begins_after_failure_of_waiting :
    ∃ m h, failingProgram.load {} = .ok (m, h) ∧
      Crew.IsRun (Thread.turn { bound := 1 }) (failingRun m h) 11 ∧
      (failingRun m h 7).2.1.failure.isSome ∧ awaited (failingRun m h 7).1 = [⟨2⟩] ∧
      ∀ k, 7 ≤ k → k < 11 → ∀ cell, Begins (failingRun m h k) (failingRun m h (k + 1)) cell →
        cell = ⟨2⟩ := by
  have loads : ∃ m h, failingProgram.load {} = .ok (m, h) := ⟨_, _, rfl⟩
  obtain ⟨m, h, loads⟩ := loads
  have steps : Crew.IsRun (Thread.turn { bound := 1 }) (failingRun m h) 11 := by
    cases loads
    exact Crew.isRun_of_follow _ _ _ rfl
  have failed : (failingRun m h 7).2.1.failure.isSome := by
    cases loads
    rfl
  have waiting : awaited (failingRun m h 7).1 = [⟨2⟩] := by
    cases loads
    rfl
  refine ⟨m, h, loads, steps, failed, waiting, fun k after before cell begins => ?_⟩
  have waited := (begins_after_failure _ steps failed k after before.le).2.2 cell before begins
  rw [waiting] at waited
  exact List.mem_singleton.1 waited.1

end Output
end CallByNeed
