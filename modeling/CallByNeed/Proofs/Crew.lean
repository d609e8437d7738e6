import CallByNeed.Crew
import Mathlib.Logic.Relation
import Mathlib.Tactic.NthRewrite

/- Runs of a crew: any threads, any order of turns. -/
namespace CallByNeed
open Relation (ReflTransGen)

namespace Crew
variable {τ σ : Type}

/-- Any number of turns in any order. -/
def Runs (turn : τ → σ → Turn τ σ) : List τ × σ × World → List τ × σ × World → Prop :=
  ReflTransGen (Step turn)

/-- The turns of the threads at these places, one after the other. -/
def follow (turn : τ → σ → Turn τ σ) :
    List Nat → List τ × σ × World → Option (List τ × σ × World)
  | [], a => some a
  | i :: places, (threads, x, w) =>
    match threads[i]? with
    | none => none
    | some t =>
      match turn t x with
      | .wait _ => none
      | .goOn more x => follow turn places (threads.take i ++ more ++ threads.drop (i + 1), x, w)
      | .ask q more x =>
        follow turn places (threads.take i ++ more (World.answer q w).1 ++ threads.drop (i + 1), x,
          (World.answer q w).2)

/-- The first of several turns is one that may be taken. -/
theorem step_of_follow (turn : τ → σ → Turn τ σ) (i : Nat) (places : List Nat)
    (a : List τ × σ × World) {b : List τ × σ × World}
    (e : follow turn (i :: places) a = some b) :
    ∃ a', follow turn [i] a = some a' ∧ Step turn a a' ∧ follow turn places a' = some b := by
  obtain ⟨threads, x, w⟩ := a
  simp only [follow] at e ⊢
  cases place : threads[i]? with
  | none => simp [place] at e
  | some t =>
    have parts : threads = threads.take i ++ t :: threads.drop (i + 1) := by
      obtain ⟨bound, rfl⟩ := List.getElem?_eq_some_iff.mp place
      rw [← List.drop_eq_getElem_cons bound, List.take_append_drop]
    simp only [place] at e ⊢
    split at e
    · cases e
    · next moved =>
      refine ⟨_, rfl, ?_, e⟩
      nth_rewrite 1 [parts]
      exact .goOn _ _ w moved
    · next moved =>
      refine ⟨_, rfl, ?_, e⟩
      nth_rewrite 1 [parts]
      exact .ask _ _ w moved

theorem runs_of_follow (turn : τ → σ → Turn τ σ) (places : List Nat)
    (a : List τ × σ × World) {b : List τ × σ × World} (e : follow turn places a = some b) :
    Runs turn a b := by
  induction places generalizing a with
  | nil =>
    cases e
    exact .refl
  | cons i places ih =>
    obtain ⟨a', _, step, rest⟩ := step_of_follow turn i places a e
    exact .head step (ih a' rest)

/-- The states of a run, from one turn to the next. -/
def IsRun (turn : τ → σ → Turn τ σ) (run : Nat → List τ × σ × World) (n : Nat) : Prop :=
  ∀ i < n, Step turn (run i) (run (i + 1))

/-- The states that following the threads at these places goes through. -/
def followed (turn : τ → σ → Turn τ σ) :
    List Nat → List τ × σ × World → Nat → List τ × σ × World
  | _, a, 0 => a
  | [], a, _ + 1 => a
  | place :: places, a, i + 1 => followed turn places ((follow turn [place] a).getD a) i

theorem isRun_of_follow (turn : τ → σ → Turn τ σ) (places : List Nat)
    (a : List τ × σ × World) {b : List τ × σ × World} (e : follow turn places a = some b) :
    IsRun turn (followed turn places a) places.length := by
  induction places generalizing a with
  | nil =>
    intro i less
    cases less
  | cons place places ih =>
    obtain ⟨a', first, step, rest⟩ := step_of_follow turn place places a e
    intro i less
    cases i with
    | zero => simpa [followed, first] using step
    | succ i =>
      have later := ih a' rest i (by simpa using less)
      simpa [followed, first] using later

/-- If nobody can go on, nothing changes. -/
theorem same_of_firstTurn {turn : τ → σ → Turn τ σ}
    (idles : ∀ {t x x'}, turn t x = .wait x' → x' = x) {idle after : List τ} {x x' : σ}
    (e : firstTurn turn idle after x = .wait x') : x' = x := by
  induction after generalizing idle x with
  | nil =>
    cases e
    rfl
  | cons t after ih =>
    simp only [firstTurn] at e
    split at e
    · next y waits =>
      rw [idles waits] at e
      exact ih e
    · cases moved : turn t x with
      | goOn more y => simp [moved, Turn.amid] at e
      | ask q more y => simp [moved, Turn.amid] at e
      | wait y =>
        rw [moved] at e
        cases e
        exact idles moved

theorem same_of_nextTurn {turn : τ → σ → Turn τ σ} {prompt : τ → Bool}
    (idles : ∀ {t x x'}, turn t x = .wait x' → x' = x) {threads : List τ} {x x' : σ}
    (e : nextTurn turn prompt threads x = .wait x') : x' = x := by
  unfold nextTurn at e
  split at e
  · exact same_of_firstTurn idles e
  · exact same_of_firstTurn (idles_promptly idles) e

/-- What `run` does in a world is one of the runs. -/
theorem runs_of_run {turn : τ → σ → Turn τ σ} {prompt : τ → Bool} {hasWork : List τ → Bool}
    (idles : ∀ {t x x'}, turn t x = .wait x' → x' = x) {fuel : Nat} {threads threads' : List τ}
    {x x' : σ} {w w' : World}
    (e : (run turn prompt hasWork fuel threads x : StateM World _) w = ((threads', x'), w')) :
    Runs turn (threads, x, w) (threads', x', w') := by
  induction fuel generalizing threads x w with
  | zero =>
    cases e
    exact .refl
  | succ fuel ih =>
    simp only [run] at e
    split at e
    · cases next : nextTurn turn prompt threads x with
      | goOn more y =>
        rw [next] at e
        exact .head (step_of_nextTurn idles w next) (ih e)
      | ask q more y =>
        rw [next] at e
        exact .head (step_of_nextTurn_ask idles w next) (ih e)
      | wait y =>
        rw [next] at e
        cases e
        rw [same_of_nextTurn idles next]
        exact .refl
    · cases e
      exact .refl

theorem IsRun.extend {turn : τ → σ → Turn τ σ} {run : Nat → List τ × σ × World} {n : Nat}
    {c : List τ × σ × World} (steps : IsRun turn run n) (step : Step turn (run n) c) :
    ∃ run', (∀ i ≤ n, run' i = run i) ∧ run' (n + 1) = c ∧ IsRun turn run' (n + 1) := by
  refine ⟨fun i => if i ≤ n then run i else c, fun i bound => by simp [bound],
    by simp [Nat.not_succ_le_self], ?_⟩
  intro i less
  rcases Nat.lt_succ_iff_lt_or_eq.1 less with earlier | rfl
  · simpa [Nat.le_of_lt earlier, Nat.succ_le_of_lt earlier] using steps i earlier
  · simpa [Nat.not_succ_le_self] using step

theorem exists_isRun_of_runs {turn : τ → σ → Turn τ σ} {a b : List τ × σ × World}
    (runs : Runs turn a b) : ∃ run n, run 0 = a ∧ run n = b ∧ IsRun turn run n := by
  induction runs with
  | refl => exact ⟨fun _ => a, 0, rfl, rfl, nofun⟩
  | tail _ step ih =>
    obtain ⟨run, n, first, rfl, steps⟩ := ih
    obtain ⟨run', same, last, steps'⟩ := steps.extend step
    exact ⟨run', n + 1, (same 0 n.zero_le).trans first, last, steps'⟩

section
variable {τ' σ' : Type} {turn : τ → σ → Turn τ σ} {turn' : τ' → σ' → Turn τ' σ'}
variable {thread : τ' → τ} {shared : σ' → σ}

/-- A state of a crew without what its threads and their shared state carry besides. -/
def erase (thread : τ' → τ) (shared : σ' → σ) (a : List τ' × σ' × World) :
    List τ × σ × World :=
  (a.1.map thread, shared a.2.1, a.2.2)

/-- Threads that carry more but take the same turns can take every step that can be taken. -/
theorem exists_step_of_erased
    (erased : ∀ t x, (turn' t x).map thread shared = turn (thread t) (shared x))
    {a : List τ' × σ' × World} {b : List τ × σ × World} (step : Step turn (erase thread shared a) b) :
    ∃ a', Step turn' a a' ∧ erase thread shared a' = b := by
  obtain ⟨threads, x, w⟩ := a
  generalize start : erase thread shared (threads, x, w) = a at step
  cases step with
  | @goOn t s s' more before after w took =>
    obtain ⟨threads_eq, rfl, rfl⟩ := by simpa [erase] using start
    obtain ⟨left, rest, rfl, rfl, tail⟩ := List.map_eq_append_iff.1 threads_eq
    obtain ⟨t', right, rfl, rfl, rfl⟩ := List.map_eq_cons_iff.1 tail
    rw [← erased] at took
    cases moved : turn' t' x with
    | goOn more' x' =>
      rw [moved] at took
      cases took
      exact ⟨_, .goOn left right _ moved, by simp [erase]⟩
    | ask q next x' => rw [moved] at took; cases took
    | wait x' => rw [moved] at took; cases took
  | @ask t s s' q next before after w took =>
    obtain ⟨threads_eq, rfl, rfl⟩ := by simpa [erase] using start
    obtain ⟨left, rest, rfl, rfl, tail⟩ := List.map_eq_append_iff.1 threads_eq
    obtain ⟨t', right, rfl, rfl, rfl⟩ := List.map_eq_cons_iff.1 tail
    rw [← erased] at took
    cases moved : turn' t' x with
    | goOn more' x' => rw [moved] at took; cases took
    | wait x' => rw [moved] at took; cases took
    | ask q' next' x' =>
      rw [moved] at took
      cases took
      exact ⟨_, .ask left right _ moved, by simp [erase]⟩

/-- So they can take every run. -/
theorem exists_run_of_erased
    (erased : ∀ t x, (turn' t x).map thread shared = turn (thread t) (shared x))
    {a : List τ' × σ' × World} {run : Nat → List τ × σ × World} {n : Nat}
    (first : run 0 = erase thread shared a) (steps : IsRun turn run n) :
    ∃ run', run' 0 = a ∧ IsRun turn' run' n ∧ ∀ i ≤ n, erase thread shared (run' i) = run i := by
  induction n with
  | zero =>
    refine ⟨fun _ => a, rfl, nofun, fun i bound => ?_⟩
    rw [Nat.le_zero.1 bound, first]
  | succ n ih =>
    obtain ⟨run', start, steps', same⟩ := ih fun i less => steps i (by omega)
    have step := steps n (by omega)
    rw [← same n (Nat.le_refl n)] at step
    obtain ⟨last, step', ends⟩ := exists_step_of_erased erased step
    obtain ⟨longer, before, after, steps''⟩ := steps'.extend step'
    refine ⟨longer, (before 0 n.zero_le).trans start, steps'', fun i bound => ?_⟩
    rcases Nat.lt_or_eq_of_le bound with earlier | rfl
    · rw [before i (Nat.le_of_lt_succ earlier)]
      exact same i (Nat.le_of_lt_succ earlier)
    · rw [after, ends]

end

end Crew
end CallByNeed
