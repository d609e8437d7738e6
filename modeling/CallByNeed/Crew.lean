import CallByNeed.Host

/- Crews: threads that share a state and take turns. A turn is one indivisible step, and any thread
   that can go on may take the next one; `Step` allows every order of turns. `run` gives each turn
   to the first thread that can take it, prompt threads before all others. -/
namespace CallByNeed

/-- What a turn comes to, for a thread of type `τ` and a shared state of type `σ`. -/
inductive Turn (τ σ : Type) where
  /-- The thread goes on as these threads: none if it has ended, several if it has started some. -/
  | goOn (threads : List τ) (x : σ)
  | ask (q : Request) (threads : q.Answer → List τ) (x : σ)
  /-- The thread cannot go on now. -/
  | wait (x : σ)

namespace Turn
variable {τ υ σ ρ : Type}

def map (thread : τ → υ) (shared : σ → ρ) : Turn τ σ → Turn υ ρ
  | .goOn threads x => .goOn (threads.map thread) (shared x)
  | .ask q threads x => .ask q (fun a => (threads a).map thread) (shared x)
  | .wait x => .wait (shared x)

/-- The same turn among more threads. -/
def amid (before after : List τ) : Turn τ σ → Turn τ σ
  | .goOn threads x => .goOn (before ++ threads ++ after) x
  | .ask q threads x => .ask q (fun a => before ++ threads a ++ after) x
  | .wait x => .wait x

end Turn

namespace Crew
variable {τ σ : Type}

/-- One thread of several takes a turn in a world. -/
inductive Step (turn : τ → σ → Turn τ σ) : List τ × σ × World → List τ × σ × World → Prop where
  | goOn {t : τ} {x x' : σ} {threads : List τ} (before after : List τ) (w : World)
      (h : turn t x = .goOn threads x') :
      Step turn (before ++ t :: after, x, w) (before ++ threads ++ after, x', w)
  | ask {t : τ} {x x' : σ} {q : Request} {threads : q.Answer → List τ} (before after : List τ)
      (w : World) (h : turn t x = .ask q threads x') :
      Step turn (before ++ t :: after, x, w)
        (before ++ threads (World.answer q w).1 ++ after, x', (World.answer q w).2)

/-- The turn of the first thread that can go on; `idle` holds the threads before it, the last one
    first. -/
def firstTurn (turn : τ → σ → Turn τ σ) (idle : List τ) : List τ → σ → Turn τ σ
  | [], x => .wait x
  | t :: after, x =>
    match turn t x with
    | .wait x => firstTurn turn (t :: idle) after x
    | moved => moved.amid idle.reverse after

/-- Given that a thread which waits changes nothing, the first turn is one that may be taken. -/
theorem step_of_firstTurn {turn : τ → σ → Turn τ σ}
    (idles : ∀ {t x x'}, turn t x = .wait x' → x' = x) {idle after threads : List τ} {x x' : σ}
    (w : World) (e : firstTurn turn idle after x = .goOn threads x') :
    Step turn (idle.reverse ++ after, x, w) (threads, x', w) := by
  induction after generalizing idle x with
  | nil => simp [firstTurn] at e
  | cons t after ih =>
    simp only [firstTurn] at e
    split at e
    · next x₁ waits =>
      rw [idles waits] at e
      simpa using ih e
    · cases moved : turn t x with
      | goOn ts y =>
        simp only [moved, Turn.amid, Turn.goOn.injEq] at e
        obtain ⟨rfl, rfl⟩ := e
        exact .goOn _ _ w moved
      | ask q ts y => simp [moved, Turn.amid] at e
      | wait y => simp [moved, Turn.amid] at e

theorem step_of_firstTurn_ask {turn : τ → σ → Turn τ σ}
    (idles : ∀ {t x x'}, turn t x = .wait x' → x' = x) {idle after : List τ} {q : Request}
    {next : q.Answer → List τ} {x x' : σ} (w : World)
    (e : firstTurn turn idle after x = .ask q next x') :
    Step turn (idle.reverse ++ after, x, w)
      (next (World.answer q w).1, x', (World.answer q w).2) := by
  induction after generalizing idle x with
  | nil => simp [firstTurn] at e
  | cons t after ih =>
    simp only [firstTurn] at e
    split at e
    · next x₁ waits =>
      rw [idles waits] at e
      simpa using ih e
    · cases moved : turn t x with
      | goOn ts y => simp [moved, Turn.amid] at e
      | ask q' ts y =>
        simp only [moved, Turn.amid, Turn.ask.injEq] at e
        obtain ⟨rfl, rfl, rfl⟩ := e
        exact .ask _ _ w moved
      | wait y => simp [moved, Turn.amid] at e

/-- Turns of prompt threads only; the others wait. -/
def promptly (turn : τ → σ → Turn τ σ) (prompt : τ → Bool) (t : τ) (x : σ) : Turn τ σ :=
  if prompt t then turn t x else .wait x

/-- The turn of the first prompt thread that can go on, or else of the first thread that can. -/
def nextTurn (turn : τ → σ → Turn τ σ) (prompt : τ → Bool) (threads : List τ) (x : σ) : Turn τ σ :=
  match firstTurn (promptly turn prompt) [] threads x with
  | .wait _ => firstTurn turn [] threads x
  | moved => moved

section
variable {turn : τ → σ → Turn τ σ} {prompt : τ → Bool} {threads : List τ} {x x' : σ}

theorem idles_promptly (idles : ∀ {t x x'}, turn t x = .wait x' → x' = x) {t : τ}
    (e : promptly turn prompt t x = .wait x') : x' = x := by
  unfold promptly at e
  split at e
  · exact idles e
  · simpa using e.symm

theorem Step.of_promptly {a b : List τ × σ × World} (step : Step (promptly turn prompt) a b) :
    Step turn a b := by
  cases step with
  | goOn before after w moved =>
    unfold promptly at moved
    split at moved
    · exact .goOn before after w moved
    · cases moved
  | ask before after w moved =>
    unfold promptly at moved
    split at moved
    · exact .ask before after w moved
    · cases moved

/-- Given that a thread which waits changes nothing, the next turn is one that may be taken. -/
theorem step_of_nextTurn (idles : ∀ {t x x'}, turn t x = .wait x' → x' = x) {threads' : List τ}
    (w : World) (e : nextTurn turn prompt threads x = .goOn threads' x') :
    Step turn (threads, x, w) (threads', x', w) := by
  unfold nextTurn at e
  split at e
  · exact step_of_firstTurn idles w e
  · exact (step_of_firstTurn (idles_promptly idles) w e).of_promptly

theorem step_of_nextTurn_ask (idles : ∀ {t x x'}, turn t x = .wait x' → x' = x) {q : Request}
    {next : q.Answer → List τ} (w : World) (e : nextTurn turn prompt threads x = .ask q next x') :
    Step turn (threads, x, w) (next (World.answer q w).1, x', (World.answer q w).2) := by
  unfold nextTurn at e
  split at e
  · exact step_of_firstTurn_ask idles w e
  · exact (step_of_firstTurn_ask (idles_promptly idles) w e).of_promptly

end

/-- Takes turns while the crew has work to do and a thread can go on; answers the threads that are
    left. -/
def run {m : Type → Type} [Monad m] [Host m] (turn : τ → σ → Turn τ σ) (prompt : τ → Bool)
    (hasWork : List τ → Bool) : Nat → List τ → σ → m (List τ × σ)
  | 0, threads, x => pure (threads, x)
  | fuel + 1, threads, x =>
    if hasWork threads then
      match nextTurn turn prompt threads x with
      | .goOn threads x => run turn prompt hasWork fuel threads x
      | .ask q next x => do run turn prompt hasWork fuel (next (← Host.answer q)) x
      | .wait x => pure (threads, x)
    else pure (threads, x)

end Crew
end CallByNeed
