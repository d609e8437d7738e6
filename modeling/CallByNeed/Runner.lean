import CallByNeed.Crew
import CallByNeed.Engine

/- Runners: scripts that belong to no cell, one step at a time. -/
namespace CallByNeed

/-- How a script ends. -/
inductive Ending (α : Type) where
  | answer (a : α)
  | fault (e : Fault)
  | halt (h : Halt)

inductive Runner (α : Type) where
  | ready (s : Script α)
  /-- Forces a cell and goes on with its value. -/
  | forcing (how : Demand) (r : Ref) (next : Value → Script α) (c : Control)
      (frames : List Frame)

namespace Runner
variable {α : Type}

/-- What one step comes to. A runner whose step halts has not moved. -/
inductive Progress (α : Type) where
  | next (w : Runner α) (s : Store)
  | ask (q : Request) (next : q.Answer → Runner α) (s : Store)
  | ended (e : Ending α) (s : Store)

def demand (how : Demand) (r : Ref) (next : Value → Script α) : Runner α :=
  .forcing how r next (.enter r) []

def step (E : Engine) : Runner α → Store → Progress α
  | .ready (.done a), s => .ended (.answer a) s
  | .ready (.raise e), s => .ended (.fault e) s
  | .ready (.panic p), s => .ended (.halt (.panic p)) s
  | .ready .stall, s => .ended (.halt .exhausted) s
  | .ready (.demand how r next), s => .next (demand how r next) s
  | .ready (.act a next), s =>
    let (x, s) := s.act a
    .next (.ready (next x)) s
  | .ready (.ask q next), s => .ask q (fun x => .ready (next x)) s
  | .forcing how r next c frames, s =>
    match E.step c frames s with
    | .next c frames s => .next (.forcing how r next c frames) s
    | .ask q control frames s => .ask q (fun x => .forcing how r next (control x) frames) s
    | .halted h s => .ended (.halt h) s
    | .finished v s =>
      match how.reply (s.heap.site? r) v with
      | .resume v => .next (.ready (next v)) s
      | .perform action => .next (demand .pure action next) s

theorem store_of_halt {E : Engine} {w : Runner α} {s s' : Store} {h : Halt}
    (e : w.step E s = .ended (.halt h) s') : s' = s := by
  cases w with
  | ready script =>
    cases script <;> simp_all [step]
  | forcing how r next c frames =>
    simp only [step] at e
    split at e
    · simp at e
    · simp at e
    · next halted =>
      obtain ⟨_, rfl⟩ := by simpa using e
      exact Engine.store_of_halted halted
    · split at e <;> simp [demand] at e

/-- The turn of a thread that is a runner: `thread` makes it a thread, `share` puts the store back
    and `finish` says what comes of the end. A runner that halts waits. -/
def turn {τ σ : Type} (E : Engine) (thread : Runner α → τ) (share : Store → σ)
    (finish : Except Fault α → σ → Turn τ σ) (w : Runner α) (s : Store) : Turn τ σ :=
  match w.step E s with
  | .next w s => .goOn [thread w] (share s)
  | .ask q next s => .ask q (fun a => [thread (next a)]) (share s)
  | .ended (.answer a) s => finish (.ok a) (share s)
  | .ended (.fault e) s => finish (.error e) (share s)
  | .ended (.halt _) s => .wait (share s)

theorem share_of_turn_wait {τ σ : Type} {E : Engine} {thread : Runner α → τ} {share : Store → σ}
    {finish : Except Fault α → σ → Turn τ σ} {w : Runner α} {s : Store} {x : σ}
    (finishes : ∀ a y, finish a y ≠ .wait x) (e : w.turn E thread share finish s = .wait x) :
    x = share s := by
  simp only [turn] at e
  split at e
  · simp at e
  · simp at e
  · exact absurd e (finishes _ _)
  · exact absurd e (finishes _ _)
  · next halted =>
    rw [store_of_halt halted] at e
    simpa using e.symm

/-- Steps until the end, asking the host on the way. -/
def run {m : Type → Type} [Monad m] [Host m] (E : Engine) :
    Nat → Runner α → Store → m (Ending α × Store)
  | 0, _, s => pure (.halt .exhausted, s)
  | fuel + 1, w, s =>
    match w.step E s with
    | .next w s => run E fuel w s
    | .ask q next s => do run E fuel (next (← Host.answer q)) s
    | .ended e s => pure (e, s)

end Runner

def Script.run {m : Type → Type} [Monad m] [Host m] {α : Type} (E : Engine) (fuel : Nat)
    (script : Script α) (s : Store) : m (Ending α × Store) :=
  (Runner.ready script).run E fuel s

end CallByNeed
