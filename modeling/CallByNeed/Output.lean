import CallByNeed.Program.Load
import CallByNeed.Worker

/- Running outputs. Each is performed on a thread of its own that holds a permit; the elements of an
   expanded output become outputs as a walker reaches them. Whoever is about to wait for a permit
   looks first whether an output has failed, and then starts no more. The first fault that is
   recorded is the fault of the run. -/
namespace CallByNeed
namespace Output

/-- What the threads of a run share. -/
structure Shared where
  store : Store
  /-- Permits that nobody holds. -/
  free : Nat
  failure : Option Fault := none

/-- Only the first fault is kept. -/
def Shared.record (x : Shared) (e : Fault) : Shared :=
  { x with failure := x.failure <|> some e }

inductive Thread where
  /-- The main loop before the outputs that are left. -/
  | main (outputs : List Output)
  /-- Waits for a permit to start a cell as an output, and then goes on as `next`. -/
  | acquire (cell : Ref) (next : Thread)
  /-- Forces the list of an expanded output, or a tail of it. -/
  | walk (w : Runner LazyList)
  /-- A walker that has reached a cell of its list. -/
  | reach (head tail : Ref)
  /-- An output, which holds a permit. -/
  | perform (w : Runner Unit)
  /-- An output that has ended and has still to give its permit back. -/
  | leave
  /-- Forces arguments in the background and never ends. -/
  | work (w : Worker)

/-- Performs a cell; its result does not matter unless it is a fault. -/
def performCell (r : Ref) : Script Unit := do
  match ← CallByNeed.perform r with
  | .error e => .raise e
  | _ => pure ()

namespace Thread

def isWorker : Thread → Bool
  | .work _ => true
  | _ => false

/-- Whether the next turn forces nothing: such a turn takes no time to speak of. -/
def isPrompt : Thread → Bool
  | .main _ | .acquire _ _ | .reach _ _ | .leave => true
  | .walk _ | .perform _ | .work _ => false

def turn (E : Engine) : Thread → Shared → Turn Thread Shared
  | .main [], x => .goOn [] x
  | .main (o :: outputs), x =>
    if x.failure.isSome then .goOn [] x
    else if o.expanded then .goOn [.walk (.ready (forceList o.cell)), .main outputs] x
    else .goOn [.acquire o.cell (.main outputs)] x
  | .acquire cell next, x =>
    match x.free with
    | 0 => .wait x
    | free + 1 => .goOn [.perform (.ready (performCell cell)), next] { x with free }
  | .walk w, ⟨store, free, failure⟩ =>
    w.turn E .walk (⟨·, free, failure⟩) (fun
      | .ok .nil => .goOn []
      | .ok (.cons head tail) => .goOn [.reach head tail]
      | .error e => fun x => .goOn [] (x.record e)) store
  | .reach head tail, x =>
    if x.failure.isSome then .goOn [] x
    else .goOn [.acquire head (.walk (.ready (forceList tail)))] x
  | .perform w, ⟨store, free, failure⟩ =>
    w.turn E .perform (⟨·, free, failure⟩) (fun
      | .ok () => .goOn [.leave]
      | .error e => fun x => .goOn [.leave] (x.record e)) store
  | .leave, x => .goOn [] { x with free := x.free + 1 }
  | .work w, ⟨store, free, failure⟩ =>
    (w.turn E store).map .work (⟨·, free, failure⟩)

/-- A thread that waits leaves all as it is. -/
theorem shared_of_turn_wait {E : Engine} {t : Thread} {x x' : Shared}
    (e : t.turn E x = .wait x') : x' = x := by
  obtain ⟨store, free, failure⟩ := x
  cases t with
  | main outputs =>
    cases outputs with
    | nil => simp [turn] at e
    | cons o outputs =>
      simp only [turn] at e
      split at e <;> try split at e
      all_goals simp at e
  | acquire cell next =>
    simp only [turn] at e
    split at e <;> simp_all
  | walk w =>
    simp only [turn] at e
    refine Runner.share_of_turn_wait (fun a y => ?_) e
    rcases a with e | l
    · simp
    · cases l <;> simp
  | reach head tail =>
    simp only [turn] at e
    split at e <;> simp at e
  | perform w =>
    simp only [turn] at e
    refine Runner.share_of_turn_wait (fun a y => ?_) e
    cases a <;> simp
  | leave => simp [turn] at e
  | work w =>
    simp only [turn] at e
    cases moved : w.turn E store with
    | goOn ts s => simp [moved, Turn.map] at e
    | ask q ts s => simp [moved, Turn.map] at e
    | wait s =>
      rw [moved, Worker.store_of_turn_wait moved] at e
      simpa [Turn.map] using e.symm

end Thread

/-- A run has at least one permit. -/
def Shared.start (permits : Nat) (store : Store) : Shared := { store, free := max permits 1 }

def workers : Nat := 4

/-- The main loop comes first: whom it starts takes turns before it starts another, and workers do
    when all else waits. -/
def crew (outputs : List Output) : List Thread :=
  .main outputs :: List.replicate workers (.work .idle)

/-- Runs outputs to the end: none if one never ends, else the fault of the run if it has one. -/
def runAll {m : Type → Type} [Monad m] [Host m] (E : Engine) (fuel permits : Nat)
    (outputs : List Output) (store : Store) : m (Option (Except Fault Unit)) := do
  let hasWork (threads : List Thread) : Bool := threads.any fun t => !t.isWorker
  let (left, x) ←
    Crew.run (Thread.turn E) Thread.isPrompt hasWork fuel (crew outputs) (.start permits store)
  if hasWork left then pure none
  else
    match x.failure with
    | some e => pure (some (.error e))
    | none => pure (some (.ok ()))

end Output
end CallByNeed
