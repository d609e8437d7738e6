import CallByNeed.Proofs.Engine.Advance
import Mathlib.Logic.Relation

/- Runs of a runner in a world, and when two of them come to like answers. Runs are deterministic:
   what a runner answers is what it answers after any of its steps. -/
namespace CallByNeed
open Relation (ReflTransGen TransGen)

/-- One step of the engine that neither asks nor ends. -/
def Engine.Moves (E : Engine) (x y : Control × List Frame × Store) : Prop :=
  E.Advance x.1 x.2.1 x.2.2 y.1 y.2.1 y.2.2

/-- The engine comes to a halt. -/
def Engine.Sticks (E : Engine) (x : Control × List Frame × Store) : Prop :=
  ∃ y h s, ReflTransGen E.Moves x y ∧ E.step y.1 y.2.1 y.2.2 = .halted h s

/-- What becomes of two engines that are related by `R`: both move on and are related again, or
    neither ever comes to a value, or both ask the same, or both come to values. A lax left side may
    stick alone. -/
inductive Engine.Meets (E E' : Engine) (lax : Prop)
    (R : Control × List Frame × Store → Control × List Frame × Store → Prop)
    (x y : Control × List Frame × Store) : Prop where
  | moved {x' y' : Control × List Frame × Store} (left : TransGen E.Moves x x')
      (right : TransGen E'.Moves y y') (related : R x' y')
  | stuck (left : E.Sticks x) (right : lax ∨ E'.Sticks y)
  | asked {cell current : Ref} {site site' : Option Location} {q : Request}
      {next next' : q.Answer → Script Outcome} {frames frames' : List Frame} {s s' : Store}
      (left : x = (.run cell site (.ask q next), frames, s))
      (right : y = (.run current site' (.ask q next'), frames', s'))
      (related : ∀ a, R (.run cell site (next a), frames, s)
        (.run current site' (next' a), frames', s'))
  | finished {v v' : Value} {s s' : Store} (left : ReflTransGen E.Moves x (.give v, [], s))
      (right : ReflTransGen E'.Moves y (.give v', [], s'))
      (related : R (.give v, [], s) (.give v', [], s'))

namespace Engine
variable {E : Engine} {c c' : Control} {frames frames' : List Frame} {s s' : Store} {r : Ref}

theorem Advance.move (advance : E.Advance c frames s c' frames' s') :
    E.Moves (c, frames, s) (c', frames', s') :=
  advance

theorem Advance.moves (advance : E.Advance c frames s c' frames' s') :
    TransGen E.Moves (c, frames, s) (c', frames', s') :=
  .single advance

theorem sticks_of_halted {h : Halt} (halts : E.step c frames s = .halted h s') :
    E.Sticks (c, frames, s) :=
  ⟨_, h, s', .refl, halts⟩

theorem Sticks.head {x y : Control × List Frame × Store} (move : E.Moves x y)
    (sticks : E.Sticks y) : E.Sticks x := by
  obtain ⟨z, h, t, moves, halts⟩ := sticks
  exact ⟨z, h, t, .head move moves, halts⟩

theorem sticks_of_forcing (busy : s.heap.state? r = some .forcing) :
    E.Sticks (.enter r, frames, s) := by
  have entry : s.heap.enter r = (.busy, s.heap) := by simp [Heap.enter, busy]
  have halts : E.step (.enter r) frames s = .halted (.blocked r) s := by
    simp [step, enter, entry]
  exact sticks_of_halted halts

theorem sticks_of_empty (empty : s.heap.state? r = none ∨ s.heap.state? r = some .vacant) :
    E.Sticks (.enter r, frames, s) := by
  have entry : s.heap.enter r = (.vacant, s.heap) := by
    rcases empty with missing | vacant
    · simp [Heap.enter, missing]
    · simp [Heap.enter, vacant]
  have halts : E.step (.enter r) frames s = .halted (.panic .vacantForced) s := by
    simp [step, enter, entry]
  exact sticks_of_halted halts

end Engine

namespace Runner
variable {α β : Type}

/-- One step in a world that answers what is asked. -/
inductive Tick (E : Engine) : Runner α × Store × World → Runner α × Store × World → Prop where
  | next {w w' : Runner α} {s s' : Store} (world : World) (step : w.step E s = .next w' s') :
      Tick E (w, s, world) (w', s', world)
  | ask {w : Runner α} {s s' : Store} {q : Request} {next : q.Answer → Runner α} (world : World)
      (step : w.step E s = .ask q next s') :
      Tick E (w, s, world) (next (World.answer q world).1, s', (World.answer q world).2)

def Answers (E : Engine) (fuel : Nat) (x : Runner α × Store × World) (a : α) (world : World) :
    Prop :=
  ∃ s, (x.1.run E fuel x.2.1 : StateM World _) x.2.2 = ((.answer a, s), world)

/-- The runner ends with an answer, given enough fuel. -/
def ComesTo (E : Engine) (x : Runner α × Store × World) (a : α) (world : World) : Prop :=
  ∃ fuel, Answers E fuel x a world

variable {E : Engine} {fuel : Nat} {x y : Runner α × Store × World} {a : α} {world : World}

theorem not_answers_zero : ¬ Answers E 0 x a world := by
  rintro ⟨s, e⟩
  cases e

theorem answers_of_tick (tick : Tick E x y) :
    Answers E (fuel + 1) x a world ↔ Answers E fuel y a world := by
  cases tick with
  | next world' step => simp only [Answers, run, step]
  | ask world' step => simp only [Answers, run, step]; rfl

theorem comesTo_of_ticks (ticks : ReflTransGen (Tick E) x y) :
    ComesTo E x a world ↔ ComesTo E y a world := by
  induction ticks with
  | refl => rfl
  | tail _ tick ih =>
    rw [ih]
    constructor
    · rintro ⟨fuel, answers⟩
      cases fuel with
      | zero => exact absurd answers not_answers_zero
      | succ fuel => exact ⟨fuel, (answers_of_tick tick).1 answers⟩
    · rintro ⟨fuel, answers⟩
      exact ⟨fuel + 1, (answers_of_tick tick).2 answers⟩

/-- Steps use up fuel. -/
theorem exists_lt_of_ticks (ticks : TransGen (Tick E) x y) (answers : Answers E fuel x a world) :
    ∃ less < fuel, Answers E less y a world := by
  induction ticks with
  | single tick =>
    cases fuel with
    | zero => exact absurd answers not_answers_zero
    | succ fuel => exact ⟨fuel, by omega, (answers_of_tick tick).1 answers⟩
  | tail _ tick ih =>
    obtain ⟨less, lower, answers⟩ := ih
    cases less with
    | zero => exact absurd answers not_answers_zero
    | succ less => exact ⟨less, by omega, (answers_of_tick tick).1 answers⟩

theorem answers_of_ended {w : Runner α} {s s' : Store} {ending : Ending α} {world' : World}
    (step : w.step E s = .ended ending s') :
    Answers E (fuel + 1) (w, s, world') a world ↔ ending = .answer a ∧ world = world' := by
  simp only [Answers, run, step]
  constructor
  · rintro ⟨t, e⟩
    cases e
    exact ⟨rfl, rfl⟩
  · rintro ⟨rfl, rfl⟩
    exact ⟨s', rfl⟩

theorem comesTo_of_ended {w : Runner α} {s s' : Store} {ending : Ending α} {world' : World}
    (step : w.step E s = .ended ending s') :
    ComesTo E (w, s, world') a world ↔ ending = .answer a ∧ world = world' := by
  constructor
  · rintro ⟨fuel, answers⟩
    cases fuel with
    | zero => exact absurd answers not_answers_zero
    | succ fuel => exact (answers_of_ended step).1 answers
  · intro same
    exact ⟨1, (answers_of_ended step).2 same⟩

theorem answers_succ (answers : Answers E fuel x a world) : Answers E (fuel + 1) x a world := by
  induction fuel generalizing x with
  | zero => exact absurd answers not_answers_zero
  | succ fuel ih =>
    obtain ⟨w, s, world'⟩ := x
    cases step : w.step E s with
    | next w' s' =>
      have tick : Tick E (w, s, world') (w', s', world') := .next world' step
      exact (answers_of_tick tick).2 (ih ((answers_of_tick tick).1 answers))
    | ask q next s' =>
      have tick : Tick E (w, s, world') _ := .ask world' step
      exact (answers_of_tick tick).2 (ih ((answers_of_tick tick).1 answers))
    | ended ending s' =>
      exact (answers_of_ended step).2 ((answers_of_ended step).1 answers)

theorem answers_mono {more : Nat} (le : fuel ≤ more) (answers : Answers E fuel x a world) :
    Answers E more x a world := by
  induction le with
  | refl => exact answers
  | step _ ih => exact answers_succ ih

theorem comesTo_unique {a' : α} {world' : World} (left : ComesTo E x a world)
    (right : ComesTo E x a' world') : a = a' ∧ world = world' := by
  obtain ⟨fuel, answers⟩ := left
  obtain ⟨fuel', answers'⟩ := right
  obtain ⟨s, e⟩ := answers_mono (Nat.le_max_left fuel fuel') answers
  obtain ⟨s', e'⟩ := answers_mono (Nat.le_max_right fuel fuel') answers'
  rw [e] at e'
  cases e'
  exact ⟨rfl, rfl⟩

section
variable {how : Demand} {r : Ref} {rest : Value → Script α} {c c' : Control × List Frame × Store}

theorem ticks_of_moves (moves : TransGen E.Moves c c') (world : World) :
    TransGen (Tick E) (.forcing how r rest c.1 c.2.1, c.2.2, world)
      (.forcing how r rest c'.1 c'.2.1, c'.2.2, world) := by
  induction moves with
  | single move => exact .single (.next world (step_of_advance (.engine move)))
  | tail _ move ih => exact .tail ih (.next world (step_of_advance (.engine move)))

theorem Advance.ticks {w w' : Runner α} {s s' : Store} (advance : w.Advance E s w' s')
    (world : World) : TransGen (Tick E) (w, s, world) (w', s', world) :=
  .single (.next world (step_of_advance advance))

/-- A runner whose engine comes to a value goes on with it. -/
theorem ticks_of_end {w : Runner α} {v : Value} {s s' : Store}
    (moves : ReflTransGen E.Moves c (.give v, [], s))
    (step : (Runner.forcing how r rest (.give v) []).Advance E s w s') (world : World) :
    TransGen (Tick E) (.forcing how r rest c.1 c.2.1, c.2.2, world) (w, s', world) := by
  rcases Relation.reflTransGen_iff_eq_or_transGen.1 moves with same | moves
  · subst same
    exact step.ticks world
  · exact (ticks_of_moves moves world).trans (step.ticks world)

theorem not_comesTo_of_sticks (sticks : E.Sticks c) (world' : World) :
    ¬ ComesTo E (.forcing how r rest c.1 c.2.1, c.2.2, world') a world := by
  obtain ⟨y, h, s, moves, halts⟩ := sticks
  have ended : (Runner.forcing how r rest y.1 y.2.1).step E y.2.2 = .ended (.halt h) s := by
    simp [step, halts]
  rcases Relation.reflTransGen_iff_eq_or_transGen.1 moves with rfl | moves
  · rw [comesTo_of_ended ended]
    simp
  · rw [comesTo_of_ticks (ticks_of_moves moves world').to_reflTransGen, comesTo_of_ended ended]
    simp

end

/-- What becomes of two runners that are related by `R`: both move on and are related again, or
    both end alike, or neither ever answers. A lax left side may fail alone. -/
inductive Meets (E E' : Engine) (lax : Prop) (post : α → β → Prop)
    (R : Runner α × Store × World → Runner β × Store × World → Prop)
    (x : Runner α × Store × World) (y : Runner β × Store × World) : Prop where
  | moved {x' : Runner α × Store × World} {y' : Runner β × Store × World}
      (left : TransGen (Tick E) x x') (right : TransGen (Tick E') y y') (related : R x' y')
  | answered {a : α} {a' : β} {world : World} (left : ComesTo E x a world)
      (right : ComesTo E' y a' world) (results : post a a')
  | stuck (left : ∀ a world, ¬ ComesTo E x a world)
      (right : lax ∨ ∀ a world, ¬ ComesTo E' y a world)

section
variable {E' : Engine} {lax : Prop} {post : α → β → Prop}
  {R : Runner α × Store × World → Runner β × Store × World → Prop}
  {y : Runner β × Store × World} {b : β}

/-- Runners meet where their engines do, if they go on alike once these have come to values. -/
theorem meets_forcing {how how' : Demand} {r r' : Ref} {rest : Value → Script α}
    {rest' : Value → Script β} {c c' : Control × List Frame × Store}
    {R₁ : Control × List Frame × Store → Control × List Frame × Store → Prop}
    (engines : Engine.Meets E E' lax R₁ c c')
    (forcing : ∀ {c c'} (world : World), R₁ c c' → R (.forcing how r rest c.1 c.2.1, c.2.2, world)
      (.forcing how' r' rest' c'.1 c'.2.1, c'.2.2, world))
    (ends : ∀ {v v' s s'}, R₁ (.give v, [], s) (.give v', [], s') →
      ∃ w s₁ w' s₁', (Runner.forcing how r rest (.give v) []).Advance E s w s₁ ∧
        (Runner.forcing how' r' rest' (.give v') []).Advance E' s' w' s₁' ∧
        ∀ world, R (w, s₁, world) (w', s₁', world))
    (world : World) : Meets E E' lax post R (.forcing how r rest c.1 c.2.1, c.2.2, world)
      (.forcing how' r' rest' c'.1 c'.2.1, c'.2.2, world) := by
  cases engines with
  | moved left right related =>
    exact .moved (ticks_of_moves left world) (ticks_of_moves right world) (forcing world related)
  | stuck left right =>
    refine .stuck (fun a after => not_comesTo_of_sticks left world) ?_
    exact right.imp id fun sticks a after => not_comesTo_of_sticks sticks world
  | asked left right related =>
    subst left right
    exact .moved (.single (.ask world rfl)) (.single (.ask world rfl)) (forcing _ (related _))
  | finished left right related =>
    obtain ⟨w, s₁, w', s₁', step, step', goesOn⟩ := ends related
    exact .moved (ticks_of_end left step world) (ticks_of_end right step' world) (goesOn world)

theorem right_of_meets (meets : ∀ x y, R x y → Meets E E' lax post R x y) (related : R x y)
    (left : ComesTo E x a world) : ∃ b, ComesTo E' y b world ∧ post a b := by
  obtain ⟨fuel, answers⟩ := left
  induction fuel using Nat.strongRecOn generalizing x y with
  | ind fuel ih =>
    cases meets x y related with
    | moved lefts rights related =>
      obtain ⟨less, lower, answers⟩ := exists_lt_of_ticks lefts answers
      obtain ⟨b, right, results⟩ := ih less lower related answers
      exact ⟨b, (comesTo_of_ticks rights.to_reflTransGen).2 right, results⟩
    | answered left right results =>
      obtain ⟨rfl, rfl⟩ := comesTo_unique ⟨fuel, answers⟩ left
      exact ⟨_, right, results⟩
    | stuck left _ => exact absurd ⟨fuel, answers⟩ (left a world)

theorem left_of_meets (meets : ∀ x y, R x y → Meets E E' lax post R x y) (strict : ¬ lax)
    (related : R x y) (right : ComesTo E' y b world) : ∃ a, ComesTo E x a world ∧ post a b := by
  obtain ⟨fuel, answers⟩ := right
  induction fuel using Nat.strongRecOn generalizing x y with
  | ind fuel ih =>
    cases meets x y related with
    | moved lefts rights related =>
      obtain ⟨less, lower, answers⟩ := exists_lt_of_ticks rights answers
      obtain ⟨a, left, results⟩ := ih less lower related answers
      exact ⟨a, (comesTo_of_ticks lefts.to_reflTransGen).2 left, results⟩
    | answered left right results =>
      obtain ⟨rfl, rfl⟩ := comesTo_unique ⟨fuel, answers⟩ right
      exact ⟨_, left, results⟩
    | stuck _ right =>
      rcases right with yes | never
      · exact absurd yes strict
      · exact absurd ⟨fuel, answers⟩ (never b world)

end
end Runner
end CallByNeed
