import CallByNeed.Builtin.Run
import CallByNeed.Proofs.Reading.Demands
import CallByNeed.Proofs.Reading.Values

/- Surveys of lists: each element is judged against one before it, and the first that does not suit
   decides. What a survey forces, and in which order, does not depend on its bound; and what it comes
   to is what the judgements of the values come to, whenever they are made. -/
namespace CallByNeed

/-! ### Larger bounds -/

namespace Runner
variable {α : Type} {E : Engine} {w w' x : Runner α} {s s' t : Store} {world world' : World}
variable {o : Except Fault α}

/-- The runners do the same until the first one gives up. Neither does more than demand cells. -/
inductive Outlasts : Runner α → Runner α → Prop where
  | ready {m m' : Script α} (reader : m.IsReader) (like : Alike .exact .same Eq m m') :
      Outlasts (.ready m) (.ready m')
  | forcing {how : Demand} {r : Ref} {next next' : Value → Script α} {c : Control}
      {frames : List Frame} (reader : ∀ v, (next v).IsReader)
      (like : ∀ v, Alike .exact .same Eq (next v) (next' v)) :
      Outlasts (.forcing how r next c frames) (.forcing how r next' c frames)

theorem Outlasts.advance (outlasts : w.Outlasts x) (step : w.Advance E s w' s') :
    ∃ x', x.Advance E s x' s' ∧ w'.Outlasts x' := by
  cases step with
  | demand =>
    cases outlasts with
    | ready reader like =>
      cases reader with
      | demand _ _ readers =>
        cases like with
        | demand _ cells rest =>
          cases cells
          exact ⟨_, .demand, .forcing readers fun v =>
            rest v v (Value.like_refl Manner.exact_admits v)⟩
  | act =>
    cases outlasts with
    | ready reader _ => cases reader
  | engine step =>
    cases outlasts with
    | forcing readers like => exact ⟨_, .engine step, .forcing readers like⟩
  | resume reply =>
    cases outlasts with
    | forcing readers like => exact ⟨_, .resume reply, .ready (readers _) (like _)⟩
  | perform reply =>
    cases outlasts with
    | forcing readers like => exact ⟨_, .perform reply, .forcing readers like⟩

theorem Outlasts.ask {q : Request} {next : q.Answer → Runner α} (outlasts : w.Outlasts x)
    (step : w.step E s = .ask q next s') :
    ∃ next', x.step E s = .ask q next' s' ∧ ∀ a, (next a).Outlasts (next' a) := by
  obtain ⟨rfl, ⟨rest, rfl, rfl⟩ | ⟨how, r, rest, cell, site, script, frames, rfl, rfl⟩⟩ :=
    of_ask step
  · cases outlasts with
    | ready reader _ => cases reader
  · cases outlasts with
    | forcing readers like => exact ⟨_, rfl, fun a => .forcing readers like⟩

theorem Outlasts.ended (outlasts : (Runner.ready (Script.ended o)).Outlasts x) :
    x = .ready (Script.ended o) := by
  cases outlasts with
  | ready _ like =>
    cases o with
    | ok a =>
      cases like with
      | done results =>
        cases results.2 with
        | ok same => rw [same]; rfl
    | error e =>
      cases like with
      | raise results =>
        cases results.2 with
        | error faults => rw [faults.eq_of_exact]; rfl

theorem Leaves.outlasts (leaves : w.Leaves E s world o t world') (outlasts : w.Outlasts x) :
    x.Leaves E s world o t world' := by
  refine Leaves.induct (motive := fun w s world => ∀ x, w.Outlasts x → x.Leaves E s world o t world')
    ?_ ?_ ?_ leaves x outlasts
  · rintro x outlasts
    rw [outlasts.ended]
    exact leaves_of_ended o t world'
  · rintro w w' s s' world step _ ih x outlasts
    obtain ⟨x', step', outlasts⟩ := outlasts.advance step
    exact .of_advance step' (ih x' outlasts)
  · rintro w s s' world q next step ih x outlasts
    obtain ⟨next', step', outlasts⟩ := outlasts.ask step
    exact .of_ask step' (ih _ (outlasts _))

end Runner

/-! ### Surveys -/

/-- How two values are judged within a bound. Only cells are demanded for it, and a larger bound judges
    all that a smaller one does. -/
structure Judge where
  judge : Nat → Value → Value → Script Bool
  reader : ∀ n v u, (judge n v u).IsReader
  alike : ∀ {n m : Nat}, n ≤ m → ∀ v u, Alike .exact .same Eq (judge n v u) (judge m v u)
  /-- The value that the next one is judged against. -/
  keep : Value → Value → Value

/-- Goes through the rest of a list as long as each element suits the value before. -/
def Judge.survey (J : Judge) (n : Nat) : Nat → LazyList → Value → Script Bool
  | 0, _, _ => .stall
  | _ + 1, .nil, _ => pure true
  | bound + 1, .cons head tail, v => do
    let u ← force head
    if ← J.judge n v u then survey J n bound (← forceList tail) (J.keep v u) else pure false

/-- Elements are forced and judged one after the other, and nothing is done in between; the first one
    that does not suit is the last one to be forced. -/
inductive Engine.Surveys (E : Engine) (J : Judge) :
    Value → LazyList → Store → World → Except Fault Bool → Store → World → Prop
  | ended {v : Value} {s : Store} {w : World} : Surveys E J v .nil s w (.ok true) s w
  | faulty {v : Value} {head tail : Ref} {e : Fault} {s t : Store} {w w' : World}
      (element : (force head).Leaves E s w (.error e) t w') :
      Surveys E J v (.cons head tail) s w (.error e) t w'
  | decided {v u : Value} {head tail : Ref} {n : Nat} {o : Except Fault Bool} {s s₁ t : Store}
      {w w₁ w' : World} (element : (force head).Leaves E s w (.ok u) s₁ w₁)
      (judged : (J.judge n v u).Leaves E s₁ w₁ o t w') (decides : o ≠ .ok true) :
      Surveys E J v (.cons head tail) s w o t w'
  | broken {v u : Value} {head tail : Ref} {n : Nat} {e : Fault} {s s₁ s₂ t : Store}
      {w w₁ w₂ w' : World} (element : (force head).Leaves E s w (.ok u) s₁ w₁)
      (judged : (J.judge n v u).Leaves E s₁ w₁ (.ok true) s₂ w₂)
      (next : (forceList tail).Leaves E s₂ w₂ (.error e) t w') :
      Surveys E J v (.cons head tail) s w (.error e) t w'
  | goesOn {v u : Value} {head tail : Ref} {n : Nat} {l : LazyList} {o : Except Fault Bool}
      {s s₁ s₂ s₃ t : Store} {w w₁ w₂ w₃ w' : World}
      (element : (force head).Leaves E s w (.ok u) s₁ w₁)
      (judged : (J.judge n v u).Leaves E s₁ w₁ (.ok true) s₂ w₂)
      (next : (forceList tail).Leaves E s₂ w₂ (.ok l) s₃ w₃)
      (rest : Surveys E J (J.keep v u) l s₃ w₃ o t w') : Surveys E J v (.cons head tail) s w o t w'

/-- The list in a cell is surveyed from its first element on. There may be none. -/
inductive Engine.Checks (E : Engine) (J : Judge) (none : Except Fault Bool) (arguments : Ref)
    (s : Store) (w : World) : Except Fault Bool → Store → World → Prop
  | broken {e : Fault} {t : Store} {w' : World}
      (list : (forceList arguments).Leaves E s w (.error e) t w') :
      Checks E J none arguments s w (.error e) t w'
  | empty {t : Store} {w' : World} (list : (forceList arguments).Leaves E s w (.ok .nil) t w') :
      Checks E J none arguments s w none t w'
  | faulty {head tail : Ref} {e : Fault} {s₁ t : Store} {w₁ w' : World}
      (list : (forceList arguments).Leaves E s w (.ok (.cons head tail)) s₁ w₁)
      (element : (force head).Leaves E s₁ w₁ (.error e) t w') :
      Checks E J none arguments s w (.error e) t w'
  | cut {head tail : Ref} {v : Value} {e : Fault} {s₁ s₂ t : Store} {w₁ w₂ w' : World}
      (list : (forceList arguments).Leaves E s w (.ok (.cons head tail)) s₁ w₁)
      (element : (force head).Leaves E s₁ w₁ (.ok v) s₂ w₂)
      (next : (forceList tail).Leaves E s₂ w₂ (.error e) t w') :
      Checks E J none arguments s w (.error e) t w'
  | surveyed {head tail : Ref} {v : Value} {l : LazyList} {o : Except Fault Bool}
      {s₁ s₂ s₃ t : Store} {w₁ w₂ w₃ w' : World}
      (list : (forceList arguments).Leaves E s w (.ok (.cons head tail)) s₁ w₁)
      (element : (force head).Leaves E s₁ w₁ (.ok v) s₂ w₂)
      (next : (forceList tail).Leaves E s₂ w₂ (.ok l) s₃ w₃)
      (rest : E.Surveys J v l s₃ w₃ o t w') : Checks E J none arguments s w o t w'

/-- Answers what comes of checking the list in a cell. -/
def Judge.check (J : Judge) (none : Script Outcome) (n bound : Nat) (arguments : Ref) :
    Script Outcome := do
  match ← forceList arguments with
  | .nil => none
  | .cons head tail => do
    let v ← force head
    let l ← forceList tail
    answer (.bool (← J.survey n bound l v))

section
variable {E : Engine} {J : Judge} {v u : Value} {l : LazyList} {s t : Store} {w w' : World}
variable {n m : Nat} {o : Except Fault Bool}

theorem Judge.leaves_of_le (J : Judge) (le : n ≤ m) (leaves : (J.judge n v u).Leaves E s w o t w') :
    (J.judge m v u).Leaves E s w o t w' :=
  Runner.Leaves.outlasts leaves (.ready (J.reader n v u) (J.alike le v u))

theorem Engine.surveys_of_leaves {bound : Nat}
    (leaves : (J.survey n bound l v).Leaves E s w o t w') : E.Surveys J v l s w o t w' := by
  induction bound generalizing l v s w with
  | zero => exact absurd leaves Script.not_leaves_stall
  | succ bound ih =>
    cases l with
    | nil =>
      obtain ⟨rfl, rfl, rfl⟩ := Script.leaves_pure_iff.1 leaves
      exact .ended
    | cons head tail =>
      rcases Script.leaves_bind_iff.1 leaves with ⟨u, s₁, w₁, element, leaves⟩ | ⟨e, element, rfl⟩
      · rcases Script.leaves_bind_iff.1 leaves with ⟨b, s₂, w₂, judged, leaves⟩ | ⟨e, judged, rfl⟩
        · cases b with
          | false =>
            obtain ⟨rfl, rfl, rfl⟩ := Script.leaves_pure_iff.1 leaves
            exact .decided element judged nofun
          | true =>
            rcases Script.leaves_bind_iff.1 leaves with ⟨l, s₃, w₃, next, leaves⟩ | ⟨e, next, rfl⟩
            · exact .goesOn element judged next (ih leaves)
            · exact .broken element judged next
        · exact .decided element judged nofun
      · exact .faulty element

/-- The exact course of a survey is taken with any bound that is large enough. -/
theorem Engine.Surveys.leaves (surveys : E.Surveys J v l s w o t w') :
    ∃ k, ∀ n bound, k ≤ n → k ≤ bound → (J.survey n bound l v).Leaves E s w o t w' := by
  induction surveys with
  | ended => exact exists_bounds_succ ⟨0, fun _ _ _ _ => Script.leaves_pure⟩
  | faulty element =>
    refine exists_bounds_succ ⟨0, fun _ _ _ _ => ?_⟩
    exact Script.leaves_bind_iff.2 (.inr ⟨_, element, rfl⟩)
  | @decided _ _ _ _ k o _ _ _ _ _ _ element judged decides =>
    refine exists_bounds_succ ⟨k, fun n bound enough _ => element.bind ?_⟩
    have judged := J.leaves_of_le (by omega : k ≤ n) judged
    cases o with
    | error e => exact Script.leaves_bind_iff.2 (.inr ⟨e, judged, rfl⟩)
    | ok b =>
      cases b with
      | false => exact judged.bind Script.leaves_pure
      | true => exact absurd rfl decides
  | @broken _ _ _ _ k _ _ _ _ _ _ _ _ _ element judged next =>
    refine exists_bounds_succ ⟨k, fun n bound enough _ => element.bind ?_⟩
    refine (J.leaves_of_le (by omega : k ≤ n) judged).bind ?_
    exact Script.leaves_bind_iff.2 (.inr ⟨_, next, rfl⟩)
  | @goesOn _ _ _ _ k _ _ _ _ _ _ _ _ _ _ _ _ element judged next _ ih =>
    obtain ⟨k', leaves⟩ := ih
    refine exists_bounds_succ ⟨max k k', fun n bound enough long => element.bind ?_⟩
    refine (J.leaves_of_le (by omega : k ≤ n) judged).bind (next.bind ?_)
    exact leaves n bound (by omega) (by omega)

/-- The value of a body that answers a truth value. -/
def Outcome.ofBool (o : Except Fault Bool) : Except Fault Outcome := o.map fun b => .value (.bool b)

variable {none : Except Fault Bool} {empty : Script Outcome} {arguments : Ref}
variable {x : Except Fault Outcome}

theorem Engine.checks_of_leaves (comes : ∀ E s, empty.Comes E s (Outcome.ofBool none) s)
    {bound : Nat} (leaves : (J.check empty n bound arguments).Leaves E s w x t w') :
    ∃ o, x = Outcome.ofBool o ∧ E.Checks J none arguments s w o t w' := by
  rcases Script.leaves_bind_iff.1 leaves with ⟨l, s₁, w₁, list, leaves⟩ | ⟨e, list, rfl⟩
  · cases l with
    | nil =>
      obtain ⟨rfl, rfl, rfl⟩ := (comes E s₁).leaves_iff.1 leaves
      exact ⟨none, rfl, .empty list⟩
    | cons head tail =>
      rcases Script.leaves_bind_iff.1 leaves with ⟨v, s₂, w₂, element, leaves⟩ | ⟨e, element, rfl⟩
      · rcases Script.leaves_bind_iff.1 leaves with ⟨l, s₃, w₃, next, leaves⟩ | ⟨e, next, rfl⟩
        · rcases Script.leaves_bind_iff.1 leaves with ⟨b, s₄, w₄, rest, leaves⟩ | ⟨e, rest, rfl⟩
          · obtain ⟨rfl, rfl, rfl⟩ := Script.leaves_pure_iff.1 leaves
            exact ⟨.ok b, rfl, .surveyed list element next (surveys_of_leaves rest)⟩
          · exact ⟨.error e, rfl, .surveyed list element next (surveys_of_leaves rest)⟩
        · exact ⟨.error e, rfl, .cut list element next⟩
      · exact ⟨.error e, rfl, .faulty list element⟩
  · exact ⟨.error e, rfl, .broken list⟩

theorem Engine.Checks.leaves (comes : ∀ E s, empty.Comes E s (Outcome.ofBool none) s)
    (checks : E.Checks J none arguments s w o t w') :
    ∃ k, ∀ n bound, k ≤ n → k ≤ bound →
      (J.check empty n bound arguments).Leaves E s w (Outcome.ofBool o) t w' := by
  cases checks with
  | broken list => exact ⟨0, fun _ _ _ _ => Script.leaves_bind_iff.2 (.inr ⟨_, list, rfl⟩)⟩
  | empty list => exact ⟨0, fun _ _ _ _ => list.bind (comes E t).leaves⟩
  | faulty list element =>
    refine ⟨0, fun _ _ _ _ => list.bind ?_⟩
    exact Script.leaves_bind_iff.2 (.inr ⟨_, element, rfl⟩)
  | cut list element next =>
    refine ⟨0, fun _ _ _ _ => list.bind (element.bind ?_)⟩
    exact Script.leaves_bind_iff.2 (.inr ⟨_, next, rfl⟩)
  | surveyed list element next rest =>
    obtain ⟨k, leaves⟩ := rest.leaves
    refine ⟨k, fun n bound enough long => list.bind (element.bind (next.bind ?_))⟩
    cases o with
    | ok b => exact (leaves n bound enough long).bind Script.leaves_pure
    | error e => exact Script.leaves_bind_iff.2 (.inr ⟨e, leaves n bound enough long, rfl⟩)

end

/-! ### Judgements of known values -/

/-- The list has come to its end, and its elements have been forced to these values, none of which is a
    fault. -/
inductive Heap.SpellsList (h : Heap) : LazyList → List Value → Prop
  | nil : SpellsList h .nil []
  | cons {head tail : Ref} {v : Value} {l : LazyList} {vs : List Value}
      (element : (force head).Reads h (.ok v)) (next : h.Yields tail (.list l))
      (rest : SpellsList h l vs) : SpellsList h (.cons head tail) (v :: vs)

def Heap.Spells (h : Heap) (r : Ref) (vs : List Value) : Prop :=
  ∃ l, h.Yields r (.list l) ∧ h.SpellsList l vs

/-- The judgements of values, one after the other, come to this. -/
inductive Heap.Judges (h : Heap) (J : Judge) : Value → List Value → Except Fault Bool → Prop
  | all {v : Value} : Judges h J v [] (.ok true)
  | decided {v u : Value} {us : List Value} {n : Nat} {o : Except Fault Bool}
      (judged : (J.judge n v u).Reads h o) (decides : o ≠ .ok true) : Judges h J v (u :: us) o
  | goesOn {v u : Value} {us : List Value} {n : Nat} {o : Except Fault Bool}
      (judged : (J.judge n v u).Reads h (.ok true)) (rest : Judges h J (J.keep v u) us o) :
      Judges h J v (u :: us) o

section
variable {E : Engine} {J : Judge} {v u : Value} {vs : List Value} {l : LazyList} {s t : Store}
variable {w w' : World} {n m : Nat} {o p : Except Fault Bool} {h : Heap} {r : Ref}

theorem Judge.reads_of_le (J : Judge) (le : n ≤ m) (reads : (J.judge n v u).Reads h o) :
    (J.judge m v u).Reads h o :=
  reads.of_alike (J.alike le v u)

/-- Judgements within two bounds agree. -/
theorem Judge.reads_unique (J : Judge) (first : (J.judge n v u).Reads h o)
    (second : (J.judge m v u).Reads h p) : o = p :=
  (J.reads_of_le (Nat.le_max_left n m) first).unique (J.reads_of_le (Nat.le_max_right n m) second)

theorem Heap.Judges.unique (first : h.Judges J v vs o) (second : h.Judges J v vs p) : o = p := by
  induction first with
  | all =>
    cases second
    rfl
  | decided judged decides =>
    cases second with
    | decided judged' _ => exact J.reads_unique judged judged'
    | goesOn judged' _ => exact absurd (J.reads_unique judged judged') decides
  | goesOn judged _ ih =>
    cases second with
    | decided judged' decides => exact absurd (J.reads_unique judged' judged) decides
    | goesOn _ rest => exact ih rest

theorem Engine.Surveys.before (surveys : E.Surveys J v l s w o t w') : s.heap.Before t.heap := by
  induction surveys with
  | ended => exact Heap.before_refl _
  | faulty element => exact ((Script.isReader_force _).reads_of_leaves element).1
  | decided element judged _ =>
    exact ((Script.isReader_force _).reads_of_leaves element).1.trans
      ((J.reader _ _ _).reads_of_leaves judged).1
  | broken element judged next =>
    have first := ((Script.isReader_force _).reads_of_leaves element).1
    have second := ((J.reader _ _ _).reads_of_leaves judged).1
    exact first.trans (second.trans ((Script.isReader_forceList _).reads_of_leaves next).1)
  | goesOn element judged next _ ih =>
    have first := ((Script.isReader_force _).reads_of_leaves element).1
    have second := ((J.reader _ _ _).reads_of_leaves judged).1
    exact first.trans (second.trans
      (((Script.isReader_forceList _).reads_of_leaves next).1.trans ih))

/-- An element is forced to its value. -/
theorem Script.eq_of_leaves_force {x : Except Fault Value} (element : (force r).Reads h (.ok v))
    (leaves : (force r).Leaves E s w x t w') (before : t.heap.Before h) : x = .ok v :=
  (((isReader_force r).reads_of_leaves leaves).2.before before).unique element

theorem Script.eq_of_leaves_forceList {x : Except Fault LazyList} (known : h.Yields r (.list l))
    (leaves : (forceList r).Leaves E s w x t w') (before : t.heap.Before h) : x = .ok l :=
  (((isReader_forceList r).reads_of_leaves leaves).2.before before).unique (reads_forceList known)

theorem Engine.Surveys.judges (surveys : E.Surveys J v l s w o t w') (later : t.heap.Before h)
    (spells : h.SpellsList l vs) : h.Judges J v vs o := by
  induction surveys generalizing vs with
  | ended =>
    cases spells
    exact .all
  | faulty element =>
    cases spells with
    | cons known _ _ => cases Script.eq_of_leaves_force known element later
  | decided element judged decides =>
    cases spells with
    | cons known _ _ =>
      obtain ⟨second, reads⟩ := (J.reader _ _ _).reads_of_leaves judged
      cases Script.eq_of_leaves_force known element (second.trans later)
      exact .decided (reads.before later) decides
  | broken element judged next =>
    cases spells with
    | cons _ known _ => cases Script.eq_of_leaves_forceList known next later
  | goesOn element judged next rest ih =>
    cases spells with
    | cons known known' others =>
      have last := rest.before.trans later
      have third := ((Script.isReader_forceList _).reads_of_leaves next).1.trans last
      obtain ⟨second, reads⟩ := (J.reader _ _ _).reads_of_leaves judged
      cases Script.eq_of_leaves_force known element (second.trans third)
      cases Script.eq_of_leaves_forceList known' next last
      exact .goesOn (reads.before third) (ih later others)

/-- Where all is known a survey takes no work. -/
theorem Heap.Judges.surveys (judges : s.heap.Judges J v vs o) (spells : s.heap.SpellsList l vs) :
    E.Surveys J v l s w o s w := by
  induction judges generalizing l with
  | all =>
    cases spells
    exact .ended
  | decided judged decides =>
    cases spells with
    | cons element _ _ => exact .decided element.leaves judged.leaves decides
  | goesOn judged _ ih =>
    cases spells with
    | cons element next rest =>
      exact .goesOn element.leaves judged.leaves (Script.reads_forceList next).leaves (ih rest)

variable {none : Except Fault Bool} {arguments : Ref}

theorem Engine.Checks.judges (checks : E.Checks J none arguments s w o t w')
    (later : t.heap.Before h) (spells : h.Spells arguments (v :: vs)) : h.Judges J v vs o := by
  obtain ⟨_, known, spells⟩ := spells
  cases spells with
  | cons value next rest =>
    cases checks with
    | broken list => cases Script.eq_of_leaves_forceList known list later
    | empty list => cases Script.eq_of_leaves_forceList known list later
    | faulty list element =>
      have second := ((Script.isReader_force _).reads_of_leaves element).1.trans later
      cases Script.eq_of_leaves_forceList known list second
      cases Script.eq_of_leaves_force value element later
    | cut list element tail =>
      have third := ((Script.isReader_forceList _).reads_of_leaves tail).1.trans later
      have second := ((Script.isReader_force _).reads_of_leaves element).1.trans third
      cases Script.eq_of_leaves_forceList known list second
      cases Script.eq_of_leaves_forceList next tail later
    | surveyed list element tail surveys =>
      have last := surveys.before.trans later
      have third := ((Script.isReader_forceList _).reads_of_leaves tail).1.trans last
      have second := ((Script.isReader_force _).reads_of_leaves element).1.trans third
      cases Script.eq_of_leaves_forceList known list second
      cases Script.eq_of_leaves_force value element third
      cases Script.eq_of_leaves_forceList next tail last
      exact surveys.judges later rest

theorem Heap.Judges.checks (judges : s.heap.Judges J v vs o)
    (spells : s.heap.Spells arguments (v :: vs)) : E.Checks J none arguments s w o s w := by
  obtain ⟨_, known, spells⟩ := spells
  cases spells with
  | cons value next rest =>
    exact .surveyed (Script.reads_forceList known).leaves value.leaves
      (Script.reads_forceList next).leaves (judges.surveys rest)

end

end CallByNeed
