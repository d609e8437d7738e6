import CallByNeed.Proofs.Splicing.Step

/- Taking over the work of tails changes no result. The engine that does and the engine that forces
   every tail in turn answer every session alike, whatever the store holds; only the call sites in
   faults differ, since a cell that is taken over does not pass its value on to another. A session
   demands cells of a store one after another. -/
namespace CallByNeed
open Relation (TransGen)

/-- The values of cells that are demanded one after another. -/
def demandAll : List (Demand × Ref) → Script (List Value)
  | [] => pure []
  | (how, r) :: rest => .demand how r fun v => do pure (v :: (← demandAll rest))

/-- In a session from a store and a world, cells come to these values. -/
def Store.ComesTo (E : Engine) (s : Store) (world : World) (demands : List (Demand × Ref))
    (vs : List Value) (after : World) : Prop :=
  Runner.ComesTo E (.ready (demandAll demands), s, world) vs after

/-- Scripts that only demand cells, the same ones on like values. -/
inductive DemandsLike (M : Manner) {α β : Type} (post : α → β → Prop) :
    Script α → Script β → Prop where
  | done {a : α} {a' : β} (results : post a a') : DemandsLike M post (.done a) (.done a')
  | demand {how : Demand} {r : Ref} {next : Value → Script α} {next' : Value → Script β}
      (rest : ∀ v v', ValueLike M .same v v' → DemandsLike M post (next v) (next' v')) :
      DemandsLike M post (.demand how r next) (.demand how r next')

inductive RunnerMatch (M : Manner) (apart : Prop) {α β : Type} (post : α → β → Prop) :
    Runner α × Store × World → Runner β × Store × World → Prop where
  | ready {script : Script α} {script' : Script β} {s s' : Store} (world : World)
      (scripts : DemandsLike M post script script') (stores : StoreMatch M [] s s') :
      RunnerMatch M apart post (.ready script, s, world) (.ready script', s', world)
  | forcing {how : Demand} {r : Ref} {next : Value → Script α} {next' : Value → Script β}
      {x y : Control × List Frame × Store} (world : World)
      (rest : ∀ v v', ValueLike M .same v v' → DemandsLike M post (next v) (next' v'))
      (machines : MachineMatch M apart x y) :
      RunnerMatch M apart post (.forcing how r next x.1 x.2.1, x.2.2, world)
        (.forcing how r next' y.1 y.2.1, y.2.2, world)

section
variable {M : Manner} {E E' : Engine}

/-- Engines that match at the end have like values. -/
theorem MachineMatch.ends {apart : Prop} {v v' : Value} {s s' : Store}
    (mat : MachineMatch M apart (.give v, [], s) (.give v', [], s')) :
    ValueLike M .same v v' ∧ StoreMatch M [] s s' := by
  obtain ⟨loans, control, stores⟩ := mat
  cases control with
  | give values stack =>
    cases stack with
    | nil => exact ⟨values, stores⟩

theorem demandsLike_bind {α β γ δ : Type} {post : α → β → Prop} {post' : γ → δ → Prop}
    {s : Script α} {s' : Script β} {f : α → Script γ} {f' : β → Script δ}
    (like : DemandsLike M post s s')
    (rest : ∀ a a', post a a' → DemandsLike M post' (f a) (f' a')) :
    DemandsLike M post' (s >>= f) (s' >>= f') := by
  induction like with
  | done results => exact rest _ _ results
  | demand _ ih => exact .demand ih

theorem demandAll_like (demands : List (Demand × Ref)) :
    DemandsLike M (List.Forall₂ (ValueLike M .same)) (demandAll demands) (demandAll demands) := by
  induction demands with
  | nil => exact .done .nil
  | cons d demands ih =>
    refine .demand fun v v' values => demandsLike_bind ih ?_
    intro vs vs' others
    exact .done (.cons values others)

/-- Matching runners go on matching. -/
theorem runner_meets (compares : M.Compares E E') {α β : Type} {post : α → β → Prop}
    {x : Runner α × Store × World} {y : Runner β × Store × World}
    (mat : RunnerMatch M (E.Apart E') post x y) :
    Runner.Meets E E' M.lax post (RunnerMatch M (E.Apart E') post) x y := by
  cases mat with
  | ready world scripts stores =>
    cases scripts with
    | done results =>
      have ended : ∀ (F : Engine) (γ : Type) (c : γ) (t : Store),
          Runner.ComesTo F (.ready (.done c), t, world) c world :=
        fun F γ c t => (Runner.comesTo_of_ended rfl).2 ⟨rfl, rfl⟩
      exact .answered (ended ..) (ended ..) results
    | @demand how r next next' rest =>
      refine .moved (Runner.Advance.demand.ticks world) (Runner.Advance.demand.ticks world) ?_
      exact .forcing (x := (.enter r, [], _)) (y := (.enter r, [], _)) world rest
        ⟨[], .enter r .nil, stores⟩
  | @forcing how r next next' x y world rest machines =>
    refine Runner.meets_forcing (meets_of_match compares machines)
      (fun world mat => .forcing world rest mat) (fun {v v' s s'} mat => ?_) world
    obtain ⟨values, stores⟩ := mat.ends
    have sites := stores.heap.sites r
    rcases compares.reply how (s.heap.site? r) values with
      ⟨u, u', left, right, resumed⟩ | ⟨action, left, right⟩
    · rw [sites] at right
      exact ⟨_, s, _, s', .resume left, .resume right, fun world =>
        .ready world (rest u u' resumed) stores⟩
    · rw [sites] at right
      exact ⟨_, s, _, s', .perform left, .perform right, fun world =>
        .forcing (x := (.enter action, [], s)) (y := (.enter action, [], s')) world rest
          ⟨[], .enter action .nil, stores⟩⟩

theorem storeMatch_refl (admits : M.Admits) (s : Store) : StoreMatch M [] s s := by
  refine ⟨⟨rfl, fun _ => rfl, fun r => .same ?_, by simp, by simp, by simp⟩, rfl, rfl, rfl⟩
  cases s.heap.state? r with
  | none => exact .missing
  | some c =>
    cases c with
    | vacant => exact .vacant
    | pending w => exact .pending (w.like_refl admits)
    | forcing => exact .forcing
    | redirect target => exact .redirect target
    | forced v => exact .forced (v.like_refl admits)

section
variable {s : Store} {world after : World} {demands : List (Demand × Ref)} {vs : List Value}

theorem session_match (compares : M.Compares E E') :
    RunnerMatch M (E.Apart E') (List.Forall₂ (ValueLike M .same))
      (.ready (demandAll demands), s, world) (.ready (demandAll demands), s, world) :=
  .ready world (demandAll_like demands) (storeMatch_refl compares.toAdmits s)

theorem right_of_compares (compares : M.Compares E E')
    (left : s.ComesTo E world demands vs after) :
    ∃ vs', s.ComesTo E' world demands vs' after ∧ List.Forall₂ (ValueLike M .same) vs vs' :=
  Runner.right_of_meets (fun _ _ => runner_meets compares) (session_match compares) left

theorem left_of_compares (compares : M.Compares E E') (strict : ¬ M.lax)
    (right : s.ComesTo E' world demands vs after) :
    ∃ vs', s.ComesTo E world demands vs' after ∧ List.Forall₂ (ValueLike M .same) vs' vs :=
  Runner.left_of_meets (fun _ _ => runner_meets compares) strict (session_match compares) right

/-- A larger bound of loops changes no value. -/
theorem comesTo_of_le {bound more : Nat} {splices : Bool} (le : bound ≤ more)
    (comes : s.ComesTo { bound, splices } world demands vs after) :
    s.ComesTo { bound := more, splices } world demands vs after := by
  have compares : Manner.exact.Compares { bound, splices } { bound := more, splices } := by
    constructor
    case toAdmits => exact ⟨trivial, trivial, fun _ => rfl⟩
    case bounds => exact .inr ⟨trivial, le⟩
    case through =>
      rintro site l _ rfl
      rfl
    case splices => exact .inl rfl
    case longer =>
      rintro ⟨yes, no⟩
      rw [show splices = true from yes] at no
      cases no
  obtain ⟨vs', comes', values⟩ := right_of_compares compares comes
  have same : vs = vs' := by
    rw [← List.forall₂_eq_eq_eq]
    exact values.imp fun _ _ => eq_of_exact
  rw [same]
  exact comes'

end
end

/-! ### Endings

How matching engines end: with like values, and stores that match. -/

open Relation (ReflTransGen TransGen)

section
variable {α : Type} {step : α → α → Prop} {x y z : α}

/-- A deterministic run that ends takes every way that leads from its start. -/
theorem onward_of_ends (unique : Relator.RightUnique step) (run : ReflTransGen step x z)
    (ends : ∀ y, ¬ step z y) (way : TransGen step x y) : ReflTransGen step y z := by
  rcases ReflTransGen.total_of_right_unique unique run way.to_reflTransGen with more | onward
  · rcases more.cases_head with same | ⟨w, first, _⟩
    · exact same ▸ .refl
    · exact absurd first (ends w)
  · exact onward

theorem acc_of_ends (unique : Relator.RightUnique step) (run : ReflTransGen step x z)
    (ends : ∀ y, ¬ step z y) : Acc (fun y x => step x y) x := by
  induction run using ReflTransGen.head_induction_on with
  | refl => exact .intro z fun y first => absurd first (ends y)
  | head first _ ih =>
    refine .intro _ fun y other => ?_
    rw [← unique first other]
    exact ih

end

namespace Engine
variable {M : Manner} {E E' : Engine} {x y : Control × List Frame × Store} {v : Value} {s : Store}

theorem moves_unique (E : Engine) : Relator.RightUnique E.Moves := by
  rintro x ⟨c, frames, s⟩ ⟨c', frames', s'⟩ first second
  have same := (step_of_advance first).symm.trans (step_of_advance second)
  simpa using same

theorem not_moves_of_end (y : Control × List Frame × Store) : ¬ E.Moves (.give v, [], s) y := by
  intro move
  have given : E.Advance (.give v) [] s y.1 y.2.1 y.2.2 := move
  cases given

/-- Who comes to an end with a value does not stick. -/
theorem not_sticks_of_end (moves : ReflTransGen E.Moves x (.give v, [], s)) : ¬ E.Sticks x := by
  rintro ⟨y, h, s', others, halts⟩
  rcases ReflTransGen.total_of_right_unique E.moves_unique moves others with more | more
  · rcases more.cases_head with same | ⟨w, first, _⟩
    · rw [← same] at halts
      cases halts
    · exact not_moves_of_end w first
  · rcases more.cases_head with same | ⟨w, first, _⟩
    · rw [same] at halts
      cases halts
    · rw [step_of_advance first] at halts
      cases halts

/-- Who asks does not come to an end by itself. -/
theorem not_end_of_ask {cell : Ref} {site : Option Location} {q : Request}
    {next : q.Answer → Script Outcome} {frames : List Frame} {s' : Store} :
    ¬ ReflTransGen E.Moves (.run cell site (.ask q next), frames, s') (.give v, [], s) := by
  intro moves
  rcases moves.cases_head with same | ⟨w, first, _⟩
  · cases same
  · have asks : E.Advance (.run cell site (.ask q next)) frames s' w.1 w.2.1 w.2.2 := first
    cases asks

theorem eq_of_end {u : Value} {t : Store}
    (moves : ReflTransGen E.Moves (.give u, [], t) (.give v, [], s)) : u = v ∧ t = s := by
  rcases moves.cases_head with same | ⟨w, first, _⟩
  · cases same
    exact ⟨rfl, rfl⟩
  · exact absurd first (not_moves_of_end w)

theorem eq_of_ends {u : Value} {t : Store} (moves : ReflTransGen E.Moves x (.give v, [], s))
    (others : ReflTransGen E.Moves x (.give u, [], t)) : u = v ∧ t = s := by
  rcases ReflTransGen.total_of_right_unique E.moves_unique moves others with more | more
  · exact (eq_of_end more).imp Eq.symm Eq.symm
  · exact eq_of_end more

theorem right_end_of_match (compares : M.Compares E E') (mat : MachineMatch M (E.Apart E') x y)
    (moves : ReflTransGen E.Moves x (.give v, [], s)) :
    ∃ v' s', ReflTransGen E'.Moves y (.give v', [], s') ∧ ValueLike M .same v v' ∧
      StoreMatch M [] s s' := by
  have order := (acc_of_ends E.moves_unique moves not_moves_of_end).transGen
  induction order generalizing y with
  | intro x _ ih =>
    cases meets_of_match compares mat with
    | @moved x' y' left right mat =>
      have onward := onward_of_ends E.moves_unique moves not_moves_of_end left
      have closer : TransGen (fun y x => E.Moves x y) x' x := Relation.transGen_swap.2 left
      obtain ⟨v', s', moves', values, stores⟩ := ih x' closer mat onward
      exact ⟨v', s', .trans right.to_reflTransGen moves', values, stores⟩
    | stuck left _ => exact absurd left (not_sticks_of_end moves)
    | asked left _ _ =>
      subst left
      exact absurd moves not_end_of_ask
    | finished left right mat =>
      obtain ⟨rfl, rfl⟩ := eq_of_ends moves left
      exact ⟨_, _, right, mat.ends⟩

theorem left_end_of_match (compares : M.Compares E E') (strict : ¬ M.lax)
    (mat : MachineMatch M (E.Apart E') x y) (moves : ReflTransGen E'.Moves y (.give v, [], s)) :
    ∃ v' s', ReflTransGen E.Moves x (.give v', [], s') ∧ ValueLike M .same v' v ∧
      StoreMatch M [] s' s := by
  have order := (acc_of_ends E'.moves_unique moves not_moves_of_end).transGen
  induction order generalizing x with
  | intro y _ ih =>
    cases meets_of_match compares mat with
    | @moved x' y' left right mat =>
      have onward := onward_of_ends E'.moves_unique moves not_moves_of_end right
      have closer : TransGen (fun y x => E'.Moves x y) y' y := Relation.transGen_swap.2 right
      obtain ⟨v', s', moves', values, stores⟩ := ih y' closer mat onward
      exact ⟨v', s', .trans left.to_reflTransGen moves', values, stores⟩
    | stuck _ right => exact absurd (right.resolve_left strict) (not_sticks_of_end moves)
    | asked _ right _ =>
      subst right
      exact absurd moves not_end_of_ask
    | finished left right mat =>
      obtain ⟨rfl, rfl⟩ := eq_of_ends moves right
      exact ⟨_, _, left, mat.ends⟩

end Engine

/-! ### Call sites in faults -/

namespace Value

/-- Equal values, or faults of one cause of which the first has passed fewer sites. -/
inductive Trims : Value → Value → Prop where
  | same (v : Value) : Trims v v
  | error {e e' : Fault} (cause : e.cause = e'.cause) (chain : e.chain.Sublist e'.chain) :
      Trims (.error e) (.error e')

end Value

def Manner.trimmed : Manner where
  chains := List.Sublist
  chains_nil := .slnil
  lax := False
  hosted := True
  strays := True

theorem trims_of_like {v v' : Value} (values : ValueLike .trimmed .same v v') : v.Trims v' := by
  rcases values.eq_or_error with same | ⟨e, e', rfl, rfl, faults⟩
  · rw [same]
    exact .same v'
  · exact .error faults.cause faults.passed.reverse

theorem trimmed_compares (bound : Nat) :
    Manner.trimmed.Compares { bound, splices := true } { bound, splices := false } := by
  constructor
  case toAdmits => exact ⟨trivial, trivial, List.Sublist.refl⟩
  case bounds => exact .inl rfl
  case through => exact fun site l l' shorter => shorter.cons_cons site
  case splices => exact .inr ⟨rfl, rfl⟩
  case longer => exact fun _ site l l' shorter => shorter.cons site

/-- Under every bound of loops, the engine that takes over tails comes to an end of a session exactly
    if the engine does that forces them in turn. Whenever they come to an end, be it under different
    bounds, the values are the same up to sites that only the second one has passed, and so is the
    world. -/
theorem splicing_keeps_meaning (s : Store) (world : World) (demands : List (Demand × Ref)) :
    (∀ bound,
      (∃ vs after, s.ComesTo { bound, splices := true } world demands vs after) ↔
        ∃ vs after, s.ComesTo { bound, splices := false } world demands vs after) ∧
    ∀ bound bound' vs vs' after after',
      s.ComesTo { bound, splices := true } world demands vs after →
      s.ComesTo { bound := bound', splices := false } world demands vs' after' →
        List.Forall₂ Value.Trims vs vs' ∧ after = after' := by
  constructor
  · intro bound
    constructor
    · rintro ⟨vs, after, comes⟩
      obtain ⟨vs', comes', _⟩ := right_of_compares (trimmed_compares bound) comes
      exact ⟨vs', after, comes'⟩
    · rintro ⟨vs, after, comes⟩
      obtain ⟨vs', comes', _⟩ := left_of_compares (trimmed_compares bound) id comes
      exact ⟨vs', after, comes'⟩
  · intro bound bound' vs vs' after after' spliced forced
    have spliced := comesTo_of_le (Nat.le_max_left bound bound') spliced
    have forced := comesTo_of_le (Nat.le_max_right bound bound') forced
    obtain ⟨us, also_forced, values⟩ := right_of_compares (trimmed_compares _) spliced
    obtain ⟨same, same_world⟩ := Runner.comesTo_unique also_forced forced
    rw [← same]
    exact ⟨values.imp fun _ _ => trims_of_like, same_world⟩

def calledFrom (line : Nat) : Location := { name := "", file := "tail", line, column := 1 }

/-- The first cell goes on with the second one, which calls a bool. -/
def tailStore : Store where
  heap := ⟨#[
    { state := .pending { task := .resume (.traced "tail" ⟨1⟩), site := some (calledFrom 1) } },
    { state := .pending { task := .call ⟨2⟩ {}, site := some (calledFrom 2) } },
    .ofValue (.bool true)]⟩

/-- The caller's site is missing from the chain of a tail call, and from nothing else. -/
theorem splicing_keeps_meaning_of_tail :
    let fault (lines : List Nat) : Value :=
      .error { cause := .notCallable .bool, passed := lines.map calledFrom }
    List.Forall₂ Value.Trims [fault [2], fault [2]] [fault [1, 2], fault [2]] := by
  intro fault
  have spliced : tailStore.ComesTo { bound := 1, splices := true } {} [(.pure, ⟨0⟩), (.pure, ⟨1⟩)]
      [fault [2], fault [2]] {} := ⟨20, _, rfl⟩
  have forced : tailStore.ComesTo { bound := 1, splices := false } {}
      [(.pure, ⟨0⟩), (.pure, ⟨1⟩)] [fault [1, 2], fault [2]] {} := ⟨20, _, rfl⟩
  exact ((splicing_keeps_meaning tailStore {} _).2 1 1 _ _ {} {} spliced forced).1

end CallByNeed
