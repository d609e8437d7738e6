import CallByNeed.Proofs.Accounts.Paths
import CallByNeed.Proofs.Binding.Evaluation
import CallByNeed.Proofs.Binding.Spreading

/- Binding takes no more from a spread list than it has to: one cell for each positional parameter
   without an explicit argument, and one more to see that nothing is left, unless a parameter takes
   what is left. What is behind those cells is of no importance: with anything else there, binding
   ends as it does, and what it gives the parameters is the same but for what follows there. -/
namespace CallByNeed

/-- So many cells of a spread list have been drawn, one after the other, and this is left of it. In
    between, other cells have been demanded. -/
inductive Arguments.Draws (other : Ref → Prop) (spread : Option Ref) :
    Nat → Option Ref → List (Ref × Value) → Prop
  | start : Draws other spread 0 spread []
  | cell {n : Nat} {l head tail : Ref} {log : List (Ref × Value)}
      (drawn : Draws other spread n (some l) log) :
      Draws other spread (n + 1) (some tail) (log ++ [(l, .list (.cons head tail))])
  | last {n : Nat} {l : Ref} {v : Value} {log : List (Ref × Value)}
      (drawn : Draws other spread n (some l) log) (no : ¬ v.IsCell) :
      Draws other spread (n + 1) none (log ++ [(l, v)])
  | other {n : Nat} {left : Option Ref} {r : Ref} {v : Value} {log : List (Ref × Value)}
      (drawn : Draws other spread n left log) (is : other r) :
      Draws other spread n left (log ++ [(r, v)])

/-- One cell of both lists, as far as its head goes, or one value that is no cell. -/
inductive Value.Opens (rest : Ref → Ref → Prop) : Value → Value → Prop
  | cell {head tail tail' : Ref} (tails : rest tail tail') :
      Opens rest (.list (.cons head tail)) (.list (.cons head tail'))
  | other {v : Value} (no : ¬ v.IsCell) : Opens rest v v

namespace Course
variable {ι κ : Type}

/-- Whatever the first cell answers at a later time, the second one answers alike at any later time
    of its own course. -/
def Matches (C : Course ι) (C' : Course κ) (E : Engine)
    (alike : Store → Store → Value → Value → Prop) (s s' : Store) (r r' : Ref) : Prop :=
  ∀ t t', C.later s t → C'.later s' t' → ∀ v u, (observe r).Comes E t (.ok v) u →
    ∃ v' u', (observe r').Comes E t' (.ok v') u' ∧ C.later t u ∧ C'.later t' u' ∧ alike u u' v v'

/-- Both answer the same. -/
def Agrees (C : Course ι) (C' : Course κ) (E : Engine) : Store → Store → Ref → Ref → Prop :=
  C.Matches C' E fun _ _ v v' => v' = v

/-- So many cells of two lists have the same heads; this is how what is behind them is related. -/
def Follows (C : Course ι) (C' : Course κ) (E : Engine) (behind : Ref → Ref → Prop) :
    Nat → Store → Store → Ref → Ref → Prop
  | 0, _, _ => behind
  | n + 1, s, s' =>
    C.Matches C' E (fun t t' => Value.Opens (C.Follows C' E behind n t t')) s s'

/-- The cell was made at some time between two stores. -/
def Made (C : Course ι) (s t : Store) (r : Ref) (c : Cell) : Prop :=
  ∃ u, C.later s u ∧ C.later u t ∧ u.heap.state? r = some c.state

end Course

/-- The same fault, or answers that are alike. -/
inductive Script.EndsAlike {α : Type} (alike : α → α → Prop) :
    Except Fault α → Except Fault α → Prop
  | fault (e : Fault) : EndsAlike alike (.error e) (.error e)
  | answer {a a' : α} (holds : alike a a') : EndsAlike alike (.ok a) (.ok a')

/-- How binding treats the spread list of these arguments. -/
structure Signature.BindsLazily (sig : Signature Default) (a : Arguments) : Prop where
  /-- However far binding has come, it has demanded that many cells of the list at most. All else
      that it demands are dictionaries, given ones or some it has made. -/
  draws : ∀ g h log m, (sig.bind a).Goes g h log m →
    ∃ n left, n ≤ sig.lookahead a.positionals.length ∧ Arguments.Draws
      (fun r => r ∈ a.dicts ∨ ∃ d, g.state? r = some (.forced (.dict d))) a.spread n left log
  /-- With another list that has the same heads so far, it ends alike. -/
  replaces : ∀ {ι κ : Type} (C : Course ι) (C' : Course κ) (E : Engine) (behind : Ref → Ref → Prop)
    (s s' : Store) (spread : Option Ref) (o : Except Fault (List Ref)) (t : Store),
    (∀ d ∈ a.dicts, C.Agrees C' E s s' d d) →
    Option.Rel (C.Follows C' E behind (sig.lookahead a.positionals.length) s s') a.spread spread →
    (sig.bind a).Comes E s o t → ∃ o' t', (sig.bind { a with spread }).Comes E s' o' t' ∧
      C.later s t ∧ C'.later s' t' ∧ Script.EndsAlike (Parameter.AllAlike behind
        (fun r r' c c' => C.Made s t r c ∧ C'.Made s' t' r' c') sig.parameters) o o'
  /-- So it succeeds with both lists or with none, and fails with the same fault. -/
  decides : ∀ {ι κ : Type} (C : Course ι) (C' : Course κ) (E : Engine)
    (behind : Ref → Ref → Prop) (s s' : Store) (spread : Option Ref),
    (∀ d ∈ a.dicts, C.Agrees C' E s s' d d ∧ C'.Agrees C E s' s d d) →
    Option.Rel (C.Follows C' E behind (sig.lookahead a.positionals.length) s s') a.spread spread →
    Option.Rel (C'.Follows C E (flip behind) (sig.lookahead a.positionals.length) s' s)
      spread a.spread →
    ((∃ rs t, (sig.bind a).Comes E s (.ok rs) t) ↔
        ∃ rs t, (sig.bind { a with spread }).Comes E s' (.ok rs) t) ∧
      ∀ e, (∃ t, (sig.bind a).Comes E s (.error e) t) ↔
        ∃ t, (sig.bind { a with spread }).Comes E s' (.error e) t

section
variable {α : Type} {known : Ref → Prop} {post : Stage → α → α → Prop} {x : Stage}
variable {m m' : Script α}

/-! ### What is demanded -/

/-- Whoever goes in step with another one draws what the stage lets it draw. -/
theorem Script.InStep.draws {g h : Heap} {log : List (Ref × Value)} {m₁ : Script α}
    (inStep : m.InStep known post x m') (path : m.Goes g h log m₁) :
    (∀ w ∈ x.made, g.state? w.left = some w.leftCell.state) →
      ∃ n y m₁', m₁.InStep known post y m₁' ∧ n + y.budget = x.budget ∧
        (∀ w ∈ y.made, g.state? w.left = some w.leftCell.state) ∧ Arguments.Draws
          (fun r => known r ∨ ∃ d, g.state? r = some (.forced (.dict d))) x.left n y.left log := by
  intro made
  induction path with
  | start => exact ⟨0, x, m', inStep, Nat.zero_add _, made, .start⟩
  | @demand log how r next v _ _ ih =>
    obtain ⟨n, y, _, ahead, budget, made, drawn⟩ := ih
    cases ahead with
    | draw some_left left right cell other =>
      rw [left] at drawn
      have budget : n + 1 + (y.budget - 1) = x.budget := by omega
      by_cases is_cell : v.IsCell
      · obtain ⟨head, tail, rfl⟩ := Value.exists_of_isCell is_cell
        exact ⟨n + 1, _, _, cell head tail tail, budget, made, .cell drawn⟩
      · exact ⟨n + 1, _, _, other v is_cell, budget, made, .last drawn is_cell⟩
    | demand same rest =>
      refine ⟨n, y, _, rest v, budget, made, .other drawn ?_⟩
      cases same with
      | one is => exact .inl is
      | made cells => exact .inr ⟨_, made _ cells⟩
  | @alloc log c next r _ holds ih =>
    obtain ⟨n, y, _, ahead, budget, made, drawn⟩ := ih
    cases ahead with
    | alloc rest =>
      refine ⟨n, _, _, rest r r, budget, ?_, drawn⟩
      intro w mem
      rcases List.mem_cons.1 mem with rfl | mem
      · exact holds
      · exact made w mem
  | act _ other ih =>
    obtain ⟨n, y, _, ahead, _⟩ := ih
    cases ahead with
    | alloc => exact absurd rfl (other _)
  | ask _ ih =>
    obtain ⟨n, y, _, ahead, _⟩ := ih
    cases ahead

end

/-! ### What binding comes to -/

section
variable {ι κ : Type} {C : Course ι} {C' : Course κ} {E : Engine} {behind : Ref → Ref → Prop}
variable {s s' t t' u u' : Store} {r r' : Ref} {n : Nat}

namespace Course

theorem Matches.later {alike : Store → Store → Value → Value → Prop}
    (matches_ : C.Matches C' E alike s s' r r') (after : C.later s t) (after' : C'.later s' t') :
    C.Matches C' E alike t t' r r' :=
  fun u u' more more' => matches_ u u' (C.trans after more) (C'.trans after' more')

theorem Follows.later (follows : C.Follows C' E behind n s s' r r') (after : C.later s t)
    (after' : C'.later s' t') : C.Follows C' E behind n t t' r r' := by
  cases n with
  | zero => exact follows
  | succ n => exact Matches.later follows after after'

/-- Cells that are forced already answer their values at all times. -/
theorem matches_of_forced {alike : Store → Store → Value → Value → Prop} {v v' : Value}
    (known : t.heap.state? r = some (.forced v)) (known' : t'.heap.state? r' = some (.forced v'))
    (plain : v.IsPlain) (plain' : v'.IsPlain) (holds : ∀ u u', alike u u' v v') :
    C.Matches C' E alike t t' r r' := by
  have reply {w : Value} (plain : w.IsPlain) (site : Option Location) :
      Demand.pure.reply site w = .resume w := by
    cases w with
    | effect | error => exact plain.elim
    | _ => rfl
  intro u u' after after' w w' comes
  have forced := C.forced after known
  have forced' := C'.forced after' known'
  cases comes with
  | demand first replied rest =>
    cases first with
    | found same =>
      cases forced.symm.trans same
      cases (reply plain _).symm.trans replied
      cases rest
      refine ⟨v', u', .demand (.found forced') (reply plain' _) .done, ?_⟩
      exact ⟨C.refl u, C'.refl u', holds _ _⟩
    | follow redirect => cases forced.symm.trans redirect
    | start pending => cases forced.symm.trans pending

theorem Made.until {c : Cell} (made : C.Made s t r c) (after : C.later t u) : C.Made s u r c := by
  obtain ⟨w, first, rest, holds⟩ := made
  exact ⟨w, first, C.trans rest after, holds⟩

theorem Made.forced {v : Value} (made : C.Made s t r (.ofValue v)) :
    t.heap.state? r = some (.forced v) := by
  obtain ⟨w, _, rest, holds⟩ := made
  exact C.forced rest holds

theorem made_alloc (c : Cell) (since : C.later s t) :
    C.Made s (t.act (.alloc c)).2 (t.act (.alloc c)).1 c :=
  ⟨_, C.trans since (C.allocs t c), C.refl _, by simp [Store.act, Heap.state?_alloc]⟩

end Course

/-- What a stage says about stores that two scripts have come to. -/
structure Stage.Holds (C : Course ι) (C' : Course κ) (E : Engine) (behind : Ref → Ref → Prop)
    (s s' : Store) (known : Ref → Prop) (x : Stage) (t t' : Store) : Prop where
  since : C.later s t
  since' : C'.later s' t'
  made : ∀ r r' c c', x.Made r r' c c' → C.Made s t r c ∧ C'.Made s' t' r' c'
  spread : Option.Rel (C.Follows C' E behind x.budget t t') x.left x.right
  dicts : ∀ d, known d → C.Agrees C' E t t' d d

namespace Stage
variable {known : Ref → Prop} {x : Stage}

theorem Holds.later (holds : x.Holds C C' E behind s s' known t t') (after : C.later t u)
    (after' : C'.later t' u') : x.Holds C C' E behind s s' known u u' where
  since := C.trans holds.since after
  since' := C'.trans holds.since' after'
  made r r' c c' is := by
    obtain ⟨made, made'⟩ := holds.made r r' c c' is
    exact ⟨made.until after, made'.until after'⟩
  spread := by
    have spread := holds.spread
    generalize x.left = left, x.right = right at spread
    cases spread with
    | some follows => exact .some (follows.later after after')
    | none => exact .none
  dicts d is := (holds.dicts d is).later after after'

theorem Holds.draw {left right : Option Ref} (holds : x.Holds C C' E behind s s' known t t')
    (spread : Option.Rel (C.Follows C' E behind (x.budget - 1) t t') left right) :
    (x.draw left right).Holds C C' E behind s s' known t t' :=
  ⟨holds.since, holds.since', holds.made, spread, holds.dicts⟩

theorem Holds.alloc (holds : x.Holds C C' E behind s s' known t t') (c c' : Cell) :
    (x.make ⟨(t.act (.alloc c)).1, (t'.act (.alloc c')).1, c, c'⟩).Holds C C' E behind s s' known
      (t.act (.alloc c)).2 (t'.act (.alloc c')).2 := by
  have later := holds.later (C.allocs t c) (C'.allocs t' c')
  refine ⟨later.since, later.since', ?_, later.spread, later.dicts⟩
  intro r r' d d' is
  rcases List.mem_cons.1 is with same | is
  · cases same
    exact ⟨Course.made_alloc c holds.since, Course.made_alloc c' holds.since'⟩
  · exact later.made r r' d d' is

theorem Holds.agrees (holds : x.Holds C C' E behind s s' known t t')
    (same : SameDict known x.Made r r') : C.Agrees C' E t t' r r' := by
  cases same with
  | one is => exact holds.dicts r is
  | made cells =>
    obtain ⟨made, made'⟩ := holds.made _ _ _ _ cells
    exact Course.matches_of_forced made.forced made'.forced trivial trivial fun _ _ => rfl

end Stage

/-- Whatever a script comes to, one that goes in step with it comes to likewise. -/
theorem Script.InStep.comes {α : Type} {known : Ref → Prop} {post : Stage → α → α → Prop}
    {x : Stage} {m m' : Script α} (inStep : m.InStep known post x m') {o : Except Fault α}
    (holds : x.Holds C C' E behind s s' known t t') (comes : m.Comes E t o u) :
    ∃ o' u', m'.Comes E t' o' u' ∧ C.later s u ∧ C'.later s' u' ∧ Script.EndsAlike
      (fun a a' => ∃ y : Stage, y.Holds C C' E behind s s' known u u' ∧ post y a a') o o' := by
  induction inStep generalizing t t' with
  | done post =>
    cases comes
    exact ⟨_, t', .done, holds.since, holds.since', .answer ⟨_, holds, post⟩⟩
  | raise =>
    cases comes
    exact ⟨_, t', .raise, holds.since, holds.since', .fault _⟩
  | @draw x l l' next next' some_left left right _ _ ih ih' =>
    obtain ⟨n, budget⟩ := Nat.exists_eq_add_of_lt some_left
    have follows := holds.spread
    rw [left, right, budget, Nat.zero_add] at follows
    cases follows with
    | some follows =>
      cases comes with
      | demand first reply rest =>
        obtain ⟨v', w', first', after, after', opens⟩ :=
          follows t t' (C.refl t) (C'.refl t') _ _ (.demand first reply .done)
        have later := holds.later after after'
        cases opens with
        | cell tails =>
          obtain ⟨o', u', rest', ends⟩ := ih _ _ _ (later.draw (.some (by simpa [budget]))) rest
          exact ⟨o', u', first'.bind rest', ends⟩
        | other no =>
          obtain ⟨o', u', rest', ends⟩ := ih' _ no (later.draw .none) rest
          exact ⟨o', u', first'.bind rest', ends⟩
  | demand same _ ih =>
    cases comes with
    | demand first reply rest =>
      obtain ⟨_, w', first', after, after', rfl⟩ :=
        holds.agrees same t t' (C.refl t) (C'.refl t') _ _ (.demand first reply .done)
      obtain ⟨o', u', rest', ends⟩ := ih _ (holds.later after after') rest
      exact ⟨o', u', first'.bind rest', ends⟩
  | alloc _ ih =>
    cases comes with
    | act rest =>
      obtain ⟨o', u', rest', ends⟩ := ih _ _ (holds.alloc _ _) rest
      exact ⟨o', u', .act rest', ends⟩

end

/-! ### Bindings -/

section
variable {sig : Signature Default} {a : Arguments}

/-- The stage at which two bindings begin. -/
def Arguments.start (a : Arguments) (spread : Option Ref) (budget : Nat) : Stage :=
  { budget, left := a.spread, right := spread, made := [] }

theorem Signature.inStep_start (sig : Signature Default) (a : Arguments) {spread : Option Ref}
    (both : a.spread.isSome = spread.isSome) :
    (sig.bind a).InStep (· ∈ a.dicts)
      (fun y rs rs' => Parameter.AllAlike y.Open y.Made sig.parameters rs rs')
      (a.start spread (sig.lookahead a.positionals.length)) (sig.bind { a with spread }) := by
  refine sig.inStep_bind ?_
  obtain ⟨positionals, left, keywords, dicts⟩ := a
  refine .intro ?_ (List.forall₂_same.2 fun d mem => .one mem)
  rw [sig.asks_parameters]
  cases left <;> cases spread <;> cases both
  · exact .none
  · exact .some rfl rfl rfl

theorem Signature.bind_replaces {ι κ : Type} {C : Course ι} {C' : Course κ} {E : Engine}
    {behind : Ref → Ref → Prop} {s s' t : Store} {spread : Option Ref} {o : Except Fault (List Ref)}
    (dicts : ∀ d ∈ a.dicts, C.Agrees C' E s s' d d)
    (follows : Option.Rel (C.Follows C' E behind (sig.lookahead a.positionals.length) s s')
      a.spread spread) (comes : (sig.bind a).Comes E s o t) :
    ∃ o' t', (sig.bind { a with spread }).Comes E s' o' t' ∧ C.later s t ∧ C'.later s' t' ∧
      Script.EndsAlike (Parameter.AllAlike behind
        (fun r r' c c' => C.Made s t r c ∧ C'.Made s' t' r' c') sig.parameters) o o' := by
  have both : a.spread.isSome = spread.isSome := by
    generalize a.spread = left at follows
    cases follows <;> rfl
  have starts : (a.start spread (sig.lookahead a.positionals.length)).Holds C C' E behind s s'
      (· ∈ a.dicts) s s' :=
    ⟨C.refl s, C'.refl s', fun _ _ _ _ is => absurd is List.not_mem_nil, follows, dicts⟩
  obtain ⟨o', t', comes', later, later', ends⟩ := (sig.inStep_start a both).comes starts comes
  refine ⟨o', t', comes', later, later', ?_⟩
  cases ends with
  | fault e => exact .fault e
  | answer holds =>
    obtain ⟨y, holds, pairs, same, same', alike⟩ := holds
    refine .answer ⟨pairs, same, same', alike.imp fun p pair alike => ?_⟩
    refine alike.imp holds.made fun l l' open_ => ?_
    -- No more may be drawn, so what is left of the lists is what is behind.
    obtain ⟨spent, left, right⟩ := open_
    have follows := holds.spread
    rw [spent, left, right] at follows
    cases follows with
    | some behind => exact behind

/-- Binding consumes a spread list lazily. -/
theorem binding_draws_lazily (sig : Signature Default) (a : Arguments) : sig.BindsLazily a where
  draws g h log m path := by
    obtain ⟨n, y, _, _, budget, _, drawn⟩ :=
      (sig.inStep_start a rfl).draws path fun _ mem => absurd mem List.not_mem_nil
    exact ⟨n, y.left, Nat.le.intro budget, drawn⟩
  replaces C C' E behind s s' spread o t dicts follows comes :=
    Signature.bind_replaces dicts follows comes
  decides C C' E behind s s' spread dicts follows follows' := by
    have there {o t} (comes : (sig.bind a).Comes E s o t) :=
      Signature.bind_replaces (fun d mem => (dicts d mem).1) follows comes
    have back {o t} (comes : (sig.bind { a with spread }).Comes E s' o t) :=
      Signature.bind_replaces (a := { a with spread }) (fun d mem => (dicts d mem).2) follows' comes
    refine ⟨⟨fun ⟨rs, t, comes⟩ => ?_, fun ⟨rs, t, comes⟩ => ?_⟩,
      fun e => ⟨fun ⟨t, comes⟩ => ?_, fun ⟨t, comes⟩ => ?_⟩⟩
    · obtain ⟨o', t', comes', _, _, ends⟩ := there comes
      cases ends with
      | answer => exact ⟨_, t', comes'⟩
    · obtain ⟨o', t', comes', _, _, ends⟩ := back comes
      cases ends with
      | answer => exact ⟨_, t', comes'⟩
    · obtain ⟨o', t', comes', _, _, ends⟩ := there comes
      cases ends with
      | fault => exact ⟨t', comes'⟩
    · obtain ⟨o', t', comes', _, _, ends⟩ := back comes
      cases ends with
      | fault => exact ⟨t', comes'⟩

/-- Stores in which forced cells stay forced. A cell means itself. -/
def Course.steady : Course Ref where
  later s t := ∀ r v, s.heap.state? r = some (.forced v) → t.heap.state? r = some (.forced v)
  means _ r i := r = i
  refl _ _ _ := id
  trans first rest r v known := rest r v (first r v known)
  allocs _ c _ _ known := Heap.state?_alloc_of_some known c
  stays _ := id
  forced after := after _ _

/-- A list of one element in the second cell, and behind it whatever is in the third; a dictionary
    in the fourth. -/
def openStore (behind : Cell) : Store :=
  { heap := ⟨#[.ofValue (.bool true), .ofValue (.list (.cons ⟨0⟩ ⟨2⟩)), behind,
      .ofValue (.dict ⟨[(.string "k", ⟨0⟩)]⟩)]⟩ }

def openArguments : Arguments := { positionals := [⟨0⟩], spread := some ⟨1⟩, dicts := [⟨3⟩] }

def openSignature : Signature Default where
  positional := { requireds := ["a", "b"], rest := some "others" }
  keyword := { requireds := ["k"] }

/-- Behind the element is a fault, or else a cell that needs itself. -/
theorem binding_draws_lazily_of_endless :
    openSignature.lookahead 1 = 1 ∧
      ∃ t o' t', (openSignature.bind openArguments).Comes { bound := 2 }
          (openStore (.ofValue (.error { cause := .emptyList }))) (.ok [⟨0⟩, ⟨0⟩, ⟨6⟩, ⟨0⟩]) t ∧
        (openSignature.bind openArguments).Comes { bound := 2 }
          (openStore (.ofSuspension (.traced "again" ⟨2⟩))) o' t' ∧
        Script.EndsAlike (Parameter.AllAlike (fun l l' => l = ⟨2⟩ ∧ l' = ⟨2⟩)
          (fun r r' c c' =>
            Course.steady.Made (openStore (.ofValue (.error { cause := .emptyList }))) t r c ∧
              Course.steady.Made (openStore (.ofSuspension (.traced "again" ⟨2⟩))) t' r' c')
          openSignature.parameters) (.ok [⟨0⟩, ⟨0⟩, ⟨6⟩, ⟨0⟩]) o' := by
  have comes : (openSignature.bind openArguments).Comes { bound := 2 }
      (openStore (.ofValue (.error { cause := .emptyList }))) (.ok [⟨0⟩, ⟨0⟩, ⟨6⟩, ⟨0⟩]) _ :=
    .demand (.found rfl) rfl (.act (.act (.act
      (.demand (.found rfl) rfl (.act (.demand (.found rfl) rfl .done))))))
  have dicts : ∀ d ∈ openArguments.dicts, Course.steady.Agrees Course.steady { bound := 2 }
      (openStore (.ofValue (.error { cause := .emptyList })))
      (openStore (.ofSuspension (.traced "again" ⟨2⟩))) d d := by
    intro d mem
    cases List.mem_singleton.1 mem
    exact Course.matches_of_forced rfl rfl trivial trivial fun _ _ => rfl
  have follows : Option.Rel (Course.steady.Follows Course.steady { bound := 2 }
      (fun l l' => l = ⟨2⟩ ∧ l' = ⟨2⟩) (openSignature.lookahead openArguments.positionals.length)
      (openStore (.ofValue (.error { cause := .emptyList })))
      (openStore (.ofSuspension (.traced "again" ⟨2⟩)))) openArguments.spread (some ⟨1⟩) :=
    .some (Course.matches_of_forced rfl rfl trivial trivial fun _ _ => .cell ⟨rfl, rfl⟩)
  obtain ⟨o', t', comes', _, _, ends⟩ := (binding_draws_lazily openSignature openArguments).replaces
    Course.steady Course.steady { bound := 2 } _ _ _ _ _ _ dicts follows comes
  exact ⟨rfl, _, o', t', comes, comes', ends⟩

end
end CallByNeed
