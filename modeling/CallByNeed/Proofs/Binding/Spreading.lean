import CallByNeed.Proofs.Binding.Lockstep
import CallByNeed.Proofs.Binding.Parameters
import Mathlib.Data.List.Forall2

/- Two bindings in step. Their arguments differ in what follows in their spread lists, and as many
   cells of these may be drawn as there are parameters that ask for them. Both bindings fail alike,
   or what they give a parameter is alike but for what is left of the lists. -/
namespace CallByNeed

/-- What two bindings give a parameter that does not take the positionals left. -/
inductive BoundAlike (made : Ref → Ref → Cell → Cell → Prop) : Ref → Ref → Prop
  | cell {r r' : Ref} (same : SameCell made r r') : BoundAlike made r r'
  | merged {r r' : Ref} {rs rs' : List Ref} (calls : MergeCalls made rs rs' r r')
      (dicts : List.Forall₂ (SameCell made) rs rs') : BoundAlike made r r'

/-- What two bindings give a parameter that takes the positionals left: the explicit ones, and then
    what is left of the spread lists. -/
inductive RestAlike (behind : Ref → Ref → Prop) (made : Ref → Ref → Cell → Cell → Prop) :
    Ref → Ref → Prop
  | explicit {r r' : Ref} {l l' : LazyList}
      (cells : made r r' (.ofValue (.list l)) (.ofValue (.list l'))) (same : SameList made l l') :
      RestAlike behind made r r'
  | merged {r r' first first' list list' : Ref} {l l' : LazyList}
      (calls : MergeCalls made [first, list] [first', list'] r r')
      (cells : made first first' (.ofValue (.list l)) (.ofValue (.list l')))
      (same : SameList made l l') (open_ : behind list list') : RestAlike behind made r r'

/-- What two bindings give a parameter. -/
def Parameter.Alike (behind : Ref → Ref → Prop) (made : Ref → Ref → Cell → Cell → Prop) :
    Parameter → Ref → Ref → Prop
  | .rest .positional _ => RestAlike behind made
  | _ => BoundAlike made

section
variable {made made' : Ref → Ref → Cell → Cell → Prop} {behind behind' : Ref → Ref → Prop}
variable {r r' : Ref} (weaker : ∀ r r' c c', made r r' c c' → made' r r' c c')
include weaker

theorem BoundAlike.imp (alike : BoundAlike made r r') : BoundAlike made' r r' := by
  cases alike with
  | cell same => exact .cell (same.imp weaker)
  | merged calls dicts =>
    exact .merged (calls.imp weaker) (dicts.imp fun _ _ same => same.imp weaker)

theorem RestAlike.imp (alike : RestAlike behind made r r')
    (further : ∀ l l', behind l l' → behind' l l') : RestAlike behind' made' r r' := by
  cases alike with
  | explicit cells same => exact .explicit (weaker _ _ _ _ cells) (same.imp weaker)
  | merged calls cells same open_ =>
    exact .merged (calls.imp weaker) (weaker _ _ _ _ cells) (same.imp weaker) (further _ _ open_)

theorem Parameter.Alike.imp {p : Parameter} (alike : p.Alike behind made r r')
    (further : ∀ l l', behind l l' → behind' l l') : p.Alike behind' made' r r' := by
  cases p with
  | required | optional => exact BoundAlike.imp weaker alike
  | rest pass name =>
    cases pass with
    | positional => exact RestAlike.imp weaker alike further
    | keyword => exact BoundAlike.imp weaker alike

end

/-! ### Arguments in step -/

/-- Nothing is left of both spread lists, or what the stage says, of which so many cells may be
    drawn. -/
inductive Stage.Spreads (x : Stage) (room : Nat) : Option Ref → Option Ref → Prop
  | none : Spreads x room none none
  | some {l l' : Ref} (budget : x.budget = room) (left : x.left = some l)
      (right : x.right = some l') : Spreads x room (some l) (some l')

/-- Arguments that differ in their spread lists, when so many positionals are still asked for. -/
inductive Arguments.InStep (known : Ref → Prop) (x : Stage) (asks : Nat) :
    Arguments → Arguments → Prop
  | intro {positionals : List Ref} {spread spread' : Option Ref} {keywords : List (String × Ref)}
      {dicts dicts' : List Ref} (spreads : x.Spreads (asks - positionals.length) spread spread')
      (same : List.Forall₂ (SameDict known x.Made) dicts dicts') :
      InStep known x asks { positionals, spread, keywords, dicts }
        { positionals, spread := spread', keywords, dicts := dicts' }

/-- The same argument has been found in both, or none. -/
structure Arguments.Took (known : Ref → Prop) (asks : Nat) (y : Stage)
    (taken taken' : Option Ref × Arguments) : Prop where
  found : taken'.1 = taken.1
  left : taken.2.InStep known y asks taken'.2

section
variable {known : Ref → Prop} {x y : Stage} {asks n : Nat} {a a' : Arguments}
open Script

theorem Stage.Spreads.of_makes {spread spread' : Option Ref} (spreads : x.Spreads n spread spread')
    (makes : x.Makes y) : y.Spreads n spread spread' := by
  cases spreads with
  | none => exact .none
  | some budget left right =>
    exact .some (makes.budget.trans budget) (makes.left.trans left) (makes.right.trans right)

namespace Arguments

theorem InStep.of_ended (inStep : a.InStep known x n a') (ended : a.spread = none) (asks : Nat) :
    a.InStep known x asks a' := by
  obtain ⟨spreads, dicts⟩ := inStep
  cases spreads with
  | none => exact .intro .none dicts
  | some => cases ended

theorem dicts_before {ds ds' : List Ref} (dicts : List.Forall₂ (SameDict known x.Made) ds ds')
    (before : x.Before y) : List.Forall₂ (SameDict known y.Made) ds ds' :=
  dicts.imp fun _ _ same => same.imp fun _ _ _ _ => before.has

theorem InStep.onward (inStep : a.InStep known x asks a') (before : x.Before y)
    (makes : x.Makes y) : a.InStep known y asks a' := by
  obtain ⟨spreads, dicts⟩ := inStep
  exact .intro (spreads.of_makes makes) (dicts_before dicts before)

/-- One cell of the spread lists is drawn at most, and only if there are no explicit positionals. -/
theorem inStep_nextPositional (inStep : a.InStep known x (asks + 1) a') :
    a.nextPositional.InStep known
      (fun y taken taken' => Took known asks y taken taken' ∧
        (taken.1 = none → taken.2.spread = none)) x a'.nextPositional := by
  obtain @⟨positionals, _, _, _, _, _, spreads, dicts⟩ := inStep
  cases positionals with
  | cons r rest =>
    refine inStep_pure ⟨⟨rfl, .intro ?_ dicts⟩, nofun⟩
    simpa only [List.length_cons, Nat.add_sub_add_right] using spreads
  | nil =>
    cases spreads with
    | none => exact inStep_pure ⟨⟨rfl, .intro .none dicts⟩, fun _ => rfl⟩
    | some budget left right =>
      have budget : x.budget = asks + 1 := budget
      refine (inStep_forceList (by omega) left right).bind ?_
      rintro y l l' before (_ | ⟨head, tail, tail'⟩)
      · exact inStep_pure ⟨⟨rfl, .intro .none (dicts_before dicts before)⟩, fun _ => rfl⟩
      · refine inStep_pure ⟨⟨rfl, .intro (.some ?_ rfl rfl) (dicts_before dicts before)⟩, nofun⟩
        simp only [Stage.draw, budget, List.length_nil, Nat.add_sub_cancel, Nat.sub_zero]

theorem inStep_takeEntry (key : Key) {ds ds' : List Ref}
    (dicts : List.Forall₂ (SameDict known x.Made) ds ds') :
    (takeEntry key ds).InStep known
      (fun y taken taken' => x.Makes y ∧ Option.Rel (fun taken taken' => taken'.1 = taken.1 ∧
        List.Forall₂ (SameDict known y.Made) taken.2 taken'.2) taken taken')
      x (takeEntry key ds') := by
  induction ds generalizing x ds' with
  | nil =>
    cases dicts
    exact inStep_pure ⟨x.makes_refl, .none⟩
  | cons d ds ih =>
    obtain _ | @⟨_, d', _, ds', first, others⟩ := dicts
    refine (inStep_forceDict first).bind ?_
    rintro y e e' - ⟨rfl, rfl⟩
    cases e'.get? key with
    | some r =>
      refine (inStep_allocValue _ _).bind ?_
      rintro z left left' before ⟨makes, cells⟩
      exact inStep_pure ⟨makes, .some ⟨rfl, .cons (.made cells) (dicts_before others before)⟩⟩
    | none =>
      refine (ih others).bind ?_
      rintro z taken taken' before ⟨makes, same⟩
      cases same with
      | none => exact inStep_pure ⟨makes, .none⟩
      | some same =>
        obtain ⟨found, left⟩ := same
        have first := first.imp fun _ _ _ _ => before.has
        exact inStep_pure ⟨makes, .some ⟨found, .cons first left⟩⟩

theorem inStep_takeKeyword (inStep : a.InStep known x asks a') (name : String) :
    (a.takeKeyword name).InStep known
      (fun y taken taken' => Took known asks y taken taken' ∧ taken.2.spread = a.spread)
      x (a'.takeKeyword name) := by
  obtain @⟨_, _, _, keywords, _, _, spreads, dicts⟩ := inStep
  simp only [takeKeyword]
  cases keywords.find? fun k => k.1 == name with
  | some k => exact inStep_pure ⟨⟨rfl, .intro spreads dicts⟩, rfl⟩
  | none =>
    refine (inStep_takeEntry _ dicts).bind ?_
    rintro y taken taken' before ⟨makes, same⟩
    have spreads := spreads.of_makes makes
    cases same with
    | none => exact inStep_pure ⟨⟨rfl, .intro spreads (dicts_before dicts before)⟩, rfl⟩
    | some same =>
      obtain ⟨found, left⟩ := same
      exact inStep_pure ⟨⟨congrArg some found, .intro spreads left⟩, rfl⟩

/-- The explicit positionals are put into lists of the same elements; what is spread stays. -/
theorem inStep_restPositionals (asks : Nat) (inStep : a.InStep known x 0 a') :
    a.restPositionals.InStep known
      (fun y taken taken' => RestAlike y.Open y.Made taken.1 taken'.1 ∧
        taken.2.InStep known y asks taken'.2 ∧ taken.2.spread = none) x a'.restPositionals := by
  obtain @⟨positionals, _, _, _, _, _, spreads, dicts⟩ := inStep
  refine (inStep_ofRefs positionals).bind ?_
  rintro y l l' before ⟨makes, same⟩
  refine (inStep_allocValue _ _).bind ?_
  rintro z r r' before' ⟨makes', cells⟩
  have same := same.imp fun _ _ _ _ => before'.has
  have dicts := dicts_before (dicts_before dicts before) before'
  have spreads := (spreads.of_makes makes).of_makes makes'
  cases spreads with
  | none => exact inStep_pure ⟨.explicit cells same, .intro .none dicts, rfl⟩
  | some budget left right =>
    refine (inStep_allocMerge _ _).bind ?_
    rintro w m m' before'' ⟨makes'', calls⟩
    have same := same.imp fun _ _ _ _ => before''.has
    have spent : w.budget = 0 := makes''.budget.trans (budget.trans (Nat.zero_sub _))
    have open_ : w.Open _ _ :=
      ⟨spent, makes''.left.trans left, makes''.right.trans right⟩
    have dicts := dicts_before dicts before''
    exact inStep_pure ⟨.merged calls (before''.has cells) same open_, .intro .none dicts, rfl⟩

theorem inStep_restKeywords (inStep : a.InStep known x asks a') :
    a.restKeywords.InStep known
      (fun y taken taken' => BoundAlike y.Made taken.1 taken'.1 ∧
        taken.2.InStep known y asks taken'.2 ∧ taken.2.spread = a.spread) x a'.restKeywords := by
  obtain @⟨_, _, _, keywords, ds, ds', spreads, dicts⟩ := inStep
  have ends : ds'.isEmpty = ds.isEmpty := by cases dicts <;> rfl
  refine (inStep_allocValue _ _).bind ?_
  rintro y r r' before ⟨makes, cells⟩
  have spreads := spreads.of_makes makes
  simp only [ends]
  split
  · exact inStep_pure ⟨.cell (.made cells), .intro spreads .nil, rfl⟩
  · refine (inStep_allocMerge _ _).bind ?_
    rintro z m m' before' ⟨makes', calls⟩
    have all : List.Forall₂ (SameCell z.Made) (r :: ds) (r' :: ds') :=
      .cons (.made (before'.has cells))
        ((dicts_before (dicts_before dicts before) before').imp fun _ _ same => same.cell)
    exact inStep_pure ⟨.merged calls all, .intro (spreads.of_makes makes') .nil, rfl⟩

theorem inStep_countEntries {ds ds' : List Ref}
    (dicts : List.Forall₂ (SameDict known x.Made) ds ds') :
    (countEntries ds).InStep known (fun _ n n' => n' = n) x (countEntries ds') := by
  induction ds generalizing x ds' with
  | nil =>
    cases dicts
    exact inStep_pure rfl
  | cons d ds ih =>
    obtain _ | @⟨_, d', _, ds', first, others⟩ := dicts
    refine (inStep_forceDict first).bind ?_
    rintro y e e' - ⟨rfl, rfl⟩
    refine (ih others).bind ?_
    rintro z n n' - rfl
    exact inStep_pure rfl

/-- One more cell of the spread lists may be drawn to see whether something is left. -/
theorem inStep_checkTaken (inStep : a.InStep known x 1 a') :
    a.checkTaken.InStep known (fun _ _ _ => True) x a'.checkTaken := by
  have next := inStep_nextPositional inStep
  obtain @⟨positionals, _, _, keywords, ds, ds', spreads, dicts⟩ := inStep
  have counts : ∀ {y : Stage} (left : Nat), List.Forall₂ (SameDict known y.Made) ds ds' →
      (if 0 < left then fail (.extraPositionals left)
      else do
        let left := keywords.length + (← countEntries ds)
        if 0 < left then fail (.extraKeywords left) else pure () : Script Unit).InStep known
          (fun _ _ _ => True) y
        (if 0 < left then fail (.extraPositionals left)
        else do
          let left := keywords.length + (← countEntries ds')
          if 0 < left then fail (.extraKeywords left) else pure ()) := by
    intro y left dicts
    split
    · exact inStep_fail _
    · refine (inStep_countEntries dicts).bind ?_
      rintro z n n' - rfl
      dsimp only
      split
      · exact inStep_fail _
      · exact inStep_pure trivial
  cases positionals with
  | cons r rest => exact counts (rest.length + 1) dicts
  | nil =>
    refine next.bind ?_
    rintro y ⟨found, left⟩ ⟨found', left'⟩ before ⟨⟨same, -⟩, -⟩
    cases same
    have dicts := dicts_before dicts before
    cases found with
    | some r => exact counts 1 dicts
    | none => exact counts 0 dicts

end Arguments
end

/-! ### Bindings in step -/

/-- How many positionals these parameters ask for one after the other. Whether any are left is asked
    at the end, unless a parameter takes all of them. -/
def Parameter.asks : List Parameter → Nat
  | [] => 1
  | .required .positional _ :: ps | .optional .positional _ _ :: ps => asks ps + 1
  | .rest .positional _ :: _ => 0
  | _ :: ps => asks ps

/-- How many cells of a spread list a binding may draw: one for each positional parameter that has
    no explicit argument, and one more to see that nothing is left, unless a parameter takes
    that. -/
def Signature.lookahead (s : Signature Default) (explicit : Nat) : Nat :=
  s.positional.requireds.length + s.positional.optionals.length +
    (if s.positional.rest.isSome then 0 else 1) - explicit

/-- Bindings whose arguments are in step. Who goes by name has no positionals left. -/
structure Binding.InStep (known : Ref → Prop) (x : Stage) (asks : Nat) (b b' : Binding) : Prop where
  named : b'.named = b.named
  left : b.left.InStep known x asks b'.left
  ended : b.named = true → b.left.spread = none

/-- What a parameter finds in two bindings, each of which keeps its bound cells. -/
structure Binding.Took {α : Type} (known : Ref → Prop) (asks : Nat) (b b' : Binding)
    (alike : Stage → α → α → Prop) (y : Stage) (taken taken' : α × Binding) : Prop where
  found : alike y taken.1 taken'.1
  left : taken.2.InStep known y asks taken'.2
  bound : taken.2.bound = b.bound
  bound' : taken'.2.bound = b'.bound

section
variable {known : Ref → Prop} {x y : Stage} {n k : Nat} {b b' : Binding}
open Script (inStep_pure inStep_fail inStep_allocValue)

namespace Binding

theorem InStep.onward (inStep : b.InStep known x n b') (before : x.Before y) (makes : x.Makes y) :
    b.InStep known y n b' :=
  ⟨inStep.named, inStep.left.onward before makes, inStep.ended⟩

theorem inStep_byName {left left' : Arguments} (inStep : left.InStep known x n left')
    (name : String) {named : Bool} (ended : named = true → left.spread = none) :
    (do
      let taken ← left.takeKeyword name
      pure (taken.1, { b with left := taken.2, named }) :
        Script (Option Ref × Binding)).InStep known
      (Took known n b b' fun _ found found' => found' = found) x (do
        let taken ← left'.takeKeyword name
        pure (taken.1, { b' with left := taken.2, named })) := by
  refine (Arguments.inStep_takeKeyword inStep name).bind ?_
  rintro y taken taken' - ⟨took, spread⟩
  have left : Binding.InStep known y n { b with left := taken.2, named }
      { b' with left := taken'.2, named } :=
    ⟨rfl, took.left, fun holds => spread.trans (ended holds)⟩
  exact inStep_pure ⟨took.found, left, rfl, rfl⟩

end Binding

/-- One positional is asked for by a parameter that does not go by name. -/
def Pass.asks : Pass → Nat
  | .positional => 1
  | .keyword => 0

theorem Parameter.asks_half (pass : Pass) (h : Half Default) (ps : List Parameter) :
    asks (h.parameters pass ++ ps) = pass.asks * h.requireds.length +
      (pass.asks * h.optionals.length + asks (h.rest.toList.map (.rest pass) ++ ps)) := by
  have requireds (names : List String) (ps : List Parameter) :
      asks (names.map (.required pass) ++ ps) = pass.asks * names.length + asks ps := by
    induction names with
    | nil => simp
    | cons name names ih => cases pass <;> simp_all [asks, Pass.asks]; omega
  have optionals (os : List (String × Default)) (ps : List Parameter) :
      asks (os.map (fun o => .optional pass o.1 o.2) ++ ps) = pass.asks * os.length + asks ps := by
    induction os with
    | nil => simp
    | cons o os ih => cases pass <;> simp_all [asks, Pass.asks]; omega
  simp only [Half.parameters, List.append_assoc, requireds, optionals]

theorem Signature.asks_parameters (s : Signature Default) (explicit : Nat) :
    Parameter.asks s.parameters - explicit = s.lookahead explicit := by
  have keywords : Parameter.asks (s.keyword.parameters .keyword) = 1 := by
    rw [← List.append_nil (s.keyword.parameters .keyword), Parameter.asks_half]
    simp only [Pass.asks, Nat.zero_mul, Nat.zero_add]
    cases s.keyword.rest <;> rfl
  simp only [parameters, lookahead, Parameter.asks_half, Pass.asks, Nat.one_mul]
  cases s.positional.rest with
  | none => simp [keywords, Nat.add_assoc]
  | some name => simp [Parameter.asks]

theorem Pass.inStep_find (pass : Pass) (inStep : b.InStep known x (n + pass.asks) b')
    (name : String) :
    (pass.find b name).InStep known
      (Binding.Took known n b b' fun _ found found' => found' = found) x
      (pass.find b' name) := by
  obtain ⟨arguments, named, bound⟩ := b
  obtain ⟨arguments', named', bound'⟩ := b'
  obtain ⟨same, left, ended⟩ := inStep
  dsimp only at same left ended
  subst same
  cases pass with
  | keyword => exact Binding.inStep_byName left name ended
  | positional =>
    simp only [find, Binding.findPositional]
    cases named' with
    | true =>
      have spread := ended rfl
      exact Binding.inStep_byName (left.of_ended spread n) name fun _ => spread
    | false =>
      refine (Arguments.inStep_nextPositional left).bind ?_
      rintro y ⟨found, left⟩ ⟨found', left'⟩ - ⟨⟨same, took⟩, spread⟩
      cases same
      cases found with
      | some r => exact inStep_pure ⟨rfl, ⟨rfl, took, by simp⟩, rfl, rfl⟩
      | none => exact Binding.inStep_byName took name fun _ => spread rfl

theorem Default.inStep_ref (d : Default) : d.ref.InStep known
    (fun y r r' => x.Makes y ∧ BoundAlike y.Made r r') x d.ref := by
  cases d with
  | literal l =>
    refine (inStep_allocValue _ _).imp ?_
    exact fun y r r' _ ⟨makes, cells⟩ => ⟨makes, .cell (.made cells)⟩
  | cell r => exact inStep_pure ⟨x.makes_refl, .cell (.one r)⟩

namespace Parameter

theorem inStep_find (p : Parameter) (ps : List Parameter)
    (inStep : b.InStep known x (asks (p :: ps)) b') :
    (p.find b).InStep known
      (Binding.Took known (asks ps) b b' fun y => p.Alike y.Open y.Made) x (p.find b') := by
  cases p with
  | required pass name =>
    refine (pass.inStep_find (n := asks ps) ?_ name).bind ?_
    · cases pass <;> exact inStep
    · rintro y ⟨found, c⟩ ⟨found', c'⟩ - ⟨same, left, bound, bound'⟩
      cases same
      cases found with
      | none => exact inStep_fail _
      | some r => exact inStep_pure ⟨.cell (.one r), left, bound, bound'⟩
  | optional pass name default =>
    refine (pass.inStep_find (n := asks ps) ?_ name).bind ?_
    · cases pass <;> exact inStep
    · rintro y ⟨found, c⟩ ⟨found', c'⟩ - ⟨same, left, bound, bound'⟩
      cases same
      cases found with
      | some r => exact inStep_pure ⟨.cell (.one r), left, bound, bound'⟩
      | none =>
        refine default.inStep_ref.bind ?_
        rintro z r r' before ⟨makes, alike⟩
        exact inStep_pure ⟨alike, left.onward before makes, bound, bound'⟩
  | rest pass name =>
    obtain ⟨named, left, ended⟩ := inStep
    cases pass with
    | positional =>
      refine (Arguments.inStep_restPositionals (asks ps) left).bind ?_
      rintro y taken taken' - ⟨alike, left, spread⟩
      exact inStep_pure ⟨alike, ⟨named, left, fun _ => spread⟩, rfl, rfl⟩
    | keyword =>
      refine (Arguments.inStep_restKeywords left).bind ?_
      rintro y taken taken' - ⟨alike, left, spread⟩
      exact inStep_pure ⟨alike, ⟨named, left, fun holds => spread.trans (ended holds)⟩, rfl, rfl⟩

end Parameter

/-- The parameters have been given cells that are alike. -/
def Parameter.AllAlike (behind : Ref → Ref → Prop) (made : Ref → Ref → Cell → Cell → Prop)
    (ps : List Parameter) (rs rs' : List Ref) : Prop :=
  ∃ pairs : List (Ref × Ref), rs = pairs.map Prod.fst ∧ rs' = pairs.map Prod.snd ∧
    List.Forall₂ (fun p pair => p.Alike behind made pair.1 pair.2) ps pairs

theorem Parameter.inStep_foldlM (ps : List Parameter) (inStep : b.InStep known x (asks ps) b') :
    (ps.foldlM Parameter.bind b).InStep known
      (fun y c c' => c.InStep known y 1 c' ∧ ∃ rs rs', AllAlike y.Open y.Made ps rs rs' ∧
        c.bound = rs.reverse ++ b.bound ∧ c'.bound = rs'.reverse ++ b'.bound) x
      (ps.foldlM Parameter.bind b') := by
  induction ps generalizing x b b' with
  | nil => exact inStep_pure ⟨inStep, [], [], ⟨[], rfl, rfl, .nil⟩, rfl, rfl⟩
  | cons p ps ih =>
    simp only [List.foldlM_cons, bind, bind_assoc, pure_bind]
    refine (inStep_find p ps inStep).bind ?_
    rintro y ⟨r, c⟩ ⟨r', c'⟩ before ⟨alike, left, bound, bound'⟩
    have pushed : (c.push r c.left).InStep known y (asks ps) (c'.push r' c'.left) :=
      ⟨left.named, left.left, left.ended⟩
    refine (ih pushed).imp ?_
    rintro z d d' before' ⟨left, rs, rs', ⟨pairs, rfl, rfl, others⟩, all, all'⟩
    refine ⟨left, _, _, ⟨(r, r') :: pairs, rfl, rfl, .cons ?_ others⟩, ?_, ?_⟩
    · exact alike.imp (fun _ _ _ _ => before'.has) fun _ _ => before'.open
    · simp [all, Binding.push, ← bound]
    · simp [all', Binding.push, ← bound']

/-- Bindings are in step whose arguments are, if as many cells may be drawn as there are parameters
    to ask for them. -/
theorem Signature.inStep_bind (s : Signature Default) {a a' : Arguments}
    (inStep : a.InStep known x (Parameter.asks s.parameters) a') :
    (s.bind a).InStep known
      (fun y rs rs' => Parameter.AllAlike y.Open y.Made s.parameters rs rs') x (s.bind a') := by
  rw [bind_eq, bind_eq]
  have start : Binding.InStep known x (Parameter.asks s.parameters) { left := a } { left := a' } :=
    ⟨rfl, inStep, nofun⟩
  refine (Parameter.inStep_foldlM s.parameters start).bind ?_
  rintro y c c' - ⟨left, rs, rs', alike, all, all'⟩
  refine (Arguments.inStep_checkTaken left.left).bind ?_
  rintro z _ _ before -
  obtain ⟨pairs, rfl, rfl, alike⟩ := alike
  refine inStep_pure ⟨pairs, by simp [all], by simp [all'], ?_⟩
  exact alike.imp fun _ _ alike => alike.imp (fun _ _ _ _ => before.has) fun _ _ => before.open

end
end CallByNeed
