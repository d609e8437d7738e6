import CallByNeed.Proofs.Loading.Permuted
import CallByNeed.Proofs.Renaming.Runs
import CallByNeed.Snapshot

/- The order of definitions does not matter. Loading gives every definition its handle before it
   resolves anything, so each name means the same definition from wherever it is used; what the order
   decides is only where the cells are, and no session with a loaded program can tell that. -/
namespace CallByNeed

/-- How a cell is forced: purely, for its effect, or for a value of one type. -/
inductive Mode where
  | pure
  | effect
  | number
  | string
  | bool
  | list
  | dict

/-- The value that a typed force answers, or its fault. -/
def typed {α : Type} (make : α → Value) (s : Script α) : Script Value := do
  match ← s.attempt with
  | .ok a => Pure.pure (make a)
  | .error e => Pure.pure (.error e)

def Mode.force (mode : Mode) (r : Ref) : Script Value :=
  match mode with
  | .pure => observe r
  | .effect => perform r
  | .number => typed .number (forceNumber r)
  | .string => typed .string (forceString r)
  | .bool => typed .bool (forceBool r)
  | .list => typed .list (forceList r)
  | .dict => typed .dict (forceDict r)

/-- What may be forced in a loaded program. -/
inductive Subject where
  | output (index : Nat)
  | definition (name : String)

namespace Module

def find (m : Module) : Subject → Option Ref
  | .output index => m.outputs[index]?.map Output.cell
  | .definition name => m.definitions.lookup name

/-- Forces subjects in order and shows each down to a depth; what is not there shows nothing. -/
def observe (m : Module) (take depth : Nat) : List (Mode × Subject) → Script (List (Option Snapshot))
  | [] => pure []
  | (mode, subject) :: rest =>
    match m.find subject with
    | none => do pure (none :: (← m.observe take depth rest))
    | some r => do
      let shown ← Snapshot.ofValue take depth (← mode.force r)
      pure (some shown :: (← m.observe take depth rest))

end Module

section
variable {B : Bond} {take : Nat}

theorem alike_typed {M : Manner} {α β : Type} {post : α → β → Prop} {make : α → Value}
    {make' : β → Value} (makes : ∀ a b, post a b → ValueLike M B (make a) (make' b)) {s : Script α}
    {s' : Script β} (like : Alike M B post s s') :
    Alike M B (ValueLike M B) (typed make s) (typed make' s') := by
  refine like.attempt.bind fun x x' results => ?_
  cases results with
  | ok results => exact .pure (makes _ _ results)
  | error faults => exact .pure (.error faults)

theorem Mode.alike_force {r r' : Ref} (mode : Mode) (cells : B.cells r r') :
    Alike .loaded B (ValueLike .loaded B) (mode.force r) (mode.force r') := by
  cases mode with
  | pure => exact .observe cells
  | effect => exact .perform trivial cells
  | number =>
    refine alike_typed ?_ (alike_forceNumber cells)
    rintro x _ rfl
    exact .number x
  | string =>
    refine alike_typed ?_ (alike_forceString cells)
    rintro s _ rfl
    exact .string s
  | bool =>
    refine alike_typed ?_ (alike_forceBool cells)
    rintro b _ rfl
    exact .bool b
  | list =>
    refine alike_typed (fun l l' lists => ?_) (alike_forceList cells)
    exact .list lists
  | dict =>
    refine alike_typed (fun d d' dicts => ?_) (alike_forceDict cells)
    exact .dict dicts

namespace Snapshot

theorem alike_ofTail {f f' : Value → Script Snapshot}
    (each : ∀ v v', ValueLike .loaded B v v' → Alike .loaded B Eq (f v) (f' v')) (room : Nat)
    (shown : List Snapshot) {tail tail' : Ref} (tails : B.cells tail tail') :
    Alike .loaded B Eq (ofTail f tail room shown) (ofTail f' tail' room shown) := by
  induction room generalizing tail tail' shown with
  | zero => exact .pure rfl
  | succ room ih =>
    refine (alike_forceList tails).attempt.bind fun x x' results => ?_
    cases results with
    | error faults =>
      obtain rfl := eq_of_faultLike faults
      exact .pure rfl
    | ok lists =>
      cases lists with
      | nil => exact .pure rfl
      | cons heads tails =>
        refine (Alike.observe heads).bind fun v v' values => ?_
        refine (each v v' values).bind ?_
        rintro element _ rfl
        exact ih (element :: shown) tails

theorem alike_ofEntries {f f' : Value → Script Snapshot}
    (each : ∀ v v', ValueLike .loaded B v v' → Alike .loaded B Eq (f v) (f' v'))
    {es es' : List (Key × Ref)} (entries : EntriesLike B.cells es es') :
    Alike .loaded B Eq (ofEntries f es) (ofEntries f' es') := by
  induction entries with
  | nil => exact .pure rfl
  | @cons e e' _ _ first _ ih =>
    obtain ⟨k, r⟩ := e
    obtain ⟨k', r'⟩ := e'
    obtain ⟨rfl, cells⟩ := first
    refine (Key.alike_toValue k).bind fun v v' values => ?_
    refine (each v v' values).bind ?_
    rintro key _ rfl
    refine (Alike.observe cells).bind fun u u' values => ?_
    refine (each u u' values).bind ?_
    rintro element _ rfl
    refine ih.bind ?_
    rintro rest _ rfl
    exact .pure rfl

/-- Like values show the same. -/
theorem alike_ofValue (take depth : Nat) {v v' : Value} (values : ValueLike .loaded B v v') :
    Alike .loaded B Eq (ofValue take depth v) (ofValue take depth v') := by
  induction depth generalizing v v' with
  | zero =>
    cases values with
    | function functions =>
      simp only [ofValue, functions.name]
      exact .pure rfl
    | native natives => cases natives <;> exact .pure rfl
    | error faults =>
      obtain rfl := eq_of_faultLike faults
      exact .pure rfl
    | _ => exact .pure rfl
  | succ depth ih =>
    cases values with
    | function functions =>
      simp only [ofValue, functions.name]
      exact .pure rfl
    | native natives => cases natives <;> exact .pure rfl
    | error faults =>
      obtain rfl := eq_of_faultLike faults
      exact .pure rfl
    | list lists =>
      refine (Alike.allocValue (.list lists)).bind fun r r' cells => ?_
      exact alike_ofTail (fun _ _ => ih) take [] cells
    | dict dicts =>
      refine (alike_ofEntries (fun _ _ => ih) dicts).bind ?_
      rintro entries _ rfl
      exact .pure rfl
    | _ => exact .pure rfl

end Snapshot
end

section
variable {π : Renaming} {m m' : Module} {h h' : Heap}

theorem Program.LoadedAlike.find (alike : LoadedAlike π m m' h h') (subject : Subject) :
    Option.Rel π.bond.cells (m.find subject) (m'.find subject) := by
  cases subject with
  | definition name => exact alike.definitions name
  | output index =>
    simp only [Module.find]
    have outputs := alike.outputs
    generalize m.outputs = os, m'.outputs = os' at outputs
    induction outputs generalizing index with
    | nil => exact .none
    | cons first _ ih =>
      cases index with
      | zero => exact .some first.2
      | succ index => exact ih index

theorem Program.LoadedAlike.observe (alike : LoadedAlike π m m' h h') (take depth : Nat)
    (plan : List (Mode × Subject)) :
    Alike .loaded π.bond Eq (m.observe take depth plan) (m'.observe take depth plan) := by
  induction plan with
  | nil => exact .pure rfl
  | cons step plan ih =>
    obtain ⟨mode, subject⟩ := step
    have found := alike.find subject
    simp only [Module.observe]
    generalize m.find subject = o, m'.find subject = o' at found
    cases found with
    | none =>
      refine ih.bind ?_
      rintro rest _ rfl
      exact .pure rfl
    | some cells =>
      refine (mode.alike_force cells).bind fun v v' values => ?_
      refine (Snapshot.alike_ofValue take depth values).bind ?_
      rintro shown _ rfl
      refine ih.bind ?_
      rintro rest _ rfl
      exact .pure rfl

theorem Program.LoadedAlike.run (alike : LoadedAlike π m m' h h') (E : Engine) (fuel take depth : Nat)
    (plan : List (Mode × Subject)) (world : World) :
    ∃ ending ending' s s' after,
      ((m.observe take depth plan).run E fuel { heap := h } : StateM World _) world =
        ((ending, s), after) ∧
      ((m'.observe take depth plan).run E fuel { heap := h' } : StateM World _) world =
        ((ending', s'), after) ∧ ending.Renamed π Eq ending' ∧ s.Renamed π s' := by
  have stores : Store.Renamed π { heap := h } { heap := h' } := ⟨alike.heap, by simp, by simp, rfl⟩
  have empty : Held.nothing.Renamed π := trivial
  exact Runner.run_renamed fuel (.ready empty (alike.observe take depth plan)) stores world

end

/-! ### The order of definitions -/

namespace Program

/-- Programs whose definitions are the same in another order are accepted alike. When they are, the
    heaps they are loaded to are the same but for the addresses of cells. Every name of a definition
    stands for that definition wherever it is used and whatever is predefined under it. And whatever
    is forced in whatever modes and order, the same is shown, with the same faults, and the same is
    written; if it does not come to an end, then for the same reason. -/
theorem definition_order_is_irrelevant (p : Program) {definitions : List Definition}
    (perm : p.definitions.Perm definitions) :
    ((∃ m h, p.load {} = .ok (m, h)) ↔ ∃ m h, { p with definitions }.load {} = .ok (m, h)) ∧
    ∀ m h m' h', p.load {} = .ok (m, h) → { p with definitions }.load {} = .ok (m', h') →
      ∃ π, LoadedAlike π m m' h h' ∧
        (∀ d ∈ p.definitions, ∃ r, StandsFor m h d r ∧ StandsFor m' h' d (π.of r)) ∧
        ∀ (E : Engine) (fuel take depth : Nat) (plan : List (Mode × Subject)) (world : World),
          ∃ ending ending' s s' after,
            ((m.observe take depth plan).run E fuel { heap := h } : StateM World _) world =
              ((ending, s), after) ∧
            ((m'.observe take depth plan).run E fuel { heap := h' } : StateM World _) world =
              ((ending', s'), after) ∧
            ending.Renamed π Eq ending' := by
  have same : ({ p with definitions } : Program).outputs = p.outputs := rfl
  refine ⟨isOk_load_of_perm perm same, fun m h m' h' loads loads' => ?_⟩
  obtain ⟨π, alike, stands⟩ := loadedAlike_of_perm perm same loads loads'
  refine ⟨π, alike, stands, fun E fuel take depth plan world => ?_⟩
  obtain ⟨ending, ending', s, s', after, left, right, endings, _⟩ :=
    alike.run E fuel take depth plan world
  exact ⟨ending, ending', s, s', after, left, right, endings⟩

/-- A variable is used before it is defined, and a function hides a predefined one. -/
def forwardProgram : Program where
  definitions := [
    .variable "first" (.call (.global "list") [⟨.global "second", false⟩] [] [] none),
    .function "list" (.plain ["x"]) [] (.local 0),
    .variable "second" (.literal (.bool true))]
  outputs := [{ value := .global "first" }]

/-- Backward, the program shows what it shows forward. -/
theorem definition_order_is_irrelevant_backward :
    ∃ m h m' h' s' world', forwardProgram.load {} = .ok (m, h) ∧
      { forwardProgram with definitions := forwardProgram.definitions.reverse }.load {} =
        .ok (m', h') ∧
      ((m'.observe 1 1 [(.pure, .output 0), (.list, .definition "list")]).run { bound := 1 } 40
          { heap := h' } : StateM World _) {} =
        ((.answer [some (.bool true), some (.error { cause := .notList .function })], s'), world') := by
  have backward : forwardProgram.definitions.Perm forwardProgram.definitions.reverse :=
    (List.reverse_perm _).symm
  obtain ⟨iff, alike⟩ := definition_order_is_irrelevant forwardProgram backward
  have loads : ∃ m h, forwardProgram.load {} = .ok (m, h) := ⟨_, _, rfl⟩
  obtain ⟨m', h', loads'⟩ := iff.1 loads
  obtain ⟨m, h, loads⟩ := loads
  obtain ⟨π, _, _, same⟩ := alike m h m' h' loads loads'
  obtain ⟨ending, ending', s, s', after, left, right, endings⟩ :=
    same { bound := 1 } 40 1 1 [(.pure, .output 0), (.list, .definition "list")] {}
  refine ⟨m, h, m', h', s', after, loads, loads', ?_⟩
  have explicit := loads
  cases explicit
  have shown : ending =
      .answer [some (.bool true), some (.error { cause := .notList .function })] := by
    have first := congrArg (fun x => x.1.1) left
    exact first.symm.trans rfl
  rw [right]
  subst shown
  cases endings with
  | answer results =>
    subst results
    rfl

end Program
end CallByNeed
