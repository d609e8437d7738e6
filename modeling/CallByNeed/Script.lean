import CallByNeed.Host
import CallByNeed.Store

/- Scripts: the code of functions and conversions as data. A script says which cells it demands,
   what it does to the store and what it asks of the host, and how it goes on; it runs nothing
   itself. Loops over lazy lists carry a bound, and a script that exhausts it stalls. -/
namespace CallByNeed

/-- Faults of the evaluator's users, not of programs. -/
inductive Panic where
  | notVacant
  | vacantForced
  | missingParameter
  deriving DecidableEq, Repr

def Panic.message : Panic → String
  | .notVacant => "thunk is not a vacant handle"
  | .vacantForced => "vacant thunk forced before it was filled"
  | .missingParameter => "parameter index out of bounds"

/-- How a cell is demanded: for its value, which no effect is, or for the result of its effect. -/
inductive Demand where
  | pure
  | effect
  deriving DecidableEq, Repr

inductive Script (α : Type) where
  | done (a : α)
  | raise (e : Fault)
  | panic (p : Panic)
  | stall
  /-- Faulty values are answers too. -/
  | demand (how : Demand) (r : Ref) (next : Value → Script α)
  | act (a : Action) (next : a.Answer → Script α)
  | ask (q : Request) (next : q.Answer → Script α)

namespace Script
variable {α β : Type}

def bind : Script α → (α → Script β) → Script β
  | done a, f => f a
  | raise e, _ => raise e
  | panic p, _ => panic p
  | stall, _ => stall
  | demand how r next, f => demand how r fun v => (next v).bind f
  | act a next, f => act a fun x => (next x).bind f
  | ask q next, f => ask q fun x => (next x).bind f

instance : Inhabited (Script α) := ⟨stall⟩

instance : Monad Script where
  pure := done
  bind := bind

theorem bind_done (s : Script α) : s.bind done = s := by
  induction s with
  | done | raise | panic | stall => rfl
  | demand how r next ih => simp [bind, ih]
  | act a next ih => simp [bind, ih]
  | ask q next ih => simp [bind, ih]

theorem bind_assoc {γ : Type} (s : Script α) (f : α → Script β) (g : β → Script γ) :
    (s.bind f).bind g = s.bind fun a => (f a).bind g := by
  induction s with
  | done | raise | panic | stall => rfl
  | demand how r next ih => simp [bind, ih]
  | act a next ih => simp [bind, ih]
  | ask q next ih => simp [bind, ih]

instance : LawfulMonad Script :=
  LawfulMonad.mk' Script bind_done (fun _ _ => rfl) bind_assoc

instance : Allocates Script where
  alloc c := act (.alloc c) done

/-- Answers the fault of a script instead of passing it on. -/
def attempt : Script α → Script (Except Fault α)
  | done a => done (.ok a)
  | raise e => done (.error e)
  | panic p => panic p
  | stall => stall
  | demand how r next => demand how r fun v => (next v).attempt
  | act a next => act a fun x => (next x).attempt
  | ask q next => ask q fun x => (next x).attempt

end Script

/-- A script that fails with a new fault. -/
def fail {α : Type} (c : Cause) : Script α := .raise { cause := c }

/-- The value of a cell, faults included. -/
def observe (r : Ref) : Script Value := .demand .pure r .done

/-- The value of a cell; its fault is passed on. -/
def force (r : Ref) : Script Value := .demand .pure r fun
  | .error e => .raise e
  | v => .done v

/-- The result of the effect in a cell, faults included. -/
def perform (r : Ref) : Script Value := .demand .effect r .done

def forceNumber (r : Ref) : Script Number := do
  match ← force r with
  | .number x => pure x
  | v => fail (.notNumber v.type)

def forceString (r : Ref) : Script String := do
  match ← force r with
  | .string s => pure s
  | v => fail (.notString v.type)

def forceBool (r : Ref) : Script Bool := do
  match ← force r with
  | .bool b => pure b
  | v => fail (.notBool v.type)

def forceList (r : Ref) : Script LazyList := do
  match ← force r with
  | .list l => pure l
  | v => fail (.notList v.type)

def forceDict (r : Ref) : Script (Dict Ref) := do
  match ← force r with
  | .dict d => pure d
  | v => fail (.notDict v.type)

def fillHandle (handle target : Ref) : Script Unit :=
  .act (.fill handle target) fun filled => if filled then .done () else .panic .notVacant

end CallByNeed
