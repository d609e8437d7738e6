import CallByNeed.Builtin.Arithmetic
import CallByNeed.Value.Text

/- Branching, faults, fixed points, and the order in which arguments are forced. -/
namespace CallByNeed
namespace Builtin

/-- Only the chosen branch goes on. -/
def chooseBranch (condition yes no : Ref) : Script Outcome := do
  pure (.tail (if ← forceBool condition then yes else no))

def typeName (r : Ref) : Script Outcome := do
  answer (.string (← observe r).type.name)

def textOf (bound : Nat) (r : Ref) : Script Outcome := do
  answer (.string (← (← force r).text bound))

def dumpOf (bound : Nat) (r : Ref) : Script Outcome := do
  answer (.string (← (← force r).dump bound))

def raiseCustom (name message : Ref) : Script Outcome := do
  let name ← forceString name
  fail (.custom name (← forceString message))

/-- Name and message of a fault, and an empty dictionary for any other value. -/
def catchFault (r : Ref) : Script Outcome := do
  match ← observe r with
  | .error e =>
    let name ← allocValue (.string e.name)
    let message ← allocValue (.string e.message)
    answer (.dict (.ofList [(.string "name", name), (.string "message", message)]))
  | _ => answer (.dict .empty)

/-- The function that passes itself to `function` before its own arguments. -/
def fixedPoint (function : Ref) : Script Outcome := do
  let handle ← alloc .vacant
  let v : Value := .native (.fixedPoint function handle)
  fillHandle handle (← allocValue v)
  answer v

/-- Like `fixedPoint` for several functions, each of which is passed the list of all results. -/
def fixedPoints (bound : Nat) (functions : Ref) : Script Outcome := do
  let handle ← alloc .vacant
  let functions ← (← forceList functions).elements bound
  let results ← functions.mapM fun f => allocValue (.native (.fixedPoint f handle))
  let v : Value := .list (← LazyList.ofRefs results)
  fillHandle handle (← allocValue v)
  answer v

/-- Forces all arguments but the last in order and goes on with the last. The next cell of the argument
    list is fetched before an argument is forced. -/
def inSequence (bound : Nat) (first rest : Ref) : Script Outcome := do
  let last ← (← forceList rest).trail (fun last => do let _ ← force last) pure bound first
  pure (.tail last)

/-- Performs effects in order up to the first fault. The next cell of the argument list is fetched
    before the last result is looked at. -/
def effectsInSequence (bound : Nat) (first rest : Ref) : Script Outcome := do
  let result ← perform first
  let last ← (← forceList rest).trail (fun
    | .error e => .raise e
    | _ => pure ()) perform bound result
  answer last

/-- Hands all arguments but the last to the pool and goes on with the last. -/
def inParallel (bound : Nat) (first rest : Ref) : Script Outcome := do
  let last ← (← forceList rest).trail (fun last => .act (.submit { target := last }) .done) pure
    bound first
  pure (.tail last)

/-- The next argument a rally lists. One that is late is forced on the spot. -/
def nextOfRally (id : Nat) : Nat → Script (Option Ref)
  | 0 => .stall
  | bound + 1 =>
    let list (i : Nat) : Script (Option Ref) :=
      .act (.listRally id i) fun
        | some r => pure (some r)
        | none => nextOfRally id bound
    .act (.pollRally id) fun
      | .exhausted => pure none
      | .reported i => list i
      | .late i r => do
        let _ ← observe r
        list i

def rallyCells (bound id : Nat) : Script LazyList := do
  match ← nextOfRally id bound with
  | none => pure .nil
  | some head => pure (.cons head (← alloc (.ofSuspension (.rally id))))

def submitAll (id : Nat) : Nat → List Ref → Script Unit
  | _, [] => pure ()
  | i, r :: others =>
    .act (.submit { target := r, report := some (id, i) }) fun _ => submitAll id (i + 1) others

/-- Hands all arguments to the pool and lists them as they finish. -/
def rallyAll (bound : Nat) (arguments : Ref) : Script Outcome := do
  let arguments ← (← forceList arguments).elements bound
  let id ← Script.act (.openRally arguments) .done
  submitAll id 0 arguments
  answer (.list (← rallyCells bound id))

end Builtin
end CallByNeed
