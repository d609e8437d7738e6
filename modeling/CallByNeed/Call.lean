import CallByNeed.Builtin.Run
import CallByNeed.Expr.Interpret
import CallByNeed.Signature.Binding

/- Calling a value, and the script of every kind of waiting work. -/
namespace CallByNeed

def Body.run (bound : Nat) : Body → List Ref → Script Outcome
  | .builtin b, cells => b.run bound cells
  | .code bindings result, cells => do
    let locals ← Expr.bindLocals bindings cells
    pure (.tail (← result.interpret locals))
  | .parameter i, cells =>
    match cells[i]? with
    | some r => pure (.tail r)
    | none => .panic .missingParameter
  | .parameters, cells => do answer (.list (← LazyList.ofRefs cells))

/-- Lists and dictionaries are called with an index. -/
def indexSignature : Signature Default := .plain ["index"]

namespace Value

def call (bound : Nat) : Value → Arguments → Script Outcome
  | .function f, arguments => do
    let parameters ← f.signature.bind arguments
    if f.isEffect then
      answer (.effect (← alloc (.ofSuspension (.action f.body parameters))))
    else f.body.run bound parameters
  | .native (.partialCall f positionals keywords), later => do
    let held : Arguments := { spread := some positionals, dicts := [keywords] }
    pure (.tail (← alloc (.ofCall f (← held.merge later))))
  | .native (.fixedPoint f self), arguments => do
    let arguments ← Arguments.merge { positionals := [self] } arguments
    pure (.tail (← alloc (.ofCall f arguments)))
  | .list l, arguments => do
    match ← indexSignature.bind arguments with
    | place :: _ => pure (.tail (← l.index (← forceNumber place)))
    | [] => .panic .missingParameter
  | .dict d, arguments => do
    match ← indexSignature.bind arguments with
    | key :: _ => pure (.tail (← d.lookUp bound (← force key)))
    | [] => .panic .missingParameter
  | v, _ => fail (.notCallable v.type)

end Value

def Suspension.script (bound : Nat) : Suspension → Script Outcome
  | .branch b matched => do
    let v ← force matched
    let e ← b.select (← (Key.ofValue bound v).attempt)
    pure (.tail (← e.interpret b.locals))
  | .concat tail rest => do
    answer (.list (← LazyList.concat bound (← forceList tail) rest))
  | .entries es => do answer (.list (← Dict.listEntries es))
  | .action body parameters => body.run bound parameters
  | .rally id => do answer (.list (← Builtin.rallyCells bound id))
  | .traced label target => .act (.trace label) fun _ => pure (.tail target)

def Task.script (bound : Nat) : Task → Script Outcome
  | .call function arguments => do (← force function).call bound arguments
  | .resume s => s.script bound

end CallByNeed
