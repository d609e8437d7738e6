import CallByNeed.Builtin.Arithmetic
import CallByNeed.Value.Comparison

/- Comparisons of any number of arguments. -/
namespace CallByNeed
namespace Builtin

/-- Whether every argument equals the first; nothing behind the first unequal one is forced. -/
def allEqual (bound : Nat) (arguments : Ref) : Script Outcome := do
  match ← forceList arguments with
  | .nil => answer (.bool true)
  | .cons head tail =>
    let v ← force head
    let others ← forceList tail
    let same ← others.walk (fun _ r => do
      if ← Value.equal bound v (← force r) then pure (.yield true)
      else pure (.done false)) bound true
    answer (.bool same)

/-- Whether a relation holds between neighbours; nothing behind the first pair outside it is
    forced. -/
def chained (bound : Nat) (b : Builtin) (holds : Ordering → Bool) (arguments : Ref) :
    Script Outcome := do
  let (last?, all) ← (← forceList arguments).walk (fun (last?, _) r => do
    let v ← force r
    match last? with
    | none => pure (.yield (some v, true))
    | some last =>
      if holds (← Value.compare bound last v) then pure (.yield (some v, true))
      else pure (.done (some v, false))) bound ((none : Option Value), true)
  if last?.isNone then fail (.tooFew b.name 1) else answer (.bool all)

def compareTwo (bound : Nat) (left right : Ref) : Script Outcome := do
  let left ← force left
  match ← Value.compare bound left (← force right) with
  | .lt => answer (.number .minusOne)
  | .eq => answer (.number .zero)
  | .gt => answer (.number .one)

def hasOrder (r : Ref) : Script Outcome := do
  answer (.bool (← force r).isOrdered)

end Builtin
end CallByNeed
