import CallByNeed.LazyList
import CallByNeed.Builtin.Signature

/- Arithmetic. Arguments are forced from left to right, each before the next tail of the list that
   holds them. -/
namespace CallByNeed

/-- What a function answers: a value, or a cell whose result is its own. -/
inductive Outcome where
  | value (v : Value)
  | tail (r : Ref)

def answer (v : Value) : Script Outcome := pure (.value v)

namespace Builtin

/-- Folds the numbers of a list. -/
def foldNumbers (bound : Nat) (op : Number → Number → Number) (start : Number) (numbers : Ref) :
    Script Number := do
  (← forceList numbers).walk (fun total r => do
    pure (.yield (op total (← forceNumber r)))) bound start

/-- The sum of no numbers is -0, which changes no sum. -/
def sumOf (bound : Nat) (numbers : Ref) : Script Outcome := do
  answer (.number (← foldNumbers bound .add .negativeZero numbers))

def productOf (bound : Nat) (numbers : Ref) : Script Outcome := do
  answer (.number (← foldNumbers bound .mul .one numbers))

/-- Folds a first number and at least one more. -/
def foldFrom (bound : Nat) (b : Builtin) (op : Number → Number → Number) (first rest : Ref) :
    Script Outcome := do
  let first ← forceNumber first
  let (count, total) ← (← forceList rest).walk (fun (count, total) r => do
    pure (.yield (count + 1, op total (← forceNumber r)))) bound (0, first)
  if count = 0 then fail (.tooFew b.name 2) else answer (.number total)

def binary (op : Number → Number → Number) (left right : Ref) : Script Outcome := do
  let left ← forceNumber left
  answer (.number (op left (← forceNumber right)))

def isIntegral (r : Ref) : Script Outcome := do
  answer (.bool (← forceNumber r).toInt?.isSome)

end Builtin
end CallByNeed
