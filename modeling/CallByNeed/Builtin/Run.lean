import CallByNeed.Builtin.Collections
import CallByNeed.Builtin.Control
import CallByNeed.Builtin.Ordering
import CallByNeed.Builtin.Streams

/- The body of each builtin, on its bound parameters. -/
namespace CallByNeed

/-- A binding gives every builtin as many cells as it has parameters. -/
def Builtin.run (bound : Nat) : Builtin → List Ref → Script Outcome
  | .sum, [numbers] => sumOf bound numbers
  | .product, [numbers] => productOf bound numbers
  | .difference, [head, others] => foldFrom bound .difference .sub head others
  | .quotient, [head, others] => foldFrom bound .quotient .div head others
  | .floorQuotient, [head, others] => foldFrom bound .floorQuotient .floorDiv head others
  | .remainder, [left, right] => binary .remainder left right
  | .power, [left, right] => binary .power left right
  | .isInt, [r] => isIntegral r
  | .equal, [arguments] => allEqual bound arguments
  | .less, [arguments] => chained bound .less (· == .lt) arguments
  | .lessEq, [arguments] => chained bound .lessEq (· != .gt) arguments
  | .greater, [arguments] => chained bound .greater (· == .gt) arguments
  | .greaterEq, [arguments] => chained bound .greaterEq (· != .lt) arguments
  | .compare, [left, right] => compareTwo bound left right
  | .isOrdered, [r] => hasOrder r
  | .merge, [head, others] => mergeAll bound head others
  | .append, [l, elements] => appendAll l elements
  | .first, [l] => do pure (.tail (← (← forceList l).first))
  | .rest, [l] => do pure (.tail (← (← forceList l).rest))
  | .prepend, [arguments] => prependAll bound arguments
  | .insert, [collection, key, value] => insertInto bound collection key value
  | .delete, [collection, key] => deleteFrom bound collection key
  | .include, [collection, element] => includes bound collection element
  | .index, [collection, key] => indexOf bound collection key
  | .size, [collection] => sizeOf bound collection
  | .toList, [collection] => toLazyList collection
  | .list, [elements] => pure (.tail elements)
  | .dict, [arguments] => dictOf bound arguments
  | .choose, [condition, yes, no] => chooseBranch condition yes no
  | .partialCall, [function, arguments, keywords] =>
    answer (.native (.partialCall function arguments keywords))
  | .typeOf, [r] => typeName r
  | .toStr, [r] => textOf bound r
  | .dump, [r] => dumpOf bound r
  | .error, [name, message] => raiseCustom name message
  | .catch, [r] => catchFault r
  | .fix, [function] => fixedPoint function
  | .fixAll, [functions] => fixedPoints bound functions
  | .seq, [head, others] => inSequence bound head others
  | .effectSeq, [head, others] => effectsInSequence bound head others
  | .par, [head, others] => inParallel bound head others
  | .rally, [arguments] => rallyAll bound arguments
  | .write, [arguments, separator, ending, file, mode] =>
    writeTo bound arguments separator ending file mode
  | .read, [file] => readFrom file
  | _, _ => .panic .missingParameter

end CallByNeed
