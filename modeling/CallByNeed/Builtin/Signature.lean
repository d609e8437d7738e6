import CallByNeed.Value

/- Signatures of the builtin functions, and the values of predefined names. -/
namespace CallByNeed

namespace Builtin

/-- Defaults of the optional parameters of `write`: words apart, a line end, standard output,
    permission bits 664. -/
def writeOptionals : List (String × Default) :=
  [("sep", .literal (.string " ")), ("end", .literal (.string "\n")),
   ("file", .literal (.number .one)), ("mode", .literal (.number (.ofDyadic false 0o664 0)))]

def signature : Builtin → Signature Default
  | .sum | .product => .plain [] (some "nums")
  | .difference => .plain ["minuend"] (some "subtrahends")
  | .quotient | .floorQuotient => .plain ["dividend"] (some "divisors")
  | .remainder => .plain ["dividend", "divisor"]
  | .power => .plain ["base", "exponent"]
  | .isInt => .plain ["number"]
  | .equal | .less | .lessEq | .greater | .greaterEq => .plain [] (some "args")
  | .compare => .plain ["left", "right"]
  | .isOrdered | .typeOf | .toStr | .dump | .catch => .plain ["arg"]
  | .merge => .plain ["collection"] (some "collections")
  | .append => .plain ["list"] (some "elems")
  | .first | .rest => .plain ["list"]
  | .prepend => .plain [] (some "elemsAndList")
  | .insert => .plain ["collection", "key", "value"]
  | .delete | .index => .plain ["collection", "key"]
  | .include => .plain ["collection", "elem"]
  | .size | .toList => .plain ["collection"]
  | .list => .plain [] (some "elems")
  | .dict => .plain [] (some "keyValuePairs")
  | .choose => .plain ["condition", "then", "else"]
  | .partialCall =>
    { positional := { requireds := ["function"], rest := some "args" },
      keyword := { rest := some "kwargs" } }
  | .error => .plain ["name", "message"]
  | .fix => .plain ["function"]
  | .fixAll => .plain [] (some "functions")
  | .seq | .par => .plain ["arg"] (some "args")
  | .effectSeq => .plain ["effect"] (some "effects")
  | .rally => .plain [] (some "args")
  | .write =>
    { positional := { rest := some "args" }, keyword := { optionals := writeOptionals } }
  | .read => { keyword := { optionals := [("file", .literal (.number .zero))] } }

def isEffect : Builtin → Bool
  | .write | .effectSeq => true
  | _ => false

def function (b : Builtin) : Function :=
  { name := b.name, signature := b.signature, body := .builtin b, isEffect := b.isEffect }

end Builtin

def Predefined.value : Predefined → Value
  | .constant b => .bool b
  | .function b => .function b.function

end CallByNeed
