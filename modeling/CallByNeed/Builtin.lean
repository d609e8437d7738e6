/- The builtin functions and their names. -/
namespace CallByNeed

inductive Builtin where
  | sum | product | difference | quotient | floorQuotient | remainder | power | isInt
  | equal | less | lessEq | greater | greaterEq | compare | isOrdered
  | merge | append | first | rest | prepend | insert | delete | include | index | size
  | toList | list | dict
  | choose | partialCall | typeOf | toStr | dump | error | catch | fix | fixAll
  | seq | effectSeq | par | rally
  | write | read
  deriving DecidableEq, Repr

namespace Builtin

def name : Builtin → String
  | .sum => "+"
  | .product => "*"
  | .difference => "-"
  | .quotient => "/"
  | .floorQuotient => "//"
  | .remainder => "mod"
  | .power => "**"
  | .isInt => "isInt"
  | .equal => "="
  | .less => "<"
  | .lessEq => "<="
  | .greater => ">"
  | .greaterEq => ">="
  | .compare => "compare"
  | .isOrdered => "isOrdered"
  | .merge => "merge"
  | .append => "append"
  | .first => "first"
  | .rest => "rest"
  | .prepend => "prepend"
  | .insert => "insert"
  | .delete => "delete"
  | .include => "include"
  | .index => "index"
  | .size => "size"
  | .toList => "toList"
  | .list => "list"
  | .dict => "dict"
  | .choose => "if"
  | .partialCall => "partial"
  | .typeOf => "typeOf"
  | .toStr => "toStr"
  | .dump => "dump"
  | .error => "error"
  | .catch => "catch"
  | .fix => "y"
  | .fixAll => "ys"
  | .seq => "seq"
  | .effectSeq => "effectSeq"
  | .par => "par"
  | .rally => "rally"
  | .write => "write"
  | .read => "read"

def all : List Builtin :=
  [.sum, .product, .difference, .quotient, .floorQuotient, .remainder, .power, .isInt,
   .equal, .less, .lessEq, .greater, .greaterEq, .compare, .isOrdered,
   .merge, .append, .first, .rest, .prepend, .insert, .delete, .include, .index, .size,
   .toList, .list, .dict,
   .choose, .partialCall, .typeOf, .toStr, .dump, .error, .catch, .fix, .fixAll,
   .seq, .effectSeq, .par, .rally,
   .write, .read]

def named? (name : String) : Option Builtin := all.find? fun b => b.name == name

end Builtin

/-- What a name means when the program does not define it. -/
inductive Predefined where
  | constant (b : Bool)
  | function (b : Builtin)
  deriving DecidableEq, Repr

namespace Predefined

def named? (name : String) : Option Predefined :=
  if name == "true" then some (.constant true)
  else if name == "false" then some (.constant false)
  else (Builtin.named? name).map .function

/-- All predefined names, ascending. -/
def names : List String :=
  ("true" :: "false" :: Builtin.all.map Builtin.name).mergeSort fun a b => a ≤ b

end Predefined
end CallByNeed
