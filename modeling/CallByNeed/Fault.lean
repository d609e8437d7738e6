import CallByNeed.Number.Decimal

/- Faults: what went wrong, and the call sites it passed on its way out. The wording of every
   message is `Cause.message`; nothing else in the library words an error. -/
namespace CallByNeed

/-- A call site. `name` is the enclosing definition, empty at the top. -/
structure Location where
  name : String
  file : String
  line : Nat
  column : Nat
  deriving DecidableEq, Repr

def Location.text (l : Location) : String :=
  let place := s!"{l.file}:{l.line}:{l.column}"
  if l.name.isEmpty then place else s!"{place} in {l.name}"

/-- The type of a value, as programs and messages see it. -/
inductive ValueType where
  | bool
  | number
  | string
  | list
  | dict
  | function
  | error
  | effect
  deriving DecidableEq, Repr

def ValueType.name : ValueType → String
  | .bool => "bool"
  | .number => "number"
  | .string => "string"
  | .list => "list"
  | .dict => "dict"
  | .function => "function"
  | .error => "error"
  | .effect => "effect"

/-- What a stream or file refused. -/
inductive FileError where
  | notFound
  | isDirectory
  | notDirectory
  | notText
  | nulInName
  | other (message : String)
  deriving DecidableEq, Repr

def FileError.message : FileError → String
  | .notFound => "No such file or directory (os error 2)"
  | .isDirectory => "Is a directory (os error 21)"
  | .notDirectory => "Not a directory (os error 20)"
  | .notText => "stream did not contain valid UTF-8"
  | .nulInName => "file name contained an unexpected NUL byte"
  | .other message => message

inductive Cause where
  | notCallable (type : ValueType)
  | notComparable (type : ValueType)
  | mixedComparison (left right : ValueType)
  | notList (type : ValueType)
  | notDict (type : ValueType)
  | notString (type : ValueType)
  | notNumber (type : ValueType)
  | notBool (type : ValueType)
  | notEffect (type : ValueType)
  | notCollection (type : ValueType)
  | notMergeable (type : ValueType)
  | impure
  | missingPositional
  | missingKeyword
  | extraPositionals (count : Nat)
  | extraKeywords (count : Nat)
  | tooFew (function : String) (least : Nat)
  | noListToPrepend
  | oddDictArguments
  | keyNotFound (key : String)
  | fractionalIndex (index : Number)
  | outOfRange
  | emptyList
  | badSink
  | badSource
  | noMatch
  | file (error : FileError)
  | custom (name message : String)
  deriving DecidableEq, Repr

namespace Cause

/-- The name programs see; a custom fault brings its own. -/
def name : Cause → String
  | .notCallable _ => "NotCallableError"
  | .notComparable _ | .mixedComparison _ _ => "NotComparableError"
  | .notList _ => "NotListError"
  | .notDict _ => "NotDictionaryError"
  | .notString _ => "NotStringError"
  | .notNumber _ => "NotNumberError"
  | .notBool _ => "NotBoolError"
  | .notEffect _ => "NotEffectError"
  | .notCollection _ | .notMergeable _ => "TypeError"
  | .impure => "ImpureFunctionError"
  | .missingPositional | .missingKeyword | .extraPositionals _ | .extraKeywords _
  | .tooFew _ _ | .noListToPrepend | .oddDictArguments => "ArgumentError"
  | .keyNotFound _ => "KeyNotFoundError"
  | .fractionalIndex _ | .outOfRange | .emptyList | .badSink | .badSource => "ValueError"
  | .noMatch => "MatchError"
  | .file _ => "FileSystemError"
  | .custom name _ => name

def message : Cause → String
  | .notCallable t => s!"{t.name} is not callable"
  | .notComparable t => s!"{t.name} is not comparable"
  | .mixedComparison a b => s!"cannot compare {a.name} with {b.name}"
  | .notList t => s!"{t.name} is not a list"
  | .notDict t => s!"{t.name} is not a dictionary"
  | .notString t => s!"{t.name} is not a string"
  | .notNumber t => s!"{t.name} is not a number"
  | .notBool t => s!"{t.name} is not a bool"
  | .notEffect t => s!"{t.name} is not an effect"
  | .notCollection t => s!"{t.name} is not a collection"
  | .notMergeable t => s!"{t.name} cannot be merged"
  | .impure => "effects cannot be forced as pure values"
  | .missingPositional => "could not bind required positional argument"
  | .missingKeyword => "could not bind required keyword argument"
  | .extraPositionals n => s!"{n} positional arguments are left"
  | .extraKeywords n => s!"{n} keyword arguments are left"
  | .tooFew f 1 => s!"{f} needs at least 1 argument"
  | .tooFew f n => s!"{f} needs at least {n} arguments"
  | .noListToPrepend => "prepend needs a list"
  | .oddDictArguments => "dict needs an even number of arguments"
  | .keyNotFound key => s!"key {key} is not found"
  | .fractionalIndex i => s!"index {i.text} is not an integer"
  | .outOfRange => "index is out of range"
  | .emptyList => "list is empty"
  | .badSink => "file optional argument's value must be 1 or 2, or a string filename"
  | .badSource => "file optional argument's value must be 0 or a string filename"
  | .noMatch => "value didn't match with any pattern"
  | .file e => e.message
  | .custom _ message => message

/-- Raised by a comparison of values without an order between them. A custom fault of the same name
    does not count. -/
def isIncomparable : Cause → Bool
  | .notComparable _ | .mixedComparison _ _ => true
  | _ => false

end Cause

/-- A fault on its way out. `passed` holds the call sites, the last one passed first. -/
structure Fault where
  cause : Cause
  passed : List Location := []
  deriving DecidableEq, Repr

namespace Fault

def name (e : Fault) : String := e.cause.name

def message (e : Fault) : String := e.cause.message

/-- Call sites in the order they were passed, innermost first. -/
def chain (e : Fault) : List Location := e.passed.reverse

def through (e : Fault) (site : Location) : Fault := { e with passed := site :: e.passed }

/-- Only calls that carry a site leave a trace. -/
def through? (e : Fault) : Option Location → Fault
  | some site => e.through site
  | none => e

theorem chain_through (e : Fault) (site : Location) :
    (e.through site).chain = e.chain ++ [site] := by
  simp [chain, through]

/-- One line for name and message. -/
def summary (e : Fault) : String := s!"{e.name}: {e.message}"

/-- The call sites, a line each, and then the summary. -/
def report (e : Fault) : String :=
  String.join (e.chain.map fun site => s!"    at {site.text}\n") ++ s!"{e.summary}\n"

end Fault
end CallByNeed
