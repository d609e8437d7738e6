import CallByNeed.Builtin
import CallByNeed.Dict
import CallByNeed.Fault

/- Values and the code they carry. Everything lazy is a reference to a cell of the heap, so all of
   this is finite data. -/
namespace CallByNeed

/-- The address of a cell. -/
structure Ref where
  index : Nat
  deriving DecidableEq, Repr, Inhabited

/-- The constants a program can write down. -/
inductive Literal where
  | bool (b : Bool)
  | number (x : Number)
  | string (s : String)
  deriving DecidableEq, Repr

/-- One half of a signature; `δ` says how a default is given. -/
structure Half (δ : Type) where
  requireds : List String := []
  optionals : List (String × δ) := []
  rest : Option String := none
  deriving Repr

namespace Half
variable {δ : Type}

def arity (h : Half δ) : Nat :=
  h.requireds.length + h.optionals.length + h.rest.toList.length

/-- Parameter names in binding order. -/
def names (h : Half δ) : List String :=
  h.requireds ++ h.optionals.map (·.1) ++ h.rest.toList

theorem length_names (h : Half δ) : h.names.length = h.arity := by
  simp [names, arity, Nat.add_assoc]

end Half

/-- Positional parameters first, keyword parameters after them. -/
structure Signature (δ : Type) where
  positional : Half δ := {}
  keyword : Half δ := {}
  deriving Repr

namespace Signature
variable {δ : Type}

def arity (s : Signature δ) : Nat := s.positional.arity + s.keyword.arity

def names (s : Signature δ) : List String := s.positional.names ++ s.keyword.names

/-- A signature without keyword parameters or defaults. -/
def plain (requireds : List String) (rest : Option String := none) : Signature δ :=
  { positional := { requireds, rest } }

end Signature

/-- The default of an optional parameter: a constant, or a cell shared by all calls. -/
inductive Default where
  | literal (l : Literal)
  | cell (r : Ref)
  deriving Repr

/-- The arguments of one call: explicit positionals, then the elements of a list that is still
    lazy, keywords, and dictionaries of further keywords. -/
structure Arguments where
  positionals : List Ref := []
  spread : Option Ref := none
  keywords : List (String × Ref) := []
  dicts : List Ref := []
  deriving Repr

/- Code of functions: names are resolved to cells, patterns to keys. -/
mutual
inductive Expr where
  | literal (l : Literal)
  | predefined (p : Predefined)
  | cell (r : Ref)
  /-- A parameter, or a binding after the parameters. -/
  | «local» (index : Nat)
  | call (function : Expr) (positionals : List PositionalExpr) (keywords : List KeywordExpr)
      (dicts : List Expr) (site : Option Location)
  | switch (value : Expr) (cases : List CaseExpr) (default : Option Expr)

structure PositionalExpr where
  value : Expr
  expanded : Bool

structure KeywordExpr where
  name : String
  value : Expr

structure CaseExpr where
  pattern : Key
  result : Expr
end

instance : Inhabited Expr := ⟨.literal (.bool false)⟩

inductive Body where
  | builtin (b : Builtin)
  /-- Bindings, each seeing the parameters and the bindings before it, and a result. -/
  | code (bindings : List Expr) (result : Expr)
  /-- Answers one parameter. -/
  | parameter (index : Nat)
  /-- Answers the list of all parameters. -/
  | parameters

/-- A call of an effect function binds its arguments and answers an effect that runs the body. -/
structure Function where
  name : String
  signature : Signature Default
  body : Body
  isEffect : Bool := false

/-- Functions over unbound arguments. -/
inductive Native where
  | partialCall (function arguments keywords : Ref)
  | fixedPoint (function self : Ref)

namespace Native

def name : Native → String
  | .partialCall _ _ _ => "partial"
  | .fixedPoint _ _ => "fixed point"

end Native

/-- A list as far as it is known: its first cell. Heads and tails are lazy. -/
inductive LazyList where
  | nil
  | cons (head tail : Ref)
  deriving Repr

inductive Value where
  | bool (b : Bool)
  | number (x : Number)
  | string (s : String)
  | list (l : LazyList)
  | dict (d : Dict Ref)
  | function (f : Function)
  | native (f : Native)
  | error (e : Fault)
  /-- An action that has not run; only performing it shows its result. -/
  | effect (action : Ref)

instance : Inhabited Value := ⟨.bool false⟩

def Literal.value : Literal → Value
  | .bool b => .bool b
  | .number x => .number x
  | .string s => .string s

namespace Value

def type : Value → ValueType
  | .bool _ => .bool
  | .number _ => .number
  | .string _ => .string
  | .list _ => .list
  | .dict _ => .dict
  | .function _ | .native _ => .function
  | .error _ => .error
  | .effect _ => .effect

def isOrdered : Value → Bool
  | .bool _ | .number _ | .string _ | .list _ | .dict _ => true
  | _ => false

def isCallable : Value → Bool
  | .function _ | .native _ | .list _ | .dict _ => true
  | _ => false

/-- Has a text of its own. -/
def isStringable : Value → Bool := isOrdered

/-- Has a dumped form other than its text. -/
def isDumpable : Value → Bool
  | .string _ | .function _ | .native _ | .effect _ => true
  | _ => false

/-- A faulty value leaves a call through its site. -/
def through? (v : Value) (site : Option Location) : Value :=
  match v with
  | .error e => .error (e.through? site)
  | v => v

/-- One line about the value that forces nothing. -/
def describe : Value → String
  | .bool b => s!"Bool({b})"
  | .number x => s!"Number({x.text})"
  | .string s => s!"String({Text.quote s})"
  | .list _ => "List(..)"
  | .dict d => s!"Dictionary(size={d.size})"
  | .function f => s!"Function({f.name})"
  | .native f => s!"Native({f.name})"
  | .error e => s!"Error({e.summary})"
  | .effect _ => "Effect(..)"

end Value

/-- A resolved switch with the locals it was built among. -/
structure Branch where
  cases : List CaseExpr
  default : Option Expr
  locals : List Ref

/-- Work that waits in a cell without being a call. -/
inductive Suspension where
  | branch (b : Branch) (matched : Ref)
  /-- The rest of a concatenation: a tail of the current list and the lists after it. -/
  | concat (tail rest : Ref)
  | entries (es : List (Key × Ref))
  /-- The body of a called effect function. -/
  | action (body : Body) (parameters : List Ref)
  | rally (id : Nat)
  /-- Leaves its label in the trace and goes on with its target. -/
  | traced (label : String) (target : Ref)

inductive Task where
  | call (function : Ref) (arguments : Arguments)
  | resume (s : Suspension)

/-- The work of an unforced cell; a fault on its way out passes the site. -/
structure Work where
  task : Task
  site : Option Location := none

end CallByNeed
