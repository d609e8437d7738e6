import CallByNeed.Program
import CallByNeed.Json

/- Resolving names. Every definition has a handle; a name is a definition's handle or predefined, a
   local must be in range, a switch must have a way out, a pattern must be a constant. -/
namespace CallByNeed

inductive LoadError where
  | json (flaw : Json.Flaw)
  | duplicateDefinition (name : String)
  | circularDefinition (name : String)
  | unknownName (name context : String)
  | localOutOfRange (index : Nat) (context : String) (locals : Nat)
  | emptySwitch (context : String)
  | invalidPattern (context : String)
  deriving DecidableEq, Repr

def LoadError.message : LoadError → String
  | .json .truncated => "invalid program: unexpected end"
  | .json .malformed => "invalid program: malformed text"
  | .json .mismatched => "invalid program: not a program"
  | .duplicateDefinition name => s!"{name} is defined more than once"
  | .circularDefinition name => s!"{name} is an alias of itself"
  | .unknownName name context => s!"name {name} is not found in {context}"
  | .localOutOfRange index context locals =>
    s!"local index {index} is out of range in {context} ({locals} locals)"
  | .emptySwitch context => s!"switch in {context} has neither cases nor a default"
  | .invalidPattern context => s!"switch pattern in {context} is not a literal"

/-- Where an expression stands: its definition, none for outputs, and how many locals it sees. -/
structure Scope where
  definition : Option String := none
  locals : Nat := 0

namespace Scope

def context (s : Scope) : String := s.definition.getD "outputs"

/-- A call site without a name belongs to the definition it stands in. -/
def site (s : Scope) (l : Location) : Location :=
  match s.definition with
  | some name => if l.name.isEmpty then { l with name } else l
  | none => l

end Scope

/-- The handles of all definitions. -/
abbrev Handles := List (String × Ref)

namespace Node

/-- The key of a pattern. A name that a definition hides is no constant. -/
def pattern (handles : Handles) (scope : Scope) : Node → Except LoadError Key
  | .literal (.bool b) => pure (.bool b)
  | .literal (.number x) => pure (.number x)
  | .literal (.string s) => pure (.string s)
  | .global name =>
    if (handles.lookup name).isSome then .error (.invalidPattern scope.context)
    else
      match Predefined.named? name with
      | some (.constant b) => pure (.bool b)
      | some (.function _) => .error (.invalidPattern scope.context)
      | none => .error (.unknownName name scope.context)
  | _ => .error (.invalidPattern scope.context)

mutual
def resolve (handles : Handles) (scope : Scope) : Node → Except LoadError Expr
  | .literal l => pure (.literal l)
  | .local i =>
    if i < scope.locals then pure (.local i)
    else .error (.localOutOfRange i scope.context scope.locals)
  | .global name =>
    match handles.lookup name with
    | some r => pure (.cell r)
    | none =>
      match Predefined.named? name with
      | some p => pure (.predefined p)
      | none => .error (.unknownName name scope.context)
  | .call function positionals keywords dicts site => do
    pure (.call (← resolve handles scope function)
      (← resolvePositionals handles scope positionals)
      (← resolveKeywords handles scope keywords)
      (← resolveAll handles scope dicts) (site.map scope.site))
  | .switch value cases default =>
    if cases.isEmpty && default.isNone then .error (.emptySwitch scope.context)
    else do
      let cases ← resolveCases handles scope cases
      let default ← resolveOption handles scope default
      pure (.switch (← resolve handles scope value) cases default)

def resolvePositionals (handles : Handles) (scope : Scope) :
    List PositionalNode → Except LoadError (List PositionalExpr)
  | [] => pure []
  | ⟨value, expanded⟩ :: rest => do
    let value ← resolve handles scope value
    pure (⟨value, expanded⟩ :: (← resolvePositionals handles scope rest))

def resolveKeywords (handles : Handles) (scope : Scope) :
    List KeywordNode → Except LoadError (List KeywordExpr)
  | [] => pure []
  | ⟨name, value⟩ :: rest => do
    let value ← resolve handles scope value
    pure (⟨name, value⟩ :: (← resolveKeywords handles scope rest))

def resolveCases (handles : Handles) (scope : Scope) :
    List CaseNode → Except LoadError (List CaseExpr)
  | [] => pure []
  | ⟨key, value⟩ :: rest => do
    let key ← key.pattern handles scope
    let value ← resolve handles scope value
    pure (⟨key, value⟩ :: (← resolveCases handles scope rest))

def resolveAll (handles : Handles) (scope : Scope) : List Node → Except LoadError (List Expr)
  | [] => pure []
  | node :: rest => do
    let e ← resolve handles scope node
    pure (e :: (← resolveAll handles scope rest))

def resolveOption (handles : Handles) (scope : Scope) :
    Option Node → Except LoadError (Option Expr)
  | none => pure none
  | some node => do pure (some (← resolve handles scope node))
end

end Node

namespace Half

/-- Defaults see no locals. -/
def resolve (handles : Handles) (scope : Scope) (h : Half Node) :
    Except LoadError (Half Expr) := do
  let optionals ← h.optionals.mapM fun optional => do
    pure (optional.1, ← optional.2.resolve handles scope)
  pure { requireds := h.requireds, optionals, rest := h.rest }

end Half

namespace Signature

def resolve (handles : Handles) (name : String) (s : Signature Node) :
    Except LoadError (Signature Expr) := do
  let scope : Scope := { definition := some name }
  pure { positional := ← s.positional.resolve handles scope
         keyword := ← s.keyword.resolve handles scope }

end Signature

/-- A definition with its names resolved. -/
inductive Meaning where
  | variable (value : Expr)
  | function (name : String) (signature : Signature Expr) (bindings : List Expr) (result : Expr)

namespace Definition

/-- Each binding sees the parameters and the bindings before it. -/
def resolveBindings (handles : Handles) (name : String) :
    Nat → List Node → Except LoadError (List Expr)
  | _, [] => pure []
  | locals, node :: rest => do
    let e ← node.resolve handles { definition := some name, locals }
    pure (e :: (← resolveBindings handles name (locals + 1) rest))

def resolve (handles : Handles) : Definition → Except LoadError Meaning
  | .variable name value => do
    pure (.variable (← value.resolve handles { definition := some name }))
  | .function name signature bindings result => do
    let arity := signature.arity
    let signature ← signature.resolve handles name
    let es ← resolveBindings handles name arity bindings
    let locals := arity + bindings.length
    pure (.function name signature es
      (← result.resolve handles { definition := some name, locals }))

end Definition

namespace Program

/-- Fails at the first name that was defined before. -/
def checkNames : List String → List String → Except LoadError Unit
  | _, [] => pure ()
  | before, name :: rest =>
    if before.contains name then .error (.duplicateDefinition name)
    else checkNames (name :: before) rest

/-- Variables that are only another definition's name, with that name. -/
def aliases (definitions : List Definition) : List (String × String) :=
  let names := definitions.map Definition.name
  definitions.filterMap fun d =>
    match d with
    | .variable name (.global target) => if names.contains target then some (name, target) else none
    | _ => none

/-- Follows aliases for at most a number of steps. -/
def follow (aliases : List (String × String)) : Nat → String → String
  | 0, name => name
  | steps + 1, name =>
    match aliases.lookup name with
    | some target => follow aliases steps target
    | none => name

/-- Fails if some alias leads back to itself. As many steps as there are aliases lead out of every
    chain of them, or onto a cycle. -/
def checkAliases (aliases : List (String × String)) : Except LoadError Unit :=
  let ends := aliases.map fun a => follow aliases aliases.length a.1
  match ends.find? fun name => (aliases.lookup name).isSome with
  | some name => .error (.circularDefinition name)
  | none => pure ()

end Program
end CallByNeed
