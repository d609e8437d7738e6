import CallByNeed.Arguments

/- Binding: one cell per parameter, in the order of the signature. Positional parameters take
   positionals until one of them finds none; from there on they, like keyword parameters, go by
   name. -/
namespace CallByNeed

def Default.ref : Default → Script Ref
  | .literal l => allocValue l.value
  | .cell r => pure r

/-- A binding under way. -/
structure Binding where
  left : Arguments
  /-- Whether positional parameters have begun to go by name. -/
  named : Bool := false
  /-- Bound cells, the last one first. -/
  bound : List Ref := []

namespace Binding

def push (b : Binding) (r : Ref) (left : Arguments) : Binding :=
  { b with left, bound := r :: b.bound }

/-- What a positional parameter finds. -/
def findPositional (b : Binding) (name : String) : Script (Option Ref × Binding) := do
  let byName (left : Arguments) : Script (Option Ref × Binding) := do
    let (found, left) ← left.takeKeyword name
    pure (found, { b with left, named := true })
  if b.named then byName b.left
  else
    match ← b.left.nextPositional with
    | (some r, left) => pure (some r, { b with left })
    | (none, left) => byName left

def findKeyword (b : Binding) (name : String) : Script (Option Ref × Binding) := do
  let (found, left) ← b.left.takeKeyword name
  pure (found, { b with left })

/-- Binds the parameters of one half that are not its rest. -/
def bindNamed (find : Binding → String → Script (Option Ref × Binding)) (missing : Cause)
    (half : Half Default) (b : Binding) : Script Binding := do
  let b ← half.requireds.foldlM (fun b name => do
    match ← find b name with
    | (some r, b) => pure (b.push r b.left)
    | (none, _) => fail missing) b
  half.optionals.foldlM (fun b optional => do
    match ← find b optional.1 with
    | (some r, b) => pure (b.push r b.left)
    | (none, b) => pure (b.push (← optional.2.ref) b.left)) b

/-- Binds the rest parameter of a half if it has one. -/
def bindRest (rest : Arguments → Script (Ref × Arguments)) (half : Half Default) (b : Binding) :
    Script Binding :=
  match half.rest with
  | none => pure b
  | some _ => do
    let (r, left) ← rest b.left
    pure (b.push r left)

end Binding

/-- One cell per parameter, or the fault of arguments that do not fit. -/
def Signature.bind (s : Signature Default) (a : Arguments) : Script (List Ref) := do
  let b : Binding := { left := a }
  let b ← b.bindNamed Binding.findPositional .missingPositional s.positional
  let b ← b.bindRest Arguments.restPositionals s.positional
  let b ← b.bindNamed Binding.findKeyword .missingKeyword s.keyword
  let b ← b.bindRest Arguments.restKeywords s.keyword
  b.left.checkTaken
  pure b.bound.reverse

end CallByNeed
