import CallByNeed.Expr.Interpret
import CallByNeed.Program.OfJson
import CallByNeed.Program.Resolve

/- Loading: every definition gets a handle, everything is resolved, cells are built, and the handles
   are filled last. Loading forces nothing. -/
namespace CallByNeed

structure Output where
  cell : Ref
  /-- The cell holds a list whose elements are outputs. -/
  expanded : Bool

structure Module where
  definitions : Handles
  outputs : List Output

namespace Signature
variable {m : Type → Type} [Monad m] [Allocates m]

def shareHalf (h : Half Expr) : m (Half Default) := do
  let optionals ← h.optionals.mapM fun optional => do
    pure (optional.1, Default.cell (← optional.2.interpret []))
  pure { requireds := h.requireds, optionals, rest := h.rest }

/-- Defaults become cells that all calls share. -/
def share (s : Signature Expr) : m (Signature Default) := do
  pure { positional := ← shareHalf s.positional, keyword := ← shareHalf s.keyword }

end Signature

namespace Program

section
variable {m : Type → Type} [Monad m] [Allocates m]

def allocHandles (names : List String) : m Handles :=
  names.mapM fun name => do pure (name, ← alloc .vacant)

/-- The cell of a definition. -/
def build : Meaning → m Ref
  | .variable value => value.interpret []
  | .function name signature bindings result => do
    allocValue (.function
      { name, signature := ← signature.share, body := .code bindings result })

end

def fillAll : List Ref → List Ref → Heap → Heap
  | handle :: handles, target :: targets, h => fillAll handles targets (h.fill handle target).2
  | _, _, h => h

def load (p : Program) (heap : Heap) : Except LoadError (Module × Heap) := do
  checkNames [] p.names
  checkAliases (aliases p.definitions)
  let (handles, heap) := (allocHandles p.names : StateM Heap Handles).run heap
  let meanings ← p.definitions.mapM (Definition.resolve handles)
  let outputs ← p.outputs.mapM fun o => do pure (← o.value.resolve handles {}, o.expanded)
  let (cells, heap) := (meanings.mapM build : StateM Heap (List Ref)).run heap
  let (outputs, heap) := (outputs.mapM fun o => do
    pure { cell := ← o.1.interpret [], expanded := o.2 } : StateM Heap (List Output)).run heap
  pure ({ definitions := handles, outputs }, fillAll (handles.map (·.2)) cells heap)

def loadJson (x : Json) (heap : Heap) : Except LoadError (Module × Heap) :=
  match ofJson x with
  | .ok p => p.load heap
  | .error flaw => .error (.json flaw)

def loadText (text : String) (heap : Heap) : Except LoadError (Module × Heap) :=
  match Json.parse text with
  | .ok x => loadJson x heap
  | .error flaw => .error (.json flaw)

end Program
end CallByNeed
