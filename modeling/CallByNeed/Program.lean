import CallByNeed.Value

/- Programs as they are written: definitions that may refer to each other in any order, and the
   outputs to run. -/
namespace CallByNeed

mutual
inductive Node where
  | literal (l : Literal)
  /-- A parameter or binding of the enclosing function. -/
  | «local» (index : Nat)
  /-- A definition, or a predefined name that no definition hides. -/
  | global (name : String)
  | call (function : Node) (positionals : List PositionalNode) (keywords : List KeywordNode)
      (dicts : List Node) (site : Option Location)
  | switch (value : Node) (cases : List CaseNode) (default : Option Node)

structure PositionalNode where
  value : Node
  expanded : Bool

structure KeywordNode where
  name : String
  value : Node

structure CaseNode where
  pattern : Node
  value : Node
end

instance : Inhabited Node := ⟨.literal (.bool false)⟩

inductive Definition where
  | variable (name : String) (value : Node)
  | function (name : String) (signature : Signature Node) (bindings : List Node) (result : Node)

def Definition.name : Definition → String
  | .variable name _ | .function name _ _ _ => name

structure OutputNode where
  value : Node
  /-- The output is a list whose elements are run as outputs. -/
  expanded : Bool := false

structure Program where
  definitions : List Definition := []
  outputs : List OutputNode := []

def Program.names (p : Program) : List String := p.definitions.map Definition.name

end CallByNeed
