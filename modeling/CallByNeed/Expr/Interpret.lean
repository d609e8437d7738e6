import CallByNeed.Arguments

/- Interpreting code among locals. It builds cells and forces none of them. -/
namespace CallByNeed

namespace Expr
variable {m : Type → Type} [Monad m] [Allocates m]

mutual
/-- The cell of an expression among its locals. A local out of range is a handle never filled. -/
def interpret (locals : List Ref) : Expr → m Ref
  | .literal l => allocValue l.value
  | .predefined p => allocValue p.value
  | .cell r => pure r
  | .local i =>
    match locals[i]? with
    | some r => pure r
    | none => alloc .vacant
  | .call function positionals keywords dicts site => do
    let function ← interpret locals function
    let positionals ← interpretPositionals locals positionals
    let keywords ← interpretKeywords locals keywords
    let dicts ← interpretAll locals dicts
    let arguments ← Arguments.ofCall positionals keywords dicts
    alloc (.ofCall function arguments site)
  | .switch value cases default => do
    let matched ← interpret locals value
    alloc (.ofSuspension (.branch { cases, default, locals } matched))

def interpretPositionals (locals : List Ref) : List PositionalExpr → m (List (Ref × Bool))
  | [] => pure []
  | ⟨value, expanded⟩ :: rest => do
    let r ← interpret locals value
    pure ((r, expanded) :: (← interpretPositionals locals rest))

def interpretKeywords (locals : List Ref) : List KeywordExpr → m (List (String × Ref))
  | [] => pure []
  | ⟨name, value⟩ :: rest => do
    let r ← interpret locals value
    pure ((name, r) :: (← interpretKeywords locals rest))

def interpretAll (locals : List Ref) : List Expr → m (List Ref)
  | [] => pure []
  | e :: rest => do
    let r ← interpret locals e
    pure (r :: (← interpretAll locals rest))
end

/-- The locals of a body: parameters, then each binding among the locals before it. -/
def bindLocals (bindings : List Expr) (parameters : List Ref) : m (List Ref) :=
  bindings.foldlM (fun locals e => do pure (locals ++ [← interpret locals e])) parameters

end Expr

namespace Branch

/-- Where each pattern has its last case. -/
def table (cases : List CaseExpr) : Dict Nat :=
  .ofList (cases.map (·.pattern)).zipIdx

/-- The result of the case that the table has for the key. -/
def find (key : Key) (cases : List CaseExpr) : Option Expr :=
  ((table cases).get? key).bind fun i => cases[i]?.map (·.result)

/-- The expression to go on with, for the key of the matched value. A value that has no key because
    something in it cannot be compared takes the default. -/
def select (b : Branch) (key : Except Fault Key) : Script Expr := do
  let found ← match key with
    | .ok key => pure (find key b.cases)
    | .error e => if e.cause.isIncomparable then pure none else .raise e
  match found, b.default with
  | some e, _ => pure e
  | none, some e => pure e
  | none, none => fail .noMatch

end Branch
end CallByNeed
