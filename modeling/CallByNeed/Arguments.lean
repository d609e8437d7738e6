import CallByNeed.Builtin.Signature
import CallByNeed.Script

/- Arguments of a call, built at the call and taken apart by one binding. -/
namespace CallByNeed

namespace Arguments

section
variable {m : Type → Type} [Monad m] [Allocates m]

/-- A call of `merge`. -/
def allocMerge (collections : List Ref) : m Ref :=
  allocCall (.function Builtin.merge.function) collections

/-- A call of `append`. -/
def allocAppend (list : Ref) (elements : List Ref) : m Ref :=
  allocCall (.function Builtin.append.function) (list :: elements)

/-- Positionals up to the first expanded one stay explicit, the rest is joined lazily. -/
def ofCall (positionals : List (Ref × Bool)) (keywords : List (String × Ref)) (dicts : List Ref) :
    m Arguments := do
  let explicit := (positionals.takeWhile fun p => !p.2).map (·.1)
  match positionals.dropWhile fun p => !p.2 with
  | [] => pure { positionals := explicit, keywords, dicts }
  | (list, _) :: later =>
    let spread ← later.foldlM (fun list p =>
      if p.2 then allocMerge [list, p.1] else allocAppend list [p.1]) list
    pure { positionals := explicit, spread := some spread, keywords, dicts }

/-- The arguments of a partial application followed by those of a later call. -/
def merge (a b : Arguments) : m Arguments := do
  let keywords := a.keywords ++ b.keywords
  let dicts := a.dicts ++ b.dicts
  match a.spread with
  | none => pure { positionals := a.positionals ++ b.positionals, spread := b.spread,
                   keywords, dicts }
  | some list =>
    let list ← if b.positionals.isEmpty then pure list else allocAppend list b.positionals
    let list ← match b.spread with
      | some more => allocMerge [list, more]
      | none => pure list
    pure { positionals := a.positionals, spread := some list, keywords, dicts }

end

/-- Takes the next positional, for which one more cell of the spread list may be forced. -/
def nextPositional (a : Arguments) : Script (Option Ref × Arguments) :=
  match a.positionals, a.spread with
  | r :: rest, _ => pure (some r, { a with positionals := rest })
  | [], none => pure (none, a)
  | [], some list => do
    match ← forceList list with
    | .nil => pure (none, { a with spread := none })
    | .cons head tail => pure (some head, { a with spread := some tail })

/-- Takes every positional left, as one list; what is spread stays lazy. -/
def restPositionals (a : Arguments) : Script (Ref × Arguments) := do
  let explicit ← allocValue (.list (← LazyList.ofRefs a.positionals))
  let all ← match a.spread with
    | none => pure explicit
    | some list => allocMerge [explicit, list]
  pure (all, { a with positionals := [], spread := none })

/-- Takes the entry of the first dictionary that has the key. -/
def takeEntry (key : Key) : List Ref → Script (Option (Ref × List Ref))
  | [] => pure none
  | d :: rest => do
    let dict ← forceDict d
    match dict.get? key with
    | some r => pure (some (r, (← allocValue (.dict (dict.erase key))) :: rest))
    | none =>
      match ← takeEntry key rest with
      | some (r, rest) => pure (some (r, d :: rest))
      | none => pure none

/-- Takes the argument of a name: the first explicit keyword, or else a dictionary entry. -/
def takeKeyword (a : Arguments) (name : String) : Script (Option Ref × Arguments) :=
  match a.keywords.find? fun k => k.1 == name with
  | some (_, r) =>
    pure (some r, { a with keywords := a.keywords.eraseP fun k => k.1 == name })
  | none => do
    match ← takeEntry (.string name) a.dicts with
    | some (r, dicts) => pure (some r, { a with dicts })
    | none => pure (none, a)

/-- Takes every keyword left, as one dictionary; later ones win. -/
def restKeywords (a : Arguments) : Script (Ref × Arguments) := do
  let explicit := Dict.ofList (a.keywords.map fun k => (Key.string k.1, k.2))
  let dict ← allocValue (.dict explicit)
  let all ← if a.dicts.isEmpty then pure dict else allocMerge (dict :: a.dicts)
  pure (all, { a with keywords := [], dicts := [] })

def countEntries : List Ref → Script Nat
  | [] => pure 0
  | d :: rest => do
    let dict ← forceDict d
    pure (dict.size + (← countEntries rest))

/-- Fails unless everything has been taken. Of a spread list only one element is counted. -/
def checkTaken (a : Arguments) : Script Unit := do
  let left ←
    if a.positionals.isEmpty then do
      match ← a.nextPositional with
      | (some _, _) => pure 1
      | (none, _) => pure 0
    else pure a.positionals.length
  if 0 < left then fail (.extraPositionals left)
  else do
    let left := a.keywords.length + (← countEntries a.dicts)
    if 0 < left then fail (.extraKeywords left) else pure ()

end Arguments
end CallByNeed
