import CallByNeed.Builtin.Arithmetic
import CallByNeed.Key.OfValue
import CallByNeed.Value.Comparison
import CallByNeed.Value.Text

/- Lists, dictionaries and strings as collections. -/
namespace CallByNeed

namespace Dict

/-- The entry of a key, or the fault that names the key. -/
def lookUp (bound : Nat) (d : Dict Ref) (key : Value) : Script Ref := do
  match d.get? (← Key.ofValue bound key) with
  | some r => pure r
  | none => fail (.keyNotFound (← key.dump bound))

end Dict

namespace Builtin

def notCollection {α : Type} (v : Value) : Script α := fail (.notCollection v.type)

/-- Concatenates lists lazily, or merges dictionaries from the left. -/
def mergeAll (bound : Nat) (first rest : Ref) : Script Outcome := do
  match ← force first with
  | .list l => answer (.list (← LazyList.concat bound l rest))
  | .dict d =>
    let merged ← (← forceList rest).walk (fun (d : Dict Ref) r => do
      pure (.yield (d.merge (← forceDict r)))) bound d
    answer (.dict merged)
  | v => fail (.notMergeable v.type)

def appendAll (list elements : Ref) : Script Outcome := do
  pure (.tail (← allocCall (.function merge.function) [list, elements]))

/-- The last argument is a list; the others go before it. -/
def prependAll (bound : Nat) (arguments : Ref) : Script Outcome := do
  let arguments ← (← forceList arguments).elements bound
  match arguments.reverse with
  | [] => fail .noListToPrepend
  | last :: heads => do
    answer (.list (← heads.foldlM LazyList.push (← forceList last)))

def insertInto (bound : Nat) (collection key value : Ref) : Script Outcome := do
  match ← force collection with
  | .list l => answer (.list (← l.insert (← forceNumber key) value))
  | .dict d =>
    let key ← Key.ofValue bound (← force key)
    answer (.dict (d.insert key value))
  | v => notCollection v

def deleteFrom (bound : Nat) (collection key : Ref) : Script Outcome := do
  match ← force collection with
  | .list l => answer (.list (← l.delete (← forceNumber key)))
  | .dict d =>
    let key ← force key
    let _ ← d.lookUp bound key
    answer (.dict (d.erase (← Key.ofValue bound key)))
  | v => notCollection v

/-- Whether a text occurs in another. -/
def occursIn (part : List Char) : List Char → Bool
  | [] => part.isEmpty
  | c :: cs => part.isPrefixOf (c :: cs) || occursIn part cs

/-- The element is forced before the collection. -/
def includes (bound : Nat) (collection element : Ref) : Script Outcome := do
  let element ← force element
  match ← force collection with
  | .list l => answer (.bool (← l.includes bound element))
  | .dict d => answer (.bool (d.contains (← Key.ofValue bound element)))
  | .string s =>
    match element with
    | .string part => answer (.bool (occursIn part.toList s.toList))
    | v => fail (.notString v.type)
  | v => notCollection v

def indexOf (bound : Nat) (collection key : Ref) : Script Outcome := do
  match ← force collection with
  | .list l => pure (.tail (← l.index (← forceNumber key)))
  | .dict d => pure (.tail (← d.lookUp bound (← force key)))
  | v => notCollection v

/-- Strings count characters. -/
def sizeOf (bound : Nat) (collection : Ref) : Script Outcome := do
  match ← force collection with
  | .list l => answer (.number (.ofNat (← l.length bound)))
  | .dict d => answer (.number (.ofNat d.size))
  | .string s => answer (.number (.ofNat s.length))
  | v => notCollection v

def toLazyList (collection : Ref) : Script Outcome := do
  match ← force collection with
  | .list l => answer (.list l)
  | .dict d => answer (.list (← d.toLazyList))
  | .string s =>
    let cells ← s.toList.mapM fun c => allocValue (.string (String.ofList [c]))
    answer (.list (← LazyList.ofRefs cells))
  | v => notCollection v

/-- Inserts keys and values that alternate. -/
def insertPairs (bound : Nat) : Dict Ref → List Ref → Script (Dict Ref)
  | d, key :: value :: more => do
    let key ← Key.ofValue bound (← force key)
    insertPairs bound (d.insert key value) more
  | d, _ => pure d

def dictOf (bound : Nat) (arguments : Ref) : Script Outcome := do
  let arguments ← (← forceList arguments).elements bound
  if arguments.length % 2 = 1 then fail .oddDictArguments
  else answer (.dict (← insertPairs bound .empty arguments))

end Builtin
end CallByNeed
