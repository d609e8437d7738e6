import CallByNeed.Key.OfValue

/- Snapshots: what a value shows when it is forced all the way down to a depth. A list shows at most
   `take` elements; faults appear where they are met. -/
namespace CallByNeed

/-- How a shown list ends. -/
inductive ListEnd where
  | whole
  /-- Cut off before its next tail was forced. -/
  | more
  | failed (e : Fault)

inductive Snapshot where
  | bool (b : Bool)
  | number (x : Number)
  | string (s : String)
  | list (elements : List Snapshot) (ending : ListEnd)
  | dict (entries : List (Snapshot × Snapshot))
  | function (name : String)
  | effect
  | error (e : Fault)
  /-- A list or dictionary too deep to be shown. -/
  | deep (type : ValueType)

namespace Snapshot

/-- Shows the elements from a tail on; `room` counts how many more may be shown. -/
def ofTail (ofValue : Value → Script Snapshot) (tail : Ref) :
    Nat → List Snapshot → Script Snapshot
  | 0, shown => pure (.list shown.reverse .more)
  | room + 1, shown => do
    match ← (forceList tail).attempt with
    | .error e => pure (.list shown.reverse (.failed e))
    | .ok .nil => pure (.list shown.reverse .whole)
    | .ok (.cons head tail) => do
      let element ← ofValue (← observe head)
      ofTail ofValue tail room (element :: shown)

def ofEntries (ofValue : Value → Script Snapshot) :
    List (Key × Ref) → Script (List (Snapshot × Snapshot))
  | [] => pure []
  | (k, r) :: rest => do
    let key ← ofValue (← k.toValue)
    let element ← ofValue (← observe r)
    pure ((key, element) :: (← ofEntries ofValue rest))

/-- `depth` counts how many more levels of lists and dictionaries may be shown. -/
def ofValue (take : Nat) : Nat → Value → Script Snapshot
  | _, .bool b => pure (.bool b)
  | _, .number x => pure (.number x)
  | _, .string s => pure (.string s)
  | _, .function f => pure (.function f.name)
  | _, .native f => pure (.function f.name)
  | _, .error e => pure (.error e)
  | _, .effect _ => pure .effect
  | 0, v => pure (.deep v.type)
  | depth + 1, .list l => do
    ofTail (ofValue take depth) (← allocValue (.list l)) take []
  | depth + 1, .dict d => do pure (.dict (← ofEntries (ofValue take depth) d.entries))

end Snapshot
end CallByNeed
