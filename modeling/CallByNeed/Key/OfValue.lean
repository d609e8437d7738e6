import CallByNeed.LazyList

/- Between values and keys: a value becomes a key by forcing all of it, a key becomes a value with
   nothing left to force. -/
namespace CallByNeed
namespace Key

def ofEntries (ofValue : Value → Script Key) : List (Key × Ref) → Script (List (Key × Key))
  | [] => pure []
  | (k, r) :: rest => do
    let x ← ofValue (← force r)
    pure ((k, x) :: (← ofEntries ofValue rest))

def ofValue : Nat → Value → Script Key
  | 0, _ => .stall
  | bound + 1, v =>
    match v with
    | .bool b => pure (.bool b)
    | .number x => pure (.number x)
    | .string s => pure (.string s)
    | .list l => do
      let keys ← l.walk (fun keys r => do
        let key ← ofValue bound (← force r)
        pure (.yield (key :: keys))) bound []
      pure (.list keys.reverse)
    | .dict d => do pure (.dict (← ofEntries (ofValue bound) d.entries))
    | .error e => .raise e
    | v => fail (.notComparable v.type)

section
variable {m : Type → Type} [Monad m] [Allocates m]

mutual
def toValue : Key → m Value
  | .bool b => pure (.bool b)
  | .number x => pure (.number x)
  | .string s => pure (.string s)
  | .list keys => do
    let elements ← toElements keys
    pure (.list (← LazyList.ofRefs elements))
  | .dict entries => do pure (.dict (.ofList (← toEntries entries)))

def toElements : List Key → m (List Ref)
  | [] => pure []
  | k :: ks => do
    let r ← allocValue (← k.toValue)
    pure (r :: (← toElements ks))

def toEntries : List (Key × Key) → m (List (Key × Ref))
  | [] => pure []
  | (k, x) :: es => do
    let r ← allocValue (← x.toValue)
    pure ((k, r) :: (← toEntries es))
end

end
end Key

namespace Dict

/-- The first cell of the list of `[key value]` pairs, with the least key. What is left without that key
    is listed on demand. -/
def listEntries (entries : List (Key × Ref)) : Script LazyList := do
  match entries with
  | [] => pure .nil
  | (k, r) :: _ =>
    let key ← allocValue (← k.toValue)
    let pair ← allocValue (.list (← LazyList.ofRefs [key, r]))
    pure (.cons pair (← alloc (.ofSuspension (.entries (remove k entries)))))

/-- Entries in ascending key order. -/
def toLazyList (d : Dict Ref) : Script LazyList := listEntries d.entries

end Dict
end CallByNeed
