import CallByNeed.LazyList

/- Order and equality of values. Both demand parts pairwise from the front and nothing behind the
   first difference. The bound limits depth and length alike. -/
namespace CallByNeed
namespace Value

/-- Entries side by side: keys first, then the values under equal keys. -/
def compareEntries (compare : Value → Value → Script Ordering) :
    List (Key × Ref) → List (Key × Ref) → Script Ordering
  | [], [] => pure .eq
  | [], _ :: _ => pure .lt
  | _ :: _, [] => pure .gt
  | (k, x) :: xs, (l, y) :: ys => do
    match k.compare l with
    | .eq =>
      let x ← force x
      match ← compare x (← force y) with
      | .eq => compareEntries compare xs ys
      | o => pure o
    | o => pure o

def compare : Nat → Value → Value → Script Ordering
  | 0, _, _ => .stall
  | bound + 1, a, b =>
    match a, b with
    | .error e, _ => .raise e
    | _, .error e => .raise e
    | .bool x, .bool y => pure (Ord.compare x y)
    | .number x, .number y => pure (x.compare y)
    | .string x, .string y => pure (Ord.compare x y)
    | .list xs, .list ys =>
      xs.walkPairs (fun x y => do
        let x ← force x
        match ← compare bound x (← force y) with
        | .eq => pure none
        | o => pure (some o)) id bound ys
    | .dict xs, .dict ys => compareEntries (compare bound) xs.entries ys.entries
    | a, b =>
      if a.isOrdered then fail (.mixedComparison a.type b.type) else fail (.notComparable a.type)

def equalEntries (equal : Value → Value → Script Bool) :
    List (Key × Ref) → List (Key × Ref) → Script Bool
  | (k, x) :: xs, (l, y) :: ys => do
    if k.compare l = .eq then
      let x ← force x
      if ← equal x (← force y) then equalEntries equal xs ys else pure false
    else pure false
  | _, _ => pure true

/-- Ordered values of different types are unequal; values without an order have no equality. -/
def equal : Nat → Value → Value → Script Bool
  | 0, _, _ => .stall
  | bound + 1, a, b =>
    match a, b with
    | .error e, _ => .raise e
    | _, .error e => .raise e
    | .bool x, .bool y => pure (x == y)
    | .number x, .number y => pure (x.same y)
    | .string x, .string y => pure (x == y)
    | .list xs, .list ys =>
      xs.walkPairs (fun x y => do
        let x ← force x
        if ← equal bound x (← force y) then pure none else pure (some false))
        (· == .eq) bound ys
    | .dict xs, .dict ys =>
      if xs.size = ys.size then equalEntries (equal bound) xs.entries ys.entries else pure false
    | a, b =>
      if !a.isOrdered then fail (.notComparable a.type)
      else if !b.isOrdered then fail (.notComparable b.type)
      else pure false

end Value

/-- Whether some element equals a value; nothing behind the first such element is forced. -/
def LazyList.includes (bound : Nat) (l : LazyList) (v : Value) : Script Bool :=
  l.walk (fun _ r => do
    if ← Value.equal bound (← force r) v then pure (.done true)
    else pure (.yield false)) bound false

end CallByNeed
