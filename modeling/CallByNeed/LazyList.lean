import CallByNeed.Script

/- Lists whose tails are lazy. A walk demands one tail per step and never a head; what it does with
   the heads is up to its visitor. -/
namespace CallByNeed
namespace LazyList
variable {β γ : Type}

/-- Visits the heads in order. The next tail is demanded after the visit and only if it goes on. -/
def walk (visit : β → Ref → Script (ForInStep β)) : Nat → LazyList → β → Script β
  | 0, _, _ => .stall
  | _ + 1, .nil, b => pure b
  | bound + 1, .cons head tail, b => do
    match ← visit b head with
    | .done b => pure b
    | .yield b => walk visit bound (← forceList tail) b

/-- Visits the heads and leaves each one only when the next tail has been demanded, be that a fault or
    not. What is left last is the answer. -/
def trail (leave : β → Script Unit) (visit : Ref → Script β) : Nat → LazyList → β → Script β
  | 0, _, _ => .stall
  | _ + 1, .nil, b => pure b
  | bound + 1, .cons head tail, b => do
    leave b
    let b ← visit head
    match ← (forceList tail).attempt with
    | .ok l => trail leave visit bound l b
    | .error e => do
      leave b
      .raise e

/-- Visits two lists side by side until a visit answers. The left tail is demanded before the right
    one; the end of a list before the other's end orders it first. -/
def walkPairs (visit : Ref → Ref → Script (Option γ)) (ended : Ordering → γ) :
    Nat → LazyList → LazyList → Script γ
  | 0, _, _ => .stall
  | _ + 1, .nil, .nil => pure (ended .eq)
  | _ + 1, .nil, .cons _ _ => pure (ended .lt)
  | _ + 1, .cons _ _, .nil => pure (ended .gt)
  | bound + 1, .cons x xs, .cons y ys => do
    match ← visit x y with
    | some answer => pure answer
    | none =>
      let xs ← forceList xs
      let ys ← forceList ys
      walkPairs visit ended bound xs ys

/-- The heads, for which every tail is demanded. -/
def elements (bound : Nat) (l : LazyList) : Script (List Ref) := do
  let reversed ← l.walk (fun heads head => pure (.yield (head :: heads))) bound []
  pure reversed.reverse

def length (bound : Nat) (l : LazyList) : Script Nat :=
  l.walk (fun n _ => pure (.yield (n + 1))) bound 0

def first : LazyList → Script Ref
  | .nil => fail .emptyList
  | .cons head _ => pure head

def rest : LazyList → Script Ref
  | .nil => fail .emptyList
  | .cons _ tail => pure tail

/-- Number of cells before a place counted from 1. -/
def position (index : Number) : Script Nat :=
  match index.toInt? with
  | none => fail (.fractionalIndex index)
  | some i => if i < 1 then fail .outOfRange else pure (i.toNat - 1)

/-- The head behind `n` others. -/
def skip : Nat → LazyList → Script Ref
  | _, .nil => fail .outOfRange
  | 0, .cons head _ => pure head
  | n + 1, .cons _ tail => do skip n (← forceList tail)

/-- The first `n` heads, the last one first, and what follows them. -/
def split : Nat → List Ref → LazyList → Script (List Ref × LazyList)
  | 0, heads, l => pure (heads, l)
  | _ + 1, _, .nil => fail .outOfRange
  | n + 1, heads, .cons head tail => do split n (head :: heads) (← forceList tail)

/-- Puts heads, the last one first, before a lazy tail. -/
def rejoin (heads : List Ref) (tail : Ref) : Script LazyList :=
  match heads with
  | [] => forceList tail
  | last :: heads => heads.foldlM push (.cons last tail)

/-- The element at a place. -/
def index (l : LazyList) (place : Number) : Script Ref := do
  l.skip (← position place)

/-- The list without the element at a place; what follows it is shared. -/
def delete (l : LazyList) (place : Number) : Script LazyList :=
  match l with
  | .nil => fail .emptyList
  | l => do
    let (heads, rest) ← split (← position place) [] l
    match rest with
    | .nil => fail .outOfRange
    | .cons _ tail => rejoin heads tail

/-- The list with a new element at a place; the place behind the last one appends. -/
def insert (l : LazyList) (place : Number) (element : Ref) : Script LazyList := do
  let (heads, rest) ← split (← position place) [] l
  let tail ← allocValue (.list rest)
  rejoin heads (← allocValue (.list (.cons element tail)))

/-- The first cell of the current list followed by the lists in `rest`. Its tail is the same
    question about the next cell, so no list is looked at before the one before it has ended. -/
def concat : Nat → LazyList → Ref → Script LazyList
  | 0, _, _ => .stall
  | _ + 1, .cons head tail, rest => do
    pure (.cons head (← alloc (.ofSuspension (.concat tail rest))))
  | bound + 1, .nil, rest => do
    match ← forceList rest with
    | .nil => pure .nil
    | .cons next rest => do concat bound (← forceList next) rest

end LazyList
end CallByNeed
