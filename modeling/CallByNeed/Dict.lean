import CallByNeed.Key

/- Dictionaries: entries in ascending key order, one per key. -/
namespace CallByNeed

structure Dict (α : Type) where
  entries : List (Key × α)
  deriving Inhabited

namespace Dict
variable {α : Type}

def empty : Dict α := ⟨[]⟩

def size (d : Dict α) : Nat := d.entries.length

def isEmpty (d : Dict α) : Bool := d.entries.isEmpty

/-- The invariant that all operations keep. -/
def Ascending (d : Dict α) : Prop :=
  d.entries.Pairwise fun x y => x.1.compare y.1 = .lt

def find (key : Key) : List (Key × α) → Option α
  | [] => none
  | (k, x) :: rest => if key.compare k = .eq then some x else find key rest

/-- Puts an entry in its place; an entry with an equal key gives way, key and value. -/
def put (key : Key) (value : α) : List (Key × α) → List (Key × α)
  | [] => [(key, value)]
  | (k, x) :: rest =>
    match key.compare k with
    | .lt => (key, value) :: (k, x) :: rest
    | .eq => (key, value) :: rest
    | .gt => (k, x) :: put key value rest

def remove (key : Key) : List (Key × α) → List (Key × α)
  | [] => []
  | (k, x) :: rest => if key.compare k = .eq then rest else (k, x) :: remove key rest

def get? (d : Dict α) (key : Key) : Option α := find key d.entries

def contains (d : Dict α) (key : Key) : Bool := (d.get? key).isSome

def insert (d : Dict α) (key : Key) (value : α) : Dict α := ⟨put key value d.entries⟩

def erase (d : Dict α) (key : Key) : Dict α := ⟨remove key d.entries⟩

def ofList (entries : List (Key × α)) : Dict α :=
  entries.foldl (fun d entry => d.insert entry.1 entry.2) empty

/-- Puts the entries of the right one over those of the left one. -/
def override (d other : Dict α) : Dict α :=
  other.entries.foldl (fun d entry => d.insert entry.1 entry.2) d

/-- Under equal keys the entries of the larger dictionary stay, of two equally large ones those of
    the right one. -/
def merge (d other : Dict α) : Dict α :=
  if d.size ≤ other.size then d.override other else other.override d

end Dict
end CallByNeed
