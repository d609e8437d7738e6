import CallByNeed.Number.Decimal
import CallByNeed.Text.Quoted

/- Dictionary keys: values forced all the way down. All keys share one order: bools, numbers,
   strings, lists, dictionaries, and values of one kind as they compare. -/
namespace CallByNeed

inductive Key where
  | bool (b : Bool)
  | number (x : Number)
  | string (s : String)
  | list (keys : List Key)
  | dict (entries : List (Key × Key))
  deriving Repr, Inhabited

namespace Key

mutual
/-- Lists and entry sequences compare element by element, a shorter one before its extensions. -/
def compare : Key → Key → Ordering
  | .bool a, .bool b => Ord.compare a b
  | .number a, .number b => a.compare b
  | .string a, .string b => Ord.compare a b
  | .list a, .list b => compareLists a b
  | .dict a, .dict b => compareEntries a b
  | .bool _, _ => .lt
  | _, .bool _ => .gt
  | .number _, _ => .lt
  | _, .number _ => .gt
  | .string _, _ => .lt
  | _, .string _ => .gt
  | .list _, _ => .lt
  | _, .list _ => .gt

def compareLists : List Key → List Key → Ordering
  | [], [] => .eq
  | [], _ :: _ => .lt
  | _ :: _, [] => .gt
  | a :: as, b :: bs => (a.compare b).then (compareLists as bs)

def compareEntries : List (Key × Key) → List (Key × Key) → Ordering
  | [], [] => .eq
  | [], _ :: _ => .lt
  | _ :: _, [] => .gt
  | (k, x) :: as, (l, y) :: bs => ((k.compare l).then (x.compare y)).then (compareEntries as bs)
end

mutual
/-- The text of a key inside a list or dictionary; strings are quoted. -/
def dump : Key → String
  | .bool b => if b then "true" else "false"
  | .number x => x.text
  | .string s => Text.quote s
  | .list keys => "[" ++ " ".intercalate (dumpAll keys) ++ "]"
  | .dict entries => "\x7b" ++ " ".intercalate (dumpEntries entries) ++ "\x7d"

def dumpAll : List Key → List String
  | [] => []
  | k :: ks => k.dump :: dumpAll ks

def dumpEntries : List (Key × Key) → List String
  | [] => []
  | (k, x) :: es => k.dump :: x.dump :: dumpEntries es
end

end Key
end CallByNeed
