import CallByNeed.LazyList

/- The text of a value, and its dumped form, in which strings are quoted and functions named. Parts
   of lists and dictionaries are dumped. -/
namespace CallByNeed
namespace Value

/-- The dumped form, given the text of what has no dumped form of its own. -/
def dumpWith (text : Value → Script String) : Value → Script String
  | .error e => .raise e
  | .string s => pure (Text.quote s)
  | .function f => pure s!"<function {f.name}>"
  | .native f => pure s!"<function {f.name}>"
  | .effect _ => pure "<effect>"
  | v => text v

def dumpEntries (dump : Value → Script String) : List (Key × Ref) → Script (List String)
  | [] => pure []
  | (k, r) :: rest => do
    let x ← dump (← force r)
    pure (k.dump :: x :: (← dumpEntries dump rest))

def text : Nat → Value → Script String
  | 0, _ => .stall
  | bound + 1, v =>
    match v with
    | .bool b => pure (if b then "true" else "false")
    | .number x => pure x.text
    | .string s => pure s
    | .list l => do
      let parts ← l.walk (fun parts r => do
        let part ← dumpWith (text bound) (← force r)
        pure (.yield (part :: parts))) bound []
      pure ("[" ++ " ".intercalate parts.reverse ++ "]")
    | .dict d => do
      let parts ← dumpEntries (dumpWith (text bound)) d.entries
      pure ("\x7b" ++ " ".intercalate parts ++ "\x7d")
    | .error e => .raise e
    | v => fail (.notString v.type)

def dump (bound : Nat) (v : Value) : Script String := dumpWith (text bound) v

end Value
end CallByNeed
