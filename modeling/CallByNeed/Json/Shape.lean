import CallByNeed.Json

/- Structures in JSON. A structure is an object, with its fields in any order among others, or an
   array of its fields in their order, of which those at the end may be missing if they have
   defaults. -/
namespace CallByNeed

namespace Json

abbrev Result := Except Flaw

/-- The value of a field that may be given once; other fields do not matter. -/
def field? (name : String) (fields : List (Option String × Json)) : Result (Option Json) :=
  match fields.filter fun f => f.1 == some name with
  | [] => pure none
  | [f] => pure (some f.2)
  | _ => .error .mismatched

/-- The fields of a structure by their names. An array with more elements has the flaw `surplus`. -/
def fieldsOf (names : List String) (surplus : Flaw) : Json → Result (List (Option Json))
  | .object fields =>
    if fields.any fun f => f.1.isNone then .error .malformed
    else names.mapM fun name => field? name fields
  | .array elements =>
    if names.length < elements.length then .error surplus
    else
      pure (elements.map some ++ List.replicate (names.length - elements.length) none)
  | _ => .error .mismatched

def required {α : Type} (read : Json → Result α) : Option Json → Result α
  | some x => read x
  | none => .error .mismatched

def orDefault {α : Type} (default : α) (read : Json → Result α) : Option Json → Result α
  | some x => read x
  | none => pure default

/-- Null and a missing field are the same. -/
def orNull {α : Type} (read : Json → Result α) : Option Json → Result (Option α)
  | none | some .null => pure none
  | some x => do pure (some (← read x))

def asBool : Json → Result Bool
  | .bool b => pure b
  | _ => .error .mismatched

def asNumber : Json → Result Number
  | .number n =>
    match n.toNumber? with
    | some x => pure x
    | none => .error .malformed
  | _ => .error .mismatched

def asNat : Json → Result Nat
  | .number n =>
    match n.toNat? with
    | some n => pure n
    | none => .error .mismatched
  | _ => .error .mismatched

def asString : Json → Result String
  | .string (some s) => pure s
  | .string none => .error .malformed
  | _ => .error .mismatched

def asList {α : Type} (read : Json → Result α) : Json → Result (List α)
  | .array elements => elements.mapM read
  | _ => .error .mismatched

/-- The tag of a structure and what is left without it. The tag is the first element of an array. -/
def untag (name : String) : Json → Result (Json × Json)
  | .object fields => do
    match ← field? name fields with
    | some tag => pure (tag, .object (fields.filter fun f => f.1 != some name))
    | none => .error .mismatched
  | .array (tag :: elements) => pure (tag, .array elements)
  | _ => .error .mismatched

/-- Which of the tags a value is. Inside a tagged structure its place counts too. -/
def asTag (tags : List String) (nested : Bool) : Json → Result String
  | .string (some s) => if tags.contains s then pure s else .error .mismatched
  | .number n =>
    match n.toNat?.bind fun i => tags[i]? with
    | some tag => if nested then pure tag else .error .mismatched
    | none => .error .mismatched
  | _ => .error .mismatched

end Json
end CallByNeed
