import CallByNeed.Json.Shape
import CallByNeed.Program

/- Programs in JSON. Nodes and definitions are structures with a tag. -/
namespace CallByNeed

namespace Json

/-- How deep arrays and objects of a program may nest, the program itself included. -/
def maxDepth : Nat := 127

/-- Refuses a value that cannot be used at a depth. -/
def usable (depth : Nat) (x : Json) : Result Json :=
  if x.isUsable (maxDepth - depth) then pure x else .error .malformed

end Json

open Json

namespace Location

def ofJson (x : Json) : Result Location := do
  match ← fieldsOf ["name", "file", "line", "column"] .mismatched x with
  | [name, file, line, column] =>
    pure { name := ← orDefault "" asString name
           file := ← required asString file
           line := ← required asNat line
           column := ← required asNat column }
  | _ => .error .mismatched

end Location

namespace Node

def tags : List String := ["bool", "number", "string", "local", "name", "app", "switch"]

/-- Reads a node of which at most `depth` levels nest. Nodes inside nodes are `nested`. -/
def ofJson : Nat → Bool → Json → Result Node
  | 0, _, _ => .error .malformed
  | depth + 1, nested, x => do
    let node := ofJson depth true
    let positional (x : Json) : Result PositionalNode := do
      match ← fieldsOf ["value", "expanded"] .mismatched x with
      | [value, expanded] =>
        pure ⟨← required node value, ← orDefault false asBool expanded⟩
      | _ => .error .mismatched
    let keyword (x : Json) : Result KeywordNode := do
      match ← fieldsOf ["name", "value"] .mismatched x with
      | [id, value] => pure ⟨← required asString id, ← required node value⟩
      | _ => .error .mismatched
    let case (x : Json) : Result CaseNode := do
      match ← fieldsOf ["pattern", "value"] .mismatched x with
      | [pattern, value] => pure ⟨← required node pattern, ← required node value⟩
      | _ => .error .mismatched
    let (tag, x) ← untag "node" x
    match ← asTag tags nested tag with
    | "bool" =>
      match ← fieldsOf ["value"] .mismatched x with
      | [value] => pure (.literal (.bool (← required asBool value)))
      | _ => .error .mismatched
    | "number" =>
      match ← fieldsOf ["value"] .mismatched x with
      | [value] => pure (.literal (.number (← required asNumber value)))
      | _ => .error .mismatched
    | "string" =>
      match ← fieldsOf ["value"] .mismatched x with
      | [value] => pure (.literal (.string (← required asString value)))
      | _ => .error .mismatched
    | "local" =>
      match ← fieldsOf ["index"] .mismatched x with
      | [index] => pure (.local (← required asNat index))
      | _ => .error .mismatched
    | "name" =>
      match ← fieldsOf ["name"] .mismatched x with
      | [id] => pure (.global (← required asString id))
      | _ => .error .mismatched
    | "app" =>
      match ← fieldsOf ["function", "positionals", "keywords", "expanded_dicts", "location"]
          .mismatched x with
      | [function, positionals, keywords, dicts, site] =>
        pure (.call (← required node function)
          (← orDefault [] (asList positional) positionals)
          (← orDefault [] (asList keyword) keywords)
          (← orDefault [] (asList node) dicts)
          (← orNull Location.ofJson site))
      | _ => .error .mismatched
    | "switch" =>
      match ← fieldsOf ["value", "cases", "default"] .mismatched x with
      | [value, cases, default] =>
        pure (.switch (← required node value) (← orDefault [] (asList case) cases)
          (← orNull node default))
      | _ => .error .mismatched
    | _ => .error .mismatched

end Node

namespace Half

def ofJson (x : Json) : Result (Half Node) := do
  let named (x : Json) : Result (String × Node) := do
    match ← fieldsOf ["name", "default"] .mismatched x with
    | [name, default] =>
      pure (← required asString name, ← required (Node.ofJson maxDepth true) default)
    | _ => .error .mismatched
  match ← fieldsOf ["requireds", "optionals", "rest"] .mismatched x with
  | [requireds, optionals, rest] =>
    pure { requireds := ← orDefault [] (asList asString) requireds
           optionals := ← orDefault [] (asList named) optionals
           rest := ← orNull asString rest }
  | _ => .error .mismatched

end Half

namespace Signature

def ofJson (x : Json) : Result (Signature Node) := do
  match ← fieldsOf ["positional", "keyword"] .mismatched x with
  | [positional, keyword] =>
    pure { positional := ← orDefault {} Half.ofJson positional
           keyword := ← orDefault {} Half.ofJson keyword }
  | _ => .error .mismatched

end Signature

namespace Definition

def ofJson (x : Json) : Result Definition := do
  let node := Node.ofJson maxDepth true
  let (tag, x) ← untag "kind" x
  match ← asTag ["variable", "function"] false tag with
  | "variable" =>
    match ← fieldsOf ["name", "expr"] .mismatched x with
    | [name, value] => pure (.variable (← required asString name) (← required node value))
    | _ => .error .mismatched
  | _ =>
    match ← fieldsOf ["name", "signature", "lets", "body"] .mismatched x with
    | [name, signature, bindings, result] =>
      pure (.function (← required asString name) (← orDefault {} Signature.ofJson signature)
        (← orDefault [] (asList node) bindings) (← required node result))
    | _ => .error .mismatched

end Definition

namespace OutputNode

/-- An output is read as it comes, so an element too many is no shape but a malformed text. -/
def ofJson (x : Json) : Result OutputNode := do
  match ← fieldsOf ["expr", "expanded"] .malformed x with
  | [value, expanded] =>
    pure { value := ← required (fun x => do Node.ofJson maxDepth false (← usable 3 x)) value
           expanded := ← orDefault false asBool expanded }
  | _ => .error .mismatched

end OutputNode

namespace Program

/-- Fields of the program and its outputs that are unknown may hold anything. -/
def ofJson (x : Json) : Result Program := do
  match ← fieldsOf ["definitions", "outputs"] .malformed x with
  | [definitions, outputs] =>
    let definition (x : Json) : Result Definition := do Definition.ofJson (← usable 2 x)
    pure { definitions := ← orDefault [] (asList definition) definitions
           outputs := ← orDefault [] (asList OutputNode.ofJson) outputs }
  | _ => .error .mismatched

def parse (text : String) : Result Program := do ofJson (← Json.parse text)

end Program
end CallByNeed
