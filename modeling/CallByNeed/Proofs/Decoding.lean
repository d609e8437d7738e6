import CallByNeed.Proofs.Decoding.Serializing

/- Whatever rendering of a program a text writes, the program is read from it; what a program is
   serialized to is one of them. -/
namespace CallByNeed

open Json

/-- Objects and arrays mix freely, tags come anywhere in an object, unknown fields do not matter and
    those with their defaults may be left out. Only what nests too deep, or has a number out of
    range, is no rendering that can be read. -/
theorem Program.parse_rendering (p : Program) :
    (∀ x text, p.Shows x → x.isUsable maxDepth = true → x.IsWrittenBy text →
      Program.parse text = .ok p) ∧
    ∀ print : Number → Numeral, p.Fits print → (p.toJson print).isUsable maxDepth = true →
      Program.parse (p.serialize print) = .ok p := by
  have reads (x : Json) (text : String) (shown : p.Shows x) (usable : x.isUsable maxDepth = true)
      (written : x.IsWrittenBy text) : Program.parse text = .ok p := by
    rw [Program.parse, written.parse]
    exact ofJson_of_shows shown usable
  refine ⟨reads, fun print fits usable => ?_⟩
  obtain ⟨shown, writable⟩ := fits.renders
  exact reads _ _ shown usable writable.isWrittenBy

/-- Fields may come backwards, the unknown ones first. -/
theorem Json.IsStructure.backwards {fields : List Field} {given : List (Option String × Json)}
    {all : List (Option String × Json)} (others : List (String × Json)) (known : Given fields given)
    (unknown : ∀ other ∈ others, ∀ f ∈ fields, other.1 ≠ f.name)
    (order : all = (given ++ others.map fun other => (some other.1, other.2)).reverse) :
    IsStructure fields (.object all) :=
  .object known unknown (order ▸ List.reverse_perm _)

namespace Greeting

/-- A definition, a function that passes it on, and an output that chooses by it. -/
def program : Program :=
  { definitions := [
      .variable "greeting" (.literal (.string "hi")),
      .function "pass" { positional := { requireds := ["x"] } } []
        (.call (.global "list") [⟨.global "greeting", false⟩] [] [] none)]
    outputs := [
      { value := .switch (.global "greeting")
          [⟨.literal (.string "hi"), .literal (.bool true)⟩] none }] }

def pass : Json :=
  record [
    ("body", record [
      ("positionals", .array [.array [record [("name", ofString "greeting"),
        ("node", ofString "name")]]]),
      ("function", .array [ofString "name", ofString "list"]),
      ("node", ofString "app")]),
    ("signature", .array [record [("requireds", .array [ofString "x"])]]),
    ("name", ofString "pass"),
    ("kind", ofString "function")]

def choice : Json :=
  record [
    ("default", .null),
    ("cases", .array [record [("comment", .array []),
      ("value", .array [ofString "bool", .bool true]),
      ("pattern", .array [ofString "string", ofString "hi"])]]),
    ("value", .array [ofString "name", ofString "greeting"]),
    ("node", ofString "switch")]

/-- Objects have their tags last, arrays leave out defaults, and there are comments. -/
def document : Json :=
  record [
    ("version", .array [.null]),
    ("outputs", .array [.array [choice]]),
    ("definitions", .array [
      .array [ofString "variable", ofString "greeting", .array [ofString "string", ofString "hi"]],
      pass])]

def text : String := String.ofList (' ' :: (document.write ++ ['\n']))

theorem shows_name (name : String) :
    (Node.global name).Shows (.array [ofString "name", ofString name]) :=
  .array <| .write rfl <| .write rfl <| .ended nofun

theorem pass_shows : (Definition.function "pass" { positional := { requireds := ["x"] } } []
    (.call (.global "list") [⟨.global "greeting", false⟩] [] [] none)).Shows pass := by
  have argument : (Node.global "greeting").Shows
      (record [("name", ofString "greeting"), ("node", ofString "name")]) :=
    .backwards [] (.write rfl <| .write rfl .nil) nofun rfl
  have positionals : ShowsList (showsPositionals [⟨.global "greeting", false⟩])
      (.array [.array [record [("name", ofString "greeting"), ("node", ofString "name")]]]) :=
    ⟨_, rfl, .array <| .write argument <| .ended (by simp), trivial⟩
  have body : (Node.call (.global "list") [⟨.global "greeting", false⟩] [] [] none).Shows
      (record [
        ("positionals", .array [.array [record [("name", ofString "greeting"),
          ("node", ofString "name")]]]),
        ("function", .array [ofString "name", ofString "list"]),
        ("node", ofString "app")]) :=
    .backwards [] (.write rfl <| .write (shows_name "list") <| .write positionals <|
      .leave rfl <| .leave rfl <| .leave rfl .nil) nofun rfl
  have half : ({ requireds := ["x"] } : Half Node).Shows
      (record [("requireds", .array [ofString "x"])]) :=
    .backwards [] (.write ⟨_, rfl, .cons rfl .nil⟩ <| .leave rfl <| .leave rfl .nil)
      nofun rfl
  have signature : ({ positional := { requireds := ["x"] } } : Signature Node).Shows
      (.array [record [("requireds", .array [ofString "x"])]]) :=
    .array <| .write half <| .ended (by simp)
  exact .backwards [] (.write rfl <| .write rfl <| .write signature <| .leave rfl <|
    .write body .nil) nofun rfl

theorem choice_shows : (Node.switch (.global "greeting")
    [⟨.literal (.string "hi"), .literal (.bool true)⟩] none).Shows choice := by
  have pattern : (Node.literal (.string "hi")).Shows (.array [ofString "string", ofString "hi"]) :=
    .array <| .write rfl <| .write rfl <| .ended nofun
  have value : (Node.literal (.bool true)).Shows (.array [ofString "bool", .bool true]) :=
    .array <| .write rfl <| .write rfl <| .ended nofun
  have cases : ShowsList (showsCases [⟨.literal (.string "hi"), .literal (.bool true)⟩])
      (.array [record [("comment", .array []), ("value", .array [ofString "bool", .bool true]),
        ("pattern", .array [ofString "string", ofString "hi"])]]) :=
    ⟨_, rfl, .backwards [("comment", .array [])] (.write pattern <| .write value .nil)
      (by simp [caseFields, Field.always]) rfl, trivial⟩
  exact .backwards [] (.write rfl <| .write (shows_name "greeting") <|
    .write cases <| .write rfl .nil) (by simp) rfl

theorem document_shows : program.Shows document := by
  have greeting : (Definition.variable "greeting" (.literal (.string "hi"))).Shows
      (.array [ofString "variable", ofString "greeting",
        .array [ofString "string", ofString "hi"]]) :=
    .array <| .write rfl <| .write rfl <| .write
      (.array <| .write rfl <| .write rfl <| .ended nofun) <| .ended nofun
  have output : OutputNode.Shows ⟨.switch (.global "greeting")
      [⟨.literal (.string "hi"), .literal (.bool true)⟩] none, false⟩ (.array [choice]) :=
    .array <| .write choice_shows <| .ended (by simp)
  exact .backwards [("version", .array [.null])]
    (.write ⟨_, rfl, .cons greeting <| .cons pass_shows .nil⟩ <|
      .write ⟨_, rfl, .cons output .nil⟩ .nil) (by simp) rfl

theorem document_isWrittenBy : document.IsWrittenBy text := by
  have writable : document.IsWritable := by
    simp [document, pass, choice, record, ofString, IsWritable, AreWritable, FieldsAreWritable]
  exact ⟨[' '], document.write, ['\n'], by simp [Blanks, isBlank], writable.writes,
    by simp [Blanks, isBlank], by simp [text]⟩

end Greeting

theorem Program.parse_rendering_of_greeting :
    Greeting.program.Shows Greeting.document ∧ Greeting.document.isUsable maxDepth = true ∧
      Greeting.document.IsWrittenBy Greeting.text ∧
      Program.parse Greeting.text = .ok Greeting.program ∧
      Greeting.program.Fits (fun _ => Numeral.ofNat 0) ∧
      (Greeting.program.toJson fun _ => Numeral.ofNat 0).isUsable maxDepth = true ∧
      Program.parse (Greeting.program.serialize fun _ => Numeral.ofNat 0) =
        .ok Greeting.program := by
  have fits : Greeting.program.Fits (fun _ => Numeral.ofNat 0) := by
    simp [Program.Fits, Greeting.program, Definition.Fits, Half.Fits, Node.Fits, positionalsFit,
      keywordsFit, nodesFit, casesFit, defaultFits]
  exact ⟨Greeting.document_shows, rfl, Greeting.document_isWrittenBy,
    (Program.parse_rendering Greeting.program).1 _ _ Greeting.document_shows rfl
      Greeting.document_isWrittenBy,
    fits, rfl, (Program.parse_rendering Greeting.program).2 _ fits rfl⟩

end CallByNeed
