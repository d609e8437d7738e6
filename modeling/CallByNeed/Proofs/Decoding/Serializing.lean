import CallByNeed.Proofs.Decoding.Nodes
import CallByNeed.Proofs.Decoding.Writing

/- How programs are rendered. Signatures, definitions and outputs are structures whose nodes are
   rendered on their own; one rendering of each program has its structures as objects with all of
   their fields in their order, the tag first. -/
namespace CallByNeed

open Json

namespace Half

def Shows (h : Half Node) : Json → Prop :=
  IsStructure [
    { name := "requireds", shows := ShowsList (List.Forall₂ ShowsString h.requireds)
      optional := h.requireds = [] },
    { name := "optionals"
      shows := ShowsList (List.Forall₂ (fun o => IsStructure [
        .always "name" (ShowsString o.1), .always "default" o.2.Shows]) h.optionals)
      optional := h.optionals = [] },
    { name := "rest", shows := ShowsOption ShowsString h.rest, optional := h.rest = none }]

end Half

def Signature.Shows (s : Signature Node) : Json → Prop :=
  IsStructure [
    { name := "positional", shows := s.positional.Shows, optional := s.positional = {} },
    { name := "keyword", shows := s.keyword.Shows, optional := s.keyword = {} }]

def Definition.Shows : Definition → Json → Prop
  | .variable name value =>
    IsTagged "kind" "variable" [.always "name" (ShowsString name), .always "expr" value.Shows]
  | .function name signature bindings result =>
    IsTagged "kind" "function" [
      .always "name" (ShowsString name),
      { name := "signature", shows := signature.Shows, optional := signature = {} },
      { name := "lets", shows := ShowsList (List.Forall₂ Node.Shows bindings)
        optional := bindings = [] },
      .always "body" result.Shows]

def OutputNode.Shows (o : OutputNode) : Json → Prop :=
  IsStructure [
    .always "expr" o.value.Shows,
    { name := "expanded", shows x := x = .bool o.expanded, optional := o.expanded = false }]

/-- The values that render a program. -/
def Program.Shows (p : Program) : Json → Prop :=
  IsStructure [
    { name := "definitions", shows := ShowsList (List.Forall₂ Definition.Shows p.definitions)
      optional := p.definitions = [] },
    { name := "outputs", shows := ShowsList (List.Forall₂ OutputNode.Shows p.outputs)
      optional := p.outputs = [] }]

section
variable {depth : Nat} {x : Json}

namespace Json

/-- A list is read if each of its elements is. -/
theorem ShowsList.asList_of_each {α : Type} {shows : α → Json → Prop} {read : Json → Result α}
    {as : List α} (shown : ShowsList (List.Forall₂ shows as) x) (usable : x.isUsable depth = true)
    (reads : ∀ a x n, depth = n + 1 → shows a x → x.isUsable n = true → read x = .ok a) :
    Json.asList read x = .ok as := by
  refine shown.asList usable fun xs n deep each usable => ?_
  clear shown
  induction each with
  | nil => rfl
  | cons first _ ih =>
    have first := reads _ _ n deep first (usable _ List.mem_cons_self)
    have others := ih fun y mem => usable y (List.mem_cons_of_mem _ mem)
    rw [List.mapM_cons, first, others]
    rfl

theorem usable_of_isUsable {depth : Nat} (level : Nat) (usable : x.isUsable depth = true)
    (level_is : depth = maxDepth - level) : Json.usable level x = .ok x := by
  subst level_is
  exact if_pos usable

end Json

namespace Half

/-- Reads the name and the default of an optional parameter. -/
def optionalOfJson : Json → Result (String × Node) := fun x => do
  match ← fieldsOf ["name", "default"] .mismatched x with
  | [name, default] =>
    pure (← required asString name, ← required (Node.ofJson maxDepth true) default)
  | _ => .error .mismatched

theorem optionalOfJson_of_shows {o : String × Node}
    (shown : IsStructure [.always "name" (ShowsString o.1), .always "default" o.2.Shows] x)
    (usable : x.isUsable depth = true) (bounded : depth ≤ maxDepth) :
    optionalOfJson x = .ok o := by
  obtain ⟨n, os, deep, fields, found⟩ := shown.found (by simp [Field.always]) usable .mismatched
  obtain _ | ⟨name, _ | ⟨value, _ | _⟩⟩ := found
  have name := name.required fun x shown _ => asString_of_shows shown
  have value := value.required fun x shown usable =>
    Node.ofJson_of_shows maxDepth true o.2 shown usable (by omega)
  change fieldsOf ["name", "default"] .mismatched x = _ at fields
  simp only [optionalOfJson, fields, ok_bind, name, value]
  rfl

theorem ofJson_of_shows {h : Half Node} (shown : h.Shows x) (usable : x.isUsable depth = true)
    (bounded : depth ≤ maxDepth) : Half.ofJson x = .ok h := by
  obtain ⟨n, os, deep, fields, found⟩ := shown.found (by simp) usable .mismatched
  obtain _ | ⟨requireds, _ | ⟨optionals, _ | ⟨rest, _ | _⟩⟩⟩ := found
  have requireds := requireds.orDefault fun x shown usable =>
    shown.asList_of_each usable fun s x _ _ shown _ => asString_of_shows shown
  have optionals := optionals.orDefault fun x shown usable =>
    shown.asList_of_each usable fun o x _ _ shown usable =>
      optionalOfJson_of_shows shown usable (by omega)
  have rest := rest.orNull fun s x _ shown _ => by
    cases shown
    exact ⟨nofun, asString_of_shows rfl⟩
  change fieldsOf ["requireds", "optionals", "rest"] .mismatched x = _ at fields
  simp only [Half.ofJson, fields, ok_bind, requireds]
  exact ok_bind_of optionals <| ok_bind_of rest rfl

end Half

theorem Signature.ofJson_of_shows {s : Signature Node} (shown : s.Shows x)
    (usable : x.isUsable depth = true) (bounded : depth ≤ maxDepth) :
    Signature.ofJson x = .ok s := by
  obtain ⟨n, os, deep, fields, found⟩ := shown.found (by simp) usable .mismatched
  obtain _ | ⟨positional, _ | ⟨keyword, _ | _⟩⟩ := found
  have positional := positional.orDefault fun x shown usable =>
    Half.ofJson_of_shows shown usable (by omega)
  have keyword := keyword.orDefault fun x shown usable =>
    Half.ofJson_of_shows shown usable (by omega)
  change fieldsOf ["positional", "keyword"] .mismatched x = _ at fields
  simp only [Signature.ofJson, fields, ok_bind, positional, keyword]
  rfl

theorem Definition.ofJson_of_shows {d : Definition} (shown : d.Shows x)
    (usable : x.isUsable depth = true) (bounded : depth ≤ maxDepth) :
    Definition.ofJson x = .ok d := by
  cases d with
  | «variable» name value =>
    simp only [Shows] at shown
    obtain ⟨n, y, os, rfl, untagged, fields, found⟩ := shown.opens (by simp [Field.always]) usable
    obtain _ | ⟨id, _ | ⟨expr, _ | _⟩⟩ := found
    have id := id.required fun x shown _ => asString_of_shows shown
    have expr := expr.required fun x shown usable =>
      Node.ofJson_of_shows maxDepth true value shown usable (by omega)
    have kind : asTag ["variable", "function"] false (.string (some "variable")) =
      .ok "variable" := rfl
    change fieldsOf ["name", "expr"] .mismatched y = _ at fields
    simp only [Definition.ofJson, untagged, ok_bind, kind, fields, id, expr]
    rfl
  | function name signature bindings result =>
    simp only [Shows] at shown
    obtain ⟨n, y, os, rfl, untagged, fields, found⟩ := shown.opens (by simp [Field.always]) usable
    obtain _ | ⟨id, _ | ⟨params, _ | ⟨lets, _ | ⟨body, _ | _⟩⟩⟩⟩ := found
    have id := id.required fun x shown _ => asString_of_shows shown
    have params := params.orDefault fun x shown usable =>
      Signature.ofJson_of_shows shown usable (by omega)
    have lets := lets.orDefault fun x shown usable =>
      shown.asList_of_each usable fun node x _ _ shown usable =>
        Node.ofJson_of_shows maxDepth true node shown usable (by omega)
    have body := body.required fun x shown usable =>
      Node.ofJson_of_shows maxDepth true result shown usable (by omega)
    have kind : asTag ["variable", "function"] false (.string (some "function")) =
      .ok "function" := rfl
    change fieldsOf ["name", "signature", "lets", "body"] .mismatched y = _ at fields
    simp only [Definition.ofJson, untagged, ok_bind, kind, fields, id, params, lets, body]
    rfl

/-- Outputs are the elements of a field of the program. -/
theorem OutputNode.ofJson_of_shows {o : OutputNode} (shown : o.Shows x)
    (usable : x.isUsable (maxDepth - 2) = true) : OutputNode.ofJson x = .ok o := by
  obtain ⟨n, os, deep, fields, found⟩ := shown.found (by simp [Field.always]) usable .malformed
  obtain _ | ⟨expr, _ | ⟨expanded, _ | _⟩⟩ := found
  have expr := expr.required fun x shown usable =>
    ok_bind_of (usable_of_isUsable 3 usable (by omega)) <|
      Node.ofJson_of_shows maxDepth false o.value shown usable (by omega)
  have expanded := expanded.orDefault fun x shown _ => asBool_of_shows shown
  change fieldsOf ["expr", "expanded"] .malformed x = _ at fields
  simp only [OutputNode.ofJson, fields, ok_bind, expr, expanded]
  rfl

/-- A program is read from whatever shows it. -/
theorem Program.ofJson_of_shows {p : Program} (shown : p.Shows x)
    (usable : x.isUsable maxDepth = true) : Program.ofJson x = .ok p := by
  obtain ⟨n, os, deep, fields, found⟩ := shown.found (by simp) usable .malformed
  obtain _ | ⟨definitions, _ | ⟨outputs, _ | _⟩⟩ := found
  have definitions := definitions.orDefault fun x shown usable =>
    shown.asList_of_each usable fun d x m deep' shown usable =>
      ok_bind_of (usable_of_isUsable 2 usable (by omega)) <|
        Definition.ofJson_of_shows shown usable (by omega)
  have outputs := outputs.orDefault fun x shown usable =>
    shown.asList_of_each usable fun o x m deep' shown usable =>
      OutputNode.ofJson_of_shows shown ((by omega : m = maxDepth - 2) ▸ usable)
  change fieldsOf ["definitions", "outputs"] .malformed x = _ at fields
  simp only [Program.ofJson, fields, ok_bind, definitions, outputs]
  rfl

end

/-! ### One rendering -/

namespace Json

/-- An object with fields of these names. -/
def record (fields : List (String × Json)) : Json := .object (fields.map fun f => (some f.1, f.2))

def ofString (s : String) : Json := .string (some s)

def ofNat (k : Nat) : Json := .number (Numeral.ofNat k)

def orNullToJson {α : Type} (toJson : α → Json) : Option α → Json
  | none => .null
  | some a => toJson a

/-- The numeral is read as this number, and it can be written. -/
def Numeral.Spells (n : Numeral) (v : Number) : Prop := n.IsProper ∧ n.toNumber? = some v

end Json

section
variable (print : Number → Numeral)

def Location.toJson (l : Location) : Json :=
  record [("name", ofString l.name), ("file", ofString l.file), ("line", ofNat l.line),
    ("column", ofNat l.column)]

mutual
def Node.toJson : Node → Json
  | .literal (.bool b) => record [("node", ofString "bool"), ("value", .bool b)]
  | .literal (.number v) => record [("node", ofString "number"), ("value", .number (print v))]
  | .literal (.string s) => record [("node", ofString "string"), ("value", ofString s)]
  | .local i => record [("node", ofString "local"), ("index", ofNat i)]
  | .global name => record [("node", ofString "name"), ("name", ofString name)]
  | .call function positionals keywords dicts site =>
    record [("node", ofString "app"), ("function", function.toJson),
      ("positionals", .array (positionalsToJson positionals)),
      ("keywords", .array (keywordsToJson keywords)),
      ("expanded_dicts", .array (nodesToJson dicts)),
      ("location", orNullToJson Location.toJson site)]
  | .switch value cases default =>
    record [("node", ofString "switch"), ("value", value.toJson),
      ("cases", .array (casesToJson cases)), ("default", defaultToJson default)]

def positionalsToJson : List PositionalNode → List Json
  | [] => []
  | ⟨value, expanded⟩ :: ps =>
    record [("value", value.toJson), ("expanded", .bool expanded)] :: positionalsToJson ps

def keywordsToJson : List KeywordNode → List Json
  | [] => []
  | ⟨name, value⟩ :: ks =>
    record [("name", ofString name), ("value", value.toJson)] :: keywordsToJson ks

def casesToJson : List CaseNode → List Json
  | [] => []
  | ⟨pattern, value⟩ :: cs =>
    record [("pattern", pattern.toJson), ("value", value.toJson)] :: casesToJson cs

def nodesToJson : List Node → List Json
  | [] => []
  | node :: nodes => node.toJson :: nodesToJson nodes

def defaultToJson : Option Node → Json
  | none => .null
  | some node => node.toJson
end

def Half.toJson (h : Half Node) : Json :=
  record [("requireds", .array (h.requireds.map ofString)),
    ("optionals", .array (h.optionals.map fun o =>
      record [("name", ofString o.1), ("default", o.2.toJson print)])),
    ("rest", orNullToJson ofString h.rest)]

def Signature.toJson (s : Signature Node) : Json :=
  record [("positional", s.positional.toJson print), ("keyword", s.keyword.toJson print)]

def Definition.toJson : Definition → Json
  | .variable name value =>
    record [("kind", ofString "variable"), ("name", ofString name), ("expr", value.toJson print)]
  | .function name signature bindings result =>
    record [("kind", ofString "function"), ("name", ofString name),
      ("signature", signature.toJson print),
      ("lets", .array (bindings.map (Node.toJson print))), ("body", result.toJson print)]

def OutputNode.toJson (o : OutputNode) : Json :=
  record [("expr", o.value.toJson print), ("expanded", .bool o.expanded)]

def Program.toJson (p : Program) : Json :=
  record [("definitions", .array (p.definitions.map (Definition.toJson print))),
    ("outputs", .array (p.outputs.map (OutputNode.toJson print)))]

/-- The program as a text, whose numbers are written as `print` has it. -/
def Program.serialize (p : Program) : String := String.ofList (p.toJson print).write

/-! ### What can be written -/

def Location.Fits (l : Location) : Prop :=
  l.line ≤ Numeral.maxSignificand ∧ l.column ≤ Numeral.maxSignificand

mutual
/-- Numbers are read as they are written, and indices and places are of 64 bits. -/
def Node.Fits : Node → Prop
  | .literal (.number v) => (print v).Spells v
  | .literal _ | .global _ => True
  | .local i => i ≤ Numeral.maxSignificand
  | .call function positionals keywords dicts site =>
    function.Fits ∧ positionalsFit positionals ∧ keywordsFit keywords ∧ nodesFit dicts ∧
      ∀ l ∈ site, l.Fits
  | .switch value cases default => value.Fits ∧ casesFit cases ∧ defaultFits default

def positionalsFit : List PositionalNode → Prop
  | [] => True
  | ⟨value, _⟩ :: ps => value.Fits ∧ positionalsFit ps

def keywordsFit : List KeywordNode → Prop
  | [] => True
  | ⟨_, value⟩ :: ks => value.Fits ∧ keywordsFit ks

def casesFit : List CaseNode → Prop
  | [] => True
  | ⟨pattern, value⟩ :: cs => pattern.Fits ∧ value.Fits ∧ casesFit cs

def nodesFit : List Node → Prop
  | [] => True
  | node :: nodes => node.Fits ∧ nodesFit nodes

def defaultFits : Option Node → Prop
  | none => True
  | some node => node.Fits
end

def Half.Fits (h : Half Node) : Prop := ∀ o ∈ h.optionals, o.2.Fits print

def Definition.Fits : Definition → Prop
  | .variable _ value => value.Fits print
  | .function _ signature bindings result =>
    signature.positional.Fits print ∧ signature.keyword.Fits print ∧
      (∀ node ∈ bindings, node.Fits print) ∧ result.Fits print

def Program.Fits (p : Program) : Prop :=
  (∀ d ∈ p.definitions, d.Fits print) ∧ ∀ o ∈ p.outputs, o.value.Fits print

end

/-! ### What is written is a rendering -/

namespace Json

/-- A rendering that has a text. -/
def Renders (shows : Json → Prop) (x : Json) : Prop := shows x ∧ x.IsWritable

theorem areWritable_iff {xs : List Json} : AreWritable xs ↔ ∀ x ∈ xs, x.IsWritable := by
  induction xs with
  | nil => simp [AreWritable]
  | cons x xs ih => simp [AreWritable, ih]

section
variable {fields : List Field} {given : List (String × Json)}

theorem IsStructure.all {known : List (Option String × Json)} (each : Given fields known) :
    IsStructure fields (.object known) := by
  refine .object each (fun _ none => absurd none List.not_mem_nil) ?_
  rw [List.map_nil, List.append_nil]

/-- All fields in their order are a structure. -/
theorem renders_record
    (each : List.Forall₂ (fun f g => g.1 = f.name ∧ Renders f.shows g.2) fields given) :
    Renders (IsStructure fields) (record given) := by
  refine ⟨IsStructure.all ?_, ?_⟩
  · induction each with
    | nil => exact .nil
    | cons first _ ih =>
      rw [List.map_cons, first.1]
      exact .write first.2.1 ih
  · induction each with
    | nil => exact trivial
    | cons first _ ih => exact ⟨rfl, first.2.2, ih⟩

theorem renders_array {elements : List Json → Prop} {xs : List Json} (shown : elements xs)
    (writable : AreWritable xs) : Renders (ShowsList elements) (.array xs) :=
  ⟨⟨xs, rfl, shown⟩, writable⟩

theorem renders_map {α : Type} {shows : α → Json → Prop} {toJson : α → Json} {as : List α}
    (each : ∀ a ∈ as, Renders (shows a) (toJson a)) :
    Renders (ShowsList (List.Forall₂ shows as)) (.array (as.map toJson)) := by
  refine renders_array ?_ (areWritable_iff.2 ?_)
  · rw [List.forall₂_map_right_iff, List.forall₂_same]
    exact fun a mem => (each a mem).1
  · intro x mem
    obtain ⟨a, among, rfl⟩ := List.mem_map.1 mem
    exact (each a among).2

theorem renders_ofString (s : String) : Renders (ShowsString s) (ofString s) := ⟨rfl, rfl⟩

theorem renders_tag (kind : String) : Renders (· = .string (some kind)) (ofString kind) :=
  ⟨rfl, rfl⟩

theorem renders_bool (b : Bool) : Renders (· = .bool b) (.bool b) := ⟨rfl, trivial⟩

theorem renders_ofNat {k : Nat} (fits : k ≤ Numeral.maxSignificand) :
    Renders (ShowsNat k) (ofNat k) :=
  ⟨⟨_, rfl, Numeral.toNat?_ofNat fits⟩, Numeral.ofNat_isProper k⟩

theorem Numeral.Spells.renders {n : Numeral} {v : Number} (spells : n.Spells v) :
    Renders (ShowsNumber v) (.number n) :=
  ⟨⟨n, rfl, spells.2⟩, spells.1⟩

theorem renders_orNull {α : Type} {shows : α → Json → Prop} {toJson : α → Json} {o : Option α}
    (each : ∀ a ∈ o, Renders (shows a) (toJson a)) :
    Renders (ShowsOption shows o) (orNullToJson toJson o) := by
  cases o with
  | none => exact ⟨rfl, trivial⟩
  | some a => exact each a rfl

end
end Json

theorem Location.Fits.renders {l : Location} (fits : l.Fits) : Renders l.Shows l.toJson :=
  renders_record <| .cons ⟨rfl, renders_ofString _⟩ <| .cons ⟨rfl, renders_ofString _⟩ <|
    .cons ⟨rfl, renders_ofNat fits.1⟩ <| .cons ⟨rfl, renders_ofNat fits.2⟩ .nil

variable {print : Number → Numeral}

mutual

/-- A node is rendered by what it is serialized to. -/
theorem Node.Fits.renders : ∀ n : Node, n.Fits print → Renders n.Shows (n.toJson print)
  | .literal (.bool _), _ =>
    renders_record <| .cons ⟨rfl, renders_tag _⟩ <| .cons ⟨rfl, renders_bool _⟩ .nil
  | .literal (.number _), fits =>
    renders_record <| .cons ⟨rfl, renders_tag _⟩ <| .cons ⟨rfl, Numeral.Spells.renders fits⟩ .nil
  | .literal (.string _), _ =>
    renders_record <| .cons ⟨rfl, renders_tag _⟩ <| .cons ⟨rfl, renders_ofString _⟩ .nil
  | .local _, fits =>
    renders_record <| .cons ⟨rfl, renders_tag _⟩ <| .cons ⟨rfl, renders_ofNat fits⟩ .nil
  | .global _, _ =>
    renders_record <| .cons ⟨rfl, renders_tag _⟩ <| .cons ⟨rfl, renders_ofString _⟩ .nil
  | .call function positionals keywords dicts _, fits => by
    obtain ⟨callee, given, named, spread, place⟩ := fits
    have callee := callee.renders
    have given := positionalsFit.renders positionals given
    have named := keywordsFit.renders keywords named
    have spread := nodesFit.renders dicts spread
    have place := renders_orNull fun l mem => (place l mem).renders
    exact renders_record <| .cons ⟨rfl, renders_tag _⟩ <| .cons ⟨rfl, callee⟩ <|
      .cons ⟨rfl, renders_array given.1 given.2⟩ <| .cons ⟨rfl, renders_array named.1 named.2⟩ <|
      .cons ⟨rfl, renders_array spread.1 spread.2⟩ <| .cons ⟨rfl, place⟩ .nil
  | .switch value cases default, fits => by
    obtain ⟨matched, rows, otherwise⟩ := fits
    have matched := matched.renders
    have rows := casesFit.renders cases rows
    have otherwise := defaultFits.renders default otherwise
    exact renders_record <| .cons ⟨rfl, renders_tag _⟩ <| .cons ⟨rfl, matched⟩ <|
      .cons ⟨rfl, renders_array rows.1 rows.2⟩ <| .cons ⟨rfl, otherwise⟩ .nil

theorem positionalsFit.renders : ∀ ps : List PositionalNode, positionalsFit print ps →
    showsPositionals ps (positionalsToJson print ps) ∧ AreWritable (positionalsToJson print ps)
  | [], _ => ⟨trivial, trivial⟩
  | ⟨value, expanded⟩ :: ps, fits => by
    have first := Node.Fits.renders value fits.1
    have others := positionalsFit.renders ps fits.2
    have shown : Renders (IsStructure (positionalFields value.Shows expanded))
        (record [("value", _), ("expanded", _)]) :=
      renders_record <| .cons ⟨rfl, first⟩ <| .cons ⟨rfl, renders_bool expanded⟩ .nil
    exact ⟨⟨shown.1, others.1⟩, shown.2, others.2⟩

theorem keywordsFit.renders : ∀ ks : List KeywordNode, keywordsFit print ks →
    showsKeywords ks (keywordsToJson print ks) ∧ AreWritable (keywordsToJson print ks)
  | [], _ => ⟨trivial, trivial⟩
  | ⟨name, value⟩ :: ks, fits => by
    have first := Node.Fits.renders value fits.1
    have others := keywordsFit.renders ks fits.2
    have shown : Renders (IsStructure (keywordFields name value.Shows))
        (record [("name", _), ("value", _)]) :=
      renders_record <| .cons ⟨rfl, renders_ofString name⟩ <| .cons ⟨rfl, first⟩ .nil
    exact ⟨⟨shown.1, others.1⟩, shown.2, others.2⟩

theorem casesFit.renders : ∀ cs : List CaseNode, casesFit print cs →
    showsCases cs (casesToJson print cs) ∧ AreWritable (casesToJson print cs)
  | [], _ => ⟨trivial, trivial⟩
  | ⟨pattern, value⟩ :: cs, fits => by
    have key := Node.Fits.renders pattern fits.1
    have first := Node.Fits.renders value fits.2.1
    have others := casesFit.renders cs fits.2.2
    have shown : Renders (IsStructure (caseFields pattern.Shows value.Shows))
        (record [("pattern", _), ("value", _)]) :=
      renders_record <| .cons ⟨rfl, key⟩ <| .cons ⟨rfl, first⟩ .nil
    exact ⟨⟨shown.1, others.1⟩, shown.2, others.2⟩

theorem nodesFit.renders : ∀ nodes : List Node, nodesFit print nodes →
    showsNodes nodes (nodesToJson print nodes) ∧ AreWritable (nodesToJson print nodes)
  | [], _ => ⟨trivial, trivial⟩
  | node :: nodes, fits => by
    have first := Node.Fits.renders node fits.1
    have others := nodesFit.renders nodes fits.2
    exact ⟨⟨first.1, others.1⟩, first.2, others.2⟩

theorem defaultFits.renders : ∀ default : Option Node, defaultFits print default →
    Renders (showsDefault default) (defaultToJson print default)
  | none, _ => ⟨rfl, trivial⟩
  | some node, fits => Node.Fits.renders node fits

end

theorem Half.Fits.renders {h : Half Node} (fits : h.Fits print) :
    Renders h.Shows (h.toJson print) := by
  have requireds := renders_map fun s (_ : s ∈ h.requireds) => renders_ofString s
  have optionals := renders_map fun o (mem : o ∈ h.optionals) =>
    have value := Node.Fits.renders o.2 (fits o mem)
    show Renders (IsStructure [.always "name" (ShowsString o.1), .always "default" o.2.Shows])
        (record [("name", _), ("default", _)]) from
      renders_record <| .cons ⟨rfl, renders_ofString o.1⟩ <| .cons ⟨rfl, value⟩ .nil
  have rest := renders_orNull fun s (_ : s ∈ h.rest) => renders_ofString s
  exact renders_record <| .cons ⟨rfl, requireds⟩ <| .cons ⟨rfl, optionals⟩ <|
    .cons ⟨rfl, rest⟩ .nil

theorem Definition.Fits.renders {d : Definition} (fits : d.Fits print) :
    Renders d.Shows (d.toJson print) := by
  cases d with
  | «variable» name value =>
    have expr := Node.Fits.renders value fits
    exact renders_record <| .cons ⟨rfl, renders_tag _⟩ <| .cons ⟨rfl, renders_ofString name⟩ <|
      .cons ⟨rfl, expr⟩ .nil
  | function name signature bindings result =>
    obtain ⟨positional, keyword, lets, body⟩ := fits
    have params : Renders signature.Shows (signature.toJson print) :=
      renders_record <| .cons ⟨rfl, positional.renders⟩ <| .cons ⟨rfl, keyword.renders⟩ .nil
    have lets := renders_map fun node mem => Node.Fits.renders node (lets node mem)
    have body := Node.Fits.renders result body
    exact renders_record <| .cons ⟨rfl, renders_tag _⟩ <| .cons ⟨rfl, renders_ofString name⟩ <|
      .cons ⟨rfl, params⟩ <| .cons ⟨rfl, lets⟩ <| .cons ⟨rfl, body⟩ .nil

theorem Program.Fits.renders {p : Program} (fits : p.Fits print) :
    Renders p.Shows (p.toJson print) := by
  have definitions := renders_map fun d mem => (fits.1 d mem).renders
  have output (o : OutputNode) (mem : o ∈ p.outputs) : Renders o.Shows (o.toJson print) :=
    have expr := Node.Fits.renders o.value (fits.2 o mem)
    renders_record <| .cons ⟨rfl, expr⟩ <| .cons ⟨rfl, renders_bool o.expanded⟩ .nil
  have outputs := renders_map output
  exact renders_record <| .cons ⟨rfl, definitions⟩ <| .cons ⟨rfl, outputs⟩ .nil

end CallByNeed
