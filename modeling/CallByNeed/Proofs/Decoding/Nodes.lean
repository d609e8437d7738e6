import CallByNeed.Program.OfJson
import CallByNeed.Proofs.Decoding.Shapes
import CallByNeed.Proofs.Decoding.Texts

/- How nodes are rendered. Every node, and whatever it is made of, is a structure of its own, so the
   ways to render it mix freely at every depth. -/
namespace CallByNeed

namespace Json

def ShowsString (s : String) (x : Json) : Prop := x = .string (some s)

/-- A numeral that is read as this number. -/
def ShowsNumber (v : Number) (x : Json) : Prop :=
  ∃ n : Numeral, x = .number n ∧ n.toNumber? = some v

/-- A plain numeral of this value. -/
def ShowsNat (k : Nat) (x : Json) : Prop := ∃ n : Numeral, x = .number n ∧ n.toNat? = some k

def ShowsList (elements : List Json → Prop) (x : Json) : Prop := ∃ xs, x = .array xs ∧ elements xs

/-- Null stands for no value. -/
def ShowsOption {α : Type} (shows : α → Json → Prop) : Option α → Json → Prop
  | none, x => x = .null
  | some a, x => shows a x

/-- A field that has no default. -/
def Field.always (name : String) (shows : Json → Prop) : Field := { name, shows, optional := False }

end Json

open Json

def Location.Shows (l : Location) : Json → Prop :=
  IsStructure [
    { name := "name", shows := ShowsString l.name, optional := l.name = "" },
    .always "file" (ShowsString l.file),
    .always "line" (ShowsNat l.line),
    .always "column" (ShowsNat l.column)]

/-! The fields of what stands around nodes, and how the nodes are rendered. -/

def positionalFields (value : Json → Prop) (expanded : Bool) : List Field :=
  [.always "value" value,
    { name := "expanded", shows x := x = .bool expanded, optional := expanded = false }]

def keywordFields (name : String) (value : Json → Prop) : List Field :=
  [.always "name" (ShowsString name), .always "value" value]

def caseFields (pattern value : Json → Prop) : List Field :=
  [.always "pattern" pattern, .always "value" value]

mutual
/-- The values that render a node. -/
def Node.Shows : Node → Json → Prop
  | .literal (.bool b) => IsTagged "node" "bool" [.always "value" (· = .bool b)]
  | .literal (.number v) => IsTagged "node" "number" [.always "value" (ShowsNumber v)]
  | .literal (.string s) => IsTagged "node" "string" [.always "value" (ShowsString s)]
  | .local i => IsTagged "node" "local" [.always "index" (ShowsNat i)]
  | .global name => IsTagged "node" "name" [.always "name" (ShowsString name)]
  | .call function positionals keywords dicts site =>
    IsTagged "node" "app" [
      .always "function" function.Shows,
      { name := "positionals", shows := ShowsList (showsPositionals positionals)
        optional := positionals = [] },
      { name := "keywords", shows := ShowsList (showsKeywords keywords)
        optional := keywords = [] },
      { name := "expanded_dicts", shows := ShowsList (showsNodes dicts), optional := dicts = [] },
      { name := "location", shows := ShowsOption Location.Shows site, optional := site = none }]
  | .switch value cases default =>
    IsTagged "node" "switch" [
      .always "value" value.Shows,
      { name := "cases", shows := ShowsList (showsCases cases), optional := cases = [] },
      { name := "default", shows := showsDefault default, optional := default = none }]

def showsPositionals : List PositionalNode → List Json → Prop
  | [], [] => True
  | ⟨value, expanded⟩ :: ps, x :: xs =>
    IsStructure (positionalFields value.Shows expanded) x ∧ showsPositionals ps xs
  | _, _ => False

def showsKeywords : List KeywordNode → List Json → Prop
  | [], [] => True
  | ⟨name, value⟩ :: ks, x :: xs =>
    IsStructure (keywordFields name value.Shows) x ∧ showsKeywords ks xs
  | _, _ => False

def showsCases : List CaseNode → List Json → Prop
  | [], [] => True
  | ⟨pattern, value⟩ :: cs, x :: xs =>
    IsStructure (caseFields pattern.Shows value.Shows) x ∧ showsCases cs xs
  | _, _ => False

def showsNodes : List Node → List Json → Prop
  | [], [] => True
  | node :: nodes, x :: xs => node.Shows x ∧ showsNodes nodes xs
  | _, _ => False

def showsDefault : Option Node → Json → Prop
  | none, x => x = .null
  | some node, x => node.Shows x
end

namespace Json
variable {α : Type} {name : String} {shows : Json → Prop} {depth : Nat} {o : Option Json} {a : α}
variable {read : Json → Result α}

/-! ### Fields and lists -/

theorem Field.Found.required (found : (Field.always name shows).Found depth o)
    (reads : ∀ x, shows x → x.isUsable depth = true → read x = .ok a) :
    Json.required read o = .ok a := by
  cases found with
  | written shows usable => exact reads _ shows usable
  | omitted may => exact may.elim

theorem Field.Found.orDefault {default : α}
    (found : Field.Found depth { name, shows, optional := a = default } o)
    (reads : ∀ x, shows x → x.isUsable depth = true → read x = .ok a) :
    Json.orDefault default read o = .ok a := by
  cases found with
  | written shows usable => exact reads _ shows usable
  | omitted may =>
    cases may
    rfl

theorem Field.Found.orNull {shows : α → Json → Prop} {a : Option α}
    (found : Field.Found depth { name, shows := ShowsOption shows a, optional := a = none } o)
    (reads : ∀ b x, a = some b → shows b x → x.isUsable depth = true → x ≠ .null ∧ read x = .ok b) :
    Json.orNull read o = .ok a := by
  cases found with
  | written shown usable =>
    cases a with
    | none =>
      cases shown
      rfl
    | some b =>
      obtain ⟨some_value, same⟩ := reads b _ rfl shown usable
      unfold Json.orNull
      split
      · next null => cases null
      · next null => exact absurd (Option.some.inj null) some_value
      · next given =>
        cases given
        rw [same]
        rfl
  | omitted may =>
    cases may
    rfl

theorem ShowsList.asList {elements : List Json → Prop} {as : List α} {x : Json}
    (shown : ShowsList elements x) (usable : x.isUsable depth = true)
    (reads : ∀ xs n, depth = n + 1 → elements xs → (∀ x ∈ xs, x.isUsable n = true) →
      xs.mapM read = .ok as) : Json.asList read x = .ok as := by
  obtain ⟨xs, rfl, each⟩ := shown
  obtain ⟨n, deep, usable⟩ := isUsable_array usable
  exact reads xs n deep each usable

end Json

namespace Json
variable {x : Json}

theorem asString_of_shows {s : String} (shown : ShowsString s x) : asString x = .ok s := by
  cases shown
  rfl

theorem asBool_of_shows {b : Bool} (shown : x = .bool b) : asBool x = .ok b := by
  cases shown
  rfl

theorem asNumber_of_shows {v : Number} (shown : ShowsNumber v x) : asNumber x = .ok v := by
  obtain ⟨n, rfl, same⟩ := shown
  simp only [asNumber, same]
  rfl

theorem asNat_of_shows {k : Nat} (shown : ShowsNat k x) : asNat x = .ok k := by
  obtain ⟨n, rfl, same⟩ := shown
  simp only [asNat, same]
  rfl

end Json

/-- A structure is no null. -/
theorem Json.IsStructure.ne_null {fields : List Field} {x : Json} (is : IsStructure fields x) :
    x ≠ .null := by
  cases is <;> nofun

theorem Location.ofJson_of_shows {l : Location} {depth : Nat} {x : Json} (shown : l.Shows x)
    (usable : x.isUsable depth = true) : Location.ofJson x = .ok l := by
  unfold Shows at shown
  obtain ⟨n, os, rfl, fields, found⟩ := shown.found (by simp [Field.always]) usable .mismatched
  obtain _ | ⟨name, _ | ⟨file, _ | ⟨line, _ | ⟨column, _ | _⟩⟩⟩⟩ := found
  have name := name.orDefault fun x shown _ => asString_of_shows shown
  have file := file.required fun x shown _ => asString_of_shows shown
  have line := line.required fun x shown _ => asNat_of_shows shown
  have column := column.required fun x shown _ => asNat_of_shows shown
  change fieldsOf ["name", "file", "line", "column"] .mismatched x = _ at fields
  simp only [Location.ofJson, fields, ok_bind, name, file, line, column]
  rfl

/-! ### Nodes -/

namespace Node

/-- Reads a positional argument whose value is read so. -/
def positionalOfJson (node : Json → Result Node) : Json → Result PositionalNode := fun x => do
  match ← fieldsOf ["value", "expanded"] .mismatched x with
  | [value, expanded] => pure ⟨← required node value, ← orDefault false asBool expanded⟩
  | _ => .error .mismatched

def keywordOfJson (node : Json → Result Node) : Json → Result KeywordNode := fun x => do
  match ← fieldsOf ["name", "value"] .mismatched x with
  | [id, value] => pure ⟨← required asString id, ← required node value⟩
  | _ => .error .mismatched

def caseOfJson (node : Json → Result Node) : Json → Result CaseNode := fun x => do
  match ← fieldsOf ["pattern", "value"] .mismatched x with
  | [pattern, value] => pure ⟨← required node pattern, ← required node value⟩
  | _ => .error .mismatched

variable {depth fuel : Nat} {nested : Bool} {x : Json}

theorem ofJson_literal {l : Literal} (shown : (Node.literal l).Shows x)
    (usable : x.isUsable depth = true) (enough : depth ≤ fuel) :
    ofJson fuel nested x = .ok (.literal l) := by
  cases l with
  | bool b =>
    simp only [Shows] at shown
    obtain ⟨n, y, os, rfl, untagged, fields, found⟩ := shown.opens (by simp [Field.always]) usable
    obtain ⟨fuel, rfl⟩ : ∃ k, fuel = k + 1 := ⟨fuel - 1, by omega⟩
    obtain _ | ⟨value, _ | _⟩ := found
    have value := value.required (a := b) fun x shown _ => asBool_of_shows shown
    have kind : asTag tags nested (.string (some "bool")) = .ok "bool" := rfl
    change fieldsOf ["value"] .mismatched y = _ at fields
    simp only [ofJson, untagged, ok_bind, kind, fields, value]
    rfl
  | number v =>
    simp only [Shows] at shown
    obtain ⟨n, y, os, rfl, untagged, fields, found⟩ := shown.opens (by simp [Field.always]) usable
    obtain ⟨fuel, rfl⟩ : ∃ k, fuel = k + 1 := ⟨fuel - 1, by omega⟩
    obtain _ | ⟨value, _ | _⟩ := found
    have value := value.required fun x shown _ => asNumber_of_shows shown
    have kind : asTag tags nested (.string (some "number")) = .ok "number" := rfl
    change fieldsOf ["value"] .mismatched y = _ at fields
    simp only [ofJson, untagged, ok_bind, kind, fields, value]
    rfl
  | string s =>
    simp only [Shows] at shown
    obtain ⟨n, y, os, rfl, untagged, fields, found⟩ := shown.opens (by simp [Field.always]) usable
    obtain ⟨fuel, rfl⟩ : ∃ k, fuel = k + 1 := ⟨fuel - 1, by omega⟩
    obtain _ | ⟨value, _ | _⟩ := found
    have value := value.required fun x shown _ => asString_of_shows shown
    have kind : asTag tags nested (.string (some "string")) = .ok "string" := rfl
    change fieldsOf ["value"] .mismatched y = _ at fields
    simp only [ofJson, untagged, ok_bind, kind, fields, value]
    rfl

theorem ofJson_local {i : Nat} (shown : (Node.local i).Shows x)
    (usable : x.isUsable depth = true) (enough : depth ≤ fuel) :
    ofJson fuel nested x = .ok (.local i) := by
  simp only [Shows] at shown
  obtain ⟨n, y, os, rfl, untagged, fields, found⟩ := shown.opens (by simp [Field.always]) usable
  obtain ⟨fuel, rfl⟩ : ∃ k, fuel = k + 1 := ⟨fuel - 1, by omega⟩
  obtain _ | ⟨index, _ | _⟩ := found
  have index := index.required fun x shown _ => asNat_of_shows shown
  have kind : asTag tags nested (.string (some "local")) = .ok "local" := rfl
  change fieldsOf ["index"] .mismatched y = _ at fields
  simp only [ofJson, untagged, ok_bind, kind, fields, index]
  rfl

theorem ofJson_global {name : String} (shown : (Node.global name).Shows x)
    (usable : x.isUsable depth = true) (enough : depth ≤ fuel) :
    ofJson fuel nested x = .ok (.global name) := by
  simp only [Shows] at shown
  obtain ⟨n, y, os, rfl, untagged, fields, found⟩ := shown.opens (by simp [Field.always]) usable
  obtain ⟨fuel, rfl⟩ : ∃ k, fuel = k + 1 := ⟨fuel - 1, by omega⟩
  obtain _ | ⟨id, _ | _⟩ := found
  have id := id.required fun x shown _ => asString_of_shows shown
  have kind : asTag tags nested (.string (some "name")) = .ok "name" := rfl
  change fieldsOf ["name"] .mismatched y = _ at fields
  simp only [ofJson, untagged, ok_bind, kind, fields, id]
  rfl

theorem keywordOfJson_of_shows {node : Json → Result Node} {name : String} {value : Node}
    (shown : IsStructure (keywordFields name value.Shows) x)
    (usable : x.isUsable depth = true)
    (reads : ∀ x n, depth = n + 1 → value.Shows x → x.isUsable n = true → node x = .ok value) :
    keywordOfJson node x = .ok ⟨name, value⟩ := by
  obtain ⟨n, os, deep, fields, found⟩ :=
    shown.found (by simp [keywordFields, Field.always]) usable .mismatched
  obtain _ | ⟨first, _ | ⟨second, _ | _⟩⟩ := found
  have first := first.required fun x shown _ => asString_of_shows shown
  have second := second.required fun x shown usable => reads x n deep shown usable
  change fieldsOf ["name", "value"] .mismatched x = _ at fields
  simp only [keywordOfJson, fields, ok_bind, first, second]
  rfl

theorem caseOfJson_of_shows {node : Json → Result Node} {pattern value : Node}
    (shown : IsStructure (caseFields pattern.Shows value.Shows) x)
    (usable : x.isUsable depth = true)
    (reads : ∀ x n, depth = n + 1 → pattern.Shows x → x.isUsable n = true → node x = .ok pattern)
    (reads' : ∀ x n, depth = n + 1 → value.Shows x → x.isUsable n = true → node x = .ok value) :
    caseOfJson node x = .ok ⟨pattern, value⟩ := by
  obtain ⟨n, os, deep, fields, found⟩ :=
    shown.found (by simp [caseFields, Field.always]) usable .mismatched
  obtain _ | ⟨first, _ | ⟨second, _ | _⟩⟩ := found
  have first := first.required fun x shown usable => reads x n deep shown usable
  have second := second.required fun x shown usable => reads' x n deep shown usable
  change fieldsOf ["pattern", "value"] .mismatched x = _ at fields
  simp only [caseOfJson, fields, ok_bind, first, second]
  rfl

theorem positionalOfJson_of_shows {node : Json → Result Node} {value : Node} {expanded : Bool}
    (shown : IsStructure (positionalFields value.Shows expanded) x)
    (usable : x.isUsable depth = true)
    (reads : ∀ x n, depth = n + 1 → value.Shows x → x.isUsable n = true → node x = .ok value) :
    positionalOfJson node x = .ok ⟨value, expanded⟩ := by
  obtain ⟨n, os, deep, fields, found⟩ :=
    shown.found (by simp [positionalFields, Field.always]) usable .mismatched
  obtain _ | ⟨first, _ | ⟨second, _ | _⟩⟩ := found
  have first := first.required fun x shown usable => reads x n deep shown usable
  have second := second.orDefault fun x shown _ => asBool_of_shows shown
  change fieldsOf ["value", "expanded"] .mismatched x = _ at fields
  simp only [positionalOfJson, fields, ok_bind, first, second]
  rfl

theorem ne_null_of_shows {node : Node} (shown : node.Shows x) : x ≠ .null := by
  cases node with
  | literal l => cases l <;> exact IsStructure.ne_null shown
  | _ => exact IsStructure.ne_null shown

mutual

/-- A node is read from whatever shows it. -/
theorem ofJson_of_shows {depth : Nat} {x : Json} (fuel : Nat) (nested : Bool) : ∀ n : Node,
    n.Shows x → x.isUsable depth = true → depth ≤ fuel → ofJson fuel nested x = .ok n
  | .literal _, shown, usable, enough => ofJson_literal shown usable enough
  | .local _, shown, usable, enough => ofJson_local shown usable enough
  | .global _, shown, usable, enough => ofJson_global shown usable enough
  | .call function positionals keywords dicts site, shown, usable, enough => by
    simp only [Shows] at shown
    obtain ⟨n, y, os, rfl, untagged, fields, found⟩ := shown.opens (by simp [Field.always]) usable
    obtain ⟨fuel, rfl⟩ : ∃ k, fuel = k + 1 := ⟨fuel - 1, by omega⟩
    obtain _ | ⟨callee, _ | ⟨given, _ | ⟨named, _ | ⟨spread, _ | ⟨place, _ | _⟩⟩⟩⟩⟩ := found
    have callee := callee.required fun x shown usable =>
      ofJson_of_shows fuel true function shown usable (by omega)
    have given := given.orDefault fun x shown usable => shown.asList usable fun xs m deep =>
      mapM_positionals fuel positionals xs (by omega)
    have named := named.orDefault fun x shown usable => shown.asList usable fun xs m deep =>
      mapM_keywords fuel keywords xs (by omega)
    have spread := spread.orDefault fun x shown usable => shown.asList usable fun xs m deep =>
      mapM_nodes fuel dicts xs (by omega)
    have place := place.orNull fun l x _ shown usable =>
      ⟨IsStructure.ne_null shown, Location.ofJson_of_shows shown usable⟩
    have kind : asTag tags nested (.string (some "app")) = .ok "app" := rfl
    change fieldsOf ["function", "positionals", "keywords", "expanded_dicts", "location"]
      .mismatched y = _ at fields
    simp only [ofJson, untagged, ok_bind, kind, fields, callee]
    -- The readers of the arguments are written out here, so no rewriting finds them by name.
    exact ok_bind_of given <| ok_bind_of named <| ok_bind_of spread <| ok_bind_of place rfl
  | .switch value cases default, shown, usable, enough => by
    simp only [Shows] at shown
    obtain ⟨n, y, os, rfl, untagged, fields, found⟩ := shown.opens (by simp [Field.always]) usable
    obtain ⟨fuel, rfl⟩ : ∃ k, fuel = k + 1 := ⟨fuel - 1, by omega⟩
    obtain _ | ⟨matched, _ | ⟨rows, _ | ⟨otherwise, _ | _⟩⟩⟩ := found
    have matched := matched.required fun x shown usable =>
      ofJson_of_shows fuel true value shown usable (by omega)
    have rows := rows.orDefault fun x shown usable => shown.asList usable fun xs m deep =>
      mapM_cases fuel cases xs (by omega)
    have same : showsDefault default = ShowsOption Node.Shows default := by cases default <;> rfl
    rw [same] at otherwise
    have otherwise := otherwise.orNull fun node x given shown usable =>
      ⟨ne_null_of_shows shown, ofJson_default default (by omega : n ≤ fuel) given shown usable⟩
    have kind : asTag tags nested (.string (some "switch")) = .ok "switch" := rfl
    change fieldsOf ["value", "cases", "default"] .mismatched y = _ at fields
    simp only [ofJson, untagged, ok_bind, kind, fields, matched]
    exact ok_bind_of rows <| ok_bind_of otherwise rfl
termination_by structural n => n

theorem ofJson_default {depth fuel : Nat} {x : Json} {node : Node} : ∀ default : Option Node,
    depth ≤ fuel → default = some node → node.Shows x → x.isUsable depth = true →
      ofJson fuel true x = .ok node
  | some other, enough, given, shown, usable => by
    rw [← Option.some.inj given] at shown ⊢
    exact ofJson_of_shows fuel true other shown usable enough
termination_by structural default => default

theorem mapM_positionals {depth : Nat} (fuel : Nat) : ∀ (ps : List PositionalNode) (xs : List Json),
    depth ≤ fuel → showsPositionals ps xs → (∀ x ∈ xs, x.isUsable depth = true) →
      xs.mapM (positionalOfJson (ofJson fuel true)) = .ok ps
  | [], [], _, _, _ => rfl
  | ⟨value, expanded⟩ :: ps, x :: xs, enough, shown, usable => by
    simp only [showsPositionals] at shown
    have first := positionalOfJson_of_shows shown.1 (usable x List.mem_cons_self) fun y m deep shown
      usable => ofJson_of_shows fuel true value shown usable (by omega)
    have others := mapM_positionals fuel ps xs enough shown.2
      fun y mem => usable y (List.mem_cons_of_mem _ mem)
    rw [List.mapM_cons, first, others]
    rfl
termination_by structural elements => elements

theorem mapM_keywords {depth : Nat} (fuel : Nat) : ∀ (ks : List KeywordNode) (xs : List Json),
    depth ≤ fuel → showsKeywords ks xs → (∀ x ∈ xs, x.isUsable depth = true) →
      xs.mapM (keywordOfJson (ofJson fuel true)) = .ok ks
  | [], [], _, _, _ => rfl
  | ⟨name, value⟩ :: ks, x :: xs, enough, shown, usable => by
    simp only [showsKeywords] at shown
    have first := keywordOfJson_of_shows shown.1 (usable x List.mem_cons_self) fun y m deep shown
      usable => ofJson_of_shows fuel true value shown usable (by omega)
    have others := mapM_keywords fuel ks xs enough shown.2
      fun y mem => usable y (List.mem_cons_of_mem _ mem)
    rw [List.mapM_cons, first, others]
    rfl
termination_by structural elements => elements

theorem mapM_cases {depth : Nat} (fuel : Nat) : ∀ (cs : List CaseNode) (xs : List Json),
    depth ≤ fuel → showsCases cs xs → (∀ x ∈ xs, x.isUsable depth = true) →
      xs.mapM (caseOfJson (ofJson fuel true)) = .ok cs
  | [], [], _, _, _ => rfl
  | ⟨pattern, value⟩ :: cs, x :: xs, enough, shown, usable => by
    simp only [showsCases] at shown
    have first := caseOfJson_of_shows shown.1 (usable x List.mem_cons_self)
      (fun y m deep shown usable =>
        ofJson_of_shows fuel true pattern shown usable (by omega))
      (fun y m deep shown usable =>
        ofJson_of_shows fuel true value shown usable (by omega))
    have others := mapM_cases fuel cs xs enough shown.2
      fun y mem => usable y (List.mem_cons_of_mem _ mem)
    rw [List.mapM_cons, first, others]
    rfl
termination_by structural elements => elements

theorem mapM_nodes {depth : Nat} (fuel : Nat) : ∀ (nodes : List Node) (xs : List Json),
    depth ≤ fuel → showsNodes nodes xs → (∀ x ∈ xs, x.isUsable depth = true) →
      xs.mapM (ofJson fuel true) = .ok nodes
  | [], [], _, _, _ => rfl
  | node :: nodes, x :: xs, enough, shown, usable => by
    simp only [showsNodes] at shown
    have first := ofJson_of_shows fuel true node shown.1
      (usable x List.mem_cons_self) enough
    have others := mapM_nodes fuel nodes xs enough shown.2
      fun y mem => usable y (List.mem_cons_of_mem _ mem)
    rw [List.mapM_cons, first, others]
    rfl
termination_by structural elements => elements

end

end Node

end CallByNeed
