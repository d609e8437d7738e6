import CallByNeed.Program.Resolve
import CallByNeed.Proofs.Loading.Handles
import Mathlib.Data.List.Nodup
import Mathlib.Logic.Relation

/- Which programs are well formed, and what can be wrong with one that is not. Nothing here follows
   the order in which loading looks at things: a program is a set of places, each of which holds an
   expression and sees a number of locals, and a defect is a part of what some place holds. A
   check that passes has seen that all is well with what it looks at, and one that fails reports
   something that is wrong there. -/
namespace CallByNeed
open Relation (TransGen)

namespace Node

/-- The first node is the second or stands in it, in any place but that of a pattern. Whatever
    stands in a node sees the same locals. -/
inductive Part (part : Node) : Node → Prop
  | whole : Part part part
  | function {function : Node} {positionals : List PositionalNode} {keywords : List KeywordNode}
      {dicts : List Node} {site : Option Location} (inside : Part part function) :
      Part part (.call function positionals keywords dicts site)
  | positional {function : Node} {positionals : List PositionalNode} {keywords : List KeywordNode}
      {dicts : List Node} {site : Option Location} {argument : PositionalNode}
      (mem : argument ∈ positionals) (inside : Part part argument.value) :
      Part part (.call function positionals keywords dicts site)
  | keyword {function : Node} {positionals : List PositionalNode} {keywords : List KeywordNode}
      {dicts : List Node} {site : Option Location} {argument : KeywordNode}
      (mem : argument ∈ keywords) (inside : Part part argument.value) :
      Part part (.call function positionals keywords dicts site)
  | dict {function : Node} {positionals : List PositionalNode} {keywords : List KeywordNode}
      {dicts : List Node} {site : Option Location} {argument : Node}
      (mem : argument ∈ dicts) (inside : Part part argument) :
      Part part (.call function positionals keywords dicts site)
  | value {value : Node} {cases : List CaseNode} {default : Option Node}
      (inside : Part part value) : Part part (.switch value cases default)
  | case {value : Node} {cases : List CaseNode} {default : Option Node} {case : CaseNode}
      (mem : case ∈ cases) (inside : Part part case.value) :
      Part part (.switch value cases default)
  | default {value : Node} {cases : List CaseNode} {default : Node}
      (inside : Part part default) : Part part (.switch value cases (some default))

section
variable (p : Program)

/-- What may be a pattern: a literal, or the name of a predefined constant that the program does not
    hide. The predefined constants are booleans, so all of them can be ordered. -/
def IsConstant : Node → Prop
  | .literal _ => True
  | .global name => name ∉ p.names ∧ ∃ b, Predefined.named? name = some (.constant b)
  | _ => False

/-- What a node asks for apart from what stands in it. -/
def Sound (locals : Nat) : Node → Prop
  | .literal _ => True
  | .local index => index < locals
  | .global name => name ∈ p.names ∨ (Predefined.named? name).isSome
  | .call .. => True
  | .switch _ cases default =>
    (cases ≠ [] ∨ default ≠ none) ∧ ∀ case ∈ cases, case.pattern.IsConstant p

/-- A pattern is no constant, and the error says so. -/
inductive PatternFlaw (context : String) : Node → LoadError → Prop
  | unknown {name : String} (undefined : name ∉ p.names)
      (unnamed : Predefined.named? name = none) :
      PatternFlaw context (.global name) (.unknownName name context)
  | invalid {pattern : Node} (no : ¬ pattern.IsConstant p) :
      PatternFlaw context pattern (.invalidPattern context)

/-- A node is not sound, and the error says why and where. -/
inductive Flaw (scope : Scope) : Node → LoadError → Prop
  | outside {index : Nat} (range : scope.locals ≤ index) :
      Flaw scope (.local index) (.localOutOfRange index scope.context scope.locals)
  | unknown {name : String} (undefined : name ∉ p.names)
      (unnamed : Predefined.named? name = none) :
      Flaw scope (.global name) (.unknownName name scope.context)
  | empty {value : Node} : Flaw scope (.switch value [] none) (.emptySwitch scope.context)
  | pattern {value : Node} {cases : List CaseNode} {default : Option Node} {case : CaseNode}
      {e : LoadError} (mem : case ∈ cases) (flaw : PatternFlaw p scope.context case.pattern e) :
      Flaw scope (.switch value cases default) e

end

variable {p : Program} {scope : Scope} {node : Node} {e : LoadError}

theorem PatternFlaw.not_isConstant {context : String} (flaw : PatternFlaw p context node e) :
    ¬ node.IsConstant p := by
  cases flaw with
  | unknown _ unnamed =>
    rintro ⟨_, b, constant⟩
    rw [unnamed] at constant
    cases constant
  | invalid no => exact no

/-- What an error reports is there. -/
theorem Flaw.not_sound (flaw : Flaw p scope node e) : ¬ node.Sound p scope.locals := by
  cases flaw with
  | outside range => exact Nat.not_lt.2 range
  | unknown undefined unnamed =>
    rintro (defined | named)
    · exact undefined defined
    · rw [unnamed] at named
      cases named
  | empty =>
    rintro ⟨nonempty | some, _⟩
    · exact nonempty rfl
    · exact some rfl
  | pattern mem flaw => exact fun ⟨_, constants⟩ => flaw.not_isConstant (constants _ mem)

end Node

/-- Where a definition holds expressions. Defaults see no locals, each binding sees the parameters
    and the bindings before it, the result sees them all. -/
inductive Definition.Holds : Definition → Scope → Node → Prop
  | variable {name : String} {value : Node} :
      Holds (.variable name value) { definition := some name } value
  | positional {name : String} {signature : Signature Node} {bindings : List Node} {result : Node}
      {optional : String × Node} (mem : optional ∈ signature.positional.optionals) :
      Holds (.function name signature bindings result) { definition := some name } optional.2
  | keyword {name : String} {signature : Signature Node} {bindings : List Node} {result : Node}
      {optional : String × Node} (mem : optional ∈ signature.keyword.optionals) :
      Holds (.function name signature bindings result) { definition := some name } optional.2
  | binding {name : String} {signature : Signature Node} {before after : List Node}
      {value result : Node} :
      Holds (.function name signature (before ++ value :: after) result)
        { definition := some name, locals := signature.arity + before.length } value
  | result {name : String} {signature : Signature Node} {bindings : List Node} {result : Node} :
      Holds (.function name signature bindings result)
        { definition := some name, locals := signature.arity + bindings.length } result

namespace Program

/-- Where a program holds expressions. Outputs see no locals. -/
inductive Holds (p : Program) : Scope → Node → Prop
  | definition {d : Definition} {scope : Scope} {node : Node} (mem : d ∈ p.definitions)
      (holds : d.Holds scope node) : Holds p scope node
  | output {o : OutputNode} (mem : o ∈ p.outputs) : Holds p {} o.value

/-- The first name is a variable that is only the name of the second, which is defined too. -/
def Alias (p : Program) (name target : String) : Prop :=
  .variable name (.global target) ∈ p.definitions ∧ target ∈ p.names

structure WellFormed (p : Program) : Prop where
  distinct : p.names.Nodup
  acyclic : ∀ name, ¬ TransGen p.Alias name name
  sound : ∀ (scope : Scope) (whole part : Node),
    p.Holds scope whole → part.Part whole → part.Sound p scope.locals

/-- The program has the defect that the error reports. -/
inductive Defect (p : Program) : LoadError → Prop
  | duplicate {name : String} (again : 2 ≤ p.names.count name) :
      Defect p (.duplicateDefinition name)
  | circular {name : String} (cycle : TransGen p.Alias name name) :
      Defect p (.circularDefinition name)
  | flaw {scope : Scope} {whole part : Node} {e : LoadError} (holds : p.Holds scope whole)
      (inside : part.Part whole) (flaw : part.Flaw p scope e) : Defect p e

theorem Defect.not_wellFormed {p : Program} {e : LoadError} (defect : p.Defect e) :
    ¬ p.WellFormed := by
  intro good
  cases defect with
  | duplicate again =>
    have once := List.nodup_iff_count_le_one.1 good.distinct
    exact Nat.not_lt.2 (once _) again
  | circular cycle => exact good.acyclic _ cycle
  | flaw holds inside flaw => exact flaw.not_sound (good.sound _ _ _ holds inside)

end Program

/-! ### What each check decides -/

/-- The computation gives a result only if all is well, and an error only if that is what is
    wrong. -/
def Tests {α : Type} (good : Prop) (bad : LoadError → Prop) : Except LoadError α → Prop
  | .ok _ => good
  | .error e => bad e

namespace Tests
variable {α β : Type} {good good' : Prop} {bad bad' : LoadError → Prop} {x : Except LoadError α}

theorem imp (tests : Tests good bad x) (better : good → good') : Tests good' bad x := by
  cases x with
  | ok a => exact better tests
  | error e => exact tests

theorem blame (bad' : LoadError → Prop) (tests : Tests good bad x) (worse : ∀ e, bad e → bad' e) :
    Tests good bad' x := by
  cases x with
  | ok a => exact tests
  | error e => exact worse e tests

/-- The second of two checks may count on what the first has seen. -/
theorem bind {f : α → Except LoadError β} (first : Tests good bad x)
    (second : good → ∀ a, Tests good' bad (f a)) : Tests (good ∧ good') bad (x >>= f) := by
  cases x with
  | error e => exact first
  | ok a => exact (second first a).imp fun second => ⟨first, second⟩

theorem map (f : α → β) (tests : Tests good bad x) :
    Tests good bad (x >>= fun a => pure (f a)) := by
  cases x with
  | ok a => exact tests
  | error e => exact tests

section
variable {γ : Type} {sound : γ → Prop} {flawed : γ → LoadError → Prop} {c : γ} {l : List γ}

/-- The first of a list, and then the others. -/
theorem cons {f : α → Except LoadError β} (first : Tests (sound c) (flawed c) x)
    (others : ∀ a, Tests (∀ c ∈ l, sound c) (fun e => ∃ c ∈ l, flawed c e) (f a)) :
    Tests (∀ d ∈ c :: l, sound d) (fun e => ∃ d ∈ c :: l, flawed d e) (x >>= f) := by
  cases x with
  | error e => exact ⟨c, List.mem_cons_self .., first⟩
  | ok a =>
    refine Tests.blame _ ((others a).imp ?_) ?_
    · intro rest
      exact List.forall_mem_cons.2 ⟨first, rest⟩
    · rintro e ⟨d, mem, flaw⟩
      exact ⟨d, List.mem_cons_of_mem _ mem, flaw⟩

theorem mapM {f : γ → Except LoadError α} (each : ∀ c ∈ l, Tests (sound c) (flawed c) (f c)) :
    Tests (∀ c ∈ l, sound c) (fun e => ∃ c ∈ l, flawed c e) (l.mapM f) := by
  induction l with
  | nil => exact List.forall_mem_nil _
  | cons c l ih =>
    rw [List.mapM_cons]
    obtain ⟨first, others⟩ := List.forall_mem_cons.1 each
    exact first.cons fun a => (ih others).map (a :: ·)

end
end Tests

/-- The handles are those of the program's definitions. -/
def Program.NamedBy (p : Program) (handles : Handles) : Prop :=
  ∀ name, (handles.lookup name).isSome ↔ name ∈ p.names

theorem Program.Handled.namedBy {p : Program} {handles : Handles} {h h' : Heap}
    (handled : Handled p.names h handles h') : p.NamedBy handles := by
  intro name
  rw [← handled.names, ← not_iff_not, Bool.not_eq_true, Option.isSome_eq_false_iff,
    Option.isNone_iff_eq_none, List.lookup_eq_none_iff]
  constructor
  · intro apart defined
    obtain ⟨q, mem, rfl⟩ := List.mem_map.1 defined
    simpa using apart q mem
  · intro outside q mem
    have other : name ≠ q.1 := by
      rintro rfl
      exact outside (List.mem_map_of_mem mem)
    simpa using other

namespace Node

section
variable (p : Program) (scope : Scope)

/-- Everything that stands in the node is sound. -/
def AllSound (node : Node) : Prop := ∀ part, Part part node → part.Sound p scope.locals

/-- Something that stands in the node has the flaw. -/
def Flawed (node : Node) (e : LoadError) : Prop := ∃ part, Part part node ∧ part.Flaw p scope e

end

section
variable {p : Program} {scope : Scope}

theorem allSound_literal (l : Literal) : AllSound p scope (.literal l) := by
  intro part inside
  cases inside
  trivial

theorem allSound_local {index : Nat} (range : index < scope.locals) :
    AllSound p scope (.local index) := by
  intro part inside
  cases inside
  exact range

theorem allSound_global {name : String} (known : name ∈ p.names ∨ (Predefined.named? name).isSome) :
    AllSound p scope (.global name) := by
  intro part inside
  cases inside
  exact known

theorem allSound_call {function : Node} {positionals : List PositionalNode}
    {keywords : List KeywordNode} {dicts : List Node} {site : Option Location}
    (function_sound : AllSound p scope function)
    (positionals_sound : ∀ a ∈ positionals, AllSound p scope a.value)
    (keywords_sound : ∀ a ∈ keywords, AllSound p scope a.value)
    (dicts_sound : ∀ a ∈ dicts, AllSound p scope a) :
    AllSound p scope (.call function positionals keywords dicts site) := by
  intro part inside
  cases inside with
  | whole => trivial
  | function inside => exact function_sound _ inside
  | positional mem inside => exact positionals_sound _ mem _ inside
  | keyword mem inside => exact keywords_sound _ mem _ inside
  | dict mem inside => exact dicts_sound _ mem _ inside

theorem allSound_switch {value : Node} {cases : List CaseNode} {default : Option Node}
    (some_way : cases ≠ [] ∨ default ≠ none) (value_sound : AllSound p scope value)
    (cases_sound : ∀ c ∈ cases, c.pattern.IsConstant p ∧ AllSound p scope c.value)
    (default_sound : ∀ d ∈ default, AllSound p scope d) :
    AllSound p scope (.switch value cases default) := by
  intro part inside
  cases inside with
  | whole => exact ⟨some_way, fun c mem => (cases_sound c mem).1⟩
  | value inside => exact value_sound _ inside
  | case mem inside => exact (cases_sound _ mem).2 _ inside
  | default inside => exact default_sound _ rfl _ inside

/-- A flaw is one of whatever its node stands in. -/
theorem Flawed.lift {node whole : Node} {e : LoadError}
    (up : ∀ part, Part part node → Part part whole) :
    Flawed p scope node e → Flawed p scope whole e
  | ⟨part, inside, flaw⟩ => ⟨part, up part inside, flaw⟩

end

section
variable {p : Program} {handles : Handles}

theorem tests_pattern (known : p.NamedBy handles) (scope : Scope) (node : Node) :
    Tests (node.IsConstant p) (PatternFlaw p scope.context node) (node.pattern handles scope) := by
  cases node with
  | literal l => cases l <;> trivial
  | «local» index => exact .invalid id
  | call function positionals keywords dicts site => exact .invalid id
  | switch value cases default => exact .invalid id
  | global name =>
    simp only [pattern]
    split
    · next defined => exact .invalid fun ⟨undefined, _⟩ => undefined ((known name).1 defined)
    · next free =>
      have undefined : name ∉ p.names := mt (known name).2 free
      split
      · next b constant => exact ⟨undefined, b, constant⟩
      · next b function =>
        refine .invalid fun ⟨_, c, constant⟩ => ?_
        rw [function] at constant
        cases constant
      · next unnamed => exact .unknown undefined unnamed

mutual
theorem tests_resolve (known : p.NamedBy handles) (scope : Scope) : ∀ node : Node,
    Tests (AllSound p scope node) (Flawed p scope node) (node.resolve handles scope)
  | .literal l => allSound_literal l
  | .local index => by
    simp only [resolve]
    split
    · next range => exact allSound_local range
    · next range => exact ⟨_, .whole, .outside (Nat.not_lt.1 range)⟩
  | .global name => by
    simp only [resolve]
    split
    · next r found => exact allSound_global (.inl ((known name).1 (by rw [found]; rfl)))
    · next missing =>
      have undefined : name ∉ p.names := by
        intro defined
        have found := (known name).2 defined
        rw [missing] at found
        cases found
      split
      · next b named => exact allSound_global (.inr (by rw [named]; rfl))
      · next unnamed => exact ⟨_, .whole, .unknown undefined unnamed⟩
  | .call function positionals keywords dicts site => by
    simp only [resolve]
    let bad := Flawed p scope (.call function positionals keywords dicts site)
    have function_ok := (tests_resolve known scope function).blame bad
      fun _ => .lift fun _ => .function
    have positionals_ok := (tests_resolvePositionals known scope positionals).blame bad
      fun _ ⟨_, mem, flaw⟩ => flaw.lift fun _ => .positional mem
    have keywords_ok := (tests_resolveKeywords known scope keywords).blame bad
      fun _ ⟨_, mem, flaw⟩ => flaw.lift fun _ => .keyword mem
    have dicts_ok := (tests_resolveAll known scope dicts).blame bad
      fun _ ⟨_, mem, flaw⟩ => flaw.lift fun _ => .dict mem
    refine (function_ok.bind fun _ f => positionals_ok.bind fun _ ps => keywords_ok.bind
      fun _ ks => dicts_ok.map _).imp ?_
    rintro ⟨function_ok, positionals_ok, keywords_ok, dicts_ok⟩
    exact allSound_call function_ok positionals_ok keywords_ok dicts_ok
  | .switch value cases default => by
    simp only [resolve]
    split
    · next empty =>
      simp only [Bool.and_eq_true, List.isEmpty_iff, Option.isNone_iff_eq_none] at empty
      obtain ⟨rfl, rfl⟩ := empty
      exact ⟨_, .whole, .empty⟩
    · next nonempty =>
      have some_way : cases ≠ [] ∨ default ≠ none := by
        rw [Bool.and_eq_true, List.isEmpty_iff, Option.isNone_iff_eq_none] at nonempty
        exact Decidable.not_and_iff_or_not.1 nonempty
      let bad := Flawed p scope (.switch value cases default)
      have value_ok := (tests_resolve known scope value).blame bad
        fun _ => .lift fun _ => .value
      have default_ok := (tests_resolveOption known scope default).blame bad
        fun _ ⟨_, mem, flaw⟩ => flaw.lift fun _ inside => by cases mem; exact .default inside
      have cases_ok := (tests_resolveCases known scope cases).blame bad <| by
        rintro e ⟨c, mem, flaw | flaw⟩
        · exact ⟨_, .whole, .pattern mem flaw⟩
        · exact flaw.lift fun _ => .case mem
      refine (cases_ok.bind fun _ cs => default_ok.bind fun _ d => value_ok.map _).imp ?_
      rintro ⟨cases_ok, default_ok, value_ok⟩
      exact allSound_switch some_way value_ok cases_ok default_ok

theorem tests_resolvePositionals (known : p.NamedBy handles) (scope : Scope) :
    ∀ nodes : List PositionalNode, Tests (∀ a ∈ nodes, AllSound p scope a.value)
      (fun e => ∃ a ∈ nodes, Flawed p scope a.value e) (resolvePositionals handles scope nodes)
  | [] => List.forall_mem_nil _
  | ⟨value, expanded⟩ :: rest => by
    have first := tests_resolve known scope value
    have others := tests_resolvePositionals known scope rest
    exact Tests.cons (c := PositionalNode.mk value expanded) first fun _ => others.map _

theorem tests_resolveKeywords (known : p.NamedBy handles) (scope : Scope) :
    ∀ nodes : List KeywordNode, Tests (∀ a ∈ nodes, AllSound p scope a.value)
      (fun e => ∃ a ∈ nodes, Flawed p scope a.value e) (resolveKeywords handles scope nodes)
  | [] => List.forall_mem_nil _
  | ⟨name, value⟩ :: rest => by
    have first := tests_resolve known scope value
    have others := tests_resolveKeywords known scope rest
    exact Tests.cons (c := KeywordNode.mk name value) first fun _ => others.map _

theorem tests_resolveCases (known : p.NamedBy handles) (scope : Scope) :
    ∀ nodes : List CaseNode,
      Tests (∀ c ∈ nodes, c.pattern.IsConstant p ∧ AllSound p scope c.value)
        (fun e => ∃ c ∈ nodes, PatternFlaw p scope.context c.pattern e ∨ Flawed p scope c.value e)
        (resolveCases handles scope nodes)
  | [] => List.forall_mem_nil _
  | ⟨pattern, value⟩ :: rest => by
    let bad (e : LoadError) := ∃ c ∈ CaseNode.mk pattern value :: rest,
      PatternFlaw p scope.context c.pattern e ∨ Flawed p scope c.value e
    have pattern_ok := (tests_pattern known scope pattern).blame bad
      fun _ flaw => ⟨_, List.mem_cons_self .., .inl flaw⟩
    have value_ok := (tests_resolve known scope value).blame bad
      fun _ flaw => ⟨_, List.mem_cons_self .., .inr flaw⟩
    have others := (tests_resolveCases known scope rest).blame bad
      fun _ ⟨c, mem, flaw⟩ => ⟨c, List.mem_cons_of_mem _ mem, flaw⟩
    refine (pattern_ok.bind fun _ k => value_ok.bind fun _ v => others.map _).imp ?_
    rintro ⟨constant, sound, others⟩
    exact List.forall_mem_cons.2 ⟨⟨constant, sound⟩, others⟩

theorem tests_resolveAll (known : p.NamedBy handles) (scope : Scope) :
    ∀ nodes : List Node, Tests (∀ a ∈ nodes, AllSound p scope a)
      (fun e => ∃ a ∈ nodes, Flawed p scope a e) (resolveAll handles scope nodes)
  | [] => List.forall_mem_nil _
  | node :: rest => by
    have first := tests_resolve known scope node
    have others := tests_resolveAll known scope rest
    exact first.cons fun _ => others.map _

theorem tests_resolveOption (known : p.NamedBy handles) (scope : Scope) :
    ∀ node : Option Node, Tests (∀ d ∈ node, AllSound p scope d)
      (fun e => ∃ d ∈ node, Flawed p scope d e) (resolveOption handles scope node)
  | none => fun _ none => by cases none
  | some node => by
    have whole := (tests_resolve known scope node).blame (fun e => ∃ d ∈ some node, Flawed p scope d e)
      fun e flaw => ⟨node, rfl, flaw⟩
    refine (whole.imp ?_).map some
    rintro sound d ⟨⟩
    exact sound
end

end
end Node

section
variable {p : Program} {handles : Handles}

/-- Some expression that the definition holds has the flaw. -/
def Definition.Flawed (p : Program) (d : Definition) (e : LoadError) : Prop :=
  ∃ scope whole, d.Holds scope whole ∧ whole.Flawed p scope e

theorem Half.tests_resolve (known : p.NamedBy handles) (scope : Scope) (h : Half Node) :
    Tests (∀ o ∈ h.optionals, o.2.AllSound p scope)
      (fun e => ∃ o ∈ h.optionals, o.2.Flawed p scope e) (h.resolve handles scope) := by
  refine (Tests.mapM fun o _ => ?_).map _
  exact (o.2.tests_resolve known scope).map _

theorem Signature.tests_resolve (known : p.NamedBy handles) (name : String) (s : Signature Node) :
    Tests
      ((∀ o ∈ s.positional.optionals, o.2.AllSound p { definition := some name }) ∧
        ∀ o ∈ s.keyword.optionals, o.2.AllSound p { definition := some name })
      (fun e => ∃ o, (o ∈ s.positional.optionals ∨ o ∈ s.keyword.optionals) ∧
        o.2.Flawed p { definition := some name } e)
      (s.resolve handles name) := by
  have positional := s.positional.tests_resolve known { definition := some name }
  have keyword := s.keyword.tests_resolve known { definition := some name }
  refine Tests.bind (positional.blame _ ?_) fun _ half => (keyword.blame _ ?_).map _
  · exact fun e ⟨o, mem, flaw⟩ => ⟨o, .inl mem, flaw⟩
  · exact fun e ⟨o, mem, flaw⟩ => ⟨o, .inr mem, flaw⟩

namespace Definition

theorem tests_resolveBindings (known : p.NamedBy handles) (name : String) (locals : Nat)
    (nodes : List Node) :
    Tests
      (∀ before value after, nodes = before ++ value :: after →
        value.AllSound p { definition := some name, locals := locals + before.length })
      (fun e => ∃ before value after, nodes = before ++ value :: after ∧
        value.Flawed p { definition := some name, locals := locals + before.length } e)
      (resolveBindings handles name locals nodes) := by
  induction nodes generalizing locals with
  | nil =>
    intro before value after parts
    cases before <;> cases parts
  | cons node rest ih =>
    have first := node.tests_resolve known { definition := some name, locals }
    refine (Tests.bind (first.blame _ ?_) fun _ e => ((ih (locals + 1)).blame _ ?_).map _).imp ?_
    · exact fun e flaw => ⟨[], node, rest, rfl, flaw⟩
    · rintro e ⟨before, value, after, rfl, flaw⟩
      rw [Nat.add_assoc, Nat.add_comm 1, ← List.length_cons] at flaw
      exact ⟨node :: before, value, after, rfl, flaw⟩
    · rintro ⟨first, others⟩ before value after parts
      cases before with
      | nil =>
        cases parts
        exact first
      | cons head before =>
        cases parts
        rw [List.length_cons, Nat.add_comm before.length, ← Nat.add_assoc]
        exact others before value after rfl

theorem tests_resolve (known : p.NamedBy handles) (d : Definition) :
    Tests (∀ scope whole, d.Holds scope whole → whole.AllSound p scope) (d.Flawed p)
      (d.resolve handles) := by
  cases d with
  | «variable» name value =>
    have value_ok := value.tests_resolve known { definition := some name }
    refine ((value_ok.blame _ fun e flaw => ?_).imp ?_).map _
    · exact ⟨_, _, .variable, flaw⟩
    · rintro sound scope whole ⟨⟩
      exact sound
  | function name signature bindings result =>
    have signature_ok := signature.tests_resolve known name
    have bindings_ok := tests_resolveBindings known name signature.arity bindings
    have result_ok := result.tests_resolve known
      { definition := some name, locals := signature.arity + bindings.length }
    refine (Tests.bind (signature_ok.blame _ ?_) fun _ s =>
      Tests.bind (bindings_ok.blame _ ?_) fun _ es => (result_ok.blame _ ?_).map _).imp ?_
    · rintro e ⟨o, mem | mem, flaw⟩
      · exact ⟨_, _, .positional mem, flaw⟩
      · exact ⟨_, _, .keyword mem, flaw⟩
    · rintro e ⟨before, value, after, rfl, flaw⟩
      exact ⟨_, _, .binding, flaw⟩
    · exact fun e flaw => ⟨_, _, .result, flaw⟩
    · rintro ⟨⟨positional, keyword⟩, bindings_ok, result_ok⟩ scope whole holds
      cases holds with
      | positional mem => exact positional _ mem
      | keyword mem => exact keyword _ mem
      | binding => exact bindings_ok _ _ _ rfl
      | result => exact result_ok

end Definition

namespace Program

theorem tests_definitions (known : p.NamedBy handles) :
    Tests (∀ d ∈ p.definitions, ∀ scope whole, d.Holds scope whole → whole.AllSound p scope) p.Defect
      (p.definitions.mapM (Definition.resolve handles)) := by
  refine (Tests.mapM fun d _ => d.tests_resolve known).blame _ ?_
  rintro e ⟨d, mem, scope, whole, holds, part, inside, flaw⟩
  exact .flaw (.definition mem holds) inside flaw

theorem tests_outputs (known : p.NamedBy handles) :
    Tests (∀ o ∈ p.outputs, o.value.AllSound p {}) p.Defect
      (p.outputs.mapM fun o => do pure (← o.value.resolve handles {}, o.expanded)) := by
  have each : ∀ o ∈ p.outputs, Tests (o.value.AllSound p {}) (o.value.Flawed p {})
      (do pure (← o.value.resolve handles {}, o.expanded)) :=
    fun o _ => (o.value.tests_resolve known {}).map _
  refine (Tests.mapM each).blame _ ?_
  rintro e ⟨o, mem, part, inside, flaw⟩
  exact .flaw (.output mem) inside flaw

theorem duplicate_of_checkNames {before names : List String} {e : LoadError}
    (failed : checkNames before names = .error e) :
    ∃ name, e = .duplicateDefinition name ∧ name ∈ names ∧
      (name ∈ before ∨ 2 ≤ names.count name) := by
  induction names generalizing before with
  | nil => cases failed
  | cons name rest ih =>
    simp only [checkNames] at failed
    split at failed
    · next again =>
      cases failed
      exact ⟨name, rfl, List.mem_cons_self .., .inl (List.contains_iff_mem.1 again)⟩
    · obtain ⟨other, rfl, mem, earlier | twice⟩ := ih failed
      · refine ⟨other, rfl, List.mem_cons_of_mem _ mem, ?_⟩
        rcases List.mem_cons.1 earlier with rfl | earlier
        · have once := List.count_pos_iff.2 mem
          rw [List.count_cons_self]
          exact .inr (by omega)
        · exact .inl earlier
      · refine ⟨other, rfl, List.mem_cons_of_mem _ mem, .inr ?_⟩
        exact Nat.le_trans twice List.count_le_count_cons

theorem tests_checkNames : Tests p.names.Nodup p.Defect (checkNames [] p.names) := by
  cases checked : checkNames [] p.names with
  | ok _ => exact (nodup_of_checkNames checked).1
  | error e =>
    obtain ⟨name, rfl, _, earlier | twice⟩ := duplicate_of_checkNames checked
    · cases earlier
    · exact .duplicate twice

/-- With different names, the table of aliases has all of them. -/
theorem hops_aliases_iff (distinct : p.names.Nodup) {name target : String} :
    Hops (aliases p.definitions) name target ↔ p.Alias name target := by
  constructor
  · intro hop
    obtain ⟨d, mem, made⟩ := List.mem_filterMap.1 (mem_of_lookup hop)
    split at made
    · split at made
      · next known =>
        cases made
        exact ⟨mem, List.contains_iff_mem.1 known⟩
      · cases made
    · cases made
  · rintro ⟨mem, known⟩
    exact lookup_aliases distinct mem known

theorem tests_checkAliases (distinct : p.names.Nodup) :
    Tests (∀ name, ¬ TransGen p.Alias name name) p.Defect (checkAliases (aliases p.definitions)) := by
  have same : Hops (aliases p.definitions) = p.Alias := by
    funext name target
    exact propext (hops_aliases_iff distinct)
  cases checked : checkAliases (aliases p.definitions) with
  | ok _ =>
    have acyclic := acyclic_of_checkAliases checked
    rwa [same] at acyclic
  | error e =>
    obtain ⟨name, rfl, cycle⟩ := cycle_of_checkAliases checked
    rw [same] at cycle
    exact .circular cycle

end Program
end
end CallByNeed
