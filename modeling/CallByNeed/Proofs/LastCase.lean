import CallByNeed.Proofs.Keys.Sorted
import CallByNeed.Proofs.Loading.Resolving
import CallByNeed.Proofs.Reading.Endings
import CallByNeed.Proofs.Switching
import CallByNeed.Proofs.ValueOrder.Ranks
import Mathlib.Data.List.Induction

/- The case that a switch takes. Among the cases as they are written it is the last one whose pattern
   equals the value. The table of a switch finds it by keys, and the order of keys is that of values. -/
namespace CallByNeed

/-! ### The table -/

namespace Branch
variable {k : Key} {c : CaseExpr} {cs : List CaseExpr} {i : Nat}

theorem table_concat (cs : List CaseExpr) (c : CaseExpr) :
    table (cs ++ [c]) = (table cs).insert c.pattern cs.length := by
  simp [table, Dict.ofList, List.zipIdx_append]

theorem lt_length_of_table (found : (table cs).get? k = some i) : i < cs.length := by
  induction cs using List.reverseRecOn with
  | nil => cases found
  | append_singleton cs c ih =>
    rw [table_concat, Dict.get?, Dict.insert, Dict.find_put] at found
    rw [List.length_append, List.length_singleton]
    split at found
    · cases found
      exact Nat.lt_succ_self _
    · exact Nat.lt_succ_of_lt (ih found)

/-- A later case comes before all earlier ones. -/
theorem find_concat (k : Key) (cs : List CaseExpr) (c : CaseExpr) :
    find k (cs ++ [c]) = if k.compare c.pattern = .eq then some c.result else find k cs := by
  have looked : (table (cs ++ [c])).get? k =
      if k.compare c.pattern = .eq then some cs.length else (table cs).get? k := by
    rw [table_concat]
    exact Dict.find_put
  rw [find, looked]
  split
  · simp
  · cases found : (table cs).get? k with
    | none => simp [find, found]
    | some i => simp [find, found, List.getElem?_append_left (lt_length_of_table found)]

theorem find_cons (k : Key) (c : CaseExpr) (cs : List CaseExpr) :
    find k (c :: cs) =
      (find k cs).or (if k.compare c.pattern = .eq then some c.result else none) := by
  induction cs using List.reverseRecOn with
  | nil => exact find_concat k [] c
  | append_singleton cs d ih =>
    rw [← List.cons_append, find_concat, find_concat, ih]
    split <;> rfl

end Branch

/-! ### Patterns -/

/-- A literal as a key. -/
def Literal.key : Literal → Key
  | .bool b => .bool b
  | .number x => .number x
  | .string s => .string s

/-- The value that a pattern stands for. The name of a constant may be hidden by a definition. -/
inductive Node.Denotes (handles : Handles) : Node → Value → Prop
  | literal (l : Literal) : Denotes handles (.literal l) l.value
  | constant {name : String} {b : Bool} (free : handles.lookup name = none)
      (named : Predefined.named? name = some (.constant b)) : Denotes handles (.global name) (.bool b)

/-- The case as it is written, and as it is looked up. -/
structure CaseNode.Becomes (handles : Handles) (scope : Scope) (c : CaseNode) (c' : CaseExpr) :
    Prop where
  pattern : ∃ l : Literal, c.pattern.Denotes handles l.value ∧ c'.pattern = l.key
  result : c.value.resolve handles scope = .ok c'.result

section
variable {handles : Handles} {scope : Scope} {node : Node} {h : Heap} {v u : Value} {l : Literal}

theorem Node.Denotes.unique (first : node.Denotes handles v) (second : node.Denotes handles u) :
    v = u := by
  cases first with
  | literal l =>
    cases second
    rfl
  | constant free named =>
    cases second with
    | constant free' named' =>
      rw [named] at named'
      cases named'
      rfl

theorem Node.Denotes.exists_literal (denotes : node.Denotes handles v) : ∃ l : Literal, v = l.value := by
  cases denotes with
  | literal l => exact ⟨l, rfl⟩
  | @constant _ b => exact ⟨.bool b, rfl⟩

theorem Node.denotes_of_pattern {k : Key} (ok : node.pattern handles scope = .ok k) :
    ∃ l : Literal, node.Denotes handles l.value ∧ k = l.key := by
  cases node with
  | literal l =>
    refine ⟨l, .literal l, ?_⟩
    cases l <;> cases ok <;> rfl
  | global name =>
    simp only [Node.pattern] at ok
    split at ok
    · cases ok
    · next free =>
      split at ok
      · next b named =>
        cases ok
        refine ⟨.bool b, .constant ?_ named, rfl⟩
        exact Option.not_isSome_iff_eq_none.1 free
      · cases ok
      · cases ok
  | _ => cases ok

theorem Node.becomes_of_resolveCases {cases : List CaseNode} {cases' : List CaseExpr}
    (ok : resolveCases handles scope cases = .ok cases') :
    List.Forall₂ (CaseNode.Becomes handles scope) cases cases' := by
  induction cases generalizing cases' with
  | nil =>
    cases ok
    exact .nil
  | cons c cases ih =>
    obtain ⟨pattern, value⟩ := c
    simp only [resolveCases] at ok
    obtain ⟨k, key_ok, ok⟩ := Except.ok_of_bind ok
    obtain ⟨e, result_ok, ok⟩ := Except.ok_of_bind ok
    obtain ⟨rest, rest_ok, ok⟩ := Except.ok_of_bind ok
    cases ok
    exact .cons ⟨denotes_of_pattern key_ok, result_ok⟩ (ih rest_ok)

/-- What becomes of a switch that is accepted. -/
theorem Node.of_resolve_switch {value : Node} {cases : List CaseNode} {default : Option Node}
    {value' : Expr} {cases' : List CaseExpr} {default' : Option Expr}
    (ok : (Node.switch value cases default).resolve handles scope =
      .ok (.switch value' cases' default')) :
    List.Forall₂ (CaseNode.Becomes handles scope) cases cases' ∧
      Option.Rel (fun node e => node.resolve handles scope = .ok e) default default' := by
  simp only [resolve] at ok
  split at ok
  · cases ok
  · obtain ⟨cs, cases_ok, ok⟩ := Except.ok_of_bind ok
    obtain ⟨d, default_ok, ok⟩ := Except.ok_of_bind ok
    obtain ⟨e, _, ok⟩ := Except.ok_of_bind ok
    cases ok
    refine ⟨becomes_of_resolveCases cases_ok, ?_⟩
    cases default with
    | none =>
      cases default_ok
      exact .none
    | some node =>
      obtain ⟨e, node_ok, ok⟩ := Except.ok_of_bind default_ok
      cases ok
      exact .some node_ok

theorem Heap.tree_literal (h : Heap) (l : Literal) : h.Tree l.value l.key := by
  cases l with
  | bool b => exact .bool b
  | number x => exact .number x
  | string s => exact .string s

end

/-! ### The last case -/

/-- The pattern of the case equals the value. -/
def Heap.Matches (h : Heap) (handles : Handles) (v : Value) (c : CaseNode) : Prop :=
  ∃ p, c.pattern.Denotes handles p ∧ h.Equated p v

/-- The case matches the value, and no later one does. -/
def Heap.LastMatch (h : Heap) (handles : Handles) (v : Value) (cases : List CaseNode)
    (c : CaseNode) : Prop :=
  ∃ front rest, cases = front ++ c :: rest ∧ h.Matches handles v c ∧
    ∀ c' ∈ rest, ¬ h.Matches handles v c'

/-- The code that a switch goes on with for the value: the result of the last case that matches it, or
    the default where none does, if there is one. -/
inductive Heap.Selects (h : Heap) (handles : Handles) (v : Value) (cases : List CaseNode)
    (default : Option Node) : Option Node → Prop
  | case {c : CaseNode} (last : h.LastMatch handles v cases c) :
      Selects h handles v cases default (some c.value)
  | default (none : ∀ c ∈ cases, ¬ h.Matches handles v c) : Selects h handles v cases default default

namespace Heap
variable {h : Heap} {handles : Handles} {scope : Scope} {v : Value} {k : Key}
variable {c c' : CaseNode} {cases : List CaseNode} {cases' : List CaseExpr} {default : Option Node}

theorem LastMatch.mem (last : h.LastMatch handles v cases c) :
    c ∈ cases ∧ h.Matches handles v c := by
  obtain ⟨front, rest, rfl, found, _⟩ := last
  exact ⟨by simp, found⟩

theorem LastMatch.cons (last : h.LastMatch handles v cases c) :
    h.LastMatch handles v (c' :: cases) c := by
  obtain ⟨front, rest, rfl, found, later⟩ := last
  exact ⟨c' :: front, rest, rfl, found, later⟩

theorem LastMatch.unique (last : h.LastMatch handles v cases c)
    (last' : h.LastMatch handles v cases c') : c' = c := by
  obtain ⟨front, rest, place, found, later⟩ := last
  obtain ⟨front', rest', place', found', later'⟩ := last'
  rw [place] at place'
  rcases List.append_eq_append_iff.1 place' with ⟨more, _, behind⟩ | ⟨more, _, behind⟩
  · cases more with
    | nil =>
      cases behind
      rfl
    | cons x more =>
      cases behind
      exact absurd found' (later c' (by simp))
  · cases more with
    | nil =>
      cases behind
      rfl
    | cons x more =>
      cases behind
      exact absurd found (later' c (by simp))

theorem Selects.unique {chosen other : Option Node}
    (selects : h.Selects handles v cases default chosen)
    (selects' : h.Selects handles v cases default other) : other = chosen := by
  cases selects with
  | case last =>
    cases selects' with
    | case last' => rw [last.unique last']
    | default none => exact absurd last.mem.2 (none _ last.mem.1)
  | default none =>
    cases selects' with
    | case last => exact absurd last.mem.2 (none _ last.mem.1)
    | default => rfl

/-- Only what is of the type of a literal is matched. -/
theorem Matches.exists_literal (found : h.Matches handles v c) :
    ∃ l : Literal, v.type = l.value.type := by
  obtain ⟨p, denotes, equated⟩ := found
  obtain ⟨l, rfl⟩ := denotes.exists_literal
  exact ⟨l, (equals_iff_ranks.1 (equated_iff.1 equated)).type_eq⟩

/-- Whether a case matches a value with a key is seen from its key. -/
theorem matches_iff {e : CaseExpr} (tree : h.Tree v k) (becomes : c.Becomes handles scope e) :
    h.Matches handles v c ↔ k.compare e.pattern = .eq := by
  obtain ⟨l, denotes, pattern⟩ := becomes.pattern
  have decided : h.Equated l.value v ↔ k.compare e.pattern = .eq := by
    rw [equated_iff, (h.tree_literal l).equals_iff tree, pattern]
    exact ⟨Std.OrientedCmp.eq_symm, Std.OrientedCmp.eq_symm⟩
  rw [← decided]
  constructor
  · rintro ⟨p, denotes', equated⟩
    rwa [denotes.unique denotes']
  · exact fun equated => ⟨l.value, denotes, equated⟩

/-- What the table finds is the result of the last case that matches. -/
theorem selects_find (tree : h.Tree v k)
    (becomes : List.Forall₂ (CaseNode.Becomes handles scope) cases cases') :
    (∃ c e, h.LastMatch handles v cases c ∧ Branch.find k cases' = some e ∧
      c.value.resolve handles scope = .ok e) ∨
    (∀ c ∈ cases, ¬ h.Matches handles v c) ∧ Branch.find k cases' = none := by
  induction becomes with
  | nil => exact .inr ⟨nofun, rfl⟩
  | @cons c c' cases cases' first _ ih =>
    rw [Branch.find_cons]
    rcases ih with ⟨d, e, last, found, resolved⟩ | ⟨none, missing⟩
    · exact .inl ⟨d, e, last.cons, by rw [found, Option.some_or], resolved⟩
    · rw [missing, Option.none_or]
      by_cases same : k.compare c'.pattern = .eq
      · rw [if_pos same]
        exact .inl ⟨c, _, ⟨[], cases, rfl, (matches_iff tree first).2 same, none⟩, rfl, first.result⟩
      · rw [if_neg same]
        refine .inr ⟨List.forall_mem_cons.2 ⟨?_, none⟩, rfl⟩
        exact fun found => same ((matches_iff tree first).1 found)

end Heap

/-! ### The way on -/

/-- Making cells comes to an end in every store. -/
theorem Script.IsMaker.comes {α : Type} {m : Script α} (makes : m.IsMaker) (E : Engine) (s : Store) :
    ∃ a t, m.Comes E s (.ok a) t := by
  induction makes generalizing s with
  | done a => exact ⟨a, s, .done⟩
  | alloc c _ ih =>
    obtain ⟨a, t, comes⟩ := ih (s.act (.alloc c)).1 (s.act (.alloc c)).2
    exact ⟨a, t, .act comes⟩

/-- What comes of demanding the switch in a cell, whose value and its key have been found when the
    store is `s'`. Cells are made for the chosen code only, and the cell goes on with the one that
    stands for it; without any code it gets a fault. -/
def Engine.Enters (E : Engine) (handles : Handles) (scope : Scope) (locals : List Ref) (r : Ref)
    (site : Option Location) (s : Store) (w : World) (s' : Store) (w' : World) :
    Option Node → Prop
  | none => let fault : Value := .error (({ cause := .noMatch } : Fault).through? site)
    ∀ (α : Type) how (next : Value → Script α) o t w'',
      (Script.demand how r next).Leaves E s w o t w'' ↔
        (next fault).Leaves E { s' with heap := s'.heap.publish r fault } w' o t w''
  | some node => ∃ e child made, node.resolve handles scope = .ok e ∧
    (e.interpret locals : Script Ref).Comes E s' (.ok child) made ∧
    (∀ (α : Type) how (next : Value → Script α) o t w'',
      (Script.demand how r next).Leaves E s w o t w'' ↔
        (Runner.forcing how r next (.run r site (.done (.tail child))) []).Leaves E made w' o t w'') ∧
    ∀ x t w'', (observe r).Leaves E s w x t w'' →
      ∃ u u', t.heap.Yields child u ∧ t.heap.Yields r u' ∧ (u' = u ∨ u' = u.through? site)

/-- A function has no key, because it has no order. -/
theorem Key.incomparable_of_function {E : Engine} {n : Nat} {v : Value} {s t : Store} {w w' : World}
    {key : Except Fault Key} (function : v.type = .function)
    (keyed : (Key.ofValue n v).Leaves E s w key t w') :
    ∃ e, key = .error e ∧ e.cause.isIncomparable = true := by
  cases n with
  | zero => exact absurd keyed Script.not_leaves_stall
  | succ n =>
    cases v with
    | function f => exact ⟨_, (Script.leaves_fail_iff.1 keyed).1, rfl⟩
    | native f => exact ⟨_, (Script.leaves_fail_iff.1 keyed).1, rfl⟩
    | _ => cases function

theorem Branch.enters {E : Engine} {handles : Handles} {scope : Scope} {b : Branch} {r matched : Ref}
    {site : Option Location} {s s' : Store} {w w' : World} {chosen : Option Node}
    {found : Option Expr}
    (waits : s.heap.state? r = some (.pending { task := .resume (.branch b matched), site }))
    (body : ∀ o t w'', ((Suspension.branch b matched).script E.bound).Leaves E
      { s with heap := s.heap.setState r .forcing } w o t w'' ↔
        (b.goOn found).Leaves E s' w' o t w'')
    (resolved : Option.Rel (fun node e => node.resolve handles scope = .ok e) chosen found) :
    E.Enters handles scope b.locals r site s w s' w' chosen := by
  cases resolved with
  | none =>
    intro α how next o t w''
    have ends : (b.goOn none).Leaves E s' w' (.error { cause := .noMatch }) s' w' := ⟨1, rfl⟩
    rw [Runner.leaves_demand_iff_of_pending waits ((body _ _ _).2 ends)]
    exact Runner.leaves_within_raise_iff
  | @some node e resolved =>
    obtain ⟨child, made, comes⟩ := (e.isMaker_interpret b.locals).comes E s'
    have ends : (b.goOn (some e)).Leaves E s' w' (.ok (.tail child)) made w' :=
      (comes.bind (f := fun child => pure (Outcome.tail child)) .done).leaves
    have ran := (body _ _ _).2 ends
    have on : ∀ (α : Type) how (next : Value → Script α) o t w'',
        (Script.demand how r next).Leaves E s w o t w'' ↔
          (Runner.forcing how r next (.run r site (.done (.tail child))) []).Leaves E made w' o t
            w'' := fun α how next o t w'' => Runner.leaves_demand_iff_of_pending waits ran
    refine ⟨e, child, made, resolved, comes, on, fun x t w'' leaves => ?_⟩
    have busy : made.heap.state? r = some .forcing :=
      Runner.Leaves.busy (w := .ready _) ran (by simp [Runner.owned, Heap.Forcing])
        (by simp [Runner.owned]) (by simp [Runner.owned]) (Heap.state?_setState_self waits _)
    exact Runner.yields_of_leaves_tail ((on _ _ _ _ _ _).1 leaves) busy

/-- A value is switched on that has a key or is a function, with any cases that have been accepted.
    The code that is gone on with is that of the last case whose pattern equals the value, whatever
    equal patterns are in front, or else the default, or else a fault. -/
theorem switches_take_last_case (E : Engine) {handles : Handles} {scope : Scope} {value : Node}
    {cases : List CaseNode} {default : Option Node} {value' : Expr} {cases' : List CaseExpr}
    {default' : Option Expr} {locals : List Ref} {r matched : Ref} {site : Option Location}
    {s s₁ s₂ : Store} {w w₁ w₂ : World} {v : Value} {key : Except Fault Key}
    (accepted : (Node.switch value cases default).resolve handles scope =
      .ok (.switch value' cases' default'))
    (waits : s.heap.state? r = some (.pending { task := .resume (.branch
      { cases := cases', default := default', locals } matched), site }))
    (forced : (force matched).Leaves E { s with heap := s.heap.setState r .forcing } w (.ok v) s₁ w₁)
    (keyed : (Key.ofValue E.bound v).Leaves E s₁ w₁ key s₂ w₂)
    (able : (∃ k, key = .ok k) ∨ v.type = .function) :
    ∃ chosen, (∀ other, s₂.heap.Selects handles v cases default other ↔ other = chosen) ∧
      (v.type ∈ [.list, .dict, .function] → chosen = default) ∧
      E.Enters handles scope locals r site s w s₂ w₂ chosen := by
  obtain ⟨becomes, defaults⟩ := Node.of_resolve_switch accepted
  have body : ∀ o t w', ((Suspension.branch { cases := cases', default := default', locals }
      matched).script E.bound).Leaves E { s with heap := s.heap.setState r .forcing } w o t w' ↔
      (Branch.enter { cases := cases', default := default', locals } key).Leaves E s₂ w₂ o t w' := by
    intro o t w'
    rw [Branch.script_eq_enter]
    have attempted : (Key.ofValue E.bound v).attempt.Leaves E s₁ w₁ (.ok key) s₂ w₂ := keyed.attempt
    exact forced.bind_iff.trans attempted.bind_iff
  suffices selected : ∃ chosen found, s₂.heap.Selects handles v cases default chosen ∧
      Option.Rel (fun node e => node.resolve handles scope = .ok e) chosen found ∧
      Branch.enter { cases := cases', default := default', locals } key =
        Branch.goOn { cases := cases', default := default', locals } found by
    obtain ⟨chosen, found, selects, resolved, enters⟩ := selected
    refine ⟨chosen, fun other => ⟨selects.unique, fun same => same ▸ selects⟩, ?_, ?_⟩
    · intro unlike
      cases selects with
      | default => rfl
      | case last =>
        obtain ⟨l, type⟩ := last.mem.2.exists_literal
        rw [type] at unlike
        cases l <;> simp [Literal.value, Value.type] at unlike
    · simp only [enters] at body
      exact Branch.enters waits body resolved
  rcases able with ⟨k, rfl⟩ | function
  · have tree := Key.tree_of_leaves keyed
    obtain ⟨c, e, last, found, resolved⟩ | ⟨none, missing⟩ := Heap.selects_find tree becomes
    · refine ⟨some c.value, some e, .case last, .some resolved, ?_⟩
      simp only [Branch.enter, found]
      rfl
    · refine ⟨default, default', .default none, defaults, ?_⟩
      simp only [Branch.enter, missing]
      rfl
  · have unmatched : ∀ c ∈ cases, ¬ s₂.heap.Matches handles v c := by
      intro c _ found
      obtain ⟨l, type⟩ := found.exists_literal
      rw [type] at function
      cases l <;> cases function
    refine ⟨default, default', .default unmatched, defaults, ?_⟩
    obtain ⟨e, rfl, incomparable⟩ := Key.incomparable_of_function function keyed
    simp only [Branch.enter, incomparable, if_true]

def textNode (s : String) : Node := .literal (.string s)

/-- Two of the cases have equal patterns. -/
def zeroCases : List CaseNode :=
  [⟨.literal (.number .zero), textNode "first"⟩, ⟨textNode "a", textNode "other"⟩,
    ⟨.literal (.number .zero), textNode "last"⟩]

def zeroSwitch : Branch where
  cases := [⟨.number .zero, .literal (.string "first")⟩, ⟨.string "a", .literal (.string "other")⟩,
    ⟨.number .zero, .literal (.string "last")⟩]
  default := none
  locals := []

/-- Cell 0 switches on -0, which is in cell 1; `busy` says that it is being forced. -/
def zeroStore (busy : Bool) : Store where
  heap := ⟨#[if busy then { state := .forcing } else .ofSuspension (.branch zeroSwitch ⟨1⟩),
    .ofValue (.number .negativeZero)]⟩

/-- -0 takes the last one of the cases for 0. -/
theorem switches_take_last_case_of_zero :
    let E : Engine := { bound := 1 }
    let value := Node.literal (.number .negativeZero)
    (Node.switch value zeroCases none).resolve [] {} =
      .ok (.switch (.literal (.number .negativeZero)) zeroSwitch.cases none) ∧
    (force ⟨1⟩).Leaves E (zeroStore true) {} (.ok (.number .negativeZero)) (zeroStore true) {} ∧
    (∀ other, (zeroStore true).heap.Selects [] (.number .negativeZero) zeroCases none other ↔
      other = some (textNode "last")) ∧
    E.Enters [] {} [] ⟨0⟩ none (zeroStore false) {} (zeroStore true) {} (some (textNode "last")) := by
  intro E value
  have accepted : (Node.switch value zeroCases none).resolve [] {} =
      .ok (.switch (.literal (.number .negativeZero)) zeroSwitch.cases none) := rfl
  have waits : (zeroStore false).heap.state? ⟨0⟩ =
      some (.pending { task := .resume (.branch zeroSwitch ⟨1⟩) }) := rfl
  have forced : (force ⟨1⟩).Leaves E (zeroStore true) {} (.ok (.number .negativeZero))
      (zeroStore true) {} := ⟨4, rfl⟩
  have keyed : (Key.ofValue 1 (.number .negativeZero)).Leaves E (zeroStore true) {}
      (.ok (.number .negativeZero)) (zeroStore true) {} := ⟨1, rfl⟩
  have equal : (zeroStore true).heap.Equated (.number .zero) (.number .negativeZero) :=
    ⟨1, E, zeroStore true, {}, zeroStore true, {}, ⟨1, rfl⟩, Heap.before_refl _⟩
  have last : (zeroStore true).heap.Selects [] (.number .negativeZero) zeroCases none
      (some (textNode "last")) :=
    .case ⟨zeroCases.take 2, [], rfl, ⟨_, .literal (.number .zero), equal⟩, nofun⟩
  obtain ⟨chosen, selects, _, enters⟩ :=
    switches_take_last_case E accepted waits forced keyed (.inl ⟨_, rfl⟩)
  obtain rfl := (selects _).1 last
  exact ⟨accepted, forced, selects, enters⟩

end CallByNeed
