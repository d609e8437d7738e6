import CallByNeed.Signature.Binding

/- The parameters of a signature, one after the other. Binding finds a cell for each in their order,
   each among the arguments that those before it have left; it answers these cells if nothing is left
   over. -/
namespace CallByNeed

namespace Script
variable {α β : Type}

/-- The script ends with the answer if cells, store and host answer it in some way or other. -/
inductive CanAnswer : Script α → α → Prop where
  | done {a : α} : CanAnswer (.done a) a
  | demand {how : Demand} {r : Ref} {next : Value → Script α} {a : α} (v : Value)
      (rest : CanAnswer (next v) a) : CanAnswer (.demand how r next) a
  | act {action : Action} {next : action.Answer → Script α} {a : α} (x : action.Answer)
      (rest : CanAnswer (next x) a) : CanAnswer (.act action next) a
  | ask {q : Request} {next : q.Answer → Script α} {a : α} (x : q.Answer)
      (rest : CanAnswer (next x) a) : CanAnswer (.ask q next) a

theorem CanAnswer.of_bind {s : Script α} {f : α → Script β} {b : β}
    (answers : (s >>= f).CanAnswer b) : ∃ a, s.CanAnswer a ∧ (f a).CanAnswer b := by
  change (s.bind f).CanAnswer b at answers
  induction s with
  | done a => exact ⟨a, .done, answers⟩
  | raise e => cases answers
  | panic p => cases answers
  | stall => cases answers
  | demand how r next ih =>
    cases answers with
    | demand v rest =>
      obtain ⟨a, first, later⟩ := ih v rest
      exact ⟨a, .demand v first, later⟩
  | act action next ih =>
    cases answers with
    | act x rest =>
      obtain ⟨a, first, later⟩ := ih x rest
      exact ⟨a, .act x first, later⟩
  | ask q next ih =>
    cases answers with
    | ask x rest =>
      obtain ⟨a, first, later⟩ := ih x rest
      exact ⟨a, .ask x first, later⟩

theorem CanAnswer.of_pure {a b : α} (answers : (pure a : Script α).CanAnswer b) : b = a := by
  cases answers
  rfl

theorem not_canAnswer_fail {c : Cause} {a : α} : ¬ (fail c : Script α).CanAnswer a := nofun

end Script

/-- The half that a parameter is of. -/
inductive Pass where
  | positional
  | keyword
  deriving DecidableEq

namespace Pass

def find : Pass → Binding → String → Script (Option Ref × Binding)
  | positional => Binding.findPositional
  | keyword => Binding.findKeyword

def missing : Pass → Cause
  | positional => .missingPositional
  | keyword => .missingKeyword

def rest : Pass → Arguments → Script (Ref × Arguments)
  | positional => Arguments.restPositionals
  | keyword => Arguments.restKeywords

end Pass

inductive Parameter where
  | required (pass : Pass) (name : String)
  | optional (pass : Pass) (name : String) (default : Default)
  | rest (pass : Pass) (name : String)

namespace Parameter

def name : Parameter → String
  | required _ name | optional _ name _ | rest _ name => name

/-- The cell of a parameter, and the binding that goes on without it. -/
def find : Parameter → Binding → Script (Ref × Binding)
  | required pass name, b => do
    match ← pass.find b name with
    | (some r, b) => pure (r, b)
    | (none, _) => fail pass.missing
  | optional pass name default, b => do
    match ← pass.find b name with
    | (some r, b) => pure (r, b)
    | (none, b) => do pure (← default.ref, b)
  | rest pass _, b => do
    let (r, left) ← pass.rest b.left
    pure (r, { b with left })

def bind (b : Binding) (p : Parameter) : Script Binding := do
  let (r, b) ← p.find b
  pure (b.push r b.left)

end Parameter

/-- The parameters of a half in binding order. -/
def Half.parameters (pass : Pass) (h : Half Default) : List Parameter :=
  h.requireds.map (.required pass) ++ h.optionals.map (fun o => .optional pass o.1 o.2) ++
    h.rest.toList.map (.rest pass)

def Signature.parameters (s : Signature Default) : List Parameter :=
  s.positional.parameters .positional ++ s.keyword.parameters .keyword

/-- The parameters find these cells, each when those before it have found theirs. -/
inductive FoundInOrder : Binding → List Parameter → List Ref → Binding → Prop where
  | nil {b : Binding} : FoundInOrder b [] [] b
  | cons {b c d : Binding} {p : Parameter} {ps : List Parameter} {r : Ref} {rs : List Ref}
      (first : (p.find b).CanAnswer (r, c)) (others : FoundInOrder (c.push r c.left) ps rs d) :
      FoundInOrder b (p :: ps) (r :: rs) d

section
variable {b c : Binding} {s : Signature Default}

theorem Half.length_parameters (pass : Pass) (h : Half Default) :
    (h.parameters pass).length = h.arity := by
  simp [parameters, arity, Nat.add_assoc]

theorem Signature.length_parameters : s.parameters.length = s.arity := by
  simp [parameters, arity, Half.length_parameters]

theorem Half.names_parameters (pass : Pass) (h : Half Default) :
    (h.parameters pass).map Parameter.name = h.names := by
  simp [parameters, names, Parameter.name, Function.comp_def]

theorem Signature.names_parameters : s.parameters.map Parameter.name = s.names := by
  simp [parameters, names, Half.names_parameters]

theorem Parameter.bind_required (pass : Pass) (name : String) (b : Binding) :
    Parameter.bind b (.required pass name) = (do
      match ← pass.find b name with
      | (some r, b) => pure (b.push r b.left)
      | (none, _) => fail pass.missing) := by
  simp only [bind, find, bind_assoc]
  congr 1
  funext x
  obtain ⟨found, c⟩ := x
  cases found <;> rfl

theorem Parameter.bind_optional (pass : Pass) (name : String) (default : Default) (b : Binding) :
    Parameter.bind b (.optional pass name default) = (do
      match ← pass.find b name with
      | (some r, b) => pure (b.push r b.left)
      | (none, b) => pure (b.push (← default.ref) b.left)) := by
  simp only [bind, find, bind_assoc]
  congr 1
  funext x
  obtain ⟨found, c⟩ := x
  cases found with
  | some r => rfl
  | none => simp only [bind_assoc, pure_bind]

theorem Half.foldlM_parameters (pass : Pass) (h : Half Default) (b : Binding) :
    (h.parameters pass).foldlM Parameter.bind b =
      b.bindNamed pass.find pass.missing h >>= fun b => b.bindRest pass.rest h := by
  simp only [parameters, List.foldlM_append, List.foldlM_map, Parameter.bind_required,
    Parameter.bind_optional, Binding.bindNamed]
  congr 1
  funext c
  unfold Binding.bindRest
  cases h.rest with
  | none => rfl
  | some name =>
    simp only [Option.toList, List.foldlM_cons, List.foldlM_nil, Parameter.bind, Parameter.find,
      bind_assoc, pure_bind]
    rfl

/-- Binding goes through the parameters. -/
theorem Signature.bind_eq (s : Signature Default) (a : Arguments) : s.bind a = (do
    let b ← s.parameters.foldlM Parameter.bind { left := a }
    b.left.checkTaken
    pure b.bound.reverse) := by
  simp only [parameters, List.foldlM_append, Half.foldlM_parameters, bind_assoc]
  rfl

/-- Whoever looks for an argument binds nothing. -/
theorem Pass.bound_of_find {pass : Pass} {name : String} {found : Option Ref}
    (finds : (pass.find b name).CanAnswer (found, c)) : c.bound = b.bound := by
  have by_name (left : Arguments) (named : Bool) (answers : (do
      let taken ← left.takeKeyword name
      pure (taken.1, { b with left := taken.2, named }) :
        Script (Option Ref × Binding)).CanAnswer (found, c)) :
      c.bound = b.bound := by
    obtain ⟨_, _, ended⟩ := answers.of_bind
    cases ended.of_pure
    rfl
  cases pass with
  | keyword => exact by_name b.left b.named finds
  | positional =>
    simp only [find, Binding.findPositional] at finds
    split at finds
    · exact by_name b.left true finds
    · obtain ⟨⟨next, left⟩, _, finds⟩ := finds.of_bind
      cases next with
      | some r =>
        cases finds.of_pure
        rfl
      | none => exact by_name left true finds

theorem Parameter.bound_of_find {p : Parameter} {r : Ref} (finds : (p.find b).CanAnswer (r, c)) :
    c.bound = b.bound := by
  cases p with
  | required pass name =>
    obtain ⟨⟨found, d⟩, first, ended⟩ := finds.of_bind
    cases found with
    | none => exact absurd ended Script.not_canAnswer_fail
    | some r =>
      cases ended.of_pure
      exact Pass.bound_of_find first
  | optional pass name default =>
    obtain ⟨⟨found, d⟩, first, ended⟩ := finds.of_bind
    cases found with
    | none =>
      obtain ⟨_, _, ended⟩ := ended.of_bind
      cases ended.of_pure
      exact Pass.bound_of_find first
    | some r =>
      cases ended.of_pure
      exact Pass.bound_of_find first
  | rest pass name =>
    obtain ⟨_, _, ended⟩ := finds.of_bind
    cases ended.of_pure
    rfl

theorem foundInOrder_of_foldlM {ps : List Parameter}
    (answers : (ps.foldlM Parameter.bind b).CanAnswer c) :
    ∃ rs, FoundInOrder b ps rs c ∧ c.bound = rs.reverse ++ b.bound := by
  induction ps generalizing b with
  | nil =>
    cases answers.of_pure
    exact ⟨[], .nil, rfl⟩
  | cons p ps ih =>
    rw [List.foldlM_cons] at answers
    obtain ⟨_, bound, others⟩ := answers.of_bind
    obtain ⟨⟨r, d⟩, first, pushed⟩ := bound.of_bind
    cases pushed.of_pure
    obtain ⟨rs, found, all⟩ := ih others
    refine ⟨r :: rs, .cons first found, ?_⟩
    rw [all, Binding.push, Parameter.bound_of_find first, List.reverse_cons, List.append_assoc]
    rfl

theorem FoundInOrder.length {ps : List Parameter} {rs : List Ref} (found : FoundInOrder b ps rs c) :
    rs.length = ps.length := by
  induction found with
  | nil => rfl
  | cons _ _ ih => exact congrArg (· + 1) ih

/-- Whatever a binding answers are cells of its parameters in their order. -/
theorem Signature.foundInOrder_of_bind {a : Arguments} {rs : List Ref}
    (answers : (s.bind a).CanAnswer rs) : ∃ b, FoundInOrder { left := a } s.parameters rs b := by
  rw [bind_eq] at answers
  obtain ⟨b, bound, answers⟩ := answers.of_bind
  obtain ⟨_, _, ended⟩ := answers.of_bind
  obtain ⟨cells, found, all⟩ := foundInOrder_of_foldlM bound
  cases ended.of_pure
  refine ⟨b, ?_⟩
  simpa [all] using found

theorem Signature.length_of_bind {a : Arguments} {rs : List Ref}
    (answers : (s.bind a).CanAnswer rs) : rs.length = s.arity := by
  obtain ⟨b, found⟩ := s.foundInOrder_of_bind answers
  rw [found.length, length_parameters]

end
end CallByNeed
