import CallByNeed.Proofs.Binding.Parameters

/- What a signature makes of arguments that are all known. Positionals go to the first positional
   parameters; whatever parameter is left goes by its name, and takes what it finds there. One may
   also go through the parameters one by one, as binding does; both come to the same. -/
namespace CallByNeed

/-- The arguments of a call, elements and entries included; `ι` is what arguments are. -/
structure Supply (ι : Type) where
  explicit : List ι
  /-- The elements of the spread list. -/
  spread : List ι
  keywords : List (String × ι)
  dicts : List (Dict ι)

/-- A parameter that is not a rest; a required one has no default. -/
structure Slot where
  name : String
  default : Option Default

/-- What a parameter is bound to. -/
inductive Bound (ι : Type) where
  | argument (i : ι)
  | default (d : Default)
  | elements (is : List ι)
  | entries (d : Dict ι)

def Half.slots (h : Half Default) : List Slot :=
  h.requireds.map (fun name => ⟨name, none⟩) ++ h.optionals.map fun o => ⟨o.1, some o.2⟩

def Slot.parameter (pass : Pass) (slot : Slot) : Parameter :=
  match slot.default with
  | none => .required pass slot.name
  | some d => .optional pass slot.name d

section
variable {ι : Type}

/-- What a slot is bound to when this has been found for it. -/
def Slot.settle (slot : Slot) (missing : Cause) (found : Option ι × Supply ι) :
    Except Cause (Bound ι × Supply ι) :=
  match found.1, slot.default with
  | some i, _ => .ok (.argument i, found.2)
  | none, some d => .ok (.default d, found.2)
  | none, none => .error missing

namespace Supply

def positionals (x : Supply ι) : List ι := x.explicit ++ x.spread

/-- The keywords as one dictionary, of equal names the last one, merged with the dictionaries one
    after the other. -/
def named (x : Supply ι) : Dict ι :=
  x.dicts.foldl Dict.merge (.ofList (x.keywords.map fun k => (.string k.1, k.2)))

/-- What is left when the first positionals have been taken. -/
def drop (x : Supply ι) (n : Nat) : Supply ι :=
  { x with explicit := x.explicit.drop n, spread := x.spread.drop (n - x.explicit.length) }

/-- Takes the entry of the first dictionary that has the key. -/
def takeEntry (key : Key) : List (Dict ι) → Option (ι × List (Dict ι))
  | [] => none
  | d :: rest =>
    match d.get? key with
    | some i => some (i, d.erase key :: rest)
    | none => (takeEntry key rest).map fun taken => (taken.1, d :: taken.2)

/-- The first explicit keyword of the name, or else the first entry. -/
def takeKeyword (x : Supply ι) (name : String) : Option ι × Supply ι :=
  match x.keywords.find? fun k => k.1 == name with
  | some k => (some k.2, { x with keywords := x.keywords.eraseP fun k => k.1 == name })
  | none =>
    match takeEntry (.string name) x.dicts with
    | some (i, dicts) => (some i, { x with dicts })
    | none => (none, x)

/-- Each slot takes the argument of its name. -/
def byName (missing : Cause) : List Slot → Supply ι → Except Cause (List (Bound ι) × Supply ι)
  | [], x => .ok ([], x)
  | slot :: slots, x => do
    let (bound, x) ← slot.settle missing (x.takeKeyword slot.name)
    let (bounds, x) ← byName missing slots x
    pure (bound :: bounds, x)

/-- Takes all positionals that are left if somebody wants them. -/
def takeElements (x : Supply ι) (rest : Option String) : List (Bound ι) × Supply ι :=
  match rest with
  | none => ([], x)
  | some _ => ([.elements x.positionals], { x with explicit := [], spread := [] })

/-- Takes all keywords that are left if somebody wants them. -/
def takeEntries (x : Supply ι) (rest : Option String) : List (Bound ι) × Supply ι :=
  match rest with
  | none => ([], x)
  | some _ => ([.entries x.named], { x with keywords := [], dicts := [] })

def countEntries : List (Dict ι) → Nat
  | [] => 0
  | d :: rest => d.size + countEntries rest

/-- Fails unless everything has been taken. Of spread elements only one counts. -/
def checkTaken (x : Supply ι) : Except Cause Unit :=
  let places := if x.explicit.isEmpty then min x.spread.length 1 else x.explicit.length
  let names := x.keywords.length + countEntries x.dicts
  if 0 < places then .error (.extraPositionals places)
  else if 0 < names then .error (.extraKeywords names) else .ok ()

/-- One bound for each parameter. -/
def bind (x : Supply ι) (s : Signature Default) : Except Cause (List (Bound ι)) := do
  let slots := s.positional.slots
  let given := x.positionals.take slots.length
  let (later, x) ← byName .missingPositional (slots.drop given.length) (x.drop given.length)
  let (elements, x) := x.takeElements s.positional.rest
  let (named, x) ← byName .missingKeyword s.keyword.slots x
  let (entries, x) := x.takeEntries s.keyword.rest
  x.checkTaken
  pure (given.map .argument ++ later ++ elements ++ named ++ entries)

/-- The next positional, the explicit ones first. -/
def next (x : Supply ι) : Option ι × Supply ι :=
  match x.explicit, x.spread with
  | i :: explicit, _ => (some i, { x with explicit })
  | [], i :: spread => (some i, { x with spread })
  | [], [] => (none, x)

/-- What a parameter of a half finds by itself. -/
def find : Pass → Supply ι → String → Option ι × Supply ι
  | .keyword, x, name => x.takeKeyword name
  | .positional, x, name =>
    match x.next with
    | (some i, x) => (some i, x)
    | (none, x) => x.takeKeyword name

end Supply

/-- What a parameter takes from the supply. -/
def Parameter.take : Parameter → Supply ι → Except Cause (Bound ι × Supply ι)
  | .required pass name, x => Slot.settle ⟨name, none⟩ pass.missing (x.find pass name)
  | .optional pass name d, x => Slot.settle ⟨name, some d⟩ pass.missing (x.find pass name)
  | .rest .positional _, x => .ok (.elements x.positionals, { x with explicit := [], spread := [] })
  | .rest .keyword _, x => .ok (.entries x.named, { x with keywords := [], dicts := [] })

/-- The parameters take from the supply one after the other. -/
def Supply.takeAll : List Parameter → Supply ι → Except Cause (List (Bound ι) × Supply ι)
  | [], x => .ok ([], x)
  | p :: ps, x => do
    let (bound, x) ← p.take x
    let (bounds, x) ← takeAll ps x
    pure (bound :: bounds, x)

variable {x y : Supply ι} {i : ι} {missing : Cause}

theorem ok_bind {ε α β : Type} (a : α) (f : α → Except ε β) : (Except.ok a >>= f) = f a := rfl

theorem Half.parameters_eq (pass : Pass) (h : Half Default) :
    h.parameters pass = h.slots.map (Slot.parameter pass) ++ h.rest.toList.map (.rest pass) := by
  simp [parameters, slots, Slot.parameter, Function.comp_def]

namespace Supply

theorem takeAll_append (ps qs : List Parameter) (x : Supply ι) : takeAll (ps ++ qs) x = (do
    let (bounds, x) ← takeAll ps x
    let (more, x) ← takeAll qs x
    pure (bounds ++ more, x)) := by
  induction ps generalizing x with
  | nil =>
    simp only [List.nil_append, takeAll, ok_bind]
    cases takeAll qs x <;> rfl
  | cons p ps ih =>
    simp only [List.cons_append, takeAll]
    cases p.take x with
    | error c => rfl
    | ok taken =>
      obtain ⟨bound, y⟩ := taken
      simp only [bind_assoc, pure_bind, ih]
      rfl

theorem take_parameter (pass : Pass) (slot : Slot) (x : Supply ι) :
    (slot.parameter pass).take x = slot.settle pass.missing (x.find pass slot.name) := by
  obtain ⟨name, default⟩ := slot
  cases default <;> rfl

/-- Keyword parameters go by name. -/
theorem takeAll_keywords (slots : List Slot) (x : Supply ι) :
    takeAll (slots.map (Slot.parameter .keyword)) x = byName .missingKeyword slots x := by
  induction slots generalizing x with
  | nil => rfl
  | cons slot slots ih =>
    simp only [List.map_cons, takeAll, byName, take_parameter, ih]
    rfl

theorem next_of_exhausted (exhausted : x.positionals = []) : x.next = (none, x) := by
  obtain ⟨explicit, spread, keywords, dicts⟩ := x
  obtain ⟨rfl, rfl⟩ := List.append_eq_nil_iff.1 exhausted
  rfl

theorem positionals_takeKeyword (x : Supply ι) (name : String) :
    (x.takeKeyword name).2.positionals = x.positionals := by
  unfold takeKeyword
  split
  · rfl
  · split <;> rfl

theorem dicts_next (x : Supply ι) : x.next.2.dicts = x.dicts := by
  unfold next
  split <;> rfl

theorem length_takeEntry (key : Key) {ds : List (Dict ι)} {taken : ι × List (Dict ι)}
    (takes : takeEntry key ds = some taken) : taken.2.length = ds.length := by
  induction ds generalizing taken with
  | nil => cases takes
  | cons d ds ih =>
    simp only [takeEntry] at takes
    split at takes
    · cases takes
      rfl
    · obtain ⟨other, takes', rfl⟩ := Option.map_eq_some_iff.1 takes
      exact congrArg (· + 1) (ih takes')

theorem length_dicts_takeKeyword (x : Supply ι) (name : String) :
    (x.takeKeyword name).2.dicts.length = x.dicts.length := by
  unfold takeKeyword
  split
  · rfl
  · split
    next takes => exact length_takeEntry _ takes
    next => rfl

theorem left_of_settle {slot : Slot} {found : Option ι × Supply ι} {bound : Bound ι}
    (settles : slot.settle missing found = .ok (bound, y)) : y = found.2 := by
  unfold Slot.settle at settles
  split at settles <;> cases settles <;> rfl

/-- When no positionals are left, positional parameters go by name as well. -/
theorem takeAll_of_exhausted (slots : List Slot) (exhausted : x.positionals = []) :
    takeAll (slots.map (Slot.parameter .positional)) x = byName .missingPositional slots x := by
  induction slots generalizing x with
  | nil => rfl
  | cons slot slots ih =>
    have by_name : x.find .positional slot.name = x.takeKeyword slot.name := by
      simp only [find, next_of_exhausted exhausted]
    simp only [List.map_cons, takeAll, byName, take_parameter, by_name]
    cases settles : slot.settle Pass.positional.missing (x.takeKeyword slot.name) with
    | error c =>
      rw [show Cause.missingPositional = Pass.positional.missing from rfl, settles]
      rfl
    | ok taken =>
      obtain ⟨bound, y⟩ := taken
      have still : y.positionals = [] := by
        rw [left_of_settle settles, positionals_takeKeyword, exhausted]
      rw [show Cause.missingPositional = Pass.positional.missing from rfl, settles]
      simp only [ok_bind, ih still]
      rfl

theorem positionals_of_next_some (next : x.next = (some i, y)) :
    x.positionals = i :: y.positionals ∧ ∀ n, x.drop (n + 1) = y.drop n := by
  obtain ⟨explicit, spread, keywords, dicts⟩ := x
  cases explicit with
  | cons first explicit =>
    cases next
    exact ⟨rfl, fun n => by simp [drop]⟩
  | nil =>
    cases spread with
    | nil => cases next
    | cons first spread =>
      cases next
      exact ⟨rfl, fun n => by simp [drop]⟩

theorem positionals_of_next_none (next : x.next = (none, y)) : x.positionals = [] ∧ y = x := by
  obtain ⟨explicit, spread, keywords, dicts⟩ := x
  cases explicit with
  | cons first explicit => cases next
  | nil =>
    cases spread with
    | nil =>
      cases next
      exact ⟨rfl, rfl⟩
    | cons first spread => cases next

/-- Positional parameters get the first positionals, and the others go by name. -/
theorem takeAll_positionals (slots : List Slot) (x : Supply ι) :
    takeAll (slots.map (Slot.parameter .positional)) x = (do
      let given := x.positionals.take slots.length
      let (later, x) ← byName .missingPositional (slots.drop given.length) (x.drop given.length)
      pure (given.map .argument ++ later, x)) := by
  induction slots generalizing x with
  | nil => simp [takeAll, byName, drop]
  | cons slot slots ih =>
    rcases next : x.next with ⟨_ | i, y⟩
    case none =>
      have exhausted := (positionals_of_next_none next).1
      rw [takeAll_of_exhausted (slot :: slots) exhausted]
      have whole : x.drop 0 = x := by simp [drop]
      simp only [exhausted, List.take_nil, List.length_nil, List.drop_zero, whole, List.map_nil,
        List.nil_append]
      cases byName .missingPositional (slot :: slots) x <;> rfl
    case some =>
      obtain ⟨first, later⟩ := positionals_of_next_some next
      have found : (slot.parameter .positional).take x = .ok (.argument i, y) := by
        simp only [take_parameter, find, next, Slot.settle]
      simp only [List.map_cons, takeAll, found, ok_bind, first, List.length_cons,
        List.take_succ_cons, List.drop_succ_cons, later, ih]
      cases byName .missingPositional _ _ <;> rfl

theorem takeAll_elements (rest : Option String) (x : Supply ι) :
    takeAll (rest.toList.map (.rest .positional)) x = .ok (x.takeElements rest) := by
  cases rest <;> rfl

theorem takeAll_entries (rest : Option String) (x : Supply ι) :
    takeAll (rest.toList.map (.rest .keyword)) x = .ok (x.takeEntries rest) := by
  cases rest <;> rfl

/-- The parameters take one after the other what the signature makes of the arguments. -/
theorem bind_eq (s : Signature Default) (x : Supply ι) : x.bind s = (do
    let (bounds, y) ← takeAll s.parameters x
    y.checkTaken
    pure bounds) := by
  simp only [Signature.parameters, Half.parameters_eq, takeAll_append, takeAll_positionals,
    takeAll_elements, takeAll_keywords, takeAll_entries, bind, ok_bind, bind_assoc, pure_bind]
  congr 1
  funext later
  congr 1
  funext named
  simp only [List.append_assoc]

end Supply
end
end CallByNeed
