import CallByNeed.Proofs.Binding.Joining

/- What binding makes of a signature and of arguments whose spread list ends and whose dictionaries
   are dictionaries: for each parameter, in their order, a cell of what the declaration says, or the
   fault that it says. -/
namespace CallByNeed

/-- What the cell of a parameter is when it has just been bound. -/
def Bound.Shows {ι : Type} (C : Course ι) (E : Engine) (s : Store) : Bound ι → Ref → Prop
  | .argument i, r => C.means s r i
  | .default (.literal l), r => s.heap.state? r = some (.forced l.value)
  | .default (.cell q), r => r = q
  | .elements is, r => C.Promises E (C.Elements (C.Promises E) is) s r
  | .entries d, r => C.Promises E (C.Entries d) s r

/-- At some time from one store to another the parameter was bound to the cell. -/
def Bound.Made {ι : Type} (C : Course ι) (E : Engine) (s t : Store) (bound : Bound ι) (r : Ref) :
    Prop :=
  ∃ u, C.later s u ∧ C.later u t ∧ bound.Shows C E u r

/-- What is left to a binding. Whoever goes by name has no positionals left, and there are loops for
    all dictionaries. -/
structure Binding.Supplies {ι : Type} (C : Course ι) (E : Engine) (s : Store) (b : Binding)
    (x : Supply ι) : Prop where
  left : b.left.Supplies C E s x
  exhausted : b.named = true → x.positionals = []
  loops : max 1 x.dicts.length < E.bound

/-- What a parameter finds, and a binding that goes on with the same bound cells. -/
structure Binding.Takes {ι α β : Type} (C : Course ι) (E : Engine) (bound : List Ref)
    (like : Store → α → β → Prop) (t : Store) (expected : α × Supply ι) (taken : β × Binding) :
    Prop where
  found : like t expected.1 taken.1
  left : taken.2.Supplies C E t expected.2
  bound : taken.2.bound = bound

section
variable {ι : Type} {C : Course ι} {E : Engine} {s t : Store} {b : Binding} {x : Supply ι}

theorem Bound.Made.since {u : Store} {bound : Bound ι} {r : Ref} (made : bound.Made C E t u r)
    (before : C.later s t) : bound.Made C E s u r := by
  obtain ⟨v, first, rest, shows⟩ := made
  exact ⟨v, C.trans before first, rest, shows⟩

theorem Bound.Made.until {u : Store} {bound : Bound ι} {r : Ref} (made : bound.Made C E s t r)
    (after : C.later t u) : bound.Made C E s u r := by
  obtain ⟨v, first, rest, shows⟩ := made
  exact ⟨v, first, C.trans rest after, shows⟩

theorem Binding.Supplies.later (supplies : b.Supplies C E s x) (after : C.later s t) :
    b.Supplies C E t x :=
  ⟨supplies.left.later after, supplies.exhausted, supplies.loops⟩

namespace Binding

theorem reaches_byName (supplies : b.Supplies C E s x) (name : String) {named : Bool}
    (exhausted : named = true → x.positionals = []) :
    C.Reaches E (do
      let taken ← b.left.takeKeyword name
      pure (taken.1, { b with left := taken.2, named })) s fun o t => ∃ taken, o = .ok taken ∧
        Takes C E b.bound (fun t i r => Option.Rel (C.means t) r i) t (x.takeKeyword name) taken := by
  refine (Arguments.reaches_takeKeyword supplies.left name).then fun taken t _ takes => ?_
  obtain ⟨found, left⟩ := taken
  refine Course.reaches_pure ⟨_, rfl, takes.found, ⟨takes.left, fun holds => ?_, ?_⟩, rfl⟩
  · rw [Supply.positionals_takeKeyword]
    exact exhausted holds
  · rw [Supply.length_dicts_takeKeyword]
    exact supplies.loops

theorem reaches_find (supplies : b.Supplies C E s x) (pass : Pass) (name : String) :
    C.Reaches E (pass.find b name) s fun o t => ∃ taken, o = .ok taken ∧
      Takes C E b.bound (fun t i r => Option.Rel (C.means t) r i) t (x.find pass name) taken := by
  cases pass with
  | keyword => exact reaches_byName supplies name supplies.exhausted
  | positional =>
    simp only [Pass.find, findPositional]
    cases named : b.named with
    | true =>
      have exhausted := supplies.exhausted named
      simp only [if_true, Supply.find, Supply.next_of_exhausted exhausted]
      exact reaches_byName supplies name fun _ => exhausted
    | false =>
      simp only [Bool.false_eq_true, if_false, Supply.find]
      refine (Arguments.reaches_nextPositional supplies.left).then fun taken t after takes => ?_
      obtain ⟨found, left⟩ := taken
      obtain ⟨found, supplied⟩ := takes
      have dicts := x.dicts_next
      rcases next : x.next with ⟨_ | i, y⟩ <;> rw [next] at found supplied dicts <;> cases found
      case none =>
        obtain ⟨exhausted, rfl⟩ := Supply.positionals_of_next_none next
        have goesOn : ({ b with left } : Binding).Supplies C E t y :=
          ⟨supplied, fun _ => exhausted, supplies.loops⟩
        exact reaches_byName goesOn name fun _ => exhausted
      case some known =>
        have loops : max 1 y.dicts.length < E.bound := dicts ▸ supplies.loops
        have exhausted : false = true → y.positionals = [] := by simp
        exact Course.reaches_pure ⟨_, rfl, .some known, ⟨supplied, exhausted, loops⟩, rfl⟩

end Binding

theorem Default.reaches_ref (d : Default) : C.Reaches E d.ref s fun o t =>
    ∃ r, o = .ok r ∧ (Bound.default d : Bound ι).Shows C E t r := by
  cases d with
  | literal l => exact Course.reaches_allocValue l.value
  | cell q => exact Course.reaches_pure ⟨q, rfl, rfl⟩

namespace Parameter

theorem reaches_find (supplies : b.Supplies C E s x) (p : Parameter) :
    C.Reaches E (p.find b) s fun o t =>
      Script.Answers (Binding.Takes C E b.bound (Bound.Shows C E) t) (p.take x) o := by
  cases p with
  | required pass name =>
    refine (Binding.reaches_find supplies pass name).then ?_
    rintro ⟨found, c⟩ t _ ⟨like, left, bound⟩
    simp only [take]
    generalize x.find pass name = expected at like left
    obtain ⟨found', y⟩ := expected
    cases like with
    | none => exact Course.reaches_fail .fault
    | some means => exact Course.reaches_pure (.answer ⟨means, left, bound⟩)
  | optional pass name default =>
    refine (Binding.reaches_find supplies pass name).then ?_
    rintro ⟨found, c⟩ t _ ⟨like, left, bound⟩
    simp only [take]
    generalize x.find pass name = expected at like left
    obtain ⟨found', y⟩ := expected
    cases like with
    | none =>
      refine default.reaches_ref.then fun r u after shows => ?_
      exact Course.reaches_pure (.answer ⟨shows, left.later after, bound⟩)
    | some means => exact Course.reaches_pure (.answer ⟨means, left, bound⟩)
  | rest pass name =>
    have loops := supplies.loops
    cases pass with
    | positional =>
      refine (Arguments.reaches_restPositionals (by omega) supplies.left).then ?_
      rintro ⟨r, left⟩ t _ ⟨shows, supplied⟩
      exact Course.reaches_pure (.answer ⟨shows, ⟨supplied, fun _ => rfl, supplies.loops⟩, rfl⟩)
    | keyword =>
      refine (Arguments.reaches_restKeywords (by omega) supplies.left).then ?_
      rintro ⟨r, left⟩ t _ ⟨shows, supplied⟩
      have loops : max 1 0 < E.bound := by omega
      exact Course.reaches_pure (.answer ⟨shows, ⟨supplied, supplies.exhausted, loops⟩, rfl⟩)

/-- The parameters get cells one after the other, the last one first. -/
theorem reaches_foldlM (supplies : b.Supplies C E s x) (ps : List Parameter) :
    C.Reaches E (ps.foldlM Parameter.bind b) s fun o t => Script.Answers
      (fun expected c => ∃ cells, List.Forall₂ (Bound.Made C E s t) expected.1 cells ∧
        c.Supplies C E t expected.2 ∧ c.bound = cells.reverse ++ b.bound)
      (Supply.takeAll ps x) o := by
  induction ps generalizing s b x with
  | nil => exact Course.reaches_pure (.answer ⟨[], .nil, supplies, rfl⟩)
  | cons p ps ih =>
    simp only [List.foldlM_cons, Supply.takeAll, bind, bind_assoc, pure_bind]
    refine (reaches_find supplies p).goOn ?_
    rintro ⟨bound, y⟩ ⟨r, c⟩ t after ⟨shows, left, same⟩
    have pushed : (c.push r c.left).Supplies C E t y := ⟨left.left, left.exhausted, left.loops⟩
    refine (ih pushed).imp fun o u after' answers => ?_
    generalize Supply.takeAll ps y = expected at answers
    cases answers with
    | fault => exact .fault
    | answer others =>
      obtain ⟨cells, made, left, all⟩ := others
      refine .answer ⟨r :: cells, .cons ⟨t, after, after', shows⟩ ?_, left, ?_⟩
      · exact made.imp fun _ _ made => made.since after
      · change c.bound = b.bound at same
        simp [all, Binding.push, same]

end Parameter

/-- Binding follows the declaration: where that says a fault, it fails with this fault, and otherwise
    it answers one cell for each parameter, made of what the declaration says. -/
theorem binding_follows_declaration {a : Arguments} (sig : Signature Default)
    (supplies : a.Supplies C E s x) (loops : max 1 x.dicts.length < E.bound) :
    C.Reaches E (sig.bind a) s fun o t =>
      Script.Answers (List.Forall₂ (Bound.Made C E s t)) (x.bind sig) o := by
  rw [Signature.bind_eq, Supply.bind_eq]
  have starts : ({ left := a } : Binding).Supplies C E s x := ⟨supplies, nofun, loops⟩
  refine (Parameter.reaches_foldlM starts sig.parameters).goOn ?_
  rintro ⟨bounds, y⟩ c t after ⟨cells, made, left, bound⟩
  refine (Arguments.reaches_checkTaken left.left).goOn ?_
  rintro _ _ u after' -
  refine Course.reaches_pure (.answer ?_)
  rw [bound, List.append_nil, List.reverse_reverse]
  exact made.imp fun _ _ made => made.until after'

end

/-- Stores in which forced cells stay forced, and in which a cell has this work until it is forced to
    this value. A cell means itself. -/
def Course.awaiting (q : Ref) (w : Work) (v : Value) : Course Ref where
  later s t :=
    (∀ r u, s.heap.state? r = some (.forced u) → t.heap.state? r = some (.forced u)) ∧
      (s.heap.state? q = some (.pending w) →
        t.heap.state? q = some (.pending w) ∨ t.heap.state? q = some (.forced v))
  means _ r i := r = i
  refl _ := ⟨fun _ _ => id, .inl⟩
  trans first rest :=
    ⟨fun r u known => rest.1 r u (first.1 r u known),
      fun known => (first.2 known).elim rest.2 fun forced => .inr (rest.1 _ _ forced)⟩
  allocs _ c :=
    ⟨fun _ _ known => Heap.state?_alloc_of_some known c,
      fun known => .inl (Heap.state?_alloc_of_some known c)⟩
  stays _ := id
  forced after := after.1 _ _

/-- A cell whose work is to look at a forced list is forced to this list. -/
theorem Course.forces_traced {label : String} {q target : Ref} {l : LazyList} {E : Engine}
    {s : Store} {post : Store → Value → Prop} (apart : target ≠ q)
    (pending : s.heap.state? q = some (.pending { task := .resume (.traced label target) }))
    (known : s.heap.state? target = some (.forced (.list l)))
    (holds : ∀ t, (awaiting q { task := .resume (.traced label target) } (.list l)).later s t →
      post t (.list l)) :
    (awaiting q { task := .resume (.traced label target) } (.list l)).Forces E post s q := by
  intro t after
  rcases after.2 pending with waiting | forced
  · -- The work is started, leads to the forced cell, and its value is published.
    let heap := t.heap.setState q .forcing
    have begun : heap.state? q = some .forcing := Heap.state?_setState_self waiting _
    have others {r : Ref} (ne : r ≠ q) : heap.state? r = t.heap.state? r :=
      Heap.state?_setState_ne ne _
    have still : heap.state? target = some (.forced (.list l)) :=
      (others apart).trans (after.1 _ _ known)
    have keeps : E.splices = true → ∀ w, heap.state? target ≠ some (.pending w) := by simp [still]
    let t' : Store :=
      { t with heap := heap.publish q (.list l), trace := t.trace.push label }
    have later : (awaiting q { task := .resume (.traced label target) } (.list l)).later t t' := by
      refine ⟨fun r u forced => ?_, fun _ => .inr (Heap.state?_setState_self begun _)⟩
      have ne : r ≠ q := by
        rintro rfl
        simp [waiting] at forced
      exact (Heap.state?_setState_ne ne _).trans ((others ne).trans forced)
    have looks : E.Returns (.run q none (.done (.tail target)))
        { t with heap, trace := t.trace.push label } (.list l) t' :=
      .tail (v := .list l) keeps (.found still)
    have returns : E.Returns (.enter q) t (.list l) t' := .start waiting (.act looks)
    exact ⟨.list l, t', returns, later, holds _ (trans _ after later)⟩
  · exact ⟨.list l, t, .found forced, refl _ t, holds t after⟩

/-- A list of the first cell in the third, which the fifth is traced to, and a dictionary of the first
    and the second. -/
def mixedStore : Store :=
  { heap := ⟨#[.ofValue (.bool true), .ofValue (.list .nil), .ofValue (.list (.cons ⟨0⟩ ⟨1⟩)),
      .ofValue (.dict ⟨[(.string "k", ⟨0⟩), (.string "x", ⟨1⟩)]⟩),
      .ofSuspension (.traced "list" ⟨2⟩)]⟩ }

def mixedCourse : Course Ref :=
  .awaiting ⟨4⟩ { task := .resume (.traced "list" ⟨2⟩) } (.list (.cons ⟨0⟩ ⟨1⟩))

def mixedArguments : Arguments :=
  { positionals := [⟨1⟩], spread := some ⟨4⟩, keywords := [("x", ⟨2⟩)], dicts := [⟨3⟩] }

def mixedSupply : Supply Ref where
  explicit := [⟨1⟩]
  spread := [⟨0⟩]
  keywords := [("x", ⟨2⟩)]
  dicts := [⟨[(.string "k", ⟨0⟩), (.string "x", ⟨1⟩)]⟩]

def mixedSignature : Signature Default where
  positional := { requireds := ["a"], rest := some "others" }
  keyword := { requireds := ["k"], optionals := [("o", .literal (.bool true))], rest := some "more" }

theorem mixed_supplies : mixedArguments.Supplies mixedCourse { bound := 2 } mixedStore mixedSupply where
  explicit := .cons rfl .nil
  spread := by
    refine .list (Course.forces_traced (by decide) rfl rfl fun t after => ⟨⟨0⟩, ⟨1⟩, rfl, rfl, ?_⟩)
    exact Course.forces_of_forced (after.1 ⟨1⟩ _ rfl) fun _ _ => rfl
  keywords := .cons ⟨rfl, rfl⟩ .nil
  dicts := by
    refine .cons (Course.forces_of_forced rfl fun t _ => ⟨_, rfl, ?_⟩) .nil
    exact .cons ⟨rfl, rfl⟩ (.cons ⟨rfl, rfl⟩ .nil)

/-- A positional, a list of what follows it, a keyword out of the dictionary, a default, and what the
    dictionary has left. -/
theorem binding_follows_declaration_of_mixed :
    mixedArguments.Supplies mixedCourse { bound := 2 } mixedStore mixedSupply ∧
      max 1 mixedSupply.dicts.length < 2 ∧
      mixedSupply.bind mixedSignature = .ok [.argument ⟨1⟩, .elements [⟨0⟩], .argument ⟨0⟩,
        .default (.literal (.bool true)), .entries ⟨[(.string "x", ⟨1⟩)]⟩] ∧
      mixedCourse.Reaches { bound := 2 } (mixedSignature.bind mixedArguments) mixedStore
        fun o t => Script.Answers
          (List.Forall₂ (Bound.Made mixedCourse { bound := 2 } mixedStore t))
          (mixedSupply.bind mixedSignature) o :=
  ⟨mixed_supplies, by decide, rfl,
    binding_follows_declaration mixedSignature mixed_supplies (by decide)⟩

/-- The keyword `x` explicitly, and once more in a dictionary. -/
def doubledStore : Store :=
  { heap := ⟨#[.ofValue (.bool true), .ofValue (.bool true), .ofValue (.bool false),
      .ofValue (.dict ⟨[(.string "x", ⟨2⟩)]⟩)]⟩ }

/-- The dictionary that a keyword rest is bound to. -/
def forceRest (a : Arguments) : Script (Dict Ref) := do
  match ← Signature.bind { keyword := { rest := some "more" } } a with
  | [r] => forceDict r
  | _ => .stall

/-- A dictionary does not override the explicit keywords if these are more. -/
theorem rest_keeps_explicit_keyword :
    ∃ d s, (forceRest { keywords := [("x", ⟨0⟩), ("y", ⟨1⟩)], dicts := [⟨3⟩] }).run { bound := 2 } 60
        doubledStore = some (.answer d, s) ∧
      d.get? (.string "x") = some ⟨0⟩ ∧
      ((Dict.ofList [(.string "x", ⟨0⟩), (.string "y", ⟨1⟩)] : Dict Ref).override
        ⟨[(.string "x", ⟨2⟩)]⟩).get? (.string "x") = some ⟨2⟩ :=
  ⟨_, _, rfl, rfl, rfl⟩

end CallByNeed
