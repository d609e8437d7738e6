import CallByNeed.Proofs.Accounts.Making
import CallByNeed.Proofs.Strictness

/- Switches and the faults they meet. A switch passes on the fault of the value it is matched on, and
   every fault that comes up in that value on the way to its key, except one of a comparison: such a
   fault, wherever it comes from, is taken for a value without an order, and the default is next. -/
namespace CallByNeed
namespace Script
variable {α : Type}

theorem Goes.of_raise {g h : Heap} {m : Script α} {log : List (Ref × Value)} {e : Fault}
    (path : (raise e : Script α).Goes g h log m) : m = .raise e := by
  induction path with
  | start => rfl
  | demand _ _ ih | alloc _ _ ih | act _ _ ih | ask _ ih => cases ih

section
variable {g h : Heap} {log : List (Ref × Value)} {r : Ref}

theorem of_follows_force_ok {v : Value} (path : (force r).Follows g h log (.ok v)) :
    log = [(r, v)] ∧ h.Yields r v ∧ (∀ action, v ≠ .effect action) ∧ ∀ e, v ≠ .error e := by
  obtain ⟨u, replies, rfl, same⟩ := of_follows_force path
  obtain ⟨w, yields, reply⟩ := Heap.replies_pure_iff.1 replies
  cases w <;> cases reply <;> cases same <;> exact ⟨rfl, yields, nofun, nofun⟩

theorem of_follows_force_error {e : Fault} (path : (force r).Follows g h log (.error e)) :
    log = [(r, .error e)] := by
  obtain ⟨u, _, rfl, same⟩ := of_follows_force path
  cases u <;> cases same
  rfl

end
end Script

/-! ### Values without a key -/

/-- The value is found in another one: it is that value, or in an element of the list or in a value of
    the dictionary that this one is, as far as these have been forced. -/
inductive Heap.Contains (h : Heap) : Value → Value → Prop
  | self (v : Value) : Contains h v v
  | head {head tail : Ref} {v u : Value} (yields : h.Yields head v) (inside : Contains h v u) :
      Contains h (.list (.cons head tail)) u
  | tail {head tail : Ref} {l : LazyList} {u : Value} (yields : h.Yields tail (.list l))
      (inside : Contains h (.list l) u) : Contains h (.list (.cons head tail)) u
  | entry {d : Dict Ref} {k : Key} {r : Ref} {v u : Value} (member : (k, r) ∈ d.entries)
      (yields : h.Yields r v) (inside : Contains h v u) : Contains h (.dict d) u

/-- Why no key has been made of a value: a fault has come up in it, a tail in it is no list, or a
    function is in it. -/
inductive Value.Keyless (h : Heap) (v : Value) (log : List (Ref × Value)) (e : Fault) : Prop
  | met (met : e.Met log)
  | misfit {type : ValueType} (cause : e.cause = .notList type)
  | function {u : Value} (contains : h.Contains v u) (type : u.type = .function)

section
variable {g h : Heap} {log log' : List (Ref × Value)} {v u : Value} {e : Fault} {bound : Nat}

theorem Value.Keyless.lift (keyless : v.Keyless h log e)
    (inside : ∀ x, h.Contains v x → h.Contains u x) (more : e.Met log → e.Met log') :
    u.Keyless h log' e := by
  cases keyless with
  | met found => exact .met (more found)
  | misfit cause => exact .misfit cause
  | function contains type => exact .function (inside _ contains) type

/-- What a key is made of by `make`, when that fails. -/
def Value.FailsBy (g h : Heap) (make : Value → Script Key) : Prop :=
  ∀ v log e, (∀ action, v ≠ .effect action) → (∀ e, v ≠ .error e) →
    (make v).Follows g h log (.error e) → v.Keyless h log e

theorem Key.keyless_of_ofEntries {make : Value → Script Key} (fails : Value.FailsBy g h make)
    {d : Dict Ref} {es : List (Key × Ref)} (entries : ∀ x ∈ es, x ∈ d.entries)
    (path : (ofEntries make es).Follows g h log (.error e)) :
    (Value.dict d).Keyless h log e := by
  induction es generalizing log with
  | nil => cases (Script.of_follows_pure path).2
  | cons entry es ih =>
    obtain ⟨k, r⟩ := entry
    rcases Script.of_follows_bind path with ⟨v, log₁, log₂, rfl, forced, valued⟩ | ⟨e', forced, same⟩
    · obtain ⟨rfl, yields, plain, sound⟩ := Script.of_follows_force_ok forced
      rcases Script.of_follows_bind valued with ⟨x, log₃, log₄, rfl, _, later⟩ | ⟨e', made, same⟩
      · rcases Script.of_follows_bind later with ⟨xs, log₅, log₆, rfl, _, last⟩ | ⟨e', rest, same⟩
        · cases (Script.of_follows_pure last).2
        · cases same
          refine (ih (fun x member => entries x (.tail _ member)) rest).lift (fun _ => id) ?_
          simp only [Fault.met_append]
          tauto
      · cases same
        refine (fails _ _ _ plain sound made).lift (fun _ => .entry (entries _ (.head _)) yields) ?_
        simp only [Fault.met_append]
        tauto
    · cases same
      rw [Script.of_follows_force_error forced]
      exact .met (Fault.met_singleton.2 rfl)

theorem Key.keyless_of_walk {make : Value → Script Key} (fails : Value.FailsBy g h make)
    {loops : Nat} {l : LazyList} {keys : List Key}
    (path : (l.walk (fun keys r => do
      let key ← make (← force r)
      pure (.yield (key :: keys))) loops keys).Follows g h log (.error e)) :
    (Value.list l).Keyless h log e := by
  induction loops generalizing l keys log with
  | zero => cases path
  | succ loops ih =>
    cases l with
    | nil => cases (Script.of_follows_pure path).2
    | cons head tail =>
      rcases Script.of_follows_bind path with ⟨step, log₁, log₂, rfl, visit, path⟩ | ⟨e', visit, same⟩
      · obtain ⟨v, _, _, _, _, visit⟩ := Script.of_follows_bind_ok visit
        obtain ⟨key, _, _, _, _, visit⟩ := Script.of_follows_bind_ok visit
        cases (Script.of_follows_pure visit).2
        rcases Script.of_follows_bind path with ⟨l, log₃, log₄, rfl, next, rest⟩ | ⟨e', next, same⟩
        · obtain ⟨u, replies, rfl, same⟩ := Script.of_follows_forceList next
          have yields : h.Yields tail (.list l) := by
            obtain ⟨w, yields, reply⟩ := Heap.replies_pure_iff.1 replies
            cases u <;> cases same
            cases w <;> cases reply
            exact yields
          refine (ih rest).lift (fun _ => .tail yields) ?_
          simp only [Fault.met_append]
          tauto
        · cases same
          obtain ⟨u, _, rfl, same⟩ := Script.of_follows_forceList next
          cases u with
          | list l => cases same
          | error e' =>
            cases same
            exact .met (Fault.met_append.2 (.inr (Fault.met_singleton.2 rfl)))
          | _ =>
            cases same
            exact .misfit rfl
      · cases same
        rcases Script.of_follows_bind visit with ⟨v, log₁, log₂, rfl, forced, keyed⟩ | ⟨_, forced, same⟩
        · obtain ⟨rfl, yields, plain, sound⟩ := Script.of_follows_force_ok forced
          rcases Script.of_follows_bind keyed with ⟨_, _, _, _, _, last⟩ | ⟨_, made, same⟩
          · cases (Script.of_follows_pure last).2
          · cases same
            refine (fails _ _ _ plain sound made).lift (fun _ => .head yields) ?_
            simp only [Fault.met_append]
            tauto
        · cases same
          rw [Script.of_follows_force_error forced]
          exact .met (Fault.met_singleton.2 rfl)

theorem Key.keyless_of_ofValue (bound : Nat) : Value.FailsBy g h (ofValue bound) := by
  induction bound with
  | zero =>
    intro v log e _ _ path
    cases path
  | succ bound ih =>
    intro v log e plain sound path
    cases v with
    | bool | number | string => cases (Script.of_follows_pure path).2
    | list l =>
      rcases Script.of_follows_bind path with ⟨_, _, _, _, _, last⟩ | ⟨_, walk, same⟩
      · cases (Script.of_follows_pure last).2
      · cases same
        exact keyless_of_walk ih walk
    | dict d =>
      rcases Script.of_follows_bind path with ⟨_, _, _, _, _, last⟩ | ⟨_, entries, same⟩
      · cases (Script.of_follows_pure last).2
      · cases same
        exact keyless_of_ofEntries ih (fun _ => id) entries
    | error e' => exact absurd rfl (sound e')
    | effect action => exact absurd rfl (plain action)
    | function | native => exact .function (.self _) rfl

end

/-! ### The way of a switch -/

namespace Branch

/-- What the switch answers once it has found an expression or none. -/
inductive GoesOn (b : Branch) (g h : Heap) : Option Expr → Except Fault Outcome → Prop
  | expr {e : Expr} {child : Ref}
      (built : (e.interpret b.locals : Script Ref).Follows g h [] (.ok child)) :
      GoesOn b g h (some e) (.ok (.tail child))
  | none : GoesOn b g h none (.error { cause := .noMatch })

/-- How a switch comes to its end: the matched value is a fault, or it has a key, or it has none
    because of a comparison or of a value without an order, or for another reason. -/
inductive Decides (b : Branch) (bound : Nat) (g h : Heap) (matched : Ref) :
    List (Ref × Value) → Except Fault Outcome → Prop
  | faulty {e : Fault} (replies : h.Replies .pure matched (.error e)) :
      Decides b bound g h matched [(matched, .error e)] (.error e)
  | keyed {v : Value} {k : Key} {log : List (Ref × Value)} {o : Except Fault Outcome}
      (yields : h.Yields matched v) (made : (Key.ofValue bound v).Follows g h log (.ok k))
      (goes : b.GoesOn g h (Branch.find k b.cases <|> b.default) o) :
      Decides b bound g h matched ((matched, v) :: log) o
  | incomparable {v : Value} {e : Fault} {log : List (Ref × Value)} {o : Except Fault Outcome}
      (yields : h.Yields matched v) (made : (Key.ofValue bound v).Follows g h log (.error e))
      (incomparable : e.cause.isIncomparable = true)
      (reason : e.Met log ∨ ∃ u, h.Contains v u ∧ u.type = .function)
      (goes : b.GoesOn g h b.default o) : Decides b bound g h matched ((matched, v) :: log) o
  | broken {v : Value} {e : Fault} {log : List (Ref × Value)} (yields : h.Yields matched v)
      (made : (Key.ofValue bound v).Follows g h log (.error e))
      (other : e.cause.isIncomparable = false) :
      Decides b bound g h matched ((matched, v) :: log) (.error e)

/-- The switch has met a fault that it does not take for a lack of order: one that is not of a
    comparison, or one of any kind in place of the matched value. -/
def Meets (h : Heap) (matched : Ref) (log : List (Ref × Value)) (e : Fault) : Prop :=
  e.Met log ∧ (e.cause.isIncomparable = false ∨ h.Replies .pure matched (.error e))

variable {b : Branch} {bound : Nat} {g h : Heap} {matched : Ref} {log : List (Ref × Value)}
variable {o : Except Fault Outcome} {m : Script Outcome} {e : Fault}

/-- The switch with an expression found or not. -/
def goOn (b : Branch) : Option Expr → Script Outcome
  | some e => do pure (.tail (← e.interpret b.locals))
  | none => fail .noMatch

/-- The switch with a key or without. -/
def enter (b : Branch) : Except Fault Key → Script Outcome
  | .ok key => b.goOn (Branch.find key b.cases <|> b.default)
  | .error e => if e.cause.isIncomparable then b.goOn b.default else .raise e

theorem script_eq_enter (b : Branch) (matched : Ref) (bound : Nat) :
    (Suspension.branch b matched).script bound =
      force matched >>= fun v => (Key.ofValue bound v).attempt >>= b.enter := by
  have enters (key : Except Fault Key) :
      (b.select key >>= fun e => do pure (.tail (← e.interpret b.locals))) = b.enter key := by
    cases key with
    | ok key =>
      simp only [enter, select, LawfulMonad.pure_bind]
      cases Branch.find key b.cases <;> cases b.default <;> rfl
    | error e =>
      cases kind : e.cause.isIncomparable
      · simp only [enter, select, kind, Bool.false_eq_true, ↓reduceIte]
        rfl
      · simp only [enter, select, kind, ↓reduceIte, LawfulMonad.pure_bind]
        cases b.default <;> rfl
  unfold Suspension.script
  simp only [enters]

theorem goesOn_of_follows {found : Option Expr} (path : (b.goOn found).Follows g h log o) :
    log = [] ∧ b.GoesOn g h found o := by
  cases found with
  | none =>
    obtain ⟨rfl, rfl⟩ := Script.of_follows_raise path
    exact ⟨rfl, .none⟩
  | some e =>
    have maker := e.isMaker_interpret b.locals
    rcases Script.of_follows_bind path with ⟨child, log₁, log₂, rfl, built, last⟩ | ⟨_, built, _⟩
    · obtain ⟨rfl, rfl⟩ := Script.of_follows_pure last
      obtain ⟨rfl, _⟩ := maker.follows built
      exact ⟨rfl, .expr built⟩
    · obtain ⟨_, _, no⟩ := maker.follows built
      cases no

theorem strict_goOn (found : Option Expr) : (b.goOn found).Strict := by
  cases found with
  | none => trivial
  | some e => exact (e.isMaker_interpret b.locals).strict.map _

theorem decides_of_follows
    (path : ((Suspension.branch b matched).script bound).Follows g h log o) :
    b.Decides bound g h matched log o := by
  rw [script_eq_enter] at path
  rcases Script.of_follows_bind path with ⟨v, log₁, log₂, rfl, forced, keyed⟩ | ⟨e, forced, rfl⟩
  · obtain ⟨rfl, yields, plain, sound⟩ := Script.of_follows_force_ok forced
    rcases Script.of_follows_bind keyed with ⟨x, log₁, log₃, rfl, tried, enters⟩ | ⟨e, tried, _⟩
    · obtain ⟨key, made, same⟩ := Script.of_follows_attempt tried
      obtain rfl : x = key := Except.ok.inj same
      cases x with
      | ok k =>
        obtain ⟨rfl, goes⟩ := goesOn_of_follows enters
        simpa using Decides.keyed yields made goes
      | error e =>
        cases kind : e.cause.isIncomparable with
        | true =>
          simp only [enter, kind, ↓reduceIte] at enters
          obtain ⟨rfl, goes⟩ := goesOn_of_follows enters
          have reason : e.Met log₁ ∨ ∃ u, h.Contains v u ∧ u.type = .function := by
            cases Key.keyless_of_ofValue bound v log₁ e plain sound made with
            | met met => exact .inl met
            | misfit cause => rw [cause] at kind; cases kind
            | function contains type => exact .inr ⟨_, contains, type⟩
          simpa using Decides.incomparable yields made kind reason goes
        | false =>
          simp only [enter, kind, Bool.false_eq_true, ↓reduceIte] at enters
          obtain ⟨rfl, rfl⟩ := Script.of_follows_raise enters
          simpa using Decides.broken yields made kind
    · obtain ⟨_, _, no⟩ := Script.of_follows_attempt tried
      cases no
  · cases Script.of_follows_force_error forced
    obtain ⟨u, replies, same, _⟩ := Script.of_follows_force forced
    cases same
    exact .faulty replies

/-- On the way to the key, all faults are passed on but those of comparisons. -/
theorem passesOn_comparable : ((Suspension.branch b matched).script bound).PassesOn
    fun e => e.cause.isIncomparable = false := by
  rw [script_eq_enter]
  refine (Script.strict_force matched).passesOn.bind fun v => ?_
  refine (Key.strict_ofValue bound v).attempt (fun e other => ?_) fun key => ?_
  · simp only [enter, other, Bool.false_eq_true, ↓reduceIte]
  · refine Script.Strict.passesOn ?_
    cases key with
    | ok key => exact strict_goOn _
    | error e =>
      simp only [enter]
      split
      · exact strict_goOn _
      · trivial

/-- The switch has ended with a fault that it takes as one. -/
theorem raises_of_meets (path : ((Suspension.branch b matched).script bound).Goes g h log m)
    (meets : Meets h matched log e) : m = .raise e := by
  obtain ⟨⟨q, met⟩, other | own⟩ := meets
  · exact passesOn_comparable.raises path met other
  · rw [script_eq_enter] at path
    rcases Script.Goes.of_demand path with ⟨rfl, _⟩ | ⟨v, log', rfl, replies, path⟩
    · cases met
    · cases replies.unique own
      exact path.of_raise

theorem ends_of_meets (path : ((Suspension.branch b matched).script bound).Follows g h log o)
    (meets : Meets h matched log e) : o = .error e := by
  obtain ⟨⟨q, met⟩, other | own⟩ := meets
  · exact passesOn_comparable.follows path met other
  · rw [script_eq_enter] at path
    cases path with
    | demand replies rest =>
      cases replies.unique own
      exact (Script.of_follows_raise rest).2

/-- Any other fault that comes up on the way to the key makes the switch go on with its default. -/
theorem goesOn_of_met (path : ((Suspension.branch b matched).script bound).Follows g h log o)
    (met : e.Met log) (unlike : ¬ Meets h matched log e) : b.GoesOn g h b.default o := by
  have ends : ∀ {v : Value} {log : List (Ref × Value)} {o : Except Fault Key},
      h.Yields matched v → (Key.ofValue bound v).Follows g h log o →
      e.Met ((matched, v) :: log) → ¬ Meets h matched ((matched, v) :: log) e → o = .error e := by
    intro v log o yields made met unlike
    rcases Fault.met_cons.1 met with rfl | ⟨q, later⟩
    · exact absurd ⟨met, .inr (yields.replies nofun)⟩ unlike
    · exact (Key.strict_ofValue bound v).follows made later
  cases decides_of_follows path with
  | faulty replies =>
    cases Fault.met_singleton.1 met
    exact absurd ⟨met, .inr replies⟩ unlike
  | keyed yields made => cases ends yields made met unlike
  | incomparable _ _ _ _ goes => exact goes
  | broken yields made other =>
    cases ends yields made met unlike
    exact absurd ⟨met, .inl other⟩ unlike

end Branch

/-- The value is the fault, with call sites it has passed since at the end of its chain. -/
def Value.Delivers (v : Value) (e : Fault) : Prop :=
  ∃ e' : Fault, v = .error e' ∧ e'.cause = e.cause ∧ e.chain <+: e'.chain

theorem Value.delivers_through? (e : Fault) (site : Option Location) :
    (Value.error (e.through? site)).Delivers e :=
  ⟨_, rfl, e.through?_carries site⟩

section
variable {b : Branch} {bound : Nat} {g h : Heap} {matched : Ref} {log : List (Ref × Value)}
variable {v : Value} {e : Fault} {site : Option Location}

theorem Work.Makes.delivers
    (makes : Work.Makes { task := .resume (.branch b matched), site } bound g h log v)
    (meets : Branch.Meets h matched log e) : v.Delivers e := by
  cases makes with
  | value path => cases Branch.ends_of_meets path meets
  | fault path =>
    cases Branch.ends_of_meets path meets
    exact Value.delivers_through? e site
  | tail path _ passes =>
    obtain ⟨met, passed⟩ := meets
    rcases Fault.met_append.1 met with earlier | last
    · cases Branch.ends_of_meets path ⟨earlier, passed⟩
    · cases Fault.met_singleton.1 last
      rcases passes with rfl | rfl
      · exact Value.delivers_through? e none
      · exact Value.delivers_through? e site

end

/-- What comes of a switch and the faults it meets: `log` holds the answers to its own demands. -/
structure Heap.Switches (bound : Nat) (g h : Heap) (r : Ref) (b : Branch) (matched : Ref)
    (site : Option Location) : Prop where
  /-- The switch does nothing more once it has met a fault that it takes as one. -/
  stops : ∀ log m e, ((Suspension.branch b matched).script bound).Goes g h log m →
    Branch.Meets h matched log e → m = .raise e
  /-- The value of the switch is such a fault. -/
  delivers : ∀ v, h.Yields r v →
    (∃ log, Work.Makes { task := .resume (.branch b matched), site } bound g h log v) ∧
    ∀ log e, Work.Makes { task := .resume (.branch b matched), site } bound g h log v →
      Branch.Meets h matched log e → v.Delivers e
  /-- Any other fault is dropped, and the default is next. -/
  drops : ∀ log o e, ((Suspension.branch b matched).script bound).Follows g h log o →
    e.Met log → ¬ Branch.Meets h matched log e → b.GoesOn g h b.default o
  /-- All ways in which a switch ends. A lack of order stands for such a fault or for a function. -/
  decides : ∀ log o, ((Suspension.branch b matched).script bound).Follows g h log o →
    b.Decides bound g h matched log o

/-- Any threads run on any store, in any order of turns. A switch passes on the fault of the value it
    is matched on, of whatever kind, and each fault of an element, a tail or a value of a dictionary
    in it that is not one of a comparison. One of a comparison is dropped like a function in the
    value; the default is chosen for want of an order in these two cases only. -/
theorem switches_pass_on_faults (E : Engine) (scripts : List (Script Unit)) (s : Store)
    {w w' : World} {fs : List Forcer} {x : Recorded}
    (runs : Crew.Runs (Forcer.turn E) (scripts.map Forcer.start, { store := s }, w) (fs, x, w')) :
    ∃ g, s.heap.Extends g ∧ g.Recounts E.bound x.store.heap ∧
      ∀ r b matched site, g.state? r = some (.pending { task := .resume (.branch b matched), site }) →
        g.Switches E.bound x.store.heap r b matched site := by
  obtain ⟨g, extends', kept⟩ := Forcer.recounts_of_runs E scripts s runs
  refine ⟨g, extends', kept, fun r b matched site waits => ⟨?_, ?_, ?_, ?_⟩⟩
  · exact fun log m e path meets => Branch.raises_of_meets path meets
  · exact fun v yields => ⟨kept.made r _ v waits yields, fun log e makes meets => makes.delivers meets⟩
  · exact fun log o e path met unlike => Branch.goesOn_of_met path met unlike
  · exact fun log o path => Branch.decides_of_follows path

/-- A switch that has nothing but a default. -/
def plainSwitch : Branch := { cases := [], default := some (.literal (.string "default")), locals := [] }

/-- Cell 0 switches on the list in cell 1, whose only element is a call of the builtin on a bool and a
    string. -/
def listSwitchStore (b : Builtin) : Store :=
  { heap := ⟨#[.ofSuspension (.branch plainSwitch ⟨1⟩), .ofValue (.list (.cons ⟨2⟩ ⟨3⟩)),
      .ofCall ⟨4⟩ { positionals := [⟨5⟩, ⟨6⟩] }, .ofValue (.list .nil),
      .ofValue (.function b.function), .ofValue (.bool true), .ofValue (.string "a")]⟩ }

/-- The call raises a fault on the way to the key, and this is the value of the switch. -/
theorem switches_pass_on_faults_of_element :
    let e : Fault := ⟨.notNumber .bool, []⟩
    let log : List (Ref × Value) := [(⟨1⟩, .list (.cons ⟨2⟩ ⟨3⟩)), (⟨2⟩, .error e)]
    ∃ fs x, Crew.Runs (Forcer.turn { bound := 3 }) ([observer ⟨0⟩].map Forcer.start,
        { store := listSwitchStore .remainder }, {}) (fs, x, {}) ∧
      x.store.heap.Yields ⟨0⟩ (.error e) ∧
      ∃ g, Work.Makes { task := .resume (.branch plainSwitch ⟨1⟩) } 3 g x.store.heap log (.error e) ∧
        Branch.Meets x.store.heap ⟨1⟩ log e ∧ (Value.error e).Delivers e := by
  intro e log
  have runs : ∃ fs x, Crew.Runs (Forcer.turn { bound := 3 }) ([observer ⟨0⟩].map Forcer.start,
      { store := listSwitchStore .remainder }, {}) (fs, x, {}) ∧
      x.store.heap.Yields ⟨0⟩ (.error e) ∧ x.store.heap.Yields ⟨1⟩ (.list (.cons ⟨2⟩ ⟨3⟩)) ∧
      x.store.heap.Yields ⟨2⟩ (.error e) :=
    ⟨_, _, Crew.runs_of_follow _ (List.replicate 18 0) _ rfl, ⟨⟨0⟩, .refl, rfl⟩, ⟨⟨1⟩, .refl, rfl⟩,
      ⟨⟨2⟩, .refl, rfl⟩⟩
  obtain ⟨fs, x, runs, yields, matched, element⟩ := runs
  obtain ⟨g, extends', _, switches⟩ := switches_pass_on_faults _ _ _ runs
  have switch := switches ⟨0⟩ plainSwitch ⟨1⟩ none (extends' ⟨0⟩ _ rfl)
  have makes : Work.Makes { task := .resume (.branch plainSwitch ⟨1⟩) } 3 g x.store.heap log
      (.error e) :=
    .fault (.demand (matched.replies nofun) (.demand (element.replies nofun) .raise))
  have meets : Branch.Meets x.store.heap ⟨1⟩ log e := ⟨⟨⟨2⟩, .tail _ (.head _)⟩, .inl rfl⟩
  exact ⟨fs, x, runs, yields, g, makes, meets, (switch.delivers _ yields).2 log e makes meets⟩

/-- The element of the list is a fault on its own, no function is in the list, and yet the switch has
    its default for a value. -/
theorem switch_drops_comparison_of_element :
    let s := listSwitchStore .compare
    ∃ after last : Store,
      s.Forces ⟨2⟩ (.error ⟨.mixedComparison .bool .string, []⟩) after ∧
      s.Forces ⟨0⟩ (.string "default") last ∧
      last.heap.Yields ⟨2⟩ (.error ⟨.mixedComparison .bool .string, []⟩) ∧
      ∀ u, last.heap.Contains (.list (.cons ⟨2⟩ ⟨3⟩)) u → u.type ≠ .function := by
  intro s
  have element : ∃ after, s.Forces ⟨2⟩ (.error ⟨.mixedComparison .bool .string, []⟩) after :=
    ⟨_, 3, 20, rfl⟩
  have switch : ∃ last : Store, s.Forces ⟨0⟩ (.string "default") last ∧
      last.heap.Yields ⟨2⟩ (.error ⟨.mixedComparison .bool .string, []⟩) ∧
      last.heap.Yields ⟨3⟩ (.list .nil) :=
    ⟨_, ⟨3, 30, rfl⟩, ⟨⟨2⟩, .refl, rfl⟩, ⟨⟨3⟩, .refl, rfl⟩⟩
  obtain ⟨after, element⟩ := element
  obtain ⟨last, switch, faulty, ended⟩ := switch
  refine ⟨after, last, element, switch, faulty, fun u contains => ?_⟩
  cases contains with
  | self => nofun
  | head yields inside =>
    cases Heap.yields_unique yields faulty
    cases inside
    nofun
  | tail yields inside =>
    cases Heap.yields_unique yields ended
    cases inside
    nofun

end CallByNeed
