import CallByNeed.Proofs.Accounts.Lists
import CallByNeed.Proofs.Faults.Builtins

/- Faults pass through builtins, and through lists and dictionaries that are called. Whatever cells
   the binding or the body has demanded, a fault among the answers is the value of the call, with the
   call's own site at the end of its chain at most. -/
namespace CallByNeed
open Relation (ReflTransGen)

/-! ### Lists of arguments -/

/-- What a rest parameter is bound to is a fault or a list, so forcing it cannot fail otherwise. -/
theorem Heap.Supplied.of_follows {bound : Nat} {g h : Heap} {explicit : List Ref}
    {spread : Option Ref} {r : Ref} {log : List (Ref × Value)} {o : Except Fault LazyList}
    (supplied : g.Supplied explicit spread r) (kept : g.Recounts bound h)
    (path : (forceList r).Follows g h log o) :
    (∃ e, log = [(r, .error e)] ∧ o = .error e) ∨ ∃ l, log = [(r, .list l)] ∧ o = .ok l := by
  have before := kept.origin.before
  obtain ⟨v, replies, rfl, rfl⟩ := Script.of_follows_forceList path
  obtain ⟨u, yields, reply⟩ := Heap.replies_pure_iff.1 replies
  have listed : ∃ o, u = .listed o := by
    cases supplied with
    | @known _ l known =>
      exact ⟨.ok l, Heap.yields_unique yields ⟨r, .refl, before.forced known⟩⟩
    | merged waits function known =>
      obtain ⟨log, makes⟩ := kept.made r _ u waits yields
      have replies := Heap.replies_of_forced before known nofun
      obtain ⟨_, _, o, _, _, rfl, _⟩ := makes.of_merge ⟨_, .refl, before.forced function⟩
        fun u replies' => ⟨.ok _, replies'.unique replies⟩
      cases o with
      | ok l => exact ⟨.ok l, rfl⟩
      | error e => exact ⟨.error e, rfl⟩
  obtain ⟨o, rfl⟩ := listed
  cases o with
  | error e =>
    cases reply
    exact .inl ⟨e, rfl, rfl⟩
  | ok l =>
    cases reply
    exact .inr ⟨l, rfl, rfl⟩

/-- The cell of the rest parameter comes last. -/
theorem Signature.supplied_of_follows_bind {g h : Heap} {names : List String} {name : String}
    {a : Arguments} {log : List (Ref × Value)} {cells : List Ref}
    (path : ((Signature.plain names (some name)).bind a).Follows g h log (.ok cells)) :
    ∃ rest explicit spread, cells.getLast? = some rest ∧ g.Supplied explicit spread rest := by
  obtain ⟨b, _, _, _, _, path⟩ := Script.of_follows_bind_ok path
  obtain ⟨b', _, _, _, bound, path⟩ := Script.of_follows_bind_ok path
  obtain ⟨rest, supplied, pushed⟩ := Script.of_follows_restPositionals bound
  cases (Script.of_follows_pure pushed).2
  obtain ⟨b'', _, _, _, named, path⟩ := Script.of_follows_bind_ok path
  cases (Script.of_follows_pure named).2
  obtain ⟨b'', _, _, _, named, path⟩ := Script.of_follows_bind_ok path
  cases (Script.of_follows_pure named).2
  obtain ⟨_, _, _, _, _, path⟩ := Script.of_follows_bind_ok path
  cases (Script.of_follows_pure path).2
  exact ⟨rest, _, _, by simp [Binding.push], supplied⟩

/-! ### Sequences -/

/-- The fault is among the answers. -/
def Fault.Met (log : List (Ref × Value)) (e : Fault) : Prop := ∃ q, (q, .error e) ∈ log

section
variable {log log' : List (Ref × Value)} {e : Fault} {r : Ref} {v : Value}

theorem Fault.not_met_nil : ¬ e.Met [] := nofun

theorem Fault.met_append : e.Met (log ++ log') ↔ e.Met log ∨ e.Met log' := by
  simp [Fault.Met, exists_or]

theorem Fault.met_cons : e.Met ((r, v) :: log) ↔ v = .error e ∨ e.Met log := by
  simp [Fault.Met, exists_or, eq_comm]

theorem Fault.met_singleton : e.Met [(r, v)] ↔ v = .error e := by
  simp [Fault.met_cons, Fault.not_met_nil]

end

/-- What a trail goes by. A visit keeps the faults it meets, as `Faulty` says; what is left without a
    fault has kept none. -/
structure LazyList.Minds {β : Type} (g h : Heap) (leave : β → Script Unit) (visit : Ref → Script β)
    (Faulty : β → Fault → Prop) : Prop where
  leaves : ∀ b log o, (leave b).Follows g h log o →
    (o = .ok () ∧ ∀ e, ¬ (Faulty b e ∨ e.Met log)) ∨ ∃ e, o = .error e ∧ (Faulty b e ∨ e.Met log)
  visits : ∀ r log o, (visit r).Follows g h log o → ∃ b, o = .ok b ∧ ∀ e, Faulty b e ↔ e.Met log

namespace LazyList.Minds
variable {β γ : Type} {bound : Nat} {g h : Heap} {log : List (Ref × Value)} {b : β} {r : Ref}
variable {leave : β → Script Unit} {visit : Ref → Script β} {Faulty : β → Fault → Prop}

theorem of_follows_leave {m : Script γ} {o : Except Fault γ}
    (minds : Minds g h leave visit Faulty) (path : (leave b >>= fun _ => m).Follows g h log o) :
    (∃ e, o = .error e ∧ (Faulty b e ∨ e.Met log)) ∨
      ∃ log₁ log₂, log = log₁ ++ log₂ ∧ (∀ e, ¬ (Faulty b e ∨ e.Met log₁)) ∧
        m.Follows g h log₂ o := by
  rcases Script.of_follows_bind path with ⟨_, log₁, log₂, rfl, left, path⟩ | ⟨e, left, rfl⟩
  · obtain ⟨_, clean⟩ | ⟨_, no, _⟩ := minds.leaves _ _ _ left
    · exact .inr ⟨log₁, log₂, rfl, clean, path⟩
    · cases no
  · obtain ⟨no, _⟩ | ⟨_, same, found⟩ := minds.leaves _ _ _ left
    · cases no
    · cases same
      exact .inl ⟨e, rfl, found⟩

theorem of_follows_visit {f : β → Script γ} {o : Except Fault γ}
    (minds : Minds g h leave visit Faulty) (path : (visit r >>= f).Follows g h log o) :
    ∃ b log₁ log₂, log = log₁ ++ log₂ ∧ (∀ e, Faulty b e ↔ e.Met log₁) ∧
      (f b).Follows g h log₂ o := by
  rcases Script.of_follows_bind path with ⟨b, log₁, log₂, rfl, visited, path⟩ | ⟨e, visited, rfl⟩
  · obtain ⟨_, same, keeps⟩ := minds.visits _ _ _ visited
    cases same
    exact ⟨b, log₁, log₂, rfl, keeps, path⟩
  · obtain ⟨_, no, _⟩ := minds.visits _ _ _ visited
    cases no

/-- The trail comes to a fault that it has met. If the next tail is no list, that is raised only when
    nothing has been met. -/
theorem of_follows_trail (minds : Minds g h leave visit Faulty) {l : LazyList} {loops : Nat}
    {o : Except Fault β} (path : (l.trail leave visit loops b).Follows g h log o)
    (met : ∃ e, Faulty b e ∨ e.Met log) :
    ∃ e, (Faulty b e ∨ e.Met log) ∧ (o = .error e ∨ ∃ b, o = .ok b ∧ Faulty b e) := by
  induction loops generalizing l b log with
  | zero => cases path
  | succ loops ih =>
    cases l with
    | nil =>
      obtain ⟨rfl, rfl⟩ := Script.of_follows_pure path
      obtain ⟨e, faulty | no⟩ := met
      · exact ⟨e, .inl faulty, .inr ⟨b, rfl, faulty⟩⟩
      · exact absurd no Fault.not_met_nil
    | cons head tail =>
      obtain ⟨e, same, found⟩ | ⟨log₁, _, rfl, clean, visits⟩ := minds.of_follows_leave path
      · exact ⟨e, found, .inl same⟩
      obtain ⟨b₁, log₂, _, rfl, keeps, fetches⟩ := minds.of_follows_visit visits
      obtain ⟨v, log₃, rfl, goes⟩ := Script.of_follows_attemptList fetches
      -- What has been met until now is left to what follows.
      have onward : ∀ e, (Faulty b e ∨ e.Met (log₁ ++ (log₂ ++ (tail, v) :: log₃))) ↔
          v = .error e ∨ Faulty b₁ e ∨ e.Met log₃ := by
        intro e
        have clean := clean e
        simp only [Fault.met_append, Fault.met_cons, ← keeps e]
        tauto
      simp only [onward] at met ⊢
      cases fetched : v.asList with
      | ok l =>
        have plain : ∀ e, v ≠ .error e := by
          rintro e rfl
          cases fetched
        simp only [fetched] at goes
        simp only [plain, false_or] at met ⊢
        exact ih goes met
      | error e' =>
        simp only [fetched] at goes
        obtain ⟨e, same, found⟩ | ⟨log₄, _, rfl, clean, raises⟩ := minds.of_follows_leave goes
        · exact ⟨e, .inr found, .inl same⟩
        obtain ⟨rfl, rfl⟩ := Script.of_follows_raise raises
        rw [List.append_nil] at met
        obtain ⟨e, rfl | no⟩ := met
        · cases fetched
          exact ⟨_, .inl rfl, .inl rfl⟩
        · exact absurd no (clean e)

theorem of_follows_trail_map (minds : Minds g h leave visit Faulty) {l : LazyList} {loops : Nat}
    {f : β → γ} {o : Except Fault γ}
    (path : (l.trail leave visit loops b >>= fun b => pure (f b)).Follows g h log o)
    (met : ∃ e, Faulty b e ∨ e.Met log) :
    ∃ e, (Faulty b e ∨ e.Met log) ∧ (o = .error e ∨ ∃ b, o = .ok (f b) ∧ Faulty b e) := by
  rcases Script.of_follows_bind path with ⟨b', log₁, _, rfl, trail, done⟩ | ⟨e, trail, rfl⟩
  · obtain ⟨rfl, rfl⟩ := Script.of_follows_pure done
    rw [List.append_nil] at met ⊢
    obtain ⟨e, found, no | ⟨_, same, faulty⟩⟩ := minds.of_follows_trail trail met
    · cases no
    · cases same
      exact ⟨e, found, .inr ⟨b', rfl, faulty⟩⟩
  · obtain ⟨e, found, same | ⟨_, no, _⟩⟩ := minds.of_follows_trail trail met
    · cases same
      exact ⟨e, found, .inl rfl⟩
    · cases no

end LazyList.Minds

section
variable {bound : Nat} {g h : Heap} {log : List (Ref × Value)} {first rest : Ref}
variable {o : Except Fault Outcome}

theorem LazyList.minds_force :
    LazyList.Minds g h (fun last => do let _ ← force last) pure fun _ _ => False := by
  refine ⟨fun r log o path => ?_, fun r log o path => ?_⟩
  · obtain ⟨v, log₁, log₂, rfl, forced, done⟩ | ⟨e, forced, rfl⟩ := Script.of_follows_bind path
    · obtain ⟨u, _, rfl, same⟩ := Script.of_follows_force forced
      obtain ⟨rfl, rfl⟩ := Script.of_follows_pure done
      refine .inl ⟨rfl, fun e => ?_⟩
      simp only [List.append_nil, Fault.met_singleton, false_or]
      rintro rfl
      cases same
    · obtain ⟨u, _, rfl, same⟩ := Script.of_follows_force forced
      refine .inr ⟨e, rfl, .inr (Fault.met_singleton.2 ?_)⟩
      cases u <;> cases same
      rfl
  · obtain ⟨rfl, rfl⟩ := Script.of_follows_pure path
    exact ⟨r, rfl, fun e => by simp [Fault.not_met_nil]⟩

theorem LazyList.minds_perform :
    LazyList.Minds g h (fun
      | .error e => .raise e
      | _ => pure ()) perform fun v e => v = .error e := by
  refine ⟨fun v log o path => ?_, fun r log o path => ?_⟩
  · cases v with
    | error e =>
      obtain ⟨rfl, rfl⟩ := Script.of_follows_raise path
      exact .inr ⟨e, rfl, .inl rfl⟩
    | _ =>
      obtain ⟨rfl, rfl⟩ := Script.of_follows_pure path
      exact .inl ⟨rfl, fun e => by simp [Fault.not_met_nil]⟩
  · rw [← bind_pure (perform r)] at path
    obtain ⟨v, _, rfl, _, done⟩ := Script.of_follows_perform path
    obtain ⟨rfl, rfl⟩ := Script.of_follows_pure done
    exact ⟨v, rfl, fun e => Fault.met_singleton.symm⟩

/-- An argument is forced when it is left. -/
theorem Builtin.of_follows_inSequence (path : (inSequence bound first rest).Follows g h log o)
    (met : ∃ e : Fault, e.Met log) : ∃ e : Fault, e.Met log ∧ o = .error e := by
  obtain ⟨e, found⟩ := met
  rcases Script.of_follows_bind path with ⟨l, _, log₂, rfl, fetched, trail⟩ | ⟨e', fetched, rfl⟩
  · obtain ⟨v, _, rfl, same⟩ := Script.of_follows_forceList fetched
    have later : e.Met log₂ := by
      rcases Fault.met_cons.1 found with rfl | later
      · cases same
      · exact later
    obtain ⟨e, found, ends⟩ := LazyList.minds_force.of_follows_trail_map trail ⟨e, .inr later⟩
    simp only [false_or, and_false, exists_false, or_false] at found ends
    exact ⟨e, Fault.met_cons.2 (.inr found), ends⟩
  · obtain ⟨v, _, rfl, same⟩ := Script.of_follows_forceList fetched
    cases Fault.met_singleton.1 found
    cases same
    exact ⟨e, found, rfl⟩

/-- A result is looked at when it is left. The list of arguments is no other value than a list. -/
theorem Builtin.of_follows_effectsInSequence {explicit : List Ref} {spread : Option Ref}
    (kept : g.Recounts bound h) (supplied : g.Supplied explicit spread rest)
    (path : (effectsInSequence bound first rest).Follows g h log o)
    (met : ∃ e : Fault, e.Met log) :
    ∃ e : Fault, e.Met log ∧ (o = .error e ∨ o = .ok (.value (.error e))) := by
  obtain ⟨u, _, rfl, _, goes⟩ := Script.of_follows_perform path
  rcases Script.of_follows_bind goes with ⟨l, _, log, rfl, fetched, trail⟩ | ⟨e, fetched, rfl⟩
  · obtain ⟨_, _, no⟩ | ⟨_, rfl, _⟩ := supplied.of_follows kept fetched
    · cases no
    simp only [Fault.met_cons, Fault.met_append, Fault.not_met_nil, reduceCtorEq, false_or]
      at met ⊢
    obtain ⟨e, found, same | ⟨_, rfl, rfl⟩⟩ := LazyList.minds_perform.of_follows_trail_map trail met
    · exact ⟨e, found, .inl same⟩
    · exact ⟨e, found, .inr rfl⟩
  · obtain ⟨_, rfl, same⟩ | ⟨_, _, no⟩ := supplied.of_follows kept fetched
    · cases same
      exact ⟨e, Fault.met_cons.2 (.inr (Fault.met_singleton.2 rfl)), .inl rfl⟩
    · cases no

end

/-! ### Calls -/

/-- Builtins, lists and dictionaries that pass on the faults of their arguments. -/
def Value.PassesFaults : Value → Prop
  | .function f => ∃ b : Builtin, b ∉ [.typeOf, .catch, .par, .rally] ∧ f = b.function
  | .list _ | .dict _ => True
  | _ => False

/-- If there are faults among the answers, the value is one of them, with call sites it has passed
    since at the end of its chain. -/
def Value.Carries (log : List (Ref × Value)) (v : Value) : Prop :=
  (∃ e : Fault, e.Met log) →
    ∃ e e' : Fault, e.Met log ∧ v = .error e' ∧ e'.cause = e.cause ∧ e.chain <+: e'.chain

section
variable {bound : Nat} {g h : Heap} {log : List (Ref × Value)} {v callee : Value} {f : Ref}
variable {a : Arguments} {site : Option Location} {b : Builtin} {w : Work}

theorem Value.PassesFaults.plain (passes : callee.PassesFaults) :
    (∀ action, callee ≠ .effect action) ∧ ∀ e, callee ≠ .error e := by
  cases callee with
  | error | effect => exact False.elim passes
  | _ => exact ⟨nofun, nofun⟩

/-- The arguments of `seq` are forced late; the other ones have ended with the first fault. -/
theorem Value.PassesFaults.strict (passes : callee.PassesFaults)
    (prompt : callee ≠ .function Builtin.seq.function) : (callee.call bound a).Strict := by
  cases callee with
  | function f =>
    obtain ⟨b, named, rfl⟩ := passes
    refine Builtin.strict_call bound ?_ a
    by_cases sequence : b = .effectSeq
    · exact .inr (sequence ▸ rfl)
    · have prompt : b ≠ .seq := fun same => prompt (same ▸ rfl)
      exact .inl (by simp_all [Builtin.IsStrict])
  | list l => exact l.strict_call bound a
  | dict d => exact d.strict_call bound a
  | _ => exact False.elim passes

/-- A call ends with a fault that it has met. -/
theorem Value.PassesFaults.follows {o : Except Fault Outcome} (passes : callee.PassesFaults)
    (path : (callee.call bound a).Follows g h log o) (met : ∃ e : Fault, e.Met log) :
    ∃ e : Fault, e.Met log ∧ o = .error e := by
  by_cases prompt : callee = .function Builtin.seq.function
  · subst prompt
    have binds := Signature.strict_bind Builtin.seq.signature a
    rcases Script.of_follows_bind path with ⟨cells, log₁, log₂, rfl, bind, run⟩ | ⟨e, bind, rfl⟩
    · obtain ⟨e, ⟨q, no⟩ | later⟩ : ∃ e : Fault, e.Met log₁ ∨ e.Met log₂ := by
        simpa only [Fault.met_append] using met
      · cases binds.follows bind no
      · change (Builtin.seq.run bound cells).Follows g h log₂ o at run
        by_cases count : cells.length = 2
        · obtain ⟨r, t, rfl⟩ := List.length_eq_two.1 count
          obtain ⟨e, found, ends⟩ := Builtin.of_follows_inSequence run ⟨e, later⟩
          exact ⟨e, Fault.met_append.2 (.inr found), ends⟩
        · rw [Builtin.run_of_length_ne bound .seq cells count] at run
          cases run
    · obtain ⟨e', q, found⟩ := met
      cases binds.follows bind found
      exact ⟨e, ⟨q, found⟩, rfl⟩
  · obtain ⟨e, q, found⟩ := met
    exact ⟨e, ⟨q, found⟩, (passes.strict prompt).follows path found⟩

/-- A fault that leaves through a site is the same fault, with that site at the end of its chain. -/
theorem Fault.through?_carries (e : Fault) (site : Option Location) :
    (e.through? site).cause = e.cause ∧ e.chain <+: (e.through? site).chain := by
  cases site with
  | none => exact ⟨rfl, List.prefix_refl _⟩
  | some place =>
    refine ⟨rfl, ?_⟩
    change e.chain <+: (e.through place).chain
    rw [Fault.chain_through]
    exact List.prefix_append _ _

theorem Value.carries_fault {e : Fault} (met : e.Met log) (site : Option Location) :
    ∃ e₀ e' : Fault, e₀.Met log ∧ Value.error (e.through? site) = .error e' ∧
      e'.cause = e₀.cause ∧ e₀.chain <+: e'.chain :=
  ⟨e, _, met, rfl, e.through?_carries site⟩

/-- Work makes one of the faults that its script meets, if that ends with one of them. -/
theorem Work.Makes.carries (makes : w.Makes bound g h log v)
    (ends : ∀ log o, (w.task.script bound).Follows g h log o → (∃ e : Fault, e.Met log) →
      ∃ e : Fault, e.Met log ∧ (o = .error e ∨ o = .ok (.value (.error e)))) :
    v.Carries log := by
  intro met
  cases makes with
  | value path =>
    obtain ⟨e, found, no | same⟩ := ends _ _ path met
    · cases no
    · cases same
      exact Value.carries_fault found _
  | fault path =>
    obtain ⟨e, found, same | no⟩ := ends _ _ path met
    · cases same
      exact Value.carries_fault found _
    · cases no
  | @tail log child u _ path _ passes =>
    obtain ⟨e, found⟩ := met
    rcases Fault.met_append.1 found with earlier | last
    · obtain ⟨_, _, no | no⟩ := ends _ _ path ⟨e, earlier⟩ <;> cases no
    · cases Fault.met_singleton.1 last
      rcases passes with rfl | rfl
      · exact Value.carries_fault found none
      · exact Value.carries_fault found _

theorem Work.Makes.call_carries (makes : Work.Makes { task := .call f a, site } bound g h log v)
    (yields : h.Yields f callee) (passes : callee.PassesFaults) : v.Carries log := by
  refine makes.carries fun log o path met => ?_
  obtain ⟨log, rfl, call⟩ := Task.of_follows_call yields passes.plain.1 passes.plain.2 path
  simp only [Fault.met_cons, passes.plain.2, false_or] at met ⊢
  obtain ⟨e, found, ends⟩ := passes.follows call met
  exact ⟨e, found, .inl ends⟩

/-- A call has ended with the first fault it is answered. -/
theorem Task.stops_of_goes {m : Script Outcome} {e : Fault} (yields : h.Yields f callee)
    (passes : callee.PassesFaults) (prompt : callee ≠ .function Builtin.seq.function)
    (path : ((Task.call f a).script bound).Goes g h log m) (met : e.Met log) : m = .raise e := by
  have replies := yields.replies passes.plain.1
  rcases Script.Goes.of_demand path with ⟨rfl, _⟩ | ⟨v, log', rfl, replies', path⟩
  · exact absurd met Fault.not_met_nil
  · cases replies'.unique replies
    have call : (callee.call bound a).Goes g h log' m := by
      cases callee <;> first | exact path | exact absurd rfl (passes.plain.2 _)
    obtain no | ⟨q, later⟩ := Fault.met_cons.1 met
    · exact absurd no (passes.plain.2 e)
    · exact (passes.strict prompt).raises call later

/-! ### Effects that are called -/

/-- The call of an effect has bound its parameters and left its body to a new cell. -/
theorem Work.Makes.of_effect {action : Ref}
    (makes : Work.Makes { task := .call f a, site } bound g h log (.effect action))
    (yields : h.Yields f (.function b.function)) (named : b ∉ [.typeOf, .catch, .par, .rally])
    (effect : b.isEffect = true) :
    ∃ cells log', g.state? action = some (.pending { task := .resume (.action (.builtin b) cells) }) ∧
      (b.signature.bind a).Follows g h log' (.ok cells) := by
  have calls : ∀ {log : List (Ref × Value)} {o : Outcome},
      ((Task.call f a).script bound).Follows g h log (.ok o) → ∃ made cells log',
        o = .value (.effect made) ∧
        g.state? made = some (.pending { task := .resume (.action (.builtin b) cells) }) ∧
        (b.signature.bind a).Follows g h log' (.ok cells) := by
    intro log o path
    obtain ⟨log, rfl, call⟩ := Task.of_follows_call yields nofun nofun path
    obtain ⟨cells, log', _, _, bind, call⟩ := Script.of_follows_bind_ok call
    rw [if_pos (show b.function.isEffect = true from effect)] at call
    obtain ⟨made, waits, call⟩ := Script.of_follows_alloc call
    cases (Script.of_follows_pure call).2
    exact ⟨made, cells, log', rfl, waits, bind⟩
  generalize same : Value.effect action = v at makes
  cases makes with
  | value path =>
    obtain ⟨made, cells, log', value, waits, bind⟩ := calls path
    cases value
    cases same
    exact ⟨cells, log', waits, bind⟩
  | fault => cases same
  | tail path =>
    obtain ⟨_, _, _, no, _⟩ := calls path
    cases no

/-- What the body of an effect makes that was bound to these cells. -/
theorem Work.Makes.action_carries {cells : List Ref} {log' : List (Ref × Value)}
    (makes : Work.Makes { task := .resume (.action (.builtin b) cells) } bound g h log v)
    (kept : g.Recounts bound h) (effect : b.isEffect = true)
    (bind : (b.signature.bind a).Follows g h log' (.ok cells)) : v.Carries log := by
  refine makes.carries fun log o path met => ?_
  change (b.run bound cells).Follows g h log o at path
  by_cases sequence : b = .effectSeq
  · subst sequence
    obtain ⟨rest, _, _, last, supplied⟩ := Signature.supplied_of_follows_bind bind
    by_cases count : cells.length = 2
    · obtain ⟨r, t, rfl⟩ := List.length_eq_two.1 count
      cases last
      exact Builtin.of_follows_effectsInSequence kept supplied path met
    · rw [Builtin.run_of_length_ne bound .effectSeq cells count] at path
      cases path
  · obtain rfl : b = .write := by
      cases b <;> first | rfl | exact absurd rfl sequence | cases effect
    have strict : Builtin.write.IsStrict := by simp [Builtin.IsStrict]
    obtain ⟨e, q, found⟩ := met
    exact ⟨e, ⟨q, found⟩, .inl ((Builtin.strict_run bound strict cells).follows path found)⟩

/-- Performing an effect answers the fault that its action has come to. -/
theorem Value.Carries.performed {r action : Ref} {p : Value} (carries : v.Carries log)
    (effect : h.Yields r (.effect action)) (yields : h.Yields action v)
    (replies : h.Replies .effect r p) : p.Carries log := by
  intro met
  obtain ⟨e, e', found, rfl, same⟩ := carries met
  cases replies with
  | resume yields' reply =>
    cases Heap.yields_unique yields' effect
    cases reply
  | perform yields' reply rest =>
    cases Heap.yields_unique yields' effect
    cases reply
    cases rest.unique (yields.replies nofun)
    exact ⟨e, e', found, rfl, same⟩

end

/-! ### Calls in a run -/

/-- What comes of the faults that a call has met: `log` holds the answers to its own demands, those of
    the binding included, and not what these cells have demanded in turn. -/
structure Heap.PassesFaults (bound : Nat) (g h : Heap) (r : Ref) (w : Work) (callee : Value) :
    Prop where
  /-- The call stops at the first fault, except that `seq` has an argument to force when the list of
      the others has failed. -/
  stops : callee ≠ .function Builtin.seq.function → ∀ log m e,
    (w.task.script bound).Goes g h log m → e.Met log → m = .raise e
  /-- The value of the call is a fault that it has met. -/
  carries : ∀ v, h.Yields r v →
    (∃ log, w.Makes bound g h log v) ∧ ∀ log, w.Makes bound g h log v → v.Carries log
  /-- If the call is an effect, so is what performing it comes to. -/
  performed : ∀ b action v, callee = .function (Builtin.function b) → b.isEffect = true →
    h.Yields r (.effect action) → h.Yields action v →
      ∃ w', g.state? action = some (.pending w') ∧ (∃ log, w'.Makes bound g h log v) ∧
        (∃ cells, w'.task = .resume (.action (.builtin b) cells)) ∧
        ∀ log, w'.Makes bound g h log v →
          v.Carries log ∧ ∀ p, h.Replies .effect r p → p.Carries log

/-- Any threads run on any store, in any order of turns. A call of a builtin other than `typeOf`,
    `catch`, `par` and `rally`, or of a list or a dictionary, whatever its arguments are, passes on
    the faults it meets. -/
theorem faults_pass_through_builtins (E : Engine) (scripts : List (Script Unit)) (s : Store)
    {w w' : World} {fs : List Forcer} {x : Recorded}
    (runs : Crew.Runs (Forcer.turn E) (scripts.map Forcer.start, { store := s }, w) (fs, x, w')) :
    ∃ g, s.heap.Extends g ∧ g.Recounts E.bound x.store.heap ∧
      ∀ r f a site callee, g.state? r = some (.pending { task := .call f a, site }) →
        x.store.heap.Yields f callee → callee.PassesFaults →
        g.PassesFaults E.bound x.store.heap r { task := .call f a, site } callee := by
  obtain ⟨g, extends', kept⟩ := Forcer.recounts_of_runs E scripts s runs
  refine ⟨g, extends', kept, fun r f a site callee waits function passes => ⟨?_, ?_, ?_⟩⟩
  · exact fun prompt log m e path met => Task.stops_of_goes function passes prompt path met
  · intro v yields
    exact ⟨kept.made r _ v waits yields, fun log makes => makes.call_carries function passes⟩
  · rintro b action v rfl effect yields performs
    obtain ⟨b', named, same⟩ := passes
    obtain rfl : b = b' := by simpa [Builtin.function] using congrArg Function.body same
    obtain ⟨log, makes⟩ := kept.made r _ _ waits yields
    obtain ⟨cells, log', action_waits, bind⟩ := makes.of_effect function named effect
    refine ⟨_, action_waits, kept.made action _ v action_waits performs, ⟨cells, rfl⟩, ?_⟩
    intro log made
    have carries := made.action_carries kept effect bind
    exact ⟨carries, fun p replies => carries.performed yields performs replies⟩

/-- Cell 0 asks for the first element of cell 2, which holds a fault. -/
def faultyStore : Store :=
  { heap := ⟨#[.ofCall ⟨1⟩ { positionals := [⟨2⟩] } (some ⟨"f", "main", 2, 1⟩),
      .ofValue (.function Builtin.first.function),
      .ofValue (.error ((⟨.custom "Late" "gone", []⟩ : Fault).through ⟨"", "main", 1, 1⟩))]⟩ }

/-- The call has the fault for its value, with its own site behind the one that was there. -/
theorem faults_pass_through_builtins_of_first :
    ∃ fs x, Crew.Runs (Forcer.turn { bound := 1 })
        ([observer ⟨0⟩].map Forcer.start, { store := faultyStore }, {}) (fs, x, {}) ∧
      ∃ e : Fault, x.store.heap.Yields ⟨0⟩ (.error e) ∧ e.cause = .custom "Late" "gone" ∧
        e.chain = [⟨"", "main", 1, 1⟩, ⟨"f", "main", 2, 1⟩] ∧
        ∃ g log, Work.Makes
          { task := .call ⟨1⟩ { positionals := [⟨2⟩] }, site := some ⟨"f", "main", 2, 1⟩ }
          1 g x.store.heap log (.error e) ∧ (Value.error e).Carries log := by
  have runs := Crew.runs_of_follow (Forcer.turn { bound := 1 }) [0, 0, 0, 0, 0, 0, 0, 0, 0, 0]
    ([observer ⟨0⟩].map Forcer.start, { store := faultyStore }, {}) rfl
  obtain ⟨g, extends', _, passes⟩ := faults_pass_through_builtins _ _ _ runs
  have passes := passes ⟨0⟩ ⟨1⟩ _ _ (.function Builtin.first.function) (extends' ⟨0⟩ _ rfl)
    ⟨⟨1⟩, .refl, rfl⟩ ⟨.first, by decide, rfl⟩
  have yields := passes.carries _ ⟨⟨0⟩, .refl, rfl⟩
  obtain ⟨log, makes⟩ := yields.1
  exact ⟨_, _, runs, _, ⟨⟨0⟩, .refl, rfl⟩, rfl, rfl, g, log, makes, yields.2 log makes⟩

end CallByNeed
