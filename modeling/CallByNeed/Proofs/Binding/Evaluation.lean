import CallByNeed.Proofs.Engine.Returns
import CallByNeed.Proofs.Heap.Moves
import CallByNeed.Proofs.Likeness.Collections

/- Evaluations of scripts that belong to no cell, told from the outside: each demand forces a cell
   with all that this takes, and the script goes on in the store which that leaves. What is known of
   a lazy cell is what becomes of it in every store that may come later. -/
namespace CallByNeed
open Relation (ReflTransGen)

/-- A value that a demand answers as it is. -/
def Value.IsPlain : Value → Prop
  | .effect _ | .error _ => False
  | _ => True

/-- The script comes to an answer or a fault, and leaves this store. -/
inductive Script.Comes (E : Engine) {α : Type} :
    Script α → Store → Except Fault α → Store → Prop where
  | done {a : α} {s : Store} : Comes E (.done a) s (.ok a) s
  | raise {e : Fault} {s : Store} : Comes E (.raise e) s (.error e) s
  | demand {how : Demand} {r : Ref} {next : Value → Script α} {v u : Value} {s s₁ s' : Store}
      {o : Except Fault α} (first : E.Returns (.enter r) s v s₁)
      (reply : how.reply (s₁.heap.site? r) v = .resume u) (rest : Comes E (next u) s₁ o s') :
      Comes E (.demand how r next) s o s'
  | act {a : Action} {next : a.Answer → Script α} {s s' : Store} {o : Except Fault α}
      (rest : Comes E (next (s.act a).1) (s.act a).2 o s') : Comes E (.act a next) s o s'

/-- The fault of the same cause, or an answer that is like the expected one. -/
inductive Script.Answers {α β : Type} (like : α → β → Prop) :
    Except Cause α → Except Fault β → Prop where
  | fault {cause : Cause} : Answers like (.error cause) (.error { cause })
  | answer {a : α} {b : β} (holds : like a b) : Answers like (.ok a) (.ok b)

/-- Which stores may come after which, and what the cells stand for meanwhile. New cells may come at
    any time; what a cell stands for, and the value it has been forced to, stay. -/
structure Course (ι : Type) where
  later : Store → Store → Prop
  means : Store → Ref → ι → Prop
  refl (s : Store) : later s s
  trans {s t u : Store} (first : later s t) (rest : later t u) : later s u
  allocs (s : Store) (c : Cell) : later s (s.act (.alloc c)).2
  stays {s t : Store} {r : Ref} {i : ι} (after : later s t) (known : means s r i) : means t r i
  forced {s t : Store} {r : Ref} {v : Value} (after : later s t)
    (known : s.heap.state? r = some (.forced v)) : t.heap.state? r = some (.forced v)

namespace Course
variable {ι : Type} (C : Course ι) (E : Engine)

/-- The script comes to what satisfies `post`. -/
def Reaches {α : Type} (script : Script α) (s : Store) (post : Except Fault α → Store → Prop) :
    Prop :=
  ∃ o t, script.Comes E s o t ∧ C.later s t ∧ post o t

/-- At any later time the cell is forced to a value that satisfies `post`. -/
def Forces (post : Store → Value → Prop) (s : Store) (r : Ref) : Prop :=
  ∀ t, C.later s t → ∃ v t', E.Returns (.enter r) t v t' ∧ C.later t t' ∧ post t' v

/-- The cell has work which at any later time comes to a value that satisfies `post`. -/
def Waits (post : Store → Value → Prop) (s : Store) (r : Ref) : Prop :=
  ∃ w, s.heap.state? r = some (.pending w) ∧ ∀ t, C.later s t →
    C.Reaches E (w.task.script E.bound) t fun o t' => ∃ v, o = .ok (.value v) ∧ post t' v

/-- The cell is forced to such a value, or waits for it. -/
def Promises (post : Store → Value → Prop) (s : Store) (r : Ref) : Prop :=
  C.Forces E post s r ∨ C.Waits E post s r

/-- A list of elements that mean these; `how` says what is known of its tails. -/
def Elements (how : (Store → Value → Prop) → Store → Ref → Prop) : List ι → Store → Value → Prop
  | [], _, v => v = .list .nil
  | i :: is, t, v =>
    ∃ head tail, v = .list (.cons head tail) ∧ C.means t head i ∧ how (Elements how is) t tail

/-- A dictionary of values that mean these. -/
def Entries (d : Dict ι) (t : Store) (v : Value) : Prop :=
  ∃ e : Dict Ref, v = .dict e ∧ DictLike (C.means t) e d

end Course

namespace Script
variable {α β : Type} {E : Engine}

theorem Comes.bind {m : Script α} {f : α → Script β} {s s₁ s' : Store} {a : α}
    {o : Except Fault β} (first : m.Comes E s (.ok a) s₁) (rest : (f a).Comes E s₁ o s') :
    (m >>= f).Comes E s o s' := by
  change (m.bind f).Comes E s o s'
  generalize ended : Except.ok a = x at first
  induction first with
  | done =>
    cases ended
    exact rest
  | raise => cases ended
  | demand first reply _ ih => exact .demand first reply (ih rest ended)
  | act _ ih => exact .act (ih rest ended)

theorem Comes.bind_error {m : Script α} {f : α → Script β} {s s' : Store} {e : Fault}
    (first : m.Comes E s (.error e) s') : (m >>= f).Comes E s (.error e) s' := by
  change (m.bind f).Comes E s (.error e) s'
  generalize ended : Except.error e = x at first
  induction first with
  | done => cases ended
  | raise =>
    cases ended
    exact .raise
  | demand first reply _ ih => exact .demand first reply (ih ended)
  | act _ ih => exact .act (ih ended)

/-- What a script comes to is what the engine gives the cell whose body it is. -/
theorem Comes.returns {m : Script Outcome} {s s' : Store} {v : Value} {cell : Ref}
    {site : Option Location} (comes : m.Comes E s (.ok (.value v)) s') :
    E.Returns (.run cell site m) s (v.through? site)
      { s' with heap := s'.heap.publish cell (v.through? site) } := by
  generalize ended : Except.ok (Outcome.value v) = x at comes
  induction comes with
  | done =>
    cases ended
    exact .value
  | raise => cases ended
  | demand first reply _ ih => exact .demand first reply (ih ended)
  | act _ ih => exact .act (ih ended)

/-- How a runner ends with it. -/
def ending : Except Fault α → Ending α
  | .ok a => .answer a
  | .error e => .fault e

/-- What a script comes to is what a runner ends with; no host is asked anything. -/
theorem Comes.run {h : Type → Type} [Monad h] [Host h] {m : Script α} {s s' : Store}
    {o : Except Fault α} (comes : m.Comes E s o s') :
    ∃ fuel, m.run E fuel s = (pure (ending o, s') : h (Ending α × Store)) := by
  have moved : ∀ {w w' : Runner α} {t t' : Store}, w.Advance E t w' t' →
      (∃ fuel, w'.run E fuel t' = (pure (ending o, s') : h (Ending α × Store))) →
      ∃ fuel, w.run E fuel t = (pure (ending o, s') : h (Ending α × Store)) := by
    rintro w w' t t' advance ⟨fuel, run⟩
    refine ⟨fuel + 1, ?_⟩
    rw [← run]
    simp only [Runner.run, Runner.step_of_advance advance]
  change ∃ fuel, (Runner.ready m).run E fuel _ = _
  induction comes with
  | done => exact ⟨1, rfl⟩
  | raise => exact ⟨1, rfl⟩
  | @demand how r next v u s s₁ s' o first reply _ ih =>
    have resumed := moved (.resume reply) (ih moved)
    have forces : ∀ x, ReflTransGen E.Moves x (.give v, [], s₁) → ∃ fuel,
        (Runner.forcing how r next x.1 x.2.1).run E fuel x.2.2 =
          (pure (ending o, s') : h (Ending α × Store)) := by
      intro x moves
      induction moves using ReflTransGen.head_induction_on with
      | refl => exact resumed
      | head move _ ih => exact moved (.engine move) ih
    exact moved .demand (forces _ (first.moves []))
  | act _ ih => exact moved .act (ih moved)

end Script

namespace Course
variable {ι α β : Type} {C : Course ι} {E : Engine} {s t : Store} {r : Ref}
variable {post post' : Store → Value → Prop}

theorem reaches_pure {a : α} {goal : Except Fault α → Store → Prop} (holds : goal (.ok a) s) :
    C.Reaches E (pure a) s goal :=
  ⟨_, s, .done, C.refl s, holds⟩

theorem reaches_fail {c : Cause} {goal : Except Fault α → Store → Prop}
    (holds : goal (.error { cause := c }) s) : C.Reaches E (fail c) s goal :=
  ⟨_, s, .raise, C.refl s, holds⟩

theorem Reaches.bind {m : Script α} {f : α → Script β} {middle : Except Fault α → Store → Prop}
    {goal : Except Fault β → Store → Prop} (first : C.Reaches E m s middle)
    (rest : ∀ a t, C.later s t → middle (.ok a) t → C.Reaches E (f a) t goal)
    (fault : ∀ e t, C.later s t → middle (.error e) t → goal (.error e) t) :
    C.Reaches E (m >>= f) s goal := by
  obtain ⟨o, t, comes, after, holds⟩ := first
  cases o with
  | error e => exact ⟨_, t, comes.bind_error, after, fault e t after holds⟩
  | ok a =>
    obtain ⟨o, u, comes', after', holds'⟩ := rest a t after holds
    exact ⟨o, u, comes.bind comes', C.trans after after', holds'⟩

theorem Reaches.imp {m : Script α} {goal goal' : Except Fault α → Store → Prop}
    (reaches : C.Reaches E m s goal) (weaker : ∀ o t, C.later s t → goal o t → goal' o t) :
    C.Reaches E m s goal' := by
  obtain ⟨o, t, comes, after, holds⟩ := reaches
  exact ⟨o, t, comes, after, weaker o t after holds⟩

/-- Goes on after a script that certainly answers. -/
theorem Reaches.then {m : Script α} {f : α → Script β} {answer : α → Store → Prop}
    {goal : Except Fault β → Store → Prop}
    (first : C.Reaches E m s fun o t => ∃ a, o = .ok a ∧ answer a t)
    (rest : ∀ a t, C.later s t → answer a t → C.Reaches E (f a) t goal) :
    C.Reaches E (m >>= f) s goal := by
  refine first.bind (fun a t after holds => ?_) nofun
  obtain ⟨_, same, holds⟩ := holds
  cases same
  exact rest a t after holds

/-- Goes on with whatever answer was expected. -/
theorem Reaches.goOn {α' β' : Type} {m : Script α'} {f : α' → Script β'} {x : Except Cause α}
    {g : α → Except Cause β} {like : Store → α → α' → Prop} {like' : Store → β → β' → Prop}
    (first : C.Reaches E m s fun o t => Script.Answers (like t) x o)
    (rest : ∀ a b t, C.later s t → like t a b →
      C.Reaches E (f b) t fun o u => Script.Answers (like' u) (g a) o) :
    C.Reaches E (m >>= f) s fun o u => Script.Answers (like' u) (x >>= g) o := by
  cases x with
  | error c =>
    refine first.bind nofun fun e t _ answers => ?_
    cases answers
    exact .fault
  | ok a =>
    refine first.bind (fun b t after answers => ?_) nofun
    cases answers with
    | answer holds => exact rest a b t after holds

theorem reaches_alloc (c : Cell) : C.Reaches E (alloc c : Script Ref) s fun o t =>
    ∃ r, o = .ok r ∧ t.heap.state? r = some c.state :=
  ⟨_, _, .act .done, C.allocs s c, _, rfl, by simp [Store.act, Heap.state?_alloc]⟩

theorem Forces.later (forces : C.Forces E post s r) (after : C.later s t) : C.Forces E post t r :=
  fun u more => forces u (C.trans after more)

theorem Forces.imp (forces : C.Forces E post s r) (weaker : ∀ t v, post t v → post' t v) :
    C.Forces E post' s r := by
  intro t after
  obtain ⟨v, t', returns, more, holds⟩ := forces t after
  exact ⟨v, t', returns, more, weaker t' v holds⟩

theorem forces_of_forced {v : Value} (known : s.heap.state? r = some (.forced v))
    (holds : ∀ t, C.later s t → post t v) : C.Forces E post s r :=
  fun t after => ⟨v, t, .found (C.forced after known), C.refl t, holds t after⟩

/-- A cell that waits is forced to what it waits for, if its work may begin. -/
theorem Waits.returns (waits : C.Waits E post s r)
    (begins : C.later s { s with heap := s.heap.setState r .forcing }) :
    ∃ v t site, post t v ∧ E.Returns (.enter r) s (v.through? site)
      { t with heap := t.heap.publish r (v.through? site) } := by
  obtain ⟨w, pending, comes⟩ := waits
  obtain ⟨_, t, comes, _, v, rfl, holds⟩ := comes _ begins
  exact ⟨v, t, w.site, holds, .start pending comes.returns⟩

/-- The same course of stores, in which cells mean what they can be forced to. -/
def reading {κ : Type} (C : Course ι) (E : Engine) (post : κ → Store → Value → Prop) :
    Course κ where
  later := C.later
  means t r k := C.Forces E (post k) t r
  refl := C.refl
  trans := C.trans
  allocs := C.allocs
  stays after known := known.later after
  forced := C.forced

/-- Cells mean the lists they can be forced to. -/
abbrev lists (C : Course ι) (E : Engine) : Course (List ι) :=
  C.reading E (C.Elements (C.Forces E))

/-- Cells mean the dictionaries they can be forced to. -/
abbrev dicts (C : Course ι) (E : Engine) : Course (Dict ι) :=
  C.reading E C.Entries

theorem forall₂_means (C : Course ι) {rs : List Ref} {is : List ι}
    (known : List.Forall₂ (C.means s) rs is) (after : C.later s t) :
    List.Forall₂ (C.means t) rs is :=
  known.imp fun _ _ => C.stays after

theorem entriesLike_means (C : Course ι) {κ : Type} {rs : List (κ × Ref)} {is : List (κ × ι)}
    (known : EntriesLike (C.means s) rs is) (after : C.later s t) :
    EntriesLike (C.means t) rs is :=
  known.imp fun _ _ => C.stays after

theorem Elements.later {is : List ι} {v : Value} (elements : C.Elements (C.Forces E) is s v)
    (after : C.later s t) : C.Elements (C.Forces E) is t v := by
  cases is with
  | nil => exact elements
  | cons i is =>
    obtain ⟨head, tail, same, means, rest⟩ := elements
    exact ⟨head, tail, same, C.stays after means, rest.later after⟩

/-- A list whose tails can be forced is a list whose tails are promised. -/
theorem Elements.promised {is : List ι} {v : Value} (elements : C.Elements (C.Forces E) is s v) :
    C.Elements (C.Promises E) is s v := by
  induction is generalizing s v with
  | nil => exact elements
  | cons i is ih =>
    obtain ⟨head, tail, same, means, rest⟩ := elements
    exact ⟨head, tail, same, means, .inl (rest.imp fun _ _ => ih)⟩

theorem Elements.exists_list {how : (Store → Value → Prop) → Store → Ref → Prop} {is : List ι}
    {v : Value} (elements : C.Elements how is s v) : ∃ l, v = .list l := by
  cases is with
  | nil => exact ⟨_, elements⟩
  | cons i is =>
    obtain ⟨_, _, same, _⟩ := elements
    exact ⟨_, same⟩

theorem reaches_force (forces : C.Forces E post s r) (plain : ∀ t v, post t v → v.IsPlain) :
    C.Reaches E (force r) s fun o t => ∃ v, o = .ok v ∧ post t v := by
  obtain ⟨v, t, returns, after, holds⟩ := forces s (C.refl s)
  have shown := plain t v holds
  cases v with
  | effect | error => exact shown.elim
  | _ => exact ⟨_, t, .demand returns rfl .done, after, _, rfl, holds⟩

theorem Elements.plain {how : (Store → Value → Prop) → Store → Ref → Prop} {is : List ι}
    {v : Value} (elements : C.Elements how is s v) : v.IsPlain := by
  obtain ⟨l, rfl⟩ := elements.exists_list
  trivial

theorem Entries.plain {d : Dict ι} {v : Value} (entries : C.Entries d s v) : v.IsPlain := by
  obtain ⟨e, rfl, _⟩ := entries
  trivial

theorem reaches_forceList {how : (Store → Value → Prop) → Store → Ref → Prop} {is : List ι}
    (forces : C.Forces E (C.Elements how is) s r) :
    C.Reaches E (forceList r) s fun o t => ∃ l, o = .ok l ∧ C.Elements how is t (.list l) := by
  refine (reaches_force forces fun _ _ => Elements.plain).then fun v t _ elements => ?_
  obtain ⟨l, rfl⟩ := elements.exists_list
  exact reaches_pure ⟨l, rfl, elements⟩

theorem reaches_forceDict {d : Dict ι} (forces : C.Forces E (C.Entries d) s r) :
    C.Reaches E (forceDict r) s fun o t => ∃ e, o = .ok e ∧ DictLike (C.means t) e d := by
  refine (reaches_force forces fun _ _ => Entries.plain).then fun v t _ entries => ?_
  obtain ⟨e, rfl, like⟩ := entries
  exact reaches_pure ⟨e, rfl, like⟩

end Course
end CallByNeed
