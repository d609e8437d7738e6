import CallByNeed.Proofs.Reading.Scripts

/- The ways in which a script can have gone. Its demands are answered by a heap whose cells have been
   forced; a log keeps the cells demanded and the answers. A second heap has the cells as they were
   made, and what a script has made is found there. -/
namespace CallByNeed
open Relation (ReflTransGen)

/-- The second heap has all cells of the first one, in the same states. -/
def Heap.Extends (g g' : Heap) : Prop :=
  ∀ r state, g.state? r = some state → g'.state? r = some state

namespace Script
variable {α β : Type}

/-- From its start, by way of the answers in the log, the script has come to the second one. What it
    has done otherwise, and what it was told by the host, is left open. -/
inductive Goes (g h : Heap) (m : Script α) : List (Ref × Value) → Script α → Prop
  | start : Goes g h m [] m
  | demand {log : List (Ref × Value)} {how : Demand} {r : Ref} {next : Value → Script α} {v : Value}
      (path : Goes g h m log (.demand how r next)) (replies : h.Replies how r v) :
      Goes g h m (log ++ [(r, v)]) (next v)
  | alloc {log : List (Ref × Value)} {c : Cell} {next : Ref → Script α} {r : Ref}
      (path : Goes g h m log (.act (.alloc c) next)) (made : g.state? r = some c.state) :
      Goes g h m log (next r)
  | act {log : List (Ref × Value)} {a : Action} {next : a.Answer → Script α} {x : a.Answer}
      (path : Goes g h m log (.act a next)) (other : ∀ c, a ≠ .alloc c) : Goes g h m log (next x)
  | ask {log : List (Ref × Value)} {q : Request} {next : q.Answer → Script α} {x : q.Answer}
      (path : Goes g h m log (.ask q next)) : Goes g h m log (next x)

/-- By way of the answers in the log, the script comes to its end. -/
inductive Follows (g h : Heap) : Script α → List (Ref × Value) → Except Fault α → Prop
  | done {a : α} : Follows g h (.done a) [] (.ok a)
  | raise {e : Fault} : Follows g h (.raise e) [] (.error e)
  | demand {how : Demand} {r : Ref} {next : Value → Script α} {v : Value}
      {log : List (Ref × Value)} {o : Except Fault α} (replies : h.Replies how r v)
      (rest : Follows g h (next v) log o) : Follows g h (.demand how r next) ((r, v) :: log) o
  | alloc {c : Cell} {next : Ref → Script α} {r : Ref} {log : List (Ref × Value)}
      {o : Except Fault α} (made : g.state? r = some c.state) (rest : Follows g h (next r) log o) :
      Follows g h (.act (.alloc c) next) log o
  | act {a : Action} {next : a.Answer → Script α} {x : a.Answer} {log : List (Ref × Value)}
      {o : Except Fault α} (other : ∀ c, a ≠ .alloc c) (rest : Follows g h (next x) log o) :
      Follows g h (.act a next) log o
  | ask {q : Request} {next : q.Answer → Script α} {x : q.Answer} {log : List (Ref × Value)}
      {o : Except Fault α} (rest : Follows g h (next x) log o) : Follows g h (.ask q next) log o

section
variable {g g' h h' : Heap} {m m' : Script α} {f : α → Script β} {log log' : List (Ref × Value)}
variable {o : Except Fault α}

theorem Goes.mono (extends' : g.Extends g') (before : h.Before h') (path : m.Goes g h log m') :
    m.Goes g' h' log m' := by
  induction path with
  | start => exact .start
  | demand _ replies ih => exact .demand ih (before.replies replies)
  | alloc _ made ih => exact .alloc ih (extends' _ _ made)
  | act _ other ih => exact .act ih other
  | ask _ ih => exact .ask ih

theorem Follows.mono (extends' : g.Extends g') (before : h.Before h') (path : m.Follows g h log o) :
    m.Follows g' h' log o := by
  induction path with
  | done => exact .done
  | raise => exact .raise
  | demand replies _ ih => exact .demand (before.replies replies) ih
  | alloc made _ ih => exact .alloc (extends' _ _ made) ih
  | act other _ ih => exact .act other ih
  | ask _ ih => exact .ask ih

/-- The way to the end goes on from wherever the script has come to. -/
theorem Goes.follows (path : m.Goes g h log m') (rest : m'.Follows g h log' o) :
    m.Follows g h (log ++ log') o := by
  induction path generalizing log' with
  | start => exact rest
  | demand _ replies ih =>
    rw [List.append_assoc]
    exact ih (.demand replies rest)
  | alloc _ made ih => exact ih (.alloc made rest)
  | act _ other ih => exact ih (.act other rest)
  | ask _ ih => exact ih (.ask rest)

/-- A script that has got past its first demand. -/
theorem Goes.of_demand {how : Demand} {r : Ref} {next : Value → Script α}
    (path : (Script.demand how r next).Goes g h log m) :
    (log = [] ∧ m = .demand how r next) ∨
      ∃ v log', log = (r, v) :: log' ∧ h.Replies how r v ∧ (next v).Goes g h log' m := by
  induction path with
  | start => exact .inl ⟨rfl, rfl⟩
  | demand _ replies ih =>
    rcases ih with ⟨rfl, same⟩ | ⟨v, log', rfl, first, path⟩
    · cases same
      exact .inr ⟨_, [], rfl, replies, .start⟩
    · exact .inr ⟨v, _, rfl, first, .demand path replies⟩
  | alloc _ made ih =>
    rcases ih with ⟨_, no⟩ | ⟨v, log', rfl, first, path⟩
    · cases no
    · exact .inr ⟨v, log', rfl, first, .alloc path made⟩
  | act _ other ih =>
    rcases ih with ⟨_, no⟩ | ⟨v, log', rfl, first, path⟩
    · cases no
    · exact .inr ⟨v, log', rfl, first, .act path other⟩
  | ask _ ih =>
    rcases ih with ⟨_, no⟩ | ⟨v, log', rfl, first, path⟩
    · cases no
    · exact .inr ⟨v, log', rfl, first, .ask path⟩

theorem Goes.ended (path : m.Goes g h log (Script.ended o)) : m.Follows g h log o := by
  have rest : (Script.ended o).Follows g h [] o := by
    cases o with
    | ok a => exact .done
    | error e => exact .raise
  have whole := path.follows rest
  rwa [List.append_nil] at whole

/-- A script in two parts ends where the first one fails, or goes on with its answer. -/
theorem of_follows_bind {o : Except Fault β} (path : (m >>= f).Follows g h log o) :
    (∃ a log₁ log₂, log = log₁ ++ log₂ ∧ m.Follows g h log₁ (.ok a) ∧ (f a).Follows g h log₂ o) ∨
      ∃ e, m.Follows g h log (.error e) ∧ o = .error e := by
  change (m.bind f).Follows g h log o at path
  induction m generalizing log with
  | done a => exact .inl ⟨a, [], log, rfl, .done, path⟩
  | raise e => cases path; exact .inr ⟨e, .raise, rfl⟩
  | panic p => cases path
  | stall => cases path
  | demand how r next ih =>
    cases path with
    | demand replies rest =>
      rcases ih _ rest with ⟨a, log₁, log₂, rfl, first, second⟩ | ⟨e, first, same⟩
      · exact .inl ⟨a, _ :: log₁, log₂, rfl, .demand replies first, second⟩
      · exact .inr ⟨e, .demand replies first, same⟩
  | act a next ih =>
    cases path with
    | alloc made rest =>
      rcases ih _ rest with ⟨a, log₁, log₂, rfl, first, second⟩ | ⟨e, first, same⟩
      · exact .inl ⟨a, log₁, log₂, rfl, .alloc made first, second⟩
      · exact .inr ⟨e, .alloc made first, same⟩
    | act other rest =>
      rcases ih _ rest with ⟨a, log₁, log₂, rfl, first, second⟩ | ⟨e, first, same⟩
      · exact .inl ⟨a, log₁, log₂, rfl, .act other first, second⟩
      · exact .inr ⟨e, .act other first, same⟩
  | ask q next ih =>
    cases path with
    | ask rest =>
      rcases ih _ rest with ⟨a, log₁, log₂, rfl, first, second⟩ | ⟨e, first, same⟩
      · exact .inl ⟨a, log₁, log₂, rfl, .ask first, second⟩
      · exact .inr ⟨e, .ask first, same⟩

end
end Script

/-! ### What work comes to -/

/-- What the work of a cell makes of it, given the answers in the log. A tail is the last cell that is
    looked at; one that is taken over does not pass the site of the call. -/
inductive Work.Makes (w : Work) (bound : Nat) (g h : Heap) : List (Ref × Value) → Value → Prop
  | value {log : List (Ref × Value)} {v : Value}
      (path : (w.task.script bound).Follows g h log (.ok (.value v))) :
      Makes w bound g h log (v.through? w.site)
  | fault {log : List (Ref × Value)} {e : Fault}
      (path : (w.task.script bound).Follows g h log (.error e)) :
      Makes w bound g h log (.error (e.through? w.site))
  | tail {log : List (Ref × Value)} {child : Ref} {v u : Value}
      (path : (w.task.script bound).Follows g h log (.ok (.tail child))) (yields : h.Yields child v)
      (passes : u = v ∨ u = v.through? w.site) : Makes w bound g h (log ++ [(child, v)]) u

/-- The cell has the value that its work has made, or will have the value of its tail, which has become
    one cell with it. -/
inductive Heap.Settled (bound : Nat) (g h : Heap) (r : Ref) (w : Work) : Prop
  | made {log : List (Ref × Value)} {v : Value} (yields : h.Yields r v)
      (makes : w.Makes bound g h log v)
  | joined {log : List (Ref × Value)} {child d : Ref}
      (path : (w.task.script bound).Follows g h log (.ok (.tail child))) (leads : h.Leads r d)
      (together : h.Leads child d)

section
variable {bound : Nat} {g g' h h' : Heap} {r d : Ref} {w : Work} {log : List (Ref × Value)} {v : Value}

theorem Work.Makes.mono (extends' : g.Extends g') (before : h.Before h')
    (makes : w.Makes bound g h log v) : w.Makes bound g' h' log v := by
  cases makes with
  | value path => exact .value (path.mono extends' before)
  | fault path => exact .fault (path.mono extends' before)
  | tail path yields passes =>
    exact .tail (path.mono extends' before) (before.yields yields) passes

theorem Heap.Settled.mono (extends' : g.Extends g') (before : h.Before h')
    (settled : Settled bound g h r w) : Settled bound g' h' r w := by
  cases settled with
  | made yields makes => exact .made (before.yields yields) (makes.mono extends' before)
  | joined path leads together =>
    exact .joined (path.mono extends' before) (before.leads leads) (before.leads together)

theorem Heap.yields_of_leads (leads : h.Leads r d) : h.Yields r v ↔ h.Yields d v := by
  induction leads with
  | refl => rfl
  | tail _ redirect ih => exact ih.trans (Heap.yields_of_redirects redirect)

/-- A settled cell that has a value has the value that its work makes. -/
theorem Heap.Settled.makes (settled : Settled bound g h r w) (yields : h.Yields r v) :
    ∃ log, w.Makes bound g h log v := by
  cases settled with
  | made yields' makes => exact ⟨_, Heap.yields_unique yields yields' ▸ makes⟩
  | joined path leads together =>
    have shared := (Heap.yields_of_leads leads).1 yields
    exact ⟨_, .tail path ((Heap.yields_of_leads together).2 shared) (.inl rfl)⟩

end
end CallByNeed
