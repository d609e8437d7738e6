import CallByNeed.Proofs.Accounts
import CallByNeed.Proofs.Binding.Joining

/- What the scripts of lists have come to, by way of the answers in their logs: making known lists,
   fetching the next cell of a concatenation, and giving rest parameters their list. -/
namespace CallByNeed

/-- What forcing makes of an answer. -/
def Value.result : Value → Except Fault Value
  | .error e => .error e
  | v => .ok v

/-- What forcing a list makes of an answer. -/
def Value.asList : Value → Except Fault LazyList
  | .list l => .ok l
  | .error e => .error e
  | v => .error { cause := .notList v.type }

/-- The list has these elements, and all its cells were made forced. -/
inductive Heap.Whole (g : Heap) : LazyList → List Ref → Prop
  | nil : Whole g .nil []
  | cons {head tail : Ref} {l : LazyList} {rs : List Ref}
      (known : g.state? tail = some (.forced (.list l))) (rest : Whole g l rs) :
      Whole g (.cons head tail) (head :: rs)

/-- The next cell of a concatenation is fetched from the first list that has not ended. Nothing is
    demanded but, in turn, the list of lists and the list that is next in it, and either of them only
    once all before it has ended. -/
inductive Heap.Fetches (g h : Heap) :
    LazyList → Ref → List (Ref × Value) → Except Fault LazyList → Prop
  /-- What follows the head is left to a new cell. -/
  | cons {head tail rest made : Ref}
      (waits : g.state? made = some (.pending { task := .resume (.concat tail rest) })) :
      Fetches g h (.cons head tail) rest [] (.ok (.cons head made))
  | ended {rest : Ref} (replies : h.Replies .pure rest (.list .nil)) :
      Fetches g h .nil rest [(rest, .list .nil)] (.ok .nil)
  | broken {rest : Ref} {v : Value} {e : Fault} (replies : h.Replies .pure rest v)
      (faulty : v.asList = .error e) : Fetches g h .nil rest [(rest, v)] (.error e)
  | next {rest next others : Ref} {l : LazyList} {log : List (Ref × Value)}
      {o : Except Fault LazyList} (replies : h.Replies .pure rest (.list (.cons next others)))
      (list : h.Replies .pure next (.list l)) (rest' : Fetches g h l others log o) :
      Fetches g h .nil rest ((rest, .list (.cons next others)) :: (next, .list l) :: log) o
  | misfit {rest next others : Ref} {v : Value} {e : Fault}
      (replies : h.Replies .pure rest (.list (.cons next others)))
      (other : h.Replies .pure next v) (faulty : v.asList = .error e) :
      Fetches g h .nil rest [(rest, .list (.cons next others)), (next, v)] (.error e)

/-- What a rest parameter is bound to: a known list of the explicit arguments, or a call of `merge`
    that puts such a list before the spread one. -/
inductive Heap.Supplied (g : Heap) (explicit : List Ref) : Option Ref → Ref → Prop
  | known {rest : Ref} {l : LazyList} (known : g.state? rest = some (.forced (.list l)))
      (whole : g.Whole l explicit) : Supplied g explicit none rest
  | merged {rest f first list : Ref} {l : LazyList}
      (waits : g.state? rest = some (.pending { task := .call f { positionals := [first, list] } }))
      (function : g.state? f = some (.forced (.function Builtin.merge.function)))
      (known : g.state? first = some (.forced (.list l))) (whole : g.Whole l explicit) :
      Supplied g explicit (some list) rest

/-- A list, or the fault that was raised in its place. -/
def Value.listed : Except Fault LazyList → Value
  | .ok l => .list l
  | .error e => .error e

/-- What follows a cell of one of the lists in a concatenation: the next cell of that list, or of
    the first one after it that has any. -/
inductive Heap.Joins (g h : Heap) (tail rest : Ref) : List (Ref × Value) → Value → Prop
  | broken {v : Value} {e : Fault} (replies : h.Replies .pure tail v)
      (faulty : v.asList = .error e) : Joins g h tail rest [(tail, v)] (.error e)
  | list {l : LazyList} {log : List (Ref × Value)} {o : Except Fault LazyList}
      (replies : h.Replies .pure tail (.list l)) (fetches : g.Fetches h l rest log o) :
      Joins g h tail rest ((tail, .list l) :: log) (.listed o)

namespace Script
variable {α β : Type} {g h : Heap} {log : List (Ref × Value)} {r : Ref}

theorem of_follows_pure {a : α} {o : Except Fault α} (path : (pure a : Script α).Follows g h log o) :
    log = [] ∧ o = .ok a := by
  cases path
  exact ⟨rfl, rfl⟩

theorem of_follows_raise {e : Fault} {o : Except Fault α}
    (path : (raise e : Script α).Follows g h log o) : log = [] ∧ o = .error e := by
  cases path
  exact ⟨rfl, rfl⟩

theorem of_follows_alloc {c : Cell} {f : Ref → Script β} {o : Except Fault β}
    (path : (alloc c >>= f).Follows g h log o) :
    ∃ r, g.state? r = some c.state ∧ (f r).Follows g h log o := by
  change (Script.act (.alloc c) f).Follows g h log o at path
  cases path with
  | alloc made rest => exact ⟨_, made, rest⟩
  | act other _ => exact absurd rfl (other c)

theorem of_follows_allocValue {v : Value} {f : Ref → Script β} {o : Except Fault β}
    (path : (allocValue v >>= f).Follows g h log o) :
    ∃ r, g.state? r = some (.forced v) ∧ (f r).Follows g h log o :=
  of_follows_alloc path

theorem of_follows_force {o : Except Fault Value} (path : (force r).Follows g h log o) :
    ∃ v, h.Replies .pure r v ∧ log = [(r, v)] ∧ o = v.result := by
  cases path with
  | @demand _ _ _ v _ _ replies rest =>
    refine ⟨v, replies, ?_⟩
    cases v <;> cases rest <;> exact ⟨rfl, rfl⟩

theorem of_follows_perform {f : Value → Script β} {o : Except Fault β}
    (path : (perform r >>= f).Follows g h log o) :
    ∃ v log', log = (r, v) :: log' ∧ h.Replies .effect r v ∧ (f v).Follows g h log' o := by
  change (Script.demand .effect r f).Follows g h log o at path
  cases path with
  | demand replies rest => exact ⟨_, _, rfl, replies, rest⟩

theorem of_follows_forceList {o : Except Fault LazyList} (path : (forceList r).Follows g h log o) :
    ∃ v, h.Replies .pure r v ∧ log = [(r, v)] ∧ o = v.asList := by
  rcases of_follows_bind path with ⟨u, log₁, log₂, rfl, first, rest⟩ | ⟨e, first, rfl⟩
  · obtain ⟨v, replies, rfl, same⟩ := of_follows_force first
    refine ⟨v, replies, ?_⟩
    cases v <;> cases same <;> cases rest <;> exact ⟨rfl, rfl⟩
  · obtain ⟨v, replies, rfl, same⟩ := of_follows_force first
    refine ⟨v, replies, rfl, ?_⟩
    cases v <;> cases same
    rfl

theorem of_follows_attempt {m : Script α} {o : Except Fault (Except Fault α)}
    (path : m.attempt.Follows g h log o) : ∃ o', m.Follows g h log o' ∧ o = .ok o' := by
  induction m generalizing log with
  | done a => cases path; exact ⟨_, .done, rfl⟩
  | raise e => cases path; exact ⟨_, .raise, rfl⟩
  | panic p => cases path
  | stall => cases path
  | demand how r next ih =>
    cases path with
    | demand replies rest =>
      obtain ⟨o', path, same⟩ := ih _ rest
      exact ⟨o', .demand replies path, same⟩
  | act a next ih =>
    cases path with
    | alloc made rest =>
      obtain ⟨o', path, same⟩ := ih _ rest
      exact ⟨o', .alloc made path, same⟩
    | act other rest =>
      obtain ⟨o', path, same⟩ := ih _ rest
      exact ⟨o', .act other path, same⟩
  | ask q next ih =>
    cases path with
    | ask rest =>
      obtain ⟨o', path, same⟩ := ih _ rest
      exact ⟨o', .ask path, same⟩

theorem of_follows_attemptList {f : Except Fault LazyList → Script β} {o : Except Fault β}
    (path : ((forceList r).attempt >>= f).Follows g h log o) :
    ∃ v log', log = (r, v) :: log' ∧ (f v.asList).Follows g h log' o := by
  rcases of_follows_bind path with ⟨x, log₁, log₂, rfl, first, path⟩ | ⟨e, no, _⟩
  · obtain ⟨x, first, same⟩ := of_follows_attempt first
    cases same
    obtain ⟨v, _, rfl, rfl⟩ := of_follows_forceList first
    exact ⟨v, log₂, rfl, path⟩
  · obtain ⟨_, _, no⟩ := of_follows_attempt no
    cases no

/-- A script in two parts that comes to an answer. -/
theorem of_follows_bind_ok {m : Script α} {f : α → Script β} {b : β}
    (path : (m >>= f).Follows g h log (.ok b)) :
    ∃ a log₁ log₂, log = log₁ ++ log₂ ∧ m.Follows g h log₁ (.ok a) ∧
      (f a).Follows g h log₂ (.ok b) := by
  rcases of_follows_bind path with found | ⟨e, _, no⟩
  · exact found
  · cases no

/-! ### Known lists -/

theorem of_follows_push {l : LazyList} {head : Ref} {f : LazyList → Script β} {o : Except Fault β}
    (path : (l.push head >>= f).Follows g h log o) :
    ∃ tail, g.state? tail = some (.forced (.list l)) ∧
      (f (.cons head tail)).Follows g h log o := by
  unfold LazyList.push at path
  rw [LawfulMonad.bind_assoc] at path
  obtain ⟨tail, known, path⟩ := of_follows_allocValue path
  exact ⟨tail, known, path⟩

theorem of_follows_ofRefs {rs : List Ref} {f : LazyList → Script β} {o : Except Fault β}
    (path : (LazyList.ofRefs rs >>= f).Follows g h log o) :
    ∃ l, g.Whole l rs ∧ (f l).Follows g h log o := by
  -- The last element is put in place first.
  have pushes : ∀ (rs js : List Ref) (l : LazyList), g.Whole l js →
      (rs.foldlM LazyList.push l >>= f).Follows g h log o →
      ∃ l', g.Whole l' (rs.reverse ++ js) ∧ (f l').Follows g h log o := by
    intro rs
    induction rs with
    | nil => exact fun js l whole path => ⟨l, whole, path⟩
    | cons r rs ih =>
      intro js l whole path
      rw [List.foldlM_cons, LawfulMonad.bind_assoc] at path
      obtain ⟨tail, known, path⟩ := of_follows_push path
      simpa using ih (r :: js) _ (.cons known whole) path
  simpa using pushes rs.reverse [] .nil .nil path

/-! ### Concatenations -/

theorem fetches_of_follows {bound : Nat} {l : LazyList} {rest : Ref} {o : Except Fault LazyList}
    (path : (l.concat bound rest).Follows g h log o) : g.Fetches h l rest log o := by
  induction bound generalizing l rest log with
  | zero => cases path
  | succ bound ih =>
    cases l with
    | cons head tail =>
      obtain ⟨made, known, path⟩ := of_follows_alloc path
      obtain ⟨rfl, rfl⟩ := of_follows_pure path
      exact .cons known
    | nil =>
      rcases of_follows_bind path with ⟨l, log₁, log₂, rfl, first, last⟩ | ⟨e, first, rfl⟩
      · obtain ⟨v, replies, rfl, same⟩ := of_follows_forceList first
        cases v <;> cases same
        cases l with
        | nil =>
          obtain ⟨rfl, rfl⟩ := of_follows_pure last
          exact .ended replies
        | cons next others =>
          rcases of_follows_bind last with ⟨l, log₃, log₄, rfl, second, fetch⟩ | ⟨e, second, rfl⟩
          · obtain ⟨v, list, rfl, same⟩ := of_follows_forceList second
            cases v <;> cases same
            exact .next replies list (ih fetch)
          · obtain ⟨v, other, rfl, same⟩ := of_follows_forceList second
            exact .misfit replies other same.symm
      · obtain ⟨v, replies, rfl, same⟩ := of_follows_forceList first
        exact .broken replies same.symm

/-! ### Rest parameters -/

theorem of_follows_restPositionals {a : Arguments} {f : Ref × Arguments → Script β}
    {o : Except Fault β} (path : (a.restPositionals >>= f).Follows g h log o) :
    ∃ rest, g.Supplied a.positionals a.spread rest ∧
      (f (rest, { a with positionals := [], spread := none })).Follows g h log o := by
  simp only [Arguments.restPositionals, LawfulMonad.bind_assoc] at path
  obtain ⟨l, whole, path⟩ := of_follows_ofRefs path
  obtain ⟨explicit, known, path⟩ := of_follows_allocValue path
  cases spread : a.spread with
  | none =>
    simp only [spread, LawfulMonad.pure_bind] at path
    exact ⟨explicit, .known known whole, path⟩
  | some list =>
    simp only [spread, Arguments.allocMerge, allocCall, LawfulMonad.bind_assoc] at path
    obtain ⟨f, function, path⟩ := of_follows_allocValue path
    obtain ⟨rest, waits, path⟩ := of_follows_alloc path
    exact ⟨rest, .merged waits function known whole, path⟩

end Script

/-! ### Cells of joined lists -/

section
variable {bound : Nat} {g h : Heap} {log : List (Ref × Value)} {v : Value} {r f : Ref}

theorem Heap.replies_of_forced (before : g.Before h) (known : g.state? r = some (.forced v))
    (plain : ∀ action, v ≠ .effect action) : h.Replies .pure r v :=
  Heap.Yields.replies ⟨r, .refl, before.forced known⟩ plain

/-- A script that answers the list which another one comes to. -/
theorem Script.of_follows_answerList {m : Script LazyList} {o : Except Fault Outcome}
    (path : (m >>= fun l => answer (.list l)).Follows g h log o) :
    ∃ o', m.Follows g h log o' ∧ o = o'.map fun l => .value (.list l) := by
  rcases of_follows_bind path with ⟨l, log₁, log₂, rfl, first, last⟩ | ⟨e, first, rfl⟩
  · obtain ⟨rfl, rfl⟩ := of_follows_pure last
    rw [List.append_nil]
    exact ⟨.ok l, first, rfl⟩
  · exact ⟨.error e, first, rfl⟩

/-- What the cell behind a cell of a concatenation makes. -/
theorem Work.Makes.of_concat {tail rest : Ref}
    (makes : Work.Makes { task := .resume (.concat tail rest) } bound g h log v) :
    g.Joins h tail rest log v := by
  have comes : ∀ {log : List (Ref × Value)} {o : Except Fault Outcome},
      ((Suspension.concat tail rest).script bound).Follows g h log o →
      ∃ o', g.Joins h tail rest log (.listed o') ∧ o = o'.map fun l => .value (.list l) := by
    intro log o path
    rcases Script.of_follows_bind path with ⟨l, log₁, log₂, rfl, first, last⟩ | ⟨e, first, rfl⟩
    · obtain ⟨u, replies, rfl, same⟩ := Script.of_follows_forceList first
      obtain ⟨o', concat, rfl⟩ := Script.of_follows_answerList last
      cases u <;> cases same
      exact ⟨o', .list replies (Script.fetches_of_follows concat), rfl⟩
    · obtain ⟨u, replies, rfl, same⟩ := Script.of_follows_forceList first
      exact ⟨.error e, .broken replies same.symm, rfl⟩
  cases makes with
  | value path =>
    obtain ⟨o, joins, same⟩ := comes path
    cases o <;> cases same
    exact joins
  | fault path =>
    obtain ⟨o, joins, same⟩ := comes path
    cases o <;> cases same
    exact joins
  | tail path =>
    obtain ⟨o, _, same⟩ := comes path
    cases o <;> cases same

/-- How the script of a call goes on when the callee is known. -/
theorem Task.of_follows_call {callee : Value} {a : Arguments} {o : Except Fault Outcome}
    (yields : h.Yields f callee) (plain : ∀ action, callee ≠ .effect action)
    (sound : ∀ e, callee ≠ .error e) (path : ((Task.call f a).script bound).Follows g h log o) :
    ∃ log', log = (f, callee) :: log' ∧ (callee.call bound a).Follows g h log' o := by
  have result : callee.result = .ok callee := by
    cases callee <;> first | rfl | exact absurd rfl (sound _)
  rcases Script.of_follows_bind path with ⟨v, log₁, log₂, rfl, force, call⟩ | ⟨e, force, rfl⟩
  · obtain ⟨u, replies, rfl, same⟩ := Script.of_follows_force force
    cases replies.unique (yields.replies plain)
    rw [result] at same
    cases same
    exact ⟨log₂, rfl, call⟩
  · obtain ⟨u, replies, rfl, same⟩ := Script.of_follows_force force
    cases replies.unique (yields.replies plain)
    rw [result] at same
    cases same

/-- How the body of `merge` goes on whose first argument is no other value than a list. -/
theorem Builtin.of_follows_mergeAll {first rest : Ref} {o : Except Fault Outcome}
    (path : (mergeAll bound first rest).Follows g h log o)
    (lists : ∀ u, h.Replies .pure first u → ∃ o, u = .listed o) :
    ∃ o', g.Joins h first rest log (.listed o') ∧ o = o'.map fun l => .value (.list l) := by
  rcases Script.of_follows_bind path with ⟨u, log₁, log₂, rfl, force, path⟩ | ⟨e, force, rfl⟩
  · obtain ⟨u', replies, rfl, same⟩ := Script.of_follows_force force
    obtain ⟨l | e, rfl⟩ := lists u' replies
    · cases same
    · cases same
      obtain ⟨o', concat, rfl⟩ := Script.of_follows_answerList path
      exact ⟨o', .list replies (Script.fetches_of_follows concat), rfl⟩
  · obtain ⟨u, replies, rfl, same⟩ := Script.of_follows_force force
    cases u <;> cases same
    exact ⟨.error e, .broken replies rfl, rfl⟩

/-- What a call of `merge` makes whose first argument is no other value than a list. -/
theorem Work.Makes.of_merge {first : Ref} {others : List Ref} {spread : Option Ref}
    {site : Option Location} (makes : Work.Makes
      { task := .call f { positionals := first :: others, spread }, site } bound g h log v)
    (function : h.Yields f (.function Builtin.merge.function))
    (lists : ∀ u, h.Replies .pure first u → ∃ o, u = .listed o) :
    ∃ rest log' o, g.Supplied others spread rest ∧ g.Joins h first rest log' (.listed o) ∧
      v = (Value.listed o).through? site ∧
      log = (f, .function Builtin.merge.function) :: log' := by
  have comes : ∀ {log : List (Ref × Value)} {o : Except Fault Outcome},
      ((Task.call f { positionals := first :: others, spread }).script bound).Follows g h log o →
      ∃ rest log' o', g.Supplied others spread rest ∧ g.Joins h first rest log' (.listed o') ∧
        o = o'.map (fun l => .value (.list l)) ∧
        log = (f, .function Builtin.merge.function) :: log' := by
    intro log o path
    obtain ⟨log', rfl, call⟩ := Task.of_follows_call function nofun nofun path
    simp only [Value.call, Builtin.function] at call
    rw [Signature.bind_merge] at call
    simp only [bind_assoc, pure_bind] at call
    obtain ⟨rest, supplied, merges⟩ := Script.of_follows_restPositionals call
    obtain ⟨o', joins, same⟩ := Builtin.of_follows_mergeAll merges lists
    exact ⟨rest, log', o', supplied, joins, same, rfl⟩
  cases makes with
  | value path =>
    obtain ⟨rest, log', o, supplied, joins, same, rfl⟩ := comes path
    cases o <;> cases same
    exact ⟨rest, log', _, supplied, joins, rfl, rfl⟩
  | fault path =>
    obtain ⟨rest, log', o, supplied, joins, same, rfl⟩ := comes path
    cases o <;> cases same
    exact ⟨rest, log', _, supplied, joins, rfl, rfl⟩
  | tail path =>
    obtain ⟨_, _, o, _, _, same, _⟩ := comes path
    cases o <;> cases same

end
end CallByNeed
