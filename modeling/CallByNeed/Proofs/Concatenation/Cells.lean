import CallByNeed.Proofs.Concatenation.Extents

/- Cells of joined lists, as they were made and as they are found later. What has been drawn of them
   is what the sources show, one list behind the other, and drawing it has taken the visits that this
   takes and nothing else. -/
namespace CallByNeed

/-- The cell was made with work, which has made this value by way of the answers in the log. -/
def Heap.Made (bound : Nat) (g h : Heap) (r : Ref) (log : List (Ref × Value)) (v : Value) : Prop :=
  ∃ w, g.state? r = some (.pending w) ∧ h.Yields r v ∧ w.Makes bound g h log v

/-- This has been drawn of a list whose cells have made themselves. The log has what all of them have
    demanded, in the order of the cells. -/
inductive Heap.Draws (bound : Nat) (g h : Heap) : Ref → Extent Ref → List (Ref × Value) → Prop
  | unknown {r : Ref} : Draws bound g h r .unknown []
  | nil {r : Ref} {log : List (Ref × Value)} (made : Heap.Made bound g h r log (.list .nil)) :
      Draws bound g h r .nil log
  | failed {r : Ref} {log : List (Ref × Value)} {e : Fault}
      (made : Heap.Made bound g h r log (.error e)) : Draws bound g h r (.failed e) log
  | cons {r head tail : Ref} {log log' : List (Ref × Value)} {x : Extent Ref}
      (made : Heap.Made bound g h r log (.list (.cons head tail)))
      (rest : Draws bound g h tail x log') : Draws bound g h r (.cons head x) (log ++ log')

/-- What is seen of joined lists from one of their cells on, by these visits after those for the
    cell. -/
inductive Heap.Onward (g h : Heap) : Except Fault LazyList → Extent Ref → List Ref → Prop
  | failed {e : Fault} : Onward g h (.error e) (.failed e) []
  | nil : Onward g h (.ok .nil) .nil []
  | cons {head made tail rest : Ref} {x : Extent Ref} {xs : Extent (Extent Ref)}
      {visited : List Ref}
      (waits : g.state? made = some (.pending { task := .resume (.concat tail rest) }))
      (visits : h.Visits tail rest x xs visited) :
      Onward g h (.ok (.cons head made)) (.cons head (x.append xs.join)) visited

section
variable {bound : Nat} {g h : Heap} {m f first rest : Ref} {l : LazyList} {v : Value}
variable {log : List (Ref × Value)} {o : Except Fault LazyList} {z : Extent Ref}
variable {visited : List Ref} {others : List Ref} {spread : Option Ref} {site : Option Location}

/-- What follows a head that was fetched is left to a cell of the same kind. -/
theorem Heap.Fetches.waits {head made : Ref}
    (fetches : g.Fetches h l rest log (.ok (.cons head made))) :
    ∃ tail rest, g.state? made = some (.pending { task := .resume (.concat tail rest) }) := by
  generalize same : Except.ok (LazyList.cons head made) = o at fetches
  induction fetches with
  | cons waits =>
    cases same
    exact ⟨_, _, waits⟩
  | next _ _ _ ih => exact ih same
  | ended | broken | misfit => cases same

/-- To fetch a cell takes the visits up to that cell, and what is seen from there on is seen. -/
theorem Heap.Fetches.visits (fetches : g.Fetches h l rest log o) (list : h.Listed first (.ok l))
    (onward : g.Onward h o z visited) : ∃ x xs,
      h.Visits first rest x xs (first :: (log.map Prod.fst ++ visited)) ∧ x ≠ .unknown ∧
        z = x.append xs.join := by
  induction fetches generalizing first with
  | cons waits =>
    cases onward with
    | cons waits' visits =>
      cases waits.symm.trans waits'
      exact ⟨_, _, .cons list visits, nofun, rfl⟩
  | ended replies =>
    cases onward
    exact ⟨_, _, .nil list ⟨_, replies, rfl⟩, nofun, rfl⟩
  | broken replies faulty =>
    cases onward
    exact ⟨_, _, .broken list ⟨_, replies, faulty⟩, nofun, rfl⟩
  | next replies next _ ih =>
    obtain ⟨x, xs, visits, seen, rfl⟩ := ih ⟨_, next, rfl⟩ onward
    exact ⟨_, _, .next list ⟨_, replies, rfl⟩ visits seen, nofun, rfl⟩
  | misfit replies next faulty =>
    cases onward
    exact ⟨_, _, .next list ⟨_, replies, rfl⟩ (.failed ⟨_, next, faulty⟩) nofun, nofun, rfl⟩

theorem Heap.Joins.visits (joins : g.Joins h first rest log (.listed o))
    (onward : g.Onward h o z visited) : ∃ x xs,
      h.Visits first rest x xs (log.map Prod.fst ++ visited) ∧ z = x.append xs.join := by
  generalize same : Value.listed o = v at joins
  cases joins with
  | broken replies faulty =>
    cases o <;> cases same
    cases onward
    exact ⟨_, _, .failed ⟨_, replies, faulty⟩, rfl⟩
  | @list l log o' replies fetches =>
    obtain rfl : o = o' := by
      cases o <;> cases o' <;> cases same <;> rfl
    obtain ⟨x, xs, visits, _, rfl⟩ := fetches.visits ⟨_, replies, rfl⟩ onward
    exact ⟨x, xs, visits, rfl⟩

theorem Heap.Joins.waits {head made : Ref}
    (joins : g.Joins h first rest log (.list (.cons head made))) :
    ∃ tail rest, g.state? made = some (.pending { task := .resume (.concat tail rest) }) := by
  generalize same : Value.list (.cons head made) = v at joins
  cases joins with
  | broken => cases same
  | @list _ _ o _ fetches =>
    cases o <;> cases same
    exact fetches.waits

theorem Heap.Joins.listed (joins : g.Joins h first rest log v) : ∃ o, v = .listed o := by
  cases joins with
  | broken => exact ⟨.error _, rfl⟩
  | list => exact ⟨_, rfl⟩

/-- What a cell of a concatenation has made. -/
theorem Heap.Made.joins (made : Heap.Made bound g h m log v)
    (waits : g.state? m = some (.pending { task := .resume (.concat first rest) })) :
    g.Joins h first rest log v := by
  obtain ⟨w, waits', _, makes⟩ := made
  cases waits.symm.trans waits'
  exact makes.of_concat

/-- What is drawn of a concatenation is what is visited of its parts. -/
theorem Heap.Draws.of_concat (draws : Heap.Draws bound g h m z log)
    (waits : g.state? m = some (.pending { task := .resume (.concat first rest) })) :
    ∃ x xs, h.Visits first rest x xs (log.map Prod.fst) ∧ z = x.append xs.join := by
  induction draws generalizing first rest with
  | unknown => exact ⟨_, _, .unknown, rfl⟩
  | nil made =>
    have found := Heap.Joins.visits (o := .ok .nil) (made.joins waits) .nil
    rwa [List.append_nil] at found
  | @failed _ _ e made =>
    have found := Heap.Joins.visits (o := .error e) (made.joins waits) .failed
    rwa [List.append_nil] at found
  | @cons _ head tail _ _ _ made _ ih =>
    have joins := made.joins waits
    obtain ⟨_, _, behind⟩ := joins.waits
    obtain ⟨x, xs, visits, rfl⟩ := ih behind
    rw [List.map_append]
    exact Heap.Joins.visits (o := .ok (.cons head tail)) joins (.cons behind visits)

/-- If a cell has been forced as a list, its work has made this list or this fault. -/
theorem Heap.Recounts.made_of_listed {w : Work} (kept : g.Recounts bound h)
    (waits : g.state? m = some (.pending w))
    (lists : ∀ log v, w.Makes bound g h log v → ∃ o, v = .listed o) (list : h.Listed m o) :
    ∃ log, Heap.Made bound g h m log (.listed o) := by
  obtain ⟨u, replies, rfl⟩ := list
  obtain ⟨v, yields, reply⟩ := Heap.replies_pure_iff.1 replies
  obtain ⟨log, makes⟩ := kept.made m w v waits yields
  obtain ⟨o, rfl⟩ := lists log v makes
  have same : Value.asList u = o := by
    cases o <;> cases reply <;> rfl
  exact ⟨log, w, waits, same ▸ yields, same ▸ makes⟩

/-- Whatever is known of a list has been drawn of it, if its first cell has made itself and what
    follows it is a concatenation. -/
theorem Heap.Recounts.draws_of_shows {w : Work} (kept : g.Recounts bound h)
    (waits : g.state? m = some (.pending w))
    (lists : ∀ log v, w.Makes bound g h log v → ∃ o, v = .listed o)
    (behind : ∀ log head tail, w.Makes bound g h log (.list (.cons head tail)) →
      ∃ first rest, g.state? tail = some (.pending { task := .resume (.concat first rest) }))
    (shows : h.Shows m z visited) : ∃ log, Heap.Draws bound g h m z log := by
  induction shows generalizing w with
  | unknown => exact ⟨_, .unknown⟩
  | nil list =>
    obtain ⟨log, made⟩ := kept.made_of_listed waits lists list
    exact ⟨log, .nil made⟩
  | failed list =>
    obtain ⟨log, made⟩ := kept.made_of_listed waits lists list
    exact ⟨log, .failed made⟩
  | cons list _ ih =>
    obtain ⟨log, made⟩ := kept.made_of_listed waits lists list
    obtain ⟨w', waits', _, makes⟩ := id made
    cases waits.symm.trans waits'
    obtain ⟨first, rest, next⟩ := behind _ _ _ makes
    obtain ⟨log', draws⟩ := ih next (fun _ _ makes => makes.of_concat.listed)
      (fun _ _ _ makes => makes.of_concat.waits)
    exact ⟨_, .cons made draws⟩

/-! ### Calls -/

/-- A call of `merge` has made what its arguments are joined to. It has demanded its callee and nothing
    else before that. -/
theorem Heap.Made.merges (made : Heap.Made bound g h m log v)
    (waits : g.state? m =
      some (.pending { task := .call f { positionals := first :: others, spread }, site }))
    (function : h.Yields f (.function Builtin.merge.function))
    (lists : ∀ u, h.Replies .pure first u → ∃ o, u = .listed o) :
    ∃ rest log' o, g.Supplied others spread rest ∧ g.Joins h first rest log' (.listed o) ∧
      v = (Value.listed o).through? site ∧
      log = (f, .function Builtin.merge.function) :: log' := by
  obtain ⟨w, waits', _, makes⟩ := made
  cases waits.symm.trans waits'
  exact makes.of_merge function lists

/-- What is drawn of a call of `merge` is what is visited of its arguments. -/
theorem Heap.Draws.of_merge (draws : Heap.Draws bound g h m z log)
    (waits : g.state? m =
      some (.pending { task := .call f { positionals := first :: others, spread }, site }))
    (function : h.Yields f (.function Builtin.merge.function))
    (lists : ∀ u, h.Replies .pure first u → ∃ o, u = .listed o) (seen : z ≠ .unknown) :
    ∃ rest log' x xs, g.Supplied others spread rest ∧
      log = (f, .function Builtin.merge.function) :: log' ∧
      h.Visits first rest x xs (log'.map Prod.fst) ∧ z = (x.append xs.join).through? site := by
  cases draws with
  | unknown => exact absurd rfl seen
  | nil made =>
    obtain ⟨rest, log', o, supplied, joins, same, rfl⟩ := made.merges waits function lists
    obtain rfl : o = .ok .nil := by
      cases o <;> cases same
      rfl
    obtain ⟨x, xs, visits, found⟩ := joins.visits .nil
    rw [List.append_nil] at visits
    exact ⟨rest, log', x, xs, supplied, rfl, visits, found ▸ rfl⟩
  | failed made =>
    obtain ⟨rest, log', o, supplied, joins, same, rfl⟩ := made.merges waits function lists
    obtain ⟨e, rfl⟩ : ∃ e, o = .error e := by
      cases o <;> cases same
      exact ⟨_, rfl⟩
    cases same
    obtain ⟨x, xs, visits, found⟩ := joins.visits .failed
    rw [List.append_nil] at visits
    exact ⟨rest, log', x, xs, supplied, rfl, visits, found ▸ rfl⟩
  | @cons _ head tail _ _ _ made draws =>
    obtain ⟨rest, log', o, supplied, joins, same, rfl⟩ := made.merges waits function lists
    obtain rfl : o = .ok (.cons head tail) := by
      cases o <;> cases same
      rfl
    obtain ⟨_, _, behind⟩ := joins.waits
    obtain ⟨y, ys, behind', rfl⟩ := draws.of_concat behind
    obtain ⟨x, xs, visits, found⟩ := joins.visits (.cons behind behind')
    rw [← List.map_append] at visits
    exact ⟨rest, _, x, xs, supplied, rfl, visits, found ▸ rfl⟩

/-- What has been visited behind the first list is seen of explicit arguments. -/
theorem Heap.Visits.parts {x : Extent Ref} {xs : Extent (Extent Ref)}
    (visits : h.Visits first rest x xs visited) (before : g.Before h)
    (lists : h.Listed rest (.ok l)) (whole : g.Whole l others) :
    ∃ ys, h.ShowsEach others ys ∧ x.append xs.join = x.append (Extent.ofList ys).join := by
  have nothing := h.showsEach_unknown others
  induction visits generalizing l others with
  | unknown | failed => exact ⟨_, nothing, rfl⟩
  | cons _ _ ih =>
    obtain ⟨ys, shows, same⟩ := ih lists whole nothing
    exact ⟨ys, shows, congrArg (Extent.cons _) same⟩
  | nil _ lists' =>
    cases lists.unique lists'
    cases whole
    exact ⟨[], .nil, rfl⟩
  | broken _ lists' => cases lists.unique lists'
  | next _ lists' more _ ih =>
    cases lists.unique lists'
    cases whole with
    | cons known whole =>
      have others := Heap.replies_of_forced before known nofun
      obtain ⟨ys, shows, same⟩ := ih ⟨_, others, rfl⟩ whole (List.forall₂_cons.1 nothing).2
      exact ⟨_ :: ys, .cons more.shows shows, same⟩

end
end CallByNeed
