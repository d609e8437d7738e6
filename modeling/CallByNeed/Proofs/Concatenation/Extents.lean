import CallByNeed.Proofs.Accounts.Lists

/- What is known of a list: its first elements, and whether it ends behind them, fails there, or may go
   on in any way. Extents are put together as lists are. The more is known of the parts, the more is
   known of the whole. -/
namespace CallByNeed

/-- What is known of a list. -/
inductive Extent (ι : Type) where
  | unknown
  | nil
  | failed (e : Fault)
  | cons (i : ι) (x : Extent ι)

namespace Extent
variable {ι : Type}

/-- A list and what comes behind its end, if it has one. -/
def append : Extent ι → Extent ι → Extent ι
  | unknown, _ => unknown
  | nil, y => y
  | failed e, _ => failed e
  | cons i x, y => cons i (x.append y)

/-- All lists in a list, one behind the other. -/
def join : Extent (Extent ι) → Extent ι
  | unknown => unknown
  | nil => nil
  | failed e => failed e
  | cons x xs => x.append xs.join

/-- A list that is known to its end. -/
def ofList : List ι → Extent ι
  | [] => nil
  | i :: is => cons i (ofList is)

def length : Extent ι → Nat
  | unknown | nil | failed _ => 0
  | cons _ x => x.length + 1

theorem length_ofList (is : List ι) : (ofList is).length = is.length := by
  induction is with
  | nil => rfl
  | cons i is ih => simp only [ofList, length, ih, List.length_cons]

/-- A fault that is there instead of a list has passed a call site, a fault of a tail has not. -/
def through? (site : Option Location) : Extent ι → Extent ι
  | failed e => failed (e.through? site)
  | x => x

/-- The second extent tells more. -/
inductive Within : Extent ι → Extent ι → Prop
  | unknown {y : Extent ι} : Within unknown y
  | nil : Within nil nil
  | failed {e : Fault} : Within (failed e) (failed e)
  | cons {i : ι} {x y : Extent ι} (rest : Within x y) : Within (cons i x) (cons i y)

/-- Both tell the same as far as both go. -/
def Agrees (x y : Extent ι) : Prop := x.Within y ∨ y.Within x

theorem append_nil (x : Extent ι) : x.append nil = x := by
  induction x with
  | unknown | nil | failed => rfl
  | cons i x ih => rw [append, ih]

theorem append_assoc (x y z : Extent ι) : (x.append y).append z = x.append (y.append z) := by
  induction x with
  | unknown | nil | failed => rfl
  | cons i x ih => simp only [append, ih]

theorem Within.refl (x : Extent ι) : x.Within x := by
  induction x with
  | unknown => exact .unknown
  | nil => exact .nil
  | failed => exact .failed
  | cons i x ih => exact .cons ih

theorem Within.trans {x y z : Extent ι} (first : x.Within y) (second : y.Within z) : x.Within z := by
  induction first generalizing z with
  | unknown => exact .unknown
  | nil => exact second
  | failed => exact second
  | cons _ ih =>
    cases second with
    | cons rest => exact .cons (ih rest)

theorem Within.append {x x' y y' : Extent ι} (first : x.Within x') (second : y.Within y') :
    (x.append y).Within (x'.append y') := by
  induction first with
  | unknown => exact .unknown
  | nil => exact second
  | failed => exact .failed
  | cons _ ih => exact .cons ih

/-- Parts that agree make up lists that agree. -/
theorem Agrees.append {x x' y y' : Extent ι} (first : x.Agrees x') (second : y.Agrees y') :
    (x.append y).Agrees (x'.append y') := by
  have within : ∀ {x x' : Extent ι}, x.Within x' → ∀ {y y' : Extent ι}, y.Agrees y' →
      (x.append y).Agrees (x'.append y') := by
    intro x x' within y y' second
    induction within with
    | unknown => exact .inl .unknown
    | nil => exact second
    | failed => exact .inl .failed
    | cons _ ih => exact ih.imp .cons .cons
  rcases first with first | first
  · exact within first second
  · exact (within first second.symm).symm

theorem Within.through {x y : Extent ι} (within : x.Within y) (site : Option Location) :
    (x.through? site).Within (y.through? site) := by
  cases within with
  | unknown => exact .unknown
  | nil => exact .nil
  | failed => exact .failed
  | cons rest => exact .cons rest

theorem Agrees.through {x y : Extent ι} (agrees : x.Agrees y) (site : Option Location) :
    (x.through? site).Agrees (y.through? site) :=
  agrees.imp (·.through site) (·.through site)

theorem join_ne_failed {xs : List (Extent ι)} (sound : ∀ x ∈ xs, ∀ e, x ≠ .failed e)
    (e : Fault) : (ofList xs).join ≠ .failed e := by
  induction xs with
  | nil => nofun
  | cons x xs ih =>
    obtain ⟨first, rest⟩ := List.forall_mem_cons.1 sound
    cases x with
    | nil => exact ih rest
    | failed e' => exact absurd rfl (first e')
    | unknown | cons => nofun

theorem through?_eq_self {x : Extent ι} (sound : ∀ e, x ≠ .failed e)
    (site : Option Location) : x.through? site = x := by
  cases x with
  | failed e => exact absurd rfl (sound e)
  | unknown | nil | cons => rfl

end Extent

/-! ### Extents in a heap -/

/-- What forcing the list in a cell comes to. -/
def Heap.Listed (h : Heap) (r : Ref) (o : Except Fault LazyList) : Prop :=
  ∃ v, h.Replies .pure r v ∧ v.asList = o

/-- This is known of the list in a cell once these cells have been visited. -/
inductive Heap.Shows (h : Heap) : Ref → Extent Ref → List Ref → Prop
  | unknown {r : Ref} : Shows h r .unknown []
  | nil {r : Ref} (list : h.Listed r (.ok .nil)) : Shows h r .nil [r]
  | failed {r : Ref} {e : Fault} (list : h.Listed r (.error e)) : Shows h r (.failed e) [r]
  | cons {r head tail : Ref} {x : Extent Ref} {visited : List Ref}
      (list : h.Listed r (.ok (.cons head tail))) (rest : Shows h tail x visited) :
      Shows h r (.cons head x) (r :: visited)

/-- This is known of the lists in a list. -/
inductive Heap.ShowsLists (h : Heap) : Ref → Extent (Extent Ref) → Prop
  | unknown {r : Ref} : ShowsLists h r .unknown
  | nil {r : Ref} (lists : h.Listed r (.ok .nil)) : ShowsLists h r .nil
  | failed {r : Ref} {e : Fault} (lists : h.Listed r (.error e)) : ShowsLists h r (.failed e)
  | cons {r next others : Ref} {x : Extent Ref} {xs : Extent (Extent Ref)} {visited : List Ref}
      (lists : h.Listed r (.ok (.cons next others))) (list : h.Shows next x visited)
      (rest : ShowsLists h others xs) : ShowsLists h r (.cons x xs)

/-- So much is known of each list. -/
abbrev Heap.ShowsEach (h : Heap) (rs : List Ref) (xs : List (Extent Ref)) : Prop :=
  List.Forall₂ (fun r x => ∃ visited, h.Shows r x visited) rs xs

/-- In this order cells are visited to see the list in the first cell and the lists in the second cell
    behind it. The second cell is visited only when the first list has ended, and then the next list
    is visited at once: the last cell visited is the one that holds the last element. -/
inductive Heap.Visits (h : Heap) : Ref → Ref → Extent Ref → Extent (Extent Ref) → List Ref → Prop
  | unknown {first rest : Ref} : Visits h first rest .unknown .unknown []
  | failed {first rest : Ref} {e : Fault} (list : h.Listed first (.error e)) :
      Visits h first rest (.failed e) .unknown [first]
  | cons {first rest head tail : Ref} {x : Extent Ref} {xs : Extent (Extent Ref)}
      {visited : List Ref} (list : h.Listed first (.ok (.cons head tail)))
      (more : Visits h tail rest x xs visited) :
      Visits h first rest (.cons head x) xs (first :: visited)
  | nil {first rest : Ref} (list : h.Listed first (.ok .nil)) (lists : h.Listed rest (.ok .nil)) :
      Visits h first rest .nil .nil [first, rest]
  | broken {first rest : Ref} {e : Fault} (list : h.Listed first (.ok .nil))
      (lists : h.Listed rest (.error e)) : Visits h first rest .nil (.failed e) [first, rest]
  | next {first rest next others : Ref} {x : Extent Ref} {xs : Extent (Extent Ref)}
      {visited : List Ref} (list : h.Listed first (.ok .nil))
      (lists : h.Listed rest (.ok (.cons next others)))
      (more : Visits h next others x xs visited) (seen : x ≠ .unknown) :
      Visits h first rest .nil (.cons x xs) (first :: rest :: visited)

section
variable {h h' : Heap} {r first rest : Ref} {x y : Extent Ref} {xs ys : Extent (Extent Ref)}
variable {visited visited' : List Ref} {o o' : Except Fault LazyList}

theorem Heap.Listed.mono (before : h.Before h') (list : h.Listed r o) : h'.Listed r o :=
  list.imp fun _ found => ⟨before.replies found.1, found.2⟩

theorem Heap.Listed.unique (list : h.Listed r o) (list' : h.Listed r o') : o = o' := by
  obtain ⟨v, replies, rfl⟩ := list
  obtain ⟨u, replies', rfl⟩ := list'
  rw [replies.unique replies']

theorem Heap.Shows.mono (before : h.Before h') (shows : h.Shows r x visited) :
    h'.Shows r x visited := by
  induction shows with
  | unknown => exact .unknown
  | nil list => exact .nil (list.mono before)
  | failed list => exact .failed (list.mono before)
  | cons list _ ih => exact .cons (list.mono before) ih

theorem Heap.ShowsLists.mono (before : h.Before h') (shows : h.ShowsLists r xs) :
    h'.ShowsLists r xs := by
  induction shows with
  | unknown => exact .unknown
  | nil lists => exact .nil (lists.mono before)
  | failed lists => exact .failed (lists.mono before)
  | cons lists list _ ih => exact .cons (lists.mono before) (list.mono before) ih

/-- Nothing needs to be known. -/
theorem Heap.showsEach_unknown (h : Heap) (rs : List Ref) :
    h.ShowsEach rs (rs.map fun _ => .unknown) := by
  simp only [Heap.ShowsEach, List.forall₂_map_right_iff, List.forall₂_same]
  exact fun _ _ => ⟨_, .unknown⟩

/-- All that is known of a list agrees. -/
theorem Heap.Shows.agrees (shows : h.Shows r x visited) (shows' : h.Shows r y visited') :
    x.Agrees y := by
  induction shows generalizing y visited' with
  | unknown => exact .inl .unknown
  | nil list =>
    cases shows' with
    | unknown => exact .inr .unknown
    | nil => exact .inl .nil
    | failed list' | cons list' => cases list.unique list'
  | failed list =>
    cases shows' with
    | unknown => exact .inr .unknown
    | failed list' =>
      cases list.unique list'
      exact .inl .failed
    | nil list' | cons list' => cases list.unique list'
  | cons list _ ih =>
    cases shows' with
    | unknown => exact .inr .unknown
    | cons list' rest =>
      cases list.unique list'
      exact (ih rest).imp .cons .cons
    | nil list' | failed list' => cases list.unique list'

/-- What is known of explicit arguments is known of the list that they are put into. -/
theorem Heap.Whole.showsLists {g : Heap} {l : LazyList} {others : List Ref} {xs : List (Extent Ref)}
    (whole : g.Whole l others) (before : g.Before h) (lists : h.Listed rest (.ok l))
    (shows : h.ShowsEach others xs) : h.ShowsLists rest (.ofList xs) := by
  induction whole generalizing rest xs with
  | nil =>
    cases shows
    exact .nil lists
  | cons known _ ih =>
    cases shows with
    | cons list shows =>
      obtain ⟨_, list⟩ := list
      have others := Heap.replies_of_forced before known nofun
      exact .cons lists list (ih ⟨_, others, rfl⟩ shows)

/-- All that is known of lists in a list agrees. -/
theorem Heap.ShowsLists.agrees (lists : h.ShowsLists rest xs) (lists' : h.ShowsLists rest ys) :
    xs.join.Agrees ys.join := by
  induction lists generalizing ys with
  | unknown => exact .inl .unknown
  | nil none =>
    cases lists' with
    | unknown => exact .inr .unknown
    | nil => exact .inl .nil
    | failed other | cons other => cases none.unique other
  | failed fault =>
    cases lists' with
    | unknown => exact .inr .unknown
    | failed other =>
      cases fault.unique other
      exact .inl .failed
    | nil other | cons other => cases fault.unique other
  | cons some list _ ih =>
    cases lists' with
    | unknown => exact .inr .unknown
    | cons other list' lists' =>
      cases some.unique other
      exact (list.agrees list').append (ih lists')
    | nil other | failed other => cases some.unique other

/-- What has been visited of the first list is known of it. -/
theorem Heap.Visits.shows (visits : h.Visits first rest x xs visited) :
    ∃ visited, h.Shows first x visited := by
  induction visits with
  | unknown => exact ⟨_, .unknown⟩
  | failed list => exact ⟨_, .failed list⟩
  | cons list _ ih =>
    obtain ⟨visited, shows⟩ := ih
    exact ⟨_, .cons list shows⟩
  | nil list | broken list | next list => exact ⟨_, .nil list⟩

/-- What has been visited of the other lists is known of them. -/
theorem Heap.Visits.lists (visits : h.Visits first rest x xs visited) : h.ShowsLists rest xs := by
  induction visits with
  | unknown | failed => exact .unknown
  | cons _ _ ih => exact ih
  | nil _ lists => exact .nil lists
  | broken _ lists => exact .failed lists
  | next _ lists more _ ih =>
    obtain ⟨_, shows⟩ := more.shows
    exact .cons lists shows ih

end
end CallByNeed
