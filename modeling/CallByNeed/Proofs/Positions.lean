import CallByNeed.Proofs.Concatenation.Drawing
import CallByNeed.Proofs.Positions.Whole
import CallByNeed.Proofs.Reading.Endings

/- Elements of lists by their place. An element is found, put in or taken out by forcing the tails up
   to its place, one after the other, and nothing else; so a list may fail or go on for ever behind
   it, and what is left there is shared. -/
namespace CallByNeed

/-! ### The way to a place -/

/-- Tails of a list are forced one after the other, with nothing done in between: the heads that are
    passed, and the list found behind them or the fault of the last tail. -/
inductive Engine.Walks (E : Engine) :
    LazyList → List Ref → Except Fault LazyList → Store → World → Store → World → Prop
  | here {l : LazyList} {s : Store} {w : World} : Walks E l [] (.ok l) s w s w
  | broken {head tail : Ref} {e : Fault} {s t : Store} {w w' : World}
      (list : (forceList tail).Leaves E s w (.error e) t w') :
      Walks E (.cons head tail) [head] (.error e) s w t w'
  | next {head tail : Ref} {l : LazyList} {heads : List Ref} {o : Except Fault LazyList}
      {s s₁ t : Store} {w w₁ w' : World} (list : (forceList tail).Leaves E s w (.ok l) s₁ w₁)
      (rest : Walks E l heads o s₁ w₁ t w') : Walks E (.cons head tail) (head :: heads) o s w t w'

/-- So many heads are to be passed. The list may end before. -/
inductive Engine.Passes (E : Engine) (n : ℕ) (l : LazyList) (s : Store) (w : World) :
    Except Fault (List Ref × LazyList) → Store → World → Prop
  | short {heads : List Ref} {t : Store} {w' : World}
      (walks : E.Walks l heads (.ok .nil) s w t w') (few : heads.length < n) :
      Passes E n l s w (.error { cause := .outOfRange }) t w'
  | broken {heads : List Ref} {e : Fault} {t : Store} {w' : World}
      (walks : E.Walks l heads (.error e) s w t w') (few : heads.length ≤ n) :
      Passes E n l s w (.error e) t w'
  | passed {heads : List Ref} {rest : LazyList} {t : Store} {w' : World}
      (walks : E.Walks l heads (.ok rest) s w t w') (all : heads.length = n) :
      Passes E n l s w (.ok (heads, rest)) t w'

/-- The way to a place, counted from 1: the heads before it, and the list whose first cell is there. No
    tail is forced for a place that no list has. -/
inductive Engine.Finds (E : Engine) (l : LazyList) (place : Number) (s : Store) (w : World) :
    Except Fault (List Ref × LazyList) → Store → World → Prop
  | fraction (broken : ∀ i, ¬ place.IsWhole i) :
      Finds E l place s w (.error { cause := .fractionalIndex place }) s w
  | low {i : ℤ} (whole : place.IsWhole i) (low : i < 1) :
      Finds E l place s w (.error { cause := .outOfRange }) s w
  | far {n : ℕ} {o : Except Fault (List Ref × LazyList)} {t : Store} {w' : World}
      (whole : place.IsWhole (n + 1)) (passes : E.Passes n l s w o t w') :
      Finds E l place s w o t w'

/-! ### Elements at places -/

/-- The element at a place, which the list may be too short for. -/
inductive Engine.Indexes (E : Engine) (l : LazyList) (place : Number) (s : Store) (w : World) :
    Except Fault Ref → Store → World → Prop
  | failed {e : Fault} {t : Store} {w' : World} (finds : E.Finds l place s w (.error e) t w') :
      Indexes E l place s w (.error e) t w'
  | short {heads : List Ref} {t : Store} {w' : World}
      (finds : E.Finds l place s w (.ok (heads, .nil)) t w') :
      Indexes E l place s w (.error { cause := .outOfRange }) t w'
  | found {heads : List Ref} {head tail : Ref} {t : Store} {w' : World}
      (finds : E.Finds l place s w (.ok (heads, .cons head tail)) t w') :
      Indexes E l place s w (.ok head) t w'

/-- What follows the elements of a list that has been put together. -/
inductive Remainder where
  | list (l : LazyList)
  /-- The list in this cell, which need not be known. -/
  | cell (r : Ref)

/-- With a new element there are the heads before its place, then the element, then what was there. The
    place behind the last element is one, too. -/
inductive Engine.Inserts (E : Engine) (l : LazyList) (place : Number) (element : Ref) (s : Store)
    (w : World) : Except Fault (List Ref × Remainder) → Store → World → Prop
  | failed {e : Fault} {t : Store} {w' : World} (finds : E.Finds l place s w (.error e) t w') :
      Inserts E l place element s w (.error e) t w'
  | placed {heads : List Ref} {rest : LazyList} {t : Store} {w' : World}
      (finds : E.Finds l place s w (.ok (heads, rest)) t w') :
      Inserts E l place element s w (.ok (heads ++ [element], .list rest)) t w'

/-- What is left of heads and a list without the first cell of the list. With no heads it is all that is
    left, and it is forced; else it is kept as it is. -/
inductive Engine.Closes (E : Engine) (heads : List Ref) : LazyList → Store → World →
    Except Fault (List Ref × Remainder) → Store → World → Prop
  | short {s : Store} {w : World} :
      Closes E heads .nil s w (.error { cause := .outOfRange }) s w
  | forced {head tail : Ref} {o : Except Fault LazyList} {s t : Store} {w w' : World}
      (none : heads = []) (list : (forceList tail).Leaves E s w o t w') :
      Closes E heads (.cons head tail) s w (o.map fun l => ([], .list l)) t w'
  | kept {head tail : Ref} {s : Store} {w : World} (some : heads ≠ []) :
      Closes E heads (.cons head tail) s w (.ok (heads, .cell tail)) s w

/-- Without an element there are the heads before its place, then what follows it. No place is asked
    for in the empty list. -/
inductive Engine.Deletes (E : Engine) (l : LazyList) (place : Number) (s : Store) (w : World) :
    Except Fault (List Ref × Remainder) → Store → World → Prop
  | empty (none : l = .nil) : Deletes E l place s w (.error { cause := .emptyList }) s w
  | failed {e : Fault} {t : Store} {w' : World} (some : l ≠ .nil)
      (finds : E.Finds l place s w (.error e) t w') : Deletes E l place s w (.error e) t w'
  | closed {heads : List Ref} {rest : LazyList} {x : Except Fault (List Ref × Remainder)}
      {s₁ t : Store} {w₁ w' : World} (some : l ≠ .nil)
      (finds : E.Finds l place s w (.ok (heads, rest)) s₁ w₁)
      (closes : E.Closes heads rest s₁ w₁ x t w') : Deletes E l place s w x t w'

/-- The list has these elements, and all its cells up to the last of them are forced. What follows
    is shared. -/
inductive Heap.Consists (h : Heap) : LazyList → List Ref → Remainder → Prop
  | list {l : LazyList} : Consists h l [] (.list l)
  | cell {head tail : Ref} : Consists h (.cons head tail) [head] (.cell tail)
  | next {head made : Ref} {l : LazyList} {heads : List Ref} {rest : Remainder}
      (known : h.state? made = some (.forced (.list l))) (more : Consists h l heads rest) :
      Consists h (.cons head made) (head :: heads) rest

/-- The parts have been put together. -/
inductive Heap.Assembles (h : Heap) :
    Except Fault (List Ref × Remainder) → Except Fault LazyList → Prop
  | fault {e : Fault} : Assembles h (.error e) (.error e)
  | list {l : LazyList} {heads : List Ref} {rest : Remainder} (consists : h.Consists l heads rest) :
      Assembles h (.ok (heads, rest)) (.ok l)

/-- The script finds these parts and puts them together in new cells, changing nothing else. It comes to
    an end exactly if the parts are found. -/
structure Script.Assembles (E : Engine) (m : Script LazyList) (s : Store) (w : World)
    (parts : Except Fault (List Ref × Remainder) → Store → World → Prop) : Prop where
  ends : ∀ x s₁ w', parts x s₁ w' →
    ∃ o t, m.Leaves E s w o t w' ∧ s₁.heap.Enlarges t.heap ∧ t.heap.Assembles x o
  only : ∀ o t w', m.Leaves E s w o t w' →
    ∃ x s₁, parts x s₁ w' ∧ s₁.heap.Enlarges t.heap ∧ t.heap.Assembles x o

section
variable {E : Engine} {l rest : LazyList} {heads : List Ref} {head tail element : Ref} {n : ℕ}
variable {place : Number} {s s₁ t : Store} {w w₁ w' : World}
variable {x : Except Fault (List Ref × LazyList)}

/-! ### Passing heads -/

theorem Engine.Walks.pos_of_error {e : Fault} (walks : E.Walks l heads (.error e) s w t w') :
    0 < heads.length := by
  cases walks <;> simp

theorem Engine.passes_zero_iff :
    E.Passes 0 l s w x t w' ↔ x = .ok ([], l) ∧ t = s ∧ w' = w := by
  constructor
  · intro passes
    cases passes with
    | short _ few => omega
    | broken walks few => exact absurd walks.pos_of_error (by omega)
    | passed walks all =>
      cases walks with
      | here => exact ⟨rfl, rfl, rfl⟩
      | next => simp at all
  · rintro ⟨rfl, rfl, rfl⟩
    exact .passed .here rfl

theorem Engine.passes_nil_iff : E.Passes (n + 1) .nil s w x t w' ↔
    x = .error { cause := .outOfRange } ∧ t = s ∧ w' = w := by
  constructor
  · intro passes
    cases passes with
    | short walks =>
      cases walks
      exact ⟨rfl, rfl, rfl⟩
    | broken walks => cases walks
    | passed walks all =>
      cases walks
      cases all
  · rintro ⟨rfl, rfl, rfl⟩
    exact .short .here (by simp)

/-- A head is passed by forcing the tail behind it. -/
theorem Engine.passes_cons_iff : E.Passes (n + 1) (.cons head tail) s w x t w' ↔
    (∃ l s₁ w₁, (forceList tail).Leaves E s w (.ok l) s₁ w₁ ∧
      ∃ y, E.Passes n l s₁ w₁ y t w' ∧ x = y.map fun p => (head :: p.1, p.2)) ∨
    ∃ e, (forceList tail).Leaves E s w (.error e) t w' ∧ x = .error e := by
  constructor
  · intro passes
    cases passes with
    | short walks few =>
      cases walks with
      | next list walks => exact .inl ⟨_, _, _, list, _, .short walks (by simpa using few), rfl⟩
    | broken walks few =>
      cases walks with
      | broken list => exact .inr ⟨_, list, rfl⟩
      | next list walks => exact .inl ⟨_, _, _, list, _, .broken walks (by simpa using few), rfl⟩
    | passed walks all =>
      cases walks with
      | here => cases all
      | next list walks => exact .inl ⟨_, _, _, list, _, .passed walks (by simpa using all), rfl⟩
  · rintro (⟨l, s₁, w₁, list, y, passes, rfl⟩ | ⟨e, list, rfl⟩)
    · cases passes with
      | short walks few => exact .short (.next list walks) (by simpa using few)
      | broken walks few => exact .broken (.next list walks) (by simpa using few)
      | passed walks all => exact .passed (.next list walks) (by simpa using all)
    · exact .broken (.broken list) (by simp)

/-- To split a list is to pass heads, which are kept in reverse. -/
theorem LazyList.split_leaves_iff {o : Except Fault (List Ref × LazyList)} :
    (l.split n heads).Leaves E s w o t w' ↔ ∃ x, E.Passes n l s w x t w' ∧
      o = x.map fun p => (p.1.reverse ++ heads, p.2) := by
  induction n generalizing l heads s w with
  | zero =>
    rw [LazyList.split, Script.leaves_pure_iff]
    simp only [Engine.passes_zero_iff]
    constructor
    · rintro ⟨rfl, rfl, rfl⟩
      exact ⟨_, ⟨rfl, rfl, rfl⟩, rfl⟩
    · rintro ⟨_, ⟨rfl, rfl, rfl⟩, rfl⟩
      exact ⟨rfl, rfl, rfl⟩
  | succ n ih =>
    cases l with
    | nil =>
      rw [LazyList.split, Script.leaves_fail_iff]
      simp only [Engine.passes_nil_iff]
      constructor
      · rintro ⟨rfl, rfl, rfl⟩
        exact ⟨_, ⟨rfl, rfl, rfl⟩, rfl⟩
      · rintro ⟨_, ⟨rfl, rfl, rfl⟩, rfl⟩
        exact ⟨rfl, rfl, rfl⟩
    | cons head tail =>
      rw [LazyList.split, Script.leaves_bind_iff]
      simp only [Engine.passes_cons_iff, ih]
      constructor
      · rintro (⟨l, s₁, w₁, list, x, passes, rfl⟩ | ⟨e, list, rfl⟩)
        · refine ⟨_, .inl ⟨l, s₁, w₁, list, x, passes, rfl⟩, ?_⟩
          cases x <;> simp [Except.map]
        · exact ⟨_, .inr ⟨e, list, rfl⟩, rfl⟩
      · rintro ⟨_, ⟨l, s₁, w₁, list, x, passes, rfl⟩ | ⟨e, list, rfl⟩, rfl⟩
        · refine .inl ⟨l, s₁, w₁, list, x, passes, ?_⟩
          cases x <;> simp [Except.map]
        · exact .inr ⟨e, list, rfl⟩

/-! ### Places -/

theorem LazyList.position_cases (place : Number) :
    ((∀ i, ¬ place.IsWhole i) ∧ LazyList.position place = fail (.fractionalIndex place)) ∨
    (∃ i, place.IsWhole i ∧ i < 1 ∧ LazyList.position place = fail .outOfRange) ∨
    ∃ n : ℕ, place.IsWhole (n + 1) ∧ LazyList.position place = pure n := by
  simp only [← Number.toInt?_eq_some_iff, LazyList.position]
  cases place.toInt? with
  | none => exact .inl ⟨nofun, rfl⟩
  | some i =>
    by_cases low : i < 1
    · exact .inr (.inl ⟨i, rfl, low, by simp [low]⟩)
    · refine .inr (.inr ⟨i.toNat - 1, ?_, by simp [low]⟩)
      congr 1
      omega

/-- The place decides whether tails are forced at all. -/
theorem LazyList.way_leaves_iff {o : Except Fault (List Ref × LazyList)} :
    (LazyList.position place >>= fun n => l.split n []).Leaves E s w o t w' ↔
      ∃ x, E.Finds l place s w x t w' ∧ o = x.map fun p => (p.1.reverse, p.2) := by
  obtain ⟨broken, same⟩ | ⟨i, whole, low, same⟩ | ⟨n, whole, same⟩ := LazyList.position_cases place
  · rw [same, Script.leaves_fail_bind_iff]
    constructor
    · rintro ⟨rfl, rfl, rfl⟩
      exact ⟨_, .fraction broken, rfl⟩
    · rintro ⟨x, finds, rfl⟩
      cases finds with
      | fraction => exact ⟨rfl, rfl, rfl⟩
      | low whole | far whole => exact absurd whole (broken _)
  · rw [same, Script.leaves_fail_bind_iff]
    constructor
    · rintro ⟨rfl, rfl, rfl⟩
      exact ⟨_, .low whole low, rfl⟩
    · rintro ⟨x, finds, rfl⟩
      cases finds with
      | fraction broken => exact absurd whole (broken _)
      | low => exact ⟨rfl, rfl, rfl⟩
      | far whole' =>
        have places := whole.unique whole'
        omega
  · rw [same, Script.leaves_pure_bind_iff, LazyList.split_leaves_iff]
    simp only [List.append_nil]
    refine exists_congr fun x => and_congr_left fun _ => ⟨.far whole, fun finds => ?_⟩
    cases finds with
    | fraction broken => exact absurd whole (broken _)
    | low whole' low =>
      have places := whole.unique whole'
      omega
    | @far m _ _ _ whole' passes =>
      have places := whole.unique whole'
      obtain rfl : n = m := by omega
      exact passes

/-! ### Finding an element -/

/-- The element where the way to a place has ended. -/
def LazyList.atPlace : LazyList → Script Ref
  | .nil => fail .outOfRange
  | .cons head _ => pure head

/-- To skip heads is to pass them and forget them. -/
theorem LazyList.skip_eq (n : ℕ) (heads : List Ref) (l : LazyList) :
    l.skip n = l.split n heads >>= fun p => p.2.atPlace := by
  induction n generalizing heads l with
  | zero => cases l <;> rfl
  | succ n ih =>
    cases l with
    | nil => rfl
    | cons head tail =>
      rw [LazyList.skip, LazyList.split, bind_assoc]
      exact congrArg (forceList tail >>= ·) (funext fun l => ih (head :: heads) l)

theorem LazyList.index_leaves_iff {o : Except Fault Ref} :
    (l.index place).Leaves E s w o t w' ↔ E.Indexes l place s w o t w' := by
  have way : l.index place =
      (LazyList.position place >>= fun n => l.split n []) >>= fun p => p.2.atPlace := by
    simp only [LazyList.index, bind_assoc, LazyList.skip_eq _ []]
  rw [way, Script.leaves_bind_iff]
  simp only [LazyList.way_leaves_iff]
  constructor
  · rintro (⟨p, s₁, w₁, ⟨x, finds, same⟩, leaves⟩ | ⟨e, ⟨x, finds, same⟩, rfl⟩)
    · cases x with
      | error => cases same
      | ok y =>
        cases same
        obtain ⟨heads, _ | ⟨head, tail⟩⟩ := y
        · obtain ⟨rfl, rfl, rfl⟩ := Script.leaves_fail_iff.1 leaves
          exact .short finds
        · obtain ⟨rfl, rfl, rfl⟩ := Script.leaves_pure_iff.1 leaves
          exact .found finds
    · cases x <;> cases same
      exact .failed finds
  · intro indexes
    cases indexes with
    | failed finds => exact .inr ⟨_, ⟨_, finds, rfl⟩, rfl⟩
    | short finds =>
      exact .inl ⟨_, _, _, ⟨_, finds, rfl⟩, Script.leaves_fail_iff.2 ⟨rfl, rfl, rfl⟩⟩
    | found finds =>
      exact .inl ⟨_, _, _, ⟨_, finds, rfl⟩, Script.leaves_pure_iff.2 ⟨rfl, rfl, rfl⟩⟩

/-! ### Putting lists together -/

theorem Heap.Consists.mono {h h' : Heap} {rest : Remainder} (consists : h.Consists l heads rest)
    (larger : h.Enlarges h') : h'.Consists l heads rest := by
  induction consists with
  | list => exact .list
  | cell => exact .cell
  | next known _ ih => exact .next (larger.extends' _ _ known) ih

/-- Heads are put before what is there, each into a cell of its own. -/
theorem LazyList.comes_pushes (E : Engine) {others : List Ref} {rest : Remainder}
    (consists : s.heap.Consists l others rest) (heads : List Ref) : ∃ l' t,
    (heads.foldlM LazyList.push l : Script LazyList).Comes E s (.ok l') t ∧
      s.heap.Enlarges t.heap ∧ t.heap.Consists l' (heads.reverse ++ others) rest := by
  induction heads generalizing l others s with
  | nil => exact ⟨l, s, .done, s.heap.enlarges_refl, consists⟩
  | cons head heads ih =>
    obtain ⟨tail, t, comes, larger, known⟩ := Script.comes_allocValue E s (.list l)
    obtain ⟨l', u, more, larger', all⟩ := ih (.next known (consists.mono larger))
    have pushed : (LazyList.push l head : Script LazyList).Comes E s (.ok (.cons head tail)) t :=
      comes.bind .done
    refine ⟨l', u, ?_, larger.trans larger', by simpa using all⟩
    rw [List.foldlM_cons]
    exact pushed.bind more

/-- Heads are put before a lazy tail. It is not forced as long as there are any. -/
theorem LazyList.comes_rejoin (E : Engine) {tail : Ref} {others : List Ref} {rest : Remainder}
    (consists : ∀ head, s.heap.Consists (.cons head tail) (head :: others) rest)
    (some : heads ≠ []) : ∃ l t, (LazyList.rejoin heads.reverse tail).Comes E s (.ok l) t ∧
      s.heap.Enlarges t.heap ∧ t.heap.Consists l (heads ++ others) rest := by
  cases reversed : heads.reverse with
  | nil => exact absurd (List.reverse_eq_nil_iff.1 reversed) some
  | cons last init =>
    obtain ⟨l, t, comes, larger, all⟩ := LazyList.comes_pushes E (consists last) init
    have whole : heads = init.reverse ++ [last] := by
      rw [← List.reverse_reverse heads, reversed, List.reverse_cons]
    rw [whole, List.append_assoc]
    exact ⟨l, t, comes, larger, all⟩

/-- What a cell has been forced to already. -/
theorem Script.comes_forceList {r : Ref} (known : s.heap.state? r = some (.forced (.list l))) :
    (forceList r).Comes E s (.ok l) s :=
  Engine.Returns.comes_forceList (o := .ok l) (.found known)

theorem Script.assembles_of_comes {m : Script LazyList} {o : Except Fault LazyList}
    {parts : Except Fault (List Ref × Remainder)} (comes : m.Comes E s o t)
    (larger : s.heap.Enlarges t.heap) (assembles : t.heap.Assembles parts o) (w : World) :
    Script.Assembles E m s w fun x s₁ w' => x = parts ∧ s₁ = s ∧ w' = w := by
  constructor
  · rintro x s₁ w' ⟨rfl, rfl, rfl⟩
    exact ⟨o, t, comes.leaves, larger, assembles⟩
  · intro o' t' w' leaves
    obtain ⟨rfl, rfl, rfl⟩ := comes.leaves_iff.1 leaves
    exact ⟨parts, s, ⟨rfl, rfl, rfl⟩, larger, assembles⟩

theorem Script.Assembles.imp {m : Script LazyList}
    {parts parts' : Except Fault (List Ref × Remainder) → Store → World → Prop}
    (assembles : Script.Assembles E m s w parts)
    (same : ∀ x t w', parts x t w' ↔ parts' x t w') : Script.Assembles E m s w parts' := by
  have equal : parts = parts' := by
    funext x t w'
    exact propext (same x t w')
  exact equal ▸ assembles

/-- What is made of the end of the way to a place, if there is a way. -/
theorem LazyList.assembles_of_way {f : List Ref × LazyList → Script LazyList}
    {parts : List Ref → LazyList → Store → World →
      Except Fault (List Ref × Remainder) → Store → World → Prop}
    (made : ∀ heads rest s₁ w₁,
      Script.Assembles E (f (heads.reverse, rest)) s₁ w₁ (parts heads rest s₁ w₁)) :
    Script.Assembles E ((LazyList.position place >>= fun n => l.split n []) >>= f) s w
      fun x t w' => (∃ heads rest s₁ w₁, E.Finds l place s w (.ok (heads, rest)) s₁ w₁ ∧
        parts heads rest s₁ w₁ x t w') ∨ ∃ e, E.Finds l place s w (.error e) t w' ∧
          x = .error e := by
  constructor
  · rintro x t w' (⟨heads, rest, s₁, w₁, finds, more⟩ | ⟨e, finds, rfl⟩)
    · have way := LazyList.way_leaves_iff.2 ⟨_, finds, rfl⟩
      obtain ⟨o, u, leaves, assembles⟩ := (made heads rest s₁ w₁).ends x t w' more
      exact ⟨o, u, way.bind leaves, assembles⟩
    · have way := LazyList.way_leaves_iff.2 ⟨_, finds, rfl⟩
      exact ⟨_, t, Script.leaves_bind_iff.2 (.inr ⟨e, way, rfl⟩), t.heap.enlarges_refl, .fault⟩
  · intro o t w' leaves
    obtain ⟨p, s₁, w₁, way, more⟩ | ⟨e, way, rfl⟩ := Script.leaves_bind_iff.1 leaves
    · obtain ⟨x, finds, same⟩ := LazyList.way_leaves_iff.1 way
      cases x <;> cases same
      obtain ⟨x, u, parts, assembles⟩ := (made _ _ s₁ w₁).only o t w' more
      exact ⟨x, u, .inl ⟨_, _, s₁, w₁, finds, parts⟩, assembles⟩
    · obtain ⟨x, finds, same⟩ := LazyList.way_leaves_iff.1 way
      cases x <;> cases same
      exact ⟨_, t, .inr ⟨e, finds, rfl⟩, t.heap.enlarges_refl, .fault⟩

/-! ### Putting an element in -/

/-- The new element is put before what is left of the list, and the heads before it. -/
def LazyList.widen (element : Ref) (heads : List Ref) (rest : LazyList) : Script LazyList := do
  let tail ← allocValue (.list rest)
  rejoin heads (← allocValue (.list (.cons element tail)))

theorem LazyList.widen_assembles (E : Engine) (element : Ref) (heads : List Ref)
    (rest : LazyList) (s : Store) (w : World) :
    Script.Assembles E (LazyList.widen element heads.reverse rest) s w fun x t w' =>
      x = .ok (heads ++ [element], .list rest) ∧ t = s ∧ w' = w := by
  obtain ⟨tail, s₁, made, larger, known⟩ := Script.comes_allocValue E s (.list rest)
  obtain ⟨next, s₂, made', larger', known'⟩ :=
    Script.comes_allocValue E s₁ (.list (.cons element tail))
  have shared : s₂.heap.Consists (.cons element tail) [element] (.list rest) :=
    .next (larger'.extends' _ _ known) .list
  by_cases none : heads = []
  · subst none
    have found : (forceList next).Comes E s₂ (.ok (.cons element tail)) s₂ :=
      Engine.Returns.comes_forceList (o := .ok _) (.found known')
    exact Script.assembles_of_comes (made.bind (made'.bind found)) (larger.trans larger')
      (.list shared) w
  · obtain ⟨l, t, comes, larger'', all⟩ :=
      LazyList.comes_rejoin E (fun head => .next known' shared) none
    exact Script.assembles_of_comes (made.bind (made'.bind comes))
      ((larger.trans larger').trans larger'') (.list all) w

theorem LazyList.insert_assembles (E : Engine) (l : LazyList) (place : Number) (element : Ref)
    (s : Store) (w : World) :
    Script.Assembles E (l.insert place element) s w (E.Inserts l place element s w) := by
  have way : l.insert place element = (LazyList.position place >>= fun n => l.split n []) >>=
      fun p => LazyList.widen element p.1 p.2 := by
    rw [bind_assoc]
    rfl
  rw [way]
  refine (LazyList.assembles_of_way (LazyList.widen_assembles E element)).imp fun x t w' => ?_
  constructor
  · rintro (⟨heads, rest, s₁, w₁, finds, rfl, rfl, rfl⟩ | ⟨e, finds, rfl⟩)
    · exact .placed finds
    · exact .failed finds
  · intro inserts
    cases inserts with
    | placed finds => exact .inl ⟨_, _, _, _, finds, rfl, rfl, rfl⟩
    | failed finds => exact .inr ⟨_, finds, rfl⟩

/-! ### Taking an element out -/

/-- The element in between is left out. -/
def LazyList.close (heads : List Ref) : LazyList → Script LazyList
  | .nil => fail .outOfRange
  | .cons _ tail => rejoin heads tail

theorem LazyList.close_assembles (E : Engine) (heads : List Ref) (rest : LazyList) (s : Store)
    (w : World) :
    Script.Assembles E (LazyList.close heads.reverse rest) s w (E.Closes heads rest s w) := by
  cases rest with
  | nil =>
    refine (Script.assembles_of_comes .raise s.heap.enlarges_refl .fault w).imp fun x t w' => ?_
    constructor
    · rintro ⟨rfl, rfl, rfl⟩
      exact .short
    · intro closes
      cases closes
      exact ⟨rfl, rfl, rfl⟩
  | cons head tail =>
    by_cases none : heads = []
    · subst none
      have assembled (h : Heap) (o : Except Fault LazyList) :
          h.Assembles (o.map fun l => ([], .list l)) o := by
        cases o with
        | error e => exact .fault
        | ok l => exact .list .list
      constructor
      · intro x t w' closes
        cases closes with
        | forced _ list => exact ⟨_, t, list, t.heap.enlarges_refl, assembled _ _⟩
        | kept some => exact absurd rfl some
      · exact fun o t w' list => ⟨_, t, .forced rfl list, t.heap.enlarges_refl, assembled _ _⟩
    · obtain ⟨l, t, comes, larger, all⟩ :=
        LazyList.comes_rejoin E (s := s) (fun head => @Heap.Consists.cell s.heap head tail) none
      rw [List.append_nil] at all
      refine (Script.assembles_of_comes comes larger (.list all) w).imp fun x t w' => ?_
      constructor
      · rintro ⟨rfl, rfl, rfl⟩
        exact .kept none
      · intro closes
        cases closes with
        | forced no => exact absurd no none
        | kept => exact ⟨rfl, rfl, rfl⟩

theorem LazyList.delete_assembles (E : Engine) (l : LazyList) (place : Number) (s : Store)
    (w : World) : Script.Assembles E (l.delete place) s w (E.Deletes l place s w) := by
  by_cases none : l = .nil
  · subst none
    refine (Script.assembles_of_comes .raise s.heap.enlarges_refl .fault w).imp fun x t w' => ?_
    constructor
    · rintro ⟨rfl, rfl, rfl⟩
      exact .empty rfl
    · intro deletes
      cases deletes with
      | empty => exact ⟨rfl, rfl, rfl⟩
      | failed some | closed some => exact absurd rfl some
  have way : l.delete place = (LazyList.position place >>= fun n => l.split n []) >>=
      fun p => LazyList.close p.1 p.2 := by
    cases l with
    | nil => exact absurd rfl none
    | cons head tail =>
      rw [bind_assoc]
      rfl
  rw [way]
  refine (LazyList.assembles_of_way (LazyList.close_assembles E)).imp fun x t w' => ?_
  constructor
  · rintro (⟨heads, rest, s₁, w₁, finds, closes⟩ | ⟨e, finds, rfl⟩)
    · exact .closed none finds closes
    · exact .failed none finds
  · intro deletes
    cases deletes with
    | empty no => exact absurd no none
    | failed _ finds => exact .inr ⟨_, finds, rfl⟩
    | closed _ finds closes => exact .inl ⟨_, _, _, _, finds, closes⟩

/-! ### Lists that are known -/

theorem Heap.Consists.whole {h : Heap} {others : List Ref} (consists : h.Consists l heads (.list rest))
    (known : h.Whole rest others) : h.Whole l (heads ++ others) := by
  generalize same : Remainder.list rest = remainder at consists
  induction consists with
  | list =>
    cases same
    exact known
  | cell => cases same
  | next made _ ih => exact .cons made (ih same)

theorem Heap.Consists.whole_cell {h : Heap} {others : List Ref}
    (consists : h.Consists l heads (.cell tail)) (made : h.state? tail = some (.forced (.list rest)))
    (known : h.Whole rest others) : h.Whole l (heads ++ others) := by
  generalize same : Remainder.cell tail = remainder at consists
  induction consists with
  | list => cases same
  | cell =>
    cases same
    exact .cons made known
  | next made _ ih => exact .cons made (ih same)

theorem Heap.Whole.walks (E : Engine) {all : List Ref} (whole : s.heap.Whole l all) (w : World)
    (fits : n ≤ all.length) :
    ∃ rest, E.Walks l (all.take n) (.ok rest) s w s w ∧ s.heap.Whole rest (all.drop n) := by
  induction n generalizing l all with
  | zero => exact ⟨l, .here, whole⟩
  | succ n ih =>
    cases whole with
    | nil => simp at fits
    | cons known whole =>
      obtain ⟨rest, walks, left⟩ := ih whole (by simpa using fits)
      have found := Engine.Returns.comes_forceList (E := E) (o := .ok _) (.found known)
      exact ⟨rest, .next found.leaves walks, left⟩

theorem Heap.Whole.finds (E : Engine) {all : List Ref} (whole : s.heap.Whole l all) (w : World)
    (fits : n ≤ all.length) (place' : place.IsWhole (n + 1)) :
    ∃ rest, E.Finds l place s w (.ok (all.take n, rest)) s w ∧ s.heap.Whole rest (all.drop n) := by
  obtain ⟨rest, walks, left⟩ := whole.walks E w fits
  exact ⟨rest, .far place' (.passed walks (by simpa using fits)), left⟩

/-- In a list that is known to its end, places are those of the list of its elements. -/
theorem Heap.Whole.index (E : Engine) {all : List Ref} (whole : s.heap.Whole l all) (w : World)
    (place' : place.IsWhole (n + 1)) (fits : n < all.length) :
    (l.index place).Leaves E s w (.ok all[n]) s w := by
  obtain ⟨rest, finds, left⟩ := whole.finds E w fits.le place'
  rw [List.drop_eq_getElem_cons fits] at left
  cases left with
  | cons => exact LazyList.index_leaves_iff.2 (.found finds)

theorem Heap.Whole.insert (E : Engine) {all : List Ref} (whole : s.heap.Whole l all) (w : World)
    (place' : place.IsWhole (n + 1)) (fits : n ≤ all.length) (element : Ref) : ∃ l' t,
    (l.insert place element).Leaves E s w (.ok l') t w ∧
      t.heap.Whole l' (all.take n ++ element :: all.drop n) := by
  obtain ⟨rest, finds, left⟩ := whole.finds E w fits place'
  obtain ⟨_, t, leaves, larger, assembles⟩ :=
    (LazyList.insert_assembles E l place element s w).ends _ _ _ (.placed finds)
  cases assembles with
  | list consists =>
    have elements := consists.whole (left.mono larger.extends')
    rw [List.append_assoc, List.singleton_append] at elements
    exact ⟨_, t, leaves, elements⟩

theorem Heap.Whole.delete (E : Engine) {all : List Ref} (whole : s.heap.Whole l all) (w : World)
    (place' : place.IsWhole (n + 1)) (fits : n < all.length) : ∃ l' t,
    (l.delete place).Leaves E s w (.ok l') t w ∧
      t.heap.Whole l' (all.take n ++ all.drop (n + 1)) := by
  obtain ⟨rest, finds, left⟩ := whole.finds E w fits.le place'
  have some : l ≠ .nil := by
    rintro rfl
    cases whole
    simp at fits
  rw [List.drop_eq_getElem_cons fits] at left
  cases left with
  | @cons head tail rest _ known left =>
    by_cases none : all.take n = []
    · have found : (forceList tail).Leaves E s w (.ok rest) s w :=
        (Engine.Returns.comes_forceList (o := .ok rest) (.found known)).leaves
      obtain ⟨_, t, leaves, larger, assembles⟩ := (LazyList.delete_assembles E l place s w).ends _ _ _
        (.closed some finds (.forced none found))
      cases assembles with
      | list consists =>
        rw [none]
        exact ⟨_, t, leaves, consists.whole (left.mono larger.extends')⟩
    · obtain ⟨_, t, leaves, larger, assembles⟩ := (LazyList.delete_assembles E l place s w).ends _ _ _
        (.closed some finds (.kept none))
      cases assembles with
      | list consists =>
        exact ⟨_, t, leaves, consists.whole_cell (larger.extends' _ _ known)
          (left.mono larger.extends')⟩

end

/-- Lists are indexed and changed at places like sequences, and lazily: whatever the number and
    whatever the tails come to, the run is that of the way to the place. -/
theorem lists_are_sequences (E : Engine) (l : LazyList) (place : Number) (element : Ref)
    (s : Store) (w : World) :
    (∀ o t w', (l.index place).Leaves E s w o t w' ↔ E.Indexes l place s w o t w') ∧
    Script.Assembles E (l.insert place element) s w (E.Inserts l place element s w) ∧
    Script.Assembles E (l.delete place) s w (E.Deletes l place s w) ∧
    ({ cause := .fractionalIndex place } : Fault).summary =
      "ValueError: index " ++ place.text ++ " is not an integer" ∧
    ({ cause := .outOfRange } : Fault).summary = "ValueError: index is out of range" ∧
    ({ cause := .emptyList } : Fault).summary = "ValueError: list is empty" :=
  ⟨fun _ _ _ => LazyList.index_leaves_iff, LazyList.insert_assembles E l place element s w,
    LazyList.delete_assembles E l place s w, by
      simp only [Fault.summary, Fault.name, Fault.message, Cause.name, Cause.message,
        String.append_assoc]
      rfl, rfl, rfl⟩

end CallByNeed
