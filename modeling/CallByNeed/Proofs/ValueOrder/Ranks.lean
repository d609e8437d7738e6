import CallByNeed.Proofs.Keys.Comparing
import CallByNeed.Proofs.Reading.Demands

/- How two values compare, part by part from the front, in a heap in which the parts that decide have
   been forced. Only those parts matter, so the values may have no end, and the order laws hold of
   what is compared without regard to the rest. A comparison that has come to an order has read it,
   and values that are equal have been forced all the way down. -/
namespace CallByNeed

mutual
/-- The parts of two values up to the first difference have been forced, and this is their order. -/
inductive Heap.Ranks (h : Heap) : Value → Value → Ordering → Prop
  | bool (a b : Bool) : Ranks h (.bool a) (.bool b) (Ord.compare a b)
  | number (x y : Number) : Ranks h (.number x) (.number y) (x.compare y)
  | string (s t : String) : Ranks h (.string s) (.string t) (Ord.compare s t)
  | list {l l' : LazyList} {o : Ordering} (elements : RanksLists h l l' o) :
      Ranks h (.list l) (.list l') o
  | dict {d d' : Dict Ref} {o : Ordering} (entries : RanksEntries h d.entries d'.entries o) :
      Ranks h (.dict d) (.dict d') o

inductive Heap.RanksLists (h : Heap) : LazyList → LazyList → Ordering → Prop
  | ended : RanksLists h .nil .nil .eq
  | shorter {y ys : Ref} : RanksLists h .nil (.cons y ys) .lt
  | longer {x xs : Ref} : RanksLists h (.cons x xs) .nil .gt
  | differ {x xs y ys : Ref} {v u : Value} {o : Ordering} (left : h.Yields x v)
      (right : h.Yields y u) (order : Ranks h v u o) (decides : o ≠ .eq) :
      RanksLists h (.cons x xs) (.cons y ys) o
  | same {x xs y ys : Ref} {v u : Value} {l l' : LazyList} {o : Ordering} (left : h.Yields x v)
      (right : h.Yields y u) (order : Ranks h v u .eq) (next : h.Yields xs (.list l))
      (next' : h.Yields ys (.list l')) (rest : RanksLists h l l' o) :
      RanksLists h (.cons x xs) (.cons y ys) o

inductive Heap.RanksEntries (h : Heap) :
    List (Key × Ref) → List (Key × Ref) → Ordering → Prop
  | ended : RanksEntries h [] [] .eq
  | shorter {e : Key × Ref} {es : List (Key × Ref)} : RanksEntries h [] (e :: es) .lt
  | longer {e : Key × Ref} {es : List (Key × Ref)} : RanksEntries h (e :: es) [] .gt
  | keys {k l : Key} {x y : Ref} {es gs : List (Key × Ref)} (decides : k.compare l ≠ .eq) :
      RanksEntries h ((k, x) :: es) ((l, y) :: gs) (k.compare l)
  | differ {k l : Key} {x y : Ref} {es gs : List (Key × Ref)} {v u : Value} {o : Ordering}
      (keys : k.compare l = .eq) (left : h.Yields x v) (right : h.Yields y u)
      (order : Ranks h v u o) (decides : o ≠ .eq) :
      RanksEntries h ((k, x) :: es) ((l, y) :: gs) o
  | same {k l : Key} {x y : Ref} {es gs : List (Key × Ref)} {v u : Value} {o : Ordering}
      (keys : k.compare l = .eq) (left : h.Yields x v) (right : h.Yields y u)
      (order : Ranks h v u .eq) (rest : RanksEntries h es gs o) :
      RanksEntries h ((k, x) :: es) ((l, y) :: gs) o
end

namespace Heap
variable {h h' : Heap}

/-- What has an order can be forced. -/
theorem Ranks.isOrdered {a b : Value} {o : Ordering} (order : h.Ranks a b o) :
    a.isOrdered = true ∧ b.isOrdered = true := by
  cases order <;> exact ⟨rfl, rfl⟩

/-! ### Order laws -/

mutual
theorem Ranks.swap : ∀ {a b : Value} {o : Ordering}, h.Ranks a b o → h.Ranks b a o.swap
  | _, _, _, .bool a b => by
    rw [← Std.OrientedOrd.eq_swap]
    exact .bool b a
  | _, _, _, .number x y => by
    rw [← show y.compare x = (x.compare y).swap from Std.OrientedCmp.eq_swap]
    exact .number y x
  | _, _, _, .string s t => by
    rw [← Std.OrientedOrd.eq_swap]
    exact .string t s
  | _, _, _, .list elements => .list elements.swap
  | _, _, _, .dict entries => .dict entries.swap

theorem RanksLists.swap :
    ∀ {l l' : LazyList} {o : Ordering}, h.RanksLists l l' o → h.RanksLists l' l o.swap
  | _, _, _, .ended => .ended
  | _, _, _, .shorter => .longer
  | _, _, _, .longer => .shorter
  | _, _, _, .differ left right order decides =>
    .differ right left order.swap (by simpa using decides)
  | _, _, _, .same left right order next next' rest =>
    .same right left order.swap next' next rest.swap

theorem RanksEntries.swap : ∀ {es gs : List (Key × Ref)} {o : Ordering},
    h.RanksEntries es gs o → h.RanksEntries gs es o.swap
  | _, _, _, .ended => .ended
  | _, _, _, .shorter => .longer
  | _, _, _, .longer => .shorter
  | _, _, _, @RanksEntries.keys _ k l _ _ _ _ decides => by
    rw [← Key.compare_swap]
    refine .keys fun same => decides ?_
    rw [Key.compare_swap, same]
    rfl
  | _, _, _, .differ keys left right order decides =>
    .differ (Std.OrientedCmp.eq_symm keys) right left order.swap (by simpa using decides)
  | _, _, _, .same keys left right order rest =>
    .same (Std.OrientedCmp.eq_symm keys) right left order.swap rest.swap
end

theorem eq_lt_of_isLE {o : Ordering} (le : o.isLE) (decides : o ≠ .eq) : o = .lt := by
  cases o with
  | lt => rfl
  | eq => exact absurd rfl decides
  | gt => cases le

/-- An earlier part decides both comparisons, or only one of them. -/
theorem then_lt_of_isLE {o : Ordering} (le : o.isLE) : o.then .lt = .lt := by
  cases o with
  | gt => cases le
  | _ => rfl

/-- Where the keys decide, it does not matter what comes after them. -/
theorem RanksEntries.of_keys_lt {k l : Key} {x y : Ref} {es gs : List (Key × Ref)}
    (less : k.compare l = .lt) : h.RanksEntries ((k, x) :: es) ((l, y) :: gs) .lt := by
  rw [← less]
  exact .keys (by simp [less])

mutual
/-- Where neither of two comparisons goes down, what they have forced is enough for the third one. -/
theorem Ranks.trans : ∀ {a b c : Value} {o p : Ordering}, h.Ranks a b o → h.Ranks b c p →
    o.isLE → p.isLE → h.Ranks a c (o.then p)
  | _, _, _, _, _, .bool a b, .bool _ c, first, second => by
    rw [← Key.chain_of_trans Ord.compare a b c first second]
    exact .bool a c
  | _, _, _, _, _, .number x y, .number _ z, first, second => by
    rw [← Key.chain_of_trans Number.compare x y z first second]
    exact .number x z
  | _, _, _, _, _, .string s t, .string _ u, first, second => by
    rw [← Key.chain_of_trans Ord.compare s t u first second]
    exact .string s u
  | _, _, _, _, _, .list elements, .list elements', first, second =>
    .list (elements.trans elements' first second)
  | _, _, _, _, _, .dict entries, .dict entries', first, second =>
    .dict (entries.trans entries' first second)

theorem RanksLists.trans : ∀ {l l' l'' : LazyList} {o p : Ordering}, h.RanksLists l l' o →
    h.RanksLists l' l'' p → o.isLE → p.isLE → h.RanksLists l l'' (o.then p)
  | _, _, _, _, _, .ended, other, _, _ => other
  | _, _, _, _, _, .longer, _, first, _ => by cases first
  | _, _, _, _, _, .shorter, .longer, _, second => by cases second
  | _, _, _, _, _, .shorter, .differ .., _, _ => .shorter
  | _, _, _, _, _, .shorter, .same .., _, _ => .shorter
  | _, _, _, _, _, .differ .., .longer, _, second => by cases second
  | _, _, _, _, _, .same .., .longer, _, second => by cases second
  | _, _, _, _, _, .differ left right order decides, .differ left' right' order' _, first,
      second => by
    cases yields_unique right left'
    refine .differ left right' (order.trans order' first second) ?_
    simp [eq_lt_of_isLE first decides]
  | _, _, _, _, _, .differ left right order decides, .same left' right' order' _ _ _, first, _ => by
    cases yields_unique right left'
    have across := order.trans order' first rfl
    have less := eq_lt_of_isLE first decides
    rw [Ordering.then_eq] at across
    rw [less, Ordering.lt_then, ← less]
    exact .differ left right' across decides
  | _, _, _, _, _, .same left right order _ _ _, .differ left' right' order' decides, first,
      second => by
    cases yields_unique right left'
    cases eq_lt_of_isLE second decides
    rw [then_lt_of_isLE first]
    exact .differ left right' (order.trans order' rfl rfl) nofun
  | _, _, _, _, _, .same left right order next known rest,
      .same left' right' order' known' next' rest', first, second => by
    cases yields_unique right left'
    cases yields_unique known known'
    exact .same left right' (order.trans order' rfl rfl) next next' (rest.trans rest' first second)

theorem RanksEntries.trans : ∀ {es fs gs : List (Key × Ref)} {o p : Ordering},
    h.RanksEntries es fs o → h.RanksEntries fs gs p → o.isLE → p.isLE →
      h.RanksEntries es gs (o.then p)
  | _, _, _, _, _, .ended, other, _, _ => other
  | _, _, _, _, _, .longer, _, first, _ => by cases first
  | _, _, _, _, _, .shorter, .longer, _, second => by cases second
  | _, _, _, _, _, .shorter, .keys _, _, _ => .shorter
  | _, _, _, _, _, .shorter, .differ .., _, _ => .shorter
  | _, _, _, _, _, .shorter, .same .., _, _ => .shorter
  | _, _, _, _, _, .keys _, .longer, _, second => by cases second
  | _, _, _, _, _, .differ .., .longer, _, second => by cases second
  | _, _, _, _, _, .same .., .longer, _, second => by cases second
  | _, _, _, _, _, .keys decides, .keys _, first, second => by
    have less := eq_lt_of_isLE first decides
    rw [less]
    exact .of_keys_lt (Std.TransCmp.lt_of_lt_of_isLE less second)
  | _, _, _, _, _, .keys decides, .differ keys .., first, _ => by
    have less := eq_lt_of_isLE first decides
    rw [less]
    exact .of_keys_lt (Std.TransCmp.lt_of_lt_of_eq less keys)
  | _, _, _, _, _, .keys decides, .same keys .., first, _ => by
    have less := eq_lt_of_isLE first decides
    rw [less]
    exact .of_keys_lt (Std.TransCmp.lt_of_lt_of_eq less keys)
  | _, _, _, _, _, .differ keys .., .keys decides, first, second => by
    have less := eq_lt_of_isLE second decides
    rw [less, then_lt_of_isLE first]
    exact .of_keys_lt (Std.TransCmp.lt_of_eq_of_lt keys less)
  | _, _, _, _, _, .same keys .., .keys decides, first, second => by
    have less := eq_lt_of_isLE second decides
    rw [less, then_lt_of_isLE first]
    exact .of_keys_lt (Std.TransCmp.lt_of_eq_of_lt keys less)
  | _, _, _, _, _, .differ keys left right order decides, .differ keys' left' right' order' _,
      first, second => by
    cases yields_unique right left'
    refine .differ (Std.TransCmp.eq_trans keys keys') left right'
      (order.trans order' first second) ?_
    simp [eq_lt_of_isLE first decides]
  | _, _, _, _, _, .differ keys left right order decides, .same keys' left' right' order' _,
      first, _ => by
    cases yields_unique right left'
    have across := order.trans order' first rfl
    have less := eq_lt_of_isLE first decides
    rw [Ordering.then_eq] at across
    rw [less, Ordering.lt_then, ← less]
    exact .differ (Std.TransCmp.eq_trans keys keys') left right' across decides
  | _, _, _, _, _, .same keys left right order _, .differ keys' left' right' order' decides,
      first, second => by
    cases yields_unique right left'
    cases eq_lt_of_isLE second decides
    rw [then_lt_of_isLE first]
    exact .differ (Std.TransCmp.eq_trans keys keys') left right' (order.trans order' rfl rfl) nofun
  | _, _, _, _, _, .same keys left right order rest, .same keys' left' right' order' rest', first,
      second => by
    cases yields_unique right left'
    exact .same (Std.TransCmp.eq_trans keys keys') left right' (order.trans order' rfl rfl)
      (rest.trans rest' first second)
end

end Heap

/-! ### Comparisons of cells -/

/-- Forces two cells, the left one first, and puts their values together. -/
def Script.ofBoth {α : Type} (f : Value → Value → Script α) (x y : Ref) : Script α := do
  let v ← force x
  f v (← force y)

namespace Script
variable {α : Type} {h h' : Heap} {f : Value → Value → Script α} {x y : Ref} {v u : Value}
variable {o : Except Fault α} {a : α} {e : Fault}

theorem reads_ofBoth (left : h.Yields x v) (right : h.Yields y u) (ordered : v.isOrdered = true)
    (ordered' : u.isOrdered = true) (reads : (f v u).Reads h o) : (ofBoth f x y).Reads h o :=
  (reads_force left ordered).bind ((reads_force right ordered').bind reads)

theorem of_reads_ofBoth (reads : (ofBoth f x y).Reads h (.ok a)) :
    ∃ v u, h.Yields x v ∧ h.Yields y u ∧ (f v u).Reads h (.ok a) := by
  obtain ⟨v, left, rest⟩ | ⟨_, _, no⟩ := reads_bind_iff.1 reads
  · obtain ⟨u, right, rest⟩ | ⟨_, _, no⟩ := reads_bind_iff.1 rest
    · exact ⟨v, u, yields_of_reads_force left, yields_of_reads_force right, rest⟩
    · cases no
  · cases no

end Script

/-- The order of two parts, if they decide. -/
def Ordering.decisive : Ordering → Option Ordering
  | .eq => none
  | o => some o

namespace LazyList
variable {β γ : Type}

/-- Walks two lists side by side and compares their elements until a comparison decides. -/
def compareWith (f : Value → Value → Script β) (decides : β → Option γ) (ended : Ordering → γ)
    (bound : Nat) (l l' : LazyList) : Script γ :=
  l.walkPairs (fun x y => do pure (decides (← Script.ofBoth f x y))) ended bound l'

theorem compareWith_cons (f : Value → Value → Script β) (decides : β → Option γ)
    (ended : Ordering → γ) (bound : Nat) (x xs y ys : Ref) :
    compareWith f decides ended (bound + 1) (.cons x xs) (.cons y ys) = (do
      match decides (← Script.ofBoth f x y) with
      | some answer => pure answer
      | none =>
        let l ← forceList xs
        let l' ← forceList ys
        compareWith f decides ended bound l l') := by
  refine (bind_assoc (Script.ofBoth f x y) _ _).trans (bind_congr fun c => ?_)
  cases decides c <;> rfl

end LazyList

namespace Value

theorem compare_list (n : Nat) (l l' : LazyList) :
    compare (n + 1) (.list l) (.list l') =
      LazyList.compareWith (compare n) Ordering.decisive id n l l' := by
  simp only [compare, LazyList.compareWith, Script.ofBoth, bind_assoc]
  congr
  funext x y
  refine bind_congr fun v => bind_congr fun u => bind_congr fun o => ?_
  cases o <;> rfl

theorem equal_list (n : Nat) (l l' : LazyList) :
    equal (n + 1) (.list l) (.list l') =
      LazyList.compareWith (equal n) (fun same => if same then none else some false) (· == .eq) n
        l l' := by
  simp only [equal, LazyList.compareWith, Script.ofBoth, bind_assoc]
  congr
  funext x y
  refine bind_congr fun v => bind_congr fun u => bind_congr fun same => ?_
  cases same <;> rfl

theorem compareEntries_of_ne {k l : Key} (f : Value → Value → Script Ordering)
    (keys : k.compare l ≠ .eq) (x y : Ref) (es gs : List (Key × Ref)) :
    compareEntries f ((k, x) :: es) ((l, y) :: gs) = pure (k.compare l) := by
  simp only [compareEntries]

theorem compareEntries_of_eq {k l : Key} (f : Value → Value → Script Ordering)
    (keys : k.compare l = .eq) (x y : Ref) (es gs : List (Key × Ref)) :
    compareEntries f ((k, x) :: es) ((l, y) :: gs) = (do
      match ← Script.ofBoth f x y with
      | .eq => compareEntries f es gs
      | o => pure o) := by
  simp only [compareEntries, keys]
  refine Eq.symm ((bind_assoc (force x) _ _).trans (bind_congr fun v => ?_))
  refine (bind_assoc (force y) _ _).trans (bind_congr fun u => bind_congr fun o => ?_)
  cases o <;> rfl

theorem equalEntries_of_eq {k l : Key} (f : Value → Value → Script Bool)
    (keys : k.compare l = .eq) (x y : Ref) (es gs : List (Key × Ref)) :
    equalEntries f ((k, x) :: es) ((l, y) :: gs) = (do
      if ← Script.ofBoth f x y then equalEntries f es gs else pure false) := by
  simp only [equalEntries, Script.ofBoth, bind_assoc, keys, if_true]

end Value

/-! ### What comparisons read -/

namespace Heap
variable {h h' : Heap}

mutual
/-- Any bound that is large enough shows the order. -/
theorem Ranks.reads : ∀ {a b : Value} {o : Ordering}, h.Ranks a b o →
    ∃ k, ∀ n, k ≤ n → (Value.compare n a b).Reads h (.ok o)
  | _, _, _, .bool a b => exists_bound_succ ⟨0, fun _ _ => .done⟩
  | _, _, _, .number x y => exists_bound_succ ⟨0, fun _ _ => .done⟩
  | _, _, _, .string s t => exists_bound_succ ⟨0, fun _ _ => .done⟩
  | _, _, _, .list elements => by
    obtain ⟨k, reads⟩ := elements.reads
    refine exists_bound_succ ⟨k, fun n enough => ?_⟩
    rw [Value.compare_list]
    exact reads n n enough enough
  | _, _, _, .dict entries => by
    obtain ⟨k, reads⟩ := entries.reads
    exact exists_bound_succ ⟨k, reads⟩

theorem RanksLists.reads : ∀ {l l' : LazyList} {o : Ordering}, h.RanksLists l l' o →
    ∃ k, ∀ n bound, k ≤ n → k ≤ bound →
      (LazyList.compareWith (Value.compare n) Ordering.decisive id bound l l').Reads h (.ok o)
  | _, _, _, .ended => exists_bounds_succ ⟨0, fun _ _ _ _ => .done⟩
  | _, _, _, .shorter => exists_bounds_succ ⟨0, fun _ _ _ _ => .done⟩
  | _, _, _, .longer => exists_bounds_succ ⟨0, fun _ _ _ _ => .done⟩
  | _, _, o, .differ left right order decides => by
    obtain ⟨k, reads⟩ := order.reads
    refine exists_bounds_succ ⟨k, fun n bound enough _ => ?_⟩
    rw [LazyList.compareWith_cons]
    refine (Script.reads_ofBoth left right order.isOrdered.1 order.isOrdered.2
      (reads n enough)).bind ?_
    cases o with
    | eq => exact absurd rfl decides
    | _ => exact .done
  | _, _, _, .same left right order next next' rest => by
    obtain ⟨k, reads⟩ := order.reads
    obtain ⟨k', reads'⟩ := rest.reads
    refine exists_bounds_succ ⟨max k k', fun n bound enough long => ?_⟩
    rw [LazyList.compareWith_cons]
    refine (Script.reads_ofBoth left right order.isOrdered.1 order.isOrdered.2
      (reads n (by omega))).bind ?_
    refine (Script.reads_forceList next).bind ((Script.reads_forceList next').bind ?_)
    exact reads' n bound (by omega) (by omega)

theorem RanksEntries.reads : ∀ {es gs : List (Key × Ref)} {o : Ordering}, h.RanksEntries es gs o →
    ∃ k, ∀ n, k ≤ n → (Value.compareEntries (Value.compare n) es gs).Reads h (.ok o)
  | _, _, _, .ended => ⟨0, fun _ _ => .done⟩
  | _, _, _, .shorter => ⟨0, fun _ _ => .done⟩
  | _, _, _, .longer => ⟨0, fun _ _ => .done⟩
  | _, _, _, .keys decides => by
    refine ⟨0, fun n _ => ?_⟩
    rw [Value.compareEntries_of_ne _ decides]
    exact .done
  | _, _, o, .differ keys left right order decides => by
    obtain ⟨k, reads⟩ := order.reads
    refine ⟨k, fun n enough => ?_⟩
    rw [Value.compareEntries_of_eq _ keys]
    refine (Script.reads_ofBoth left right order.isOrdered.1 order.isOrdered.2
      (reads n enough)).bind ?_
    cases o with
    | eq => exact absurd rfl decides
    | _ => exact .done
  | _, _, _, .same keys left right order rest => by
    obtain ⟨k, reads⟩ := order.reads
    obtain ⟨k', reads'⟩ := rest.reads
    refine ⟨max k k', fun n enough => ?_⟩
    rw [Value.compareEntries_of_eq _ keys]
    refine (Script.reads_ofBoth left right order.isOrdered.1 order.isOrdered.2
      (reads n (by omega))).bind ?_
    exact reads' n (by omega)
end

theorem ranksLists_of_reads {f : Value → Value → Script Ordering}
    (each : ∀ {v u o}, (f v u).Reads h (.ok o) → h.Ranks v u o) {bound : Nat} {l l' : LazyList}
    {o : Ordering}
    (reads : (LazyList.compareWith f Ordering.decisive id bound l l').Reads h (.ok o)) :
    h.RanksLists l l' o := by
  induction bound generalizing l l' with
  | zero => cases reads
  | succ bound ih =>
    cases l with
    | nil => cases l' <;> cases reads <;> constructor
    | cons x xs =>
      cases l' with
      | nil =>
        cases reads
        exact .longer
      | cons y ys =>
        rw [LazyList.compareWith_cons] at reads
        obtain ⟨p, first, rest⟩ | ⟨_, _, no⟩ := Script.reads_bind_iff.1 reads
        · obtain ⟨v, u, left, right, compared⟩ := Script.of_reads_ofBoth first
          cases p with
          | eq =>
            obtain ⟨l, next, rest⟩ | ⟨_, _, no⟩ := Script.reads_bind_iff.1 rest
            · obtain ⟨l', next', rest⟩ | ⟨_, _, no⟩ := Script.reads_bind_iff.1 rest
              · exact .same left right (each compared) (Script.yields_of_reads_forceList next)
                  (Script.yields_of_reads_forceList next') (ih rest)
              · cases no
            · cases no
          | _ =>
            cases rest
            exact .differ left right (each compared) nofun
        · cases no

theorem ranksEntries_of_reads {f : Value → Value → Script Ordering}
    (each : ∀ {v u o}, (f v u).Reads h (.ok o) → h.Ranks v u o) {es gs : List (Key × Ref)}
    {o : Ordering} (reads : (Value.compareEntries f es gs).Reads h (.ok o)) :
    h.RanksEntries es gs o := by
  induction es generalizing gs with
  | nil => cases gs <;> cases reads <;> constructor
  | cons e es ih =>
    cases gs with
    | nil =>
      cases reads
      exact .longer
    | cons g gs =>
      by_cases keys : e.1.compare g.1 = .eq
      · rw [Value.compareEntries_of_eq f keys] at reads
        obtain ⟨p, first, rest⟩ | ⟨_, _, no⟩ := Script.reads_bind_iff.1 reads
        · obtain ⟨v, u, left, right, compared⟩ := Script.of_reads_ofBoth first
          cases p with
          | eq => exact .same keys left right (each compared) (ih rest)
          | _ =>
            cases rest
            exact .differ keys left right (each compared) nofun
        · cases no
      · rw [Value.compareEntries_of_ne f keys] at reads
        cases reads
        exact .keys keys

/-- What a comparison has read is the order. -/
theorem ranks_of_reads {n : Nat} {a b : Value} {o : Ordering}
    (reads : (Value.compare n a b).Reads h (.ok o)) : h.Ranks a b o := by
  induction n generalizing a b o with
  | zero => cases reads
  | succ n ih =>
    cases a with
    | bool x =>
      cases b with
      | bool y =>
        cases reads
        exact .bool x y
      | _ => cases reads
    | number x =>
      cases b with
      | number y =>
        cases reads
        exact .number x y
      | _ => cases reads
    | string s =>
      cases b with
      | string t =>
        cases reads
        exact .string s t
      | _ => cases reads
    | list l =>
      cases b with
      | list l' =>
        rw [Value.compare_list] at reads
        exact .list (ranksLists_of_reads ih reads)
      | _ => cases reads
    | dict d =>
      cases b with
      | dict d' => exact .dict (ranksEntries_of_reads ih reads)
      | _ => cases reads
    | _ => cases b <;> cases reads

/-! ### Equality -/

/-- The values are equal, and as much of them as it takes to see it has been forced. -/
def Equals (h : Heap) (v u : Value) : Prop := ∃ n, (Value.equal n v u).Reads h (.ok true)

theorem ranksLists_of_reads_equal {f : Value → Value → Script Bool}
    (each : ∀ {v u}, (f v u).Reads h (.ok true) → h.Ranks v u .eq) {bound : Nat} {l l' : LazyList}
    (reads : (LazyList.compareWith f (fun same => if same then none else some false) (· == .eq) bound
      l l').Reads h (.ok true)) : h.RanksLists l l' .eq := by
  induction bound generalizing l l' with
  | zero => cases reads
  | succ bound ih =>
    cases l with
    | nil =>
      cases l' with
      | nil => exact .ended
      | cons y ys => cases reads
    | cons x xs =>
      cases l' with
      | nil => cases reads
      | cons y ys =>
        rw [LazyList.compareWith_cons] at reads
        obtain ⟨same, first, rest⟩ | ⟨_, _, no⟩ := Script.reads_bind_iff.1 reads
        · obtain ⟨v, u, left, right, compared⟩ := Script.of_reads_ofBoth first
          cases same with
          | true =>
            obtain ⟨l, next, rest⟩ | ⟨_, _, no⟩ := Script.reads_bind_iff.1 rest
            · obtain ⟨l', next', rest⟩ | ⟨_, _, no⟩ := Script.reads_bind_iff.1 rest
              · exact .same left right (each compared) (Script.yields_of_reads_forceList next)
                  (Script.yields_of_reads_forceList next') (ih rest)
              · cases no
            · cases no
          | false => cases rest
        · cases no

theorem ranksEntries_of_reads_equal {f : Value → Value → Script Bool}
    (each : ∀ {v u}, (f v u).Reads h (.ok true) → h.Ranks v u .eq) {es gs : List (Key × Ref)}
    (long : es.length = gs.length) (reads : (Value.equalEntries f es gs).Reads h (.ok true)) :
    h.RanksEntries es gs .eq := by
  induction es generalizing gs with
  | nil =>
    cases gs with
    | nil => exact .ended
    | cons g gs => cases long
  | cons e es ih =>
    cases gs with
    | nil => cases long
    | cons g gs =>
      by_cases keys : e.1.compare g.1 = .eq
      · rw [Value.equalEntries_of_eq f keys] at reads
        obtain ⟨same, first, rest⟩ | ⟨_, _, no⟩ := Script.reads_bind_iff.1 reads
        · obtain ⟨v, u, left, right, compared⟩ := Script.of_reads_ofBoth first
          cases same with
          | true => exact .same keys left right (each compared) (ih (Nat.succ.inj long) rest)
          | false => cases rest
        · cases no
      · simp only [Value.equalEntries, keys, if_false] at reads
        cases reads

/-- Parts whose keys are the same do not decide. -/
theorem Ranks.eq_of_same {a b : Value} {k l : Key} (order : h.Ranks a b (k.compare l))
    (same : k.same l) : h.Ranks a b .eq := by
  rwa [Key.compare_eq_iff_same.2 same] at order

theorem ranks_of_reads_equal {n : Nat} {a b : Value} (reads : (Value.equal n a b).Reads h (.ok true)) :
    h.Ranks a b .eq := by
  induction n generalizing a b with
  | zero => cases reads
  | succ n ih =>
    cases a with
    | bool x =>
      cases b with
      | bool y =>
        have same := (Except.ok.inj (reads.unique .done)).symm
        exact Ranks.eq_of_same (k := .bool x) (l := .bool y) (.bool x y) same
      | _ => cases reads
    | number x =>
      cases b with
      | number y =>
        have same := (Except.ok.inj (reads.unique .done)).symm
        exact Ranks.eq_of_same (k := .number x) (l := .number y) (.number x y) same
      | _ => cases reads
    | string s =>
      cases b with
      | string t =>
        have same := (Except.ok.inj (reads.unique .done)).symm
        exact Ranks.eq_of_same (k := .string s) (l := .string t) (.string s t) same
      | _ => cases reads
    | list l =>
      cases b with
      | list l' =>
        rw [Value.equal_list] at reads
        exact .list (ranksLists_of_reads_equal ih reads)
      | _ => cases reads
    | dict d =>
      cases b with
      | dict d' =>
        simp only [Value.equal] at reads
        split at reads
        · next size => exact .dict (ranksEntries_of_reads_equal ih size reads)
        · cases reads
      | _ => cases reads
    | _ => cases b <;> cases reads

mutual
/-- Values that are equal have been forced all the way down, to keys that are the same. -/
theorem Ranks.trees : ∀ {a b : Value} {o : Ordering}, h.Ranks a b o → o = .eq →
    ∃ k l, h.Tree a k ∧ h.Tree b l ∧ k.same l
  | _, _, _, .bool a b, same => ⟨_, _, .bool a, .bool b, Key.compare_eq_iff_same.1 same⟩
  | _, _, _, .number x y, same => ⟨_, _, .number x, .number y, Key.compare_eq_iff_same.1 same⟩
  | _, _, _, .string s t, same => ⟨_, _, .string s, .string t, Key.compare_eq_iff_same.1 same⟩
  | _, _, _, .list elements, same => by
    obtain ⟨ks, ls, left, right, same⟩ := elements.trees same
    exact ⟨_, _, .list left, .list right, same⟩
  | _, _, _, .dict entries, same => by
    obtain ⟨es, gs, left, right, same⟩ := entries.trees same
    exact ⟨_, _, .dict left, .dict right, same⟩

theorem RanksLists.trees : ∀ {l l' : LazyList} {o : Ordering}, h.RanksLists l l' o → o = .eq →
    ∃ ks ls, h.Trees l ks ∧ h.Trees l' ls ∧ Key.sameLists ks ls
  | _, _, _, .ended, _ => ⟨[], [], .nil, .nil, rfl⟩
  | _, _, _, .differ _ _ _ decides, same => absurd same decides
  | _, _, _, .same left right order next next' rest, same => by
    obtain ⟨k, l, tree, tree', first⟩ := order.trees rfl
    obtain ⟨ks, ls, elements, elements', others⟩ := rest.trees same
    refine ⟨_, _, .cons left tree next elements, .cons right tree' next' elements', ?_⟩
    simp [Key.sameLists, first, others]

theorem RanksEntries.trees : ∀ {es gs : List (Key × Ref)} {o : Ordering}, h.RanksEntries es gs o →
    o = .eq → ∃ ks ls, h.Entries es ks ∧ h.Entries gs ls ∧ Key.sameEntries ks ls
  | _, _, _, .ended, _ => ⟨[], [], .nil, .nil, rfl⟩
  | _, _, _, .keys decides, same => absurd same decides
  | _, _, _, .differ _ _ _ _ decides, same => absurd same decides
  | _, _, _, .same keys left right order rest, same => by
    obtain ⟨k, l, tree, tree', first⟩ := order.trees rfl
    obtain ⟨ks, ls, entries, entries', others⟩ := rest.trees same
    refine ⟨_, _, .cons left tree entries, .cons right tree' entries', ?_⟩
    simp [Key.sameEntries, Key.compare_eq_iff_same.1 keys, first, others]
end

/-- Equality is what the order calls equal. -/
theorem equals_iff_ranks {v u : Value} : h.Equals v u ↔ h.Ranks v u .eq := by
  constructor
  · rintro ⟨n, reads⟩
    exact ranks_of_reads_equal reads
  · intro order
    obtain ⟨k, l, tree, tree', same⟩ := order.trees rfl
    exact ⟨k.size, by simpa only [same] using tree.reads_equal tree' (Nat.le_refl k.size)⟩

theorem Equals.symm {v u : Value} (equal : h.Equals v u) : h.Equals u v :=
  equals_iff_ranks.2 (equals_iff_ranks.1 equal).swap

theorem Equals.trans {v u w : Value} (first : h.Equals v u) (second : h.Equals u w) :
    h.Equals v w :=
  equals_iff_ranks.2 ((equals_iff_ranks.1 first).trans (equals_iff_ranks.1 second) rfl rfl)

/-- Only values of one type have an order. -/
theorem Ranks.type_eq {v u : Value} {o : Ordering} (order : h.Ranks v u o) : u.type = v.type := by
  cases order <;> rfl

/-- Some run that has ended has found the values equal. -/
def Equated (h : Heap) (v u : Value) : Prop :=
  ∃ n E s w t w', (Value.equal n v u).Leaves E s w (.ok true) t w' ∧ t.heap.Before h

theorem equated_iff {v u : Value} : h.Equated v u ↔ h.Equals v u := by
  constructor
  · rintro ⟨n, E, s, w, t, w', leaves, before⟩
    exact ⟨n, ((Value.isReader_equal n v u).reads_of_leaves leaves).2.before before⟩
  · rintro ⟨n, reads⟩
    exact ⟨n, { bound := n }, { heap := h }, {}, { heap := h }, {}, reads.leaves, h.before_refl⟩

/-- The keys of trees decide whether they are equal. -/
theorem Tree.equals_iff {v u : Value} {k l : Key} (tree : h.Tree v k) (tree' : h.Tree u l) :
    h.Equals v u ↔ k.compare l = .eq := by
  rw [Key.compare_eq_iff_same]
  constructor
  · rintro ⟨n, reads⟩
    obtain ⟨_, _, left, right, same⟩ := (equals_iff_ranks.1 ⟨n, reads⟩).trees rfl
    cases left.unique tree
    cases right.unique tree'
    exact same
  · intro same
    exact ⟨k.size, by simpa only [same] using tree.reads_equal tree' (Nat.le_refl k.size)⟩

end Heap

end CallByNeed
