import CallByNeed.Key.OfValue

/- The order on keys is total and transitive, and the keys that it does not tell apart are those whose
   parts are the same, one by one. -/
namespace CallByNeed

namespace Key

/-- Place of the kind of a key among all kinds. -/
def rank : Key → Nat
  | .bool _ => 0
  | .number _ => 1
  | .string _ => 2
  | .list _ => 3
  | .dict _ => 4

mutual
/-- Equality of keys: the same shape, and the same part in each place. -/
def same : Key → Key → Bool
  | .bool a, .bool b => a == b
  | .number a, .number b => a.same b
  | .string a, .string b => a == b
  | .list a, .list b => sameLists a b
  | .dict a, .dict b => sameEntries a b
  | _, _ => false

def sameLists : List Key → List Key → Bool
  | [], [] => true
  | a :: as, b :: bs => a.same b && sameLists as bs
  | _, _ => false

def sameEntries : List (Key × Key) → List (Key × Key) → Bool
  | [], [] => true
  | (k, x) :: as, (l, y) :: bs => k.same l && x.same y && sameEntries as bs
  | _, _ => false
end

theorem compare_of_rank_lt {k l : Key} (less : k.rank < l.rank) : k.compare l = .lt := by
  cases k <;> cases l <;> first | rfl | simp [rank] at less

theorem compare_of_rank_gt {k l : Key} (greater : l.rank < k.rank) : k.compare l = .gt := by
  cases k <;> cases l <;> first | rfl | simp [rank] at greater

/-! ### Keys that are not told apart -/

theorem compare_number_eq_iff {x y : Number} : x.compare y = .eq ↔ x.same y = true := by
  simp [Number.compare, Number.same]

mutual
theorem compare_eq_iff_same : ∀ {k l : Key}, k.compare l = .eq ↔ k.same l = true
  | .bool a, l => by
    cases l <;> simp [compare, same]
  | .number a, l => by
    cases l <;> simp [compare, same, compare_number_eq_iff]
  | .string a, l => by
    cases l <;> simp [compare, same]
  | .list as, l => by
    cases l <;> simp [compare, same, compareLists_eq_iff_same]
  | .dict as, l => by
    cases l <;> simp [compare, same, compareEntries_eq_iff_same]

theorem compareLists_eq_iff_same : ∀ {as bs : List Key},
    compareLists as bs = .eq ↔ sameLists as bs = true
  | [], bs => by cases bs <;> simp [compareLists, sameLists]
  | a :: as, bs => by
    cases bs with
    | nil => simp [compareLists, sameLists]
    | cons b bs =>
      simp [compareLists, sameLists, Ordering.then_eq_eq, compare_eq_iff_same,
        compareLists_eq_iff_same]

theorem compareEntries_eq_iff_same : ∀ {as bs : List (Key × Key)},
    compareEntries as bs = .eq ↔ sameEntries as bs = true
  | [], bs => by cases bs <;> simp [compareEntries, sameEntries]
  | (k, x) :: as, bs => by
    cases bs with
    | nil => simp [compareEntries, sameEntries]
    | cons b bs =>
      simp [compareEntries, sameEntries, Ordering.then_eq_eq, compare_eq_iff_same,
        compareEntries_eq_iff_same]
end

/-! ### Both ways round -/

mutual
theorem compare_swap : ∀ k l : Key, k.compare l = (l.compare k).swap
  | .bool a, l => by
    cases l <;> first | rfl | exact Std.OrientedOrd.eq_swap (a := a)
  | .number a, l => by
    cases l <;> first | rfl | exact Std.OrientedOrd.eq_swap (a := a.rank)
  | .string a, l => by
    cases l <;> first | rfl | exact Std.OrientedOrd.eq_swap (a := a)
  | .list as, l => by
    cases l <;> first | rfl | exact compareLists_swap as _
  | .dict as, l => by
    cases l <;> first | rfl | exact compareEntries_swap as _

theorem compareLists_swap : ∀ as bs : List Key, compareLists as bs = (compareLists bs as).swap
  | [], bs => by cases bs <;> rfl
  | a :: as, bs => by
    cases bs with
    | nil => rfl
    | cons b bs =>
      simp only [compareLists, Ordering.swap_then]
      rw [← compare_swap a b, ← compareLists_swap as bs]

theorem compareEntries_swap : ∀ as bs : List (Key × Key),
    compareEntries as bs = (compareEntries bs as).swap
  | [], bs => by cases bs <;> rfl
  | (k, x) :: as, bs => by
    cases bs with
    | nil => rfl
    | cons b bs =>
      simp only [compareEntries, Ordering.swap_then]
      rw [← compare_swap k b.1, ← compare_swap x b.2, ← compareEntries_swap as bs]
end

/-! ### One after another -/

/-- The first and the third of three compare as the first two do and then the last two, unless one
    of these goes down. -/
def Chain (first second across : Ordering) : Prop :=
  first.isLE → second.isLE → across = first.then second

theorem chain_of_trans {α : Type} (cmp : α → α → Ordering) [Std.TransCmp cmp] (a b c : α) :
    Chain (cmp a b) (cmp b c) (cmp a c) := by
  intro first second
  cases o : cmp a b with
  | lt => exact Std.TransCmp.lt_of_lt_of_isLE o second
  | eq => exact Std.TransCmp.congr_left o
  | gt =>
    rw [o] at first
    cases first

/-- What comes first decides, and what comes later if that does not. -/
theorem Chain.then {o p q o' p' q' : Ordering} (former : Chain o p q) (latter : Chain o' p' q') :
    Chain (o.then o') (p.then p') (q.then q') := by
  cases o <;> cases p <;> cases o' <;> simp_all [Chain]

theorem chain_of_ranks {k l m : Key} (mixed : ¬ (k.rank = l.rank ∧ l.rank = m.rank)) :
    Chain (k.compare l) (l.compare m) (k.compare m) := by
  intro first second
  have left : k.rank ≤ l.rank := by
    refine Nat.not_lt.1 fun more => ?_
    rw [compare_of_rank_gt more] at first
    cases first
  have right : l.rank ≤ m.rank := by
    refine Nat.not_lt.1 fun more => ?_
    rw [compare_of_rank_gt more] at second
    cases second
  rw [compare_of_rank_lt (by omega : k.rank < m.rank)]
  rcases Nat.lt_or_eq_of_le left with less | same
  · rw [compare_of_rank_lt less]
    rfl
  · rw [compare_of_rank_lt (by omega : l.rank < m.rank)]
    cases o : k.compare l with
    | gt =>
      rw [o] at first
      cases first
    | _ => rfl

instance : Std.TransCmp Number.compare where
  eq_swap := Std.OrientedOrd.eq_swap
  isLE_trans := Std.TransOrd.isLE_trans

mutual
theorem chain_compare : ∀ k l m : Key, Chain (k.compare l) (l.compare m) (k.compare m)
  | .bool a, l, m => by
    cases l <;> cases m <;>
      first | exact chain_of_trans Ord.compare a _ _ | exact chain_of_ranks (by simp [rank])
  | .number a, l, m => by
    cases l <;> cases m <;>
      first | exact chain_of_trans Number.compare a _ _ | exact chain_of_ranks (by simp [rank])
  | .string a, l, m => by
    cases l <;> cases m <;>
      first | exact chain_of_trans Ord.compare a _ _ | exact chain_of_ranks (by simp [rank])
  | .list as, l, m => by
    cases l <;> cases m <;>
      first | exact chain_compareLists as _ _ | exact chain_of_ranks (by simp [rank])
  | .dict as, l, m => by
    cases l <;> cases m <;>
      first | exact chain_compareEntries as _ _ | exact chain_of_ranks (by simp [rank])

theorem chain_compareLists : ∀ as bs cs : List Key,
    Chain (compareLists as bs) (compareLists bs cs) (compareLists as cs)
  | [], bs, cs => by cases bs <;> cases cs <;> simp [Chain, compareLists]
  | a :: as, bs, cs => by
    cases bs with
    | nil => simp [Chain, compareLists]
    | cons b bs =>
      cases cs with
      | nil => simp [Chain, compareLists]
      | cons c cs => exact (chain_compare a b c).then (chain_compareLists as bs cs)

theorem chain_compareEntries : ∀ as bs cs : List (Key × Key),
    Chain (compareEntries as bs) (compareEntries bs cs) (compareEntries as cs)
  | [], bs, cs => by cases bs <;> cases cs <;> simp [Chain, compareEntries]
  | (k, x) :: as, bs, cs => by
    cases bs with
    | nil => simp [Chain, compareEntries]
    | cons b bs =>
      cases cs with
      | nil => simp [Chain, compareEntries]
      | cons c cs =>
        have keys := chain_compare k b.1 c.1
        have values := chain_compare x b.2 c.2
        exact (keys.then values).then (chain_compareEntries as bs cs)
end

instance : Std.TransCmp Key.compare where
  eq_swap := compare_swap _ _
  isLE_trans {k l m} first second := by
    rw [chain_compare k l m first second]
    cases o : k.compare l with
    | lt => rfl
    | eq => exact second
    | gt =>
      rw [o] at first
      cases first

/-! ### Keys that are the same -/

theorem same_self (k : Key) : k.same k = true :=
  compare_eq_iff_same.1 Std.ReflCmp.compare_self

theorem same_symm {k l : Key} (same : k.same l) : l.same k :=
  compare_eq_iff_same.1 (Std.OrientedCmp.eq_symm (compare_eq_iff_same.2 same))

theorem same_trans {k l m : Key} (first : k.same l) (second : l.same m) : k.same m :=
  compare_eq_iff_same.1
    (Std.TransCmp.eq_trans (compare_eq_iff_same.2 first) (compare_eq_iff_same.2 second))

end Key

namespace Dict
variable {α : Type}

/-- Without its first key a dictionary is what is behind it. -/
theorem remove_self (k : Key) (x : α) (es : List (Key × α)) : remove k ((k, x) :: es) = es :=
  if_pos Std.ReflCmp.compare_self

theorem listEntries_cons (k : Key) (r : Ref) (es : List (Key × Ref)) :
    listEntries ((k, r) :: es) = (do
      let key ← allocValue (← k.toValue)
      let pair ← allocValue (.list (← LazyList.ofRefs [key, r]))
      pure (.cons pair (← alloc (.ofSuspension (.entries es))))) := by
  simp only [listEntries, remove_self]

end Dict
end CallByNeed
