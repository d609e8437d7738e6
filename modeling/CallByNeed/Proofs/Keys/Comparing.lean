import CallByNeed.Proofs.Keys.Order
import CallByNeed.Proofs.Keys.Trees
import CallByNeed.Value.Comparison

/- Order and equality of values that are finite trees. Equality of two trees is equality of their keys.
   Order is the order of the keys, unless the first difference is between values of two types: then
   there is a fault and no order. -/
namespace CallByNeed

namespace Key

def type : Key → ValueType
  | .bool _ => .bool
  | .number _ => .number
  | .string _ => .string
  | .list _ => .list
  | .dict _ => .dict

mutual
/-- At the first place where the keys differ, one has a part of the first type and the other one a
    part of another, second type. -/
inductive Mixed : Key → Key → ValueType → ValueType → Prop
  | here {k l : Key} (apart : k.type ≠ l.type) : Mixed k l k.type l.type
  | list {ks ls : List Key} {t u : ValueType} (mixed : MixedLists ks ls t u) :
      Mixed (.list ks) (.list ls) t u
  | dict {es fs : List (Key × Key)} {t u : ValueType} (mixed : MixedEntries es fs t u) :
      Mixed (.dict es) (.dict fs) t u

inductive MixedLists : List Key → List Key → ValueType → ValueType → Prop
  | head {k l : Key} {ks ls : List Key} {t u : ValueType} (mixed : Mixed k l t u) :
      MixedLists (k :: ks) (l :: ls) t u
  | tail {k l : Key} {ks ls : List Key} {t u : ValueType} (same : k.same l = true)
      (mixed : MixedLists ks ls t u) : MixedLists (k :: ks) (l :: ls) t u

/-- The keys of the entries can always be ordered; it is a value under equal keys that may be
    mixed. -/
inductive MixedEntries : List (Key × Key) → List (Key × Key) → ValueType → ValueType → Prop
  | value {k l x y : Key} {es fs : List (Key × Key)} {t u : ValueType} (same : k.same l = true)
      (mixed : Mixed x y t u) : MixedEntries ((k, x) :: es) ((l, y) :: fs) t u
  | later {k l x y : Key} {es fs : List (Key × Key)} {t u : ValueType} (same : k.same l = true)
      (equal : x.same y = true) (mixed : MixedEntries es fs t u) :
      MixedEntries ((k, x) :: es) ((l, y) :: fs) t u
end

mutual
theorem Mixed.not_same : ∀ {k l : Key} {t u : ValueType}, Mixed k l t u → k.same l = false
  | k, l, _, _, .here apart => by
    cases k <;> cases l <;> first | rfl | exact absurd rfl apart
  | _, _, _, _, .list mixed => mixed.not_sameLists
  | _, _, _, _, .dict mixed => mixed.not_sameEntries

theorem MixedLists.not_sameLists : ∀ {ks ls : List Key} {t u : ValueType}, MixedLists ks ls t u →
    sameLists ks ls = false
  | _, _, _, _, .head mixed => by simp [sameLists, mixed.not_same]
  | _, _, _, _, .tail _ mixed => by simp [sameLists, mixed.not_sameLists]

theorem MixedEntries.not_sameEntries : ∀ {es fs : List (Key × Key)} {t u : ValueType},
    MixedEntries es fs t u → sameEntries es fs = false
  | _, _, _, _, .value _ mixed => by simp [sameEntries, mixed.not_same]
  | _, _, _, _, .later _ _ mixed => by simp [sameEntries, mixed.not_sameEntries]
end

theorem sameEntries_of_length {es fs : List (Key × Key)} (apart : es.length ≠ fs.length) :
    sameEntries es fs = false := by
  induction es generalizing fs with
  | nil =>
    cases fs with
    | nil => exact absurd rfl apart
    | cons f fs => rfl
  | cons e es ih =>
    cases fs with
    | nil => rfl
    | cons f fs =>
      have rest : sameEntries es fs = false := ih (by simpa using apart)
      simp [sameEntries, rest]

/-- What the comparison of two trees may come to: the order of the keys, or a fault if the first
    difference is between values of two types. -/
inductive Compares (mixed : ValueType → ValueType → Prop) (order : Ordering) :
    Except Fault Ordering → Prop
  | ordered : Compares mixed order (.ok order)
  | fault {t u : ValueType} (found : mixed t u) :
      Compares mixed order (.error { cause := .mixedComparison t u })

theorem Compares.imp {mixed mixed' : ValueType → ValueType → Prop} {order order' : Ordering}
    {o : Except Fault Ordering} (compares : Compares mixed order o)
    (weaker : ∀ t u, mixed t u → mixed' t u) (same : order = order') : Compares mixed' order' o := by
  cases compares with
  | ordered => exact same ▸ .ordered
  | fault found => exact .fault (weaker _ _ found)

end Key

namespace Heap
variable {h : Heap}

theorem Entries.length_eq {rs : List (Key × Ref)} {es : List (Key × Key)}
    (entries : h.Entries rs es) : rs.length = es.length := by
  simpa using congrArg List.length entries.keys_eq

theorem Tree.type {v : Value} {k : Key} (tree : h.Tree v k) : v.type = k.type := by
  cases tree <;> rfl

/-! ### Equality -/

mutual
theorem Tree.reads_equal : ∀ {v w : Value} {k l : Key}, h.Tree v k → h.Tree w l → ∀ {n : Nat},
    k.size ≤ n → (Value.equal n v w).Reads h (.ok (k.same l))
  | _, _, k, _, _, _, 0, enough => absurd enough (Nat.not_le.2 k.size_pos)
  | _, _, _, _, .bool a, other, n + 1, _ => by cases other <;> exact .done
  | _, _, _, _, .number x, other, n + 1, _ => by cases other <;> exact .done
  | _, _, _, _, .string s, other, n + 1, _ => by cases other <;> exact .done
  | _, _, _, _, @Tree.list _ l ks elements, other, n + 1, enough => by
    cases other with
    | list elements' =>
      have enough := Nat.le_of_succ_le_succ enough
      exact elements.reads_equal elements' enough
        (Nat.lt_of_lt_of_le (Key.length_lt_sizes ks) enough)
    | _ => exact .done
  | _, _, _, _, .dict entries, other, n + 1, enough => by
    cases other with
    | dict entries' =>
      simp only [Value.equal, Dict.size, entries.length_eq, entries'.length_eq]
      split
      · next count =>
        exact entries.reads_equal entries' count (Nat.le_of_succ_le_succ enough)
      · next count =>
        rw [Key.same, Key.sameEntries_of_length count]
        exact .done
    | _ => exact .done

theorem Trees.reads_equal : ∀ {l l' : LazyList} {ks ls : List Key}, h.Trees l ks →
    h.Trees l' ls → ∀ {n bound : Nat}, Key.sizes ks ≤ n → ks.length < bound →
      (l.walkPairs (fun x y => do
        let x ← force x
        if ← Value.equal n x (← force y) then pure none else pure (some false))
        (· == .eq) bound l').Reads h (.ok (Key.sameLists ks ls))
  | _, _, _, _, _, _, _, 0, _, long => absurd long (Nat.not_lt_zero _)
  | _, _, _, _, .nil, other, n, bound + 1, _, _ => by cases other <;> exact .done
  | _, _, _, _, @Trees.cons _ x _ _ k _ ks yields tree known elements, other, n, bound + 1,
      enough, long => by
    cases other with
    | nil => exact .done
    | @cons y _ _ l _ ls yields' tree' known' elements' =>
      simp only [Key.sizes] at enough
      simp only [List.length_cons] at long
      have compared := tree.reads_equal tree' (n := n) (by omega)
      have rest := elements.reads_equal elements' (n := n) (Nat.le_trans (by omega) enough)
        (Nat.lt_of_succ_lt_succ long)
      have visit : (do
          let x ← force x
          if ← Value.equal n x (← force y) then pure none
          else pure (some false) : Script (Option Bool)).Reads h
          (.ok (if k.same l then none else some false)) := by
        refine (Script.reads_force yields tree.isOrdered).bind ?_
        refine (Script.reads_force yields' tree'.isOrdered).bind (compared.bind ?_)
        split <;> exact .done
      refine visit.bind ?_
      cases same : k.same l with
      | true =>
        simp only [Key.sameLists, same, Bool.true_and]
        exact (Script.reads_forceList known).bind ((Script.reads_forceList known').bind rest)
      | false =>
        simp only [Key.sameLists, same, Bool.false_and]
        exact .done

theorem Entries.reads_equal : ∀ {rs rs' : List (Key × Ref)} {es fs : List (Key × Key)},
    h.Entries rs es → h.Entries rs' fs → es.length = fs.length → ∀ {n : Nat},
      Key.entrySizes es ≤ n →
      (Value.equalEntries (Value.equal n) rs rs').Reads h (.ok (Key.sameEntries es fs))
  | _, _, _, _, .nil, other, count, _, _ => by
    cases other with
    | nil => exact .done
    | cons => cases count
  | _, _, _, _, @Entries.cons _ k x _ _ _ es yields tree entries, other, count, n, enough => by
    cases other with
    | nil => cases count
    | @cons l y _ _ _ fs yields' tree' entries' =>
      simp only [Key.entrySizes] at enough
      have compared := tree.reads_equal tree' (n := n) (by omega)
      have rest := entries.reads_equal entries' (Nat.succ.inj count) (n := n) (by omega)
      simp only [Value.equalEntries, Key.compare_eq_iff_same]
      cases keys : k.same l with
      | false =>
        simp only [Key.sameEntries, keys, Bool.false_and]
        exact .done
      | true =>
        refine (Script.reads_force yields tree.isOrdered).bind ?_
        refine (Script.reads_force yields' tree'.isOrdered).bind (compared.bind ?_)
        cases values : x.same y with
        | true => simpa [Key.sameEntries, keys, values] using rest
        | false =>
          simp only [Key.sameEntries, keys, values, Bool.and_false, Bool.false_and]
          exact .done
end

/-! ### Order -/

/-- A comparison of two parts decides unless they are equal; then what comes behind them does. -/
theorem reads_compare_step {v w : Value} {k l : Key} {x y : Ref} {n : Nat} {β : Type}
    {g : Ordering → Script β} {P : Except Fault β → Prop} (tree : h.Tree v k) (tree' : h.Tree w l)
    (yields : h.Yields x v) (yields' : h.Yields y w)
    (compared : ∃ o, (Value.compare n v w).Reads h o ∧ Key.Compares (k.Mixed l) (k.compare l) o)
    (ordered : ∃ o, (g (k.compare l)).Reads h o ∧ P o)
    (fault : ∀ t u, k.Mixed l t u → P (.error { cause := .mixedComparison t u })) :
    ∃ o, (do
      let v ← force x
      g (← Value.compare n v (← force y))).Reads h o ∧ P o := by
  obtain ⟨o, reads, compares⟩ := compared
  have forced := Script.reads_force yields tree.isOrdered
  have forced' := Script.reads_force yields' tree'.isOrdered
  cases compares with
  | ordered =>
    obtain ⟨o, rest, holds⟩ := ordered
    exact ⟨o, forced.bind (forced'.bind (reads.bind rest)), holds⟩
  | fault found => exact ⟨_, forced.bind (forced'.bind reads.bind_error), fault _ _ found⟩

mutual
theorem Tree.reads_compare : ∀ {v w : Value} {k l : Key}, h.Tree v k → h.Tree w l → ∀ {n : Nat},
    k.size ≤ n →
      ∃ o, (Value.compare n v w).Reads h o ∧ Key.Compares (k.Mixed l) (k.compare l) o
  | _, _, k, _, _, _, 0, enough => absurd enough (Nat.not_le.2 k.size_pos)
  | _, _, _, _, .bool a, other, n + 1, _ => by
    cases other with
    | bool b => exact ⟨_, .done, .ordered⟩
    | _ => exact ⟨_, .raise, .fault (.here (by simp [Key.type]))⟩
  | _, _, _, _, .number x, other, n + 1, _ => by
    cases other with
    | number y => exact ⟨_, .done, .ordered⟩
    | _ => exact ⟨_, .raise, .fault (.here (by simp [Key.type]))⟩
  | _, _, _, _, .string s, other, n + 1, _ => by
    cases other with
    | string t => exact ⟨_, .done, .ordered⟩
    | _ => exact ⟨_, .raise, .fault (.here (by simp [Key.type]))⟩
  | _, _, _, _, @Tree.list _ l ks elements, other, n + 1, enough => by
    cases other with
    | list elements' =>
      have enough := Nat.le_of_succ_le_succ enough
      obtain ⟨o, reads, compares⟩ := elements.reads_compare elements' enough
        (Nat.lt_of_lt_of_le (Key.length_lt_sizes ks) enough)
      exact ⟨o, reads, compares.imp (fun _ _ => .list) rfl⟩
    | _ => exact ⟨_, .raise, .fault (.here (by simp [Key.type]))⟩
  | _, _, _, _, .dict entries, other, n + 1, enough => by
    cases other with
    | dict entries' =>
      obtain ⟨o, reads, compares⟩ := entries.reads_compare entries' (Nat.le_of_succ_le_succ enough)
      exact ⟨o, reads, compares.imp (fun _ _ => .dict) rfl⟩
    | _ => exact ⟨_, .raise, .fault (.here (by simp [Key.type]))⟩

theorem Trees.reads_compare : ∀ {l l' : LazyList} {ks ls : List Key}, h.Trees l ks →
    h.Trees l' ls → ∀ {n bound : Nat}, Key.sizes ks ≤ n → ks.length < bound →
      ∃ o, (l.walkPairs (fun x y => do
        let x ← force x
        match ← Value.compare n x (← force y) with
        | .eq => pure none
        | o => pure (some o)) id bound l').Reads h o ∧
          Key.Compares (Key.MixedLists ks ls) (Key.compareLists ks ls) o
  | _, _, _, _, _, _, _, 0, _, long => absurd long (Nat.not_lt_zero _)
  | _, _, _, _, .nil, other, n, bound + 1, _, _ => by
    cases other <;> exact ⟨_, .done, .ordered⟩
  | _, _, _, _, @Trees.cons _ x _ _ k _ ks yields tree known elements, other, n, bound + 1,
      enough, long => by
    cases other with
    | nil => exact ⟨_, .done, .ordered⟩
    | @cons y _ _ l _ ls yields' tree' known' elements' =>
      simp only [Key.sizes] at enough
      simp only [List.length_cons] at long
      have compared := tree.reads_compare tree' (n := n) (by omega)
      obtain ⟨o, rest, compares⟩ := elements.reads_compare elements' (n := n)
        (Nat.le_trans (by omega) enough) (Nat.lt_of_succ_lt_succ long)
      simp only [LazyList.walkPairs, bind_assoc, Key.compareLists]
      apply reads_compare_step tree tree' yields yields' compared
      · cases order : k.compare l with
        | lt => exact ⟨_, .done, .ordered⟩
        | gt => exact ⟨_, .done, .ordered⟩
        | eq =>
          have same := Key.compare_eq_iff_same.1 order
          exact ⟨o, (Script.reads_forceList known).bind ((Script.reads_forceList known').bind rest),
            compares.imp (fun _ _ => .tail same) rfl⟩
      · exact fun t u mixed => .fault (.head mixed)

theorem Entries.reads_compare : ∀ {rs rs' : List (Key × Ref)} {es fs : List (Key × Key)},
    h.Entries rs es → h.Entries rs' fs → ∀ {n : Nat}, Key.entrySizes es ≤ n →
      ∃ o, (Value.compareEntries (Value.compare n) rs rs').Reads h o ∧
        Key.Compares (Key.MixedEntries es fs) (Key.compareEntries es fs) o
  | _, _, _, _, .nil, other, _, _ => by cases other <;> exact ⟨_, .done, .ordered⟩
  | _, _, _, _, @Entries.cons _ k x _ _ _ es yields tree entries, other, n, enough => by
    cases other with
    | nil => exact ⟨_, .done, .ordered⟩
    | @cons l y _ _ _ fs yields' tree' entries' =>
      simp only [Key.entrySizes] at enough
      have compared := tree.reads_compare tree' (n := n) (by omega)
      obtain ⟨o, rest, compares⟩ := entries.reads_compare entries' (n := n) (by omega)
      simp only [Value.compareEntries, Key.compareEntries]
      cases keys : k.compare l with
      | lt => exact ⟨_, .done, .ordered⟩
      | gt => exact ⟨_, .done, .ordered⟩
      | eq =>
        have keys := Key.compare_eq_iff_same.1 keys
        apply reads_compare_step tree tree' yields yields' compared
        · cases values : x.compare y with
          | lt => exact ⟨_, .done, .ordered⟩
          | gt => exact ⟨_, .done, .ordered⟩
          | eq =>
            have values := Key.compare_eq_iff_same.1 values
            exact ⟨o, rest, compares.imp (fun _ _ => .later keys values) rfl⟩
        · exact fun t u mixed => .fault (.value keys mixed)
end

end Heap
end CallByNeed
