import CallByNeed.Dict
import CallByNeed.Proofs.Keys.Order
import CallByNeed.Proofs.Keys.Trees
import Mathlib.Data.List.Perm.Subperm

/- Sorted keys and dictionaries: every list of entries ascends strictly, in the keys as well. All
   operations keep this, and inserting the entries of a sorted dictionary gives it back. So it is
   known what is found in a dictionary after it has been changed, and how many keys it has. -/
namespace CallByNeed

namespace Key

mutual
/-- Every dictionary in the key, however deep, lists its entries in strictly ascending key order. -/
def Sorted : Key → Prop
  | .bool _ | .number _ | .string _ => True
  | .list keys => sortedAll keys
  | .dict entries => sortedEntries entries ∧ (⟨entries⟩ : Dict Key).Ascending

def sortedAll : List Key → Prop
  | [] => True
  | k :: ks => k.Sorted ∧ sortedAll ks

def sortedEntries : List (Key × Key) → Prop
  | [] => True
  | (k, x) :: es => k.Sorted ∧ x.Sorted ∧ sortedEntries es
end

theorem sortedAll_iff {ks : List Key} : sortedAll ks ↔ ∀ k ∈ ks, k.Sorted := by
  induction ks with
  | nil => simp [sortedAll]
  | cons k ks ih => simp [sortedAll, ih]

theorem sortedEntries_iff {es : List (Key × Key)} :
    sortedEntries es ↔ ∀ e ∈ es, e.1.Sorted ∧ e.2.Sorted := by
  induction es with
  | nil => simp [sortedEntries]
  | cons e es ih => simp [sortedEntries, ih, and_assoc]

end Key

namespace Dict
variable {α : Type}

/-- In ascending order, under keys that are sorted themselves. -/
structure Sorted (d : Dict α) : Prop where
  ascending : d.Ascending
  keys : ∀ e ∈ d.entries, e.1.Sorted

section
variable {es : List (Key × α)} {key : Key} {value : α} {e : Key × α}

/-! ### One entry -/

theorem mem_put (mem : e ∈ put key value es) : e = (key, value) ∨ e ∈ es := by
  induction es with
  | nil => simpa [put] using mem
  | cons first es ih =>
    simp only [put] at mem
    split at mem
    · simpa using mem
    · rcases List.mem_cons.1 mem with rfl | rest
      · exact .inl rfl
      · exact .inr (.tail _ rest)
    · rcases List.mem_cons.1 mem with rfl | rest
      · exact .inr (.head _)
      · exact (ih rest).imp_right (.tail _)

theorem sublist_remove (key : Key) (es : List (Key × α)) : (remove key es).Sublist es := by
  induction es with
  | nil => exact .slnil
  | cons first es ih =>
    simp only [remove]
    split
    · exact List.sublist_cons_self ..
    · exact ih.cons_cons first

theorem pairwise_put (ascending : es.Pairwise fun x y => x.1.compare y.1 = .lt) :
    (put key value es).Pairwise fun x y => x.1.compare y.1 = .lt := by
  induction es with
  | nil => exact List.pairwise_singleton _ _
  | cons first es ih =>
    obtain ⟨before, rest⟩ := List.pairwise_cons.1 ascending
    simp only [put]
    split
    · next less =>
      refine List.pairwise_cons.2 ⟨fun e mem => ?_, ascending⟩
      rcases List.mem_cons.1 mem with rfl | later
      · exact less
      · exact Std.TransCmp.lt_trans less (before e later)
    · next same =>
      refine List.pairwise_cons.2 ⟨fun e mem => ?_, rest⟩
      exact (Std.TransCmp.congr_left same).trans (before e mem)
    · next greater =>
      refine List.pairwise_cons.2 ⟨fun e mem => ?_, ih rest⟩
      rcases mem_put mem with rfl | later
      · exact Std.OrientedCmp.lt_of_gt greater
      · exact before e later

/-- An entry that comes after all others is put behind them. -/
theorem put_of_greater (greater : ∀ e ∈ es, e.1.compare key = .lt) :
    put key value es = es ++ [(key, value)] := by
  induction es with
  | nil => rfl
  | cons first es ih =>
    have last : key.compare first.1 = .gt :=
      Std.OrientedCmp.gt_of_lt (greater first (List.mem_cons_self ..))
    simp only [put, last, List.cons_append]
    rw [ih fun e mem => greater e (List.mem_cons_of_mem _ mem)]

end

/-! ### Operations -/

variable {d other : Dict α} {key : Key} {value : α}

theorem sorted_empty : (empty : Dict α).Sorted := by
  constructor
  · exact List.Pairwise.nil
  · simp [empty]

theorem Sorted.insert (sorted : d.Sorted) (keys : key.Sorted) : (d.insert key value).Sorted := by
  constructor
  · exact pairwise_put sorted.ascending
  · intro e mem
    rcases mem_put mem with rfl | old
    · exact keys
    · exact sorted.keys e old

theorem Sorted.erase (sorted : d.Sorted) : (d.erase key).Sorted := by
  have fewer := sublist_remove key d.entries
  constructor
  · exact sorted.ascending.sublist fewer
  · exact fun e mem => sorted.keys e (fewer.mem mem)

theorem Sorted.foldl_insert (sorted : d.Sorted) {es : List (Key × α)}
    (keys : ∀ e ∈ es, e.1.Sorted) :
    (es.foldl (fun d e => d.insert e.1 e.2) d).Sorted := by
  induction es generalizing d with
  | nil => exact sorted
  | cons e es ih =>
    refine ih (sorted.insert (keys e (List.mem_cons_self ..))) fun e mem => ?_
    exact keys e (List.mem_cons_of_mem _ mem)

theorem sorted_ofList {es : List (Key × α)} (keys : ∀ e ∈ es, e.1.Sorted) : (ofList es).Sorted :=
  sorted_empty.foldl_insert keys

theorem Sorted.override (sorted : d.Sorted) (sorted' : other.Sorted) :
    (d.override other).Sorted :=
  sorted.foldl_insert sorted'.keys

theorem Sorted.merge (sorted : d.Sorted) (sorted' : other.Sorted) : (d.merge other).Sorted := by
  unfold Dict.merge
  split
  · exact sorted.override sorted'
  · exact sorted'.override sorted

theorem Sorted.tail {e : Key × α} {es : List (Key × α)} (sorted : (⟨e :: es⟩ : Dict α).Sorted) :
    (⟨es⟩ : Dict α).Sorted := by
  constructor
  · exact sorted.ascending.of_cons
  · exact fun e mem => sorted.keys e (List.mem_cons_of_mem _ mem)

/-- Entries that ascend are inserted one behind the other. -/
theorem foldl_insert_of_ascending {front es : List (Key × α)}
    (ascending : (⟨front ++ es⟩ : Dict α).Ascending) :
    es.foldl (fun d e => d.insert e.1 e.2) ⟨front⟩ = (⟨front ++ es⟩ : Dict α) := by
  induction es generalizing front with
  | nil => simp
  | cons e es ih =>
    have behind : ∀ first ∈ front, first.1.compare e.1 = .lt := by
      intro first mem
      exact (List.pairwise_append.1 ascending).2.2 first mem e (List.mem_cons_self ..)
    have shifted : front ++ e :: es = (front ++ [e]) ++ es := by simp
    rw [shifted] at ascending ⊢
    rw [List.foldl_cons, ← ih ascending]
    simp only [Dict.insert, put_of_greater behind]

/-- Only the keys count. -/
theorem Ascending.of_keys {β : Type} {d' : Dict β} (ascending : d.Ascending)
    (same : d'.entries.map Prod.fst = d.entries.map Prod.fst) : d'.Ascending := by
  have keys : (d.entries.map Prod.fst).Pairwise fun k l => k.compare l = .lt :=
    List.pairwise_map.2 ascending
  rw [← same] at keys
  exact List.pairwise_map.1 keys

theorem Sorted.of_keys {β : Type} {d' : Dict β} (sorted : d.Sorted)
    (same : d'.entries.map Prod.fst = d.entries.map Prod.fst) : d'.Sorted := by
  refine ⟨sorted.ascending.of_keys same, fun e mem => ?_⟩
  have known : e.1 ∈ d.entries.map Prod.fst := same ▸ List.mem_map_of_mem mem
  obtain ⟨e', mem', keys⟩ := List.mem_map.1 known
  exact keys ▸ sorted.keys e' mem'

/-- A dictionary is what its entries are collected to. -/
theorem ofList_entries (ascending : d.Ascending) : ofList d.entries = d := by
  have entries : (⟨[] ++ d.entries⟩ : Dict α).Ascending := ascending
  exact foldl_insert_of_ascending entries

end Dict

theorem Key.sorted_dict_iff {es : List (Key × Key)} :
    (Key.dict es).Sorted ↔ (⟨es⟩ : Dict Key).Sorted ∧ ∀ e ∈ es, e.2.Sorted := by
  constructor
  · rintro ⟨each, ascending⟩
    have each := sortedEntries_iff.1 each
    exact ⟨⟨ascending, fun e mem => (each e mem).1⟩, fun e mem => (each e mem).2⟩
  · rintro ⟨sorted, values⟩
    exact ⟨sortedEntries_iff.2 fun e mem => ⟨sorted.keys e mem, values e mem⟩, sorted.ascending⟩

/-! ### Values of keys

The value of a key. To make it is to allocate cells and nothing else. What has been made of a sorted
key is the tree that it writes down; of any other key, a dictionary would come out in another
order, and with fewer entries if a key stood there twice. -/

open Script

section
variable {E : Engine}

/-- The cell yields a value that is this tree. -/
def Heap.Stands (h : Heap) (r : Ref) (k : Key) : Prop := ∃ v, h.Yields r v ∧ h.Tree v k

theorem Heap.Stands.before {h h' : Heap} {r : Ref} {k : Key} (stands : h.Stands r k)
    (before : h.Before h') : h'.Stands r k := by
  obtain ⟨v, yields, tree⟩ := stands
  exact ⟨v, before.yields yields, tree.before before⟩

/-- The script comes to an answer in a later store, where the answer satisfies `post`. -/
def Script.Produces {α : Type} (E : Engine) (m : Script α) (s : Store) (post : Heap → α → Prop) :
    Prop :=
  ∃ a t, m.Comes E s (.ok a) t ∧ s.heap.Before t.heap ∧ post t.heap a

theorem Script.produces_pure {α : Type} {s : Store} {post : Heap → α → Prop} {a : α}
    (holds : post s.heap a) : (pure a : Script α).Produces E s post :=
  ⟨a, s, .done, s.heap.before_refl, holds⟩

theorem Script.Produces.bind {α β : Type} {m : Script α} {f : α → Script β} {s : Store}
    {post : Heap → α → Prop} {post' : Heap → β → Prop} (first : m.Produces E s post)
    (rest : ∀ a t, s.heap.Before t.heap → post t.heap a → (f a).Produces E t post') :
    (m >>= f).Produces E s post' := by
  obtain ⟨a, t, comes, before, holds⟩ := first
  obtain ⟨b, u, comes', before', holds'⟩ := rest a t before holds
  exact ⟨b, u, comes.bind comes', before.trans before', holds'⟩

theorem produces_allocValue (v : Value) (s : Store) :
    (allocValue v : Script Ref).Produces E s fun h r => h.Yields r v := by
  refine ⟨_, _, .act .done, Store.before_act s (.alloc (.ofValue v)), _, .refl, ?_⟩
  simp [Store.act, Heap.state?_alloc, Cell.ofValue]

theorem produces_push {s : Store} {l : LazyList} {r : Ref} {k : Key} {ks : List Key}
    (stands : s.heap.Stands r k) (elements : s.heap.Trees l ks) :
    (l.push r : Script LazyList).Produces E s fun h l => h.Trees l (k :: ks) := by
  refine (produces_allocValue (.list l) s).bind fun tail t before known => produces_pure ?_
  obtain ⟨v, yields, tree⟩ := stands.before before
  exact .cons yields tree known (elements.before before)

theorem produces_ofRefs {s : Store} {rs : List Ref} {ks : List Key}
    (stands : List.Forall₂ s.heap.Stands rs ks) :
    (LazyList.ofRefs rs : Script LazyList).Produces E s fun h l => h.Trees l ks := by
  unfold LazyList.ofRefs
  induction stands with
  | nil => exact produces_pure .nil
  | cons first _ ih =>
    rw [List.reverse_cons, List.foldlM_append]
    refine ih.bind fun l t before elements => ?_
    rw [List.foldlM_cons]
    refine (produces_push (first.before before) elements).bind fun l t before elements => ?_
    exact produces_pure elements

namespace Key

mutual
theorem produces_toValue : ∀ {k : Key}, k.Sorted → ∀ s : Store,
    (k.toValue : Script Value).Produces E s fun h v => h.Tree v k
  | .bool b, _, _ => produces_pure (.bool b)
  | .number x, _, _ => produces_pure (.number x)
  | .string text, _, _ => produces_pure (.string text)
  | .list keys, sorted, s => by
    simp only [toValue]
    refine (produces_toElements sorted s).bind fun rs t _ stands => ?_
    exact (produces_ofRefs stands).bind fun l t _ elements => produces_pure (.list elements)
  | .dict es, sorted, s => by
    simp only [toValue]
    refine (produces_toEntries sorted.1 s).bind fun rs t _ entries => produces_pure (.dict ?_)
    -- the entries are collected in the order that they are in already
    have ascending : (⟨rs⟩ : Dict Ref).Ascending := sorted.2.of_keys entries.keys_eq
    have collected : Dict.ofList rs = ⟨rs⟩ := Dict.ofList_entries ascending
    rw [collected]
    exact entries

theorem produces_toElements : ∀ {ks : List Key}, sortedAll ks → ∀ s : Store,
    (toElements ks : Script (List Ref)).Produces E s fun h rs => List.Forall₂ h.Stands rs ks
  | [], _, s => by
    simp only [toElements]
    exact produces_pure .nil
  | k :: ks, sorted, s => by
    simp only [toElements]
    refine (produces_toValue sorted.1 s).bind fun v t _ tree => ?_
    refine (produces_allocValue v t).bind fun r t before yields => ?_
    refine (produces_toElements sorted.2 t).bind fun rs t later stands => produces_pure ?_
    exact .cons ⟨v, later.yields yields, tree.before (before.trans later)⟩ stands

theorem produces_toEntries : ∀ {es : List (Key × Key)}, sortedEntries es → ∀ s : Store,
    (toEntries es : Script (List (Key × Ref))).Produces E s fun h rs => h.Entries rs es
  | [], _, s => by
    simp only [toEntries]
    exact produces_pure .nil
  | (k, x) :: es, sorted, s => by
    simp only [toEntries]
    refine (produces_toValue sorted.2.1 s).bind fun v t _ tree => ?_
    refine (produces_allocValue v t).bind fun r t before yields => ?_
    refine (produces_toEntries sorted.2.2 t).bind fun rs t later entries => produces_pure ?_
    exact .cons (later.yields yields) (tree.before (before.trans later)) entries
end

/-- The value of a sorted key can be made in any store, where it takes nothing but new cells. -/
theorem Sorted.leaves_toValue {k : Key} (sorted : k.Sorted) (E : Engine) (s : Store)
    (world : World) : ∃ v t, (k.toValue : Script Value).Leaves E s world (.ok v) t world ∧
      s.heap.Before t.heap ∧ t.heap.Tree v k := by
  obtain ⟨v, t, comes, before, tree⟩ := produces_toValue (E := E) sorted s
  exact ⟨v, t, comes.leaves, before, tree⟩

end Key
end

namespace Key

/-- Keys as they are told apart. -/
def setoid : Setoid Key where
  r k l := k.same l
  iseqv := ⟨same_self, same_symm, same_trans⟩

/-- Different keys that all occur in another list are no more than its keys. -/
theorem length_le_of_distinct {ks ls : List Key} (distinct : ks.Pairwise fun k l => ¬ k.same l)
    (into : ∀ k ∈ ks, ∃ l ∈ ls, k.same l) : ks.length ≤ ls.length := by
  have nodup : (ks.map (Quotient.mk setoid)).Nodup :=
    List.pairwise_map.2 (distinct.imp fun apart equal => apart (Quotient.exact equal))
  have subset : ks.map (Quotient.mk setoid) ⊆ ls.map (Quotient.mk setoid) := by
    intro q listed
    obtain ⟨k, mem, rfl⟩ := List.mem_map.1 listed
    obtain ⟨l, mem', same⟩ := into k mem
    have equal : Quotient.mk setoid k = Quotient.mk setoid l := Quotient.sound same
    exact List.mem_map.2 ⟨l, mem', equal.symm⟩
  simpa using (List.subperm_of_subset nodup subset).length_le

end Key

namespace Dict
variable {α : Type} {d other : Dict α} {es : List (Key × α)} {k key : Key} {value : α}

theorem find_put :
    find k (put key value es) = if k.compare key = .eq then some value else find k es := by
  induction es with
  | nil => rfl
  | cons e es ih =>
    simp only [put]
    split
    · rfl
    · next same =>
      simp only [find]
      rw [Std.TransCmp.congr_right same]
      split <;> rfl
    · next greater =>
      simp only [find, ih]
      split
      · next here =>
        have other : k.compare key ≠ .eq := fun same => by
          rw [← Std.TransCmp.congr_left same, here] at greater
          cases greater
        rw [if_neg other]
      · rfl

theorem find_of_all_greater (greater : ∀ e ∈ es, k.compare e.1 = .lt) : find k es = none := by
  induction es with
  | nil => rfl
  | cons e es ih =>
    have first : k.compare e.1 ≠ .eq := by
      rw [greater e (List.mem_cons_self ..)]
      decide
    rw [find, if_neg first]
    exact ih fun e mem => greater e (List.mem_cons_of_mem _ mem)

/-- In ascending entries each key is found once. -/
theorem find_of_cons {e : Key × α} (ascending : (⟨e :: es⟩ : Dict α).Ascending)
    (same : k.compare e.1 = .eq) : find k es = none := by
  refine find_of_all_greater fun e' mem => ?_
  rw [Std.TransCmp.congr_left same]
  exact (List.pairwise_cons.1 ascending).1 e' mem

theorem find_remove (ascending : (⟨es⟩ : Dict α).Ascending) :
    find k (remove key es) = if k.compare key = .eq then none else find k es := by
  induction es with
  | nil => simp [remove, find]
  | cons e es ih =>
    simp only [remove, find]
    split
    · next same =>
      rw [← Std.TransCmp.congr_right same]
      split
      · next here => exact find_of_cons ascending ((Std.TransCmp.congr_left here).trans same)
      · rfl
    · next apart =>
      rw [find, ih ascending.of_cons]
      split
      · next here =>
        have other : k.compare key ≠ .eq := fun same =>
          apart ((Std.TransCmp.congr_left same).symm.trans here)
        rw [if_neg other]
      · rfl

/-- A key that is not there is removed from nothing. -/
theorem remove_of_find (absent : find key es = none) : remove key es = es := by
  induction es with
  | nil => rfl
  | cons e es ih =>
    simp only [find] at absent
    simp only [remove]
    split at absent
    · cases absent
    · next apart => rw [if_neg apart, ih absent]

theorem mem_of_find {x : α} (found : find k es = some x) : ∃ l, (l, x) ∈ es ∧ k.same l := by
  induction es with
  | nil => cases found
  | cons e es ih =>
    simp only [find] at found
    split at found
    · next here =>
      cases found
      exact ⟨e.1, List.mem_cons_self .., Key.compare_eq_iff_same.1 here⟩
    · obtain ⟨l, mem, same⟩ := ih found
      exact ⟨l, List.mem_cons_of_mem _ mem, same⟩

theorem find_of_mem (ascending : (⟨es⟩ : Dict α).Ascending) {l : Key} {x : α} (mem : (l, x) ∈ es)
    (same : k.same l) : find k es = some x := by
  induction es with
  | nil => cases mem
  | cons e es ih =>
    have equal := Key.compare_eq_iff_same.2 same
    rw [find]
    rcases List.mem_cons.1 mem with rfl | later
    · exact if_pos equal
    · have apart : k.compare e.1 ≠ .eq := fun here => by
        have less := (List.pairwise_cons.1 ascending).1 _ later
        rw [← Std.TransCmp.congr_left here, equal] at less
        cases less
      rw [if_neg apart]
      exact ih ascending.of_cons later

theorem Ascending.override (ascending : d.Ascending) : (d.override other).Ascending := by
  obtain ⟨es⟩ := other
  unfold Dict.override
  induction es generalizing d with
  | nil => exact ascending
  | cons e es ih => exact ih (pairwise_put ascending)

theorem mem_override {e : Key × α} (mem : e ∈ (d.override other).entries) :
    e ∈ other.entries ∨ e ∈ d.entries := by
  obtain ⟨es⟩ := other
  unfold override at mem
  induction es generalizing d with
  | nil => exact .inr mem
  | cons first es ih =>
    rcases ih mem with later | earlier
    · exact .inl (List.mem_cons_of_mem _ later)
    · rcases mem_put earlier with rfl | old
      · exact .inl (List.mem_cons_self ..)
      · exact .inr old

/-- Entries that are put over others hide them. -/
theorem get?_override (ascending : other.Ascending) :
    (d.override other).get? k = (other.get? k).or (d.get? k) := by
  obtain ⟨es⟩ := other
  unfold override
  induction es generalizing d with
  | nil => rfl
  | cons e es ih =>
    rw [List.foldl_cons, ih ascending.of_cons]
    simp only [get?, insert, find_put, find]
    split
    · next same =>
      rw [find_of_cons ascending same]
      rfl
    · rfl

end Dict
end CallByNeed
