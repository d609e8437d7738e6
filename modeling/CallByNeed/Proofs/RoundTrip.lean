import CallByNeed.Proofs.Comparison
import CallByNeed.Proofs.Keys.Sorted
import CallByNeed.Proofs.Sorted.Runs

/- From values to keys and back. The values that have keys are those that are finite trees when all of
   them has been forced; the key of such a value can be made a value again, which has the same key and
   equals the first one. Dictionaries are taken to be sorted, as those of a program always are. -/
namespace CallByNeed

/-- What is promised of the keys that are made of a value from a store and a world on. -/
structure Key.RoundTrips (E : Engine) (s : Store) (w : World) (v : Value) : Prop where
  /-- There is a key exactly if the value can be forced all the way down and is a finite tree then. -/
  made : ∀ {s' : Store} {w' : World} {k : Key},
    (∃ n, (Key.ofValue n v).Leaves E s w (.ok k) s' w') ↔ E.Unfolds s w v k s' w'
  /-- An attempt that has ended has answered the tree that the value is from then on, or has failed if
      the value will never be one. -/
  ended : ∀ {s' : Store} {w' : World} {o : Except Fault Key} {n : Nat},
    (Key.ofValue n v).Leaves E s w o s' w' →
      ∀ h k, s'.heap.Before h → (o = .ok k ↔ h.Tree v k)
  /-- The value that is made of the key at any later time has the same key and equals the first one,
      from then on. -/
  again : ∀ {s' : Store} {w' : World} {k : Key} {n : Nat},
    (Key.ofValue n v).Leaves E s w (.ok k) s' w' →
      ∀ (F : Engine) (t : Store) (u : World), s'.heap.Before t.heap →
        ∃ c t', (k.toValue : Script Value).Leaves F t u (.ok c) t' u ∧ t.heap.Before t'.heap ∧
          ∀ (x : Store) (y : World) (bound : Nat), t'.heap.Before x.heap → k.size ≤ bound →
            (Key.ofValue bound c).Leaves F x y (.ok k) x y ∧
            (Value.equal bound v c).Leaves F x y (.ok true) x y
  /-- All dictionaries in the key list their entries in strictly ascending order, and those in the
      heap are left so. -/
  sorted : ∀ {s' : Store} {w' : World} {k : Key} {n : Nat},
    (Key.ofValue n v).Leaves E s w (.ok k) s' w' → k.Sorted ∧ s'.heap.Sorted

section
variable {E : Engine} {s s' : Store} {w w' : World} {v : Value} {k : Key} {n : Nat}

theorem Key.leaves_iff_unfolds :
    (∃ n, (Key.ofValue n v).Leaves E s w (.ok k) s' w') ↔ E.Unfolds s w v k s' w' := by
  constructor
  · rintro ⟨n, leaves⟩
    exact Key.unfolds_of_leaves leaves
  · exact fun unfolds => ⟨k.size, unfolds.leaves (Nat.le_refl _)⟩

theorem Key.ok_iff_tree {o : Except Fault Key} (leaves : (Key.ofValue n v).Leaves E s w o s' w')
    {h : Heap} (before : s'.heap.Before h) : o = .ok k ↔ h.Tree v k := by
  constructor
  · rintro rfl
    exact (Key.tree_of_leaves leaves).before before
  · intro tree
    have reads := ((Key.isReader_ofValue n v).reads_of_leaves leaves).2.before before
    have reads := Key.reads_ofValue_of_le (Nat.le_max_left n k.size) reads
    exact reads.unique (tree.reads_ofValue (Nat.le_max_right n k.size))

/-- In a store of sorted dictionaries the key is sorted. -/
theorem Key.sorted_of_leaves (value : v.Sorted) (heap : s.heap.Sorted)
    (made : (Key.ofValue n v).Leaves E s w (.ok k) s' w') : k.Sorted ∧ s'.heap.Sorted := by
  obtain ⟨left, key⟩ := (Key.sorts_ofValue n value).leaves heap made
  exact ⟨key k rfl, left⟩

/-- A tree and the value that is made of its key are the same tree. -/
theorem Heap.Tree.again (tree : s.heap.Tree v k) (sorted : k.Sorted) (F : Engine) (u : World) :
    ∃ c t', (k.toValue : Script Value).Leaves F s u (.ok c) t' u ∧ s.heap.Before t'.heap ∧
      ∀ (x : Store) (y : World) (bound : Nat), t'.heap.Before x.heap → k.size ≤ bound →
        (Key.ofValue bound c).Leaves F x y (.ok k) x y ∧
        (Value.equal bound v c).Leaves F x y (.ok true) x y := by
  obtain ⟨c, t', leaves, before, copy⟩ := sorted.leaves_toValue F s u
  refine ⟨c, t', leaves, before, fun x y bound after enough => ?_⟩
  have copy := copy.before after
  have equal := (tree.before (before.trans after)).reads_equal copy enough
  rw [k.same_self] at equal
  exact ⟨(copy.reads_ofValue enough).leaves, equal.leaves⟩

end

/-- Values round-trip through their keys wherever dictionaries are sorted. -/
theorem keys_round_trip {E : Engine} {s : Store} {w : World} {v : Value} (value : v.Sorted)
    (heap : s.heap.Sorted) : Key.RoundTrips E s w v where
  made := Key.leaves_iff_unfolds
  ended leaves _ _ before := Key.ok_iff_tree leaves before
  again made F _ u later := by
    have sorted := (Key.sorted_of_leaves value heap made).1
    exact ((Key.tree_of_leaves made).before later).again sorted F u
  sorted made := Key.sorted_of_leaves value heap made

/-- The first cell is still to be forced, and gives a list then; the last one is a dictionary. -/
def nestedStore : Store where
  heap := { cells := #[.ofSuspension (.traced "list" ⟨1⟩), .ofValue (.list (.cons ⟨2⟩ ⟨3⟩)),
    .ofValue (.number .one), .ofValue (.list .nil),
    .ofValue (.dict ⟨[(.bool true, ⟨2⟩), (.list [.bool true], ⟨2⟩)]⟩)] }

/-- A dictionary of a list, which is forced for the key, and of a dictionary that has a list as one of
    its own keys. -/
theorem keys_round_trip_of_nested :
    let v : Value := .dict ⟨[(.bool false, ⟨0⟩), (.string "x", ⟨4⟩)]⟩
    let k : Key := .dict [(.bool false, .list [.number .one]),
      (.string "x", .dict [(.bool true, .number .one), (.list [.bool true], .number .one)])]
    v.Sorted ∧ nestedStore.heap.Sorted ∧ k.Sorted ∧
      ∃ s' c t', (Key.ofValue 4 v).Leaves { bound := 4 } nestedStore {} (.ok k) s' {} ∧
        (k.toValue : Script Value).Leaves { bound := 4 } s' {} (.ok c) t' {} ∧
        (Key.ofValue 9 c).Leaves { bound := 4 } t' {} (.ok k) t' {} ∧
        (Value.equal 9 v c).Leaves { bound := 4 } t' {} (.ok true) t' {} := by
  intro v k
  have value : v.Sorted := ⟨List.pairwise_pair.2 rfl, by simp [Key.Sorted]⟩
  have last : (⟨[(.bool true, ⟨2⟩), (.list [.bool true], ⟨2⟩)]⟩ : Dict Ref).Sorted :=
    ⟨List.pairwise_pair.2 rfl, by simp [Key.Sorted, Key.sortedAll]⟩
  have heap : nestedStore.heap.Sorted := by
    apply Heap.sorted_of_cells
    simpa [nestedStore, Cell.ofSuspension, Cell.ofValue, CellState.Sorted, Task.Sorted,
      Suspension.Sorted, Value.Sorted] using last
  have made : ∃ s', (Key.ofValue 4 v).Leaves { bound := 4 } nestedStore {} (.ok k) s' {} :=
    ⟨_, 40, rfl⟩
  obtain ⟨s', made⟩ := made
  have trips : Key.RoundTrips { bound := 4 } nestedStore {} v := keys_round_trip value heap
  obtain ⟨c, t', again, _, same⟩ := trips.again made { bound := 4 } s' {} (Heap.before_refl _)
  obtain ⟨key, equal⟩ := same t' {} 9 (Heap.before_refl _) (by decide)
  exact ⟨value, heap, (trips.sorted made).1, s', c, t', made, again, key, equal⟩

end CallByNeed
