import CallByNeed.Builtin.Collections
import CallByNeed.Proofs.Keys.Comparing
import CallByNeed.Proofs.Keys.Sorted

/- Dictionaries are finite maps of key values. Whatever calls have built a dictionary, it finds what
   the same calls leave in a map whose keys are told apart by the equality of values; of two maps that
   are merged the larger one keeps its cells. -/
namespace CallByNeed

/-- A value all of which has been forced, and its key. -/
structure Heap.KeyValue (h : Heap) where
  value : Value
  key : Key
  tree : h.Tree value key

namespace Heap.KeyValue
variable {h : Heap} {v w x : h.KeyValue}

/-- The comparison of the two values answers that they are equal. -/
def Equal (v w : h.KeyValue) : Prop :=
  ∃ n, (Value.equal n v.value w.value).Reads h (.ok true)

theorem equal_iff : v.Equal w ↔ v.key.same w.key := by
  constructor
  · rintro ⟨n, reads⟩
    have reads := Value.reads_equal_of_le (Nat.le_max_left n v.key.size) reads
    have expected := v.tree.reads_equal w.tree (Nat.le_max_right n v.key.size)
    exact (Except.ok.inj (reads.unique expected)).symm
  · intro same
    have reads := v.tree.reads_equal w.tree (Nat.le_refl _)
    rw [same] at reads
    exact ⟨_, reads⟩

instance : Decidable (v.Equal w) := decidable_of_iff _ equal_iff.symm

theorem Equal.refl (v : h.KeyValue) : v.Equal v := equal_iff.2 v.key.same_self

theorem Equal.symm (equal : v.Equal w) : w.Equal v :=
  equal_iff.2 (Key.same_symm (equal_iff.1 equal))

theorem Equal.trans (first : v.Equal w) (second : w.Equal x) : v.Equal x :=
  equal_iff.2 (Key.same_trans (equal_iff.1 first) (equal_iff.1 second))

end Heap.KeyValue

/-! ### Maps -/

/-- What each key value finds, and the different key values that find something. -/
structure Heap.Map (h : Heap) where
  find : h.KeyValue → Option Ref
  keys : List h.KeyValue
  distinct : keys.Pairwise fun v w => ¬ v.Equal w
  present : ∀ v, (find v).isSome ↔ ∃ w ∈ keys, v.Equal w

namespace Heap.Map
variable {h : Heap}

def empty : h.Map where
  find _ := none
  keys := []
  distinct := .nil
  present := by simp

/-- The last write to a key value is what all values equal to it find. -/
def insert (m : h.Map) (k : h.KeyValue) (r : Ref) : h.Map where
  find v := if v.Equal k then some r else m.find v
  keys := if (m.find k).isSome then m.keys else k :: m.keys
  distinct := by
    split
    · exact m.distinct
    · next absent =>
      refine List.pairwise_cons.2 ⟨fun w mem equal => absent ?_, m.distinct⟩
      exact (m.present k).2 ⟨w, mem, equal⟩
  present v := by
    split
    · next here =>
      have known : ∃ w ∈ if (m.find k).isSome then m.keys else k :: m.keys, v.Equal w := by
        split
        · next present =>
          obtain ⟨w, mem, equal⟩ := (m.present k).1 present
          exact ⟨w, mem, here.trans equal⟩
        · exact ⟨k, List.mem_cons_self .., here⟩
      simpa using known
    · next apart =>
      rw [m.present v]
      split
      · rfl
      · simp [apart]

def remove (m : h.Map) (k : h.KeyValue) : h.Map where
  find v := if v.Equal k then none else m.find v
  keys := m.keys.filter fun w => ¬ w.Equal k
  distinct := m.distinct.filter _
  present v := by
    split
    · next here =>
      have gone : ∀ w, v.Equal w → w.Equal k := fun w equal => equal.symm.trans here
      simp only [Option.isSome_none, Bool.false_eq_true, List.mem_filter, decide_not,
        Bool.not_eq_true', decide_eq_false_iff_not, false_iff, not_exists, not_and]
      exact fun w mem equal => mem.2 (gone w equal)
    · next apart =>
      have left : ∀ w, v.Equal w → ¬ w.Equal k := fun w equal equal' => apart (equal.trans equal')
      rw [m.present v]
      simp only [List.mem_filter, decide_not, Bool.not_eq_true', decide_eq_false_iff_not]
      exact ⟨fun ⟨w, mem, equal⟩ => ⟨w, ⟨mem, left w equal⟩, equal⟩,
        fun ⟨w, mem, equal⟩ => ⟨w, mem.1, equal⟩⟩

/-- The second map hides what it has from the first one. -/
def overlay (m n : h.Map) : h.Map where
  find v := (n.find v).or (m.find v)
  keys := n.keys ++ m.keys.filter fun w => (n.find w).isNone
  distinct := by
    refine List.pairwise_append.2 ⟨n.distinct, m.distinct.filter _, fun v mem w mem' equal => ?_⟩
    have absent : (n.find w).isNone := (List.mem_filter.1 mem').2
    have found := (n.present w).2 ⟨v, mem, equal.symm⟩
    rw [Option.isNone_iff_eq_none.1 absent] at found
    cases found
  present v := by
    have hidden : ∀ w, v.Equal w → (n.find v).isSome = (n.find w).isSome := fun w equal => by
      rw [Bool.eq_iff_iff, n.present, n.present]
      exact ⟨fun ⟨x, mem, other⟩ => ⟨x, mem, equal.symm.trans other⟩,
        fun ⟨x, mem, other⟩ => ⟨x, mem, equal.trans other⟩⟩
    simp only [Option.isSome_or, Bool.or_eq_true, List.mem_append, List.mem_filter]
    constructor
    · intro found
      cases seen : (n.find v).isSome with
      | true =>
        obtain ⟨w, mem, equal⟩ := (n.present v).1 seen
        exact ⟨w, .inl mem, equal⟩
      | false =>
        rw [seen] at found
        obtain ⟨w, mem, equal⟩ := (m.present v).1 (found.resolve_left Bool.false_ne_true)
        rw [hidden w equal, Option.isSome_eq_false_iff] at seen
        exact ⟨w, .inr ⟨mem, seen⟩, equal⟩
    · rintro ⟨w, mem | ⟨mem, _⟩, equal⟩
      · exact .inl ((n.present v).2 ⟨w, mem, equal⟩)
      · exact .inr ((m.present v).2 ⟨w, mem, equal⟩)

/-- The larger of two maps hides what it has from the other one, of two equally large ones the
    second. -/
def merge (m n : h.Map) : h.Map :=
  if m.keys.length ≤ n.keys.length then m.overlay n else n.overlay m

variable {m n : h.Map}

theorem distinct_keys (m : h.Map) : (m.keys.map (·.key)).Pairwise fun k l => ¬ k.same l :=
  List.pairwise_map.2 (m.distinct.imp fun apart same => apart (KeyValue.equal_iff.2 same))

/-- A map that finds something wherever another one does has as many keys. -/
theorem length_le (more : ∀ v, (m.find v).isSome → (n.find v).isSome) :
    m.keys.length ≤ n.keys.length := by
  have fewer : (m.keys.map (·.key)).length ≤ (n.keys.map (·.key)).length := by
    refine Key.length_le_of_distinct m.distinct_keys fun l listed => ?_
    obtain ⟨k, mem, rfl⟩ := List.mem_map.1 listed
    obtain ⟨w, mem', equal⟩ := (n.present k).1 (more k ((m.present k).2 ⟨k, mem, .refl k⟩))
    exact ⟨w.key, List.mem_map_of_mem mem', KeyValue.equal_iff.1 equal⟩
  simpa using fewer

end Heap.Map

/-! ### Calls -/

/-- Calls that have built a dictionary, the last one outermost. -/
inductive Dict.History (h : Heap)
  | empty
  | collect (entries : List (h.KeyValue × Ref))
  | insert (d : History h) (k : h.KeyValue) (r : Ref)
  | remove (d : History h) (k : h.KeyValue)
  | merge (d other : History h)

namespace Dict.History
variable {h : Heap}

/-- The dictionary. -/
def make : History h → Dict Ref
  | empty => .empty
  | collect entries => .ofList (entries.map fun e => (e.1.key, e.2))
  | insert d k r => d.make.insert k.key r
  | remove d k => d.make.erase k.key
  | merge d other => d.make.merge other.make

/-- The map that the same calls leave. -/
def map : History h → h.Map
  | empty => .empty
  | collect entries => entries.foldl (fun m e => m.insert e.1 e.2) .empty
  | insert d k r => d.map.insert k r
  | remove d k => d.map.remove k
  | merge d other => d.map.merge other.map

end Dict.History

/-! ### Dictionaries stand for maps -/

/-- The dictionary finds what the map finds, and has no other keys. -/
structure Dict.StandsFor {h : Heap} (d : Dict Ref) (m : h.Map) : Prop where
  ascending : d.Ascending
  found : ∀ k, d.get? k.key = m.find k
  /-- Each key is that of a key value. -/
  written : ∀ e ∈ d.entries, ∃ k : h.KeyValue, k.key = e.1

namespace Dict.StandsFor
variable {h : Heap} {d e : Dict Ref} {m n : h.Map}

theorem empty : (Dict.empty : Dict Ref).StandsFor (Heap.Map.empty : h.Map) where
  ascending := List.Pairwise.nil
  found _ := rfl
  written _ mem := by cases mem

theorem insert (stands : d.StandsFor m) (k : h.KeyValue) (r : Ref) :
    (d.insert k.key r).StandsFor (m.insert k r) where
  ascending := pairwise_put stands.ascending
  found v := by
    have old : Dict.find v.key d.entries = m.find v := stands.found v
    simp only [Dict.get?, Dict.insert, find_put, old, Heap.Map.insert,
      Heap.KeyValue.equal_iff, Key.compare_eq_iff_same]
  written e mem := by
    rcases mem_put mem with rfl | old
    · exact ⟨k, rfl⟩
    · exact stands.written e old

theorem collect (stands : d.StandsFor m) (entries : List (h.KeyValue × Ref)) :
    ((entries.map fun e => (e.1.key, e.2)).foldl (fun d e => d.insert e.1 e.2) d).StandsFor
      (entries.foldl (fun m e => m.insert e.1 e.2) m) := by
  induction entries generalizing d m with
  | nil => exact stands
  | cons e entries ih => exact ih (stands.insert e.1 e.2)

theorem remove (stands : d.StandsFor m) (k : h.KeyValue) :
    (d.erase k.key).StandsFor (m.remove k) where
  ascending := stands.ascending.sublist (sublist_remove ..)
  found v := by
    have old : Dict.find v.key d.entries = m.find v := stands.found v
    simp only [Dict.get?, Dict.erase, find_remove stands.ascending, old, Heap.Map.remove,
      Heap.KeyValue.equal_iff, Key.compare_eq_iff_same]
  written e mem := stands.written e ((sublist_remove ..).mem mem)

theorem override (stands : d.StandsFor m) (stands' : e.StandsFor n) :
    (d.override e).StandsFor (m.overlay n) where
  ascending := stands.ascending.override
  found v := by
    rw [get?_override stands'.ascending, stands.found, stands'.found]
    rfl
  written x mem := by
    rcases mem_override mem with new | old
    · exact stands'.written x new
    · exact stands.written x old

/-- As many entries as there are different keys. -/
theorem size (stands : d.StandsFor m) : d.size = m.keys.length := by
  have entries : (d.entries.map Prod.fst).Pairwise fun k l => ¬ k.same l := by
    refine List.pairwise_map.2 (stands.ascending.imp fun less same => ?_)
    rw [Key.compare_eq_iff_same.2 same] at less
    cases less
  have fewer : (d.entries.map Prod.fst).length ≤ (m.keys.map (·.key)).length := by
    refine Key.length_le_of_distinct entries fun l listed => ?_
    obtain ⟨⟨_, r⟩, mem, rfl⟩ := List.mem_map.1 listed
    obtain ⟨k, rfl⟩ := stands.written _ mem
    have found : d.get? k.key = some r := find_of_mem stands.ascending mem k.key.same_self
    have present : (m.find k).isSome := by rw [← stands.found k, found, Option.isSome_some]
    obtain ⟨w, mem', equal⟩ := (m.present k).1 present
    exact ⟨w.key, List.mem_map_of_mem mem', Heap.KeyValue.equal_iff.1 equal⟩
  have more : (m.keys.map (·.key)).length ≤ (d.entries.map Prod.fst).length := by
    refine Key.length_le_of_distinct m.distinct_keys fun l listed => ?_
    obtain ⟨k, mem, rfl⟩ := List.mem_map.1 listed
    have present := (m.present k).2 ⟨k, mem, .refl k⟩
    obtain ⟨r, found⟩ := Option.isSome_iff_exists.1 present
    rw [← stands.found k] at found
    obtain ⟨l, mem', same⟩ := mem_of_find found
    exact ⟨l, List.mem_map_of_mem mem', same⟩
  rw [List.length_map] at fewer more
  rw [List.length_map] at fewer more
  exact Nat.le_antisymm fewer more

theorem merge (stands : d.StandsFor m) (stands' : e.StandsFor n) :
    (d.merge e).StandsFor (m.merge n) := by
  unfold Dict.merge Heap.Map.merge
  rw [stands.size, stands'.size]
  split
  · exact stands.override stands'
  · exact stands'.override stands

end Dict.StandsFor

theorem Dict.History.standsFor {h : Heap} (d : History h) : d.make.StandsFor d.map := by
  induction d with
  | empty => exact .empty
  | collect entries => exact StandsFor.empty.collect entries
  | insert d k r ih => exact ih.insert k r
  | remove d k ih => exact ih.remove k
  | merge d other ih ih' => exact ih.merge ih'

/-! ### Merging -/

/-- The list has come to its end, and its elements are these dictionaries. -/
inductive Heap.Dicts (h : Heap) : LazyList → List (Dict Ref) → Prop
  | nil : Dicts h .nil []
  | cons {head tail : Ref} {d : Dict Ref} {l : LazyList} {ds : List (Dict Ref)}
      (yields : h.Yields head (.dict d)) (known : h.Yields tail (.list l)) (others : Dicts h l ds) :
      Dicts h (.cons head tail) (d :: ds)

theorem Script.reads_forceDict {h : Heap} {r : Ref} {d : Dict Ref} (yields : h.Yields r (.dict d)) :
    (forceDict r).Reads h (.ok d) :=
  (reads_force yields rfl).bind .done

namespace Heap.Dicts
variable {h : Heap} {l : LazyList} {d : Dict Ref} {ds : List (Dict Ref)} {first rest : Ref} {n : Nat}

theorem reads_walk (dicts : h.Dicts l ds) (enough : ds.length < n) :
    (l.walk (fun (d : Dict Ref) r => do pure (.yield (d.merge (← forceDict r)))) n d).Reads h
      (.ok (ds.foldl Dict.merge d)) := by
  induction dicts generalizing d n with
  | nil =>
    obtain ⟨bound, rfl⟩ := Nat.exists_eq_add_of_lt enough
    exact .done
  | @cons head tail e l es yields known others ih =>
    obtain ⟨bound, rfl⟩ := Nat.exists_eq_add_of_lt enough
    have visit : (do pure (.yield (d.merge (← forceDict head))) : Script (ForInStep (Dict Ref))).Reads
        h (.ok (.yield (d.merge e))) := (Script.reads_forceDict yields).bind .done
    refine visit.bind ((Script.reads_forceList known).bind (ih ?_))
    simp only [List.length_cons]
    omega

/-- The function merges all its dictionaries from the left. -/
theorem reads_mergeAll (dicts : h.Dicts l ds) (yields : h.Yields first (.dict d))
    (known : h.Yields rest (.list l)) (enough : ds.length < n) :
    (Builtin.mergeAll n first rest).Reads h (.ok (.value (.dict (ds.foldl Dict.merge d)))) := by
  refine (Script.reads_force yields rfl).bind ((Script.reads_forceList known).bind ?_)
  exact (dicts.reads_walk enough).bind .done

end Heap.Dicts

/-! ### Laws -/

namespace Dict.History
variable {h : Heap}

/-- Number of different keys. -/
def count (d : History h) : Nat := d.map.keys.length

theorem make_foldl_merge (d : History h) (ds : List (History h)) :
    (ds.foldl merge d).make = (ds.map make).foldl Dict.merge d.make := by
  induction ds generalizing d with
  | nil => rfl
  | cons e ds ih => exact ih (d.merge e)

/-- What a dictionary finds under a key value, and what follows of its other entries. -/
structure Laws (d : History h) (v : h.KeyValue) : Prop where
  search : d.make.get? v.key = d.map.find v
  contains : d.make.contains v.key = (d.map.find v).isSome
  size : d.make.size = d.count
  /-- To remove a key that is not there changes nothing. -/
  absent : d.map.find v = none → d.make.erase v.key = d.make
  empty_merge : Dict.empty.merge d.make = d.make
  merge_empty : d.make.merge .empty = d.make
  /-- The right one of two dictionaries hides the left one, unless the left one is larger. -/
  right_hides : ∀ e : History h, d.count ≤ e.count →
    (d.merge e).make.get? v.key = (e.map.find v).or (d.map.find v)
  left_hides : ∀ e : History h, e.count < d.count →
    (d.merge e).make.get? v.key = (d.map.find v).or (e.map.find v)
  /-- The same keys are found however three dictionaries are merged. -/
  merge_contains : ∀ e f : History h, ((d.merge e).merge f).make.contains v.key =
    (d.merge (e.merge f)).make.contains v.key
  merge_size : ∀ e f : History h, ((d.merge e).merge f).make.size = (d.merge (e.merge f)).make.size
  /-- The same is found if the right one is never the smaller one. -/
  merge_assoc : ∀ e f : History h, d.count ≤ e.count → (d.merge e).count ≤ f.count →
    ((d.merge e).merge f).make.get? v.key = (d.merge (e.merge f)).make.get? v.key
  /-- Each key that is there is listed once, in strictly ascending order. -/
  ascending : d.make.Ascending
  listed : ∀ r, d.map.find v = some r ↔ ∃ l, (l, r) ∈ d.make.entries ∧ v.key.same l
  entries : ∀ e ∈ d.make.entries, ∃ k : h.KeyValue, k.key = e.1 ∧ d.map.find k = some e.2

/-- What the functions of the language answer that are given a dictionary and a key. -/
structure Calls (d : History h) (v : h.KeyValue) : Prop where
  insert : ∀ {c q r n}, h.Yields c (.dict d.make) → h.Yields q v.value → v.key.size ≤ n →
    (Builtin.insertInto n c q r).Reads h (.ok (.value (.dict (d.insert v r).make)))
  delete : ∀ {c q n}, h.Yields c (.dict d.make) → h.Yields q v.value → v.key.size ≤ n →
    (d.map.find v).isSome →
    (Builtin.deleteFrom n c q).Reads h (.ok (.value (.dict (d.remove v).make)))
  includes : ∀ {c q n}, h.Yields c (.dict d.make) → h.Yields q v.value → v.key.size ≤ n →
    (Builtin.includes n c q).Reads h (.ok (.value (.bool (d.map.find v).isSome)))
  index : ∀ {c q r n}, h.Yields c (.dict d.make) → h.Yields q v.value → v.key.size ≤ n →
    d.map.find v = some r → (Builtin.indexOf n c q).Reads h (.ok (.tail r))
  size : ∀ {c n}, h.Yields c (.dict d.make) →
    (Builtin.sizeOf n c).Reads h (.ok (.value (.number (.ofNat d.count))))
  merge : ∀ {c others l n} {ds : List (History h)}, h.Yields c (.dict d.make) →
    h.Yields others (.list l) → h.Dicts l (ds.map make) → ds.length < n →
    (Builtin.mergeAll n c others).Reads h (.ok (.value (.dict (ds.foldl History.merge d).make)))
  /-- Whatever a search has found in a run is what the map has. -/
  found : ∀ {E : Engine} {s s' : Store} {w w' : World} {n r}, s'.heap.Before h →
    (d.make.lookUp n v.value).Leaves E s w (.ok r) s' w' → d.map.find v = some r

variable {d e f : History h} {v : h.KeyValue} {r : Ref} {n : Nat}

theorem isSome_find_merge :
    ((d.merge e).map.find v).isSome = ((d.map.find v).isSome || (e.map.find v).isSome) := by
  simp only [map, Heap.Map.merge]
  split
  · simp [Heap.Map.overlay, Bool.or_comm]
  · simp [Heap.Map.overlay]

theorem find_merge_of_le (le : d.count ≤ e.count) :
    (d.merge e).map.find v = (e.map.find v).or (d.map.find v) := by
  have le : d.map.keys.length ≤ e.map.keys.length := le
  simp only [map, Heap.Map.merge, if_pos le]
  rfl

theorem find_merge_of_lt (lt : e.count < d.count) :
    (d.merge e).map.find v = (d.map.find v).or (e.map.find v) := by
  have lt : ¬ d.map.keys.length ≤ e.map.keys.length := Nat.not_le.2 lt
  simp only [map, Heap.Map.merge, if_neg lt]
  rfl

theorem count_le_merge_left : d.count ≤ (d.merge e).count :=
  Heap.Map.length_le fun v found => by rw [isSome_find_merge, found, Bool.true_or]

theorem count_le_merge_right : e.count ≤ (d.merge e).count :=
  Heap.Map.length_le fun v found => by rw [isSome_find_merge, found, Bool.or_true]

theorem isSome_find_merge_assoc : (((d.merge e).merge f).map.find v).isSome =
    ((d.merge (e.merge f)).map.find v).isSome := by
  simp only [isSome_find_merge, Bool.or_assoc]

theorem count_merge_assoc : ((d.merge e).merge f).count = (d.merge (e.merge f)).count := by
  apply Nat.le_antisymm
  · exact Heap.Map.length_le fun v found => isSome_find_merge_assoc ▸ found
  · exact Heap.Map.length_le fun v found => isSome_find_merge_assoc.symm ▸ found

theorem find_merge_assoc (le : d.count ≤ e.count) (le' : (d.merge e).count ≤ f.count) :
    ((d.merge e).merge f).map.find v = (d.merge (e.merge f)).map.find v := by
  have middle : e.count ≤ f.count := Nat.le_trans count_le_merge_right le'
  have outer : d.count ≤ (e.merge f).count := Nat.le_trans le count_le_merge_left
  rw [find_merge_of_le le', find_merge_of_le le, find_merge_of_le outer, find_merge_of_le middle,
    Option.or_assoc]

theorem laws (d : History h) (v : h.KeyValue) : d.Laws v where
  search := d.standsFor.found v
  contains := congrArg Option.isSome (d.standsFor.found v)
  size := d.standsFor.size
  absent absent := by
    rw [← d.standsFor.found v] at absent
    exact congrArg Dict.mk (remove_of_find absent)
  empty_merge := ofList_entries d.standsFor.ascending
  merge_empty := by
    unfold Dict.merge
    split
    · rfl
    · exact ofList_entries d.standsFor.ascending
  right_hides e le := by rw [(d.merge e).standsFor.found v, find_merge_of_le le]
  left_hides e lt := by rw [(d.merge e).standsFor.found v, find_merge_of_lt lt]
  merge_contains e f := by
    simp only [Dict.contains, StandsFor.found (standsFor _), isSome_find_merge_assoc]
  merge_size e f := by
    rw [(standsFor _).size, (standsFor _).size]
    exact count_merge_assoc
  merge_assoc e f le le' := by
    rw [(standsFor _).found v, (standsFor _).found v, find_merge_assoc le le']
  ascending := d.standsFor.ascending
  listed r := by
    rw [← d.standsFor.found v]
    constructor
    · exact mem_of_find
    · rintro ⟨l, mem, same⟩
      exact find_of_mem d.standsFor.ascending mem same
  entries e mem := by
    obtain ⟨k, same⟩ := d.standsFor.written e mem
    refine ⟨k, same, ?_⟩
    rw [← d.standsFor.found k]
    exact find_of_mem d.standsFor.ascending mem (same ▸ k.key.same_self)

theorem reads_lookUp (enough : v.key.size ≤ n) (found : d.map.find v = some r) :
    (d.make.lookUp n v.value).Reads h (.ok r) := by
  refine (v.tree.reads_ofValue enough).bind ?_
  rw [d.standsFor.found v, found]
  exact .done

theorem found_of_lookUp {E : Engine} {s s' : Store} {w w' : World} (before : s'.heap.Before h)
    (searched : (d.make.lookUp n v.value).Leaves E s w (.ok r) s' w') : d.map.find v = some r := by
  obtain ⟨k, s₁, w₁, made, answered⟩ := Script.of_leaves_bind searched
  rw [← d.standsFor.found v]
  cases found : d.make.get? k with
  | some q =>
    rw [found] at answered
    obtain ⟨same, rfl, rfl⟩ := Script.of_leaves_pure answered
    cases same
    rw [← found, v.tree.unique ((Key.tree_of_leaves made).before before)]
  | none =>
    rw [found] at answered
    obtain ⟨_, _, _, _, failed⟩ := Script.of_leaves_bind answered
    exact absurd failed Script.not_leaves_raise

theorem calls (d : History h) (v : h.KeyValue) : d.Calls v where
  insert dict key enough := by
    refine (Script.reads_force dict rfl).bind ((Script.reads_force key v.tree.isOrdered).bind ?_)
    exact (v.tree.reads_ofValue enough).bind .done
  delete dict key enough present := by
    obtain ⟨r, found⟩ := Option.isSome_iff_exists.1 present
    refine (Script.reads_force dict rfl).bind ((Script.reads_force key v.tree.isOrdered).bind ?_)
    exact (reads_lookUp enough found).bind ((v.tree.reads_ofValue enough).bind .done)
  includes dict key enough := by
    refine (Script.reads_force key v.tree.isOrdered).bind ((Script.reads_force dict rfl).bind ?_)
    refine (v.tree.reads_ofValue enough).bind ?_
    rw [(d.laws v).contains]
    exact .done
  index dict key enough found := by
    refine (Script.reads_force dict rfl).bind ((Script.reads_force key v.tree.isOrdered).bind ?_)
    exact (reads_lookUp enough found).bind .done
  size dict := by
    refine (Script.reads_force dict rfl).bind ?_
    rw [← (d.laws v).size]
    exact .done
  merge dict known dicts enough := by
    rw [make_foldl_merge]
    exact dicts.reads_mergeAll dict known (by simpa using enough)
  found := found_of_lookUp

end Dict.History

/-- Dictionaries are finite maps, and the functions that are given one answer what the map has. -/
theorem dictionaries_are_maps {h : Heap} (d : Dict.History h) (v : h.KeyValue) :
    d.Laws v ∧ d.Calls v :=
  ⟨d.laws v, d.calls v⟩

/-- Both zeros, and the end of a list. -/
def zerosHeap : Heap :=
  { cells := #[.ofValue (.number .zero), .ofValue (.number .negativeZero), .ofValue (.list .nil)] }

/-- The list of one zero, as a key value. -/
def zeroList (r : Ref) (x : Number) (yields : zerosHeap.Yields r (.number x)) :
    zerosHeap.KeyValue where
  value := .list (.cons r ⟨2⟩)
  key := .list [.number x]
  tree := .list (.cons yields (.number x) ⟨_, .refl, rfl⟩ .nil)

/-- The list of the other zero is written to the same key, which is there once. -/
theorem dictionaries_are_maps_of_zeros :
    let zero := zeroList ⟨0⟩ .zero ⟨_, .refl, rfl⟩
    let negative := zeroList ⟨1⟩ .negativeZero ⟨_, .refl, rfl⟩
    let d : Dict.History zerosHeap := .insert (.insert .empty zero ⟨0⟩) negative ⟨1⟩
    zero.Equal negative ∧ d.make.get? zero.key = some ⟨1⟩ ∧ d.make.size = 1 := by
  intro zero negative d
  have equal : zero.Equal negative := Heap.KeyValue.equal_iff.2 rfl
  have laws := (dictionaries_are_maps d zero).1
  have found : d.map.find zero = some ⟨1⟩ := by
    change (if zero.Equal negative then some ⟨1⟩
      else (Heap.Map.empty.insert zero ⟨0⟩).find zero) = some ⟨1⟩
    exact if_pos equal
  exact ⟨equal, laws.search.trans found, laws.size.trans rfl⟩

/-- A larger dictionary keeps its entry under a key of the right one, and then it matters which two of
    three are merged first. -/
theorem larger_keeps_entries :
    let a : Dict Ref := .ofList [(.string "p", ⟨0⟩), (.string "x", ⟨1⟩)]
    let b : Dict Ref := .ofList [(.string "q", ⟨2⟩)]
    let c : Dict Ref := .ofList [(.string "r", ⟨3⟩), (.string "x", ⟨4⟩)]
    let x : Dict Ref := .ofList [(.string "x", ⟨5⟩)]
    (a.merge x).get? (.string "x") = some ⟨1⟩ ∧ x.get? (.string "x") = some ⟨5⟩ ∧
      ((a.merge b).merge c).get? (.string "x") = some ⟨1⟩ ∧
      (a.merge (b.merge c)).get? (.string "x") = some ⟨4⟩ :=
  ⟨rfl, rfl, rfl, rfl⟩

end CallByNeed
