import CallByNeed.Proofs.Accounts.Making
import CallByNeed.Proofs.Dictionaries
import CallByNeed.Proofs.Positions
import CallByNeed.Proofs.RoundTrip

/- Dictionaries as lists of pairs. The list of a dictionary has a pair for each entry, in the order of
   keys; it is made cell by cell, and no cell of the dictionary is forced for it. Put into an empty
   dictionary in any order, the pairs give the dictionary back. -/
namespace CallByNeed

/-! ### Entries in any order -/

namespace Dict
variable {α : Type} {k : Key} {x : α} {es : List (Key × α)} {d : Dict α}

/-- Two keys that are told apart. -/
def Apart (e f : Key × α) : Prop := e.1.compare f.1 ≠ .eq

theorem Apart.symm {e f : Key × α} (apart : Apart e f) : Apart f e :=
  fun same => apart (Std.OrientedCmp.eq_symm same)

theorem perm_put (absent : find k es = none) : (put k x es).Perm ((k, x) :: es) := by
  induction es with
  | nil => exact .refl _
  | cons e es ih =>
    simp only [find] at absent
    split at absent
    · cases absent
    · next apart =>
      simp only [put]
      split
      · exact .refl _
      · next same => exact absurd same apart
      · exact ((ih absent).cons e).trans (.swap (k, x) e es)

/-- Keys that are all told apart do not hide each other. -/
theorem perm_foldl_insert (apart : es.Pairwise Apart) (absent : ∀ e ∈ es, d.get? e.1 = none) :
    (es.foldl (fun d e => d.insert e.1 e.2) d).entries.Perm (es ++ d.entries) := by
  induction es generalizing d with
  | nil => exact .refl _
  | cons e es ih =>
    obtain ⟨first, others⟩ := List.pairwise_cons.1 apart
    have absent' : ∀ f ∈ es, (d.insert e.1 e.2).get? f.1 = none := by
      intro f mem
      rw [get?, insert, find_put, if_neg (first f mem).symm]
      exact absent f (.tail _ mem)
    refine (ih others absent').trans ?_
    have added := perm_put (x := e.2) (absent e (.head _))
    exact (added.append_left es).trans List.perm_middle

/-- The order in which the entries are put in does not matter. -/
theorem ofList_of_perm (ascending : d.Ascending) (perm : es.Perm d.entries) : ofList es = d := by
  have apart : d.entries.Pairwise Apart := ascending.imp fun less same => by
    rw [same] at less
    cases less
  have apart : es.Pairwise Apart := (perm.pairwise_iff fun apart => apart.symm).2 apart
  have same : (ofList es).entries.Perm d.entries := by
    refine (perm_foldl_insert apart fun _ _ => rfl).trans ?_
    simpa [empty] using perm
  have sorted : ((empty : Dict α).override ⟨es⟩).Ascending := Ascending.override List.Pairwise.nil
  have equal : (ofList es).entries = d.entries :=
    same.eq_of_pairwise (fun a b _ _ less more => by
      rw [Std.OrientedCmp.gt_of_lt less] at more
      cases more) sorted ascending
  exact congrArg Dict.mk equal

end Dict

/-! ### Making the list -/

/-- The cell has been made a list of two cells, with nothing left to force. -/
def Heap.IsPair (h : Heap) (pair : Ref) (p : Ref × Ref) : Prop :=
  ∃ l, h.state? pair = some (.forced (.list l)) ∧ h.Whole l [p.1, p.2]

/-- The two cells are those of an entry: the first one yields a value of its key, with nothing left to
    force, and the second one is the value itself. -/
def Heap.Shares (h : Heap) (p : Ref × Ref) (e : Key × Ref) : Prop := h.Stands p.1 e.1 ∧ p.2 = e.2

/-- The list of entries as it is made. The first cell has the first pair, and all others are still to be
    listed, in a cell that was not there in the heap `g`. -/
inductive Heap.ListsEntries (g h : Heap) : List (Key × Ref) → LazyList → Prop
  | nil : ListsEntries g h [] .nil
  | cons {e : Key × Ref} {es : List (Key × Ref)} {p : Ref × Ref} {pair tail : Ref}
      (paired : h.IsPair pair p) (shares : h.Shares p e)
      (waits : h.state? tail = some (.pending { task := .resume (.entries es) }))
      (fresh : g.state? tail = none) : ListsEntries g h (e :: es) (.cons pair tail)

section
variable {g h h' : Heap} {pair : Ref} {p : Ref × Ref} {e : Key × Ref} {es : List (Key × Ref)}
variable {l : LazyList} {E : Engine} {s t : Store} {w : World} {n : Nat}

theorem Heap.IsPair.before (paired : h.IsPair pair p) (before : h.Before h') : h'.IsPair pair p := by
  obtain ⟨l, forced, whole⟩ := paired
  exact ⟨l, before.forced forced, whole.before before⟩

theorem Heap.Shares.before (shares : h.Shares p e) (before : h.Before h') : h'.Shares p e :=
  ⟨shares.1.before before, shares.2⟩

/-- What only makes cells leaves all others as they are. -/
theorem Script.IsMaker.enlarges {α : Type} {m : Script α} {a : α} (makes : m.IsMaker)
    (comes : m.Comes E s (.ok a) t) : s.heap.Enlarges t.heap := by
  induction makes generalizing s with
  | done =>
    cases comes
    exact Heap.enlarges_refl _
  | alloc c _ ih =>
    cases comes with
    | act rest => exact (s.enlarges_alloc c).1.trans (ih _ rest)

/-- To list entries is to make cells, whatever there is in the store. -/
theorem Dict.comes_listEntries (E : Engine) (s : Store) (sorted : (⟨es⟩ : Dict Ref).Sorted) :
    ∃ l t, (listEntries es).Comes E s (.ok l) t ∧ s.heap.Enlarges t.heap ∧
      s.heap.ListsEntries t.heap es l := by
  cases es with
  | nil => exact ⟨.nil, s, .done, s.heap.enlarges_refl, .nil⟩
  | cons e es =>
    obtain ⟨k, r⟩ := e
    obtain ⟨v, s₁, made, _, tree⟩ := Key.produces_toValue (sorted.keys _ (.head _)) s
    have larger₁ := k.isMaker_toValue.enlarges made
    obtain ⟨key, s₂, put, larger₂, known⟩ := Script.comes_allocValue E s₁ v
    obtain ⟨l, s₃, strung, larger₃, whole⟩ := Script.comes_ofRefs E s₂ [key, r]
    obtain ⟨pair, s₄, put', larger₄, known'⟩ := Script.comes_allocValue E s₃ (.list l)
    obtain ⟨larger₅, fresh, waits⟩ := s₄.enlarges_alloc (.ofSuspension (.entries es))
    have larger := larger₁.trans (larger₂.trans (larger₃.trans larger₄))
    have later := larger₃.trans (larger₄.trans larger₅)
    have paired : (s₄.act (.alloc (.ofSuspension (.entries es)))).2.heap.IsPair pair (key, r) :=
      ⟨l, larger₅.extends' _ _ known', whole.mono (larger₄.trans larger₅).extends'⟩
    have shares : (s₄.act (.alloc (.ofSuspension (.entries es)))).2.heap.Shares (key, r) (k, r) :=
      ⟨⟨v, ⟨key, .refl, later.extends' _ _ known⟩, tree.before (larger₂.trans later).before⟩, rfl⟩
    have fresh : s.heap.state? (s₄.act (.alloc (.ofSuspension (.entries es)))).1 = none := by
      refine Option.eq_none_iff_forall_ne_some.2 fun state old => ?_
      rw [larger.extends' _ _ old] at fresh
      cases fresh
    refine ⟨_, _, ?_, larger.trans larger₅, .cons paired shares waits fresh⟩
    rw [listEntries_cons]
    exact made.bind (put.bind (strung.bind (put'.bind (.act .done))))

/-- The next cell of the list is made when its tail is forced; no other cell is forced for it. -/
theorem Dict.comes_forceList {tail : Ref} (E : Engine) (sorted : (⟨es⟩ : Dict Ref).Sorted)
    (waits : s.heap.state? tail = some (.pending { task := .resume (.entries es) })) :
    ∃ l t, (forceList tail).Comes E s (.ok l) t ∧ s.Keeps t tail ∧ s.heap.ListsEntries t.heap es l := by
  obtain ⟨l, t, comes, larger, lists⟩ := Dict.comes_listEntries E (s.start tail) sorted
  have started := Store.keeps_start waits
  have forcing : t.heap.state? tail = some .forcing :=
    larger.extends' _ _ (Heap.state?_setState_self waits _)
  have published := Store.keeps_publish forcing (.list l)
  have body : ((Suspension.entries es).script E.bound).Comes E (s.start tail)
      (.ok (.value (.list l))) t := comes.bind .done
  have gives : E.Returns (.run tail none ((Suspension.entries es).script E.bound)) (s.start tail)
      (.list l) (t.publish tail (.list l)) := body.returns
  have returns : E.Returns (.enter tail) s (.list l) (t.publish tail (.list l)) :=
    .start waits gives
  have lists : s.heap.ListsEntries (t.publish tail (.list l)).heap es l := by
    cases lists with
    | nil => exact .nil
    | @cons _ _ _ _ tail' paired shares waits' fresh =>
      have other : tail' ≠ tail := by
        rintro rfl
        rw [forcing] at waits'
        cases waits'
      have fresh' : s.heap.state? tail' = none :=
        (Heap.state?_setState_ne other .forcing).symm.trans fresh
      exact .cons (paired.before published.before) (shares.before published.before)
        (published.others _ _ other waits') fresh'
  exact ⟨l, _, Engine.Returns.comes_forceList (o := .ok l) returns,
    started.trans ((larger.keeps tail).trans published), lists⟩

end

/-! ### The whole list -/

section
variable {g h : Heap} {d : Dict Ref} {es : List (Key × Ref)} {l : LazyList} {s : Store} {n : Nat}

/-- The tails of the list are forced one after the other: there are as many cells as entries, each with
    the pair of an entry. The cells of the heap `g` stay as they are. -/
theorem Heap.ListsEntries.walks (E : Engine) (w : World) (lists : g.ListsEntries s.heap es l)
    (sorted : (⟨es⟩ : Dict Ref).Sorted) (kept : g.Extends s.heap) : ∃ pairs ps t,
    E.Walks l pairs (.ok .nil) s w t w ∧ List.Forall₂ t.heap.IsPair pairs ps ∧
      List.Forall₂ t.heap.Shares ps es ∧ s.heap.Before t.heap ∧ g.Extends t.heap := by
  induction es generalizing s l with
  | nil =>
    cases lists
    exact ⟨[], [], s, .here, .nil, .nil, s.heap.before_refl, kept⟩
  | cons e es ih =>
    cases lists with
    | @cons _ _ p pair tail paired shares waits fresh =>
      obtain ⟨l, s₁, forced, keeps, lists⟩ := Dict.comes_forceList E sorted.tail waits
      have kept₁ : g.Extends s₁.heap := by
        intro q state known
        refine keeps.others q state ?_ (kept q state known)
        rintro rfl
        rw [fresh] at known
        cases known
      have lists₁ : g.ListsEntries s₁.heap es l := by
        cases lists with
        | nil => exact .nil
        | cons paired' shares' waits' fresh' =>
          have absent := Option.eq_none_iff_forall_ne_some.2 fun state old => by
            rw [kept _ state old] at fresh'
            cases fresh'
          exact .cons paired' shares' waits' absent
      obtain ⟨pairs, ps, t, walks, listed, shared, before, kept₂⟩ := ih lists₁ sorted.tail kept₁
      have later := keeps.before.trans before
      exact ⟨pair :: pairs, p :: ps, t, .next forced.leaves walks, .cons (paired.before later) listed,
        .cons (shares.before later) shared, later, kept₂⟩

/-- The cells of keys and values, one after the other. -/
def inTurn (ps : List (Ref × Ref)) : List Ref := ps.flatMap fun p => [p.1, p.2]

/-- Cells of entries are put in as they are, once the keys have been looked at. -/
theorem Dict.reads_insertPairs {ps : List (Ref × Ref)} (shared : List.Forall₂ h.Shares ps es) :
    ∃ k, ∀ n, k ≤ n → ∀ d, (Builtin.insertPairs n d (inTurn ps)).Reads h
      (.ok (es.foldl (fun d e => d.insert e.1 e.2) d)) := by
  induction shared with
  | nil => exact ⟨0, fun _ _ _ => .done⟩
  | @cons p e ps es shares _ ih =>
    obtain ⟨q, r⟩ := p
    obtain ⟨l, _⟩ := e
    obtain ⟨⟨v, yields, tree⟩, rfl⟩ := shares
    obtain ⟨k, rest⟩ := ih
    refine ⟨max k l.size, fun n enough d => ?_⟩
    have key := tree.reads_ofValue (Nat.le_trans (Nat.le_max_right ..) enough)
    have rest := rest n (Nat.le_trans (Nat.le_max_left ..) enough) (d.insert l r)
    exact (Script.reads_force yields tree.isOrdered).bind (key.bind rest)

theorem Heap.Whole.reads_elements {rs : List Ref} (whole : h.Whole l rs) (long : rs.length < n) :
    (l.elements n).Reads h (.ok rs) := by
  have walks : ∀ (n : Nat) (l : LazyList) (rs heads : List Ref), h.Whole l rs → rs.length < n →
      (l.walk (fun heads head => pure (.yield (head :: heads))) n heads).Reads h
        (.ok (rs.reverse ++ heads)) := by
    intro n
    induction n with
    | zero => exact fun _ _ _ _ long => absurd long (Nat.not_lt_zero _)
    | succ n ih =>
      intro l rs heads whole long
      cases whole with
      | nil => exact .done
      | @cons head tail l rs known whole =>
        have rest := ih l rs (head :: heads) whole (Nat.lt_of_succ_lt_succ long)
        have next : (forceList tail).Reads h (.ok l) :=
          Script.reads_forceList ⟨tail, .refl, known⟩
        simp only [List.reverse_cons, List.append_assoc, List.singleton_append]
        exact Script.Reads.bind .done (next.bind rest)
  have reads := (walks n l rs [] whole long).bind (f := fun heads => pure heads.reverse) .done
  rw [List.append_nil, List.reverse_reverse] at reads
  exact reads

/-- The function takes keys and values in turn. -/
theorem Dict.reads_dictOf {ps : List (Ref × Ref)} {arguments : Ref}
    (reads : (Builtin.insertPairs n .empty (inTurn ps)).Reads h (.ok d))
    (yields : h.Yields arguments (.list l)) (whole : h.Whole l (inTurn ps))
    (long : 2 * ps.length < n) : (Builtin.dictOf n arguments).Reads h (.ok (.value (.dict d))) := by
  have twice : (inTurn ps).length = 2 * ps.length := by
    simp [inTurn, List.length_flatMap, Nat.mul_comm]
  refine (Script.reads_forceList yields).bind ((whole.reads_elements (by omega)).bind ?_)
  rw [if_neg (by omega)]
  exact reads.bind .done

end

/-! ### Dictionaries that have been built -/

theorem Heap.KeyValue.sorted {h : Heap} (k : h.KeyValue) (heap : h.Sorted) (value : k.value.Sorted) :
    k.key.Sorted := by
  have made : (Key.ofValue k.key.size k.value).Leaves { bound := 0 } { heap := h } {} (.ok k.key)
      { heap := h } {} := (k.tree.reads_ofValue (Nat.le_refl _)).leaves
  exact (Key.sorted_of_leaves value heap made).1

namespace Dict.History
variable {h : Heap}

/-- The key values that have been written. -/
def written : History h → List h.KeyValue
  | empty => []
  | collect entries => entries.map (·.1)
  | insert d k _ => k :: d.written
  | remove d _ => d.written
  | merge d other => d.written ++ other.written

theorem sorted_make (heap : h.Sorted) (d : History h) (values : ∀ k ∈ d.written, k.value.Sorted) :
    d.make.Sorted := by
  induction d with
  | empty => exact sorted_empty
  | collect entries =>
    refine sorted_ofList fun e mem => ?_
    obtain ⟨x, known, rfl⟩ := List.mem_map.1 mem
    exact x.1.sorted heap (values x.1 (List.mem_map_of_mem known))
  | insert d k r ih =>
    obtain ⟨first, others⟩ := List.forall_mem_cons.1 values
    exact (ih others).insert (k.sorted heap first)
  | remove d k ih => exact (ih values).erase
  | merge d other ih ih' =>
    obtain ⟨left, right⟩ := List.forall_mem_append.1 values
    exact (ih left).merge (ih' right)

end Dict.History

/-- The list of a dictionary that has been built of values ends behind as many cells as there are
    entries. In strictly ascending order each key has one pair, of a value of the key and of the cell
    that is stored, and no cell that was there has changed. Keys and cells of the pairs, put into an
    empty dictionary in any order, give the same dictionary. -/
theorem listing_is_undone {h : Heap} (heap : h.Sorted) (d : Dict.History h)
    (values : ∀ k ∈ d.written, k.value.Sorted) (E : Engine) (s : Store) (w : World) (c : Ref)
    (yields : s.heap.Yields c (.dict d.make)) :
    ∃ l s₁ pairs t cells,
      (Builtin.toLazyList c).Leaves E s w (.ok (.value (.list l))) s₁ w ∧
      E.Walks l pairs (.ok .nil) s₁ w t w ∧ s.heap.Extends t.heap ∧
      pairs.length = d.make.size ∧ d.make.Ascending ∧ List.Forall₂ t.heap.IsPair pairs cells ∧
      List.Forall₂ t.heap.Shares cells d.make.entries ∧
      ∀ others : List (Ref × Ref), others.Perm cells → ∃ k, ∀ n, k ≤ n → ∀ F x y, t.heap.Before x.heap →
        (Builtin.insertPairs n .empty (inTurn others)).Leaves F x y
          (.ok d.make) x y ∧
        ∀ arguments l', x.heap.Yields arguments (.list l') →
          x.heap.Whole l' (inTurn others) →
          (Builtin.dictOf n arguments).Leaves F x y (.ok (.value (.dict d.make))) x y := by
  have sorted := d.sorted_make heap values
  obtain ⟨l, s₁, comes, larger, lists⟩ := Dict.comes_listEntries E s sorted
  obtain ⟨pairs, cells, t, walks, paired, shared, _, kept⟩ :=
    lists.walks E w sorted larger.extends'
  have forced : (force c).Leaves E s w (.ok (.dict d.make)) s w :=
    (Script.reads_force yields rfl).leaves
  have listed : (Builtin.toLazyList c).Leaves E s w (.ok (.value (.list l))) s₁ w :=
    forced.bind (comes.leaves.bind Script.leaves_pure)
  refine ⟨l, s₁, pairs, t, cells, listed, walks, kept, ?_, sorted.ascending, paired, shared, ?_⟩
  · exact paired.length_eq.trans shared.length_eq
  · intro others perm
    obtain ⟨es, shared', perm'⟩ := List.perm_comp_forall₂ perm shared
    obtain ⟨k, reads⟩ := Dict.reads_insertPairs shared'
    refine ⟨max k (2 * others.length + 1), fun n enough F x y later => ?_⟩
    have same : es.foldl (fun d e => d.insert e.1 e.2) Dict.empty = d.make :=
      Dict.ofList_of_perm sorted.ascending perm'
    have put := (reads n (by omega) .empty).before later
    rw [same] at put
    exact ⟨put.leaves, fun arguments l' known whole =>
      (Dict.reads_dictOf put known whole (by omega)).leaves⟩

/-- A bool and a list. The value of the list's entry has not been forced. -/
def mixedEntries : List (Key × Ref) := [(.bool true, ⟨1⟩), (.list [.number .one], ⟨2⟩)]

/-- The dictionary is in the first cell. -/
def mixedDictStore : Store where
  heap := ⟨#[.ofValue (.dict ⟨mixedEntries⟩), .ofValue (.number .one),
    .ofSuspension (.traced "value" ⟨1⟩), .ofValue (.list .nil)]⟩

def mixedHistory : Dict.History mixedDictStore.heap :=
  have one : mixedDictStore.heap.Yields ⟨1⟩ (.number .one) := ⟨⟨1⟩, .refl, rfl⟩
  have ended : mixedDictStore.heap.Yields ⟨3⟩ (.list .nil) := ⟨⟨3⟩, .refl, rfl⟩
  .insert (.insert .empty ⟨.list (.cons ⟨1⟩ ⟨3⟩), .list [.number .one],
    .list (.cons one (.number .one) ended .nil)⟩ ⟨2⟩) ⟨.bool true, .bool true, .bool true⟩ ⟨1⟩

/-- Both entries are listed, the value that has not been forced is left so, and the pairs give the
    dictionary back from behind. -/
theorem listing_is_undone_of_mixed :
    mixedHistory.make = ⟨mixedEntries⟩ ∧ mixedDictStore.heap.Sorted ∧
    (∀ k ∈ mixedHistory.written, k.value.Sorted) ∧
    ∃ l s₁ pairs t cells,
      (Builtin.toLazyList ⟨0⟩).Leaves { bound := 1 } mixedDictStore {} (.ok (.value (.list l))) s₁ {} ∧
      Engine.Walks { bound := 1 } l pairs (.ok .nil) s₁ {} t {} ∧ pairs.length = 2 ∧
      t.heap.state? ⟨2⟩ = some (.pending { task := .resume (.traced "value" ⟨1⟩) }) ∧
      List.Forall₂ t.heap.Shares cells mixedEntries ∧
      ∃ n, (Builtin.insertPairs n .empty (inTurn cells.reverse)).Leaves { bound := 1 } t {}
        (.ok ⟨mixedEntries⟩) t {} := by
  have made : mixedHistory.make = ⟨mixedEntries⟩ := rfl
  have sorted : (⟨mixedEntries⟩ : Dict Ref).Sorted :=
    ⟨List.pairwise_pair.2 rfl, by simp [mixedEntries, Key.Sorted, Key.sortedAll]⟩
  have heap : mixedDictStore.heap.Sorted := by
    apply Heap.sorted_of_cells
    simpa [mixedDictStore, Cell.ofSuspension, Cell.ofValue, CellState.Sorted, Task.Sorted,
      Suspension.Sorted, Value.Sorted] using sorted
  have values : ∀ k ∈ mixedHistory.written, k.value.Sorted := by
    simp [mixedHistory, Dict.History.written, Value.Sorted]
  obtain ⟨l, s₁, pairs, t, cells, listed, walks, kept, size, _, _, shared, undone⟩ :=
    listing_is_undone heap mixedHistory values { bound := 1 } mixedDictStore {} ⟨0⟩ ⟨⟨0⟩, .refl, rfl⟩
  obtain ⟨k, put⟩ := undone cells.reverse cells.reverse_perm
  obtain ⟨back, _⟩ := put k (Nat.le_refl k) { bound := 1 } t {} (Heap.before_refl _)
  exact ⟨made, heap, values, l, s₁, pairs, t, cells, listed, walks, size, kept _ _ rfl, shared, k,
    back⟩

end CallByNeed
