import CallByNeed.Proofs.Reading.Runs
import CallByNeed.Proofs.Reading.Values

/- Values that are finite trees once they have been forced all the way down. To make the key of a value
   is to force its parts from the front; it leaves a heap in which the value is a tree, and where it
   is one already nothing is left to force. -/
namespace CallByNeed

mutual
/-- Every part of the value has been forced, and the value is the finite tree that the key writes
    down. -/
inductive Heap.Tree (h : Heap) : Value → Key → Prop
  | bool (b : Bool) : Tree h (.bool b) (.bool b)
  | number (x : Number) : Tree h (.number x) (.number x)
  | string (s : String) : Tree h (.string s) (.string s)
  | list {l : LazyList} {ks : List Key} (elements : Trees h l ks) : Tree h (.list l) (.list ks)
  | dict {d : Dict Ref} {es : List (Key × Key)} (entries : Entries h d.entries es) :
      Tree h (.dict d) (.dict es)

/-- The list has come to its end, and its elements are trees. -/
inductive Heap.Trees (h : Heap) : LazyList → List Key → Prop
  | nil : Trees h .nil []
  | cons {head tail : Ref} {v : Value} {k : Key} {l : LazyList} {ks : List Key}
      (yields : h.Yields head v) (tree : Tree h v k) (known : h.Yields tail (.list l))
      (elements : Trees h l ks) : Trees h (.cons head tail) (k :: ks)

inductive Heap.Entries (h : Heap) : List (Key × Ref) → List (Key × Key) → Prop
  | nil : Entries h [] []
  | cons {k x : Key} {r : Ref} {v : Value} {rs : List (Key × Ref)} {es : List (Key × Key)}
      (yields : h.Yields r v) (tree : Tree h v x) (entries : Entries h rs es) :
      Entries h ((k, r) :: rs) ((k, x) :: es)
end

mutual
/-- Forced all the way down, each part before the next tail, the value is the tree that the key writes
    down. -/
inductive Engine.Unfolds (E : Engine) : Store → World → Value → Key → Store → World → Prop
  | bool {s : Store} {w : World} (b : Bool) : Unfolds E s w (.bool b) (.bool b) s w
  | number {s : Store} {w : World} (x : Number) : Unfolds E s w (.number x) (.number x) s w
  | string {s : Store} {w : World} (text : String) : Unfolds E s w (.string text) (.string text) s w
  | list {s s' : Store} {w w' : World} {l : LazyList} {ks : List Key}
      (elements : Unrolls E s w l ks s' w') : Unfolds E s w (.list l) (.list ks) s' w'
  | dict {s s' : Store} {w w' : World} {d : Dict Ref} {es : List (Key × Key)}
      (entries : Uncovers E s w d.entries es s' w') : Unfolds E s w (.dict d) (.dict es) s' w'

inductive Engine.Unrolls (E : Engine) : Store → World → LazyList → List Key → Store → World → Prop
  | nil {s : Store} {w : World} : Unrolls E s w .nil [] s w
  | cons {s s₁ s₂ s₃ s' : Store} {w w₁ w₂ w₃ w' : World} {head tail : Ref} {v : Value} {k : Key}
      {l : LazyList} {ks : List Key} (first : (force head).Leaves E s w (.ok v) s₁ w₁)
      (tree : Unfolds E s₁ w₁ v k s₂ w₂) (next : (force tail).Leaves E s₂ w₂ (.ok (.list l)) s₃ w₃)
      (rest : Unrolls E s₃ w₃ l ks s' w') : Unrolls E s w (.cons head tail) (k :: ks) s' w'

inductive Engine.Uncovers (E : Engine) :
    Store → World → List (Key × Ref) → List (Key × Key) → Store → World → Prop
  | nil {s : Store} {w : World} : Uncovers E s w [] [] s w
  | cons {s s₁ s₂ s' : Store} {w w₁ w₂ w' : World} {k x : Key} {r : Ref} {v : Value}
      {rs : List (Key × Ref)} {es : List (Key × Key)}
      (first : (force r).Leaves E s w (.ok v) s₁ w₁) (tree : Unfolds E s₁ w₁ v x s₂ w₂)
      (rest : Uncovers E s₂ w₂ rs es s' w') : Uncovers E s w ((k, r) :: rs) ((k, x) :: es) s' w'
end

namespace Key

mutual
/-- A bound with which a value of this key can be gone through. -/
def size : Key → Nat
  | .bool _ | .number _ | .string _ => 1
  | .list keys => sizes keys + 1
  | .dict entries => entrySizes entries + 1

def sizes : List Key → Nat
  | [] => 1
  | k :: ks => k.size + sizes ks

def entrySizes : List (Key × Key) → Nat
  | [] => 0
  | (_, x) :: es => x.size + entrySizes es
end

theorem size_pos (k : Key) : 0 < k.size := by
  cases k <;> simp [size]

theorem length_lt_sizes (ks : List Key) : ks.length < sizes ks := by
  induction ks with
  | nil => simp [sizes]
  | cons k ks ih =>
    have first := k.size_pos
    simp only [sizes, List.length_cons]
    omega

end Key

namespace Heap
variable {h h' : Heap} {v : Value} {k : Key}

/-- A tree is no fault and no effect. -/
theorem Tree.isOrdered (tree : h.Tree v k) : v.isOrdered = true := by
  cases tree <;> rfl

/-- The keys of the entries are in the key as they are. -/
theorem Entries.keys_eq {rs : List (Key × Ref)} :
    ∀ {es : List (Key × Key)}, h.Entries rs es → rs.map Prod.fst = es.map Prod.fst := by
  induction rs with
  | nil =>
    rintro _ ⟨⟩
    rfl
  | cons e rs ih =>
    rintro _ (_ | ⟨_, _, entries⟩)
    simp [ih entries]

mutual
theorem Tree.before (before : h.Before h') : ∀ {v : Value} {k : Key}, h.Tree v k → h'.Tree v k
  | _, _, .bool b => .bool b
  | _, _, .number x => .number x
  | _, _, .string s => .string s
  | _, _, .list elements => .list (elements.before before)
  | _, _, .dict entries => .dict (entries.before before)

theorem Trees.before (before : h.Before h') :
    ∀ {l : LazyList} {ks : List Key}, h.Trees l ks → h'.Trees l ks
  | _, _, .nil => .nil
  | _, _, .cons yields tree known elements =>
    .cons (before.yields yields) (tree.before before) (before.yields known) (elements.before before)

theorem Entries.before (before : h.Before h') :
    ∀ {rs : List (Key × Ref)} {es : List (Key × Key)}, h.Entries rs es → h'.Entries rs es
  | _, _, .nil => .nil
  | _, _, .cons yields tree entries =>
    .cons (before.yields yields) (tree.before before) (entries.before before)
end

end Heap

/-! ### Trees and unfolding -/

section
variable {E : Engine} {s s' : Store} {w w' : World}

/-- What forcing a cell answers is what the cell yields from then on. -/
theorem yields_of_leaves_force {r : Ref} {v : Value} (forced : (force r).Leaves E s w (.ok v) s' w') :
    s.heap.Before s'.heap ∧ s'.heap.Yields r v := by
  obtain ⟨before, reads⟩ := (Script.isReader_force r).reads_of_leaves forced
  exact ⟨before, Script.yields_of_reads_force reads⟩

mutual
theorem Engine.Unfolds.tree : ∀ {s s' : Store} {w w' : World} {v : Value} {k : Key},
    E.Unfolds s w v k s' w' → s.heap.Before s'.heap ∧ s'.heap.Tree v k
  | _, _, _, _, _, _, .bool b => ⟨Heap.before_refl _, .bool b⟩
  | _, _, _, _, _, _, .number x => ⟨Heap.before_refl _, .number x⟩
  | _, _, _, _, _, _, .string text => ⟨Heap.before_refl _, .string text⟩
  | _, _, _, _, _, _, .list elements => ⟨elements.trees.1, .list elements.trees.2⟩
  | _, _, _, _, _, _, .dict entries => ⟨entries.entries.1, .dict entries.entries.2⟩

theorem Engine.Unrolls.trees : ∀ {s s' : Store} {w w' : World} {l : LazyList} {ks : List Key},
    E.Unrolls s w l ks s' w' → s.heap.Before s'.heap ∧ s'.heap.Trees l ks
  | _, _, _, _, _, _, .nil => ⟨Heap.before_refl _, .nil⟩
  | _, _, _, _, _, _, .cons first tree next rest => by
    obtain ⟨before₁, yields⟩ := yields_of_leaves_force first
    obtain ⟨before₂, tree⟩ := tree.tree
    obtain ⟨before₃, known⟩ := yields_of_leaves_force next
    obtain ⟨before₄, elements⟩ := rest.trees
    have later := before₃.trans before₄
    refine ⟨before₁.trans (before₂.trans later), .cons ?_ (tree.before later) ?_ elements⟩
    · exact (before₂.trans later).yields yields
    · exact before₄.yields known

theorem Engine.Uncovers.entries : ∀ {s s' : Store} {w w' : World} {rs : List (Key × Ref)}
    {es : List (Key × Key)}, E.Uncovers s w rs es s' w' →
      s.heap.Before s'.heap ∧ s'.heap.Entries rs es
  | _, _, _, _, _, _, .nil => ⟨Heap.before_refl _, .nil⟩
  | _, _, _, _, _, _, .cons first tree rest => by
    obtain ⟨before₁, yields⟩ := yields_of_leaves_force first
    obtain ⟨before₂, tree⟩ := tree.tree
    obtain ⟨before₃, entries⟩ := rest.entries
    refine ⟨before₁.trans (before₂.trans before₃), .cons ?_ (tree.before before₃) entries⟩
    exact (before₂.trans before₃).yields yields
end

mutual
/-- To unfold what is a tree already changes nothing. -/
theorem Heap.Tree.unfolds : ∀ {v : Value} {k : Key}, s.heap.Tree v k → E.Unfolds s w v k s w
  | _, _, .bool b => .bool b
  | _, _, .number x => .number x
  | _, _, .string text => .string text
  | _, _, .list elements => .list elements.unrolls
  | _, _, .dict entries => .dict entries.uncovers

theorem Heap.Trees.unrolls : ∀ {l : LazyList} {ks : List Key}, s.heap.Trees l ks →
    E.Unrolls s w l ks s w
  | _, _, .nil => .nil
  | _, _, .cons yields tree known elements =>
    .cons (Script.reads_force yields tree.isOrdered).leaves tree.unfolds
      (Script.reads_force known rfl).leaves elements.unrolls

theorem Heap.Entries.uncovers : ∀ {rs : List (Key × Ref)} {es : List (Key × Key)},
    s.heap.Entries rs es → E.Uncovers s w rs es s w
  | _, _, .nil => .nil
  | _, _, .cons yields tree entries =>
    .cons (Script.reads_force yields tree.isOrdered).leaves tree.unfolds entries.uncovers
end

end

/-! ### Keys are made by unfolding -/

theorem leaves_forceList_iff {E : Engine} {s s' : Store} {w w' : World} {r : Ref} {l : LazyList} :
    (forceList r).Leaves E s w (.ok l) s' w' ↔ (force r).Leaves E s w (.ok (.list l)) s' w' := by
  constructor
  · intro forced
    obtain ⟨v, s₁, w₁, first, rest⟩ := Script.of_leaves_bind forced
    cases v with
    | list l' =>
      obtain ⟨rfl, rfl, rfl⟩ := Script.of_leaves_pure rest
      exact first
    | _ => exact absurd rest Script.not_leaves_raise
  · exact fun forced => forced.bind Script.leaves_pure

namespace Key
variable {E : Engine} {s s' : Store} {w w' : World}

theorem unrolls_of_leaves {f : Value → Script Key}
    (each : ∀ {s s' : Store} {w w' : World} {v : Value} {k : Key},
      (f v).Leaves E s w (.ok k) s' w' → E.Unfolds s w v k s' w')
    (bound : Nat) {l : LazyList} {keys found : List Key}
    (leaves : (l.walk (fun keys r => do
      let key ← f (← force r)
      pure (.yield (key :: keys))) bound keys).Leaves E s w (.ok found) s' w') :
    ∃ ks, found = ks.reverse ++ keys ∧ E.Unrolls s w l ks s' w' := by
  induction bound generalizing l keys s w with
  | zero => exact absurd leaves Script.not_leaves_stall
  | succ bound ih =>
    cases l with
    | nil =>
      obtain ⟨rfl, rfl, rfl⟩ := Script.of_leaves_pure leaves
      exact ⟨[], rfl, .nil⟩
    | cons head tail =>
      obtain ⟨step, s₂, w₂, visit, goesOn⟩ := Script.of_leaves_bind leaves
      obtain ⟨v, s₁, w₁, first, visit⟩ := Script.of_leaves_bind visit
      obtain ⟨k, _, _, made, visit⟩ := Script.of_leaves_bind visit
      obtain ⟨rfl, rfl, rfl⟩ := Script.of_leaves_pure visit
      obtain ⟨rest, s₃, w₃, next, goesOn⟩ := Script.of_leaves_bind goesOn
      obtain ⟨ks, rfl, elements⟩ := ih goesOn
      refine ⟨k :: ks, by simp, .cons first (each made) ?_ elements⟩
      exact leaves_forceList_iff.1 next

theorem uncovers_of_leaves {f : Value → Script Key}
    (each : ∀ {s s' : Store} {w w' : World} {v : Value} {k : Key},
      (f v).Leaves E s w (.ok k) s' w' → E.Unfolds s w v k s' w')
    {rs : List (Key × Ref)} {es : List (Key × Key)}
    (leaves : (ofEntries f rs).Leaves E s w (.ok es) s' w') : E.Uncovers s w rs es s' w' := by
  induction rs generalizing es s w with
  | nil =>
    obtain ⟨rfl, rfl, rfl⟩ := Script.of_leaves_pure leaves
    exact .nil
  | cons entry rs ih =>
    obtain ⟨v, s₁, w₁, first, leaves⟩ := Script.of_leaves_bind leaves
    obtain ⟨x, s₂, w₂, made, leaves⟩ := Script.of_leaves_bind leaves
    obtain ⟨others, _, _, rest, leaves⟩ := Script.of_leaves_bind leaves
    obtain ⟨rfl, rfl, rfl⟩ := Script.of_leaves_pure leaves
    exact .cons first (each made) (ih rest)

theorem unfolds_of_leaves {n : Nat} {v : Value} {k : Key}
    (leaves : (ofValue n v).Leaves E s w (.ok k) s' w') : E.Unfolds s w v k s' w' := by
  induction n generalizing v k s s' w w' with
  | zero => exact absurd leaves Script.not_leaves_stall
  | succ n ih =>
    cases v with
    | bool b =>
      obtain ⟨rfl, rfl, rfl⟩ := Script.of_leaves_pure leaves
      exact .bool b
    | number x =>
      obtain ⟨rfl, rfl, rfl⟩ := Script.of_leaves_pure leaves
      exact .number x
    | string text =>
      obtain ⟨rfl, rfl, rfl⟩ := Script.of_leaves_pure leaves
      exact .string text
    | list l =>
      obtain ⟨found, s₁, w₁, walked, leaves⟩ := Script.of_leaves_bind leaves
      obtain ⟨rfl, rfl, rfl⟩ := Script.of_leaves_pure leaves
      obtain ⟨ks, rfl, elements⟩ := unrolls_of_leaves ih n walked
      rw [List.append_nil, List.reverse_reverse]
      exact .list elements
    | dict d =>
      obtain ⟨es, s₁, w₁, read, leaves⟩ := Script.of_leaves_bind leaves
      obtain ⟨rfl, rfl, rfl⟩ := Script.of_leaves_pure leaves
      exact .dict (uncovers_of_leaves ih read)
    | _ => exact absurd leaves Script.not_leaves_raise

end Key

namespace Engine
variable {E : Engine}

mutual
/-- The key of what unfolds is made with any bound that is large enough. -/
theorem Unfolds.leaves : ∀ {s s' : Store} {w w' : World} {v : Value} {k : Key},
    E.Unfolds s w v k s' w' → ∀ {n : Nat}, k.size ≤ n →
      (Key.ofValue n v).Leaves E s w (.ok k) s' w'
  | _, _, _, _, _, k, _, 0, enough => absurd enough (Nat.not_le.2 k.size_pos)
  | _, _, _, _, _, _, .bool b, n + 1, _ => Script.leaves_pure
  | _, _, _, _, _, _, .number x, n + 1, _ => Script.leaves_pure
  | _, _, _, _, _, _, .string text, n + 1, _ => Script.leaves_pure
  | _, _, _, _, _, _, @Unfolds.list _ _ _ _ _ l ks elements, n + 1, enough => by
    have enough := Nat.le_of_succ_le_succ enough
    have long := Nat.lt_of_lt_of_le (Key.length_lt_sizes ks) enough
    refine (elements.leaves enough long []).bind ?_
    rw [List.append_nil, List.reverse_reverse]
    exact Script.leaves_pure
  | _, _, _, _, _, _, .dict entries, n + 1, enough =>
    (entries.leaves (Nat.le_of_succ_le_succ enough)).bind Script.leaves_pure

theorem Unrolls.leaves : ∀ {s s' : Store} {w w' : World} {l : LazyList} {ks : List Key},
    E.Unrolls s w l ks s' w' → ∀ {n bound : Nat}, Key.sizes ks ≤ n → ks.length < bound →
      ∀ keys : List Key, (l.walk (fun keys r => do
        let key ← Key.ofValue n (← force r)
        pure (.yield (key :: keys))) bound keys).Leaves E s w (.ok (ks.reverse ++ keys)) s' w'
  | _, _, _, _, _, _, _, _, 0, _, long, _ => absurd long (Nat.not_lt_zero _)
  | _, _, _, _, _, _, .nil, _, bound + 1, _, _, keys => Script.leaves_pure
  | _, _, _, _, _, _, @Unrolls.cons _ _ s₁ s₂ _ _ _ w₁ w₂ _ _ head _ v k l ks first tree next rest,
      n, bound + 1, enough, long, keys => by
    simp only [Key.sizes] at enough
    simp only [List.length_cons] at long
    have made := tree.leaves (n := n) (by omega)
    have others := rest.leaves (n := n) (Nat.le_trans (by omega) enough)
      (Nat.lt_of_succ_lt_succ long) (k :: keys)
    have visit := first.bind (f := fun v => do
      let key ← Key.ofValue n v
      pure (ForInStep.yield (key :: keys))) (made.bind Script.leaves_pure)
    rw [List.reverse_cons, List.append_assoc]
    exact visit.bind ((leaves_forceList_iff.2 next).bind others)

theorem Uncovers.leaves : ∀ {s s' : Store} {w w' : World} {rs : List (Key × Ref)}
    {es : List (Key × Key)}, E.Uncovers s w rs es s' w' → ∀ {n : Nat}, Key.entrySizes es ≤ n →
      (Key.ofEntries (Key.ofValue n) rs).Leaves E s w (.ok es) s' w'
  | _, _, _, _, _, _, .nil, _, _ => Script.leaves_pure
  | _, _, _, _, _, _, .cons first tree rest, n, enough => by
    simp only [Key.entrySizes] at enough
    have made := tree.leaves (n := n) (by omega)
    have others := rest.leaves (n := n) (by omega)
    exact first.bind (made.bind (others.bind Script.leaves_pure))
end

end Engine

/-! ### Where nothing is left to force -/

section
variable {h : Heap} {v : Value} {k l : Key} {n : Nat}

/-- A value whose key has been made is a tree from then on. -/
theorem Key.tree_of_leaves {E : Engine} {s s' : Store} {w w' : World}
    (made : (Key.ofValue n v).Leaves E s w (.ok k) s' w') : s'.heap.Tree v k :=
  (Key.unfolds_of_leaves made).tree.2

/-- The key of a tree is read with any bound that is large enough. -/
theorem Heap.Tree.reads_ofValue (tree : h.Tree v k) (enough : k.size ≤ n) :
    (Key.ofValue n v).Reads h (.ok k) := by
  have unfolds : Engine.Unfolds { bound := 0 } { heap := h } {} v k { heap := h } {} := tree.unfolds
  exact ((Key.isReader_ofValue n v).reads_of_leaves (unfolds.leaves enough)).2

theorem Heap.Tree.unique (tree : h.Tree v k) (tree' : h.Tree v l) : k = l := by
  have reads := tree.reads_ofValue (Nat.le_max_left k.size l.size)
  have reads' := tree'.reads_ofValue (Nat.le_max_right k.size l.size)
  exact Except.ok.inj (reads.unique reads')

end
end CallByNeed
