import CallByNeed.Proofs.Keys.Comparing
import CallByNeed.Proofs.Reading.Runs
import CallByNeed.Proofs.Reading.Values

/- Three ways of comparing two values agree: their equality, their order, and the order of the keys
   that can be made of them. -/
namespace CallByNeed

/-- An equality and an order of values are those of their keys. -/
structure Key.Agrees (k l : Key) (e : Except Fault Bool) (o : Except Fault Ordering) : Prop where
  equal : e = .ok (k.same l)
  order : ∀ order, o = .ok order → order = k.compare l
  equals : o = .ok .eq ↔ e = .ok true
  /-- There is no order only if the first difference is between values of two types. -/
  faults : ∀ fault, o = .error fault → fault.name = "NotComparableError" ∧
    ∃ t u, fault.cause = .mixedComparison t u ∧ k.Mixed l t u

theorem Key.Compares.agrees {k l : Key} {o : Except Fault Ordering}
    (compares : Compares (k.Mixed l) (k.compare l) o) : k.Agrees l (.ok (k.same l)) o := by
  cases compares with
  | ordered =>
    constructor
    case equal => rfl
    case order =>
      rintro order ⟨⟩
      rfl
    case equals => simp [compare_eq_iff_same]
    case faults => rintro fault ⟨⟩
  | fault mixed =>
    constructor
    case equal => rfl
    case order => rintro order ⟨⟩
    case equals => simp [mixed.not_same]
    case faults =>
      rintro fault ⟨⟩
      exact ⟨rfl, _, _, rfl, mixed⟩

section
variable {h : Heap} {a b : Value} {k l : Key} {bound : Nat} {E : Engine} {s s' : Store}
variable {w w' : World}

/-- Whenever two trees have been compared for equality, it was the equality of their keys. -/
theorem Heap.Tree.equal_of_leaves (left : h.Tree a k) (right : h.Tree b l)
    {e : Except Fault Bool} (ran : (Value.equal bound a b).Leaves E s w e s' w')
    (before : s'.heap.Before h) : e = .ok (k.same l) := by
  have reads := ((Value.isReader_equal bound a b).reads_of_leaves ran).2.before before
  have reads := Value.reads_equal_of_le (Nat.le_max_left bound k.size) reads
  exact reads.unique (left.reads_equal right (Nat.le_max_right bound k.size))

theorem Heap.Tree.compares_of_leaves (left : h.Tree a k) (right : h.Tree b l)
    {o : Except Fault Ordering} (ran : (Value.compare bound a b).Leaves E s w o s' w')
    (before : s'.heap.Before h) : Key.Compares (k.Mixed l) (k.compare l) o := by
  have reads := ((Value.isReader_compare bound a b).reads_of_leaves ran).2.before before
  have reads := Value.reads_compare_of_le (Nat.le_max_left bound k.size) reads
  obtain ⟨o', reads', compares⟩ := left.reads_compare right (Nat.le_max_right bound k.size)
  exact reads.unique reads' ▸ compares

end

/-- If two values have keys, to compare the values is to compare the keys: with a large enough bound
    both comparisons come to an end in any store in which the keys have been made, and any that has
    come to an end on the way there has come to the same. -/
theorem comparisons_follow_keys {a b : Value} {k l : Key} {m n : Nat} {E E' : Engine}
    {s s' t t' : Store} {w w' u u' : World}
    (left : (Key.ofValue m a).Leaves E s w (.ok k) s' w')
    (right : (Key.ofValue n b).Leaves E' t u (.ok l) t' u') {x : Store}
    (left_made : s'.heap.Before x.heap) (right_made : t'.heap.Before x.heap) :
    (∀ (F : Engine) (world : World) (bound : Nat), k.size ≤ bound → ∃ e o,
      (Value.equal bound a b).Leaves F x world e x world ∧
      (Value.compare bound a b).Leaves F x world o x world ∧ k.Agrees l e o) ∧
    ∀ (F : Engine) (bound : Nat) (y y' : Store) (v v' : World), y'.heap.Before x.heap →
      (∀ e, (Value.equal bound a b).Leaves F y v e y' v' → e = .ok (k.same l)) ∧
      ∀ o, (Value.compare bound a b).Leaves F y v o y' v' → k.Agrees l (.ok (k.same l)) o := by
  have left := (Key.tree_of_leaves left).before left_made
  have right := (Key.tree_of_leaves right).before right_made
  constructor
  · intro F world bound enough
    obtain ⟨o, reads, compares⟩ := left.reads_compare right enough
    exact ⟨_, o, (left.reads_equal right enough).leaves, reads.leaves, compares.agrees⟩
  · intro F bound y y' v v' before
    constructor
    · exact fun e ran => left.equal_of_leaves right ran before
    · exact fun o ran => (left.compares_of_leaves right ran before).agrees

/-- A list whose element is still to be forced, and a list of another element. -/
def comparedStore : Store where
  heap := { cells := #[.ofSuspension (.traced "one" ⟨3⟩), .ofValue (.list .nil),
    .ofValue (.string "x"), .ofValue (.number .one)] }

/-- The lists of a number and of a string are unequal, and have no order. -/
theorem comparisons_follow_keys_of_lists :
    let a : Value := .list (.cons ⟨0⟩ ⟨1⟩)
    let b : Value := .list (.cons ⟨2⟩ ⟨1⟩)
    let k : Key := .list [.number .one]
    let l : Key := .list [.string "x"]
    ∃ s' t' e o, (Key.ofValue 3 a).Leaves { bound := 3 } comparedStore {} (.ok k) s' {} ∧
      (Key.ofValue 3 b).Leaves { bound := 3 } s' {} (.ok l) t' {} ∧
      (Value.equal 3 a b).Leaves { bound := 3 } t' {} e t' {} ∧
      (Value.compare 3 a b).Leaves { bound := 3 } t' {} o t' {} ∧ k.Agrees l e o := by
  intro a b k l
  have made : ∃ s' t', (Key.ofValue 3 a).Leaves { bound := 3 } comparedStore {} (.ok k) s' {} ∧
      (Key.ofValue 3 b).Leaves { bound := 3 } s' {} (.ok l) t' {} :=
    ⟨_, _, ⟨20, rfl⟩, 20, rfl⟩
  obtain ⟨s', t', left, right⟩ := made
  have later := ((Key.isReader_ofValue 3 b).reads_of_leaves right).1
  obtain ⟨e, o, equal, order, agrees⟩ := (comparisons_follow_keys left right later
    (Heap.before_refl _)).1 { bound := 3 } {} 3 (by decide)
  exact ⟨s', t', e, o, left, right, equal, order, agrees⟩

end CallByNeed
