import CallByNeed.Arguments

/- Two scripts in step. Each has a list of which only a number of cells may be drawn. As long as
   these cells have the same heads, and all else that is demanded is the same, both do the same:
   they demand a cell of both, or the next cell of each list, and make cells side by side. -/
namespace CallByNeed

/-- Cells made at the same place of two scripts. -/
structure Twins where
  left : Ref
  right : Ref
  leftCell : Cell
  rightCell : Cell

/-- How far two scripts have come. -/
structure Stage where
  /-- How many more cells of each list may be drawn. -/
  budget : Nat
  /-- What is left of the lists. -/
  left : Option Ref
  right : Option Ref
  /-- The cells made so far. -/
  made : List Twins

namespace Stage

def Made (x : Stage) (r r' : Ref) (c c' : Cell) : Prop := ⟨r, r', c, c'⟩ ∈ x.made

def make (x : Stage) (w : Twins) : Stage := { x with made := w :: x.made }

/-- One more cell of each list has been drawn. -/
def draw (x : Stage) (left right : Option Ref) : Stage :=
  { x with budget := x.budget - 1, left, right }

/-- What was made stays made, and lists of which no more may be drawn stay as they are. -/
structure Before (x y : Stage) : Prop where
  made : x.made ⊆ y.made
  spent : x.budget = 0 → y.budget = 0 ∧ y.left = x.left ∧ y.right = x.right

/-- What is left of two lists of which no more cells may be drawn. -/
def Open (x : Stage) (l l' : Ref) : Prop := x.budget = 0 ∧ x.left = some l ∧ x.right = some l'

/-- Cells have been made and none has been drawn. -/
structure Makes (x y : Stage) : Prop where
  budget : y.budget = x.budget
  left : y.left = x.left
  right : y.right = x.right

end Stage

/-- A cell of a list, with a head and a tail. -/
def Value.IsCell : Value → Prop
  | .list (.cons _ _) => True
  | _ => False

/-- One dictionary of both, or two of the same entries. -/
inductive SameDict (known : Ref → Prop) (made : Ref → Ref → Cell → Cell → Prop) : Ref → Ref → Prop
  | one {r : Ref} (is : known r) : SameDict known made r r
  | made {r r' : Ref} {d : Dict Ref} (cells : made r r' (.ofValue (.dict d)) (.ofValue (.dict d))) :
      SameDict known made r r'

/-- One cell of both, or two with the same value. -/
inductive SameCell (made : Ref → Ref → Cell → Cell → Prop) : Ref → Ref → Prop
  | one (r : Ref) : SameCell made r r
  | made {r r' : Ref} {v : Value} (cells : made r r' (.ofValue v) (.ofValue v)) :
      SameCell made r r'

/-- Lists with the same elements, all of whose cells are forced. -/
inductive SameList (made : Ref → Ref → Cell → Cell → Prop) : LazyList → LazyList → Prop
  | nil : SameList made .nil .nil
  | cons {head tail tail' : Ref} {l l' : LazyList}
      (cells : made tail tail' (.ofValue (.list l)) (.ofValue (.list l')))
      (rest : SameList made l l') : SameList made (.cons head tail) (.cons head tail')

/-- Calls of `merge` that have not begun. -/
inductive MergeCalls (made : Ref → Ref → Cell → Cell → Prop) (rs rs' : List Ref) (r r' : Ref) : Prop
  | intro {f f' : Ref}
      (callee : made f f' (.ofValue (.function Builtin.merge.function))
        (.ofValue (.function Builtin.merge.function)))
      (call : made r r' (.ofCall f { positionals := rs }) (.ofCall f' { positionals := rs' })) :
      MergeCalls made rs rs' r r'

/-- Two scripts do the same from a stage on, whatever the cells are that they make, and end alike.
    Of the lists they draw the cells one after the other; if one of them does not come to a head and
    a tail, both are answered the same. -/
inductive Script.InStep (known : Ref → Prop) {α : Type} (post : Stage → α → α → Prop) :
    Stage → Script α → Script α → Prop
  | done {x : Stage} {a a' : α} (holds : post x a a') : InStep known post x (.done a) (.done a')
  | raise {x : Stage} {e : Fault} : InStep known post x (.raise e) (.raise e)
  | draw {x : Stage} {l l' : Ref} {next next' : Value → Script α} (some_left : 0 < x.budget)
      (left : x.left = some l) (right : x.right = some l')
      (cell : ∀ head tail tail', InStep known post (x.draw (some tail) (some tail'))
        (next (.list (.cons head tail))) (next' (.list (.cons head tail'))))
      (other : ∀ v : Value, ¬ v.IsCell → InStep known post (x.draw none none) (next v) (next' v)) :
      InStep known post x (.demand .pure l next) (.demand .pure l' next')
  | demand {x : Stage} {r r' : Ref} {next next' : Value → Script α}
      (same : SameDict known x.Made r r')
      (rest : ∀ v, InStep known post x (next v) (next' v)) :
      InStep known post x (.demand .pure r next) (.demand .pure r' next')
  | alloc {x : Stage} {c c' : Cell} {next next' : Ref → Script α}
      (rest : ∀ r r', InStep known post (x.make ⟨r, r', c, c'⟩) (next r) (next' r')) :
      InStep known post x (.act (.alloc c) next) (.act (.alloc c') next')

theorem Value.exists_of_isCell {v : Value} (is : v.IsCell) :
    ∃ head tail, v = .list (.cons head tail) := by
  cases v with
  | list l =>
    cases l with
    | nil => exact is.elim
    | cons head tail => exact ⟨head, tail, rfl⟩
  | _ => exact is.elim

/-! ### Stages -/

section
variable {x y z : Stage} {known : Ref → Prop} {r r' : Ref}

namespace Stage

theorem before_refl (x : Stage) : x.Before x := ⟨List.Subset.refl _, fun spent => ⟨spent, rfl, rfl⟩⟩

theorem Before.trans (first : x.Before y) (rest : y.Before z) : x.Before z where
  made := List.Subset.trans first.made rest.made
  spent spent := by
    obtain ⟨spent, left, right⟩ := first.spent spent
    obtain ⟨spent, left', right'⟩ := rest.spent spent
    exact ⟨spent, left'.trans left, right'.trans right⟩

theorem before_make (x : Stage) (w : Twins) : x.Before (x.make w) :=
  ⟨List.subset_cons_self _ _, fun spent => ⟨spent, rfl, rfl⟩⟩

theorem before_draw {left right : Option Ref} (some_left : 0 < x.budget) :
    x.Before (x.draw left right) :=
  ⟨List.Subset.refl _, fun spent => by omega⟩

theorem Before.has (before : x.Before y) {c c' : Cell} (made : x.Made r r' c c') :
    y.Made r r' c c' := before.made made

theorem Before.open (before : x.Before y) (holds : x.Open r r') : y.Open r r' := by
  obtain ⟨spent, left, right⟩ := holds
  obtain ⟨spent', left', right'⟩ := before.spent spent
  exact ⟨spent', left'.trans left, right'.trans right⟩

theorem makes_refl (x : Stage) : x.Makes x := ⟨rfl, rfl, rfl⟩

theorem makes_make (x : Stage) (w : Twins) : x.Makes (x.make w) := ⟨rfl, rfl, rfl⟩

theorem Makes.trans (first : x.Makes y) (rest : y.Makes z) : x.Makes z :=
  ⟨rest.budget.trans first.budget, rest.left.trans first.left, rest.right.trans first.right⟩

end Stage

/-! ### What cells are alike by -/

section
variable {made made' : Ref → Ref → Cell → Cell → Prop}
variable (weaker : ∀ r r' c c', made r r' c c' → made' r r' c c')
include weaker

theorem SameDict.imp (same : SameDict known made r r') : SameDict known made' r r' := by
  cases same with
  | one is => exact .one is
  | made cells => exact .made (weaker _ _ _ _ cells)

theorem SameCell.imp (same : SameCell made r r') : SameCell made' r r' := by
  cases same with
  | one => exact .one r
  | made cells => exact .made (weaker _ _ _ _ cells)

theorem SameList.imp {l l' : LazyList} (same : SameList made l l') : SameList made' l l' := by
  induction same with
  | nil => exact .nil
  | cons cells _ ih => exact .cons (weaker _ _ _ _ cells) ih

theorem MergeCalls.imp {rs rs' : List Ref} (calls : MergeCalls made rs rs' r r') :
    MergeCalls made' rs rs' r r' := by
  cases calls with
  | intro callee call => exact .intro (weaker _ _ _ _ callee) (weaker _ _ _ _ call)

end

theorem SameDict.cell {made : Ref → Ref → Cell → Cell → Prop} (same : SameDict known made r r') :
    SameCell made r r' := by
  cases same with
  | one => exact .one r
  | made cells => exact .made cells

end

/-! ### Scripts in step -/

namespace Script
variable {α β : Type} {known : Ref → Prop} {x : Stage} {m m' : Script α}

theorem InStep.bind {mid : Stage → α → α → Prop} {post : Stage → β → β → Prop}
    {f f' : α → Script β} (first : m.InStep known mid x m')
    (rest : ∀ y a a', x.Before y → mid y a a' → (f a).InStep known post y (f' a')) :
    (m >>= f).InStep known post x (m' >>= f') := by
  change (m.bind f).InStep known post x (m'.bind f')
  induction first with
  | done holds => exact rest _ _ _ (Stage.before_refl _) holds
  | raise => exact .raise
  | draw some_left left right _ _ ih ih' =>
    refine .draw some_left left right (fun head tail tail' => ih head tail tail' ?_)
      fun v no => ih' v no ?_
    all_goals exact fun y a a' before => rest y a a' ((Stage.before_draw some_left).trans before)
  | demand same _ ih => exact .demand same fun v => ih v rest
  | alloc _ ih =>
    refine .alloc fun r r' => ih r r' fun y a a' before => rest y a a' ?_
    exact (Stage.before_make _ _).trans before

theorem InStep.imp {post post' : Stage → α → α → Prop} (inStep : m.InStep known post x m')
    (weaker : ∀ y a a', x.Before y → post y a a' → post' y a a') :
    m.InStep known post' x m' := by
  have whole : (m >>= pure).InStep known post' x (m' >>= pure) :=
    inStep.bind fun y a a' before holds => .done (weaker y a a' before holds)
  simpa only [bind_pure] using whole

theorem inStep_pure {post : Stage → α → α → Prop} {a a' : α} (holds : post x a a') :
    (pure a : Script α).InStep known post x (pure a') := .done holds

theorem inStep_fail {post : Stage → α → α → Prop} (c : Cause) :
    (fail c : Script α).InStep known post x (fail c) := .raise

theorem inStep_alloc (c c' : Cell) : (alloc c : Script Ref).InStep known
    (fun y r r' => x.Makes y ∧ y.Made r r' c c') x (alloc c') :=
  .alloc fun _ _ => .done ⟨x.makes_make _, List.mem_cons_self⟩

theorem inStep_allocValue (v v' : Value) : (allocValue v : Script Ref).InStep known
    (fun y r r' => x.Makes y ∧ y.Made r r' (.ofValue v) (.ofValue v')) x (allocValue v') :=
  inStep_alloc _ _

theorem inStep_allocMerge (rs rs' : List Ref) :
    (Arguments.allocMerge rs : Script Ref).InStep known
      (fun y r r' => x.Makes y ∧ MergeCalls y.Made rs rs' r r') x (Arguments.allocMerge rs') := by
  refine (inStep_allocValue _ _).bind ?_
  rintro y f f' - ⟨makes, callee⟩
  refine (inStep_alloc _ _).imp ?_
  rintro z r r' before ⟨makes', call⟩
  exact ⟨makes.trans makes', .intro (before.has callee) call⟩

/-- The second script gets what the first one gets. -/
theorem inStep_forceDict {r r' : Ref} (same : SameDict known x.Made r r') :
    (forceDict r).InStep known (fun y d d' => y = x ∧ d' = d) x (forceDict r') := by
  have forces : (force r).InStep known (fun y v v' => y = x ∧ v' = v) x (force r') := by
    refine .demand same fun v => ?_
    cases v with
    | error e => exact .raise
    | _ => exact .done ⟨rfl, rfl⟩
  refine forces.bind ?_
  rintro y v v' - ⟨rfl, rfl⟩
  cases v' with
  | dict d => exact .done ⟨rfl, rfl⟩
  | _ => exact .raise

/-- What drawing a cell of both lists comes to. -/
inductive Draws (x : Stage) : Stage → LazyList → LazyList → Prop
  | nil : Draws x (x.draw none none) .nil .nil
  | cons (head tail tail' : Ref) :
      Draws x (x.draw (some tail) (some tail')) (.cons head tail) (.cons head tail')

theorem inStep_forceList {l l' : Ref} (some_left : 0 < x.budget) (left : x.left = some l)
    (right : x.right = some l') :
    (forceList l).InStep known (Draws x) x (forceList l') := by
  refine InStep.draw some_left left right (fun head tail tail' => .done (.cons head tail tail')) ?_
  intro v no
  cases v with
  | list list =>
    cases list with
    | nil => exact .done .nil
    | cons head tail => exact absurd trivial no
  | _ => exact .raise

/-- Known lists of the same elements. -/
theorem inStep_ofRefs (rs : List Ref) : (LazyList.ofRefs rs : Script LazyList).InStep known
    (fun y l l' => x.Makes y ∧ SameList y.Made l l') x (LazyList.ofRefs rs) := by
  have pushes : ∀ (rs : List Ref) (x : Stage) (l l' : LazyList), SameList x.Made l l' →
      (rs.foldlM LazyList.push l : Script LazyList).InStep known
        (fun y l l' => x.Makes y ∧ SameList y.Made l l') x (rs.foldlM LazyList.push l') := by
    intro rs
    induction rs with
    | nil => exact fun x l l' same => inStep_pure ⟨x.makes_refl, same⟩
    | cons r rs ih =>
      intro x l l' same
      simp only [List.foldlM_cons, LazyList.push]
      refine (inStep_allocValue _ _).bind ?_
      rintro y tail tail' before ⟨makes, cells⟩
      refine (ih y _ _ (.cons cells (same.imp fun _ _ _ _ => before.has))).imp ?_
      exact fun z _ _ _ ⟨makes', same⟩ => ⟨makes.trans makes', same⟩
  exact pushes _ _ _ _ .nil

end Script

end CallByNeed
