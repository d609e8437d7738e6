import CallByNeed.Proofs.Loading.Building
import Mathlib

/- Where loading puts cells. A list of builders makes one block of cells after another; when the
   builders come in another order, their blocks move as wholes, and the cells after all of them stay
   where they are. -/
namespace CallByNeed

section
variable {κ : Type} [DecidableEq κ] {size : κ → Nat}

/-- Where a block starts when blocks of these sizes follow each other. -/
def blockStart (size : κ → Nat) : List κ → κ → Nat
  | [], _ => 0
  | a :: l, k => if k = a then 0 else size a + blockStart size l k

theorem blockStart_append_left {l l' : List κ} {k : κ} (mem : k ∈ l) :
    blockStart size (l ++ l') k = blockStart size l k := by
  induction l with
  | nil => cases mem
  | cons a l ih =>
    simp only [List.cons_append, blockStart]
    split
    · rfl
    · next other => rw [ih (List.mem_of_ne_of_mem other mem)]

theorem blockStart_append_right {l l' : List κ} {k : κ} (outside : k ∉ l) :
    blockStart size (l ++ l') k = (l.map size).sum + blockStart size l' k := by
  induction l with
  | nil => simp
  | cons a l ih =>
    obtain ⟨other, outside⟩ := not_or.1 (List.mem_cons.not.1 outside)
    simp only [List.cons_append, blockStart, if_neg other, ih outside, List.map_cons, List.sum_cons]
    omega

theorem blockStart_map {ι : Type} [DecidableEq ι] {f : ι → κ} (injective : Function.Injective f)
    (l : List ι) (i : ι) : blockStart size (l.map f) (f i) = blockStart (size ∘ f) l i := by
  induction l with
  | nil => rfl
  | cons a l ih => simp only [List.map_cons, blockStart, injective.eq_iff, ih, Function.comp_apply]

/-- Every place before the end is in a block. -/
theorem exists_block (size : κ → Nat) {l : List κ} (nodup : l.Nodup) {n : Nat}
    (inside : n < (l.map size).sum) :
    ∃ k ∈ l, ∃ o < size k, n = blockStart size l k + o := by
  induction l generalizing n with
  | nil => simp at inside
  | cons a l ih =>
    obtain ⟨apart, nodup⟩ := List.nodup_cons.1 nodup
    rw [List.map_cons, List.sum_cons] at inside
    by_cases first : n < size a
    · exact ⟨a, List.mem_cons_self .., n, first, by simp [blockStart]⟩
    · obtain ⟨k, mem, o, within, place⟩ := ih nodup (n := n - size a) (by omega)
      have other : k ≠ a := by
        rintro rfl
        exact apart mem
      refine ⟨k, List.mem_cons_of_mem _ mem, o, within, ?_⟩
      simp only [blockStart, if_neg other]
      omega

/-- Moves each block of one order to where it is in another one. -/
structure Moves (size : κ → Nat) (l l' : List κ) (f : Nat → Nat) : Prop where
  injective : Function.Injective f
  blocks : ∀ k ∈ l, ∀ o < size k, f (blockStart size l k + o) = blockStart size l' k + o
  beyond : ∀ n, (l.map size).sum ≤ n → f n = n

theorem moves_cons {a : κ} {l l' : List κ} {f : Nat → Nat} (moves : Moves size l l' f) :
    Moves size (a :: l) (a :: l') fun n => if n < size a then n else size a + f (n - size a) := by
  constructor
  case injective =>
    intro n m same
    simp only at same
    split at same <;> split at same
    · exact same
    · omega
    · omega
    · have := moves.injective (Nat.add_left_cancel same)
      omega
  case blocks =>
    intro k mem o within
    simp only [blockStart]
    split
    · next first =>
      subst first
      simp [within]
    · next other =>
      have moved := moves.blocks k (List.mem_of_ne_of_mem other mem) o within
      have later : ¬ size a + blockStart size l k + o < size a := by omega
      have shifted : size a + blockStart size l k + o - size a = blockStart size l k + o := by omega
      rw [if_neg later, shifted, moved]
      omega
  case beyond =>
    intro n outside
    rw [List.map_cons, List.sum_cons] at outside
    have later : ¬ n < size a := by omega
    simp only [if_neg later, moves.beyond (n - size a) (by omega)]
    omega

theorem moves_swap {a b : κ} (other : a ≠ b) (l : List κ) :
    Moves size (b :: a :: l) (a :: b :: l) fun n =>
      if n < size b then n + size a else if n < size b + size a then n - size b else n := by
  constructor
  case injective =>
    intro n m same
    simp only at same
    split at same <;> split at same
    all_goals first | omega | split at same
    all_goals first | omega | split at same
    all_goals omega
  case blocks =>
    intro k mem o within
    by_cases last : k = b
    · subst last
      have start : blockStart size (k :: a :: l) k = 0 := by simp [blockStart]
      have start' : blockStart size (a :: k :: l) k = size a := by
        simp [blockStart, other.symm]
      simp only [start, start']
      rw [if_pos (by omega)]
      omega
    · by_cases first : k = a
      · subst first
        have start : blockStart size (b :: k :: l) k = size b := by simp [blockStart, last]
        have start' : blockStart size (k :: b :: l) k = 0 := by simp [blockStart]
        simp only [start, start']
        rw [if_neg (by omega), if_pos (by omega)]
        omega
      · have start : blockStart size (b :: a :: l) k = size b + (size a + blockStart size l k) := by
          simp [blockStart, last, first]
        have start' : blockStart size (a :: b :: l) k = size a + (size b + blockStart size l k) := by
          simp [blockStart, last, first]
        simp only [start, start']
        rw [if_neg (by omega), if_neg (by omega)]
        omega
  case beyond =>
    intro n outside
    simp only [List.map_cons, List.sum_cons] at outside
    rw [if_neg (by omega), if_neg (by omega)]

theorem Moves.trans {l₁ l₂ l₃ : List κ} {f g : Nat → Nat} (perm : l₁.Perm l₂)
    (first : Moves size l₁ l₂ f) (second : Moves size l₂ l₃ g) : Moves size l₁ l₃ (g ∘ f) where
  injective := second.injective.comp first.injective
  blocks k mem o within := by
    simp only [Function.comp_apply, first.blocks k mem o within]
    exact second.blocks k (perm.mem_iff.1 mem) o within
  beyond n outside := by
    have same : (l₁.map size).sum = (l₂.map size).sum := (perm.map size).sum_eq
    simp only [Function.comp_apply, first.beyond n outside]
    exact second.beyond n (same ▸ outside)

theorem exists_moves (size : κ → Nat) {l l' : List κ} (perm : l.Perm l') (nodup : l.Nodup) :
    ∃ f, Moves size l l' f := by
  induction perm with
  | nil => exact ⟨id, Function.injective_id, by simp, fun _ _ => rfl⟩
  | cons a _ ih =>
    obtain ⟨f, moves⟩ := ih (List.nodup_cons.1 nodup).2
    exact ⟨_, moves_cons moves⟩
  | swap a b l =>
    have other : a ≠ b := by
      rintro rfl
      simp at nodup
    exact ⟨_, moves_swap other l⟩
  | trans first second ih ih' =>
    obtain ⟨f, moves⟩ := ih nodup
    obtain ⟨g, moves'⟩ := ih' (first.nodup_iff.1 nodup)
    exact ⟨_, moves.trans first moves'⟩

end

theorem Heap.size_alloc (h : Heap) (c : Cell) : (h.alloc c).2.size = h.size + 1 := by
  simp [alloc, size]

theorem Heap.cell?_alloc_of_lt (h : Heap) (c : Cell) {r : Ref} (old : r.index < h.size) :
    (h.alloc c).2.cell? r = h.cell? r := by
  rw [cell?_alloc, if_neg]
  rintro rfl
  exact Nat.lt_irrefl _ old

/-- Building makes new cells and leaves the others alone. -/
theorem Script.kept_of_built {α : Type} {s : Script α} {h k : Heap} {a : α}
    (built : s.built h = some (a, k)) :
    h.size ≤ k.size ∧ ∀ r : Ref, r.index < h.size → k.cell? r = h.cell? r := by
  induction s generalizing h with
  | done b =>
    cases built
    exact ⟨Nat.le_refl _, fun _ _ => rfl⟩
  | act action next ih =>
    cases action with
    | alloc c =>
      simp only [Script.built] at built
      split at built
      · cases built
      · obtain ⟨more, keeps⟩ := ih _ built
        rw [Heap.size_alloc] at more keeps
        refine ⟨by omega, fun r old => ?_⟩
        rw [keeps r (by omega), h.cell?_alloc_of_lt c old]
    | _ => cases built
  | _ => cases built

/-- A list of builders builds one block for each of them. -/
structure Blocks {κ β : Type} [DecidableEq κ] (f : κ → Script β) (width : κ → Nat) (l : List κ)
    (bs : List β) (h k : Heap) : Prop where
  size : k.size = h.size + (l.map width).sum
  keeps : ∀ r : Ref, r.index < h.size → k.cell? r = h.cell? r
  each : ∀ x ∈ l, ∃ b h₁ k₁, (x, b) ∈ l.zip bs ∧ h₁.size = h.size + blockStart width l x ∧
    (f x).built h₁ = some (b, k₁) ∧ ∀ r : Ref, r.index < k₁.size → k.cell? r = k₁.cell? r

theorem blocks_of_mapM {κ β : Type} [DecidableEq κ] {f : κ → Script β} {width : κ → Nat}
    {l : List κ} {bs : List β} {h k : Heap}
    (sizes : ∀ x ∈ l, ∀ h b k, (f x).built h = some (b, k) → k.size = h.size + width x)
    (built : (l.mapM f).built h = some (bs, k)) : Blocks f width l bs h k := by
  induction l generalizing h bs with
  | nil =>
    rw [List.mapM_nil] at built
    cases built
    exact ⟨by simp, fun _ _ => rfl, by simp⟩
  | cons x l ih =>
    rw [List.mapM_cons] at built
    change ((f x).bind _).built h = _ at built
    rw [Script.built_bind] at built
    obtain ⟨⟨b, h₁⟩, first, built⟩ := Option.bind_eq_some_iff.1 built
    change ((l.mapM f).bind _).built h₁ = _ at built
    rw [Script.built_bind] at built
    obtain ⟨⟨others, h₂⟩, rest, built⟩ := Option.bind_eq_some_iff.1 built
    cases built
    have grown := sizes x (List.mem_cons_self ..) h b h₁ first
    have later := ih (fun y mem => sizes y (List.mem_cons_of_mem _ mem)) rest
    constructor
    case size =>
      rw [later.size, grown, List.map_cons, List.sum_cons]
      omega
    case keeps =>
      intro r old
      rw [later.keeps r (by omega)]
      exact (Script.kept_of_built first).2 r old
    case each =>
      intro y mem
      by_cases same : y = x
      · subst same
        exact ⟨b, h, h₁, List.mem_cons_self .., by simp [blockStart], first, later.keeps⟩
      · obtain ⟨c, h₃, k₃, pair, start, made, keeps⟩ :=
          later.each y (List.mem_of_ne_of_mem same mem)
        refine ⟨c, h₃, k₃, List.mem_cons_of_mem _ pair, ?_, made, keeps⟩
        rw [start, grown, blockStart, if_neg same]
        omega

/-! ### Builders abreast

Like builders on two heaps. They make as many cells, like each other one by one, if the bond holds
between the places where these come to stand. -/

/-- Some cells have been made on both sides, and those in corresponding places are alike. -/
structure Heap.Abreast (M : Manner) (B : Bond) (count : Nat) (h k h' k' : Heap) : Prop where
  size : k.size = h.size + count
  size' : k'.size = h'.size + count
  cells : ∀ o < count, ∃ c c', k.cell? ⟨h.size + o⟩ = some c ∧ k'.cell? ⟨h'.size + o⟩ = some c' ∧
    CellLike M B c c'

theorem CellLike.isAction_eq {M : Manner} {B : Bond} {c c' : Cell} (like : CellLike M B c c') :
    c'.isAction = c.isAction := by
  obtain ⟨states, _⟩ := like
  unfold Cell.isAction
  generalize c.state = s, c'.state = s' at states
  cases states with
  | vacant strays => rfl
  | forced values => rfl
  | @pending w w' works =>
    obtain ⟨task, site⟩ := w
    obtain ⟨task', site'⟩ := w'
    have tasks : TaskLike M B task task' := works.task
    cases tasks with
    | call functions arguments => rfl
    | resume suspensions => cases suspensions <;> rfl

theorem Script.built_abreast {M : Manner} {B : Bond} {α β : Type} {post : α → β → Prop}
    {s : Script α} {s' : Script β} {h k : Heap} {a : α} (alike : Alike M B post s s')
    (built : s.built h = some (a, k)) (h' : Heap)
    (places : ∀ o, h.size + o < k.size → B.cells ⟨h.size + o⟩ ⟨h'.size + o⟩) :
    ∃ a' k' count, s'.built h' = some (a', k') ∧ post a a' ∧ Heap.Abreast M B count h k h' k' := by
  induction s generalizing h s' h' with
  | done b =>
    cases built
    cases alike with
    | done results =>
      cases results.2 with
      | ok results => exact ⟨_, h', 0, rfl, results, rfl, rfl, by simp⟩
  | act action next ih =>
    cases action with
    | alloc c =>
      simp only [Script.built] at built
      split at built
      · cases built
      · next plain =>
        obtain ⟨more, keeps⟩ := Script.kept_of_built built
        rw [Heap.size_alloc] at more keeps
        have new : k.cell? ⟨h.size⟩ = some c := by
          rw [keeps ⟨h.size⟩ (Nat.lt_succ_self _), Heap.cell?_alloc]
          exact if_pos rfl
        have inverted : ∃ c' next', s' = .act (.alloc c') next' ∧ CellLike M B c c' ∧
            ∀ r r', B.cells r r' → Alike M B post (next r) (next' r') := by
          cases alike with
          | alloc made rest => exact ⟨_, _, rfl, made, rest⟩
          | action bodies parameters rest => exact absurd rfl plain
          | vacant rest =>
            rw [Script.built_of_knot (rest _ ⟨0⟩)] at built
            cases built
        obtain ⟨c', next', rfl, made, rest⟩ := inverted
        have first : B.cells (h.alloc c).1 (h'.alloc c').1 := places 0 (by omega)
        obtain ⟨a', k', count, built', results, size, size', cells⟩ :=
          ih _ (rest _ _ first) built (h'.alloc c').2 fun o before => by
            rw [Heap.size_alloc] at before ⊢
            rw [Heap.size_alloc]
            have later := places (1 + o) (by omega)
            rwa [← Nat.add_assoc, ← Nat.add_assoc] at later
        rw [Heap.size_alloc] at size size'
        have plain' : ¬ c'.isAction = true := by rwa [made.isAction_eq]
        have new' : k'.cell? ⟨h'.size⟩ = some c' := by
          have inside : h'.size < (h'.alloc c').2.size := by
            rw [Heap.size_alloc]
            exact Nat.lt_succ_self _
          rw [(Script.kept_of_built built').2 ⟨h'.size⟩ inside, Heap.cell?_alloc]
          exact if_pos rfl
        refine ⟨a', k', count + 1, ?_, results, by omega, by omega, ?_⟩
        · simp only [Script.built, if_neg plain']
          exact built'
        · intro o before
          cases o with
          | zero => exact ⟨c, c', new, new', made⟩
          | succ o =>
            obtain ⟨d, d', found, found', like⟩ := cells o (by omega)
            rw [Heap.size_alloc, Nat.add_assoc, Nat.add_comm 1] at found found'
            exact ⟨d, d', found, found', like⟩
    | _ => cases built
  | _ => cases built

end CallByNeed
