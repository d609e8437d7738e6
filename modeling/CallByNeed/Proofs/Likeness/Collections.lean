import CallByNeed.LazyList
import CallByNeed.Proofs.Likeness.Script

/- Likeness of what is done with lists and dictionaries. A loop goes by induction on its bound; a
   bound that is used up on the left is used up on the right, or the left side may give up. -/
namespace CallByNeed

theorem Manner.Bounds.succ {M : Manner} {bound bound' : Nat}
    (bounds : M.Bounds (bound + 1) bound') : ∃ less, bound' = less + 1 ∧ M.Bounds bound less := by
  rcases bounds with rfl | ⟨lax, le⟩
  · exact ⟨bound, rfl, .inl rfl⟩
  · obtain ⟨less, rfl⟩ : ∃ less, bound' = less + 1 := ⟨bound' - 1, by omega⟩
    exact ⟨less, rfl, .inr ⟨lax, by omega⟩⟩

section
variable {M : Manner} {B : Bond} {α α' β β' γ δ κ : Type}

/-- What is alike may depend on how many elements came before. -/
theorem Alike.foldlM_count {elements : α → α' → Prop} {L : Nat → β → β' → Prop}
    {f : β → α → Script β} {f' : β' → α' → Script β'}
    (step : ∀ n b b' a a', L n b b' → elements a a' → Alike M B (L (n + 1)) (f b a) (f' b' a'))
    {as : List α} {as' : List α'} (lists : List.Forall₂ elements as as') {n : Nat} {b : β}
    {b' : β'} (starts : L n b b') :
    Alike M B (L (n + as.length)) (as.foldlM f b) (as'.foldlM f' b') := by
  induction lists generalizing n b b' with
  | nil => exact .pure starts
  | @cons a a' as as' first _ ih =>
    simp only [List.foldlM_cons, List.length_cons]
    refine (step _ _ _ _ _ starts first).bind fun c c' likes => ?_
    have all := ih likes
    rwa [Nat.add_right_comm] at all

theorem Alike.foldlM {elements : α → α' → Prop} {like : β → β' → Prop} {f : β → α → Script β}
    {f' : β' → α' → Script β'}
    (step : ∀ b b' a a', like b b' → elements a a' → Alike M B like (f b a) (f' b' a'))
    {as : List α} {as' : List α'} (lists : List.Forall₂ elements as as') {b : β} {b' : β'}
    (starts : like b b') : Alike M B like (as.foldlM f b) (as'.foldlM f' b') :=
  foldlM_count (L := fun _ => like) (fun _ => step) lists (n := 0) starts

theorem Alike.mapM_length {R : α → α' → Prop} {L : β → β' → Prop} {f : α → Script β}
    {f' : α' → Script β'} (each : ∀ a a', R a a' → Alike M B L (f a) (f' a'))
    {as : List α} {as' : List α'} (lists : List.Forall₂ R as as') :
    Alike M B (fun bs bs' => List.Forall₂ L bs bs' ∧ bs.length = as.length) (as.mapM f)
      (as'.mapM f') := by
  induction lists with
  | nil =>
    simp only [List.mapM_nil]
    exact .pure ⟨.nil, rfl⟩
  | cons first _ ih =>
    simp only [List.mapM_cons]
    refine (each _ _ first).bind fun b b' firsts => ?_
    refine ih.bind fun bs bs' others => .pure ⟨.cons firsts others.1, ?_⟩
    simp [others.2]

theorem Alike.mapM {R : α → α' → Prop} {L : β → β' → Prop} {f : α → Script β}
    {f' : α' → Script β'} (each : ∀ a a', R a a' → Alike M B L (f a) (f' a'))
    {as : List α} {as' : List α'} (lists : List.Forall₂ R as as') :
    Alike M B (List.Forall₂ L) (as.mapM f) (as'.mapM f') :=
  (mapM_length each lists).imp fun _ _ likes => likes.1

theorem RefsLike.getElem? {rs rs' : List Ref} (like : RefsLike B rs rs') (i : Nat) :
    Option.Rel B.cells rs[i]? rs'[i]? := by
  induction like generalizing i with
  | nil => exact .none
  | cons first _ ih =>
    cases i with
    | zero => exact .some first
    | succ i => simpa using ih i

theorem RefsLike.reverse {rs rs' : List Ref} (like : RefsLike B rs rs') :
    RefsLike B rs.reverse rs'.reverse :=
  List.forall₂_reverse_iff.2 like

/-- What two visits of a walk come to. -/
inductive VisitLike (like : β → β' → Prop) : ForInStep β → ForInStep β' → Prop where
  | done {b : β} {b' : β'} (results : like b b') : VisitLike like (.done b) (.done b')
  | yield {b : β} {b' : β'} (results : like b b') : VisitLike like (.yield b) (.yield b')

namespace LazyList

theorem alike_walk {L : β → β' → Prop} {visit : β → Ref → Script (ForInStep β)}
    {visit' : β' → Ref → Script (ForInStep β')}
    (visits : ∀ b b' r r', L b b' → B.cells r r' →
      Alike M B (VisitLike L) (visit b r) (visit' b' r'))
    {bound bound' : Nat} (bounds : M.Bounds bound bound') {l l' : LazyList}
    (lists : LazyListLike B l l') {b : β} {b' : β'} (starts : L b b') :
    Alike M B L (l.walk visit bound b) (l'.walk visit' bound' b') := by
  induction bound generalizing bound' l l' b b' with
  | zero =>
    refine .exhausted bounds ?_
    rintro rfl
    rfl
  | succ bound ih =>
    obtain ⟨less, rfl, lower⟩ := bounds.succ
    cases lists with
    | nil => exact .pure starts
    | cons heads tails =>
      refine (visits _ _ _ _ starts heads).bind ?_
      intro x x' steps
      cases steps with
      | done results => exact .pure results
      | yield results =>
        exact (alike_forceList tails).bind fun l l' rests => ih lower rests results

theorem alike_trail {L : β → β' → Prop} {leave : β → Script Unit} {leave' : β' → Script Unit}
    {visit : Ref → Script β} {visit' : Ref → Script β'}
    (leaves : ∀ b b', L b b' → Alike M B Eq (leave b) (leave' b'))
    (visits : ∀ r r', B.cells r r' → Alike M B L (visit r) (visit' r'))
    {bound bound' : Nat} (bounds : M.Bounds bound bound') {l l' : LazyList}
    (lists : LazyListLike B l l') {b : β} {b' : β'} (starts : L b b') :
    Alike M B L (l.trail leave visit bound b) (l'.trail leave' visit' bound' b') := by
  induction bound generalizing bound' l l' b b' with
  | zero =>
    refine .exhausted bounds ?_
    rintro rfl
    rfl
  | succ bound ih =>
    obtain ⟨less, rfl, lower⟩ := bounds.succ
    cases lists with
    | nil => exact .pure starts
    | cons heads tails =>
      refine (leaves _ _ starts).bind fun _ _ _ => (visits _ _ heads).bind fun c c' results => ?_
      refine (alike_forceList tails).attempt.bind fun x x' rests => ?_
      cases rests with
      | ok rests => exact ih lower rests results
      | error faults => exact (leaves _ _ results).bind fun _ _ _ => .raise faults

theorem demandsOnly_walk {visit : β → Ref → Script (ForInStep β)}
    (visits : ∀ b r, (visit b r).DemandsOnly) (bound : Nat) (l : LazyList) (b : β) :
    (l.walk visit bound b).DemandsOnly := by
  induction bound generalizing l b with
  | zero => exact .stall
  | succ bound ih =>
    cases l with
    | nil => exact .done b
    | cons head tail =>
      refine (visits b head).bind fun x => ?_
      cases x with
      | done b => exact .done b
      | yield b => exact (demandsOnly_forceList tail).bind fun l => ih l b

theorem demandsOnly_elements (bound : Nat) (l : LazyList) : (l.elements bound).DemandsOnly :=
  (demandsOnly_walk (fun _ _ => .done _) bound l []).bind fun _ => .done _

theorem alike_walkPairs {visit visit' : Ref → Ref → Script (Option γ)}
    (visits : ∀ x x' y y', B.cells x x' → B.cells y y' → Alike M B Eq (visit x y) (visit' x' y'))
    (ended : Ordering → γ) {bound bound' : Nat} (bounds : M.Bounds bound bound')
    {l l' k k' : LazyList} (lefts : LazyListLike B l l') (rights : LazyListLike B k k') :
    Alike M B Eq (l.walkPairs visit ended bound k) (l'.walkPairs visit' ended bound' k') := by
  induction bound generalizing bound' l l' k k' with
  | zero =>
    refine .exhausted bounds ?_
    rintro rfl
    rfl
  | succ bound ih =>
    obtain ⟨less, rfl, lower⟩ := bounds.succ
    cases lefts with
    | nil => cases rights <;> exact .pure rfl
    | cons heads tails =>
      cases rights with
      | nil => exact .pure rfl
      | cons heads' tails' =>
        refine (visits _ _ _ _ heads heads').bind ?_
        rintro found _ rfl
        cases found with
        | some answer => exact .pure rfl
        | none =>
          refine (alike_forceList tails).bind fun xs xs' lefts => ?_
          exact (alike_forceList tails').bind fun ys ys' rights => ih lower lefts rights

theorem alike_elements {bound bound' : Nat} (bounds : M.Bounds bound bound') {l l' : LazyList}
    (lists : LazyListLike B l l') :
    Alike M B (RefsLike B) (l.elements bound) (l'.elements bound') := by
  refine (alike_walk (L := RefsLike B) ?_ bounds lists .nil).bind ?_
  · intro heads heads' r r' likes cells
    exact .pure (.yield (.cons cells likes))
  · intro heads heads' likes
    exact .pure likes.reverse

theorem alike_length {bound bound' : Nat} (bounds : M.Bounds bound bound') {l l' : LazyList}
    (lists : LazyListLike B l l') : Alike M B Eq (l.length bound) (l'.length bound') := by
  refine alike_walk ?_ bounds lists rfl
  rintro n _ r r' rfl cells
  exact .pure (.yield rfl)

theorem alike_first {l l' : LazyList} (lists : LazyListLike B l l') :
    Alike M B B.cells l.first l'.first := by
  cases lists with
  | nil => exact .fail _
  | cons heads tails => exact .pure heads

theorem alike_rest {l l' : LazyList} (lists : LazyListLike B l l') :
    Alike M B B.cells l.rest l'.rest := by
  cases lists with
  | nil => exact .fail _
  | cons heads tails => exact .pure tails

theorem alike_position (place : Number) : Alike M B Eq (position place) (position place) := by
  unfold position
  split
  · exact .fail _
  · split
    · exact .fail _
    · exact .pure rfl

theorem alike_skip (n : Nat) {l l' : LazyList} (lists : LazyListLike B l l') :
    Alike M B B.cells (skip n l) (skip n l') := by
  induction n generalizing l l' with
  | zero =>
    cases lists with
    | nil => exact .fail _
    | cons heads tails => exact .pure heads
  | succ n ih =>
    cases lists with
    | nil => exact .fail _
    | cons heads tails => exact (alike_forceList tails).bind fun _ _ => ih

theorem alike_split (n : Nat) {heads heads' : List Ref} (before : RefsLike B heads heads')
    {l l' : LazyList} (lists : LazyListLike B l l') :
    Alike M B (fun x x' => RefsLike B x.1 x'.1 ∧ LazyListLike B x.2 x'.2) (split n heads l)
      (split n heads' l') := by
  induction n generalizing heads heads' l l' with
  | zero => exact .pure ⟨before, lists⟩
  | succ n ih =>
    cases lists with
    | nil => exact .fail _
    | cons heads tails =>
      exact (alike_forceList tails).bind fun _ _ rests => ih (.cons heads before) rests

theorem alike_push {l l' : LazyList} (lists : LazyListLike B l l') {r r' : Ref}
    (cells : B.cells r r') :
    Alike M B (LazyListLike B) (l.push r : Script LazyList) (l'.push r') :=
  (Alike.allocValue (.list lists)).bind fun _ _ tails => .pure (.cons cells tails)

theorem alike_pushAll {l l' : LazyList} (lists : LazyListLike B l l') {rs rs' : List Ref}
    (cells : RefsLike B rs rs') :
    Alike M B (LazyListLike B) (rs.foldlM push l : Script LazyList) (rs'.foldlM push l') := by
  refine Alike.foldlM ?_ cells lists
  intro l l' r r' lists heads
  exact alike_push lists heads

theorem alike_ofRefs {rs rs' : List Ref} (cells : RefsLike B rs rs') :
    Alike M B (LazyListLike B) (ofRefs rs : Script LazyList) (ofRefs rs') :=
  alike_pushAll .nil cells.reverse

theorem alike_rejoin {heads heads' : List Ref} (before : RefsLike B heads heads') {r r' : Ref}
    (tails : B.cells r r') : Alike M B (LazyListLike B) (rejoin heads r) (rejoin heads' r') := by
  cases before with
  | nil => exact alike_forceList tails
  | cons last others => exact alike_pushAll (.cons last tails) others

theorem alike_index {l l' : LazyList} (lists : LazyListLike B l l') (place : Number) :
    Alike M B B.cells (l.index place) (l'.index place) := by
  refine (alike_position place).bind ?_
  rintro n _ rfl
  exact alike_skip n lists

theorem alike_delete {l l' : LazyList} (lists : LazyListLike B l l') (place : Number) :
    Alike M B (LazyListLike B) (l.delete place) (l'.delete place) := by
  cases lists with
  | nil => exact .fail _
  | cons heads tails =>
    refine (alike_position place).bind ?_
    rintro n _ rfl
    refine (alike_split n .nil (.cons heads tails)).bind ?_
    rintro ⟨before, after⟩ ⟨before', after'⟩ ⟨befores, afters⟩
    cases afters with
    | nil => exact .fail _
    | cons _ tails => exact alike_rejoin befores tails

theorem alike_insert {l l' : LazyList} (lists : LazyListLike B l l') (place : Number) {r r' : Ref}
    (cells : B.cells r r') :
    Alike M B (LazyListLike B) (l.insert place r) (l'.insert place r') := by
  refine (alike_position place).bind ?_
  rintro n _ rfl
  refine (alike_split n .nil lists).bind ?_
  rintro ⟨before, after⟩ ⟨before', after'⟩ ⟨befores, afters⟩
  refine (Alike.allocValue (.list afters)).bind fun tail tail' tails => ?_
  exact (Alike.allocValue (.list (.cons cells tails))).bind fun _ _ => alike_rejoin befores

theorem alike_concat {bound bound' : Nat} (bounds : M.Bounds bound bound') {l l' : LazyList}
    (lists : LazyListLike B l l') {r r' : Ref} (rests : B.cells r r') :
    Alike M B (LazyListLike B) (concat bound l r) (concat bound' l' r') := by
  induction bound generalizing bound' l l' r r' with
  | zero =>
    refine .exhausted bounds ?_
    rintro rfl
    rfl
  | succ bound ih =>
    obtain ⟨less, rfl, lower⟩ := bounds.succ
    cases lists with
    | nil =>
      refine (alike_forceList rests).bind ?_
      intro k k' others
      cases others with
      | nil => exact .pure .nil
      | cons next rests =>
        exact (alike_forceList next).bind fun _ _ lists => ih lower lists rests
    | cons heads tails =>
      refine (Alike.suspend (.concat tails rests)).bind ?_
      intro s s' suspended
      exact .pure (.cons heads suspended)

end LazyList

namespace Dict
variable {like : α → α' → Prop}

theorem like_empty : DictLike like (empty : Dict α) (empty : Dict α') :=
  .nil

theorem rel_find (key : Key) {es : List (Key × α)} {es' : List (Key × α')}
    (entries : EntriesLike like es es') : Option.Rel like (find key es) (find key es') := by
  induction entries with
  | nil => exact .none
  | @cons e e' _ _ first _ ih =>
    obtain ⟨k, x⟩ := e
    obtain ⟨k', x'⟩ := e'
    obtain ⟨rfl, values⟩ := first
    simp only [find]
    split
    · exact .some values
    · exact ih

theorem like_put (key : Key) {x : α} {x' : α'} (values : like x x') {es : List (Key × α)}
    {es' : List (Key × α')} (entries : EntriesLike like es es') :
    EntriesLike like (put key x es) (put key x' es') := by
  induction entries with
  | nil => exact .cons ⟨rfl, values⟩ .nil
  | @cons e e' _ _ first others ih =>
    obtain ⟨k, y⟩ := e
    obtain ⟨k', y'⟩ := e'
    obtain ⟨rfl, olds⟩ := first
    simp only [put]
    split
    · exact .cons ⟨rfl, values⟩ (.cons ⟨rfl, olds⟩ others)
    · exact .cons ⟨rfl, values⟩ others
    · exact .cons ⟨rfl, olds⟩ ih

theorem like_remove (key : Key) {es : List (Key × α)} {es' : List (Key × α')}
    (entries : EntriesLike like es es') : EntriesLike like (remove key es) (remove key es') := by
  induction entries with
  | nil => exact .nil
  | @cons e e' _ _ first others ih =>
    obtain ⟨k, y⟩ := e
    obtain ⟨k', y'⟩ := e'
    obtain ⟨rfl, olds⟩ := first
    simp only [remove]
    split
    · exact others
    · exact .cons ⟨rfl, olds⟩ ih

theorem like_insert (key : Key) {d : Dict α} {d' : Dict α'} (dicts : DictLike like d d') {x : α}
    {x' : α'} (values : like x x') : DictLike like (d.insert key x) (d'.insert key x') :=
  like_put key values dicts

theorem size_eq {d : Dict α} {d' : Dict α'} (dicts : DictLike like d d') : d.size = d'.size :=
  dicts.length_eq

theorem contains_eq (key : Key) {d : Dict α} {d' : Dict α'} (dicts : DictLike like d d') :
    d.contains key = d'.contains key := by
  have found : Option.Rel like (d.get? key) (d'.get? key) := rel_find key dicts
  unfold contains
  generalize d.get? key = o, d'.get? key = o' at found
  cases found <;> rfl

theorem like_override {d : Dict α} {d' : Dict α'} (dicts : DictLike like d d') {e : Dict α}
    {e' : Dict α'} (others : DictLike like e e') :
    DictLike like (d.override e) (d'.override e') := by
  obtain ⟨es⟩ := e
  obtain ⟨es'⟩ := e'
  unfold override
  change EntriesLike like es es' at others
  induction others generalizing d d' with
  | nil => exact dicts
  | @cons x x' _ _ first _ ih =>
    obtain ⟨k, v⟩ := x
    obtain ⟨k', v'⟩ := x'
    obtain ⟨rfl, values⟩ := first
    exact ih (like_insert k dicts values)

theorem like_ofList {es : List (Key × α)} {es' : List (Key × α')}
    (entries : EntriesLike like es es') : DictLike like (ofList es) (ofList es') := by
  have all : DictLike like (⟨es⟩ : Dict α) (⟨es'⟩ : Dict α') := entries
  exact like_override like_empty all

theorem like_merge {d : Dict α} {d' : Dict α'} (dicts : DictLike like d d') {e : Dict α}
    {e' : Dict α'} (others : DictLike like e e') : DictLike like (d.merge e) (d'.merge e') := by
  unfold merge
  rw [size_eq dicts, size_eq others]
  split
  · exact like_override dicts others
  · exact like_override others dicts

end Dict
end
end CallByNeed
