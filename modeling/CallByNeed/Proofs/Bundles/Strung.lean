import CallByNeed.Proofs.Concatenation.Drawing
import CallByNeed.Proofs.Reading.Endings

/- Lists that wait in calls of `append` and `merge` and in the concatenations these leave behind.
   Such a cell strings other lists and single elements together. However the calls are nested,
   forcing it enters its first list and no other one, with frames that wait for the next cell of it;
   what these frames make of the cell depends on the pieces only, and not on the nesting. -/
namespace CallByNeed
open Relation (ReflTransGen)

/-- What is strung together: an element, or whatever elements a list has. A strict one is refused if
    it is no list, where another one may be taken for a dictionary. -/
inductive Piece where
  | element (r : Ref)
  | list (r : Ref) (strict : Bool)

/-- The pieces of a list that waits, in order, and the cells that wait in it, which are its own. -/
inductive Heap.Strung (h : Heap) : Bool → Ref → List Piece → List Ref → Prop
  /-- Nothing is known of the list. -/
  | source (strict : Bool) (r : Ref) : Strung h strict r [.list r strict] []
  | whole {strict : Bool} {r : Ref} {l : LazyList} {rs : List Ref}
      (known : h.state? r = some (.forced (.list l))) (whole : h.Whole l rs) :
      Strung h strict r (rs.map .element) []
  | append {strict : Bool} {r f first : Ref} {rs own : List Ref} {pieces : List Piece}
      (waits : h.state? r =
        some (.pending { task := .call f { positionals := first :: rs } }))
      (function : h.state? f = some (.forced (.function Builtin.append.function)))
      (list : Strung h false first pieces own) :
      Strung h strict r (pieces ++ rs.map .element) (r :: own)
  | merge {strict : Bool} {r f first second : Ref} {own own' : List Ref}
    {pieces pieces' : List Piece}
      (waits : h.state? r =
        some (.pending { task := .call f { positionals := [first, second] } }))
      (function : h.state? f = some (.forced (.function Builtin.merge.function)))
      (list : Strung h false first pieces own) (next : Strung h true second pieces' own') :
      Strung h strict r (pieces ++ pieces') (r :: (own ++ own'))
  | last {strict : Bool} {r tail rest : Ref} {own : List Ref} {pieces : List Piece}
      (waits : h.state? r = some (.pending { task := .resume (.concat tail rest) }))
      (ends : h.state? rest = some (.forced (.list .nil)))
      (list : Strung h true tail pieces own) : Strung h strict r pieces (r :: own)
  | more {strict : Bool} {r tail rest second others : Ref} {own own' : List Ref}
      {pieces pieces' : List Piece}
      (waits : h.state? r = some (.pending { task := .resume (.concat tail rest) }))
      (lists : h.state? rest = some (.forced (.list (.cons second others))))
      (ends : h.state? others = some (.forced (.list .nil)))
      (list : Strung h true tail pieces own) (next : Strung h true second pieces' own') :
      Strung h strict r (pieces ++ pieces') (r :: (own ++ own'))

/-- What comes after a list in a concatenation whose loop may still go so many rounds. -/
inductive Heap.Behind (h : Heap) : Nat → Ref → List Piece → List Ref → Prop
  | nothing {n : Nat} {rest : Ref} (room : 0 < n)
      (ends : h.state? rest = some (.forced (.list .nil))) : Behind h n rest [] []
  | list {n : Nat} {rest second others : Ref} {pieces : List Piece} {own : List Ref} (room : 1 < n)
      (lists : h.state? rest = some (.forced (.list (.cons second others))))
      (ends : h.state? others = some (.forced (.list .nil)))
      (next : h.Strung true second pieces own) : Behind h n rest pieces own

/-- A body that has demanded a list goes on with its next cell, or else with the lists that come
    after it. -/
structure Continues (next : Value → Script Outcome) (n : Nat) (rest : Ref) (strict : Bool) :
    Prop where
  list : ∀ l, next (.list l) = (do answer (.list (← LazyList.concat n l rest)))
  error : ∀ e, next (.error e) = .raise e
  refuse : strict = true → ∀ v, (∀ l, v ≠ .list l) → (∀ e, v ≠ .error e) →
    next v = .raise { cause := .notList v.type }

/-- Frames that wait for the next cell of a list, the innermost first. -/
inductive Heap.Awaits (h : Heap) : List Frame → List Piece → List Ref → Prop
  | nobody : Awaits h [] [] []
  | reply {cell r rest : Ref} {next : Value → Script Outcome} {n : Nat} {strict : Bool}
      {pieces pieces' : List Piece} {own own' : List Ref} {frames : List Frame}
      (continues : Continues next n rest strict) (behind : h.Behind n rest pieces own)
      (others : Awaits h frames pieces' own') :
      Awaits h ({ cell, site := none, wait := .reply .pure r next } :: frames) (pieces ++ pieces')
        (own ++ own')
  | tail {cell : Ref} {pieces : List Piece} {own : List Ref} {frames : List Frame}
      (others : Awaits h frames pieces own) :
      Awaits h ({ cell, site := none, wait := .tail } :: frames) pieces own

/-- The first of the frames waits for this cell. -/
inductive Frame.Asks (r : Ref) (strict : Bool) : List Frame → Prop
  | intro {cell rest : Ref} {next : Value → Script Outcome} {n : Nat} {frames : List Frame}
      (continues : Continues next n rest strict) :
      Asks r strict ({ cell, site := none, wait := .reply .pure r next } :: frames)

/-- Cells of one's own are as they were, and so are all forced cells. -/
structure Heap.Carries (own : List Ref) (h h' : Heap) : Prop where
  own : ∀ r ∈ own, ∀ c, h.state? r = some c → h'.state? r = some c
  forced : ∀ r v, h.state? r = some (.forced v) → h'.state? r = some (.forced v)

/-- Nothing has been done but to cells of one's own, and to new ones. These are one's own now. -/
structure Store.Works (s : Store) (own : List Ref) (t : Store) (left : List Ref) : Prop where
  before : s.heap.Before t.heap
  others : ∀ r c, r ∉ own → s.heap.state? r = some c → t.heap.state? r = some c
  fresh : ∀ r ∈ left, r ∈ own ∨ s.heap.state? r = none
  rest : t = { s with heap := t.heap }

section
variable {h h' : Heap} {own own' left : List Ref} {s t u : Store} {strict : Bool} {r : Ref}
variable {pieces : List Piece} {frames : List Frame} {n : Nat}

theorem Heap.carries_refl (own : List Ref) (h : Heap) : h.Carries own h :=
  ⟨fun _ _ _ => id, fun _ _ => id⟩

theorem Heap.Carries.trans {h'' : Heap} (first : h.Carries own h') (rest : h'.Carries own h'') :
    h.Carries own h'' :=
  ⟨fun r mem c state => rest.own r mem c (first.own r mem c state),
    fun r v known => rest.forced r v (first.forced r v known)⟩

theorem Heap.Carries.weaken (carries : h.Carries own h') (fewer : own' ⊆ own) :
    h.Carries own' h' :=
  ⟨fun r mem => carries.own r (fewer mem), carries.forced⟩

theorem Heap.Whole.carry (carries : h.Carries own h') {l : LazyList} {rs : List Ref}
    (whole : h.Whole l rs) : h'.Whole l rs := by
  induction whole with
  | nil => exact .nil
  | cons known _ ih => exact .cons (carries.forced _ _ known) ih

theorem Heap.Strung.carry (strung : h.Strung strict r pieces own) (carries : h.Carries own h') :
    h'.Strung strict r pieces own := by
  induction strung with
  | source strict r => exact .source strict r
  | whole known whole => exact .whole (carries.forced _ _ known) (whole.carry carries)
  | append waits function _ ih =>
    exact .append (carries.own _ (by simp) _ waits) (carries.forced _ _ function)
      (ih (carries.weaken (by simp)))
  | merge waits function _ _ ih ih' =>
    exact .merge (carries.own _ (by simp) _ waits) (carries.forced _ _ function)
      (ih (carries.weaken (by simp))) (ih' (carries.weaken (by simp)))
  | last waits ends _ ih =>
    exact .last (carries.own _ (by simp) _ waits) (carries.forced _ _ ends)
      (ih (carries.weaken (by simp)))
  | more waits lists ends _ _ ih ih' =>
    exact .more (carries.own _ (by simp) _ waits) (carries.forced _ _ lists)
      (carries.forced _ _ ends) (ih (carries.weaken (by simp))) (ih' (carries.weaken (by simp)))

/-- All that is one's own waits. -/
theorem Heap.Strung.pending (strung : h.Strung strict r pieces own) :
    ∀ q ∈ own, ∃ w, h.state? q = some (.pending w) := by
  induction strung with
  | source | whole => simp
  | append waits _ _ ih | last waits _ _ ih =>
    intro q mem
    rcases List.mem_cons.1 mem with rfl | mem
    · exact ⟨_, waits⟩
    · exact ih q mem
  | merge waits _ _ _ ih ih' | more waits _ _ _ _ ih ih' =>
    intro q mem
    rcases List.mem_cons.1 mem with rfl | mem
    · exact ⟨_, waits⟩
    · exact (List.mem_append.1 mem).elim (ih q) (ih' q)

theorem Heap.Strung.exists_cons (strung : h.Strung strict r pieces own) (mine : r ∈ own) :
    ∃ own', own = r :: own' := by
  cases strung with
  | source | whole => cases mine
  | append | merge | last | more => exact ⟨_, rfl⟩

theorem Heap.Behind.carry {rest : Ref} (behind : h.Behind n rest pieces own)
    (carries : h.Carries own h') : h'.Behind n rest pieces own := by
  cases behind with
  | nothing room ends => exact .nothing room (carries.forced _ _ ends)
  | list room lists ends next =>
    exact .list room (carries.forced _ _ lists) (carries.forced _ _ ends) (next.carry carries)

theorem Heap.Behind.exists_succ {rest : Ref} (behind : h.Behind n rest pieces own) :
    ∃ m, n = m + 1 := by
  cases behind with
  | nothing room => exact Nat.exists_eq_add_one_of_ne_zero (by omega)
  | list room => exact Nat.exists_eq_add_one_of_ne_zero (by omega)

theorem Heap.Behind.pending {rest : Ref} (behind : h.Behind n rest pieces own) :
    ∀ q ∈ own, ∃ w, h.state? q = some (.pending w) := by
  cases behind with
  | nothing => simp
  | list _ _ _ next => exact next.pending

theorem Heap.Awaits.carry (awaits : h.Awaits frames pieces own) (carries : h.Carries own h') :
    h'.Awaits frames pieces own := by
  induction awaits with
  | nobody => exact .nobody
  | reply continues behind _ ih =>
    exact .reply continues (behind.carry (carries.weaken (by simp)))
      (ih (carries.weaken (by simp)))
  | tail _ ih => exact .tail (ih carries)

theorem Heap.Awaits.pending (awaits : h.Awaits frames pieces own) :
    ∀ q ∈ own, ∃ w, h.state? q = some (.pending w) := by
  induction awaits with
  | nobody => simp
  | reply _ behind _ ih =>
    exact fun q mem => (List.mem_append.1 mem).elim (behind.pending q) (ih q)
  | tail _ ih => exact ih

/-- The concatenation of a list with what comes after it. -/
theorem Heap.Behind.strung {tail rest : Ref} {pieces' : List Piece}
    (behind : h.Behind n rest pieces' own')
    (waits : h.state? r = some (.pending { task := .resume (.concat tail rest) }))
    (list : h.Strung true tail pieces own) :
    h.Strung strict r (pieces ++ pieces') (r :: (own ++ own')) := by
  cases behind with
  | nothing _ ends =>
    rw [List.append_nil, List.append_nil]
    exact .last waits ends list
  | list _ lists ends next => exact .more waits lists ends list next

/-! ### What is done to a store -/

theorem Heap.site?_new (h : Heap) (c : Cell) : (h.alloc c).2.site? (h.alloc c).1 = c.site := by
  simp [site?, cell?_alloc]

theorem Store.works_refl (s : Store) (more : left ⊆ own) : s.Works own s left :=
  ⟨s.heap.before_refl, fun _ _ _ => id, fun _ mem => .inl (more mem), rfl⟩

theorem Store.Works.trans {left' : List Ref} (first : s.Works own t left)
    (rest : t.Works own' u left') {all : List Ref} (mine : own ⊆ all)
    (cover : ∀ r ∈ own', r ∈ all ∨ s.heap.state? r = none) : s.Works all u left' where
  before := first.before.trans rest.before
  others r c other known := by
    refine rest.others r c (fun mem => ?_) (first.others r c (fun mem => other (mine mem)) known)
    rcases cover r mem with mine | new
    · exact other mine
    · rw [new] at known
      cases known
  fresh r mem := by
    rcases rest.fresh r mem with mem | new
    · exact cover r mem
    · refine .inr (Option.eq_none_iff_forall_ne_some.2 fun c known => ?_)
      obtain ⟨cell, found, _⟩ := Heap.exists_cell known
      obtain ⟨_, later, _⟩ := first.before r cell found
      simp [Heap.state?, later] at new
  rest := by rw [rest.rest, first.rest]

/-- What is one's own may be left alone. -/
theorem Store.Works.forget (works : s.Works own t left) : s.Works own t [] :=
  ⟨works.before, works.others, by simp, works.rest⟩

/-- Whatever is forced stays, and so does what belongs to somebody else. -/
theorem Store.Works.carries (works : s.Works own t left) (apart : ∀ r ∈ own', r ∉ own) :
    s.heap.Carries own' t.heap :=
  ⟨fun r mem c => works.others r c (apart r mem), fun _ _ => works.before.forced⟩

theorem Store.works_start {w : Work} (pending : s.heap.state? r = some (.pending w)) :
    s.Works [r] (s.start r) [r] where
  before := Heap.before_setState pending (.start w)
  others q c other known := by
    rw [start, Heap.state?_setState_ne (by simpa using other), known]
  fresh q mem := .inl mem
  rest := rfl

theorem Store.works_splice {w : Work} (pending : s.heap.state? r = some (.pending w)) (cell : Ref) :
    s.Works [r] { s with heap := s.heap.setState r (.redirect cell) } [] where
  before := Heap.before_setState pending (.splice w cell)
  others q c other known := by
    rw [Heap.state?_setState_ne (by simpa using other), known]
  fresh := by simp
  rest := rfl

theorem Store.works_publish (forcing : s.heap.state? r = some .forcing) (v : Value) :
    s.Works [r] (s.publish r v) [] where
  before := Heap.before_publish forcing v
  others q c other known := by
    rw [publish, Heap.publish, Heap.state?_setState_ne (by simpa using other), known]
  fresh := by simp
  rest := rfl

theorem Store.works_alloc (s : Store) (c : Cell) :
    s.Works [] (s.act (.alloc c)).2 [(s.act (.alloc c)).1] where
  before := s.before_act _
  others q c' _ known := Heap.state?_alloc_of_some known c
  fresh q mem := by
    rw [List.mem_singleton.1 mem]
    exact .inr s.heap.state?_size
  rest := rfl

end
end CallByNeed
