import CallByNeed.Expr.Interpret
import CallByNeed.Proofs.Likeness.Values
import CallByNeed.Signature.Binding

/- Likeness of arguments, of binding them, and of interpreting code among locals. -/
namespace CallByNeed

theorem halfLike_self {B : Bond} {h : Half Default}
    (literals : ∀ p ∈ h.optionals, ∃ l, p.2 = .literal l) : HalfLike (DefaultLike B) h h := by
  refine ⟨rfl, ?_, rfl⟩
  refine List.forall₂_same.2 ?_
  intro p mem
  obtain ⟨l, is_literal⟩ := literals p mem
  exact ⟨rfl, is_literal ▸ .literal l⟩

theorem Builtin.like_signature (B : Bond) (b : Builtin) :
    SignatureLike (DefaultLike B) b.signature b.signature := by
  have positional : ∀ p ∈ b.signature.positional.optionals, ∃ l, p.2 = Default.literal l := by
    cases b <;> simp [signature, Signature.plain]
  have keyword : ∀ p ∈ b.signature.keyword.optionals, ∃ l, p.2 = Default.literal l := by
    cases b <;> simp [signature, Signature.plain, writeOptionals]
  exact ⟨halfLike_self positional, halfLike_self keyword⟩

section
variable {M : Manner} {B : Bond} {bound bound' : Nat}

theorem Builtin.like_function {b : Builtin} (permitted : M.Permits b.isEffect b) :
    FunctionLike M B b.function b.function :=
  ⟨rfl, b.like_signature B, .builtin permitted, rfl⟩

theorem Literal.like_value (l : Literal) : ValueLike M B l.value l.value := by
  cases l <;> constructor

theorem PredefinedLike.value {p p' : Predefined} (like : PredefinedLike M p p') :
    ValueLike M B p.value p'.value := by
  cases p with
  | constant b =>
    cases p' with
    | constant b' =>
      cases like
      exact .bool b
    | function b' => exact like.elim
  | function b =>
    cases p' with
    | constant b' => exact like.elim
    | function b' =>
      obtain ⟨rfl, permitted⟩ := like
      exact .function (Builtin.like_function permitted)

theorem alike_allocCall {v v' : Value} (values : ValueLike M B v v') {rs rs' : List Ref}
    (cells : RefsLike B rs rs') :
    Alike M B B.cells (allocCall v rs : Script Ref) (allocCall v' rs') := by
  refine (Alike.allocValue values).bind fun f f' functions => ?_
  have arguments : ArgumentsLike B { positionals := rs } { positionals := rs' } :=
    ⟨cells, .none, .nil, .nil⟩
  exact .allocOfCall functions arguments none

/-- Cells of positional arguments, each with whether it is expanded. -/
def PlacesLike (B : Bond) : List (Ref × Bool) → List (Ref × Bool) → Prop :=
  List.Forall₂ fun p p' => B.cells p.1 p'.1 ∧ p.2 = p'.2

theorem PlacesLike.takeWhile {ps ps' : List (Ref × Bool)} (like : PlacesLike B ps ps') :
    RefsLike B ((ps.takeWhile fun p => !p.2).map (·.1))
      ((ps'.takeWhile fun p => !p.2).map (·.1)) := by
  induction like with
  | nil => exact .nil
  | @cons p p' _ _ first _ ih =>
    obtain ⟨cells, expanded⟩ := first
    simp only [List.takeWhile_cons, expanded]
    cases p'.2 with
    | true => exact .nil
    | false => exact .cons cells ih

theorem PlacesLike.dropWhile {ps ps' : List (Ref × Bool)} (like : PlacesLike B ps ps') :
    PlacesLike B (ps.dropWhile fun p => !p.2) (ps'.dropWhile fun p => !p.2) := by
  induction like with
  | nil => exact .nil
  | @cons p p' _ _ first others ih =>
    simp only [List.dropWhile_cons, first.2]
    cases p'.2 with
    | true => exact .cons first others
    | false => exact ih

namespace Arguments

theorem alike_allocMerge {rs rs' : List Ref} (cells : RefsLike B rs rs') :
    Alike M B B.cells (allocMerge rs : Script Ref) (allocMerge rs') :=
  alike_allocCall (.function (Builtin.like_function (.inr (.inr rfl)))) cells

theorem alike_allocAppend {r r' : Ref} (lists : B.cells r r') {rs rs' : List Ref}
    (cells : RefsLike B rs rs') :
    Alike M B B.cells (allocAppend r rs : Script Ref) (allocAppend r' rs') :=
  alike_allocCall (.function (Builtin.like_function (.inr (.inr rfl)))) (.cons lists cells)

theorem alike_ofCall {ps ps' : List (Ref × Bool)} (positionals : PlacesLike B ps ps')
    {ks ks' : List (String × Ref)} (keywords : EntriesLike B.cells ks ks') {ds ds' : List Ref}
    (dicts : RefsLike B ds ds') :
    Alike M B (ArgumentsLike B) (ofCall ps ks ds : Script Arguments) (ofCall ps' ks' ds') := by
  have explicit := positionals.takeWhile
  have expanded := positionals.dropWhile
  unfold ofCall
  generalize ps.dropWhile (fun p => !p.2) = later, ps'.dropWhile (fun p => !p.2) = later'
    at expanded
  cases expanded with
  | nil => exact .pure ⟨explicit, .none, keywords, dicts⟩
  | cons first others =>
    refine (Alike.foldlM ?_ others first.1).bind ?_
    · rintro list list' ⟨r, expand⟩ ⟨r', expand'⟩ lists ⟨cells, rfl⟩
      cases expand with
      | true => exact alike_allocMerge (.cons lists (.cons cells .nil))
      | false => exact alike_allocAppend lists (.cons cells .nil)
    · intro spread spread' spreads
      exact .pure ⟨explicit, .some spreads, keywords, dicts⟩

theorem alike_merge {a a' b b' : Arguments} (firsts : ArgumentsLike B a a')
    (laters : ArgumentsLike B b b') :
    Alike M B (ArgumentsLike B) (a.merge b : Script Arguments) (a'.merge b') := by
  obtain ⟨ps, spread, ks, ds⟩ := a
  obtain ⟨ps', spread', ks', ds'⟩ := a'
  obtain ⟨positionals, spreads, keywords, dicts⟩ := firsts
  obtain ⟨qs, more, ls, es⟩ := b
  obtain ⟨qs', more', ls', es'⟩ := b'
  obtain ⟨positionals', mores, keywords', dicts'⟩ := laters
  have all_keywords := List.rel_append keywords keywords'
  have all_dicts := List.rel_append dicts dicts'
  cases spreads with
  | none =>
    exact .pure ⟨List.rel_append positionals positionals', mores, all_keywords, all_dicts⟩
  | some lists =>
    cases mores with
    | none =>
      cases positionals' with
      | nil => exact .pure ⟨positionals, .some lists, all_keywords, all_dicts⟩
      | cons first others =>
        refine (alike_allocAppend lists (.cons first others)).bind fun all all' alls => ?_
        exact .pure ⟨positionals, .some alls, all_keywords, all_dicts⟩
    | some mores =>
      have joins {list list' : Ref} (lists : B.cells list list') :=
        alike_allocMerge (M := M) (.cons lists (.cons mores .nil))
      cases positionals' with
      | nil =>
        exact (joins lists).bind fun all all' alls =>
          .pure ⟨positionals, .some alls, all_keywords, all_dicts⟩
      | cons first others =>
        refine (alike_allocAppend lists (.cons first others)).bind fun joined joined' joineds => ?_
        exact (joins joineds).bind fun all all' alls =>
          .pure ⟨positionals, .some alls, all_keywords, all_dicts⟩

/-- What has been taken, if anything, and what is left. -/
def TakenLike {α α' : Type} (B : Bond) (left : α → α' → Prop) (x : Option Ref × α)
    (x' : Option Ref × α') : Prop :=
  Option.Rel B.cells x.1 x'.1 ∧ left x.2 x'.2

theorem alike_nextPositional {a a' : Arguments} (like : ArgumentsLike B a a') :
    Alike M B (TakenLike B (ArgumentsLike B)) a.nextPositional a'.nextPositional := by
  obtain ⟨ps, spread, ks, ds⟩ := a
  obtain ⟨ps', spread', ks', ds'⟩ := a'
  obtain ⟨positionals, spreads, keywords, dicts⟩ := like
  cases positionals with
  | cons first others => exact .pure ⟨.some first, others, spreads, keywords, dicts⟩
  | nil =>
    cases spreads with
    | none => exact .pure ⟨.none, .nil, .none, keywords, dicts⟩
    | some lists =>
      refine (alike_forceList lists).bind fun l l' heads => ?_
      cases heads with
      | nil => exact .pure ⟨.none, .nil, .none, keywords, dicts⟩
      | cons heads tails => exact .pure ⟨.some heads, .nil, .some tails, keywords, dicts⟩

theorem alike_restPositionals {a a' : Arguments} (like : ArgumentsLike B a a') :
    Alike M B (fun x x' => B.cells x.1 x'.1 ∧ ArgumentsLike B x.2 x'.2) a.restPositionals
      a'.restPositionals := by
  obtain ⟨ps, spread, ks, ds⟩ := a
  obtain ⟨ps', spread', ks', ds'⟩ := a'
  obtain ⟨positionals, spreads, keywords, dicts⟩ := like
  refine (LazyList.alike_ofRefs positionals).bind fun l l' lists => ?_
  refine (Alike.allocValue (.list lists)).bind fun r r' explicit => ?_
  cases spreads with
  | none => exact .pure ⟨explicit, .nil, .none, keywords, dicts⟩
  | some lists =>
    refine (alike_allocMerge (.cons explicit (.cons lists .nil))).bind fun all all' alls => ?_
    exact .pure ⟨alls, .nil, .none, keywords, dicts⟩

theorem alike_takeEntry (key : Key) {ds ds' : List Ref} (dicts : RefsLike B ds ds') :
    Alike M B (Option.Rel fun x x' => B.cells x.1 x'.1 ∧ RefsLike B x.2 x'.2)
      (takeEntry key ds) (takeEntry key ds') := by
  induction dicts with
  | nil => exact .pure .none
  | cons first others ih =>
    refine (alike_forceDict first).bind fun d d' entries => ?_
    have found : Option.Rel B.cells (d.get? key) (d'.get? key) := Dict.rel_find key entries
    generalize d.get? key = o, d'.get? key = o' at found
    cases found with
    | some cells =>
      refine (Alike.allocValue (.dict (Dict.like_remove key entries))).bind ?_
      intro left left' lefts
      exact .pure (.some ⟨cells, .cons lefts others⟩)
    | none =>
      refine ih.bind fun x x' rests => ?_
      cases rests with
      | none => exact .pure .none
      | some rests => exact .pure (.some ⟨rests.1, .cons first rests.2⟩)

section
variable {α β : Type} {like : α → β → Prop} {ks : List (String × α)} {ks' : List (String × β)}

theorem rel_find (name : String) (keywords : EntriesLike like ks ks') :
    Option.Rel (fun k k' => k.1 = k'.1 ∧ like k.2 k'.2) (ks.find? fun k => k.1 == name)
      (ks'.find? fun k => k.1 == name) := by
  induction keywords with
  | nil => exact .none
  | @cons k k' _ _ first _ ih =>
    simp only [List.find?_cons, first.1]
    split
    · exact .some first
    · exact ih

theorem like_eraseP (name : String) (keywords : EntriesLike like ks ks') :
    EntriesLike like (ks.eraseP fun k => k.1 == name) (ks'.eraseP fun k => k.1 == name) := by
  induction keywords with
  | nil => exact .nil
  | @cons k k' _ _ first others ih =>
    simp only [List.eraseP_cons, first.1]
    cases k'.1 == name with
    | true => exact others
    | false => exact .cons first ih

theorem like_keys (keywords : EntriesLike like ks ks') :
    EntriesLike like (ks.map fun k => (Key.string k.1, k.2))
      (ks'.map fun k => (Key.string k.1, k.2)) := by
  refine List.forall₂_map_left_iff.2 (List.forall₂_map_right_iff.2 ?_)
  exact List.Forall₂.imp (fun _ _ k => ⟨congrArg Key.string k.1, k.2⟩) keywords

end

theorem alike_takeKeyword {a a' : Arguments} (like : ArgumentsLike B a a') (name : String) :
    Alike M B (TakenLike B (ArgumentsLike B)) (a.takeKeyword name) (a'.takeKeyword name) := by
  obtain ⟨ps, spread, ks, ds⟩ := a
  obtain ⟨ps', spread', ks', ds'⟩ := a'
  obtain ⟨positionals, spreads, keywords, dicts⟩ := like
  have found := rel_find name keywords
  have erased := like_eraseP name keywords
  unfold takeKeyword
  generalize ks.find? (fun k => k.1 == name) = o, ks'.find? (fun k => k.1 == name) = o' at found
  cases found with
  | some first => exact .pure ⟨.some first.2, positionals, spreads, erased, dicts⟩
  | none =>
    refine (alike_takeEntry _ dicts).bind fun x x' taken => ?_
    cases taken with
    | none => exact .pure ⟨.none, positionals, spreads, keywords, dicts⟩
    | some taken => exact .pure ⟨.some taken.1, positionals, spreads, keywords, taken.2⟩

theorem alike_restKeywords {a a' : Arguments} (like : ArgumentsLike B a a') :
    Alike M B (fun x x' => B.cells x.1 x'.1 ∧ ArgumentsLike B x.2 x'.2) a.restKeywords
      a'.restKeywords := by
  obtain ⟨ps, spread, ks, ds⟩ := a
  obtain ⟨ps', spread', ks', ds'⟩ := a'
  obtain ⟨positionals, spreads, keywords, dicts⟩ := like
  refine (Alike.allocValue (.dict (Dict.like_ofList (like_keys keywords)))).bind fun d d' explicit => ?_
  cases dicts with
  | nil => exact .pure ⟨explicit, positionals, spreads, .nil, .nil⟩
  | cons first others =>
    refine (alike_allocMerge (.cons explicit (.cons first others))).bind fun all all' alls => ?_
    exact .pure ⟨alls, positionals, spreads, .nil, .nil⟩

theorem alike_countEntries {ds ds' : List Ref} (dicts : RefsLike B ds ds') :
    Alike M B Eq (countEntries ds) (countEntries ds') := by
  induction dicts with
  | nil => exact .pure rfl
  | cons first others ih =>
    refine (alike_forceDict first).bind fun d d' entries => ?_
    refine ih.bind ?_
    rintro n _ rfl
    exact .pure (congrArg (· + n) (Dict.size_eq entries))

/-- The end of `checkTaken`, for a number of positionals that are left. -/
theorem alike_checkCounts {ks ks' : List (String × Ref)} (keywords : EntriesLike B.cells ks ks')
    {ds ds' : List Ref} (dicts : RefsLike B ds ds') (left : Nat) :
    Alike M B Eq
      (if 0 < left then fail (.extraPositionals left)
      else do
        let left := ks.length + (← countEntries ds)
        if 0 < left then fail (.extraKeywords left) else pure ())
      (if 0 < left then fail (.extraPositionals left)
      else do
        let left := ks'.length + (← countEntries ds')
        if 0 < left then fail (.extraKeywords left) else pure ()) := by
  split
  · exact .fail _
  · refine (alike_countEntries dicts).bind ?_
    rintro n _ rfl
    simp only [keywords.length_eq]
    split
    · exact .fail _
    · exact .pure rfl

theorem alike_checkTaken {a a' : Arguments} (like : ArgumentsLike B a a') :
    Alike M B Eq a.checkTaken a'.checkTaken := by
  have next := alike_nextPositional (M := M) like
  obtain ⟨positionals, spreads, keywords, dicts⟩ := like
  unfold checkTaken
  generalize a.positionals = ps, a'.positionals = ps' at positionals
  cases positionals with
  | @cons p p' ps ps' first others =>
    simp only [List.isEmpty_cons, Bool.false_eq_true, if_false, List.length_cons, others.length_eq]
    exact alike_checkCounts keywords dicts (ps'.length + 1)
  | nil =>
    refine next.bind ?_
    rintro ⟨o, left⟩ ⟨o', left'⟩ ⟨taken, _⟩
    cases taken with
    | none => exact alike_checkCounts keywords dicts 0
    | some _ => exact alike_checkCounts keywords dicts 1

end Arguments

theorem DefaultLike.alike_ref {d d' : Default} (like : DefaultLike B d d') :
    Alike M B B.cells d.ref d'.ref := by
  cases like with
  | literal l => exact .allocValue l.like_value
  | cell cells => exact .pure cells

/-- Like bindings with `count` parameters bound. -/
structure BindingLike (B : Bond) (count : Nat) (b b' : Binding) : Prop where
  left : ArgumentsLike B b.left b'.left
  named : b.named = b'.named
  bound : RefsLike B b.bound b'.bound
  count : b.bound.length = count

namespace Binding
variable {n : Nat}

theorem like_push {b b' : Binding} (like : BindingLike B n b b') {r r' : Ref}
    (cells : B.cells r r') {left left' : Arguments} (lefts : ArgumentsLike B left left') :
    BindingLike B (n + 1) (b.push r left) (b'.push r' left') := by
  have count := like.count
  exact ⟨lefts, like.named, .cons cells like.bound, by simp [push, count]⟩

theorem alike_findKeyword {b b' : Binding} (like : BindingLike B n b b') (name : String) :
    Alike M B (Arguments.TakenLike B (BindingLike B n)) (b.findKeyword name)
      (b'.findKeyword name) := by
  refine (Arguments.alike_takeKeyword like.left name).bind ?_
  rintro ⟨found, left⟩ ⟨found', left'⟩ ⟨taken, lefts⟩
  exact .pure ⟨taken, lefts, like.named, like.bound, like.count⟩

theorem alike_findPositional {b b' : Binding} (like : BindingLike B n b b') (name : String) :
    Alike M B (Arguments.TakenLike B (BindingLike B n)) (b.findPositional name)
      (b'.findPositional name) := by
  obtain ⟨left, named, bound⟩ := b
  obtain ⟨left', named', bound'⟩ := b'
  obtain ⟨lefts, named_eq, bounds, count⟩ := like
  cases named_eq
  have by_name : ∀ left left', ArgumentsLike B left left' →
      Alike M B (Arguments.TakenLike B (BindingLike B n))
        (do
          let taken ← left.takeKeyword name
          pure (taken.1, ({ left := taken.2, named := true, bound } : Binding)))
        (do
          let taken ← left'.takeKeyword name
          pure (taken.1, ({ left := taken.2, named := true, bound := bound' } : Binding))) := by
    intro left left' lefts
    refine (Arguments.alike_takeKeyword lefts name).bind ?_
    rintro ⟨found, left⟩ ⟨found', left'⟩ ⟨taken, lefts⟩
    exact .pure ⟨taken, lefts, rfl, bounds, count⟩
  cases named with
  | true => exact by_name _ _ lefts
  | false =>
    refine (Arguments.alike_nextPositional lefts).bind ?_
    rintro ⟨found, left⟩ ⟨found', left'⟩ ⟨taken, lefts⟩
    cases taken with
    | some cells => exact .pure ⟨.some cells, lefts, rfl, bounds, count⟩
    | none => exact by_name _ _ lefts

theorem alike_bindNamed {find : Binding → String → Script (Option Ref × Binding)}
    (finds : ∀ n b b' name, BindingLike B n b b' →
      Alike M B (Arguments.TakenLike B (BindingLike B n)) (find b name) (find b' name))
    (missing : Cause) {h h' : Half Default} (halves : HalfLike (DefaultLike B) h h')
    {b b' : Binding} (like : BindingLike B n b b') :
    Alike M B (BindingLike B (n + h.requireds.length + h.optionals.length))
      (b.bindNamed find missing h) (b'.bindNamed find missing h') := by
  obtain ⟨requireds, optionals, rest⟩ := halves
  unfold bindNamed
  rw [requireds]
  have same_names : List.Forall₂ Eq h'.requireds h'.requireds := List.forall₂_same.2 (by simp)
  refine (Alike.foldlM_count ?_ same_names like).bind fun c c' likes => ?_
  · rintro n b b' name _ likes rfl
    refine (finds n b b' name likes).bind ?_
    rintro ⟨found, c⟩ ⟨found', c'⟩ ⟨taken, likes⟩
    cases taken with
    | some cells => exact .pure (like_push likes cells likes.left)
    | none => exact .fail _
  · refine Alike.foldlM_count ?_ optionals likes
    rintro n b b' ⟨name, d⟩ ⟨name', d'⟩ likes ⟨rfl, defaults⟩
    refine (finds n b b' name likes).bind ?_
    rintro ⟨found, c⟩ ⟨found', c'⟩ ⟨taken, likes⟩
    cases taken with
    | some cells => exact .pure (like_push likes cells likes.left)
    | none =>
      refine defaults.alike_ref.bind fun r r' cells => ?_
      exact .pure (like_push likes cells likes.left)

theorem alike_bindRest {rest : Arguments → Script (Ref × Arguments)}
    (rests : ∀ a a', ArgumentsLike B a a' →
      Alike M B (fun x x' => B.cells x.1 x'.1 ∧ ArgumentsLike B x.2 x'.2) (rest a) (rest a'))
    {h h' : Half Default} (halves : HalfLike (DefaultLike B) h h') {b b' : Binding}
    (like : BindingLike B n b b') :
    Alike M B (BindingLike B (n + h.rest.toList.length)) (b.bindRest rest h)
      (b'.bindRest rest h') := by
  unfold bindRest
  rw [halves.rest]
  cases h'.rest with
  | none => exact .pure like
  | some name =>
    refine (rests _ _ like.left).bind ?_
    rintro ⟨r, left⟩ ⟨r', left'⟩ ⟨cells, lefts⟩
    exact .pure (like_push like cells lefts)

end Binding

/-- A binding has a cell for each parameter. -/
theorem SignatureLike.alike_bind {s s' : Signature Default}
    (like : SignatureLike (DefaultLike B) s s') {a a' : Arguments} (given : ArgumentsLike B a a') :
    Alike M B (fun rs rs' => RefsLike B rs rs' ∧ rs.length = s.arity) (s.bind a) (s'.bind a') := by
  have starts : BindingLike B 0 { left := a } { left := a' } := ⟨given, rfl, .nil, rfl⟩
  refine (Binding.alike_bindNamed (fun _ _ _ name likes =>
    Binding.alike_findPositional likes name) _ like.positional starts).bind fun b b' likes => ?_
  refine (Binding.alike_bindRest (fun _ _ => Arguments.alike_restPositionals) like.positional
    likes).bind fun b b' likes => ?_
  refine (Binding.alike_bindNamed (fun _ _ _ name likes => Binding.alike_findKeyword likes name)
    _ like.keyword likes).bind fun b b' likes => ?_
  refine (Binding.alike_bindRest (fun _ _ => Arguments.alike_restKeywords) like.keyword
    likes).bind fun b b' likes => ?_
  refine (Arguments.alike_checkTaken likes.left).bind fun _ _ _ => ?_
  refine .pure ⟨likes.bound.reverse, ?_⟩
  simp only [List.length_reverse, likes.count, Signature.arity, Half.arity]
  omega

end
end CallByNeed
