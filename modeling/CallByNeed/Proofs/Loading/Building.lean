import CallByNeed.Proofs.Heap.Moves
import CallByNeed.Proofs.Known.Acts
import CallByNeed.Proofs.Likeness.Task
import CallByNeed.Proofs.Loading.Resolving

/- Code that only makes cells. Loading runs it on a heap, bodies run it as a script; both make the
   same cells, so what is proved of scripts holds of loading. -/
namespace CallByNeed

def Cell.isAction (c : Cell) : Bool :=
  match c.state with
  | .pending { task := .resume (.action _ _), .. } => true
  | _ => false

/-- What a script comes to that only makes cells, and no actions. -/
def Script.built {α : Type} : Script α → Heap → Option (α × Heap)
  | .done a, h => some (a, h)
  | .act (.alloc c) next, h =>
    if c.isAction then none else (next (h.alloc c).1).built (h.alloc c).2
  | _, _ => none

/-- The script makes the cells that the builder makes. -/
def Script.Builds {α : Type} (s : Script α) (b : StateM Heap α) : Prop :=
  ∀ h, s.built h = some (b.run h)

theorem Script.built_bind {α β : Type} (s : Script α) (f : α → Script β) (h : Heap) :
    (s.bind f).built h = (s.built h).bind fun x => (f x.1).built x.2 := by
  induction s generalizing h with
  | done a => rfl
  | raise e => rfl
  | panic p => rfl
  | stall => rfl
  | demand how r next => rfl
  | act a next ih =>
    cases a with
    | alloc c =>
      simp only [bind, built]
      split
      · rfl
      · exact ih _ _
    | _ => rfl
  | ask q next => rfl

section
variable {α β : Type}

theorem builds_pure (a : α) : (pure a : Script α).Builds (pure a) := fun _ => rfl

theorem builds_bind {s : Script α} {b : StateM Heap α} {f : α → Script β} {g : α → StateM Heap β}
    (first : s.Builds b) (rest : ∀ a, (f a).Builds (g a)) : (s >>= f).Builds (b >>= g) := by
  intro h
  change (s.bind f).built h = _
  rw [Script.built_bind, first h]
  exact rest _ _

theorem builds_alloc {c : Cell} (plain : c.isAction = false) :
    (alloc c : Script Ref).Builds (alloc c) := by
  intro h
  change (Script.act (.alloc c) Script.done).built h = _
  simp only [Script.built, plain]
  rfl

theorem builds_mapM {γ : Type} {f : γ → Script α} {g : γ → StateM Heap α}
    (each : ∀ x, (f x).Builds (g x)) (l : List γ) : (l.mapM f).Builds (l.mapM g) := by
  induction l with
  | nil =>
    rw [List.mapM_nil, List.mapM_nil]
    exact builds_pure []
  | cons x l ih =>
    rw [List.mapM_cons, List.mapM_cons]
    exact builds_bind (each x) fun a => builds_bind ih fun _ => builds_pure _

theorem builds_foldlM {γ : Type} {f : α → γ → Script α} {g : α → γ → StateM Heap α}
    (each : ∀ a x, (f a x).Builds (g a x)) (l : List γ) (a : α) :
    (l.foldlM f a).Builds (l.foldlM g a) := by
  induction l generalizing a with
  | nil => exact builds_pure a
  | cons x l ih =>
    rw [List.foldlM_cons, List.foldlM_cons]
    exact builds_bind (each a x) ih

theorem builds_allocValue (v : Value) : (allocValue v : Script Ref).Builds (allocValue v) :=
  builds_alloc rfl

theorem builds_allocCall (v : Value) (rs : List Ref) :
    (allocCall v rs : Script Ref).Builds (allocCall v rs) :=
  builds_bind (builds_allocValue v) fun _ => builds_alloc rfl

theorem builds_ofCall (ps : List (Ref × Bool)) (ks : List (String × Ref)) (ds : List Ref) :
    (Arguments.ofCall ps ks ds : Script Arguments).Builds (Arguments.ofCall ps ks ds) := by
  unfold Arguments.ofCall
  split
  · exact builds_pure _
  · refine builds_bind (builds_foldlM (fun list p => ?_) _ _) fun _ => builds_pure _
    split
    · exact builds_allocCall _ _
    · exact builds_allocCall _ _

namespace Expr

mutual
theorem builds_interpret (locals : List Ref) :
    ∀ e : Expr, (interpret locals e : Script Ref).Builds (interpret locals e)
  | .literal l => by
    simp only [interpret]
    exact builds_allocValue _
  | .predefined p => by
    simp only [interpret]
    exact builds_allocValue _
  | .cell r => by
    simp only [interpret]
    exact builds_pure r
  | .local i => by
    simp only [interpret]
    split
    · exact builds_pure _
    · exact builds_alloc rfl
  | .call function positionals keywords dicts site => by
    simp only [interpret]
    refine builds_bind (builds_interpret locals function) fun f => ?_
    refine builds_bind (builds_interpretPositionals locals positionals) fun ps => ?_
    refine builds_bind (builds_interpretKeywords locals keywords) fun ks => ?_
    refine builds_bind (builds_interpretAll locals dicts) fun ds => ?_
    exact builds_bind (builds_ofCall ps ks ds) fun a => builds_alloc rfl
  | .switch value cases default => by
    simp only [interpret]
    exact builds_bind (builds_interpret locals value) fun r => builds_alloc rfl

theorem builds_interpretPositionals (locals : List Ref) :
    ∀ ps : List PositionalExpr,
      (interpretPositionals locals ps : Script (List (Ref × Bool))).Builds
        (interpretPositionals locals ps)
  | [] => by
    simp only [interpretPositionals]
    exact builds_pure []
  | ⟨value, expanded⟩ :: rest => by
    simp only [interpretPositionals]
    refine builds_bind (builds_interpret locals value) fun r => ?_
    exact builds_bind (builds_interpretPositionals locals rest) fun _ => builds_pure _

theorem builds_interpretKeywords (locals : List Ref) :
    ∀ ks : List KeywordExpr,
      (interpretKeywords locals ks : Script (List (String × Ref))).Builds
        (interpretKeywords locals ks)
  | [] => by
    simp only [interpretKeywords]
    exact builds_pure []
  | ⟨name, value⟩ :: rest => by
    simp only [interpretKeywords]
    refine builds_bind (builds_interpret locals value) fun r => ?_
    exact builds_bind (builds_interpretKeywords locals rest) fun _ => builds_pure _

theorem builds_interpretAll (locals : List Ref) :
    ∀ es : List Expr,
      (interpretAll locals es : Script (List Ref)).Builds (interpretAll locals es)
  | [] => by
    simp only [interpretAll]
    exact builds_pure []
  | e :: rest => by
    simp only [interpretAll]
    refine builds_bind (builds_interpret locals e) fun r => ?_
    exact builds_bind (builds_interpretAll locals rest) fun _ => builds_pure _
end

end Expr

theorem builds_shareHalf (h : Half Expr) :
    (Signature.shareHalf h : Script (Half Default)).Builds (Signature.shareHalf h) := by
  refine builds_bind (builds_mapM (fun o => ?_) _) fun _ => builds_pure _
  exact builds_bind (Expr.builds_interpret [] o.2) fun _ => builds_pure _

theorem builds_build (m : Meaning) : (Program.build m : Script Ref).Builds (Program.build m) := by
  cases m with
  | «variable» value => exact Expr.builds_interpret [] value
  | function name signature bindings result =>
    refine builds_bind ?_ fun _ => builds_allocValue _
    refine builds_bind (builds_shareHalf _) fun _ => ?_
    exact builds_bind (builds_shareHalf _) fun _ => builds_pure _

end

section
variable {M : Manner} {B : Bond}

theorem alike_shareHalf {h h' : Half Expr} (like : HalfLike (ExprLike M B 0) h h') :
    Alike M B (fun k k' => HalfLike (DefaultLike B) k k' ∧ k.arity = h.arity)
      (Signature.shareHalf h : Script (Half Default)) (Signature.shareHalf h') := by
  obtain ⟨requireds, optionals, rest⟩ := like
  refine (Alike.mapM_length (L := fun o o' => o.1 = o'.1 ∧ DefaultLike B o.2 o'.2) ?_
    optionals).bind ?_
  · rintro ⟨name, e⟩ ⟨_, e'⟩ ⟨rfl, values⟩
    refine (Expr.alike_interpret .nil values).bind fun r r' cells => ?_
    exact .pure ⟨rfl, .cell cells⟩
  · rintro os os' ⟨entries, count⟩
    refine .pure ⟨⟨requireds, entries, rest⟩, ?_⟩
    simp [Half.arity, count]

theorem alike_share {s s' : Signature Expr} (like : SignatureLike (ExprLike M B 0) s s') :
    Alike M B (fun k k' => SignatureLike (DefaultLike B) k k' ∧ k.arity = s.arity)
      (s.share : Script (Signature Default)) s'.share := by
  refine (alike_shareHalf like.positional).bind ?_
  rintro k k' ⟨positionals, places⟩
  refine (alike_shareHalf like.keyword).bind ?_
  rintro l l' ⟨keywords, names⟩
  refine .pure ⟨⟨positionals, keywords⟩, ?_⟩
  simp only [Signature.arity, places, names]

theorem alike_build {m m' : Meaning} (like : MeaningLike M B m m') :
    Alike M B B.cells (Program.build m : Script Ref) (Program.build m') := by
  cases like with
  | «variable» value => exact Expr.alike_interpret .nil value
  | @function name s s' es es' e e' signature binds result =>
    refine (alike_share signature).bind ?_
    rintro k k' ⟨signatures, arity⟩
    have functions : FunctionLike M B { name, signature := k, body := .code es e }
        { name, signature := k', body := .code es' e' } :=
      ⟨rfl, signatures, .code (arity ▸ binds) (arity ▸ result), rfl⟩
    exact .allocValue (.function functions)

end

namespace Heap

/-- All cells of the heap. -/
def domain (h : Heap) : Set Ref := {r | ∃ c, h.state? r = some c}

theorem domain_alloc (h : Heap) (c : Cell) :
    (h.alloc c).2.domain = insert (h.alloc c).1 h.domain := by
  ext r
  simp only [domain, Set.mem_ofPred_eq, Set.mem_insert_iff, state?_alloc]
  split
  · next same => simp [same]
  · next other => simp [other]

/-- What making cells does to a heap whose cells mention no others. -/
structure Built (M : Manner) (unfilled : Set Ref) (h h' : Heap) : Prop where
  within : h'.Within M h'.domain unfilled
  keeps : ∀ r c, h.state? r = some c → h'.state? r = some c
  made : ∀ r c, h'.state? r = some c →
    h.state? r = some c ∨ StateLike M (.among h'.domain) c c

namespace Built
variable {M : Manner} {unfilled : Set Ref} {h h' : Heap}

theorem domain (built : h.Built M unfilled h') : h.domain ⊆ h'.domain :=
  fun r known => ⟨known.choose, built.keeps r _ known.choose_spec⟩

theorem redirects (built : h.Built M unfilled h') {r t : Ref} (redirect : h'.Redirects r t) :
    h.Redirects r t := by
  rcases built.made r _ redirect with old | new
  · exact old
  · cases new

theorem idle (built : h.Built M unfilled h') {r : Ref} (forcing : h'.state? r = some .forcing) :
    h.state? r = some .forcing := by
  rcases built.made r _ forcing with old | new
  · exact old
  · cases new

end Built

end Heap

section
variable {M : Manner} {B : Bond} {α : Type} {P : Bond → α → α → Prop}

theorem Script.keeps_of_built {s : Script α} {h h' : Heap} {a : α}
    (built : s.built h = some (a, h')) {r : Ref} {c : CellState} (known : h.state? r = some c) :
    h'.state? r = some c := by
  induction s generalizing h with
  | done b =>
    cases built
    exact known
  | act action next ih =>
    cases action with
    | alloc c =>
      simp only [Script.built] at built
      split at built
      · cases built
      · exact ih _ built (Heap.state?_alloc_of_some known c)
    | _ => cases built
  | _ => cases built

/-- A knot is tied only by filling a handle. -/
theorem Script.built_of_knot {β : Type} {L : α → β → Prop} {s : Script α} {s' : Script β}
    {handle handle' : Ref} {made : List (Ref × Ref)}
    (like : ScriptLike M B (Unchanged M L .nothing) (.knot handle handle' made) s s') (h : Heap) :
    s.built h = none := by
  induction s generalizing h made s' with
  | done a =>
    cases like with
    | done results => cases results.1
  | act a next ih =>
    cases a with
    | alloc c =>
      cases like with
      | hold values rest => exact ih _ (rest _ ⟨0⟩) _
    | _ => rfl
  | _ => rfl

theorem Heap.built_of_alike (tidy : ¬ M.strays) {unfilled : Set Ref} {s : Script α} {h h' : Heap}
    {a : α} (within : h.Within M h.domain unfilled)
    (alike : ∀ K, h.domain ⊆ K → Alike M (.among K) (P (.among K)) s s)
    (built : s.built h = some (a, h')) :
    h.Built M unfilled h' ∧ P (.among h'.domain) a a := by
  have keeps : ∀ r c, h.state? r = some c → h'.state? r = some c :=
    fun r c known => Script.keeps_of_built built known
  induction s generalizing h with
  | done b =>
    cases built
    refine ⟨⟨within, keeps, fun _ _ => .inl⟩, ?_⟩
    cases alike _ Set.Subset.rfl with
    | done results =>
      cases results.2 with
      | ok results => exact results
  | act action next ih =>
    cases action with
    | alloc c =>
      simp only [Script.built] at built
      split at built
      · cases built
      · next plain =>
        let r := (h.alloc c).1
        have grown := h.domain_alloc c
        have made : StateLike M (.among h.domain) c.state c.state ∧
            ∀ K, insert r h.domain ⊆ K →
              Alike M (.among K) (P (.among K)) (next r) (next r) := by
          have full : c ≠ .vacant := by
            rintro rfl
            cases alike h.domain Set.Subset.rfl with
            | alloc made rest =>
              cases made.state with
              | vacant strays => exact tidy strays
            | vacant rest =>
              rw [Script.built_of_knot (rest r r)] at built
              cases built
          constructor
          · cases alike h.domain Set.Subset.rfl with
            | alloc made rest => exact made.state
            | action bodies parameters rest => exact absurd rfl plain
            | vacant rest => exact absurd rfl full
          · intro K wider
            have older : h.domain ⊆ K := (Set.subset_insert ..).trans wider
            cases alike K older with
            | alloc made rest => exact rest r r ⟨rfl, wider (Set.mem_insert ..)⟩
            | action bodies parameters rest => exact absurd rfl plain
            | vacant rest => exact absurd rfl full
        have inside : (h.alloc c).2.Within M (h.alloc c).2.domain unfilled := by
          rw [grown]
          refine within.alloc fun waits => ?_
          exact (made.1.mono (Bond.among_mono (Set.subset_insert ..))).within tidy
        obtain ⟨later, results⟩ := ih r inside (by rw [grown]; exact made.2) built
          fun q s known => Script.keeps_of_built built known
        refine ⟨⟨later.within, keeps, fun q s state => ?_⟩, results⟩
        rcases later.made q s state with before | new
        · rw [state?_alloc] at before
          split at before
          · cases before
            have older : h.domain ⊆ h'.domain := fun t known => later.domain (grown ▸ .inr known)
            exact .inr (made.1.mono (Bond.among_mono older))
          · exact .inl before
        · exact .inr new
    | _ => cases built
  | _ => cases built

/-- A script whose last act is to make the cell it answers. -/
def Script.EndsFresh (s : Script Ref) : Prop :=
  ∀ h r h', s.built h = some (r, h') → h.state? r = none

theorem endsFresh_alloc (c : Cell) : (alloc c : Script Ref).EndsFresh := by
  intro h r h' built
  change (Script.act (.alloc c) Script.done).built h = _ at built
  simp only [Script.built] at built
  split at built
  · cases built
  · cases built
    exact h.state?_size

theorem endsFresh_bind {s : Script α} {f : α → Script Ref} (last : ∀ a, (f a).EndsFresh) :
    (s >>= f).EndsFresh := by
  intro h r h' built
  change (s.bind f).built h = _ at built
  rw [Script.built_bind] at built
  obtain ⟨⟨a, h₁⟩, first, rest⟩ := Option.bind_eq_some_iff.1 built
  by_contra known
  obtain ⟨c, state⟩ := Option.ne_none_iff_exists'.1 known
  have fresh := last a h₁ r h' rest
  rw [Script.keeps_of_built first state] at fresh
  cases fresh

theorem Expr.endsFresh_interpret {locals : List Ref} {e : Expr} (not_cell : ∀ r, e ≠ .cell r)
    (not_local : ∀ i, e ≠ .local i) : (interpret locals e : Script Ref).EndsFresh := by
  cases e with
  | literal l =>
    simp only [interpret]
    exact endsFresh_alloc _
  | predefined p =>
    simp only [interpret]
    exact endsFresh_alloc _
  | cell r => exact absurd rfl (not_cell r)
  | «local» i => exact absurd rfl (not_local i)
  | call function positionals keywords dicts site =>
    simp only [interpret]
    exact endsFresh_bind fun f => endsFresh_bind fun ps => endsFresh_bind fun ks =>
      endsFresh_bind fun ds => endsFresh_bind fun a => endsFresh_alloc _
  | switch value cases default =>
    simp only [interpret]
    exact endsFresh_bind fun r => endsFresh_alloc _

/-- Only an alias has another definition's handle for its cell. -/
theorem endsFresh_build {m : Meaning} (like : MeaningLike M B m m) (tidy : ¬ M.strays)
    (not_alias : ∀ r, m ≠ .variable (.cell r)) : (Program.build m : Script Ref).EndsFresh := by
  cases like with
  | «variable» value =>
    refine Expr.endsFresh_interpret ?_ ?_
    · rintro r rfl
      exact not_alias r rfl
    · rintro i rfl
      cases value with
      | «local» in_scope => exact in_scope.elim (by omega) tidy
  | function name signature binds result => exact endsFresh_bind fun _ => endsFresh_alloc _

/-- Each cell of a list is built on a heap that has all the cells from before. -/
theorem built_of_mapM {γ : Type} {f : γ → Script Ref} {l : List γ} {h h' : Heap} {rs : List Ref}
    (built : (l.mapM f).built h = some (rs, h')) :
    List.Forall₂ (fun x r => ∃ h₁ h₂, (∀ q c, h.state? q = some c → h₁.state? q = some c) ∧
      (f x).built h₁ = some (r, h₂)) l rs := by
  induction l generalizing h rs with
  | nil =>
    rw [List.mapM_nil] at built
    cases built
    exact .nil
  | cons x l ih =>
    rw [List.mapM_cons] at built
    change ((f x).bind _).built h = _ at built
    rw [Script.built_bind] at built
    obtain ⟨⟨r, h₁⟩, first, built⟩ := Option.bind_eq_some_iff.1 built
    change ((l.mapM f).bind _).built h₁ = _ at built
    rw [Script.built_bind] at built
    obtain ⟨⟨others, h₂⟩, rest, built⟩ := Option.bind_eq_some_iff.1 built
    cases built
    refine .cons ⟨h, h₁, fun _ _ => id, first⟩ ((ih rest).imp ?_)
    rintro y q ⟨k, k', keeps, later⟩
    exact ⟨k, k', fun r c known => keeps r c (Script.keeps_of_built first known), later⟩

end
end CallByNeed
