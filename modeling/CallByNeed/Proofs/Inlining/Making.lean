import CallByNeed.Proofs.Inlining.Substitution
import CallByNeed.Proofs.Order.Honours

/- What closed code is made into. Interpreting code makes cells and forces none; in a heap that has
   such cells already, they may stand for new ones. A cell that stands for a closed expression is one
   that interpreting it could have answered, whether its parts were made for it or were there. -/
namespace CallByNeed

/-- Scripts that do nothing but make cells, none of them a handle. -/
inductive Script.MakesOnly {α : Type} : Script α → Prop where
  | done (a : α) : MakesOnly (.done a)
  | alloc {c : Cell} {next : Ref → Script α} (full : c.state ≠ .vacant) (idle : c.state ≠ .forcing)
      (rest : ∀ r, MakesOnly (next r)) : MakesOnly (.act (.alloc c) next)

/-- What the script comes to when each cell it makes is one that the heap has already. -/
inductive Heap.Mints {α : Type} (g : Heap) : Script α → α → Prop where
  | done (a : α) : Mints g (.done a) a
  | alloc {r : Ref} {c : Cell} {next : Ref → Script α} {a : α} (state : g.state? r = some c.state)
      (full : c.state ≠ .vacant) (rest : Mints g (next r) a) : Mints g (.act (.alloc c) next) a

section
variable {α β γ : Type} {g g' : Heap} {s : Script α} {f : α → Script β} {a : α} {b : β}
variable {bound n : Nat} {v : Value}

namespace Script

theorem makesOnly_pure (a : α) : (pure a : Script α).MakesOnly := .done a

theorem MakesOnly.bind (first : s.MakesOnly) (rest : ∀ a, (f a).MakesOnly) :
    (s >>= f).MakesOnly := by
  change (s.bind f).MakesOnly
  induction first with
  | done a => exact rest a
  | alloc full idle _ ih => exact .alloc full idle ih

theorem makesOnly_alloc {c : Cell} (full : c.state ≠ .vacant) (idle : c.state ≠ .forcing) :
    (alloc c : Script Ref).MakesOnly :=
  .alloc full idle fun r => .done r

theorem makesOnly_allocValue (v : Value) : (allocValue v : Script Ref).MakesOnly :=
  makesOnly_alloc (by simp [Cell.ofValue]) (by simp [Cell.ofValue])

theorem makesOnly_ofCall (f : Ref) (a : Arguments) (site : Option Location) :
    (alloc (.ofCall f a site) : Script Ref).MakesOnly :=
  makesOnly_alloc (by simp [Cell.ofCall]) (by simp [Cell.ofCall])

theorem makesOnly_suspend (s : Suspension) : (alloc (.ofSuspension s) : Script Ref).MakesOnly :=
  makesOnly_alloc (by simp [Cell.ofSuspension]) (by simp [Cell.ofSuspension])

theorem makesOnly_allocCall (v : Value) (rs : List Ref) :
    (allocCall v rs : Script Ref).MakesOnly :=
  (makesOnly_allocValue v).bind fun _ => makesOnly_ofCall ..

theorem makesOnly_foldlM {f : α → γ → Script α} (each : ∀ a x, (f a x).MakesOnly) (l : List γ)
    (a : α) : (l.foldlM f a).MakesOnly := by
  induction l generalizing a with
  | nil => exact makesOnly_pure a
  | cons x l ih =>
    rw [List.foldlM_cons]
    exact (each a x).bind ih

end Script

open Script (makesOnly_pure makesOnly_allocValue makesOnly_suspend makesOnly_allocCall
  makesOnly_foldlM)

theorem Arguments.makesOnly_ofCall (ps : List (Ref × Bool)) (ks : List (String × Ref))
    (ds : List Ref) : (Arguments.ofCall ps ks ds : Script Arguments).MakesOnly := by
  unfold Arguments.ofCall
  split
  · exact makesOnly_pure _
  · refine (makesOnly_foldlM (fun list p => ?_) _ _).bind fun _ => makesOnly_pure _
    split
    · exact makesOnly_allocCall _ _
    · exact makesOnly_allocCall _ _

namespace Expr

mutual
theorem makesOnly_interpret {ls : List Ref} : ∀ {e : Expr}, e.InScope ls.length →
    (interpret ls e : Script Ref).MakesOnly
  | .literal l, _ => by
    simp only [interpret]
    exact makesOnly_allocValue _
  | .predefined p, _ => by
    simp only [interpret]
    exact makesOnly_allocValue _
  | .cell r, _ => by
    simp only [interpret]
    exact makesOnly_pure r
  | .local i, bound => by
    obtain ⟨r, found⟩ : ∃ r, ls[i]? = some r := ⟨_, List.getElem?_eq_getElem bound⟩
    simp only [interpret, found]
    exact makesOnly_pure r
  | .call f ps ks ds site, ⟨function, positionals, keywords, dicts⟩ => by
    simp only [interpret]
    refine (makesOnly_interpret function).bind fun f => ?_
    refine (makesOnly_interpretPositionals positionals).bind fun ps => ?_
    refine (makesOnly_interpretKeywords keywords).bind fun ks => ?_
    refine (makesOnly_interpretAll dicts).bind fun ds => ?_
    exact (Arguments.makesOnly_ofCall ps ks ds).bind fun a => Script.makesOnly_ofCall f a site
  | .switch v cs none, ⟨value, _⟩ => by
    simp only [interpret]
    exact (makesOnly_interpret value).bind fun r => makesOnly_suspend _
  | .switch v cs (some d), ⟨value, _, _⟩ => by
    simp only [interpret]
    exact (makesOnly_interpret value).bind fun r => makesOnly_suspend _

theorem makesOnly_interpretPositionals {ls : List Ref} : ∀ {ps : List PositionalExpr},
    positionalsInScope ls.length ps →
      (interpretPositionals ls ps : Script (List (Ref × Bool))).MakesOnly
  | [], _ => by
    simp only [interpretPositionals]
    exact makesOnly_pure []
  | ⟨e, _⟩ :: ps, ⟨first, rest⟩ => by
    simp only [interpretPositionals]
    refine (makesOnly_interpret first).bind fun r => ?_
    exact (makesOnly_interpretPositionals rest).bind fun _ => makesOnly_pure _

theorem makesOnly_interpretKeywords {ls : List Ref} : ∀ {ks : List KeywordExpr},
    keywordsInScope ls.length ks →
      (interpretKeywords ls ks : Script (List (String × Ref))).MakesOnly
  | [], _ => by
    simp only [interpretKeywords]
    exact makesOnly_pure []
  | ⟨_, e⟩ :: ks, ⟨first, rest⟩ => by
    simp only [interpretKeywords]
    refine (makesOnly_interpret first).bind fun r => ?_
    exact (makesOnly_interpretKeywords rest).bind fun _ => makesOnly_pure _

theorem makesOnly_interpretAll {ls : List Ref} : ∀ {es : List Expr},
    exprsInScope ls.length es → (interpretAll ls es : Script (List Ref)).MakesOnly
  | [], _ => by
    simp only [interpretAll]
    exact makesOnly_pure []
  | e :: es, ⟨first, rest⟩ => by
    simp only [interpretAll]
    refine (makesOnly_interpret first).bind fun r => ?_
    exact (makesOnly_interpretAll rest).bind fun _ => makesOnly_pure _
end

theorem bindLocals_cons (ls : List Ref) (e : Expr) (es : List Expr) :
    (bindLocals (e :: es) ls : Script (List Ref)) =
      interpret ls e >>= fun r => bindLocals es (ls ++ [r]) := by
  simp only [bindLocals, List.foldlM_cons, bind_assoc, pure_bind]

theorem makesOnly_bindLocals {ls : List Ref} {es : List Expr}
    (within : bindingsInScope ls.length es) :
    (bindLocals es ls : Script (List Ref)).MakesOnly := by
  induction es generalizing ls with
  | nil => exact makesOnly_pure ls
  | cons e es ih =>
    rw [bindLocals_cons]
    exact (makesOnly_interpret within.1).bind fun r => ih (by simpa using within.2)

end Expr

/-! ### Cells that a heap has already -/

namespace Heap

theorem mints_bind : g.Mints (s >>= f) b ↔ ∃ a, g.Mints s a ∧ g.Mints (f a) b := by
  change g.Mints (s.bind f) b ↔ _
  constructor
  · intro mints
    induction s with
    | done a => exact ⟨a, .done a, mints⟩
    | act action next ih =>
      cases mints with
      | alloc state full rest =>
        obtain ⟨a, first, second⟩ := ih _ rest
        exact ⟨a, .alloc state full first, second⟩
    | _ => cases mints
  · rintro ⟨a, first, second⟩
    induction first with
    | done a => exact second
    | alloc state full _ ih => exact .alloc state full (ih second)

theorem eq_of_mints_pure {a b : α} (mints : g.Mints (pure a : Script α) b) : b = a := by
  cases mints
  rfl

theorem state_of_mints_alloc {c : Cell} {r : Ref}
    (mints : g.Mints (CallByNeed.alloc c : Script Ref) r) :
    g.state? r = some c.state := by
  cases mints with
  | alloc state full rest =>
    cases rest
    exact state

theorem Mints.mono (grows : g.Grows g') (mints : g.Mints s a) : g'.Mints s a := by
  induction mints with
  | done a => exact .done a
  | alloc state full _ ih => exact .alloc (grows _ _ state full) full ih

/-- Whatever is missing can be made. -/
theorem mints_of_makesOnly (only : s.MakesOnly) (g : Heap) :
    ∃ g' a, g.Grows g' ∧ g.Kept g' (fun _ => True) ∧ g'.Mints s a := by
  induction only generalizing g with
  | done a => exact ⟨g, a, g.grows_refl, g.kept_refl _, .done a⟩
  | @alloc c next full idle _ ih =>
    obtain ⟨g', a, grows, kept, mints⟩ := ih (g.alloc c).1 (g.alloc c).2
    refine ⟨g', a, (g.grows_alloc c).trans grows,
      (g.kept_alloc idle _).trans kept fun _ _ _ => trivial, ?_⟩
    exact .alloc (grows _ _ (g.state?_new c) full) full mints

/-- Before a script goes on, it has made its cells. -/
theorem Means.of_makesOnly {f : α → Script Outcome} (only : s.MakesOnly)
    (means : g.Means bound n (.body (s >>= f)) v) :
    ∃ a m, m ≤ n ∧ g.Mints s a ∧ g.Means bound m (.body (f a)) v := by
  change g.Means bound n (.body (s.bind f)) v at means
  induction only generalizing n with
  | done a => exact ⟨a, n, Nat.le_refl n, .done a, means⟩
  | alloc full idle _ ih =>
    cases means with
    | alloc state _ rest =>
      obtain ⟨a, m, le, mints, means⟩ := ih _ rest
      exact ⟨a, m, Nat.le_succ_of_le le, .alloc state full mints, means⟩
    | vacant => exact absurd rfl full

theorem Mints.means {f : α → Script Outcome} (mints : g.Mints s a)
    (means : g.Means bound n (.body (f a)) v) :
    ∃ m, g.Means bound m (.body (s >>= f)) v := by
  change ∃ m, g.Means bound m (.body (s.bind f)) v
  induction mints with
  | done a => exact ⟨n, means⟩
  | alloc state full _ ih =>
    obtain ⟨m, rest⟩ := ih means
    exact ⟨m + 1, .alloc state full rest⟩

end Heap
end

/-! ### Closed code -/

mutual
/-- The cell embodies the closed expression: interpreting it comes to such a cell, but for how
    the branches that wait in cells name what they were built among. -/
inductive Heap.Embodies (g : Heap) : Expr → Ref → Prop where
  | literal {l : Literal} {r : Ref} (state : g.state? r = some (.forced l.value)) :
      Embodies g (.literal l) r
  | predefined {p : Predefined} {r : Ref} (state : g.state? r = some (.forced p.value)) :
      Embodies g (.predefined p) r
  | cell (r : Ref) : Embodies g (.cell r) r
  | call {f : Expr} {ps : List PositionalExpr} {ks : List KeywordExpr} {ds : List Expr}
      {site : Option Location} {function r : Ref} {places : List (Ref × Bool)}
      {keywords : List (String × Ref)} {dicts : List Ref} {a : Arguments}
      (called : Embodies g f function) (positionals : EmbodiesPositionals g ps places)
      (named : EmbodiesKeywords g ks keywords) (spread : EmbodiesAll g ds dicts)
      (arguments : g.Mints (Arguments.ofCall places keywords dicts) a)
      (state : g.state? r = some (.pending { task := .call function a, site })) :
      Embodies g (.call f ps ks ds site) r
  | switch {e : Expr} {cs : List CaseExpr} {d : Option Expr} {σ : List Expr} {b : Branch}
      {matched r : Ref} (value : Embodies g e matched) (locals : EmbodiesAll g σ b.locals)
      (fits : b.Fits) (cases : cs = Expr.substCases σ b.cases) (default : d = Expr.substOption σ b.default)
      (state : g.state? r = some (.pending { task := .resume (.branch b matched) })) :
      Embodies g (.switch e cs d) r

inductive Heap.EmbodiesPositionals (g : Heap) : List PositionalExpr → List (Ref × Bool) → Prop where
  | nil : EmbodiesPositionals g [] []
  | cons {e : Expr} {r : Ref} {ps : List PositionalExpr} {places : List (Ref × Bool)}
      (value : Embodies g e r) (expanded : Bool) (rest : EmbodiesPositionals g ps places) :
      EmbodiesPositionals g (⟨e, expanded⟩ :: ps) ((r, expanded) :: places)

inductive Heap.EmbodiesKeywords (g : Heap) : List KeywordExpr → List (String × Ref) → Prop where
  | nil : EmbodiesKeywords g [] []
  | cons {e : Expr} {r : Ref} {ks : List KeywordExpr} {keywords : List (String × Ref)}
      (name : String) (value : Embodies g e r) (rest : EmbodiesKeywords g ks keywords) :
      EmbodiesKeywords g (⟨name, e⟩ :: ks) ((name, r) :: keywords)

inductive Heap.EmbodiesAll (g : Heap) : List Expr → List Ref → Prop where
  | nil : EmbodiesAll g [] []
  | cons {e : Expr} {r : Ref} {es : List Expr} {rs : List Ref} (first : Embodies g e r)
      (rest : EmbodiesAll g es rs) : EmbodiesAll g (e :: es) (r :: rs)
end

namespace Heap
section
variable {g g' : Heap} {σ : List Expr} {ls : List Ref}

mutual
theorem Embodies.mono (grows : g.Grows g') {e : Expr} {r : Ref} : g.Embodies e r → g'.Embodies e r
  | .literal state => .literal (grows _ _ state (by simp))
  | .predefined state => .predefined (grows _ _ state (by simp))
  | .cell r => .cell r
  | .call called positionals named spread arguments state =>
    .call (called.mono grows) (positionals.mono grows) (named.mono grows) (spread.mono grows)
      (arguments.mono grows) (grows _ _ state (by simp))
  | .switch value locals fits cases default state =>
    .switch (value.mono grows) (locals.mono grows) fits cases default (grows _ _ state (by simp))

theorem EmbodiesPositionals.mono (grows : g.Grows g') {ps : List PositionalExpr}
    {places : List (Ref × Bool)} : g.EmbodiesPositionals ps places → g'.EmbodiesPositionals ps places
  | .nil => .nil
  | .cons value expanded rest => .cons (value.mono grows) expanded (rest.mono grows)

theorem EmbodiesKeywords.mono (grows : g.Grows g') {ks : List KeywordExpr}
    {keywords : List (String × Ref)} : g.EmbodiesKeywords ks keywords → g'.EmbodiesKeywords ks keywords
  | .nil => .nil
  | .cons name value rest => .cons name (value.mono grows) (rest.mono grows)

theorem EmbodiesAll.mono (grows : g.Grows g') {es : List Expr} {rs : List Ref} :
    g.EmbodiesAll es rs → g'.EmbodiesAll es rs
  | .nil => .nil
  | .cons first rest => .cons (first.mono grows) (rest.mono grows)
end

theorem EmbodiesAll.length_eq {es : List Expr} {rs : List Ref} (made : g.EmbodiesAll es rs) :
    es.length = rs.length := by
  induction rs generalizing es with
  | nil =>
    cases made
    rfl
  | cons r rs ih =>
    cases made with
    | cons first rest => exact congrArg (· + 1) (ih rest)

theorem EmbodiesAll.snoc {e : Expr} {r : Ref} {es : List Expr} {rs : List Ref}
    (made : g.EmbodiesAll es rs) (last : g.Embodies e r) : g.EmbodiesAll (es ++ [e]) (rs ++ [r]) := by
  induction rs generalizing es with
  | nil =>
    cases made
    exact .cons last .nil
  | cons r rs ih =>
    cases made with
    | cons first rest => exact .cons first (ih rest)

theorem EmbodiesAll.get {es : List Expr} {rs : List Ref} (made : g.EmbodiesAll es rs) {i : Nat}
    {e : Expr} {r : Ref} (here : es[i]? = some e) (there : rs[i]? = some r) : g.Embodies e r := by
  induction rs generalizing es i with
  | nil => cases there
  | cons r rs ih =>
    cases made with
    | cons first rest =>
      cases i with
      | zero =>
        cases here
        cases there
        exact first
      | succ i => exact ih rest here there

theorem embodiesAll_cells (g : Heap) (rs : List Ref) : g.EmbodiesAll (rs.map .cell) rs := by
  induction rs with
  | nil => exact .nil
  | cons r rs ih => exact .cons (.cell r) ih

mutual
/-- What code comes to stands for the code, with what its locals stand for put in their place. -/
theorem embodies_of_interpret (locals : g.EmbodiesAll σ ls) : ∀ {e : Expr} {r : Ref},
    e.InScope ls.length → g.Mints (Expr.interpret ls e : Script Ref) r → g.Embodies (e.subst σ) r
  | .literal l, r, _, mints => by
    simp only [Expr.interpret] at mints
    exact .literal (state_of_mints_alloc mints)
  | .predefined p, r, _, mints => by
    simp only [Expr.interpret] at mints
    exact .predefined (state_of_mints_alloc mints)
  | .cell q, r, _, mints => by
    simp only [Expr.interpret] at mints
    cases eq_of_mints_pure mints
    exact .cell q
  | .local i, r, bound, mints => by
    obtain ⟨q, found⟩ : ∃ q, ls[i]? = some q := ⟨_, List.getElem?_eq_getElem bound⟩
    obtain ⟨e, here⟩ : ∃ e, σ[i]? = some e :=
      ⟨_, List.getElem?_eq_getElem (locals.length_eq ▸ bound)⟩
    simp only [Expr.interpret, found] at mints
    cases eq_of_mints_pure mints
    rw [Expr.subst_local here]
    exact locals.get here found
  | .call f ps ks ds site, r, ⟨function, positionals, keywords, dicts⟩, mints => by
    simp only [Expr.interpret, mints_bind] at mints
    obtain ⟨f', called, ps', placed, ks', named, ds', spread, a, arguments, made⟩ := mints
    exact .call (embodies_of_interpret locals function called)
      (embodies_of_interpretPositionals locals positionals placed)
      (embodies_of_interpretKeywords locals keywords named)
      (embodies_of_interpretAll locals dicts spread) arguments (state_of_mints_alloc made)
  | .switch v cs d, r, within, mints => by
    simp only [Expr.interpret, mints_bind] at mints
    obtain ⟨matched, value, made⟩ := mints
    have scrutinee : v.InScope ls.length := by cases d <;> exact within.1
    have fits : Branch.Fits { cases := cs, default := d, locals := ls } := by
      cases d with
      | none => exact ⟨within.2, nofun⟩
      | some d =>
        refine ⟨within.2.1, ?_⟩
        rintro _ ⟨⟩
        exact within.2.2
    exact .switch (embodies_of_interpret locals scrutinee value) locals fits rfl rfl
      (state_of_mints_alloc made)

theorem embodies_of_interpretPositionals (locals : g.EmbodiesAll σ ls) :
    ∀ {ps : List PositionalExpr} {places : List (Ref × Bool)}, positionalsInScope ls.length ps →
      g.Mints (Expr.interpretPositionals ls ps : Script (List (Ref × Bool))) places →
      g.EmbodiesPositionals (Expr.substPositionals σ ps) places
  | [], places, _, mints => by
    simp only [Expr.interpretPositionals] at mints
    cases eq_of_mints_pure mints
    exact .nil
  | ⟨e, expanded⟩ :: ps, places, ⟨first, rest⟩, mints => by
    simp only [Expr.interpretPositionals, mints_bind] at mints
    obtain ⟨r, value, others, placed, last⟩ := mints
    cases eq_of_mints_pure last
    exact .cons (embodies_of_interpret locals first value) expanded
      (embodies_of_interpretPositionals locals rest placed)

theorem embodies_of_interpretKeywords (locals : g.EmbodiesAll σ ls) :
    ∀ {ks : List KeywordExpr} {keywords : List (String × Ref)}, keywordsInScope ls.length ks →
      g.Mints (Expr.interpretKeywords ls ks : Script (List (String × Ref))) keywords →
      g.EmbodiesKeywords (Expr.substKeywords σ ks) keywords
  | [], keywords, _, mints => by
    simp only [Expr.interpretKeywords] at mints
    cases eq_of_mints_pure mints
    exact .nil
  | ⟨name, e⟩ :: ks, keywords, ⟨first, rest⟩, mints => by
    simp only [Expr.interpretKeywords, mints_bind] at mints
    obtain ⟨r, value, others, named, last⟩ := mints
    cases eq_of_mints_pure last
    exact .cons name (embodies_of_interpret locals first value)
      (embodies_of_interpretKeywords locals rest named)

theorem embodies_of_interpretAll (locals : g.EmbodiesAll σ ls) :
    ∀ {es : List Expr} {rs : List Ref}, exprsInScope ls.length es →
      g.Mints (Expr.interpretAll ls es : Script (List Ref)) rs →
      g.EmbodiesAll (Expr.substAll σ es) rs
  | [], rs, _, mints => by
    simp only [Expr.interpretAll] at mints
    cases eq_of_mints_pure mints
    exact .nil
  | e :: es, rs, ⟨first, rest⟩, mints => by
    simp only [Expr.interpretAll, mints_bind] at mints
    obtain ⟨r, value, others, made, last⟩ := mints
    cases eq_of_mints_pure last
    exact .cons (embodies_of_interpret locals first value) (embodies_of_interpretAll locals rest made)
end

theorem embodies_of_bindLocals (locals : g.EmbodiesAll σ ls) {es : List Expr} {rs : List Ref}
    (within : bindingsInScope ls.length es)
    (mints : g.Mints (Expr.bindLocals es ls : Script (List Ref)) rs) :
    g.EmbodiesAll (Expr.expand σ es) rs := by
  induction es generalizing σ ls with
  | nil =>
    cases eq_of_mints_pure mints
    exact locals
  | cons e es ih =>
    rw [Expr.bindLocals_cons, mints_bind] at mints
    obtain ⟨r, first, rest⟩ := mints
    have made := embodies_of_interpret locals within.1 first
    exact ih (locals.snoc made) (by simpa using within.2) rest

end
end Heap
end CallByNeed
