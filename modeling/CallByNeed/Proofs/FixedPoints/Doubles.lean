import CallByNeed.Proofs.FixedPoints.Tying

/- Two stores in which the same knots have been tied apart from each other. Cells are partners that
   are made by like steps, so that they hold what is alike at any time. Copies are cells of knots:
   on the left they have their values; on the right they have like values, or the call that makes
   them still waits there. -/
namespace CallByNeed

/-- Faults are alike whichever sites they have passed. -/
def Manner.siteless : Manner where
  chains := fun _ _ => True
  chains_nil := trivial
  lax := False
  hosted := True
  strays := False

structure Doubles where
  partners : Ref → Ref → Prop
  copies : Ref → Ref → Prop

def Doubles.bond (D : Doubles) : Bond where
  cells := fun r q => D.partners r q ∨ D.copies r q
  actions := fun r q => D.partners r q ∨ D.copies r q

/-- What two partners hold is alike. -/
def Heap.Partners (B : Bond) (h h' : Heap) (r q : Ref) : Prop :=
  ∃ c c', h.state? r = some c ∧ h'.state? q = some c' ∧ c.Bonded .siteless B c'

inductive Heap.Copies (E : Engine) (D : Doubles) (h h' : Heap) (r q : Ref) : Prop where
  | known {v v' : Value} (left : h.Yields r v) (right : h'.Yields q v')
      (values : ValueLike .siteless D.bond v v')
  | waits {self : Ref} {b : Builtin} {fs fs' : List Ref} {v : Value} (left : h.Yields r v)
      (tied : h.Tied self b fs v) (right : h'.Untied E b fs' q)
      (functions : RefsLike D.bond fs fs') (alone : ∀ o, ¬ D.partners o q)

structure Store.Doubled (E : Engine) (D : Doubles) (s s' : Store) : Prop where
  unique : ∀ {r r' q q'}, D.partners r q → D.partners r' q' → (r = r' ↔ q = q')
  partners : ∀ {r q}, D.partners r q → Heap.Partners D.bond s.heap s'.heap r q
  copies : ∀ {r q}, D.copies r q → Heap.Copies E D s.heap s'.heap r q
  rallies : ∀ id : Nat, Option.Rel (Rally.Paired D.bond) s.rallies[id]? s'.rallies[id]?

/-- Cells of two knots that have been tied alike: functions that are passed the knots, and lists of
    them. -/
inductive Heap.Twins (B : Bond) (h h' : Heap) (self self' : Ref) : Ref → Ref → Prop where
  | function {f f' r q : Ref} (functions : B.cells f f')
      (left : h.Yields r (.native (.fixedPoint f self)))
      (right : h'.Yields q (.native (.fixedPoint f' self'))) : Twins B h h' self self' r q
  | list {fs fs' : List Ref} {l l' : LazyList} {r q : Ref} (functions : RefsLike B fs fs')
      (left : h.Yields r (.list l)) (strand : h.Strand self fs l) (right : h'.Yields q (.list l'))
      (strand' : h'.Strand self' fs' l') : Twins B h h' self self' r q

/-- The calls on the right that wait for these functions have made a knot. -/
def Doubles.tie (D : Doubles) (h h' : Heap) (b : Builtin) (fs' : List Ref) (self' : Ref) :
    Doubles where
  partners := D.partners
  copies := fun r q => D.copies r q ∨ ∃ self fs v, h.Tied self b fs v ∧ RefsLike D.bond fs fs' ∧
    h.Twins D.bond h' self self' r q

/-- Two cells have been made. -/
def Doubles.add (D : Doubles) (n n' : Ref) : Doubles where
  partners := fun r q => D.partners r q ∨ r = n ∧ q = n'
  copies := D.copies

theorem Doubles.le_tie (D : Doubles) (h h' : Heap) (b : Builtin) (fs' : List Ref) (self' : Ref) :
    D.bond ≤ (D.tie h h' b fs' self').bond :=
  ⟨fun _ _ => Or.imp id .inl, fun _ _ => Or.imp id .inl⟩

theorem Doubles.le_add (D : Doubles) (n n' : Ref) : D.bond ≤ (D.add n n').bond :=
  ⟨fun _ _ => Or.imp .inl id, fun _ _ => Or.imp .inl id⟩

section
variable {E : Engine} {B C : Bond} {D U : Doubles} {h h' k k' : Heap} {s s' t t' : Store}
variable {r q self self' : Ref} {b b' : Builtin} {fs fs' : List Ref} {v v' : Value}
variable {own own' left left' : List Ref}

theorem Heap.Partners.mono (grows : B ≤ C) (partners : h.Partners B h' r q) :
    h.Partners C h' r q := by
  obtain ⟨c, c', state, state', states⟩ := partners
  exact ⟨c, c', state, state', states.mono grows⟩

theorem Heap.Partners.of_pending {w : Work} (partners : h.Partners B h' r q)
    (pending : h.state? r = some (.pending w)) :
    ∃ w', h'.state? q = some (.pending w') ∧ WorkLike .siteless B w w' := by
  obtain ⟨c, c', state, state', states⟩ := partners
  rw [pending] at state
  cases state
  cases states with
  | pending works => exact ⟨_, state', works⟩

theorem Heap.Yields.not_pending (yields : h.Yields r v) (w : Work) :
    h.state? r ≠ some (.pending w) := by
  obtain ⟨d, path, forced⟩ := yields
  intro pending
  rcases path.cases_head with rfl | ⟨t, redirect, _⟩
  · rw [forced] at pending
    cases pending
  · rw [show h.state? r = some (.redirect t) from redirect] at pending
    cases pending

theorem Heap.Yields.not_vacant (yields : h.Yields r v) : h.state? r ≠ some .vacant := by
  obtain ⟨d, path, forced⟩ := yields
  intro vacant
  rcases path.cases_head with rfl | ⟨t, redirect, _⟩
  · rw [forced] at vacant
    cases vacant
  · rw [show h.state? r = some (.redirect t) from redirect] at vacant
    cases vacant

theorem Builtin.eq_of_function_eq (same : b.function = b'.function) : b = b' := by
  have bodies := congrArg Function.body same
  simpa [Builtin.function] using bodies

/-- A cell waits for one call. -/
theorem Heap.Untied.unique (one : h.Untied E b fs r) (other : h.Untied E b' fs' r) :
    b = b' ∧ fs = fs' := by
  obtain ⟨_, c, site, function, state⟩ := one
  obtain ⟨_, c', site', function', state'⟩ := other
  rw [state] at state'
  cases state'
  exact ⟨Builtin.eq_of_function_eq (Value.function.inj (Heap.yields_unique function function')),
    rfl⟩

theorem Heap.Untied.before (untied : h.Untied E b fs r) (before : h.Before k)
    (kept : ∀ w, h.state? r = some (.pending w) → k.state? r = some (.pending w)) :
    k.Untied E b fs r := by
  obtain ⟨ties, c, site, function, state⟩ := untied
  exact ⟨ties, c, site, before.yields function, kept _ state⟩

/-! ### Twins -/

theorem Heap.Tied.twins (tied : h.Tied self b fs v) (tied' : h'.Tied self' b fs' v')
    (functions : RefsLike B fs fs') (left : h.Yields r v) (right : h'.Yields q v') :
    h.Twins B h' self self' r q := by
  cases tied with
  | one =>
    cases tied' with
    | one =>
      cases functions with
      | cons first _ => exact .function first left right
  | many _ strand =>
    cases tied' with
    | many _ strand' => exact .list functions left strand right strand'

/-- Twins have like values once twins stand for each other. -/
theorem Heap.Twins.values (twins : h.Twins B h' self self' r q) (grows : B ≤ C)
    (all : ∀ r q, h.Twins B h' self self' r q → C.cells r q) (selves : C.cells self self') :
    ∃ v v', h.Yields r v ∧ h'.Yields q v' ∧ ValueLike .siteless C v v' := by
  cases twins with
  | function functions left right =>
    exact ⟨_, _, left, right, .native (.fixedPoint (grows.1 _ _ functions) selves)⟩
  | list functions left strand right strand' =>
    refine ⟨_, _, left, right, .list ?_⟩
    cases strand with
    | nil =>
      cases functions
      cases strand'
      exact .nil
    | cons first known rest =>
      cases functions with
      | cons heads tails =>
        cases strand' with
        | cons first' known' rest' =>
          exact .cons (all _ _ (.function heads first first')) (all _ _ (.list tails known rest known' rest'))

/-- Cells of knots that have been tied alike have like values. -/
theorem Heap.Tied.copies (tied : h.Tied self b fs v) (tied' : h'.Tied self' b fs' v')
    (functions : RefsLike D.bond fs fs') (twins : h.Twins D.bond h' self self' r q) :
    h.Copies E (D.tie h h' b fs' self') h' r q := by
  have all (r q : Ref) (twins : h.Twins D.bond h' self self' r q) :
      (D.tie h h' b fs' self').bond.cells r q :=
    .inr (.inr ⟨self, fs, v, tied, functions, twins⟩)
  obtain ⟨u, u', left, right, values⟩ := twins.values (D.le_tie h h' b fs' self') all
    (all _ _ (tied.twins tied' functions tied.yields tied'.yields))
  exact .known left right values

theorem Heap.Tied.values (tied : h.Tied self b fs v) (tied' : h'.Tied self' b fs' v')
    (functions : RefsLike D.bond fs fs') :
    ValueLike .siteless (D.tie h h' b fs' self').bond v v' := by
  have copies := tied.copies (E := { bound := 0 }) tied' functions
    (tied.twins tied' functions tied.yields tied'.yields)
  cases copies with
  | known left right values =>
    rw [Heap.yields_unique tied.yields left, Heap.yields_unique tied'.yields right]
    exact values
  | waits _ _ right =>
    obtain ⟨_, _, _, _, state⟩ := right
    exact absurd state (tied'.yields.not_pending _)

/-! ### What a change leaves alone -/

theorem Heap.Copies.later (copies : h.Copies E D h' r q) (before : h.Before k)
    (before' : h'.Before k') (grows : D.bond ≤ U.bond)
    (kept : ∀ w, h'.state? q = some (.pending w) → k'.state? q = some (.pending w))
    (new : ∀ c o, h'.state? q = some c → U.partners o q → D.partners o q) :
    k.Copies E U k' r q := by
  cases copies with
  | known left right values =>
    exact .known (before.yields left) (before'.yields right) (values.mono grows)
  | waits left tied right functions alone =>
    refine .waits (before.yields left) (tied.before before) (right.before before' kept)
      (functions.mono grows) fun o partners => ?_
    obtain ⟨_, _, _, _, state⟩ := right
    exact alone o (new _ o state partners)

/-- Work has been done to cells of one's own, while partners stay partners. -/
theorem Store.Doubled.turn (stores : s.Doubled E D s') (works : s.Works own t left)
    (works' : s'.Works own' t' left') (grows : D.bond ≤ U.bond) (same : U.partners = D.partners)
    (partners : ∀ {r q}, D.partners r q → r ∈ own ∨ q ∈ own' →
      Heap.Partners U.bond t.heap t'.heap r q)
    (copies : ∀ {r q}, U.copies r q →
      D.copies r q ∧ (∀ w, s'.heap.state? q = some (.pending w) → q ∉ own') ∨
        Heap.Copies E U t.heap t'.heap r q) : t.Doubled E U t' where
  unique := by
    rw [same]
    exact stores.unique
  partners := by
    rw [same]
    intro r q cells
    by_cases mine : r ∈ own ∨ q ∈ own'
    · exact partners cells mine
    · obtain ⟨c, c', state, state', states⟩ := stores.partners cells
      exact ⟨c, c', works.others r c (fun mem => mine (.inl mem)) state,
        works'.others q c' (fun mem => mine (.inr mem)) state', states.mono grows⟩
  copies := by
    intro r q cells
    rcases copies cells with ⟨old, idle⟩ | copies
    · refine (stores.copies old).later works.before works'.before grows ?_ ?_
      · exact fun w state => works'.others q _ (idle w state) state
      · exact fun _ o _ partners => same ▸ partners
    · exact copies
  rallies := by
    rw [works.rest, works'.rest]
    exact fun id => optionRel_imp (fun _ _ => Rally.Paired.mono grows) (stores.rallies id)

/-- Whoever has a partner is no call that waits for a copy. -/
theorem Store.Doubled.idle (stores : s.Doubled E D s') (cells : D.partners r q)
    (copies : D.copies self q) (w : Work) : s'.heap.state? q ≠ some (.pending w) := by
  cases stores.copies copies with
  | known _ right => exact right.not_pending w
  | waits _ _ _ _ alone => exact absurd cells (alone r)

/-- Two partners have changed alike. -/
theorem Store.Doubled.change (stores : s.Doubled E D s') (cells : D.partners r q)
    (works : s.Works [r] t left) (works' : s'.Works [q] t' left') {c c' : CellState}
    (state : t.heap.state? r = some c) (state' : t'.heap.state? q = some c')
    (states : c.Bonded .siteless D.bond c') : t.Doubled E D t' := by
  refine stores.turn works works' (Bond.le_refl _) rfl (fun {r₁ q₁} partners mine => ?_)
    fun {r₁ q₁} copies => .inl ⟨copies, fun w pending mem => ?_⟩
  · have same : r₁ = r ∧ q₁ = q := by
      rcases mine with mem | mem
      · obtain rfl := List.mem_singleton.1 mem
        exact ⟨rfl, (stores.unique partners cells).1 rfl⟩
      · obtain rfl := List.mem_singleton.1 mem
        exact ⟨(stores.unique partners cells).2 rfl, rfl⟩
    obtain ⟨rfl, rfl⟩ := same
    exact ⟨c, c', state, state', states⟩
  · obtain rfl := List.mem_singleton.1 mem
    exact stores.idle cells copies w pending

/-- A cell without a partner has changed. -/
theorem Store.Doubled.change_left (stores : s.Doubled E D s') (alone : ∀ q, ¬ D.partners r q)
    (works : s.Works [r] t left) : t.Doubled E D s' := by
  refine stores.turn works (s'.works_refl (List.Subset.refl [])) (Bond.le_refl _) rfl
    (fun {r₁ q₁} partners mine => ?_) fun copies => .inl ⟨copies, fun _ _ => by simp⟩
  rcases mine with mem | mem
  · obtain rfl := List.mem_singleton.1 mem
    exact absurd partners (alone q₁)
  · cases mem

/-- New cells that hold like data are partners. -/
theorem Store.Doubled.alloc (stores : s.Doubled E D s') (c c' : Cell)
    (states : c.state.Bonded .siteless D.bond c'.state) :
    (s.act (.alloc c)).2.Doubled E (D.add (s.act (.alloc c)).1 (s'.act (.alloc c')).1)
      (s'.act (.alloc c')).2 := by
  have works := s.works_alloc c
  have works' := s'.works_alloc c'
  have grows := D.le_add (s.act (.alloc c)).1 (s'.act (.alloc c')).1
  have fresh {q : Ref} (cells : D.partners (s.act (.alloc c)).1 q) : False := by
    obtain ⟨_, _, state, _⟩ := stores.partners cells
    rw [show s.heap.state? (s.act (.alloc c)).1 = none from s.heap.state?_size] at state
    cases state
  have fresh' {r : Ref} (cells : D.partners r (s'.act (.alloc c')).1) : False := by
    obtain ⟨_, _, _, state, _⟩ := stores.partners cells
    rw [show s'.heap.state? (s'.act (.alloc c')).1 = none from s'.heap.state?_size] at state
    cases state
  refine ⟨?_, ?_, fun {r q} copies => ?_, ?_⟩
  · rintro r r' q q' (cells | ⟨rfl, rfl⟩) (cells' | ⟨rfl, rfl⟩)
    · exact stores.unique cells cells'
    · exact ⟨fun same => (fresh (same ▸ cells)).elim, fun same => (fresh' (same ▸ cells)).elim⟩
    · exact ⟨fun same => (fresh (same ▸ cells')).elim, fun same => (fresh' (same ▸ cells')).elim⟩
    · simp
  · rintro r q (cells | ⟨rfl, rfl⟩)
    · obtain ⟨d, d', state, state', likes⟩ := stores.partners cells
      exact ⟨d, d', works.others r d (by simp) state, works'.others q d' (by simp) state',
        likes.mono grows⟩
    · exact ⟨_, _, s.heap.state?_new c, s'.heap.state?_new c', states.mono grows⟩
  · refine (stores.copies copies).later works.before works'.before grows ?_ ?_
    · exact fun w => works'.others q _ (by simp)
    · rintro d o state (partners | ⟨_, rfl⟩)
      · exact partners
      · rw [show s'.heap.state? (s'.act (.alloc c')).1 = none from s'.heap.state?_size] at state
        cases state
  · exact fun id => optionRel_imp (fun _ _ => Rally.Paired.mono grows) (stores.rallies id)

/-- A call on the right that has waited for copies has been made. -/
theorem Store.Doubled.tie (stores : s.Doubled E D s') (works : s.Works own t left)
    (works' : s'.Works own' t' left') (untied : s'.heap.Untied E b fs' q)
    (tied' : t'.heap.Tied self' b fs' v') (known : t'.heap.Yields q v')
    (partners : ∀ {r o}, D.partners r o → r ∈ own ∨ o ∈ own' →
      Heap.Partners (D.tie t.heap t'.heap b fs' self').bond t.heap t'.heap r o)
    (others : ∀ o ∈ own', o ≠ q → s'.heap.state? o = some .forcing) :
    t.Doubled E (D.tie t.heap t'.heap b fs' self') t' := by
  have grows := D.le_tie t.heap t'.heap b fs' self'
  refine stores.turn works works' grows rfl partners fun {r o} copies => ?_
  rcases copies with old | ⟨self, fs, v, tied, functions, twins⟩
  · by_cases same : o = q
    · subst same
      cases stores.copies old with
      | known _ right =>
        obtain ⟨_, _, _, _, state⟩ := untied
        exact absurd state (right.not_pending _)
      | waits left tied right functions alone =>
        obtain ⟨rfl, rfl⟩ := untied.unique right
        have tied := tied.before works.before
        exact .inr (tied.copies tied' functions
          (tied.twins tied' functions (works.before.yields left) known))
    · refine .inl ⟨old, fun w pending mem => ?_⟩
      rw [others o mem same] at pending
      cases pending
  · exact .inr (tied.copies tied' functions twins)

end

/-! ### Frames -/

inductive Wait.Doubled (D : Doubles) : Wait → Wait → Prop where
  | tail : Doubled D .tail .tail
  | reply {how : Demand} {r q : Ref} {next next' : Value → Script Outcome} {held : Held}
      (mine : held.Bonded D.bond)
      (rest : ∀ B, D.bond ≤ B → ∀ v v', ValueLike .siteless B v v' →
        ScriptLike .siteless B (Settled .siteless B) held (next v) (next' v')) :
      Doubled D (.reply how r next) (.reply how q next')

/-- Frames of partners. At last the left side may wait for its tail where the right side is that
    tail. -/
inductive Doubles.Stacked (D : Doubles) : List Frame → List Frame → Prop where
  | nil : Stacked D [] []
  | last {cell : Ref} {site : Option Location} (alone : ∀ q, ¬ D.partners cell q) :
      Stacked D [{ cell, site, wait := .tail }] []
  | frame {f f' : Frame} {frames frames' : List Frame} (cells : D.partners f.cell f'.cell)
      (waits : f.wait.Doubled D f'.wait) (rest : Stacked D frames frames') :
      Stacked D (f :: frames) (f' :: frames')

theorem Wait.Doubled.mono {D U : Doubles} (grows : D.bond ≤ U.bond) {w w' : Wait}
    (waits : w.Doubled D w') : w.Doubled U w' := by
  cases waits with
  | tail => exact .tail
  | reply mine rest =>
    exact .reply (mine.mono grows) fun B more => rest B (Bond.le_trans grows more)

/-- Frames go on waiting when more cells are doubled, as long as none of the new partners is
    theirs. -/
theorem Doubles.Stacked.mono {D U : Doubles} {frames frames' : List Frame}
    (stack : D.Stacked frames frames') (grows : D.bond ≤ U.bond)
    (more : ∀ r q, D.partners r q → U.partners r q)
    (new : ∀ r ∈ cellsOf frames, ∀ q, U.partners r q → D.partners r q) :
    U.Stacked frames frames' := by
  induction stack with
  | nil => exact .nil
  | last alone => exact .last fun q partners => alone q (new _ (by simp) q partners)
  | frame cells waits _ ih =>
    refine .frame (more _ _ cells) (waits.mono grows) (ih fun r mem => new r ?_)
    simp only [List.map_cons, List.mem_cons]
    exact .inr mem

/-! ### One action at a time -/

structure Doubles.Holds (E : Engine) (D : Doubles) (frames frames' : List Frame) (s s' : Store) :
    Prop where
  stores : s.Doubled E D s'
  stack : D.Stacked frames frames'
  forcing : s.heap.Forcing (cellsOf frames)

/-- Whatever like scripts do, stores stay doubled, and frames go on waiting in them. -/
theorem Doubles.keeps (E : Engine) (frames frames' : List Frame) :
    Manner.siteless.Keeps fun B s s' =>
      ∃ D : Doubles, D.bond = B ∧ D.Holds E frames frames' s s' where
  rallies := by
    rintro _ s s' ⟨D, rfl, holds⟩
    exact holds.stores.rallies
  rest := by
    rintro _ s s' t t' ⟨D, rfl, ⟨unique, partners, copies, _⟩, stack, forcing⟩ same same' rallies
    exact ⟨D, rfl, ⟨unique, same ▸ same' ▸ partners, same ▸ same' ▸ copies, rallies⟩, stack,
      same ▸ forcing⟩
  alloc := by
    rintro _ s s' ⟨D, rfl, stores, stack, forcing⟩ c c' _ states
    have grows := D.le_add (s.act (.alloc c)).1 (s'.act (.alloc c')).1
    refine ⟨_, grows, .inl (.inr ⟨rfl, rfl⟩), .inl (.inr ⟨rfl, rfl⟩), _, rfl,
      stores.alloc c c' states, stack.mono grows (fun _ _ => .inl) ?_,
      forcing.works (s.works_alloc c) (by simp)⟩
    rintro r mem q (partners | ⟨rfl, rfl⟩)
    · exact partners
    · have busy := forcing _ mem
      rw [show s.heap.state? (s.act (.alloc c)).1 = none from s.heap.state?_size] at busy
      cases busy
  vacant := by
    rintro _ s s' ⟨D, rfl, holds⟩ r q (cells | cells)
    · obtain ⟨c, c', state, state', states⟩ := holds.stores.partners cells
      rw [state, state']
      cases states <;> simp
    · cases holds.stores.copies cells with
      | known left right => exact iff_of_false left.not_vacant right.not_vacant
      | waits left _ right =>
        obtain ⟨_, _, _, _, state⟩ := right
        exact iff_of_false left.not_vacant (by simp [state])
  fill := by
    rintro _ s s' ⟨D, rfl, stores, stack, forcing⟩ r q target target' cells targets vacant vacant'
    rcases cells with cells | cells
    · have works := s.works_fill vacant target
      have works' := s'.works_fill vacant' target'
      refine ⟨_, Bond.le_refl _, D, rfl, stores.change cells works works'
        (Heap.state?_setState_self vacant _) (Heap.state?_setState_self vacant' _)
        (.redirect targets), stack, forcing.works works ?_⟩
      rintro o mem mine
      obtain ⟨f, waiting, rfl⟩ := List.mem_map.1 mem
      exact forcing.ne (r := r) (by simp [vacant]) f waiting (List.mem_singleton.1 mine)
    · cases stores.copies cells with
      | known left => exact absurd vacant left.not_vacant
      | waits left => exact absurd vacant left.not_vacant

end CallByNeed
