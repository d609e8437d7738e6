import CallByNeed.Proofs.FixedPoints.Following

/- Fixed points unfold. A function that is tied to itself does with its arguments what the function
   that has been tied does with them behind the knot, however often it calls itself in turn, and so
   does each function of several that are tied together. -/
namespace CallByNeed
open Relation (ReflTransGen TransGen)

/-! ### Runners -/

namespace Runner
variable {α β : Type} {E : Engine} {post : α → β → Prop}

/-- Two runners on doubled knots. -/
inductive Abreast (E : Engine) (post : α → β → Prop) :
    Runner α × Store × World → Runner β × Store × World → Prop where
  | ready {D : Doubles} {held : Held} {script : Script α} {script' : Script β} {s s' : Store}
      {world : World} (mine : held.Bonded D.bond)
      (scripts : script.Bonded .siteless D.bond (fun _ => Unchanged .siteless post .nothing) held
        script')
      (stores : s.Doubled E D s') :
      Abreast E post (.ready script, s, world) (.ready script', s', world)
  | forcing {D : Doubles} {how : Demand} {r q : Ref} {next : Value → Script α}
      {next' : Value → Script β} {held : Held} {c c' : Control × List Frame × Store} {world : World}
      (mine : held.Bonded D.bond)
      (rest : ∀ B, D.bond ≤ B → ∀ v v', ValueLike .siteless B v v' →
        ScriptLike .siteless B (Unchanged .siteless post .nothing) held (next v) (next' v'))
      (engines : E.Abreast D c c') :
      Abreast E post (.forcing how r next c.1 c.2.1, c.2.2, world)
        (.forcing how q next' c'.1 c'.2.1, c'.2.2, world)

/-- A cell is entered by nobody else. -/
theorem sound_enter (r : Ref) (s : Store) : Engine.Sound (.enter r, [], s) :=
  intact_demand .pure r .done s

theorem meets_ready {D : Doubles} {held : Held} {script : Script α} {script' : Script β}
    {s s' : Store} {world : World} (mine : held.Bonded D.bond)
    (scripts : script.Bonded .siteless D.bond (fun _ => Unchanged .siteless post .nothing) held
      script')
    (stores : s.Doubled E D s') : Meets E E False post (Abreast E post)
      (.ready script, s, world) (.ready script', s', world) := by
  have first := scripts D.bond (Bond.le_refl _)
  have never {γ : Type} {w : Runner γ} {s : Store} {ending : Ending γ}
      (step : w.step E s = .ended ending s) (other : ∀ a, ending ≠ .answer a) :
      ∀ a after, ¬ ComesTo E (w, s, world) a after := by
    intro a after comes
    exact other a ((comesTo_of_ended step).1 comes).1
  cases script with
  | stall =>
    cases first with
    | stall stops =>
      rcases stops with no | rfl
      · cases no
      · exact .stuck (never rfl nofun) (.inr (never rfl nofun))
  | panic p =>
    cases first
    exact .stuck (never rfl nofun) (.inr (never rfl nofun))
  | raise e =>
    cases first
    exact .stuck (never rfl nofun) (.inr (never rfl nofun))
  | done a =>
    cases first with
    | done results =>
      obtain ⟨_, results⟩ := results
      cases results with
      | ok results =>
        exact .answered ((comesTo_of_ended rfl).2 ⟨rfl, rfl⟩) ((comesTo_of_ended rfl).2 ⟨rfl, rfl⟩)
          results
  | demand how r next =>
    cases first with
    | demand hosted asked rest =>
      rename_i q _
      have engines : E.Abreast D (.enter r, [], s) (.enter q, [], s') :=
        ⟨⟨D, Bond.le_refl _, .enter asked, .nil, stores⟩, sound_enter r s⟩
      refine .moved (Advance.demand.ticks world) (Advance.demand.ticks world)
        (.forcing mine ?_ engines)
      intro B more v v' values
      cases scripts B more with
      | demand _ _ rest => exact rest v v' values
  | act a next =>
    obtain ⟨a', next', rfl, _, held', _, mine', scripts', U, rfl, holds⟩ :=
      (Doubles.keeps E [] []).act id trivial
        ⟨D, rfl, stores, .nil, by simp [Heap.Forcing]⟩ mine scripts
    exact .moved (Advance.act.ticks world) (Advance.act.ticks world)
      (.ready mine' scripts' holds.stores)
  | ask q next =>
    cases first with
    | ask hosted _ =>
      refine .moved (.single (.ask world rfl)) (.single (.ask world rfl))
        (.ready mine (fun B more => ?_) stores)
      cases scripts B more with
      | ask _ rest => exact rest _

theorem meets_of_abreast {x : Runner α × Store × World} {y : Runner β × Store × World}
    (abreast : Abreast E post x y) : Meets E E False post (Abreast E post) x y := by
  cases abreast with
  | ready mine scripts stores => exact meets_ready mine scripts stores
  | @forcing D how r q next next' held c c' world mine rest engines =>
    refine meets_forcing (Engine.meets_of_abreast engines) (fun world related => ?_)
      (fun {v v' s s'} related => ?_) world
    · exact .forcing mine rest related
    · obtain ⟨⟨U, grows, control, _, stores⟩, _⟩ := related
      cases control with
      | give values =>
        have later (B : Bond) (more : U.bond ≤ B) := rest B (Bond.le_trans grows more)
        rcases how.reply_siteless (s.heap.site? r) (s'.heap.site? q) values with
          ⟨u, u', left, right, resumed⟩ | ⟨action, action', left, right, actions⟩
        · refine ⟨_, _, _, _, .resume left, .resume right, fun world => ?_⟩
          exact .ready (mine.mono grows) (fun B more => later B more _ _ (resumed.mono more)) stores
        · refine ⟨_, _, _, _, .perform left, .perform right, fun world => ?_⟩
          have engines : E.Abreast U (.enter action, [], s) (.enter action', [], s') :=
            ⟨⟨U, Bond.le_refl _, .enter actions, .nil, stores⟩, sound_enter action s⟩
          exact .forcing (mine.mono grows) later engines

/-- Runners on doubled knots come to the same answers. -/
theorem Abreast.comesTo_iff {x y : Runner α × Store × World} (abreast : Abreast E Eq x y) {a : α}
    {world : World} : ComesTo E x a world ↔ ComesTo E y a world := by
  constructor
  · intro left
    obtain ⟨b, right, rfl⟩ := right_of_meets (fun _ _ => meets_of_abreast) abreast left
    exact right
  · intro right
    obtain ⟨b, left, rfl⟩ := left_of_meets (fun _ _ => meets_of_abreast) id abreast right
    exact left

end Runner

/-! ### Calls of knots -/

/-- The call of the builtin on these functions, which ties them once it is forced. -/
def Builtin.knot (b : Builtin) (fs : List Ref) : Script Ref := do
  alloc (.ofCall (← allocValue (.function b.function)) { positionals := fs })

/-- The arguments behind one more positional. -/
def Arguments.after (a : Arguments) (r : Ref) : Arguments :=
  { a with positionals := r :: a.positionals }

/-- Forcing the cell answers `f` tied into the knot of these functions. If the knot has not been tied
    yet, the cell has been made since `old`. -/
inductive Heap.Callee (E : Engine) (old h : Heap) : Builtin → List Ref → Ref → Ref → Prop where
  | untied {f r : Ref} (new : old.state? r = none) (untied : h.Untied E .fix [f] r) :
      Callee E old h .fix [f] f r
  | tied {b : Builtin} {fs : List Ref} {f self r : Ref} {v : Value} (tied : h.Tied self b fs v)
      (known : h.Yields r (.native (.fixedPoint f self))) : Callee E old h b fs f r

/-- The known cells stand for themselves, two cells at work for each other, and the knot that has been
    tied on the left for the call on the right. -/
def Doubles.first (G : Set Ref) (cell cell' self knot : Ref) : Doubles where
  partners := fun r q => (r = q ∧ r ∈ G) ∨ r = cell ∧ q = cell'
  copies := fun r q => r = self ∧ q = knot

theorem Doubles.among_le_first (G : Set Ref) (cell cell' self knot : Ref) :
    Bond.among G ≤ (Doubles.first G cell cell' self knot).bond :=
  ⟨fun _ _ known => .inl (.inl known), fun _ _ known => .inl (.inl known)⟩

section
variable {E : Engine} {G : Set Ref} {s t t' : Store} {b : Builtin} {fs left left' : List Ref}
variable {f r self knot cell cell' : Ref} {v : Value} {a : Arguments} {site site' : Option Location}

theorem Store.Works.missing {own : List Ref} (works : s.Works own t left)
    (missing : t.heap.state? r = none) : s.heap.state? r = none := by
  cases state : s.heap.state? r with
  | none => rfl
  | some c =>
    obtain ⟨_, found, _⟩ := Heap.exists_cell state
    obtain ⟨_, later, _⟩ := works.before r _ found
    simp [Heap.state?, later] at missing

theorem Heap.Callee.before {old h k : Heap} (callee : old.Callee E h b fs f r) (before : h.Before k)
    (kept : ∀ w, h.state? r = some (.pending w) → k.state? r = some (.pending w)) :
    old.Callee E k b fs f r := by
  cases callee with
  | untied new untied => exact .untied new (untied.before before kept)
  | tied tied known => exact .tied (tied.before before) (before.yields known)

/-- The function is found, and the knot tied if it has not been. -/
theorem Heap.Callee.gives {old : Heap} (callee : old.Callee E s.heap b fs f r) :
    ∃ self v t own, s.Works own t [] ∧ (∀ o ∈ own, o = r ∧ old.state? o = none) ∧
      t.heap.Tied self b fs v ∧ ∀ frames, ReflTransGen E.Moves (.enter r, frames, s)
        (.give (.native (.fixedPoint f self)), frames, t) := by
  cases callee with
  | untied new untied =>
    obtain ⟨self, v, t, works, tied, known, moves⟩ := untied.enters
    cases tied with
    | one yields =>
      exact ⟨self, _, t, [r], works, by simpa using new, .one yields,
        fun frames => (moves frames).to_reflTransGen⟩
  | tied tied known =>
    exact ⟨_, _, s, [], s.works_refl (List.Subset.refl _), by simp, tied,
      (Runner.returns_of_yields known).moves⟩

/-- A body that calls such a function leaves the call of `f` for a tail, with the knot before its
    arguments. -/
theorem Heap.Callee.calls {old : Heap} (callee : old.Callee E s.heap b fs f r) :
    ∃ self v t child own, s.Works own t [] ∧ (∀ o ∈ own, o = r ∧ old.state? o = none) ∧
      t.heap.Tied self b fs v ∧ s.heap.state? child = none ∧
      t.heap.state? child = some (.pending { task := .call f (a.after self) }) ∧
      ∀ cell site frames, ReflTransGen E.Moves
        (.run cell site ((Task.call r a).script E.bound), frames, s)
        (.run cell site (.done (.tail child)), frames, t) := by
  obtain ⟨self, v, t, own, works, mine, tied, moves⟩ := callee.gives
  let c : Cell := .ofCall f (a.after self)
  have made := t.works_alloc c
  refine ⟨self, v, (t.act (.alloc c)).2, (t.act (.alloc c)).1, own,
    works.trans made.forget (List.Subset.refl _) (by simp), mine, tied.before made.before,
    works.missing t.heap.state?_size, t.heap.state?_new c, fun cell site frames => ?_⟩
  refine .head Engine.Advance.demand.move ((moves _).trans ?_)
  refine .head (Engine.Advance.resume rfl).move ?_
  exact .single (Engine.Advance.act (a := .alloc c)).move

/-- Two stores in which nothing that is known has changed double the knot. -/
theorem Store.Within.doubled (within : s.Within .siteless G) (works : s.Works [] t left)
    (works' : s.Works [] t' left') (new : s.heap.state? cell = none)
    (new' : s.heap.state? cell' = none) (busy : t.heap.state? cell = some .forcing)
    (busy' : t'.heap.state? cell' = some .forcing) (tied : t.heap.Tied self b fs v)
    (untied : t'.heap.Untied E b fs knot) (fresh : s.heap.state? knot = none)
    (known : ∀ f ∈ fs, f ∈ G) :
    t.Doubled E (Doubles.first G cell cell' self knot) t' where
  unique := by
    have old {r : Ref} (mem : r ∈ G) : s.heap.state? r ≠ none := by
      obtain ⟨c, state, _⟩ := within.heap r mem
      simp [state]
    rintro r r' q q' (⟨rfl, mem⟩ | ⟨rfl, rfl⟩) (⟨rfl, mem'⟩ | ⟨rfl, rfl⟩)
    · exact Iff.rfl
    · exact iff_of_false (fun same => old mem (same ▸ new)) fun same => old mem (same ▸ new')
    · exact iff_of_false (fun same => old mem' (same ▸ new)) fun same => old mem' (same ▸ new')
    · simp
  partners := by
    rintro r q (⟨rfl, mem⟩ | ⟨rfl, rfl⟩)
    · obtain ⟨c, state, inside⟩ := within.heap r mem
      have states : c.Bonded .siteless (.among G) c :=
        CellState.Within.bonded (by simpa using inside)
      exact ⟨c, c, works.others r c (by simp) state, works'.others r c (by simp) state,
        states.mono (Doubles.among_le_first ..)⟩
    · exact ⟨_, _, busy, busy', .forcing⟩
  copies := by
    rintro r q ⟨rfl, rfl⟩
    refine .waits tied.yields tied untied ?_ ?_
    · exact List.forall₂_same.2 fun f mem => .inl (.inl ⟨rfl, known f mem⟩)
    · rintro o (⟨rfl, mem⟩ | ⟨rfl, rfl⟩)
      · obtain ⟨c, state, _⟩ := within.heap o mem
        rw [fresh] at state
        cases state
      · obtain ⟨_, _, _, _, state⟩ := untied
        rw [busy'] at state
        cases state
  rallies := by
    intro id
    rw [works.rest, works'.rest]
    cases found : s.rallies[id]? with
    | none => exact .none
    | some y =>
      refine .some ⟨fun i => ?_, rfl⟩
      cases listed : y.arguments[i]? with
      | none => exact .none
      | some r =>
        exact .some (.inl (.inl ⟨rfl, within.rallies y (Array.mem_of_getElem? found) r
          (Array.mem_of_getElem? listed)⟩))

/-! ### The two calls -/

/-- Values are looked at for what they are, whichever cells they hold. -/
def Examines {γ : Type} (G : Set Ref) (look : Value → Script γ) : Prop :=
  ∀ B, Bond.among G ≤ B → ∀ v v', ValueLike .siteless B v v' →
    Alike .siteless B Eq (look v) (look v')

theorem ArgumentsLike.after {B : Bond} {a a' : Arguments} {r r' : Ref} (like : ArgumentsLike B a a')
    (cells : B.cells r r') : ArgumentsLike B (a.after r) (a'.after r') :=
  ⟨.cons cells like.positionals, like.spread, like.keywords, like.dicts⟩

/-- Cells that have been made for a call of the knot and for the call behind it. -/
structure Unfolding (E : Engine) (G : Set Ref) (s t t' : Store) (b : Builtin) (fs : List Ref)
    (f : Ref) (a : Arguments) (cell cell' : Ref) : Prop where
  works : ∃ left, s.Works [] t left
  works' : ∃ left, s.Works [] t' left
  new : s.heap.state? cell = none
  new' : s.heap.state? cell' = none
  left : ∃ r site, s.heap.Callee E t.heap b fs f r ∧
    t.heap.state? cell = some (.pending { task := .call r a, site })
  right : ∃ knot site, s.heap.state? knot = none ∧ t'.heap.Untied E b fs knot ∧
    t'.heap.state? cell' = some (.pending { task := .call f (a.after knot), site })

theorem Heap.Callee.ne {old h : Heap} {w : Work} (callee : old.Callee E h b fs f r)
    (state : h.state? cell = some (.pending w)) (calls : w.task = .call r a) : r ≠ cell := by
  rintro rfl
  cases callee with
  | untied _ untied =>
    obtain ⟨_, c, _, function, state'⟩ := untied
    rw [state] at state'
    cases state'
    cases calls
    exact function.not_pending _ state
  | tied _ known => exact known.not_pending _ state

/-- Once both engines are in the work of `f`, they are at work on doubled knots. -/
theorem Unfolding.abreast (within : s.Within .siteless G) (known : ∀ f ∈ fs, f ∈ G) (mine : f ∈ fs)
    (given : ArgumentsLike (.among G) a a) (calls : Unfolding E G s t t' b fs f a cell cell') :
    ∃ D c c', Bond.among G ≤ D.bond ∧ TransGen E.Moves (.enter cell, [], t) c ∧
      TransGen E.Moves (.enter cell', [], t') c' ∧ E.Abreast D c c' := by
  obtain ⟨⟨_, works⟩, ⟨_, works'⟩, new, new', ⟨r, site, callee, state⟩,
    ⟨knot, site', fresh', untied, state'⟩⟩ := calls
  have other := callee.ne state rfl
  have started := t.works_start state
  have started' := t'.works_start state'
  obtain ⟨self, v, u, child, own, called, own_new, tied, empty, waits, moves⟩ :=
    (callee.before started.before fun w pending => started.others r _ (by simpa using other)
      pending).calls (a := a)
  have busy : u.heap.state? cell = some .forcing :=
    called.others cell _ (fun mem => other (own_new cell mem).1.symm) (Heap.state?_setState_self state _)
  have busy' : (t'.start cell').heap.state? cell' = some .forcing :=
    Heap.state?_setState_self state' _
  have apart : knot ≠ cell' := by
    rintro rfl
    obtain ⟨_, c, _, _, state''⟩ := untied
    simp only [state', Option.some.injEq, CellState.pending.injEq, Work.mk.injEq, Task.call.injEq,
      Arguments.after, Arguments.mk.injEq] at state''
    have member : knot ∈ fs := state''.1.2.1 ▸ List.mem_cons_self
    obtain ⟨c, held, _⟩ := within.heap knot (known knot member)
    rw [fresh'] at held
    cases held
  have waiting := untied.before started'.before fun w pending =>
    started'.others knot _ (by simpa using apart) pending
  have all : s.Works [] u [] := (works.trans started (List.Subset.refl _) (by simpa using new)).trans
    called (List.Subset.refl _) fun o mem => .inr (own_new o mem).2
  have all' := works'.trans started' (List.Subset.refl _) (by simpa using new')
  have unborn : s.heap.state? child = none := (works.trans started (List.Subset.refl _)
    (by simpa using new)).missing empty
  have begun : TransGen E.Moves (.enter cell', [], t')
      (.run cell' site' ((Task.call f (a.after knot)).script E.bound), [], t'.start cell') :=
    (Engine.Advance.start state').moves
  have way : TransGen E.Moves (.enter cell, [], t) (.run cell site (.done (.tail child)), [], u) :=
    .head' (Engine.Advance.start state).move (moves cell site [])
  have tasks (cell : Ref) : TaskLike .siteless (Doubles.first G cell cell' self knot).bond
      (.call f (a.after self)) (.call f (a.after knot)) :=
    .call (.inl (.inl ⟨rfl, known f mine⟩))
      ((given.mono (Doubles.among_le_first ..)).after (.inr ⟨rfl, rfl⟩))
  have sound := Runner.sound_enter cell t
  by_cases splices : E.splices = true
  · have taken := u.works_splice waits cell
    have away : cell ≠ child := by
      rintro rfl
      rw [busy] at waits
      cases waits
    have reached : TransGen E.Moves (.enter cell, [], t) _ :=
      way.tail (Engine.Advance.splice splices waits).move
    refine ⟨Doubles.first G cell cell' self knot, _, _, Doubles.among_le_first .., reached, begun,
      ⟨_, Bond.le_refl _, ?_, .nil, ?_⟩, sound.moves reached.to_reflTransGen⟩
    · have cells : (Doubles.first G cell cell' self knot).partners cell cell' := .inr ⟨rfl, rfl⟩
      exact Engine.doubled_script (w := ⟨.call f (a.after self), none⟩)
        (o := ⟨.call f (a.after knot), site'⟩) (tasks cell) cells
    · exact within.doubled (all.trans taken (List.Subset.refl _) (by simpa using unborn)) all' new
        new' (taken.others cell _ (by simpa using away) busy) busy' (tied.before taken.before) waiting
        fresh' known
  · have begins := u.works_start waits
    have away : cell ≠ child := by
      rintro rfl
      rw [busy] at waits
      cases waits
    have reached : TransGen E.Moves (.enter cell, [], t) _ :=
      (way.tail (Engine.Advance.tail fun yes => absurd yes splices).move).tail
        (Engine.Advance.start waits).move
    refine ⟨Doubles.first G child cell' self knot, _, _, Doubles.among_le_first .., reached, begun,
      ⟨_, Bond.le_refl _, ?_, .last ?_, ?_⟩, sound.moves reached.to_reflTransGen⟩
    · have cells : (Doubles.first G child cell' self knot).partners child cell' := .inr ⟨rfl, rfl⟩
      exact Engine.doubled_script (w := ⟨.call f (a.after self), none⟩)
        (o := ⟨.call f (a.after knot), site'⟩) (tasks child) cells
    · rintro q (⟨rfl, mem⟩ | ⟨same, _⟩)
      · obtain ⟨c, held, _⟩ := within.heap cell mem
        rw [new] at held
        cases held
      · exact away same
    · exact within.doubled (all.trans begins (List.Subset.refl _) (by simpa using unborn)) all'
        unborn new' (Heap.state?_setState_self waits _) busy' (tied.before begins.before) waiting
        fresh' known

/-- Whoever demands the cell that is made, and looks at what it holds, comes to the same answers in the
    same worlds. -/
def SameResults (E : Engine) (G : Set Ref) (s : Store) (m m' : Script Ref) : Prop :=
  ∀ (γ : Type) (how : Demand) (look : Value → Script γ), Examines G look → ∀ x world world',
    Runner.ComesTo E (.ready (m >>= fun r => .demand how r look), s, world) x world' ↔
      Runner.ComesTo E (.ready (m' >>= fun r => .demand how r look), s, world) x world'

theorem Script.Comes.comesTo_iff {α β : Type} {m : Script α} {y : α} (comes : m.Comes E s (.ok y) t)
    (f : α → Script β) {x : β} {world world' : World} :
    Runner.ComesTo E (.ready (m >>= f), s, world) x world' ↔
      Runner.ComesTo E (.ready (f y), t, world) x world' := by
  have leaves {m : Script β} {s : Store} : Runner.ComesTo E (.ready m, s, world) x world' ↔
      ∃ u, m.Leaves E s world (.ok x) u world' :=
    exists_comm
  simp only [leaves, comes.leaves_bind_iff]

theorem Unfolding.sameResults {m m' : Script Ref} (within : s.Within .siteless G)
    (known : ∀ f ∈ fs, f ∈ G) (mine : f ∈ fs) (given : ArgumentsLike (.among G) a a)
    (calls : Unfolding E G s t t' b fs f a cell cell') (comes : m.Comes E s (.ok cell) t)
    (comes' : m'.Comes E s (.ok cell') t') : SameResults E G s m m' := by
  intro γ how look examines x world world'
  obtain ⟨D, c, c', grows, moves, moves', abreast⟩ := calls.abreast within known mine given
  have forced {s : Store} {cell : Ref} {c : Control × List Frame × Store}
      (moves : TransGen E.Moves (.enter cell, [], s) c) :
      Runner.ComesTo E (.ready (.demand how cell look), s, world) x world' ↔
        Runner.ComesTo E (.forcing how cell look c.1 c.2.1, c.2.2, world) x world' :=
    Runner.comesTo_of_ticks ((Runner.Advance.demand.ticks world).to_reflTransGen.trans
      (Runner.ticks_of_moves moves world).to_reflTransGen)
  have runners : Runner.Abreast E Eq (.forcing how cell look c.1 c.2.1, c.2.2, world)
      (.forcing how cell' look c'.1 c'.2.1, c'.2.2, world) :=
    .forcing (show Held.nothing.Bonded D.bond from trivial)
      (fun B more => examines B (Bond.le_trans grows more)) abreast
  rw [comes.comesTo_iff, comes'.comesTo_iff, forced moves, forced moves', runners.comesTo_iff]

/-- The call of the builtin is made and waits. -/
theorem Builtin.comes_knot (ties : E.Ties b fs) (s : Store) : ∃ knot t left,
    (b.knot fs).Comes E s (.ok knot) t ∧ s.Works [] t left ∧ s.heap.state? knot = none ∧
      t.heap.Untied E b fs knot := by
  let u := (s.act (.alloc (.ofValue (.function b.function)))).2
  have made := s.works_alloc (.ofValue (.function b.function))
  let c : Cell := .ofCall (s.act (.alloc (.ofValue (.function b.function)))).1 { positionals := fs }
  have made' := u.works_alloc c
  refine ⟨(u.act (.alloc c)).1, (u.act (.alloc c)).2, _, .act (.act .done),
    made.forget.trans made' (List.Subset.refl _) (by simp), made.missing u.heap.state?_size,
    ties, _, none, ⟨_, .refl, made'.before.forced (s.heap.state?_new _)⟩, u.heap.state?_new c⟩

/-- A call of a known cell is made behind all that has been done. -/
theorem Store.Works.call (works : s.Works [] t left) (r : Ref) (a : Arguments)
    (site : Option Location) : ∃ cell u left,
      (alloc (.ofCall r a site) : Script Ref).Comes E t (.ok cell) u ∧ s.Works [] u left ∧
      t.heap.Before u.heap ∧ (∀ q c, t.heap.state? q = some c → u.heap.state? q = some c) ∧
      s.heap.state? cell = none ∧
      u.heap.state? cell = some (.pending { task := .call r a, site }) := by
  have made := t.works_alloc (.ofCall r a site)
  exact ⟨_, _, _, .act .done, works.forget.trans made (List.Subset.refl _) (by simp), made.before,
    fun q c => made.others q c (by simp), works.missing t.heap.state?_size, t.heap.state?_new _⟩

/-- The elements of a strand are its functions, each of which is passed the knot. -/
theorem Heap.Strand.comes_skip {l : LazyList} {i : Nat} (strand : s.heap.Strand self fs l)
    (place : fs[i]? = some f) : ∃ r, (l.skip i).Comes E s (.ok r) s ∧
      s.heap.Yields r (.native (.fixedPoint f self)) := by
  induction strand generalizing i with
  | nil => cases place
  | @cons head first tail fs l known listed _ ih =>
    cases i with
    | zero =>
      cases place
      exact ⟨first, .done, known⟩
    | succ i =>
      obtain ⟨r, comes, yields⟩ := ih place
      have next : (forceList tail).Comes E s (.ok l) s :=
        .demand (Runner.returns_of_yields listed) rfl .done
      exact ⟨r, next.bind comes, yields⟩

end

section
variable {E : Engine} {G : Set Ref} {s : Store}

/-- Fixed points unfold: to call the fixed point of `f` is to call `f` with the fixed point before
    the arguments; and to call one of several functions that are tied together is to call that
    function with the list of all of them before the arguments. -/
theorem fixed_points_unfold (within : s.Within .siteless G) {a : Arguments}
    (given : ArgumentsLike (.among G) a a) (site site' : Option Location) :
    (∀ f ∈ G, SameResults E G s
      (do alloc (.ofCall (← Builtin.fix.knot [f]) a site))
      (do alloc (.ofCall f (a.after (← Builtin.fix.knot [f])) site'))) ∧
    ∀ fs : List Ref, (∀ f ∈ fs, f ∈ G) → fs.length < E.bound → ∀ i f, fs[i]? = some f →
      SameResults E G s
        (do
          let functions ← forceList (← Builtin.fixAll.knot fs)
          alloc (.ofCall (← functions.skip i) a site))
        (do alloc (.ofCall f (a.after (← Builtin.fixAll.knot fs)) site')) := by
  refine ⟨fun f known => ?_, fun fs known enough i f place => ?_⟩
  · obtain ⟨knot, t, _, comes, works, fresh, untied⟩ := Builtin.comes_knot (.one f : E.Ties _ _) s
    obtain ⟨cell, u, _, made, works₁, before, kept, new, state⟩ := works.call (E := E) knot a site
    obtain ⟨cell', u', _, made', works₂, before', kept', new', state'⟩ :=
      works.call (E := E) f (a.after knot) site'
    have calls : Unfolding E G s u u' .fix [f] f a cell cell' :=
      { works := ⟨_, works₁⟩, works' := ⟨_, works₂⟩, new, new'
        left := ⟨knot, site, .untied fresh (untied.before before fun w => kept _ _), state⟩
        right := ⟨knot, site', fresh, untied.before before' fun w => kept' _ _, state'⟩ }
    exact calls.sameResults within (by simpa using known) List.mem_cons_self given
      (comes.bind made) (comes.bind made')
  · have mine : f ∈ fs := List.mem_of_getElem? place
    obtain ⟨knot, t, _, comes, works, fresh, untied⟩ :=
      Builtin.comes_knot (.many enough : E.Ties _ _) s
    obtain ⟨self, v, u, tying, tied, _, moves⟩ := untied.enters
    cases tied with
    | @many _ l yields strand =>
    have listed : (forceList knot).Comes E t (.ok l) u :=
      .demand (Engine.returns_of_moves (moves []).to_reflTransGen) rfl .done
    obtain ⟨r, picks, element⟩ := strand.comes_skip place
    have works₁ := works.trans tying (List.Subset.refl _) (by simpa using fresh)
    obtain ⟨cell, w, _, made, works₂, before, _, new, state⟩ := works₁.call (E := E) r a site
    obtain ⟨cell', w', _, made', works₃, before', kept', new', state'⟩ :=
      works.call (E := E) f (a.after knot) site'
    have calls : Unfolding E G s w w' .fixAll fs f a cell cell' :=
      { works := ⟨_, works₂⟩, works' := ⟨_, works₃⟩, new, new'
        left := ⟨r, site, .tied ((Heap.Tied.many yields strand).before before)
          (before.yields element), state⟩
        right := ⟨knot, site', fresh, untied.before before' fun w => kept' _ _, state'⟩ }
    exact calls.sameResults within known mine given
      (comes.bind (listed.bind (picks.bind made))) (comes.bind made')

/-! ### Two functions -/

/-- Whether to go on is the second argument: the function `next` of the first one is called with
    false, or the last word is said. -/
def stepper (next : Expr) (last : String) : Function where
  name := "stepper"
  signature := .plain ["self", "more"]
  body := .code [] (.switch (.local 1)
    [⟨.bool true, .call next [⟨.literal (.bool false), false⟩] [] [] none⟩]
    (some (.literal (.string last))))

/-- The second element of the first argument. -/
def secondOfAll : Expr :=
  .call (.predefined (.function .first))
    [⟨.call (.predefined (.function .rest)) [⟨.local 0, false⟩] [] [] none, false⟩] [] [] none

/-- A function that calls itself once, two that go on with the second one, and true. -/
def stepperStore : Store :=
  { heap := ⟨#[.ofValue (.function (stepper (.local 0) "end")),
      .ofValue (.function (stepper secondOfAll "first")),
      .ofValue (.function (stepper secondOfAll "second")), .ofValue (.bool true)]⟩ }

def theText : Value → Script String
  | .string s => pure s
  | _ => .stall

theorem examines_theText (G : Set Ref) : Examines G theText := by
  intro B _ v v' values
  cases values with
  | string s => exact .pure rfl
  | _ => exact ScriptLike.stall (.inr rfl)

theorem stepper_like {B : Bond} {next : Expr} (last : String)
    (like : ExprLike .siteless B 2 next next) :
    ValueLike .siteless B (.function (stepper next last)) (.function (stepper next last)) := by
  refine .function ⟨rfl, ⟨⟨rfl, .nil, rfl⟩, ⟨rfl, .nil, rfl⟩⟩, .code .nil ?_, rfl⟩
  refine .switch (.local (.inl (show 1 < 2 by decide))) (.cons _ ?_ .nil) (.some (.literal _))
  exact .call like (.cons (.literal _) _ .nil) .nil .nil _

theorem within_stepperStore : stepperStore.Within .siteless {r | r.index < 4} where
  heap := by
    have second (B : Bond) : ExprLike .siteless B 2 secondOfAll secondOfAll := by
      have all : ExprLike .siteless B 2 (.local 0) (.local 0) := .local (.inl (by decide))
      have builtin (b : Builtin) : ExprLike .siteless B 2 (.predefined (.function b))
          (.predefined (.function b)) := .predefined ⟨rfl, .inl trivial⟩
      refine .call (builtin _) (.cons ?_ _ .nil) .nil .nil _
      exact .call (builtin _) (.cons all _ .nil) .nil .nil _
    rintro ⟨i⟩ (less : i < 4)
    match i, less with
    | 0, _ => exact ⟨_, rfl, .forced (stepper_like _ (.local (.inl (by decide))))⟩
    | 1, _ => exact ⟨_, rfl, .forced (stepper_like _ (second _))⟩
    | 2, _ => exact ⟨_, rfl, .forced (stepper_like _ (second _))⟩
    | 3, _ => exact ⟨_, rfl, .forced (.bool true)⟩
  pool := by simp [stepperStore]
  rallies := by simp [stepperStore]

/-- What the script answers within so many steps. -/
def Script.answer? (E : Engine) (fuel : Nat) (m : Script String) (s : Store) : Option String :=
  match ((Runner.ready m).run E fuel s : StateM World _) {} with
  | ((.answer text, _), _) => some text
  | _ => none

theorem Script.comesTo_of_answer (fuel : Nat) {m : Script String} {text : String}
    (answers : m.answer? E fuel s = some text) :
    ∃ world, Runner.ComesTo E (.ready m, s, {}) text world := by
  unfold answer? at answers
  split at answers
  · next t world run =>
    cases answers
    exact ⟨world, fuel, t, run⟩
  · cases answers

/-- Each of the functions goes on once. -/
theorem fixed_points_unfold_of_steppers :
    stepperStore.Within .siteless {r | r.index < 4} ∧
    (∃ world, Runner.ComesTo { bound := 4 } (.ready (do
        let r ← alloc (.ofCall (← Builtin.fix.knot [⟨0⟩]) { positionals := [⟨3⟩] })
        .demand .pure r theText), stepperStore, {}) "end" world) ∧
    ∃ world, Runner.ComesTo { bound := 4 } (.ready (do
        let functions ← forceList (← Builtin.fixAll.knot [⟨1⟩, ⟨2⟩])
        let r ← alloc (.ofCall (← functions.skip 0) { positionals := [⟨3⟩] })
        .demand .pure r theText), stepperStore, {}) "second" world := by
  have given : ArgumentsLike (.among {r | r.index < 4}) { positionals := [⟨3⟩] }
      { positionals := [⟨3⟩] } := ⟨.cons ⟨rfl, by decide⟩ .nil, .none, .nil, .nil⟩
  obtain ⟨one, several⟩ :=
    fixed_points_unfold (E := { bound := 4 }) within_stepperStore given none none
  refine ⟨within_stepperStore, ?_, ?_⟩
  · have same := one ⟨0⟩ (by decide) String .pure theText (examines_theText _)
    obtain ⟨world, comes⟩ := Script.comesTo_of_answer (E := { bound := 4 }) 100
      (s := stepperStore) (m := do
        let r ← alloc (.ofCall ⟨0⟩
          ({ positionals := [⟨3⟩] : Arguments }.after (← Builtin.fix.knot [⟨0⟩])))
        .demand .pure r theText) (show _ = some "end" by decide +kernel)
    exact ⟨world, (same _ _ _).2 comes⟩
  · have same := several [⟨1⟩, ⟨2⟩] (by decide) (by decide) 0 ⟨1⟩ rfl String .pure theText
      (examines_theText _)
    obtain ⟨world, comes⟩ := Script.comesTo_of_answer (E := { bound := 4 }) 200
      (s := stepperStore) (m := do
        let r ← alloc (.ofCall ⟨1⟩
          ({ positionals := [⟨3⟩] : Arguments }.after (← Builtin.fixAll.knot [⟨1⟩, ⟨2⟩])))
        .demand .pure r theText) (show _ = some "second" by decide +kernel)
    have unfolded := (same _ _ _).2 comes
    simp only [bind_assoc] at unfolded
    exact ⟨world, unfolded⟩

end
end CallByNeed
