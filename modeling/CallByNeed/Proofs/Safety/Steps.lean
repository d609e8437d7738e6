import CallByNeed.Proofs.Safety.Acts
import CallByNeed.Proofs.Safety.Task

/- Engines and runners whose scripts are all safe. A step leaves them so and never panics. The work of
   an effect is taken by one who was shown the effect on asking for its result, and by nobody else;
   only such work performs effects and writes. -/
namespace CallByNeed

/-- The script of the cell demands values only and writes nothing. It may do more if its forcer is
    bold and the cell is that of an effect that was shown. -/
def Ken.Quiet (G : Ken) (bold : Prop) (cell : Ref) : Prop := ¬ (bold ∧ cell ∈ G.shown)

/-- The control is safe, and these are the handles that it holds. -/
inductive Control.Sealed (bold : Prop) (G : Ken) (h : Heap) : List Ref → Control → Prop where
  | enter {r : Ref} (known : r ∈ G.cells) : Sealed bold G h [] (.enter r)
  | action {r : Ref} (dares : bold) (known : r ∈ G.actions) (shown : r ∈ G.shown) :
      Sealed bold G h [] (.enter r)
  | run {held : Held} {cell : Ref} {site : Option Location} {script : Script Outcome}
      (running : cell ∈ G.cells) (mine : held.Known G h)
      (scripts : script.Sealed (.cell (G.Quiet bold cell)) G held) :
      Sealed bold G h held.handles (.run cell site script)
  | give {v : Value} (fits : v.Fits) (values : ValueLike .loaded G.bond v v) :
      Sealed bold G h [] (.give v)

/-- Whatever else comes to be known, the script is safe on replies that mention what is known. -/
def Resumes {α : Type} (T : Terms α) (G : Ken) (held : Held) (next : Value → Script α) : Prop :=
  ∀ K, G ≤ K → ∀ v : Value, v.Replies → ValueLike .loaded K.bond v v → (next v).Sealed T K held

/-- Each frame is safe, and these are the handles that they hold. -/
inductive FramesSealed (bold : Prop) (G : Ken) (h : Heap) : List Ref → List Frame → Prop where
  | nil : FramesSealed bold G h [] []
  | tail {held : List Ref} {cell : Ref} {site : Option Location} {frames : List Frame}
      (running : cell ∈ G.cells) (rest : FramesSealed bold G h held frames) :
      FramesSealed bold G h held ({ cell, site, wait := .tail } :: frames)
  | reply {mine : Held} {held : List Ref} {cell r : Ref} {site : Option Location} {how : Demand}
      {next : Value → Script Outcome} {frames : List Frame} (running : cell ∈ G.cells)
      (silent : G.Quiet bold cell → how = .pure) (known : mine.Known G h)
      (goesOn : Resumes (.cell (G.Quiet bold cell)) G mine next)
      (rest : FramesSealed bold G h held frames) :
      FramesSealed bold G h (mine.handles ++ held)
        ({ cell, site, wait := .reply how r next } :: frames)

/-- How the value is demanded that the control comes to. -/
def awaited? (how : Demand) : List Frame → Option Demand
  | [] => some how
  | { wait := .reply how _ _, .. } :: _ => some how
  | { wait := .tail, .. } :: _ => none

/-- The cell of an effect is shown to one who has asked for the result of the effect. -/
def Runner.Shows {α : Type} (w : Runner α) (r : Ref) : Prop :=
  match w with
  | .ready _ => False
  | .forcing how _ _ c frames => c = .give (.effect r) ∧ awaited? how frames = some .effect

/-- What a step comes to for those who watch the store. -/
structure Store.Turned (G : Ken) (s : Store) (owned mine : List Ref) (shows : Ref → Prop)
    (s' : Store) (K : Ken) (owned' mine' : List Ref) : Prop where
  grows : G ≤ K
  sealed : s'.Sealed K
  served : ∃ handed, s.heap.Served s'.heap owned owned' handed
  passes : s.heap.Passes s'.heap mine mine'
  shown : ∀ r ∈ K.shown, r ∈ G.shown ∨ shows r
  /-- The work of an effect is taken by those only who were shown it. -/
  takes : ∀ r w, s.heap.state? r = some (.pending w) → w.Performs →
    s'.heap.state? r = some (.pending w) ∨ r ∈ G.shown

section
variable {bold : Prop} {G K : Ken} {h h' : Heap}

theorem Ken.Quiet.of_le (grows : G ≤ K) {cell : Ref} (quiet : K.Quiet bold cell) :
    G.Quiet bold cell :=
  fun loud => quiet ⟨loud.1, grows.2.2.1 loud.2⟩

theorem Script.Sealed.louder {quiet quiet' : Prop} {held : Held} {s : Script Outcome}
    (louder : quiet' → quiet) (script : s.Sealed (.cell quiet) G held) :
    s.Sealed (.cell quiet') G held :=
  ⟨script.safe.imp louder (fun _ _ => id) fun _ _ => id, script.knows⟩

theorem Control.Sealed.mono (grows : G ≤ K) (evolves : h.Evolves h') {mine : List Ref} {c : Control}
    (control : c.Sealed bold G h mine) : c.Sealed bold K h' mine := by
  cases control with
  | enter known => exact .enter (grows.1 known)
  | action dares known shown => exact .action dares (grows.2.1 known) (grows.2.2.1 shown)
  | run running mine scripts =>
    exact .run (grows.1 running) (mine.mono grows evolves)
      ((scripts.mono grows).louder (Ken.Quiet.of_le grows))
  | give fits values => exact .give fits (values.mono (Ken.bond_mono grows))

theorem FramesSealed.mono (grows : G ≤ K) (evolves : h.Evolves h') {held : List Ref}
    {frames : List Frame} (stack : FramesSealed bold G h held frames) :
    FramesSealed bold K h' held frames := by
  induction stack with
  | nil => exact .nil
  | tail running _ ih => exact .tail (grows.1 running) ih
  | reply running silent known goesOn _ ih =>
    refine .reply (grows.1 running) (fun quiet => silent (quiet.of_le grows))
      (known.mono grows evolves) (fun L wider v replies values => ?_) ih
    exact (goesOn L (Ken.le_trans grows wider) v replies values).louder (Ken.Quiet.of_le grows)

theorem ValueLike.through {B : Bond} {v : Value} (values : ValueLike .loaded B v v)
    (site : Option Location) : ValueLike .loaded B (v.through? site) (v.through? site) := by
  cases values with
  | error faults => exact .error ⟨rfl, rfl⟩
  | _ => simp only [Value.through?]; constructor <;> assumption

/-- A demand is never answered with an effect. -/
theorem Demand.replies_of_reply {how : Demand} {site : Option Location} {v u : Value}
    (fits : v.Fits) (reply : how.reply site v = .resume u) : u.Replies := by
  cases how <;> cases v <;> cases reply <;> first | exact ⟨fits, nofun⟩ | exact ⟨trivial, nofun⟩

theorem Demand.like_of_reply {B : Bond} {how : Demand} {site : Option Location} {v u : Value}
    (values : ValueLike .loaded B v v) (reply : how.reply site v = .resume u) :
    ValueLike .loaded B u u := by
  cases how <;> cases v <;> cases reply <;> first | exact values | exact .error ⟨rfl, rfl⟩

theorem action_mem_of_like {a : Ref} (values : ValueLike .loaded G.bond (.effect a) (.effect a)) :
    a ∈ G.actions := by
  cases values with
  | effect actions => exact actions.2

/-- The script of work that was found by one who may take it. -/
theorem Work.sealed_script {w : Work} {quiet : Prop} (fits : w.Fits) (calm : quiet → ¬ w.Performs)
    (works : WorkLike .loaded G.bond w w) (bound : Nat) :
    (w.task.script bound).Sealed (.cell quiet) G .nothing :=
  ⟨Work.settles_script fits calm bound, fun _ wider =>
    (works.mono (Ken.bond_mono wider)).task.like_script (.inl rfl)⟩

theorem Script.Sealed.asks_cell {α : Type} {T : Terms α} {held : Held} {how : Demand} {r : Ref}
    {next : Value → Script α} (script : (Script.demand how r next).Sealed T G held) :
    (T.quiet → how = .pure) ∧ r ∈ G.cells ∧ Resumes T G held next := by
  refine ⟨script.safe.1, ?_, fun K grows v replies values => ⟨script.safe.2 v replies, ?_⟩⟩
  · cases script.knows G G.le_refl with
    | demand _ cells _ => exact cells.2
  · intro L wider
    cases script.knows L (Ken.le_trans grows wider) with
    | demand _ _ rest => exact rest v v (values.mono (Ken.bond_mono wider))

/-- Whoever may enter a cell may take the work that is there. -/
theorem Control.Sealed.takes {r : Ref} {mine : List Ref}
    (control : (Control.enter r).Sealed bold G h mine) (sealed : h.Sealed G) :
    mine = [] ∧ G.Knows r ∧ ∀ w, h.state? r = some (.pending w) → w.Performs →
      bold ∧ r ∈ G.shown := by
  cases control with
  | enter known =>
    refine ⟨rfl, .inl known, fun w pending performs => ?_⟩
    exact absurd performs ((sealed.of_state (.inl known) pending).calm known w rfl)
  | action dares known shown => exact ⟨rfl, .inr known, fun _ _ _ => ⟨dares, shown⟩⟩

theorem Script.Sealed.of_done {α : Type} {T : Terms α} {held : Held} {a : α}
    (script : (Script.done a).Sealed T G held) :
    T.ends a ∧ T.post G.bond held (.ok a) (.ok a) := by
  refine ⟨script.safe, ?_⟩
  cases script.knows G G.le_refl with
  | done results => exact results

theorem Script.Sealed.answer {quiet : Prop} {v : Value} {held : Held}
    (script : (Script.done (.value v)).Sealed (.cell quiet) G held) :
    v.Fits ∧ ValueLike .loaded G.bond v v := by
  obtain ⟨fits, settled⟩ := script.of_done
  refine ⟨fits, ?_⟩
  cases settled with
  | ok outcomes =>
    cases outcomes with
    | value values => exact values

theorem Script.Sealed.tail_mem {quiet : Prop} {child : Ref} {held : Held}
    (script : (Script.done (.tail child)).Sealed (.cell quiet) G held) : child ∈ G.cells := by
  cases script.of_done.2 with
  | ok outcomes =>
    cases outcomes with
    | tail tails => exact tails.2

variable {E : Engine} {c c' : Control} {frames frames' : List Frame} {s s' : Store}
variable {mine held behind : List Ref}

theorem Engine.shown_of_handed (control : c.Sealed bold G h mine) (sealed : h.Sealed G) {r : Ref}
    {w : Work} (pending : h.state? r = some (.pending w)) (performs : w.Performs)
    (handed : r ∈ (E.handed h c).map Prod.fst) : r ∈ G.shown := by
  cases c with
  | enter t =>
    have same : r = t := by
      simp only [Engine.handed] at handed
      split at handed <;> simp at handed
      exact handed
    subst same
    exact ((control.takes sealed).2.2 w pending performs).2
  | run cell site script =>
    unfold Engine.handed at handed
    split at handed
    · next entered => cases entered
    · next child ran =>
      cases ran
      have same : r = child := by
        split at handed <;> simp at handed
        exact handed
      subst same
      cases control with
      | run running mine scripts =>
        have known := scripts.tail_mem
        exact absurd performs ((sealed.of_state (.inl known) pending).calm known w rfl)
    · simp at handed
  | give v => simp [Engine.handed] at handed

/-- Each step of a safe forcer leaves it safe and the store sealed. -/
theorem Engine.Advance.sealed (step : E.Advance c frames s c' frames' s')
    (forcing : s.heap.Forcing (c.cells ++ frames.map Frame.cell))
    (apart : (c.cells ++ frames.map Frame.cell).Nodup) (sealed : s.Sealed G)
    (control : c.Sealed bold G s.heap mine) (stack : FramesSealed bold G s.heap held frames)
    (holds : s.heap.Holds (mine ++ (held ++ behind))) :
    ∃ K mine' held', Store.Turned G s (c.cells ++ frames.map Frame.cell) (mine ++ (held ++ behind))
        (fun r => c = .give (.effect r) ∧ awaited? .pure frames = some .effect) s' K
        (c'.cells ++ frames'.map Frame.cell) (mine' ++ (held' ++ behind)) ∧
      c'.Sealed bold K s'.heap mine' ∧ FramesSealed bold K s'.heap held' frames' := by
  have served := step.served forcing apart
  have evolves := served.evolves
  have less : (held ++ behind).Sublist (mine ++ (held ++ behind)) := List.sublist_append_right _ _
  have takes : ∀ r w, s.heap.state? r = some (.pending w) → w.Performs →
      s'.heap.state? r = some (.pending w) ∨ r ∈ G.shown := fun r w pending performs =>
    (served.keeps r w pending).imp id (Engine.shown_of_handed control sealed.heap pending performs)
  have quietly {K : Ken} {mine' held' : List Ref} (grows : G ≤ K) (shown : K.shown = G.shown)
      (sealed' : s'.Sealed K) (passes : s.heap.Passes s'.heap (mine ++ (held ++ behind))
        (mine' ++ (held' ++ behind))) :
      Store.Turned G s (c.cells ++ frames.map Frame.cell) (mine ++ (held ++ behind))
        (fun r => c = .give (.effect r) ∧ awaited? .pure frames = some .effect) s' K
        (c'.cells ++ frames'.map Frame.cell) (mine' ++ (held' ++ behind)) :=
    ⟨grows, sealed', ⟨_, served⟩, passes, fun r mem => .inl (shown ▸ mem), takes⟩
  have publishes {cell : Ref} {site : Option Location} {v : Value} (running : cell ∈ G.cells)
      (owned : s.heap.state? cell = some .forcing) (fits : v.Fits)
      (values : ValueLike .loaded G.bond v v) :
      (s.heap.publish cell (v.through? site)).Sealed G ∧
        s.heap.Passes (s.heap.publish cell (v.through? site)) (mine ++ (held ++ behind))
          (held ++ behind) :=
    ⟨sealed.heap.setState_cell running (fits.through? site) (.forced (values.through site))
      (by simp), holds.passes_setState less owned (by simp) _⟩
  cases step with
  | found forced =>
    obtain ⟨rfl, known, _⟩ := control.takes sealed.heap
    cases (sealed.heap.of_state known forced).known with
    | forced values =>
      exact ⟨G, [], held, quietly G.le_refl rfl sealed (holds.passes_same less),
        .give (sealed.heap.fits _ _ forced) values, stack⟩
  | follow redirect =>
    obtain ⟨rfl, known, _⟩ := control.takes sealed.heap
    cases (sealed.heap.of_state known redirect).known with
    | redirect target =>
      exact ⟨G, [], held, quietly G.le_refl rfl sealed (holds.passes_same less), .enter target,
        stack⟩
  | @start r w _ _ pending =>
    obtain ⟨rfl, known, may⟩ := control.takes sealed.heap
    have grows := G.le_withCells {r}
    have running : r ∈ (G.withCells {r}).cells := .inr rfl
    have sealed' := sealed.heap.setState (c := .forcing) pending trivial .forcing (by simp)
    cases (sealed.heap.of_state known pending).known with
    | pending works =>
      have calm : (G.withCells {r}).Quiet bold r → ¬ w.Performs :=
        fun quiet performs => quiet (may w pending performs)
      have scripts := Work.sealed_script (sealed.heap.fits _ _ pending) calm
        (works.mono (Ken.bond_mono grows)) E.bound
      exact ⟨_, [], held, quietly grows rfl (sealed.with_heap grows sealed')
        (holds.passes_setState less pending (by simp) _), .run running Held.known_nothing scripts,
        stack.mono grows evolves⟩
  | value =>
    cases control with
    | run running known scripts =>
      obtain ⟨fits, values⟩ := scripts.answer
      obtain ⟨sealed', passes⟩ := publishes running (forcing _ (List.mem_cons_self ..)) fits values
      exact ⟨G, [], held, quietly G.le_refl rfl (sealed.with_heap G.le_refl sealed') passes,
        .give (fits.through? _) (values.through _), stack.mono G.le_refl evolves⟩
  | @fault cell site e _ _ =>
    cases control with
    | run running known scripts =>
      have values : ValueLike .loaded G.bond (.error e) (.error e) := .error ⟨rfl, rfl⟩
      have fits : (Value.error e).Fits := trivial
      obtain ⟨sealed', passes⟩ := publishes running (forcing _ (List.mem_cons_self ..)) fits values
      exact ⟨G, [], held, quietly G.le_refl rfl (sealed.with_heap G.le_refl sealed') passes,
        .give (fits.through? site) (values.through site), stack.mono G.le_refl evolves⟩
  | @splice cell child site w _ _ splices pending =>
    cases control with
    | run running known scripts =>
      have child_known := scripts.tail_mem
      have inside := sealed.heap.of_state (.inl child_known) pending
      have sealed' := sealed.heap.setState_cell (c := .redirect cell) child_known trivial
        (.redirect running) (by simp)
      cases inside.known with
      | pending works =>
        have calm : G.Quiet bold cell → ¬ w.Performs := fun _ => inside.calm child_known w rfl
        have scripts' := Work.sealed_script (sealed.heap.fits _ _ pending) calm works E.bound
        exact ⟨G, [], held, quietly G.le_refl rfl (sealed.with_heap G.le_refl sealed')
          (holds.passes_setState less pending (by simp) _),
          .run running Held.known_nothing scripts',
          stack.mono G.le_refl evolves⟩
  | tail keeps =>
    cases control with
    | run running known scripts =>
      exact ⟨G, [], held, quietly G.le_refl rfl sealed (holds.passes_same less),
        .enter scripts.tail_mem, .tail running stack⟩
  | demand =>
    cases control with
    | @run kept cell site script running known scripts =>
      obtain ⟨silent, asked, goesOn⟩ := scripts.asks_cell
      refine ⟨G, [], kept.handles ++ held, quietly G.le_refl rfl sealed ?_, .enter asked,
        .reply running silent known goesOn stack⟩
      rw [List.nil_append, List.append_assoc]
      exact holds.passes_same (.refl _)
  | act =>
    cases control with
    | run running known scripts =>
      obtain ⟨K, held', acted⟩ := scripts.act sealed known holds
      refine ⟨K, held'.handles, held, quietly acted.grows acted.shown acted.sealed acted.passes,
        .run (acted.grows.1 running) acted.mine
          (acted.script.louder (Ken.Quiet.of_le acted.grows)), stack.mono acted.grows evolves⟩
  | pass =>
    cases control with
    | give fits values =>
      cases stack with
      | tail running rest =>
        obtain ⟨sealed', passes⟩ :=
          publishes running (forcing _ (List.mem_cons_self ..)) fits values
        exact ⟨G, [], held, quietly G.le_refl rfl (sealed.with_heap G.le_refl sealed') passes,
          .give (fits.through? _) (values.through _), rest.mono G.le_refl evolves⟩
  | resume reply =>
    cases control with
    | give fits values =>
      cases stack with
      | @reply kept held _ _ _ _ _ _ running silent known goesOn rest =>
        have scripts := goesOn G G.le_refl _ (Demand.replies_of_reply fits reply)
          (Demand.like_of_reply values reply)
        refine ⟨G, kept.handles, held, quietly G.le_refl rfl sealed ?_, .run running known scripts,
          rest⟩
        simpa only [List.nil_append, List.append_assoc] using holds.passes_same (.refl _)
  | @perform cell r action site how next v frames s reply =>
    cases control with
    | give fits values =>
      cases stack with
      | @reply kept held _ _ _ _ _ _ running silent known goesOn rest =>
        obtain ⟨rfl, rfl⟩ := Demand.effect_of_perform reply
        have bold : bold := by
          by_contra meek
          exact absurd (silent fun loud => meek loud.1) (by simp)
        have grows := G.le_withShown action
        refine ⟨G.withShown action, [], kept.handles ++ held,
          ⟨grows, sealed.with_heap grows (sealed.heap.show_action action), ⟨_, served⟩,
            holds.passes_same (.refl _), fun r mem => mem.symm.imp id ?_, takes⟩,
          .action bold (action_mem_of_like values) (Set.mem_insert ..), ?_⟩
        · rintro rfl
          exact ⟨rfl, rfl⟩
        · refine .reply running (fun _ => rfl) (known.mono grows evolves)
            (fun K wider v replies values => ?_) (rest.mono grows evolves)
          exact (goesOn K (Ken.le_trans grows wider) v replies values).louder
            (Ken.Quiet.of_le grows)

end
end CallByNeed
