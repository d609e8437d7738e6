import CallByNeed.Proofs.Renaming.Cells

/- Runs on stores that are the same but for the addresses of their cells. Step by step both sides do
   the same: they ask the same questions, and they end alike, or halt for the same reason. -/
namespace CallByNeed

section
variable (π : Renaming)

inductive Wait.Renamed : Wait → Wait → Prop where
  | tail : Renamed .tail .tail
  | reply {how : Demand} {r : Ref} {next next' : Value → Script Outcome} {held : Held}
      (mine : held.Renamed π)
      (rest : ∀ v v', ValueLike .loaded π.bond v v' →
        ScriptLike .loaded π.bond (Settled .loaded π.bond) held (next v) (next' v')) :
      Renamed (.reply how r next) (.reply how (π.of r) next')

inductive Frame.Renamed : Frame → Frame → Prop where
  | frame (cell : Ref) (site : Option Location) {wait wait' : Wait} (waits : wait.Renamed π wait') :
      Renamed { cell, site, wait } { cell := π.of cell, site, wait := wait' }

inductive Control.Renamed : Control → Control → Prop where
  | enter (r : Ref) : Renamed (.enter r) (.enter (π.of r))
  | run (cell : Ref) (site : Option Location) {held : Held} {script script' : Script Outcome}
      (mine : held.Renamed π)
      (scripts : ScriptLike .loaded π.bond (Settled .loaded π.bond) held script script') :
      Renamed (.run cell site script) (.run (π.of cell) site script')
  | give {v v' : Value} (values : ValueLike .loaded π.bond v v') : Renamed (.give v) (.give v')

inductive Halt.Renamed : Halt → Halt → Prop where
  | exhausted : Renamed .exhausted .exhausted
  | blocked (r : Ref) : Renamed (.blocked r) (.blocked (π.of r))
  | panic (p : Panic) : Renamed (.panic p) (.panic p)

inductive Progress.Renamed : Progress → Progress → Prop where
  | next {c c' : Control} {frames frames' : List Frame} {s s' : Store}
      (control : c.Renamed π c') (stack : List.Forall₂ (Frame.Renamed π) frames frames')
      (stores : s.Renamed π s') : Renamed (.next c frames s) (.next c' frames' s')
  | ask {q : Request} {next next' : q.Answer → Control} {frames frames' : List Frame} {s s' : Store}
      (controls : ∀ a, (next a).Renamed π (next' a))
      (stack : List.Forall₂ (Frame.Renamed π) frames frames') (stores : s.Renamed π s') :
      Renamed (.ask q next frames s) (.ask q next' frames' s')
  | finished {v v' : Value} {s s' : Store} (values : ValueLike .loaded π.bond v v')
      (stores : s.Renamed π s') : Renamed (.finished v s) (.finished v' s')
  | halted {h h' : Halt} {s s' : Store} (halts : h.Renamed π h') (stores : s.Renamed π s') :
      Renamed (.halted h s) (.halted h' s')

/-- Like results, equal faults, or halts for the same reason. -/
inductive Ending.Renamed {α β : Type} (post : α → β → Prop) : Ending α → Ending β → Prop where
  | answer {a : α} {b : β} (results : post a b) : Renamed post (.answer a) (.answer b)
  | fault (e : Fault) : Renamed post (.fault e) (.fault e)
  | halt {h h' : Halt} (halts : h.Renamed π h') : Renamed post (.halt h) (.halt h')

inductive Runner.Renamed {α β : Type} (post : α → β → Prop) : Runner α → Runner β → Prop where
  | ready {held : Held} {script : Script α} {script' : Script β} (mine : held.Renamed π)
      (scripts : ScriptLike .loaded π.bond (Unchanged .loaded post .nothing) held script script') :
      Renamed post (.ready script) (.ready script')
  | forcing {how : Demand} {r : Ref} {next : Value → Script α} {next' : Value → Script β}
      {held : Held} {c c' : Control} {frames frames' : List Frame} (mine : held.Renamed π)
      (rest : ∀ v v', ValueLike .loaded π.bond v v' →
        ScriptLike .loaded π.bond (Unchanged .loaded post .nothing) held (next v) (next' v'))
      (control : c.Renamed π c') (stack : List.Forall₂ (Frame.Renamed π) frames frames') :
      Renamed post (.forcing how r next c frames) (.forcing how (π.of r) next' c' frames')

inductive Runner.Progress.Renamed {α β : Type} (post : α → β → Prop) :
    Runner.Progress α → Runner.Progress β → Prop where
  | next {w : Runner α} {w' : Runner β} {s s' : Store} (runners : w.Renamed π post w')
      (stores : s.Renamed π s') : Renamed post (.next w s) (.next w' s')
  | ask {q : Request} {next : q.Answer → Runner α} {next' : q.Answer → Runner β} {s s' : Store}
      (runners : ∀ a, (next a).Renamed π post (next' a)) (stores : s.Renamed π s') :
      Renamed post (.ask q next s) (.ask q next' s')
  | ended {e : Ending α} {e' : Ending β} {s s' : Store} (endings : e.Renamed π post e')
      (stores : s.Renamed π s') : Renamed post (.ended e s) (.ended e' s')

end

section
variable {π : Renaming} {v v' : Value} {frames frames' : List Frame} {s s' : Store}

namespace Engine
variable {E : Engine}

theorem publish_renamed (cell : Ref) (site : Option Location)
    (values : ValueLike .loaded π.bond v v')
    (stack : List.Forall₂ (Frame.Renamed π) frames frames') (stores : s.Renamed π s') :
    (publish cell site v frames s).Renamed π (publish (π.of cell) site v' frames' s') := by
  have passed := values.through_loaded site
  exact .next (.give passed) stack (stores.with_heap (stores.heap.publish cell passed))

theorem script_renamed {w w' : Work} (works : WorkLike .loaded π.bond w w') (cell : Ref) :
    (Control.run cell w.site (w.task.script E.bound)).Renamed π
      (.run (π.of cell) w'.site (w'.task.script E.bound)) := by
  have empty : Held.nothing.Renamed π := trivial
  rw [works.site]
  exact .run cell w'.site empty (works.task.like_script (.inl rfl))

theorem enter_renamed (r : Ref) (stack : List.Forall₂ (Frame.Renamed π) frames frames')
    (stores : s.Renamed π s') : (E.enter r frames s).Renamed π (E.enter (π.of r) frames' s') := by
  have states := stores.heap.states r
  have started := stores.heap.setState r .forcing
  unfold enter Heap.enter
  generalize s.heap.state? r = o, s'.heap.state? (π.of r) = o' at states
  cases states with
  | none => exact .halted (.panic _) stores
  | some states =>
    cases states with
    | vacant => exact .halted (.panic _) stores
    | pending works => exact .next (script_renamed works r) stack (stores.with_heap started)
    | forcing => exact .halted (.blocked r) stores
    | redirect target => exact .next (.enter target) stack stores
    | forced values => exact .next (.give values) stack stores

theorem tail_renamed (cell child : Ref) (site : Option Location)
    (stack : List.Forall₂ (Frame.Renamed π) frames frames') (stores : s.Renamed π s') :
    (E.run cell site frames s (.done (.tail child))).Renamed π
      (E.run (π.of cell) site frames' s' (.done (.tail (π.of child)))) := by
  have waits : List.Forall₂ (Frame.Renamed π) ({ cell, site, wait := .tail } :: frames)
      ({ cell := π.of cell, site, wait := .tail } :: frames') := .cons (.frame cell site .tail) stack
  have states := stores.heap.states child
  have spliced := stores.heap.setState child (.redirect cell)
  unfold run takeWork Heap.takeWork
  cases E.splices with
  | false => exact .next (.enter child) waits stores
  | true =>
    simp only [↓reduceIte]
    generalize s.heap.state? child = o, s'.heap.state? (π.of child) = o' at states
    cases states with
    | none => exact .next (.enter child) waits stores
    | some states =>
      cases states with
      | pending works => exact .next (script_renamed works cell) stack (stores.with_heap spliced)
      | vacant => exact .next (.enter child) waits stores
      | forcing => exact .next (.enter child) waits stores
      | redirect target => exact .next (.enter child) waits stores
      | forced values => exact .next (.enter child) waits stores

theorem run_renamed (cell : Ref) (site : Option Location) {held : Held}
    {script script' : Script Outcome} (mine : held.Renamed π)
    (scripts : ScriptLike .loaded π.bond (Settled .loaded π.bond) held script script')
    (stack : List.Forall₂ (Frame.Renamed π) frames frames') (stores : s.Renamed π s') :
    (E.run cell site frames s script).Renamed π (E.run (π.of cell) site frames' s' script') := by
  cases script with
  | done outcome =>
    cases scripts with
    | done results =>
      cases results with
      | ok outcomes =>
        cases outcomes with
        | value values => exact publish_renamed cell site values stack stores
        | tail tails =>
          obtain rfl := tails
          exact tail_renamed cell _ site stack stores
  | raise e =>
    cases scripts with
    | raise results =>
      cases results with
      | error faults => exact publish_renamed cell site (.error faults) stack stores
  | panic p =>
    cases scripts
    exact .halted (.panic p) stores
  | stall =>
    cases scripts with
    | stall stops =>
      obtain rfl := stops.resolve_left id
      exact .halted .exhausted stores
  | demand how r next =>
    cases scripts with
    | demand hosted cells rest =>
      obtain rfl := cells
      exact .next (.enter r) (.cons (.frame cell site (.reply mine rest)) stack) stores
  | act a next =>
    obtain ⟨a', next', rfl, held', acted⟩ := stores.act mine scripts
    exact .next (.run cell site acted.mine acted.scripts) stack acted.stores
  | ask q next =>
    cases scripts with
    | ask hosted rest => exact .ask (fun a => .run cell site mine (rest a)) stack stores

theorem give_renamed (values : ValueLike .loaded π.bond v v')
    (stack : List.Forall₂ (Frame.Renamed π) frames frames') (stores : s.Renamed π s') :
    (give v s frames).Renamed π (give v' s' frames') := by
  cases stack with
  | nil => exact .finished values stores
  | cons first stack =>
    cases first with
    | frame cell site waits =>
      cases waits with
      | tail => exact publish_renamed cell site values stack stores
      | @reply how r next next' held mine rest =>
        simp only [give, ← stores.heap.sites r]
        rcases how.reply_loaded (s.heap.site? r) values with
          ⟨u, u', left, right, resumed⟩ | ⟨action, _, left, right, rfl⟩
        · rw [left, right]
          exact .next (.run cell site mine (rest u u' resumed)) stack stores
        · rw [left, right]
          exact .next (.enter action) (.cons (.frame cell site (.reply mine rest)) stack) stores

theorem step_renamed {c c' : Control} (control : c.Renamed π c')
    (stack : List.Forall₂ (Frame.Renamed π) frames frames') (stores : s.Renamed π s') :
    (E.step c frames s).Renamed π (E.step c' frames' s') := by
  cases control with
  | enter r => exact enter_renamed r stack stores
  | run cell site mine scripts => exact run_renamed cell site mine scripts stack stores
  | give values => exact give_renamed values stack stores

end Engine

namespace Runner
variable {E : Engine} {α β : Type} {post : α → β → Prop} {w : Runner α} {w' : Runner β}

theorem step_ready_renamed {held : Held} {script : Script α} {script' : Script β}
    (mine : held.Renamed π)
    (scripts : ScriptLike .loaded π.bond (Unchanged .loaded post .nothing) held script script')
    (stores : s.Renamed π s') :
    ((Runner.ready script).step E s).Renamed π post ((Runner.ready script').step E s') := by
  cases script with
  | done a =>
    cases scripts with
    | done results =>
      cases results.2 with
      | ok results => exact .ended (.answer results) stores
  | raise e =>
    cases scripts with
    | raise results =>
      cases results.2 with
      | error faults =>
        obtain rfl := eq_of_faultLike faults
        exact .ended (.fault _) stores
  | panic p =>
    cases scripts
    exact .ended (.halt (.panic p)) stores
  | stall =>
    cases scripts with
    | stall stops =>
      obtain rfl := stops.resolve_left id
      exact .ended (.halt .exhausted) stores
  | demand how r next =>
    cases scripts with
    | demand hosted cells rest =>
      obtain rfl := cells
      exact .next (.forcing mine rest (.enter r) .nil) stores
  | act a next =>
    obtain ⟨a', next', rfl, held', acted⟩ := stores.act mine scripts
    exact .next (.ready acted.mine acted.scripts) acted.stores
  | ask q next =>
    cases scripts with
    | ask hosted rest => exact .ask (fun a => .ready mine (rest a)) stores

theorem step_renamed (runners : w.Renamed π post w') (stores : s.Renamed π s') :
    (w.step E s).Renamed π post (w'.step E s') := by
  cases runners with
  | ready mine scripts => exact step_ready_renamed mine scripts stores
  | @forcing how r next next' held c c' frames frames' mine rest control stack =>
    have progress := Engine.step_renamed (E := E) control stack stores
    simp only [step]
    generalize E.step c frames s = x, E.step c' frames' s' = y at progress
    cases progress with
    | next control stack stores => exact .next (.forcing mine rest control stack) stores
    | ask controls stack stores => exact .ask (fun a => .forcing mine rest (controls a) stack) stores
    | halted halts stores => exact .ended (.halt halts) stores
    | @finished v v' s s' values stores =>
      simp only [← stores.heap.sites r]
      rcases how.reply_loaded (s.heap.site? r) values with
        ⟨u, u', left, right, resumed⟩ | ⟨action, _, left, right, rfl⟩
      · rw [left, right]
        exact .next (.ready mine (rest u u' resumed)) stores
      · rw [left, right]
        exact .next (.forcing mine rest (.enter action) .nil) stores

/-- In one world both sides come to the same end of the world, with any amount of fuel. -/
theorem run_renamed (fuel : Nat) (runners : w.Renamed π post w') (stores : s.Renamed π s')
    (world : World) :
    ∃ e e' t t' after, (w.run E fuel s : StateM World _) world = ((e, t), after) ∧
      (w'.run E fuel s' : StateM World _) world = ((e', t'), after) ∧ e.Renamed π post e' ∧
      t.Renamed π t' := by
  induction fuel generalizing w w' s s' world with
  | zero => exact ⟨_, _, _, _, world, rfl, rfl, .halt .exhausted, stores⟩
  | succ fuel ih =>
    have progress := step_renamed (E := E) runners stores
    simp only [run]
    generalize w.step E s = x, w'.step E s' = y at progress
    cases progress with
    | next runners stores => exact ih runners stores world
    | @ask q next next' s s' runners stores =>
      exact ih (runners (World.answer q world).1) stores (World.answer q world).2
    | ended endings stores => exact ⟨_, _, _, _, world, rfl, rfl, endings, stores⟩

end Runner
end
end CallByNeed
