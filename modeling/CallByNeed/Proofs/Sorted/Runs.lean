import CallByNeed.Proofs.Likeness.Builtins
import CallByNeed.Proofs.Sorted.Builtins
import CallByNeed.Proofs.Reading.Runs

/- Calls, and the script of every kind of waiting work, among sorted dictionaries. -/
namespace CallByNeed
open Script

namespace Builtin

section
variable {b : Builtin} {bound : Nat} {cells : List Ref}

theorem sorts_one (count : cells.length = 1)
    (each : ∀ r, (b.run bound [r]).Sorts Outcome.Sorted) :
    (b.run bound cells).Sorts Outcome.Sorted := by
  obtain ⟨r, rfl⟩ := List.length_eq_one_iff.1 count
  exact each r

theorem sorts_two (count : cells.length = 2)
    (each : ∀ r t, (b.run bound [r, t]).Sorts Outcome.Sorted) :
    (b.run bound cells).Sorts Outcome.Sorted := by
  obtain ⟨r, t, rfl⟩ := List.length_eq_two.1 count
  exact each r t

theorem sorts_three (count : cells.length = 3)
    (each : ∀ r t u, (b.run bound [r, t, u]).Sorts Outcome.Sorted) :
    (b.run bound cells).Sorts Outcome.Sorted := by
  obtain ⟨r, t, u, rfl⟩ := List.length_eq_three.1 count
  exact each r t u

end

/-- On a wrong number of cells a builtin panics. -/
theorem sorts_run (bound : Nat) (b : Builtin) (cells : List Ref) :
    (b.run bound cells).Sorts Outcome.Sorted := by
  by_cases count : cells.length = b.signature.arity
  · cases b with
    | sum | product => exact sorts_one count fun _ => (neat_foldNumbers bound _ _ _).answerNumber
    | difference | quotient | floorQuotient =>
      exact sorts_two count fun _ _ => sorts_foldFrom bound _ _ _ _
    | remainder | power => exact sorts_two count fun _ _ => sorts_binary _ _ _
    | isInt => exact sorts_one count fun r => (neat_forceNumber r).answerBool _
    | equal => exact sorts_one count fun _ => sorts_allEqual bound _
    | less | lessEq | greater | greaterEq =>
      exact sorts_one count fun _ => sorts_chained bound _ _ _
    | compare => exact sorts_two count fun _ _ => sorts_compareTwo bound _ _
    | isOrdered => exact sorts_one count fun r => (neat_force r).answerBool _
    | merge => exact sorts_two count fun _ _ => sorts_mergeAll bound _ _
    | append => exact sorts_two count fun _ _ => (neat_allocCall _ _).goOn
    | first =>
      refine sorts_one count fun l => (neat_forceList l).bind fun l => ?_
      exact (LazyList.neat_first l).goOn
    | rest =>
      refine sorts_one count fun l => (neat_forceList l).bind fun l => ?_
      exact (LazyList.neat_rest l).goOn
    | prepend => exact sorts_one count fun _ => sorts_prependAll bound _
    | insert => exact sorts_three count fun _ _ _ => sorts_insertInto bound _ _ _
    | delete => exact sorts_two count fun _ _ => sorts_deleteFrom bound _ _
    | «include» => exact sorts_two count fun _ _ => sorts_includes bound _ _
    | index => exact sorts_two count fun _ _ => sorts_indexOf bound _ _
    | size => exact sorts_one count fun _ => sorts_sizeOf bound _
    | toList => exact sorts_one count fun _ => sorts_toLazyList _
    | list => exact sorts_one count fun _ => sorts_tail _
    | dict => exact sorts_one count fun _ => sorts_dictOf bound _
    | choose =>
      refine sorts_three count fun condition _ _ => ?_
      exact (neat_forceBool condition).bind fun _ => sorts_tail _
    | partialCall => exact sorts_three count fun _ _ _ => sorts_answer (v := .native _) trivial
    | typeOf =>
      refine sorts_one count fun r => (sorts_observe r).bind fun _ _ => ?_
      exact sorts_answer (v := .string _) trivial
    | toStr =>
      refine sorts_one count fun r => (neat_force r).bind fun v => ?_
      exact (Value.neat_text bound v).answerString
    | dump =>
      refine sorts_one count fun r => (neat_force r).bind fun v => ?_
      exact (Value.neat_dump bound v).answerString
    | error => exact sorts_two count fun _ _ => sorts_raiseCustom _ _
    | «catch» => exact sorts_one count fun _ => sorts_catchFault _
    | fix => exact sorts_one count fun _ => sorts_fixedPoint _
    | fixAll => exact sorts_one count fun _ => sorts_fixedPoints bound _
    | seq => exact sorts_two count fun _ _ => sorts_inSequence bound _ _
    | effectSeq => exact sorts_two count fun _ _ => sorts_effectsInSequence bound _ _
    | par => exact sorts_two count fun _ _ => sorts_inParallel bound _ _
    | rally => exact sorts_one count fun _ => sorts_rallyAll bound _
    | write =>
      match cells with
      | [_, _, _, _, _] => exact sorts_writeTo bound _ _ _ _ _
    | read => exact sorts_one count fun _ => sorts_readFrom _
  · rw [run_of_length_ne bound b cells count]
    trivial

end Builtin

theorem Body.sorts_run (bound : Nat) (body : Body) (cells : List Ref) :
    (body.run bound cells).Sorts Outcome.Sorted := by
  cases body with
  | builtin b => exact b.sorts_run bound cells
  | code bindings result =>
    exact (Expr.neat_bindLocals bindings cells).bind fun locals =>
      (Expr.neat_interpret locals result).goOn
  | parameter i =>
    simp only [Body.run]
    split
    · exact sorts_tail _
    · trivial
  | parameters => exact (LazyList.neat_ofRefs cells).answerList

theorem Value.sorts_call (bound : Nat) (v : Value) (a : Arguments) :
    (v.call bound a).Sorts Outcome.Sorted := by
  cases v with
  | function f =>
    refine (f.signature.neat_bind a).bind fun parameters => ?_
    split
    · refine (neat_alloc (c := .ofSuspension (.action _ _)) trivial).bind fun action => ?_
      exact sorts_answer (v := .effect action) trivial
    · exact f.body.sorts_run bound parameters
  | native f =>
    cases f with
    | partialCall f positionals keywords =>
      exact (Arguments.neat_merge _ _).bind fun _ => (neat_allocOfCall _ _ _).goOn
    | fixedPoint f self =>
      exact (Arguments.neat_merge _ _).bind fun _ => (neat_allocOfCall _ _ _).goOn
  | list l =>
    refine (indexSignature.neat_bind a).bind fun parameters => ?_
    cases parameters with
    | nil => trivial
    | cons place rest => exact (neat_forceNumber place).bind fun _ => (LazyList.neat_index _ _).goOn
  | dict d =>
    refine (indexSignature.neat_bind a).bind fun parameters => ?_
    cases parameters with
    | nil => trivial
    | cons key rest => exact (neat_force key).bind fun _ => (Dict.neat_lookUp _ _ _).goOn
  | _ => exact sorts_fail _

theorem Suspension.sorts_script {s : Suspension} (sorted : s.Sorted) (bound : Nat) :
    (s.script bound).Sorts Outcome.Sorted := by
  cases s with
  | branch b matched =>
    refine (neat_force matched).bind fun v => (Key.neat_ofValue bound v).attempt.bind fun key => ?_
    exact (b.neat_select key).bind fun e => (Expr.neat_interpret _ e).goOn
  | concat tail rest =>
    exact (neat_forceList tail).bind fun l => (LazyList.neat_concat bound l rest).answerList
  | entries es => exact (Dict.neat_listEntries sorted).answerList
  | action body parameters => exact body.sorts_run bound parameters
  | rally id => exact (Builtin.neat_rallyCells bound id).answerList
  | traced label target => exact ⟨trivial, fun _ => sorts_tail target⟩

/-- Whatever work waits in a cell, its script makes sorted dictionaries of sorted ones. -/
theorem Task.sorts_script {t : Task} (sorted : t.Sorted) (bound : Nat) :
    (t.script bound).Sorts Outcome.Sorted := by
  cases t with
  | call function arguments =>
    exact (neat_force function).bind fun v => v.sorts_call bound arguments
  | resume s => exact s.sorts_script sorted bound

/-! ### Runs

Runs among sorted dictionaries. Each step of the engine, and of a runner, leaves a heap in which all
dictionaries are sorted if they were before it, so every run does. -/

def Wait.Sorted : Wait → Prop
  | .reply _ _ next => ∀ v, v.Sorted → (next v).Sorts Outcome.Sorted
  | .tail => True

def Control.Sorted : Control → Prop
  | .enter _ => True
  | .run _ _ script => script.Sorts Outcome.Sorted
  | .give v => v.Sorted

section
variable {h : Heap} {r : Ref}

namespace Heap

theorem sorted_of_cells (sorted : ∀ c ∈ h.cells, c.state.Sorted) : h.Sorted := by
  intro r s known
  obtain ⟨c, found, rfl⟩ := Option.map_eq_some_iff.1 known
  exact sorted c (Array.mem_of_getElem? found)

theorem Sorted.alloc (sorted : h.Sorted) {c : Cell} (made : c.state.Sorted) :
    (h.alloc c).2.Sorted := by
  intro t s known
  rw [state?_alloc] at known
  split at known
  · cases known
    exact made
  · exact sorted t s known

theorem Sorted.setState (sorted : h.Sorted) {s : CellState} (made : s.Sorted) :
    (h.setState r s).Sorted := by
  intro t s' known
  rw [state?_setState] at known
  split at known
  · obtain ⟨_, _, rfl⟩ := Option.map_eq_some_iff.1 known
    exact made
  · exact sorted t s' known

theorem Sorted.publish (sorted : h.Sorted) {v : Value} (value : v.Sorted) :
    (h.publish r v).Sorted :=
  sorted.setState value

theorem Sorted.fill (sorted : h.Sorted) (handle target : Ref) :
    (h.fill handle target).2.Sorted := by
  unfold Heap.fill
  split
  · exact sorted.setState trivial
  · exact sorted

end Heap

theorem Store.sorted_act {s : Store} (sorted : s.heap.Sorted) {a : Action} (made : a.Sorted) :
    (s.act a).2.heap.Sorted := by
  cases a with
  | alloc c => exact sorted.alloc made
  | fill handle target => exact sorted.fill handle target
  | trace | submit | openRally => exact sorted
  | pollRally id | listRally id i =>
    simp only [act]
    split <;> exact sorted

/-- A demand makes no dictionary of its own. -/
theorem Demand.sorted_reply {how : Demand} {site : Option Location} {v u : Value}
    (reply : how.reply site v = .resume u) (sorted : v.Sorted) : u.Sorted := by
  cases how <;> cases v <;> cases reply <;> first | exact sorted | trivial

end

/-- What the engine makes, for itself and for those who wait, as long as it finds sorted values. -/
structure Engine.Sorts (c : Control) (frames : List Frame) : Prop where
  control : c.Sorted
  frames : ∀ f ∈ frames, f.wait.Sorted

theorem Engine.Advance.sorts {E : Engine} {c c' : Control} {frames frames' : List Frame}
    {s s' : Store} (step : E.Advance c frames s c' frames' s') (heap : s.heap.Sorted)
    (sorts : Engine.Sorts c frames) : s'.heap.Sorted ∧ Engine.Sorts c' frames' := by
  obtain ⟨control, waits⟩ := sorts
  cases step with
  | found forced => exact ⟨heap, heap _ _ forced, waits⟩
  | follow => exact ⟨heap, trivial, waits⟩
  | start pending =>
    exact ⟨heap.setState trivial, Task.sorts_script (heap _ _ pending) _, waits⟩
  | value =>
    have value (site : Option Location) := Value.sorted_through? control site
    exact ⟨heap.publish (value _), value _, waits⟩
  | fault => exact ⟨heap.publish trivial, trivial, waits⟩
  | splice _ pending =>
    exact ⟨heap.setState trivial, Task.sorts_script (heap _ _ pending) _, waits⟩
  | tail => exact ⟨heap, trivial, List.forall_mem_cons.2 ⟨trivial, waits⟩⟩
  | demand => exact ⟨heap, trivial, List.forall_mem_cons.2 ⟨control, waits⟩⟩
  | act => exact ⟨Store.sorted_act heap control.1, control.2 _, waits⟩
  | pass =>
    have value (site : Option Location) := Value.sorted_through? control site
    exact ⟨heap.publish (value _), value _, (List.forall_mem_cons.1 waits).2⟩
  | resume reply =>
    obtain ⟨next, waits⟩ := List.forall_mem_cons.1 waits
    exact ⟨heap, next _ (Demand.sorted_reply reply control), waits⟩
  | perform reply =>
    obtain ⟨next, waits⟩ := List.forall_mem_cons.1 waits
    exact ⟨heap, trivial, List.forall_mem_cons.2 ⟨next, waits⟩⟩

namespace Runner
variable {α : Type} {post : α → Prop} {E : Engine} {w w' : Runner α} {s s' : Store}

/-- As long as it finds sorted values, the runner makes sorted ones, and it ends with what satisfies
    `post`. -/
inductive Sorts (post : α → Prop) : Runner α → Prop where
  | ready {script : Script α} (sorts : script.Sorts post) : Sorts post (.ready script)
  | forcing {how : Demand} {r : Ref} {next : Value → Script α} {c : Control} {frames : List Frame}
      (sorts : ∀ v, v.Sorted → (next v).Sorts post) (engine : Engine.Sorts c frames) :
      Sorts post (.forcing how r next c frames)

theorem sorts_demand {how : Demand} {r : Ref} {next : Value → Script α}
    (sorts : ∀ v, v.Sorted → (next v).Sorts post) : (Runner.demand how r next).Sorts post :=
  .forcing sorts ⟨trivial, by simp⟩

theorem Advance.sorts (step : w.Advance E s w' s') (heap : s.heap.Sorted) (sorts : w.Sorts post) :
    s'.heap.Sorted ∧ w'.Sorts post := by
  cases step with
  | demand =>
    cases sorts with
    | ready sorts => exact ⟨heap, sorts_demand sorts⟩
  | act =>
    cases sorts with
    | ready sorts => exact ⟨Store.sorted_act heap sorts.1, .ready (sorts.2 _)⟩
  | engine step =>
    cases sorts with
    | forcing sorts engine =>
      obtain ⟨heap, engine⟩ := step.sorts heap engine
      exact ⟨heap, .forcing sorts engine⟩
  | resume reply =>
    cases sorts with
    | forcing sorts engine =>
      exact ⟨heap, .ready (sorts _ (Demand.sorted_reply reply engine.control))⟩
  | perform reply =>
    cases sorts with
    | forcing sorts engine => exact ⟨heap, sorts_demand sorts⟩

theorem Sorts.ask {q : Request} {next : q.Answer → Runner α} (sorts : w.Sorts post)
    (step : w.step E s = .ask q next s') (x : q.Answer) : s' = s ∧ (next x).Sorts post := by
  obtain ⟨rfl, ⟨rest, rfl, rfl⟩ | ⟨how, r, rest, cell, site, script, frames, rfl, rfl⟩⟩ :=
    of_ask step
  · cases sorts with
    | ready sorts => exact ⟨rfl, .ready (sorts x)⟩
  · cases sorts with
    | forcing sorts engine => exact ⟨rfl, .forcing sorts ⟨engine.control x, engine.frames⟩⟩

/-- However a run ends, the heap that it leaves is sorted. -/
theorem Sorts.leaves (sorts : w.Sorts post) (heap : s.heap.Sorted) {world world' : World}
    {o : Except Fault α} (leaves : w.Leaves E s world o s' world') :
    s'.heap.Sorted ∧ ∀ a, o = .ok a → post a := by
  refine Leaves.induct (motive := fun w s _ => s.heap.Sorted → w.Sorts post → s'.heap.Sorted ∧
    ∀ a, o = .ok a → post a) ?_ ?_ ?_ leaves heap sorts
  · intro heap sorts
    refine ⟨heap, ?_⟩
    rintro a rfl
    cases sorts with
    | ready sorts => exact sorts
  · intro w w₁ s s₁ world step _ ih heap sorts
    obtain ⟨heap, sorts⟩ := step.sorts heap sorts
    exact ih heap sorts
  · intro w s s₁ world q next step ih heap sorts
    obtain ⟨rfl, sorts⟩ := sorts.ask step (World.answer q world).1
    exact ih heap sorts

end Runner

theorem Script.Sorts.leaves {α : Type} {post : α → Prop} {m : Script α} {E : Engine} {s s' : Store}
    {w w' : World} {o : Except Fault α} (sorts : m.Sorts post) (heap : s.heap.Sorted)
    (leaves : m.Leaves E s w o s' w') : s'.heap.Sorted ∧ ∀ a, o = .ok a → post a :=
  (Runner.Sorts.ready sorts).leaves heap leaves

end CallByNeed
