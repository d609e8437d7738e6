import CallByNeed.Proofs.Engine.Advance
import CallByNeed.Proofs.Known.Acts
import CallByNeed.Proofs.Sharing.Ownership

/- An engine, or a runner, that keeps to known cells goes on doing so. More may be known after a step;
   what others know stays true, because cells only move forward. -/
namespace CallByNeed

inductive Wait.Knows (M : Manner) (G : Set Ref) (h : Heap) : Wait → Prop where
  | reply {how : Demand} {r : Ref} {next : Value → Script Outcome} {held : Held}
      (hosted : how = .effect → M.hosted) (asked : r ∈ G) (mine : held.Within M G h)
      (rest : ∀ K, G ⊆ K → ∀ v, ValueLike M (.among K) v v →
        ScriptLike M (.among K) (Settled M (.among K)) held (next v) (next v)) :
      Knows M G h (.reply how r next)
  | tail : Knows M G h .tail

structure Frame.Knows (M : Manner) (G : Set Ref) (h : Heap) (f : Frame) : Prop where
  cell : f.cell ∈ G
  wait : f.wait.Knows M G h

inductive Control.Knows (M : Manner) (G : Set Ref) (h : Heap) : Control → Prop where
  | enter {r : Ref} (known : r ∈ G) : Knows M G h (.enter r)
  | run {cell : Ref} {site : Option Location} {held : Held} {script : Script Outcome}
      (running : cell ∈ G) (mine : held.Within M G h)
      (scripts : script.Knows M G (Settled M) held) : Knows M G h (.run cell site script)
  | give {v : Value} (values : ValueLike M (.among G) v v) : Knows M G h (.give v)

inductive Runner.Knows {α : Type} (M : Manner) (post : Bond → α → α → Prop) (G : Set Ref)
    (h : Heap) : Runner α → Prop where
  | ready {held : Held} {s : Script α} (mine : held.Within M G h)
      (scripts : s.Knows M G (fun B => Unchanged M (post B) .nothing) held) :
      Knows M post G h (.ready s)
  | forcing {held : Held} {how : Demand} {r : Ref} {next : Value → Script α} {c : Control}
      {frames : List Frame} (hosted : how = .effect → M.hosted) (asked : r ∈ G)
      (mine : held.Within M G h)
      (rest : ∀ K, G ⊆ K → ∀ v, ValueLike M (.among K) v v →
        ScriptLike M (.among K) (Unchanged M (post (.among K)) .nothing) held (next v) (next v))
      (control : c.Knows M G h) (stack : ∀ f ∈ frames, f.Knows M G h) :
      Knows M post G h (.forcing how r next c frames)

section
variable {M : Manner} {G K : Set Ref} {h h' : Heap}

theorem Wait.Knows.mono (grows : G ⊆ K) (evolves : h.Evolves h') {w : Wait}
    (knows : w.Knows M G h) : w.Knows M K h' := by
  cases knows with
  | tail => exact .tail
  | reply hosted asked mine rest =>
    exact .reply hosted (grows asked) (mine.mono grows evolves) fun L wider =>
      rest L (Set.Subset.trans grows wider)

theorem Frame.Knows.mono (grows : G ⊆ K) (evolves : h.Evolves h') {f : Frame}
    (knows : f.Knows M G h) : f.Knows M K h' :=
  ⟨grows knows.cell, knows.wait.mono grows evolves⟩

theorem Control.Knows.mono (grows : G ⊆ K) (evolves : h.Evolves h') {c : Control}
    (knows : c.Knows M G h) : c.Knows M K h' := by
  cases knows with
  | enter known => exact .enter (grows known)
  | run running mine scripts =>
    exact .run (grows running) (mine.mono grows evolves) (scripts.mono grows)
  | give values => exact .give (values.mono (Bond.among_mono grows))

theorem Runner.Knows.mono {α : Type} {post : Bond → α → α → Prop} (grows : G ⊆ K)
    (evolves : h.Evolves h') {w : Runner α} (knows : w.Knows M post G h) :
    w.Knows M post K h' := by
  cases knows with
  | ready mine scripts => exact .ready (mine.mono grows evolves) (scripts.mono grows)
  | forcing hosted asked mine rest control stack =>
    exact .forcing hosted (grows asked) (mine.mono grows evolves)
      (fun L wider => rest L (Set.Subset.trans grows wider)) (control.mono grows evolves)
      fun f member => (stack f member).mono grows evolves

/-- A faulty value that has passed a site mentions no more than before. -/
theorem ValueLike.passed (chains : ∀ l, M.chains l l) {v : Value}
    (values : ValueLike M (.among G) v v) (site : Option Location) :
    ValueLike M (.among G) (v.through? site) (v.through? site) := by
  cases values with
  | error faults => exact .error ⟨rfl, chains _⟩
  | _ => simp only [Value.through?]; constructor <;> assumption

theorem Demand.reply_within (chains : ∀ l, M.chains l l) (how : Demand) (site : Option Location)
    {v : Value} (values : ValueLike M (.among G) v v) :
    (∀ u, how.reply site v = .resume u → ValueLike M (.among G) u u) ∧
      ∀ action, how.reply site v = .perform action → action ∈ G := by
  constructor
  · intro u reply
    cases how <;> cases v <;> cases reply <;>
      first
      | exact values
      | exact .error ⟨rfl, chains _⟩
  · intro action reply
    cases how <;> cases v <;> cases reply
    cases values with
    | effect actions => exact actions.2

end

/-- What is known after a step, given what was known before it. -/
structure Engine.Knew (M : Manner) (G : Set Ref) (s : Store) (c' : Control) (frames' : List Frame)
    (s' : Store) (K : Set Ref) : Prop where
  grows : G ⊆ K
  within : s'.Within M K
  control : c'.Knows M K s'.heap
  stack : ∀ f ∈ frames', f.Knows M K s'.heap
  relinks : s.heap.Relinks s'.heap

section
variable {M : Manner} {G : Set Ref} {E : Engine} {c c' : Control} {frames frames' : List Frame}
variable {s s' : Store}

/-- Nothing new is known. -/
theorem Engine.knew_same (within : s.Within M G) (control : c'.Knows M G s.heap)
    (stack : ∀ f ∈ frames', f.Knows M G s.heap) : Engine.Knew M G s c' frames' s G :=
  ⟨Set.Subset.rfl, within, control, stack, s.heap.relinks_refl⟩

theorem Store.Within.publish (within : s.Within M G) (cell : Ref) {v : Value}
    (values : ValueLike M (.among G) v v) :
    ({ s with heap := s.heap.publish cell v } : Store).Within M G :=
  within.with_heap Set.Subset.rfl (within.heap.setState (.forced values))

theorem Engine.knew_publish (within : s.Within M G) {cell : Ref}
    (forcing : s.heap.state? cell = some .forcing) {v : Value}
    (values : ValueLike M (.among G) v v) (stack : ∀ f ∈ frames', f.Knows M G s.heap) :
    Engine.Knew M G s (.give v) frames' { s with heap := s.heap.publish cell v } G where
  grows := Set.Subset.rfl
  within := within.publish cell values
  control := .give values
  stack := fun f member =>
    (stack f member).mono Set.Subset.rfl (Heap.evolves_publish forcing v)
  relinks := s.heap.relinks_setState cell (by simp)

/-- Each step of a forcer that knows what it does leaves it so. -/
theorem Engine.Advance.knew (hosted : M.hosted) (tidy : ¬ M.strays)
    (chains : ∀ l, M.chains l l) (step : E.Advance c frames s c' frames' s')
    (evolves : s.heap.Evolves s'.heap)
    (forcing : s.heap.Forcing (c.cells ++ frames.map Frame.cell)) (within : s.Within M G)
    (control : c.Knows M G s.heap) (stack : ∀ f ∈ frames, f.Knows M G s.heap) :
    ∃ K, Engine.Knew M G s c' frames' s' K := by
  have scripts_of {w : Work} (works : WorkLike M (.among G) w w) :
      (w.task.script E.bound).Knows M G (Settled M) .nothing := fun K grows =>
    (works.mono (Bond.among_mono grows)).task.like_script (.inl rfl)
  cases step with
  | found forced =>
    cases control with
    | enter known =>
      cases within.heap.of_state known forced with
      | forced values => exact ⟨G, Engine.knew_same within (.give values) stack⟩
  | follow redirect =>
    cases control with
    | enter known =>
      cases within.heap.of_state known redirect with
      | redirect target => exact ⟨G, Engine.knew_same within (.enter target) stack⟩
  | @start r w _ _ pending =>
    cases control with
    | enter known =>
      cases within.heap.of_state known pending with
      | pending works =>
        refine ⟨G, Set.Subset.rfl, ?_, .run known Held.within_nothing (scripts_of works), ?_, ?_⟩
        · exact within.with_heap Set.Subset.rfl (within.heap.setState .forcing)
        · exact fun f member => (stack f member).mono Set.Subset.rfl evolves
        · exact s.heap.relinks_setState r (by simp)
  | value =>
    cases control with
    | run running mine scripts =>
      cases scripts G Set.Subset.rfl with
      | done results =>
        cases results with
        | ok outcomes =>
          cases outcomes with
          | value values =>
            exact ⟨G, Engine.knew_publish within (forcing _ (List.mem_cons_self ..))
              (values.passed chains _) stack⟩
  | @fault cell site e _ _ =>
    have faults : ValueLike M (.among G) (.error (e.through? site)) (.error (e.through? site)) :=
      .error ⟨rfl, chains _⟩
    exact ⟨G, Engine.knew_publish within (forcing _ (List.mem_cons_self ..)) faults stack⟩
  | @splice cell child site w _ _ splices pending =>
    cases control with
    | run running mine scripts =>
      cases scripts G Set.Subset.rfl with
      | done results =>
        cases results with
        | ok outcomes =>
          cases outcomes with
          | tail tails =>
            cases within.heap.of_state tails.2 pending with
            | pending works =>
              refine ⟨G, Set.Subset.rfl, ?_, .run running Held.within_nothing (scripts_of works), ?_, ?_⟩
              · exact within.with_heap Set.Subset.rfl (within.heap.setState (.redirect running))
              · exact fun f member => (stack f member).mono Set.Subset.rfl evolves
              · exact Heap.relinks_splice pending (forcing _ (List.mem_cons_self ..))
  | tail keeps =>
    cases control with
    | run running mine scripts =>
      cases scripts G Set.Subset.rfl with
      | done results =>
        cases results with
        | ok outcomes =>
          cases outcomes with
          | tail tails =>
            refine ⟨G, Engine.knew_same within (.enter tails.2) ?_⟩
            intro f member
            cases member with
            | head => exact ⟨running, .tail⟩
            | tail _ member => exact stack f member
  | demand =>
    cases control with
    | @run _ _ held _ running mine scripts =>
      cases scripts G Set.Subset.rfl with
      | demand hosts cells _ =>
        refine ⟨G, Engine.knew_same within (.enter cells.2) ?_⟩
        intro f member
        cases member with
        | head =>
          refine ⟨running, .reply hosts cells.2 mine fun K grows v values => ?_⟩
          cases scripts K grows with
          | demand _ _ rest => exact rest v v values
        | tail _ member => exact stack f member
  | act =>
    cases control with
    | run running mine scripts =>
      obtain ⟨K, held', acted⟩ := acted_of_act hosted tidy within mine scripts
      refine ⟨K, acted.grows, acted.within, .run (acted.grows running) acted.mine acted.knows, ?_,
        acted.relinks⟩
      exact fun f member => (stack f member).mono acted.grows evolves
  | pass =>
    cases control with
    | give values =>
      refine ⟨G, Engine.knew_publish within (forcing _ (List.mem_cons_self ..))
        (values.passed chains _) fun f member => stack f (List.mem_cons_of_mem _ member)⟩
  | @resume cell r site how next v v' frames s reply =>
    cases control with
    | give values =>
      have top := stack _ (List.mem_cons_self ..)
      cases top.wait with
      | reply hosts asked mine rest =>
        have resumed := (how.reply_within chains (s.heap.site? r) values).1 _ reply
        refine ⟨G, Engine.knew_same within (.run top.cell mine fun K grows => ?_) ?_⟩
        · exact rest K grows v' (resumed.mono (Bond.among_mono grows))
        · exact fun f member => stack f (List.mem_cons_of_mem _ member)
  | @perform cell r action site how next v frames s reply =>
    cases control with
    | give values =>
      have top := stack _ (List.mem_cons_self ..)
      cases top.wait with
      | reply hosts asked mine rest =>
        have known := (how.reply_within chains (s.heap.site? r) values).2 _ reply
        refine ⟨G, Engine.knew_same within (.enter known) fun f member => ?_⟩
        cases member with
        | head => exact ⟨top.cell, .reply (by simp) known mine rest⟩
        | tail _ member => exact stack f (List.mem_cons_of_mem _ member)

end

namespace Runner
variable {α : Type}

/-- The cells that a runner is forcing. -/
def owned : Runner α → List Ref
  | .ready _ => []
  | .forcing _ _ _ c frames => c.cells ++ frames.map Frame.cell

/-- What a runner comes to in one step, for those who watch the heap. -/
structure Went (M : Manner) (post : Bond → α → α → Prop) (G : Set Ref) (w : Runner α) (s : Store)
    (w' : Runner α) (s' : Store) (K : Set Ref) : Prop where
  grows : G ⊆ K
  within : s'.Within M K
  knows : w'.Knows M post K s'.heap
  served : ∃ handed, s.heap.Served s'.heap w.owned w'.owned handed
  relinks : s.heap.Relinks s'.heap

section
variable {M : Manner} {G : Set Ref} {E : Engine} {post : Bond → α → α → Prop}
variable {w w' : Runner α} {s s' : Store}

theorem went_same (within : s.Within M G) (knows : w'.Knows M post G s.heap)
    (forcing : s.heap.Forcing w.owned) (owned : w'.owned = w.owned) :
    Went M post G w s w' s G where
  grows := Set.Subset.rfl
  within := within
  knows := knows
  served := ⟨[], by rw [owned]; exact Heap.served_same forcing⟩
  relinks := s.heap.relinks_refl

theorem went_of_advance (hosted : M.hosted) (tidy : ¬ M.strays) (chains : ∀ l, M.chains l l)
    (step : w.Advance E s w' s') (forcing : s.heap.Forcing w.owned) (apart : w.owned.Nodup)
    (within : s.Within M G) (knows : w.Knows M post G s.heap) :
    ∃ K, Went M post G w s w' s' K := by
  cases step with
  | demand =>
    cases knows with
    | ready mine scripts =>
      cases scripts G Set.Subset.rfl with
      | demand hosts cells _ =>
        refine ⟨G, went_same within ?_ forcing rfl⟩
        refine .forcing hosts cells.2 mine (fun K grows v values => ?_) (.enter cells.2) (by simp)
        cases scripts K grows with
        | demand _ _ rest => exact rest v v values
  | @act a next _ =>
    cases knows with
    | ready mine scripts =>
      obtain ⟨K, held, acted⟩ := acted_of_act hosted tidy within mine scripts
      exact ⟨K, acted.grows, acted.within, .ready acted.mine acted.knows,
        ⟨_, Store.served_act forcing a⟩, acted.relinks⟩
  | engine step =>
    cases knows with
    | forcing hosts asked mine rest control stack =>
      have served := step.served forcing apart
      obtain ⟨K, knew⟩ := step.knew hosted tidy chains served.evolves forcing within control stack
      refine ⟨K, knew.grows, knew.within, ?_, ⟨_, served⟩, knew.relinks⟩
      exact .forcing hosts (knew.grows asked) (mine.mono knew.grows served.evolves)
        (fun L wider => rest L (knew.grows.trans wider)) knew.control knew.stack
  | resume reply =>
    cases knows with
    | forcing hosts asked mine rest control stack =>
      cases control with
      | give values =>
        have resumed := (Demand.reply_within chains _ _ values).1 _ reply
        refine ⟨G, went_same within (.ready mine fun K grows => ?_) forcing rfl⟩
        exact rest K grows _ (resumed.mono (Bond.among_mono grows))
  | perform reply =>
    cases knows with
    | forcing hosts asked mine rest control stack =>
      cases control with
      | give values =>
        have known := (Demand.reply_within chains _ _ values).2 _ reply
        refine ⟨G, went_same within ?_ forcing rfl⟩
        exact .forcing (by simp) known mine rest (.enter known) (by simp)

theorem went_of_ask {q : Request} {next : q.Answer → Runner α}
    (step : w.step E s = .ask q next s') (forcing : s.heap.Forcing w.owned)
    (within : s.Within M G) (knows : w.Knows M post G s.heap) (a : q.Answer) :
    Went M post G w s (next a) s' G := by
  rcases of_ask step with ⟨rfl, ⟨script, rfl, rfl⟩ | ⟨how, r, rest, cell, site, script, frames,
    rfl, rfl⟩⟩
  · cases knows with
    | ready mine scripts =>
      refine went_same within (.ready mine fun K grows => ?_) forcing rfl
      cases scripts K grows with
      | ask _ rest => exact rest a
  · cases knows with
    | forcing hosts asked mine rest control stack =>
      cases control with
      | run running kept scripts =>
        refine went_same within ?_ forcing rfl
        refine .forcing hosts asked mine rest (.run running kept fun K grows => ?_) stack
        cases scripts K grows with
        | ask _ rest => exact rest a

theorem post_of_done {a : α} (knows : (Runner.ready (.done a)).Knows M post G s.heap) :
    post (.among G) a a := by
  cases knows with
  | ready mine scripts =>
    cases scripts G Set.Subset.rfl with
    | done results =>
      cases results.2 with
      | ok results => exact results

/-- A runner that has not begun knows what its script knows. -/
theorem knows_of_alike {script : Script α}
    (alike : ∀ K, G ⊆ K → Alike M (.among K) (post (.among K)) script script) :
    (Runner.ready script).Knows M post G s.heap :=
  .ready Held.within_nothing alike

/-- The turn of a thread that is a runner: the runner steps, or its script has come to an end. -/
theorem went_of_turn (hosted : M.hosted) (tidy : ¬ M.strays) (chains : ∀ l, M.chains l l)
    {τ σ : Type} {thread : Runner α → τ} {share : Store → σ}
    {finish : Except Fault α → σ → Turn τ σ} {threads : List τ} {x : σ}
    (turned : w.turn E thread share finish s = .goOn threads x)
    (forcing : s.heap.Forcing w.owned) (apart : w.owned.Nodup) (within : s.Within M G)
    (knows : w.Knows M post G s.heap) :
    (∃ w' s' K, Went M post G w s w' s' K ∧ threads = [thread w'] ∧ x = share s') ∨
      ∃ a, w.owned = [] ∧ ResultLike M (post (.among G)) a a ∧
        finish a (share s) = .goOn threads x := by
  unfold turn at turned
  split at turned
  · next step =>
    cases turned
    obtain ⟨K, went⟩ := went_of_advance hosted tidy chains (advance_of_step step) forcing apart
      within knows
    exact .inl ⟨_, _, K, went, rfl, rfl⟩
  · cases turned
  · next step =>
    rcases of_ended step with ⟨h, no⟩ | ⟨a, rfl, ending, rfl⟩ | ⟨fault, _, no, _⟩
    · cases no
    · cases ending
      exact .inr ⟨.ok _, rfl, .ok (post_of_done knows), turned⟩
    · cases no
  · next step =>
    rcases of_ended step with ⟨h, no⟩ | ⟨a, _, no, _⟩ | ⟨fault, rfl, ending, rfl⟩
    · cases no
    · cases no
    · cases ending
      exact .inr ⟨.error _, rfl, .error ⟨rfl, chains _⟩, turned⟩
  · cases turned

theorem went_of_turn_ask {τ σ : Type} {thread : Runner α → τ} {share : Store → σ}
    {finish : Except Fault α → σ → Turn τ σ} {q : Request} {next : q.Answer → List τ} {x : σ}
    (turned : w.turn E thread share finish s = .ask q next x)
    (finishes : ∀ a, ∃ threads y, finish a (share s) = .goOn threads y)
    (forcing : s.heap.Forcing w.owned) (within : s.Within M G) (knows : w.Knows M post G s.heap)
    (a : q.Answer) :
    ∃ w' s', Went M post G w s w' s' G ∧ next a = [thread w'] ∧ x = share s' := by
  have never {y : Except Fault α} : finish y (share s) ≠ .ask q next x := by
    obtain ⟨_, _, goes_on⟩ := finishes y
    simp [goes_on]
  unfold turn at turned
  split at turned
  · cases turned
  · next step =>
    cases turned
    exact ⟨_, _, went_of_ask step forcing within knows a, rfl, rfl⟩
  · next step =>
    rcases of_ended step with ⟨h, no⟩ | ⟨_, _, _, rfl⟩ | ⟨fault, _, no, _⟩
    · cases no
    · exact absurd turned never
    · cases no
  · next step =>
    rcases of_ended step with ⟨h, no⟩ | ⟨_, _, no, _⟩ | ⟨_, _, _, rfl⟩
    · cases no
    · cases no
    · exact absurd turned never
  · cases turned

end
end Runner
end CallByNeed
