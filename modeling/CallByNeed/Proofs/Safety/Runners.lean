import CallByNeed.Proofs.Safety.Steps

/- Safe runners. A runner may begin with a demand for the result of an effect if it is bold; after that
   its own script demands values only, so all that is written is written by the cells it forces. -/
namespace CallByNeed

/-- The runner is safe, and these are the handles that it holds. -/
inductive Runner.Sealed {α : Type} (bold : Prop) (T : Terms α) (G : Ken) (h : Heap) :
    List Ref → Runner α → Prop where
  | ready {held : Held} {script : Script α} (mine : held.Known G h)
      (scripts : script.Sealed T G held) : Sealed bold T G h held.handles (.ready script)
  | performs {r : Ref} {next : Value → Script α} (dares : bold) (known : r ∈ G.cells)
      (goesOn : Resumes T G .nothing next) :
      Sealed bold T G h [] (.ready (.demand .effect r next))
  | forcing {own : Held} {run held : List Ref} {how : Demand} {r : Ref} {next : Value → Script α}
      {c : Control} {frames : List Frame} (dares : how = .effect → bold) (mine : own.Known G h)
      (goesOn : Resumes T G own next) (control : c.Sealed bold G h run)
      (stack : FramesSealed bold G h held frames) :
      Sealed bold T G h (run ++ (held ++ own.handles)) (.forcing how r next c frames)

/-- The runner is in the script of the cell. -/
def Runner.Runs {α : Type} (w : Runner α) (cell : Ref) : Prop :=
  match w with
  | .forcing _ _ _ (.run running _ _) _ => running = cell
  | _ => False

section
variable {α : Type} {bold : Prop} {T : Terms α} {G K : Ken} {h h' : Heap} {mine : List Ref}
variable {E : Engine} {w w' : Runner α} {s s' : Store}

theorem Runner.Sealed.mono (grows : G ≤ K) (evolves : h.Evolves h')
    (runner : w.Sealed bold T G h mine) : w.Sealed bold T K h' mine := by
  cases runner with
  | ready mine scripts => exact .ready (mine.mono grows evolves) (scripts.mono grows)
  | performs dares known goesOn =>
    exact .performs dares (grows.1 known) fun L wider => goesOn L (Ken.le_trans grows wider)
  | forcing dares mine goesOn control stack =>
    exact .forcing dares (mine.mono grows evolves)
      (fun L wider => goesOn L (Ken.le_trans grows wider)) (control.mono grows evolves)
      (stack.mono grows evolves)

/-- The store stays as it is, and so does what is being forced. -/
theorem Store.turned_same {owned owned' mine mine' : List Ref} {shows : Ref → Prop}
    (sealed : s.Sealed G) (forcing : s.heap.Forcing owned) (same : owned' = owned)
    (holds : s.heap.Holds mine) (fewer : mine'.Sublist mine) :
    Store.Turned G s owned mine shows s G owned' mine' :=
  ⟨G.le_refl, sealed, ⟨[], by rw [same]; exact Heap.served_same forcing⟩, holds.passes_same fewer,
    fun _ mem => .inl mem, fun _ _ pending _ => .inl pending⟩

theorem awaited?_of_pure {how : Demand} {frames : List Frame}
    (awaited : awaited? .pure frames = some .effect) : awaited? how frames = some .effect := by
  cases frames with
  | nil => cases awaited
  | cons f frames =>
    obtain ⟨cell, site, wait⟩ := f
    cases wait <;> exact awaited

/-- Each step of a safe runner leaves it safe and the store sealed. -/
theorem Runner.Advance.sealed (quiet : T.quiet) (step : w.Advance E s w' s')
    (forcing : s.heap.Forcing w.owned) (apart : w.owned.Nodup) (sealed : s.Sealed G)
    (runner : w.Sealed bold T G s.heap mine) (holds : s.heap.Holds mine) :
    ∃ K mine', Store.Turned G s w.owned mine w.Shows s' K w'.owned mine' ∧
      w'.Sealed bold T K s'.heap mine' := by
  cases step with
  | demand =>
    cases runner with
    | @ready held _ known scripts =>
      obtain ⟨silent, asked, goesOn⟩ := scripts.asks_cell
      have pure := silent quiet
      refine ⟨G, _, Store.turned_same sealed forcing rfl holds (.refl _), ?_⟩
      exact .forcing (fun effect => by simp [pure] at effect) known goesOn (.enter asked) .nil
    | performs dares known goesOn =>
      refine ⟨G, _, Store.turned_same sealed forcing rfl holds (.refl _), ?_⟩
      exact .forcing (fun _ => dares) Held.known_nothing goesOn (.enter known) .nil
  | @act a next _ =>
    cases runner with
    | @ready held _ known scripts =>
      obtain ⟨K, held', acted⟩ := scripts.act sealed known (by simpa using holds : s.heap.Holds (_ ++ []))
      have served := Store.served_act forcing a
      refine ⟨K, held'.handles, ⟨acted.grows, acted.sealed, ⟨_, served⟩, ?_, ?_, ?_⟩,
        .ready acted.mine acted.script⟩
      · simpa using acted.passes
      · exact fun r mem => .inl (acted.shown ▸ mem)
      · exact fun r work pending _ => (served.keeps r work pending).imp id (by simp)
  | engine step =>
    cases runner with
    | forcing dares known goesOn control stack =>
      obtain ⟨K, run, held, turned, control', stack'⟩ :=
        step.sealed forcing apart sealed control stack holds
      have served := step.served forcing apart
      refine ⟨K, _, ⟨turned.grows, turned.sealed, turned.served, turned.passes, ?_, turned.takes⟩,
        .forcing dares (known.mono turned.grows served.evolves)
          (fun L wider => goesOn L (Ken.le_trans turned.grows wider)) control' stack'⟩
      exact fun r mem => (turned.shown r mem).imp id fun shows =>
        ⟨shows.1, awaited?_of_pure shows.2⟩
  | resume reply =>
    cases runner with
    | forcing dares known goesOn control stack =>
      cases stack with
      | nil =>
        cases control with
        | give fits values =>
          refine ⟨G, _, Store.turned_same sealed forcing rfl holds (.refl _), ?_⟩
          exact .ready known (goesOn G G.le_refl _ (Demand.replies_of_reply fits reply)
            (Demand.like_of_reply values reply))
  | @perform how r action next v _ reply =>
    cases runner with
    | forcing dares known goesOn control stack =>
      cases stack with
      | nil =>
        cases control with
        | give fits values =>
          obtain ⟨rfl, rfl⟩ := Demand.effect_of_perform reply
          have grows := G.le_withShown action
          have turned : Store.Turned G s [] _ (fun _ => False) s G [] _ :=
            Store.turned_same sealed forcing rfl holds (.refl _)
          refine ⟨G.withShown action, _, ⟨grows,
            sealed.with_heap grows (sealed.heap.show_action action), turned.served, turned.passes,
            fun r mem => mem.symm.imp id ?_, turned.takes⟩, .forcing (by simp)
            (known.mono grows s.heap.evolves_refl)
            (fun L wider => goesOn L (Ken.le_trans grows wider))
            (.action (dares rfl) (action_mem_of_like values) (Set.mem_insert ..)) .nil⟩
          rintro rfl
          exact ⟨rfl, rfl⟩

/-- A safe forcer does not panic if all the handles are filled that one may know. -/
theorem Engine.not_panic {c : Control} {frames : List Frame} (filled : ¬ G.gaps)
    (control : c.Sealed bold G s.heap mine) (sealed : s.Sealed G) (p : Panic) :
    E.step c frames s ≠ .halted (.panic p) s' := by
  intro halts
  cases c with
  | enter r =>
    obtain ⟨_, known, _⟩ := control.takes sealed.heap
    obtain ⟨state, found, inside⟩ := sealed.heap.known r known
    simp only [step, enter, Heap.enter, found] at halts
    cases inside.known with
    | vacant gaps => exact filled gaps
    | _ => simp at halts
  | run cell site script =>
    cases control with
    | run running known scripts =>
      cases script with
      | done outcome =>
        cases outcome with
        | value v => cases halts
        | tail child =>
          simp only [step, run] at halts
          split at halts <;> cases halts
      | panic p => exact scripts.safe
      | _ => cases halts
  | give v =>
    simp only [step, give] at halts
    split at halts <;> try split at halts
    all_goals cases halts

theorem Runner.not_panic (filled : ¬ G.gaps) (runner : w.Sealed bold T G s.heap mine)
    (sealed : s.Sealed G) (p : Panic) :
    w.step E s ≠ .ended (.halt (.panic p)) s' := by
  intro halts
  cases runner with
  | @ready _ script known scripts =>
    cases script with
    | panic p => exact scripts.safe
    | _ => cases halts
  | performs dares known goesOn => cases halts
  | forcing dares known goesOn control stack =>
    simp only [step] at halts
    split at halts
    · cases halts
    · cases halts
    · next stuck =>
      cases halts
      exact Engine.not_panic filled control sealed p stuck
    · split at halts <;> cases halts

/-- The host is asked by a script that goes on safely with any answer. To write takes a bold runner
    in the script of a cell that was shown. -/
theorem Runner.sealed_of_ask (quiet : T.quiet) {q : Request} {next : q.Answer → Runner α}
    (asks : w.step E s = .ask q next s') (runner : w.Sealed bold T G s.heap mine) :
    s' = s ∧ (q.Reads ∨ bold ∧ ∃ cell ∈ G.shown, w.Runs cell) ∧
      ∀ a, (next a).Sealed bold T G s.heap mine ∧ (next a).owned = w.owned := by
  have goes_on {β : Type} {T : Terms β} {held : Held} {script : q.Answer → Script β}
      (scripts : (Script.ask q script).Sealed T G held) (a : q.Answer) :
      (script a).Sealed T G held := by
    refine ⟨scripts.safe.2 a, fun K grows => ?_⟩
    cases scripts.knows K grows with
    | ask _ rest => exact rest a
  rcases of_ask asks with ⟨rfl, ⟨script, rfl, rfl⟩ | ⟨how, r, rest, cell, site, script, frames,
    rfl, rfl⟩⟩
  · cases runner with
    | ready known scripts =>
      exact ⟨rfl, .inl (scripts.safe.1 quiet), fun a => ⟨.ready known (goes_on scripts a), rfl⟩⟩
  · cases runner with
    | forcing dares known goesOn control stack =>
      cases control with
      | run running mine scripts =>
        refine ⟨rfl, ?_, fun a => ⟨.forcing dares known goesOn
          (.run running mine (goes_on scripts a)) stack, rfl⟩⟩
        by_cases loud : bold ∧ cell ∈ G.shown
        · exact .inr ⟨loud.1, cell, loud.2, rfl⟩
        · exact .inl (scripts.safe.1 loud)

/-- The turn of a thread that is a runner: the runner steps, or its script has come to an end. -/
theorem Runner.sealed_of_turn (quiet : T.quiet) {τ σ : Type} {thread : Runner α → τ}
    {share : Store → σ} {finish : Except Fault α → σ → Turn τ σ} {threads : List τ} {x : σ}
    (turned : w.turn E thread share finish s = .goOn threads x)
    (forcing : s.heap.Forcing w.owned) (apart : w.owned.Nodup) (sealed : s.Sealed G)
    (runner : w.Sealed bold T G s.heap mine) (holds : s.heap.Holds mine) :
    (∃ w' s' K mine', Store.Turned G s w.owned mine w.Shows s' K w'.owned mine' ∧
      w'.Sealed bold T K s'.heap mine' ∧ threads = [thread w'] ∧ x = share s') ∨
    ∃ a : Except Fault α, w.owned = [] ∧
      (∀ v, a = .ok v → T.ends v ∧ ∃ held, T.post G.bond held (.ok v) (.ok v)) ∧
      finish a (share s) = .goOn threads x := by
  unfold turn at turned
  split at turned
  · next step =>
    cases turned
    obtain ⟨K, mine', went, runner'⟩ :=
      (advance_of_step step).sealed quiet forcing apart sealed runner holds
    exact .inl ⟨_, _, K, mine', went, runner', rfl, rfl⟩
  · cases turned
  · next step =>
    rcases of_ended step with ⟨h, no⟩ | ⟨a, rfl, ending, rfl⟩ | ⟨fault, _, no, _⟩
    · cases no
    · cases ending
      refine .inr ⟨.ok _, rfl, ?_, turned⟩
      rintro _ ⟨⟩
      cases runner with
      | ready known scripts => exact ⟨scripts.of_done.1, _, scripts.of_done.2⟩
    · cases no
  · next step =>
    rcases of_ended step with ⟨h, no⟩ | ⟨a, _, no, _⟩ | ⟨fault, rfl, ending, rfl⟩
    · cases no
    · cases no
    · cases ending
      exact .inr ⟨.error _, rfl, nofun, turned⟩
  · cases turned

theorem Runner.sealed_of_turn_ask (quiet : T.quiet) {τ σ : Type} {thread : Runner α → τ}
    {share : Store → σ} {finish : Except Fault α → σ → Turn τ σ} {q : Request}
    {next : q.Answer → List τ} {x : σ} (turned : w.turn E thread share finish s = .ask q next x)
    (finishes : ∀ a, ∃ threads y, finish a (share s) = .goOn threads y)
    (runner : w.Sealed bold T G s.heap mine) :
    x = share s ∧ (q.Reads ∨ bold ∧ ∃ cell ∈ G.shown, w.Runs cell) ∧
      ∀ a, ∃ w', next a = [thread w'] ∧ w'.Sealed bold T G s.heap mine ∧ w'.owned = w.owned := by
  have never {s'' : Store} (same : s'' = s) {y : Except Fault α} :
      finish y (share s'') ≠ .ask q next x := by
    obtain ⟨_, _, goes_on⟩ := finishes y
    simp [same, goes_on]
  unfold turn at turned
  split at turned
  · cases turned
  · next asks =>
    cases turned
    obtain ⟨rfl, request, answered⟩ := sealed_of_ask quiet asks runner
    exact ⟨rfl, request, fun a => ⟨_, rfl, answered a⟩⟩
  · next step =>
    rcases of_ended step with ⟨h, no⟩ | ⟨_, _, _, same⟩ | ⟨fault, _, no, _⟩
    · cases no
    · exact absurd turned (never same)
    · cases no
  · next step =>
    rcases of_ended step with ⟨h, no⟩ | ⟨_, _, no, _⟩ | ⟨_, _, _, same⟩
    · cases no
    · cases no
    · exact absurd turned (never same)
  · cases turned

end
end CallByNeed
