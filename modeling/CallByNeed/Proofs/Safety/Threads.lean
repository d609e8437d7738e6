import CallByNeed.Proofs.Safety.Runners

/- The threads of a run are safe in any order of their turns. Those that perform outputs are bold, and
   no others. -/
namespace CallByNeed

/-- Each is safe, and these are the handles that they hold. -/
inductive AllSealed {τ : Type} (Safe : List Ref → τ → Prop) : List Ref → List τ → Prop where
  | nil : AllSealed Safe [] []
  | cons {mine others : List Ref} {t : τ} {ts : List τ} (first : Safe mine t)
      (rest : AllSealed Safe others ts) : AllSealed Safe (mine ++ others) (t :: ts)

namespace AllSealed
variable {τ υ : Type} {Safe Safe' : List Ref → τ → Prop}

theorem single {mine : List Ref} {t : τ} (first : Safe mine t) : AllSealed Safe mine [t] := by
  simpa using AllSealed.cons first .nil

theorem imp (weaker : ∀ mine t, Safe mine t → Safe' mine t) {hs : List Ref} {ts : List τ}
    (all : AllSealed Safe hs ts) : AllSealed Safe' hs ts := by
  induction all with
  | nil => exact .nil
  | cons first _ ih => exact .cons (weaker _ _ first) ih

theorem append {hs hs' : List Ref} {ts ts' : List τ} (left : AllSealed Safe hs ts)
    (right : AllSealed Safe hs' ts') : AllSealed Safe (hs ++ hs') (ts ++ ts') := by
  induction left with
  | nil => exact right
  | cons first _ ih =>
    rw [List.append_assoc]
    exact .cons first ih

theorem of_append {hs : List Ref} {ts ts' : List τ} (all : AllSealed Safe hs (ts ++ ts')) :
    ∃ left right, hs = left ++ right ∧ AllSealed Safe left ts ∧ AllSealed Safe right ts' := by
  induction ts generalizing hs with
  | nil => exact ⟨[], hs, rfl, .nil, all⟩
  | cons t ts ih =>
    cases all with
    | cons first rest =>
      obtain ⟨left, right, rfl, before, after⟩ := ih rest
      exact ⟨_, right, by rw [List.append_assoc], .cons first before, after⟩

theorem map {f : τ → υ} {Safe : List Ref → υ → Prop} {hs : List Ref} {ts : List τ}
    (all : AllSealed (fun mine t => Safe mine (f t)) hs ts) : AllSealed Safe hs (ts.map f) := by
  induction all with
  | nil => exact .nil
  | cons first _ ih => exact .cons first ih

theorem of_mem {hs : List Ref} {ts : List τ} (all : AllSealed Safe hs ts) {t : τ} (mem : t ∈ ts) :
    ∃ mine, Safe mine t := by
  induction all with
  | nil => cases mem
  | cons first _ ih =>
    rcases List.mem_cons.1 mem with rfl | later
    · exact ⟨_, first⟩
    · exact ih later

/-- Threads that hold no handle. -/
theorem of_forall {ts : List τ} (each : ∀ t ∈ ts, Safe [] t) : AllSealed Safe [] ts := by
  induction ts with
  | nil => exact .nil
  | cons t ts ih =>
    exact .cons (each t (List.mem_cons_self ..)) (ih fun u mem => each u (List.mem_cons_of_mem _ mem))

end AllSealed

/-- A forced argument has a value, and no effect is one. -/
def Worker.terms : Terms Value := .own Value.Replies fun _ _ _ => True

def Output.walkTerms : Terms LazyList := .own (fun _ => True) LazyListLike

def Output.performTerms : Terms Unit := .own (fun _ => True) fun _ _ _ => True

inductive Worker.Sealed (G : Ken) (h : Heap) : List Ref → Worker → Prop where
  | idle : Sealed G h [] .idle
  | force {mine : List Ref} {job : Job} {w : Runner Value}
      (runner : w.Sealed False terms G h mine) : Sealed G h mine (.force job w)
  | report {job : Job} : Sealed G h [] (.report job)

def Worker.Shows (t : Worker) (r : Ref) : Prop :=
  match t with
  | .force _ w => w.Shows r
  | _ => False

namespace Output
namespace Thread

inductive Sealed (G : Ken) (h : Heap) : List Ref → Thread → Prop where
  | main {outputs : List Output} (cells : ∀ o ∈ outputs, o.cell ∈ G.cells) :
      Sealed G h [] (.main outputs)
  | acquire {mine : List Ref} {cell : Ref} {next : Thread} (known : cell ∈ G.cells)
      (later : Sealed G h mine next) : Sealed G h mine (.acquire cell next)
  | walk {mine : List Ref} {w : Runner LazyList} (runner : w.Sealed False walkTerms G h mine) :
      Sealed G h mine (.walk w)
  | reach {head tail : Ref} (heads : head ∈ G.cells) (tails : tail ∈ G.cells) :
      Sealed G h [] (.reach head tail)
  | perform {mine : List Ref} {w : Runner Unit} (runner : w.Sealed True performTerms G h mine) :
      Sealed G h mine (.perform w)
  | leave : Sealed G h [] .leave
  | work {mine : List Ref} {w : Worker} (worker : w.Sealed G h mine) : Sealed G h mine (.work w)

/-- The thread has asked for the result of an effect and is shown the cell of the effect. -/
def Shows (t : Thread) (r : Ref) : Prop :=
  match t with
  | .walk w => w.Shows r
  | .perform w => w.Shows r
  | .work w => w.Shows r
  | _ => False

/-- The thread performs an output and is in the script of the cell. -/
def Performs (t : Thread) (cell : Ref) : Prop :=
  match t with
  | .perform w => w.Runs cell
  | _ => False

end Thread
end Output

section
variable {G K : Ken} {h h' : Heap} {E : Engine} {s s' : Store} {mine : List Ref}

/-- A runner that has not begun, of a script that demands values only. -/
theorem Runner.sealed_of_gives {α : Type} {bold : Prop} {ends : α → Prop} {post : Bond → α → α → Prop}
    {script : Script α} (gives : script.Gives True none ends)
    (alike : ∀ K, G ≤ K → Alike .loaded K.bond (post K.bond) script script) :
    (Runner.ready script).Sealed bold (.own ends post) G h [] :=
  .ready Held.known_nothing ⟨gives.safe fun _ => id, alike⟩

theorem sealed_observe {r : Ref} (known : r ∈ G.cells) :
    (Runner.ready (observe r)).Sealed False Worker.terms G h [] :=
  Runner.sealed_of_gives (Script.gives_observe r) fun K grows =>
    have cells : K.bond.cells r r := ⟨rfl, grows.1 known⟩
    (Alike.observe cells).imp fun _ _ _ => trivial

theorem sealed_walk {r : Ref} (known : r ∈ G.cells) :
    Output.Thread.Sealed G h [] (.walk (.ready (forceList r))) :=
  .walk (Runner.sealed_of_gives (Script.tame_forceList r) fun _ grows =>
    alike_forceList ⟨rfl, grows.1 known⟩)

theorem sealed_perform {r : Ref} (known : r ∈ G.cells) :
    Output.Thread.Sealed G h [] (.perform (.ready (Output.performCell r))) := by
  refine .perform (.performs trivial known fun K grows v replies values => ⟨?_, fun L wider => ?_⟩)
  · cases v <;> trivial
  · cases values with
    | error faults => exact Alike.raise ⟨rfl, rfl⟩
    | _ => exact Alike.pure trivial

namespace Worker

theorem Sealed.mono (grows : G ≤ K) (evolves : h.Evolves h') {t : Worker}
    (worker : t.Sealed G h mine) : t.Sealed K h' mine := by
  cases worker with
  | idle => exact .idle
  | force runner => exact .force (runner.mono grows evolves)
  | report => exact .report

theorem sealed_of_report (sealed : s.Sealed G) (id i : Nat) : (s.report id i).Sealed G := by
  refine ⟨sealed.heap, sealed.pool, fun y member r argument => ?_⟩
  obtain ⟨j, found⟩ := Array.mem_iff_getElem?.1 member
  rw [Store.report, Array.getElem?_modify] at found
  split at found
  · obtain ⟨z, old, rfl⟩ := Option.map_eq_some_iff.1 found
    exact sealed.rallies z (Array.mem_of_getElem? old) r argument
  · exact sealed.rallies y (Array.mem_of_getElem? found) r argument

/-- What has nothing to do with the heap leaves it as it was. -/
theorem turned_of_same {shows : Ref → Prop} (sealed : s'.Sealed G) (same : s'.heap = s.heap) :
    Store.Turned G s [] [] shows s' G [] [] := by
  have idle : s.heap.Forcing [] := by simp [Heap.Forcing]
  refine ⟨G.le_refl, sealed, ⟨[], ?_⟩, ?_, fun _ mem => .inl mem, ?_⟩
  · rw [same]
    exact Heap.served_same idle
  · rw [same]
    exact Heap.Holds.passes_same ⟨.nil, by simp⟩ (.refl _)
  · rw [same]
    exact fun _ _ pending _ => .inl pending

/-- Whoever has nothing to force takes the oldest job, if there is one. -/
theorem sealed_of_idle (sealed : s.Sealed G) {ws : List Worker}
    (turned : Worker.turn E .idle s = .goOn ws s') :
    Store.Turned G s [] [] (Worker.idle).Shows s' G (ws.flatMap owned) [] ∧
      AllSealed (Worker.Sealed G s'.heap) [] ws := by
  simp only [turn] at turned
  split at turned
  · cases turned
  · next job first =>
    cases turned
    have known : job.target ∈ G.cells := sealed.pool job (Array.mem_of_getElem? first)
    have sealed' : Store.Sealed G { s with pool := s.pool.eraseIdxIfInBounds 0 } := by
      refine ⟨sealed.heap, fun job' member => sealed.pool job' ?_, sealed.rallies⟩
      unfold Array.eraseIdxIfInBounds at member
      split at member
      · exact Array.mem_of_mem_eraseIdx member
      · exact member
    exact ⟨turned_of_same sealed' rfl, .single (.force (sealed_observe known))⟩

theorem sealed_of_goOn {w : Worker} {ws : List Worker} (turned : w.turn E s = .goOn ws s')
    (forcing : s.heap.Forcing w.owned) (apart : w.owned.Nodup) (sealed : s.Sealed G)
    (worker : w.Sealed G s.heap mine) (holds : s.heap.Holds mine) :
    ∃ K mine', Store.Turned G s w.owned mine w.Shows s' K (ws.flatMap owned) mine' ∧
      AllSealed (Worker.Sealed K s'.heap) mine' ws := by
  cases worker with
  | idle => exact ⟨G, [], sealed_of_idle sealed turned⟩
  | @force _ job w runner =>
    simp only [turn] at turned
    rcases Runner.sealed_of_turn trivial turned forcing apart sealed runner holds with
      ⟨w', s'', K, mine', went, runner', rfl, rfl⟩ | ⟨a, nothing, _, finished⟩
    · refine ⟨K, mine', ?_, .single (.force runner')⟩
      rw [List.flatMap_singleton]
      exact went
    · cases finished
      refine ⟨G, [], Store.turned_same sealed forcing nothing.symm holds (List.nil_sublist _), ?_⟩
      exact .single .report
  | report =>
    simp only [turn] at turned
    split at turned
    · cases turned
      exact ⟨G, [], turned_of_same (sealed_of_report sealed _ _) rfl, .single .idle⟩
    · cases turned
      exact ⟨G, [], turned_of_same sealed rfl, .single .idle⟩

theorem sealed_of_ask {w : Worker} {q : Request} {next : q.Answer → List Worker}
    (turned : w.turn E s = .ask q next s') (worker : w.Sealed G s.heap mine) :
    s' = s ∧ q.Reads ∧ ∀ a, (next a).flatMap owned = w.owned ∧
      AllSealed (Worker.Sealed G s.heap) mine (next a) := by
  cases worker with
  | idle =>
    simp only [turn] at turned
    split at turned <;> cases turned
  | @force _ job w runner =>
    simp only [turn] at turned
    obtain ⟨rfl, request, answered⟩ :=
      Runner.sealed_of_turn_ask trivial turned (fun _ => ⟨_, _, rfl⟩) runner
    refine ⟨rfl, request.resolve_right fun loud => loud.1, fun a => ?_⟩
    obtain ⟨w', more, runner', same⟩ := answered a
    rw [more]
    exact ⟨by simpa [owned] using same, .single (.force runner')⟩
  | report =>
    simp only [turn] at turned
    split at turned <;> cases turned

end Worker

namespace Output

theorem Thread.Sealed.mono (grows : G ≤ K) (evolves : h.Evolves h') {t : Thread}
    (thread : t.Sealed G h mine) : t.Sealed K h' mine := by
  induction thread with
  | main cells => exact .main fun o member => grows.1 (cells o member)
  | acquire known _ ih => exact .acquire (grows.1 known) ih
  | walk runner => exact .walk (runner.mono grows evolves)
  | reach heads tails => exact .reach (grows.1 heads) (grows.1 tails)
  | perform runner => exact .perform (runner.mono grows evolves)
  | leave => exact .leave
  | work worker => exact .work (worker.mono grows evolves)

variable {x x' : Shared} {t : Thread}

theorem sealed_of_main {outputs : List Output} {threads : List Thread}
    (turned : Thread.turn E (.main outputs) x = .goOn threads x')
    (cells : ∀ o ∈ outputs, o.cell ∈ G.cells) :
    x'.store = x.store ∧ threads.flatMap Thread.owned = [] ∧
      AllSealed (Thread.Sealed G x.store.heap) [] threads := by
  cases outputs with
  | nil =>
    cases turned
    exact ⟨rfl, rfl, .nil⟩
  | cons o outputs =>
    have first := cells o (List.mem_cons_self ..)
    have others : Thread.Sealed G x.store.heap [] (.main outputs) :=
      .main fun o' member => cells o' (List.mem_cons_of_mem _ member)
    simp only [Thread.turn] at turned
    split at turned
    · cases turned
      exact ⟨rfl, rfl, .nil⟩
    · split at turned
      · cases turned
        exact ⟨rfl, rfl, .cons (sealed_walk first) (.single others)⟩
      · cases turned
        exact ⟨rfl, rfl, .single (.acquire first others)⟩

theorem sealed_of_goOn {threads : List Thread} (turned : t.turn E x = .goOn threads x')
    (forcing : x.store.heap.Forcing t.owned) (apart : t.owned.Nodup) (sealed : x.store.Sealed G)
    (thread : t.Sealed G x.store.heap mine) (holds : x.store.heap.Holds mine) :
    ∃ K mine', Store.Turned G x.store t.owned mine t.Shows x'.store K
        (threads.flatMap Thread.owned) mine' ∧
      AllSealed (Thread.Sealed K x'.store.heap) mine' threads := by
  obtain ⟨store, free, failure⟩ := x
  cases thread with
  | main cells =>
    obtain ⟨same, nothing, all⟩ := sealed_of_main turned cells
    rw [same]
    exact ⟨G, [], Store.turned_same sealed forcing nothing holds (.refl _), all⟩
  | acquire known later =>
    simp only [Thread.turn] at turned
    split at turned
    · cases turned
    · cases turned
      refine ⟨G, _, Store.turned_same sealed forcing ?_ holds (.refl _), ?_⟩
      · simp [Thread.owned, Runner.owned]
      · simpa using AllSealed.cons (sealed_perform known) (.single later)
  | @walk _ w runner =>
    simp only [Thread.turn] at turned
    rcases Runner.sealed_of_turn trivial turned forcing apart sealed runner holds with
      ⟨w', s', K, mine', went, runner', rfl, rfl⟩ | ⟨a, nothing, results, finished⟩
    · refine ⟨K, mine', ?_, .single (.walk runner')⟩
      rw [List.flatMap_singleton]
      exact went
    · have ended {threads : List Thread} (idle : threads.flatMap Thread.owned = []) :
          Store.Turned G store w.owned mine w.Shows store G (threads.flatMap Thread.owned) [] :=
        Store.turned_same sealed forcing (idle.trans nothing.symm) holds (List.nil_sublist mine)
      cases a with
      | error e =>
        cases finished
        exact ⟨G, [], ended rfl, .nil⟩
      | ok l =>
        obtain ⟨_, held, _, listed⟩ := results l rfl
        cases listed with
        | ok lists =>
          cases lists with
          | nil =>
            cases finished
            exact ⟨G, [], ended rfl, .nil⟩
          | cons heads tails =>
            cases finished
            exact ⟨G, [], ended rfl, .single (.reach heads.2 tails.2)⟩
  | reach heads tails =>
    simp only [Thread.turn] at turned
    split at turned
    · cases turned
      exact ⟨G, [], Store.turned_same sealed forcing rfl holds (.refl _), .nil⟩
    · cases turned
      exact ⟨G, [], Store.turned_same sealed forcing rfl holds (.refl _),
        .single (.acquire heads (sealed_walk tails))⟩
  | perform runner =>
    simp only [Thread.turn] at turned
    rcases Runner.sealed_of_turn trivial turned forcing apart sealed runner holds with
      ⟨w', s', K, mine', went, runner', rfl, rfl⟩ | ⟨a, nothing, results, finished⟩
    · refine ⟨K, mine', ?_, .single (.perform runner')⟩
      rw [List.flatMap_singleton]
      exact went
    · cases a <;> cases finished <;>
        exact ⟨G, [], Store.turned_same sealed forcing nothing.symm holds (List.nil_sublist _),
          .single .leave⟩
  | leave =>
    cases turned
    exact ⟨G, [], Store.turned_same sealed forcing rfl holds (.refl _), .nil⟩
  | @work _ w worker =>
    simp only [Thread.turn] at turned
    cases moved : w.turn E store with
    | goOn ws s' =>
      rw [moved] at turned
      cases turned
      obtain ⟨K, mine', worked, all⟩ :=
        Worker.sealed_of_goOn moved forcing apart sealed worker holds
      refine ⟨K, mine', ?_, AllSealed.map (all.imp fun _ _ => .work)⟩
      rw [List.flatMap_map]
      exact worked
    | ask q next s' => rw [moved] at turned; cases turned
    | wait s' => rw [moved] at turned; cases turned

/-- Only a thread that performs an output asks to write, in the script of a cell that was shown. -/
theorem sealed_of_ask {q : Request} {next : q.Answer → List Thread}
    (turned : t.turn E x = .ask q next x') (thread : t.Sealed G x.store.heap mine) :
    x'.store = x.store ∧ (q.Reads ∨ ∃ cell ∈ G.shown, t.Performs cell) ∧
      ∀ a, (next a).flatMap Thread.owned = t.owned ∧
        AllSealed (Thread.Sealed G x.store.heap) mine (next a) := by
  obtain ⟨store, free, failure⟩ := x
  cases thread with
  | @main outputs _ =>
    cases outputs with
    | nil => cases turned
    | cons o outputs =>
      simp only [Thread.turn] at turned
      split at turned
      · cases turned
      · split at turned <;> cases turned
  | acquire _ _ =>
    simp only [Thread.turn] at turned
    split at turned <;> cases turned
  | walk runner =>
    simp only [Thread.turn] at turned
    obtain ⟨rfl, request, answered⟩ := Runner.sealed_of_turn_ask trivial turned (by
      rintro (e | l)
      · exact ⟨_, _, rfl⟩
      · cases l <;> exact ⟨_, _, rfl⟩) runner
    refine ⟨rfl, .inl (request.resolve_right fun loud => loud.1), fun a => ?_⟩
    obtain ⟨w', more, runner', same⟩ := answered a
    rw [more]
    exact ⟨by simpa [Thread.owned] using same, .single (.walk runner')⟩
  | reach _ _ =>
    simp only [Thread.turn] at turned
    split at turned <;> cases turned
  | perform runner =>
    simp only [Thread.turn] at turned
    obtain ⟨rfl, request, answered⟩ := Runner.sealed_of_turn_ask trivial turned (by
      intro a
      cases a <;> exact ⟨_, _, rfl⟩) runner
    refine ⟨rfl, request.imp id fun loud => loud.2, fun a => ?_⟩
    obtain ⟨w', more, runner', same⟩ := answered a
    rw [more]
    exact ⟨by simpa [Thread.owned] using same, .single (.perform runner')⟩
  | leave => cases turned
  | @work _ w worker =>
    simp only [Thread.turn] at turned
    cases moved : w.turn E store with
    | goOn ws s' => rw [moved] at turned; cases turned
    | wait s' => rw [moved] at turned; cases turned
    | ask q' more s' =>
      rw [moved] at turned
      cases turned
      obtain ⟨rfl, request, answered⟩ := Worker.sealed_of_ask moved worker
      refine ⟨rfl, .inl request, fun a => ?_⟩
      obtain ⟨same, all⟩ := answered a
      refine ⟨?_, AllSealed.map (all.imp fun _ _ => .work)⟩
      rw [List.flatMap_map]
      exact same

end Output
end
end CallByNeed
