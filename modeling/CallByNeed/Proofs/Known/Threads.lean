import CallByNeed.Output
import CallByNeed.Proofs.Known.Steps

/- The threads of a run keep to known cells, in any order of their turns. -/
namespace CallByNeed

/-- What a turn comes to for those who watch the heap; `cells` says which cells a thread is forcing,
    and `knows` what it is to keep to known ones. -/
structure Turned {τ : Type} (cells : τ → List Ref) (knows : Set Ref → Heap → τ → Prop) (M : Manner)
    (G : Set Ref) (owned : List Ref) (s : Store) (threads : List τ) (s' : Store) (K : Set Ref) :
    Prop where
  grows : G ⊆ K
  within : s'.Within M K
  knows : ∀ t ∈ threads, knows K s'.heap t
  served : ∃ handed, s.heap.Served s'.heap owned (threads.flatMap cells) handed
  relinks : s.heap.Relinks s'.heap

section
variable {τ : Type} {cells : τ → List Ref} {knows : Set Ref → Heap → τ → Prop} {M : Manner}
variable {G K : Set Ref} {s s' : Store}

/-- The heap stays as it is, and so does what is being forced. -/
theorem turned_same {owned : List Ref} {threads : List τ} (within : s'.Within M G)
    (heap : s'.heap = s.heap) (forcing : s.heap.Forcing owned)
    (same : threads.flatMap cells = owned) (threads_know : ∀ t ∈ threads, knows G s.heap t) :
    Turned cells knows M G owned s threads s' G where
  grows := Set.Subset.rfl
  within := within
  knows := by rw [heap]; exact threads_know
  served := ⟨[], by rw [same, heap]; exact Heap.served_same forcing⟩
  relinks := by rw [heap]; exact s.heap.relinks_refl

theorem turned_of_went {α : Type} {post : Bond → α → α → Prop} {w w' : Runner α} {t : τ}
    (went : Runner.Went M post G w s w' s' K) (owned : cells t = w'.owned)
    (thread_knows : w'.Knows M post K s'.heap → knows K s'.heap t) :
    Turned cells knows M G w.owned s [t] s' K where
  grows := went.grows
  within := went.within
  knows := by
    intro t' member
    rw [List.mem_singleton.1 member]
    exact thread_knows went.knows
  served := by
    obtain ⟨handed, served⟩ := went.served
    exact ⟨handed, by simpa [owned] using served⟩
  relinks := went.relinks

end

namespace Worker

def owned : Worker → List Ref
  | .force _ w => w.owned
  | _ => []

inductive Knows (M : Manner) (G : Set Ref) (h : Heap) : Worker → Prop where
  | idle : Knows M G h .idle
  | force {job : Job} {w : Runner Value} (target : job.target ∈ G)
      (runner : w.Knows M (fun _ _ _ => True) G h) : Knows M G h (.force job w)
  | report {job : Job} (target : job.target ∈ G) : Knows M G h (.report job)

section
variable {M : Manner} {G K : Set Ref} {h h' : Heap} {E : Engine} {s s' : Store} {w : Worker}

theorem Knows.mono (grows : G ⊆ K) (evolves : h.Evolves h') (knows : w.Knows M G h) :
    w.Knows M K h' := by
  cases knows with
  | idle => exact .idle
  | force target runner => exact .force (grows target) (runner.mono grows evolves)
  | report target => exact .report (grows target)

theorem within_of_report (within : s.Within M G) (id i : Nat) : (s.report id i).Within M G := by
  refine ⟨within.heap, within.pool, fun y member r argument => ?_⟩
  obtain ⟨j, found⟩ := Array.mem_iff_getElem?.1 member
  rw [Store.report, Array.getElem?_modify] at found
  split at found
  · obtain ⟨z, old, rfl⟩ := Option.map_eq_some_iff.1 found
    exact within.rallies z (Array.mem_of_getElem? old) r argument
  · exact within.rallies y (Array.mem_of_getElem? found) r argument

/-- Whoever has nothing to force takes the oldest job, if there is one. -/
theorem turned_of_idle (within : s.Within M G) {ws : List Worker}
    (turned : Worker.turn E .idle s = .goOn ws s') :
    Turned owned (Knows M) M G [] s ws s' G := by
  simp only [turn] at turned
  split at turned
  · cases turned
  · next job first =>
    cases turned
    have known : job.target ∈ G := within.pool job (Array.mem_of_getElem? first)
    have rest_within : Store.Within M G { s with pool := s.pool.eraseIdxIfInBounds 0 } := by
      refine ⟨within.heap, fun job' member => within.pool job' ?_, within.rallies⟩
      unfold Array.eraseIdxIfInBounds at member
      split at member
      · exact Array.mem_of_mem_eraseIdx member
      · exact member
    have runner : (Runner.ready (observe job.target)).Knows M (fun _ _ _ => True) G s.heap :=
      Runner.knows_of_alike fun K grows =>
        have cells : (Bond.among K).cells job.target job.target := ⟨rfl, grows known⟩
        (Alike.observe cells).imp fun _ _ _ => trivial
    exact turned_same rest_within rfl (by simp [Heap.Forcing]) rfl (by simpa using .force known runner)

theorem turned_of_goOn (hosted : M.hosted) (tidy : ¬ M.strays) (chains : ∀ l, M.chains l l)
    {ws : List Worker} (turned : w.turn E s = .goOn ws s') (forcing : s.heap.Forcing w.owned)
    (apart : w.owned.Nodup) (within : s.Within M G) (knows : w.Knows M G s.heap) :
    ∃ K, Turned owned (Knows M) M G w.owned s ws s' K := by
  cases knows with
  | idle => exact ⟨G, turned_of_idle within turned⟩
  | @force job w target runner =>
    simp only [turn] at turned
    rcases Runner.went_of_turn hosted tidy chains turned forcing apart within runner with
      ⟨w', s'', K, went, rfl, rfl⟩ | ⟨a, nothing, _, finished⟩
    · exact ⟨K, turned_of_went went rfl (.force (went.grows target))⟩
    · cases finished
      refine ⟨G, turned_same within rfl forcing nothing.symm ?_⟩
      simpa using .report target
  | report target =>
    simp only [turn] at turned
    split at turned
    · cases turned
      exact ⟨G, turned_same (within_of_report within _ _) rfl forcing rfl (by simpa using .idle)⟩
    · cases turned
      exact ⟨G, turned_same within rfl forcing rfl (by simpa using .idle)⟩

theorem turned_of_ask {q : Request} {next : q.Answer → List Worker}
    (turned : w.turn E s = .ask q next s') (forcing : s.heap.Forcing w.owned)
    (within : s.Within M G) (knows : w.Knows M G s.heap) (a : q.Answer) :
    Turned owned (Knows M) M G w.owned s (next a) s' G := by
  cases knows with
  | idle =>
    simp only [turn] at turned
    split at turned <;> cases turned
  | @force job w target runner =>
    simp only [turn] at turned
    obtain ⟨w', s'', went, more, rfl⟩ :=
      Runner.went_of_turn_ask turned (fun _ => ⟨_, _, rfl⟩) forcing within runner a
    rw [more]
    exact turned_of_went went rfl (.force target)
  | report target =>
    simp only [turn] at turned
    split at turned <;> cases turned

end
end Worker

namespace Output

namespace Thread

/-- The cells that a thread is forcing. -/
def owned : Thread → List Ref
  | .acquire _ next => next.owned
  | .walk w => w.owned
  | .perform w => w.owned
  | .work w => w.owned
  | _ => []

inductive Knows (M : Manner) (G : Set Ref) (h : Heap) : Thread → Prop where
  | main {outputs : List Output} (cells : ∀ o ∈ outputs, o.cell ∈ G) : Knows M G h (.main outputs)
  | acquire {cell : Ref} {next : Thread} (known : cell ∈ G) (later : Knows M G h next) :
      Knows M G h (.acquire cell next)
  | walk {w : Runner LazyList} (runner : w.Knows M (fun B => LazyListLike B) G h) :
      Knows M G h (.walk w)
  | reach {head tail : Ref} (heads : head ∈ G) (tails : tail ∈ G) : Knows M G h (.reach head tail)
  | perform {w : Runner Unit} (runner : w.Knows M (fun _ _ _ => True) G h) :
      Knows M G h (.perform w)
  | leave : Knows M G h .leave
  | work {w : Worker} (worker : w.Knows M G h) : Knows M G h (.work w)

end Thread

section
variable {M : Manner} {G K : Set Ref} {h h' : Heap} {E : Engine} {t : Thread} {x x' : Shared}

theorem Thread.Knows.mono (grows : G ⊆ K) (evolves : h.Evolves h') (knows : t.Knows M G h) :
    t.Knows M K h' := by
  induction knows with
  | main cells => exact .main fun o member => grows (cells o member)
  | acquire known _ ih => exact .acquire (grows known) ih
  | walk runner => exact .walk (runner.mono grows evolves)
  | reach heads tails => exact .reach (grows heads) (grows tails)
  | perform runner => exact .perform (runner.mono grows evolves)
  | leave => exact .leave
  | work worker => exact .work (worker.mono grows evolves)

theorem knows_walk {r : Ref} (known : r ∈ G) :
    Thread.Knows M G h (.walk (.ready (forceList r))) :=
  .walk (.ready Held.within_nothing fun _ grows => alike_forceList ⟨rfl, grows known⟩)

theorem knows_perform (hosted : M.hosted) {r : Ref} (known : r ∈ G) :
    Thread.Knows M G h (.perform (.ready (performCell r))) := by
  refine .perform (.ready Held.within_nothing fun K grows => ?_)
  have cells : (Bond.among K).cells r r := ⟨rfl, grows known⟩
  refine (Alike.perform hosted cells).bind fun v v' values => ?_
  cases values with
  | error faults => exact .raise faults
  | _ => exact .pure trivial

theorem turned_of_main {outputs : List Output} {threads : List Thread}
    (turned : Thread.turn E (.main outputs) x = .goOn threads x') (within : x.store.Within M G)
    (cells : ∀ o ∈ outputs, o.cell ∈ G) :
    Turned Thread.owned (Thread.Knows M) M G [] x.store threads x'.store G := by
  have idle : x.store.heap.Forcing [] := by simp [Heap.Forcing]
  cases outputs with
  | nil =>
    cases turned
    exact turned_same within rfl idle rfl (by simp)
  | cons o outputs =>
    have first := cells o (List.mem_cons_self ..)
    have others : Thread.Knows M G x.store.heap (.main outputs) :=
      .main fun o' member => cells o' (List.mem_cons_of_mem _ member)
    simp only [Thread.turn] at turned
    split at turned
    · cases turned
      exact turned_same within rfl idle rfl (by simp)
    · split at turned
      · cases turned
        exact turned_same within rfl idle rfl (by simpa using ⟨knows_walk first, others⟩)
      · cases turned
        exact turned_same within rfl idle rfl (by simpa using .acquire first others)

theorem turned_of_goOn (hosted : M.hosted) (tidy : ¬ M.strays) (chains : ∀ l, M.chains l l)
    {threads : List Thread} (turned : t.turn E x = .goOn threads x')
    (forcing : x.store.heap.Forcing t.owned) (apart : t.owned.Nodup)
    (within : x.store.Within M G) (knows : t.Knows M G x.store.heap) :
    ∃ K, Turned Thread.owned (Thread.Knows M) M G t.owned x.store threads x'.store K := by
  obtain ⟨store, free, failure⟩ := x
  cases knows with
  | main cells => exact ⟨G, turned_of_main turned within cells⟩
  | acquire known later =>
    simp only [Thread.turn] at turned
    split at turned
    · cases turned
    · cases turned
      refine ⟨G, turned_same within rfl forcing ?_ ?_⟩
      · simp [Thread.owned, Runner.owned]
      · simpa using ⟨knows_perform hosted known, later⟩
  | walk runner =>
    simp only [Thread.turn] at turned
    rcases Runner.went_of_turn hosted tidy chains turned forcing apart within runner with
      ⟨w', s', K, went, rfl, rfl⟩ | ⟨a, nothing, results, finished⟩
    · exact ⟨K, turned_of_went went rfl .walk⟩
    · cases results with
      | error faults =>
        cases finished
        exact ⟨G, turned_same within rfl forcing nothing.symm (by simp)⟩
      | ok lists =>
        cases lists with
        | nil =>
          cases finished
          exact ⟨G, turned_same within rfl forcing nothing.symm (by simp)⟩
        | cons heads tails =>
          cases finished
          refine ⟨G, turned_same within rfl forcing nothing.symm ?_⟩
          simpa using .reach heads.2 tails.2
  | reach heads tails =>
    simp only [Thread.turn] at turned
    split at turned
    · cases turned
      exact ⟨G, turned_same within rfl forcing rfl (by simp)⟩
    · cases turned
      exact ⟨G, turned_same within rfl forcing rfl (by simpa using .acquire heads (knows_walk tails))⟩
  | perform runner =>
    simp only [Thread.turn] at turned
    rcases Runner.went_of_turn hosted tidy chains turned forcing apart within runner with
      ⟨w', s', K, went, rfl, rfl⟩ | ⟨a, nothing, results, finished⟩
    · exact ⟨K, turned_of_went went rfl .perform⟩
    · cases results <;> cases finished <;>
        exact ⟨G, turned_same within rfl forcing nothing.symm (by simpa using .leave)⟩
  | leave =>
    cases turned
    exact ⟨G, turned_same within rfl forcing rfl (by simp)⟩
  | @work w worker =>
    simp only [Thread.turn] at turned
    cases moved : w.turn E store with
    | goOn ws s' =>
      rw [moved] at turned
      cases turned
      obtain ⟨K, worked⟩ := Worker.turned_of_goOn hosted tidy chains moved forcing apart within worker
      refine ⟨K, worked.grows, worked.within, ?_, ?_, worked.relinks⟩
      · intro t member
        obtain ⟨w', mine, rfl⟩ := List.mem_map.1 member
        exact .work (worked.knows w' mine)
      · obtain ⟨handed, served⟩ := worked.served
        exact ⟨handed, by rw [List.flatMap_map]; exact served⟩
    | ask q next s' => rw [moved] at turned; cases turned
    | wait s' => rw [moved] at turned; cases turned

theorem turned_of_ask {q : Request} {next : q.Answer → List Thread}
    (turned : t.turn E x = .ask q next x') (forcing : x.store.heap.Forcing t.owned)
    (within : x.store.Within M G) (knows : t.Knows M G x.store.heap) (a : q.Answer) :
    Turned Thread.owned (Thread.Knows M) M G t.owned x.store (next a) x'.store G := by
  obtain ⟨store, free, failure⟩ := x
  cases knows with
  | @main outputs _ =>
    cases outputs with
    | nil => cases turned
    | cons o outputs =>
      simp only [Thread.turn] at turned
      split at turned
      · cases turned
      · split at turned <;> cases turned
  | acquire _ _ =>
    simp only [Thread.turn] at turned
    split at turned <;> cases turned
  | walk runner =>
    simp only [Thread.turn] at turned
    obtain ⟨w', s', went, more, rfl⟩ := Runner.went_of_turn_ask turned (by
      rintro (e | l)
      · exact ⟨_, _, rfl⟩
      · cases l <;> exact ⟨_, _, rfl⟩) forcing within runner a
    rw [more]
    exact turned_of_went went rfl .walk
  | reach _ _ =>
    simp only [Thread.turn] at turned
    split at turned <;> cases turned
  | perform runner =>
    simp only [Thread.turn] at turned
    obtain ⟨w', s', went, more, rfl⟩ := Runner.went_of_turn_ask turned (by
      intro a
      cases a <;> exact ⟨_, _, rfl⟩) forcing within runner a
    rw [more]
    exact turned_of_went went rfl .perform
  | leave => cases turned
  | @work w worker =>
    simp only [Thread.turn] at turned
    cases moved : w.turn E store with
    | goOn ws s' => rw [moved] at turned; cases turned
    | wait s' => rw [moved] at turned; cases turned
    | ask q' more s' =>
      rw [moved] at turned
      cases turned
      have worked := Worker.turned_of_ask moved forcing within worker a
      refine ⟨worked.grows, worked.within, ?_, ?_, worked.relinks⟩
      · intro t member
        obtain ⟨w', mine, rfl⟩ := List.mem_map.1 member
        exact .work (worked.knows w' mine)
      · obtain ⟨handed, served⟩ := worked.served
        exact ⟨handed, by rw [List.flatMap_map]; exact served⟩

end

/-- All threads keep to known cells and force cells of their own. -/
structure Keeps (M : Manner) (G : Set Ref) (threads : List Thread) (s : Store) : Prop where
  within : s.Within M G
  knows : ∀ t ∈ threads, t.Knows M G s.heap
  apart : (threads.flatMap Thread.owned).Nodup
  forcing : s.heap.Forcing (threads.flatMap Thread.owned)

section
variable {M : Manner} {G K : Set Ref} {E : Engine} {t : Thread} {s s' : Store}
variable {before after threads : List Thread}

theorem keeps_of_turned (keeps : Keeps M G (before ++ t :: after) s)
    (turned : Turned Thread.owned (Thread.Knows M) M G t.owned s threads s' K) :
    Keeps M K (before ++ threads ++ after) s' ∧ s.heap.Evolves s'.heap := by
  obtain ⟨handed, served⟩ := turned.served
  have apart := keeps.apart
  have forcing := keeps.forcing
  simp only [List.flatMap_append, List.flatMap_cons] at apart forcing
  refine ⟨⟨turned.within, ?_, ?_, ?_⟩, served.evolves⟩
  · intro t' member
    simp only [List.mem_append] at member
    rcases member with (left | mine) | right
    · exact (keeps.knows t' (by simp [left])).mono turned.grows served.evolves
    · exact turned.knows t' mine
    · exact (keeps.knows t' (by simp [right])).mono turned.grows served.evolves
  · simpa using served.apart apart forcing
  · simpa using served.forcing_all apart forcing

/-- Whose turn it may be: what is known afterwards, and how the heap has changed. -/
theorem keeps_of_step (hosted : M.hosted) (tidy : ¬ M.strays) (chains : ∀ l, M.chains l l)
    {a b : List Thread × Shared × World} (keeps : Keeps M G a.1 a.2.1.store)
    (step : Crew.Step (Thread.turn E) a b) :
    ∃ K, G ⊆ K ∧ Keeps M K b.1 b.2.1.store ∧ a.2.1.store.heap.Evolves b.2.1.store.heap ∧
      a.2.1.store.heap.Relinks b.2.1.store.heap := by
  have own {t : Thread} {before after : List Thread} {s : Store}
      (keeps : Keeps M G (before ++ t :: after) s) : t.owned.Nodup ∧ s.heap.Forcing t.owned := by
    have apart := keeps.apart
    simp only [List.flatMap_append, List.flatMap_cons, List.nodup_append] at apart
    refine ⟨apart.2.1.1, fun r member => keeps.forcing r ?_⟩
    exact List.mem_flatMap.2 ⟨t, by simp, member⟩
  cases step with
  | goOn before after w turned =>
    obtain ⟨apart, forcing⟩ := own keeps
    obtain ⟨K, result⟩ := turned_of_goOn hosted tidy chains turned forcing apart keeps.within
      (keeps.knows _ (by simp))
    have kept := keeps_of_turned keeps result
    exact ⟨K, result.grows, kept.1, kept.2, result.relinks⟩
  | ask before after w turned =>
    obtain ⟨apart, forcing⟩ := own keeps
    have result := turned_of_ask turned forcing keeps.within (keeps.knows _ (by simp))
      (World.answer _ w).1
    have kept := keeps_of_turned keeps result
    exact ⟨G, result.grows, kept.1, kept.2, result.relinks⟩

end
end Output
end CallByNeed
