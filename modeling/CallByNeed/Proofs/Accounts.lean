import CallByNeed.Proofs.Accounts.Threads

/- Crews keep account of all work. Whatever threads have run, in any order of turns, there is a heap of
   all cells as they were made, and each cell of it that has got a value has got it by its work. -/
namespace CallByNeed

namespace Forcer

/-- The cells whose work a thread is doing. -/
def Engaged (bound : Nat) (g h : Heap) (f : Forcer) (rs : List Ref) : Prop :=
  match f.runner with
  | .ready _ => rs = []
  | .forcing _ _ _ c frames => Heap.Engaged bound g h c frames f.calls rs

variable {E : Engine} {g g' h h' : Heap} {f : Forcer} {rs : List Ref} {x x' : Recorded}
variable {fs before after : List Forcer} {others : Ref → Prop}

theorem Engaged.mono {bound : Nat} (grows : g.Widens h g' h') (engaged : f.Engaged bound g h rs) :
    f.Engaged bound g' h' rs := by
  obtain ⟨runner, calls⟩ := f
  cases runner with
  | ready _ => exact engaged
  | forcing => exact Heap.Engaged.mono grows engaged

/-- What the turn of a thread among others comes to: these threads do its work now. -/
def Onward (E : Engine) (g h : Heap) (fs : List Forcer) (h' : Heap) (others : Ref → Prop) : Prop :=
  ∃ g' rss, g.Widens h g' h' ∧ List.Forall₂ (Engaged E.bound g' h') fs rss ∧
    Heap.Tracked E.bound g' h' fun r => r ∈ rss.flatten ∨ others r

theorem onward_one (rs : List Ref) (grows : g.Widens h g' h') (engaged : f.Engaged E.bound g' h' rs)
    (tracked : Heap.Tracked E.bound g' h' fun r => r ∈ rs ∨ others r) :
    Onward E g h [f] h' others :=
  ⟨g', [rs], grows, .cons engaged .nil, by simpa using tracked⟩

theorem onward_of_advance {w : Runner Unit} {s s' : Store} (step : f.runner.Advance E s w s')
    (served : f.Served s.heap) (forcing : s.heap.Forcing f.owned) (origin : g.Origin s.heap)
    (engaged : f.Engaged E.bound g s.heap rs)
    (tracked : Heap.Tracked E.bound g s.heap fun r => r ∈ rs ∨ others r) :
    Onward E g s.heap [f.after w] s'.heap others := by
  obtain ⟨runner, calls⟩ := f
  have still : g.Widens s.heap g s.heap := origin.grows s.heap.before_refl rfl
  cases step with
  | demand =>
    cases (show calls = [] from served)
    cases (show rs = [] from engaged)
    exact onward_one [] still (Heap.Engaged.enter .nil) tracked
  | @act a next =>
    cases (show rs = [] from engaged)
    obtain ⟨g', grows, _⟩ := origin.act a (Script.done ())
    have idle : s.heap.Forcing [] := nofun
    refine onward_one [] grows rfl (tracked.unchanged grows fun r w pending => ?_)
    simpa using (Store.served_act idle a).keeps r w pending
  | engine step =>
    obtain ⟨g', rs', grows, engaged', tracked'⟩ := step.engaged forcing served origin engaged tracked
    exact onward_one rs' grows engaged' tracked'
  | resume reply =>
    cases engaged with
    | give waiting =>
      cases waiting
      exact onward_one [] still rfl tracked
  | perform reply =>
    cases engaged with
    | give waiting =>
      cases waiting
      exact onward_one [] still (Heap.Engaged.enter .nil) tracked

theorem onward_of_goOn (served : f.Served x.store.heap) (forcing : x.store.heap.Forcing f.owned)
    (origin : g.Origin x.store.heap) (engaged : f.Engaged E.bound g x.store.heap rs)
    (tracked : Heap.Tracked E.bound g x.store.heap fun r => r ∈ rs ∨ others r)
    (e : f.turn E x = .goOn fs x') : Onward E g x.store.heap fs x'.store.heap others := by
  have ended {script : Script Unit} (runner : f.runner = .ready script) :
      Onward E g x.store.heap [] x.store.heap others := by
    simp only [Engaged, runner] at engaged
    subst engaged
    exact ⟨g, [], origin.grows x.store.heap.before_refl rfl, .nil, by simpa using tracked⟩
  unfold turn at e
  split at e
  · next step =>
    cases e
    rw [store_record]
    exact onward_of_advance (Runner.advance_of_step step) served forcing origin engaged tracked
  · cases e
  · next step =>
    cases e
    rw [store_record]
    rcases Runner.of_ended step with ⟨h, no⟩ | ⟨a, runner, _, same⟩ | ⟨fault, _, no, _⟩
    · cases no
    · exact same ▸ ended runner
    · cases no
  · next step =>
    cases e
    rw [store_record]
    rcases Runner.of_ended step with ⟨h, no⟩ | ⟨a, _, no, _⟩ | ⟨fault, runner, _, same⟩
    · cases no
    · cases no
    · exact same ▸ ended runner
  · cases e

theorem onward_of_ask (served : f.Served x.store.heap) (origin : g.Origin x.store.heap)
    (engaged : f.Engaged E.bound g x.store.heap rs)
    (tracked : Heap.Tracked E.bound g x.store.heap fun r => r ∈ rs ∨ others r)
    {q : Request} {next : q.Answer → List Forcer} (e : f.turn E x = .ask q next x')
    (a : q.Answer) : Onward E g x.store.heap (next a) x'.store.heap others := by
  obtain ⟨runner, calls⟩ := f
  have still : g.Widens x.store.heap g x.store.heap := origin.grows x.store.heap.before_refl rfl
  unfold turn at e
  split at e <;> try cases e
  next step =>
  rw [store_record]
  rcases Runner.of_ask step with ⟨rfl, ⟨rest, rfl, rfl⟩ | ⟨how, r, rest, cell, site, script, frames,
    rfl, rfl⟩⟩
  · exact onward_one rs still engaged tracked
  · cases engaged with
    | run working waiting =>
      obtain ⟨w, log, made, same, leads, path⟩ := working
      refine onward_one _ still (Heap.Engaged.run ?_ waiting) tracked
      exact ⟨w, log, made, same, leads, path.ask⟩

/-- The first heap has the cells of the second one as they were made, and all work is accounted for. -/
structure Books (bound : Nat) (g : Heap) (fs : List Forcer) (h : Heap) : Prop where
  origin : g.Origin h
  work : ∃ rss, List.Forall₂ (Engaged bound g h) fs rss ∧
    Heap.Tracked bound g h fun r => r ∈ rss.flatten

/-- One thread takes a turn, and the books of all are kept. -/
theorem books_of_onward (books : Books E.bound g (before ++ f :: after) h)
    (onward : ∀ rs others, f.Engaged E.bound g h rs →
      (Heap.Tracked E.bound g h fun r => r ∈ rs ∨ others r) → Onward E g h fs h' others) :
    ∃ g', g.Extends g' ∧ Books E.bound g' (before ++ fs ++ after) h' := by
  obtain ⟨rss, engaged, tracked⟩ := books.work
  have left := List.forall₂_take before.length engaged
  have right := List.forall₂_drop before.length engaged
  rw [List.take_left] at left
  rw [List.drop_left] at right
  obtain ⟨rs, rssAfter, mine, rest, split⟩ := List.forall₂_cons_left_iff.1 right
  have whole : rss = rss.take before.length ++ rs :: rssAfter := by
    rw [← split, List.take_append_drop]
  generalize rss.take before.length = rssBefore at left whole
  subst whole
  obtain ⟨g', rss', grows, engaged', tracked'⟩ :=
    onward rs (fun r => r ∈ rssBefore.flatten ∨ r ∈ rssAfter.flatten) mine (by
      simpa [or_left_comm] using tracked)
  refine ⟨g', grows.extends', grows.origin, rssBefore ++ rss' ++ rssAfter, ?_, ?_⟩
  · refine List.rel_append (List.rel_append ?_ engaged') ?_
    · exact left.imp fun _ _ engaged => engaged.mono grows
    · exact rest.imp fun _ _ engaged => engaged.mono grows
  · simpa [or_assoc, or_left_comm] using tracked'

theorem books_of_step {a b : List Forcer × Recorded × World} (accounts : Accounted a.1 a.2.1)
    (books : Books E.bound g a.1 a.2.1.store.heap) (step : Crew.Step (turn E) a b) :
    ∃ g', g.Extends g' ∧ Books E.bound g' b.1 b.2.1.store.heap := by
  cases step with
  | @goOn f x x' fs before after w took =>
    refine books_of_onward books fun rs others engaged tracked => ?_
    exact onward_of_goOn (accounts.served f (by simp)) (own_forcing accounts) books.origin engaged
      tracked took
  | @ask f x x' q next before after w took =>
    refine books_of_onward books fun rs others engaged tracked => ?_
    exact onward_of_ask (accounts.served f (by simp)) books.origin engaged tracked took _

theorem books_of_runs {a b : List Forcer × Recorded × World} (accounts : Accounted a.1 a.2.1)
    (books : Books E.bound g a.1 a.2.1.store.heap) (runs : Crew.Runs (turn E) a b) :
    ∃ g', g.Extends g' ∧ Books E.bound g' b.1 b.2.1.store.heap := by
  induction runs with
  | refl => exact ⟨g, g.extends_refl, books⟩
  | tail earlier step ih =>
    obtain ⟨g₁, extends₁, books₁⟩ := ih
    obtain ⟨g₂, extends₂, books₂⟩ := books_of_step (accounted_of_runs accounts earlier) books₁ step
    exact ⟨g₂, extends₁.trans extends₂, books₂⟩

/-- The work a thread is doing is on its way to a cell that the thread owns. -/
theorem Engaged.forces {bound : Nat} (engaged : f.Engaged bound g h rs) :
    ∀ r ∈ rs, ∃ d ∈ f.owned, h.Leads r d := by
  obtain ⟨runner, calls⟩ := f
  cases runner with
  | ready _ =>
    cases engaged
    nofun
  | forcing => exact Heap.Engaged.forces engaged

theorem books_start (bound : Nat) (scripts : List (Script Unit)) (h : Heap) :
    Books bound h (scripts.map start) h := by
  refine ⟨h.origin_refl, scripts.map fun _ => [], ?_, fun r w pending => .inl pending⟩
  induction scripts with
  | nil => exact .nil
  | cons script scripts ih => exact .cons rfl ih

/-- Cells that have a value have it by their work, whoever has done it. -/
theorem Books.makes {bound : Nat} (books : Books bound g fs h)
    (forcing : h.Forcing (fs.flatMap owned)) {r : Ref} {w : Work} {v : Value}
    (made : g.state? r = some (.pending w)) (yields : h.Yields r v) :
    ∃ log, w.Makes bound g h log v := by
  obtain ⟨rss, engaged, tracked⟩ := books.work
  rcases tracked r w made with pending | settled | busy
  · obtain ⟨d, path, forced⟩ := yields
    rcases path.cases_head with rfl | ⟨t, redirect, _⟩
    · rw [pending] at forced
      cases forced
    · rw [Heap.Redirects, pending] at redirect
      cases redirect
  · exact settled.makes yields
  · obtain ⟨rs, member, inside⟩ := List.mem_flatten.1 busy
    obtain ⟨i, bound', rfl⟩ := List.getElem_of_mem member
    have lengths := engaged.length_eq
    have mine : (fs[i]).Engaged bound g h rss[i] := engaged.get (by omega) bound'
    obtain ⟨d, owned, leads⟩ := mine.forces r inside
    have busy := forcing d (List.mem_flatMap.2 ⟨_, List.getElem_mem _, owned⟩)
    exact absurd yields (Heap.not_yields_of_forcing leads busy v)

end Forcer

/-- The first heap has the cells of the second one as they were made, and whatever value a cell has
    that was made with work to do, its work has made it. -/
structure Heap.Recounts (bound : Nat) (g h : Heap) : Prop where
  origin : g.Origin h
  made : ∀ r w v, g.state? r = some (.pending w) → h.Yields r v → ∃ log, w.Makes bound g h log v

/-- Any threads keep account of their work on any store, in any order of turns. -/
theorem Forcer.recounts_of_runs (E : Engine) (scripts : List (Script Unit)) (s : Store) {w w' : World}
    {fs : List Forcer} {x : Recorded}
    (runs : Crew.Runs (Forcer.turn E) (scripts.map Forcer.start, { store := s }, w) (fs, x, w')) :
    ∃ g, s.heap.Extends g ∧ g.Recounts E.bound x.store.heap := by
  have start := accounted_start scripts s
  obtain ⟨g, extends', books⟩ := books_of_runs start (books_start E.bound scripts s.heap) runs
  have accounts : Accounted fs x := accounted_of_runs start runs
  exact ⟨g, extends', books.origin, fun r w v made yields => books.makes accounts.forcing made yields⟩

end CallByNeed
