import CallByNeed.Proofs.Crew
import CallByNeed.Proofs.Sharing.Ownership

/- Sharing holds for any number of threads, any scripts, and any order of turns: a cell moves one way
   only, its work is handed out once, and all calls that end on cells linked by redirects give one
   value. A thread that meets a handle before it is filled waits there and changes nothing. -/
namespace CallByNeed
open Relation (ReflTransGen)

namespace Forcer

/-- Distinct threads force distinct cells, and the ledger tells the truth about the heap. -/
structure Accounted (fs : List Forcer) (x : Recorded) : Prop where
  apart : (fs.flatMap owned).Nodup
  forcing : x.store.heap.Forcing (fs.flatMap owned)
  served : ∀ f ∈ fs, f.Served x.store.heap
  once : (x.ledger.handed.map Prod.fst).Nodup
  spent : ∀ p ∈ x.ledger.handed, x.store.heap.Spent p.1
  returned : ∀ p ∈ x.ledger.returned, x.store.heap.Yields p.1 p.2

variable {E : Engine} {f : Forcer} {x x' : Recorded} {fs before after : List Forcer}

theorem turned_of_advance {w : Runner Unit} {s : Store} (step : f.runner.Advance E x.store w s)
    (served : f.Served x.store.heap) (forcing : x.store.heap.Forcing f.owned)
    (apart : f.owned.Nodup) : f.Turned x [f.after w] (f.record E x s) := by
  obtain ⟨runner, calls⟩ := f
  cases step with
  | demand =>
    exact turned_ready (Heap.served_same forcing) served _ (.inr ⟨_, _, _, rfl⟩)
  | act => exact turned_ready (Store.served_act forcing _) served _ (.inl ⟨_, rfl⟩)
  | engine step => exact turned_advance step forcing apart served
  | resume reply => exact turned_finished served _ (.inl ⟨_, rfl⟩)
  | perform reply => exact turned_finished served _ (.inr ⟨_, _, _, rfl⟩)

theorem turned_of_goOn (served : f.Served x.store.heap) (forcing : x.store.heap.Forcing f.owned)
    (apart : f.owned.Nodup) (e : f.turn E x = .goOn fs x') : f.Turned x fs x' := by
  have ended {script : Script Unit} {s : Store} (runner : f.runner = .ready script)
      (same : s = x.store) : f.Turned x [] (f.record E x s) := by
    obtain ⟨_, calls⟩ := f
    subst runner same
    exact turned_ended
  unfold turn at e
  split at e
  · next step =>
    cases e
    exact turned_of_advance (Runner.advance_of_step step) served forcing apart
  · cases e
  · next step =>
    cases e
    rcases Runner.of_ended step with ⟨h, no⟩ | ⟨a, runner, _, same⟩ | ⟨fault, _, no, _⟩
    · cases no
    · exact ended runner same
    · cases no
  · next step =>
    cases e
    rcases Runner.of_ended step with ⟨h, no⟩ | ⟨a, _, no, _⟩ | ⟨fault, runner, _, same⟩
    · cases no
    · cases no
    · exact ended runner same
  · cases e

theorem turned_of_ask (served : f.Served x.store.heap) (forcing : x.store.heap.Forcing f.owned)
    {q : Request} {next : q.Answer → List Forcer} (e : f.turn E x = .ask q next x')
    (a : q.Answer) : f.Turned x (next a) x' := by
  obtain ⟨runner, calls⟩ := f
  unfold turn at e
  split at e <;> try cases e
  next step =>
  rcases Runner.of_ask step with ⟨rfl, ⟨rest, rfl, rfl⟩ | ⟨how, r, rest, cell, site, script, frames,
    rfl, rfl⟩⟩
  · exact turned_ready (Heap.served_same forcing) served _ (.inl ⟨_, rfl⟩)
  · exact turned_asked forcing served a

theorem spent_of_hands {handed : List (Ref × Ref)} {owned owned' : List Ref} {h h' : Heap}
    (heap : h.Served h' owned owned' handed) {before : List (Ref × Ref)}
    (once : (before.map Prod.fst).Nodup) (spent : ∀ p ∈ before, h.Spent p.1) :
    ((handed ++ before).map Prod.fst).Nodup ∧ ∀ p ∈ handed ++ before, h'.Spent p.1 := by
  have kept : ∀ p ∈ before, h'.Spent p.1 := fun p member => heap.evolves.spent (spent p member)
  rcases heap.hands with rfl | ⟨r, cell, w, rfl, pending, gone⟩
  · exact ⟨once, kept⟩
  · have fresh : r ∉ before.map Prod.fst := by
      intro member
      obtain ⟨p, mp, rfl⟩ := List.mem_map.mp member
      obtain ⟨c, known, _, idle⟩ := spent p mp
      rw [pending] at known
      cases known
      exact idle w rfl
    refine ⟨List.nodup_cons.mpr ⟨fresh, once⟩, ?_⟩
    intro p member
    rcases List.mem_cons.mp member with rfl | old
    · exact gone
    · exact kept p old

/-- One thread takes a turn, and the accounts of all stay right. -/
theorem accounted_of_turned (accounts : Accounted (before ++ f :: after) x)
    (turned : f.Turned x fs x') : Accounted (before ++ fs ++ after) x' := by
  obtain ⟨⟨handed, handedEq, heap⟩, ⟨returned, returnedEq, yields⟩, serves⟩ := turned
  have forcing := accounts.forcing
  have apart := accounts.apart
  simp only [List.flatMap_append, List.flatMap_cons] at forcing apart
  have ledger := spent_of_hands heap accounts.once accounts.spent
  refine ⟨?_, ?_, ?_, ?_, ?_, ?_⟩
  · simpa using heap.apart apart forcing
  · simpa using heap.forcing_all apart forcing
  · intro g member
    simp only [List.mem_append] at member
    rcases member with (left | mine) | right
    · exact heap.evolves.served (accounts.served g (by simp [left]))
    · exact serves g mine
    · exact heap.evolves.served (accounts.served g (by simp [right]))
  · rw [handedEq]
    exact ledger.1
  · rw [handedEq]
    exact ledger.2
  · intro p member
    rw [returnedEq, List.mem_append] at member
    rcases member with new | old
    · exact yields p new
    · exact heap.evolves.yields (accounts.returned p old)

theorem Turned.keeps (turned : f.Turned x fs x') {r : Ref} {w : Work}
    (known : x.store.heap.state? r = some (.pending w)) :
    x'.store.heap.state? r = some (.pending w) ∨ r ∈ x'.ledger.handed.map Prod.fst := by
  obtain ⟨⟨handed, handedEq, heap⟩, _, _⟩ := turned
  rcases heap.keeps r w known with still | taken
  · exact .inl still
  · exact .inr (by rw [handedEq, List.map_append]; exact List.mem_append_left _ taken)

theorem Turned.remembers (turned : f.Turned x fs x') {r : Ref}
    (known : r ∈ x.ledger.handed.map Prod.fst) : r ∈ x'.ledger.handed.map Prod.fst := by
  obtain ⟨⟨handed, handedEq, _⟩, _, _⟩ := turned
  rw [handedEq, List.map_append]
  exact List.mem_append_right _ known

theorem Turned.evolves (turned : f.Turned x fs x') :
    x.store.heap.Evolves x'.store.heap := by
  obtain ⟨⟨_, _, heap⟩, _, _⟩ := turned
  exact heap.evolves

theorem own_apart (accounts : Accounted (before ++ f :: after) x) : f.owned.Nodup := by
  have apart := accounts.apart
  simp only [List.flatMap_append, List.flatMap_cons, List.nodup_append] at apart
  exact apart.2.1.1

theorem own_forcing (accounts : Accounted (before ++ f :: after) x) :
    x.store.heap.Forcing f.owned := by
  intro r member
  exact accounts.forcing r (List.mem_flatMap.mpr ⟨f, by simp, member⟩)

/-- Whose turn it is, and what it comes to. -/
theorem turned_of_step {a b : List Forcer × Recorded × World} (accounts : Accounted a.1 a.2.1)
    (step : Crew.Step (turn E) a b) :
    ∃ before f after fs, a.1 = before ++ f :: after ∧ b.1 = before ++ fs ++ after ∧
      f.Turned a.2.1 fs b.2.1 := by
  cases step with
  | @goOn f x x' fs before after w took =>
    have served := accounts.served f (by simp)
    exact ⟨before, f, after, fs, rfl, rfl,
      turned_of_goOn served (own_forcing accounts) (own_apart accounts) took⟩
  | @ask f x x' q next before after w took =>
    have served := accounts.served f (by simp)
    exact ⟨before, f, after, _, rfl, rfl,
      turned_of_ask served (own_forcing accounts) took _⟩

theorem accounted_of_step {a b : List Forcer × Recorded × World} (accounts : Accounted a.1 a.2.1)
    (step : Crew.Step (turn E) a b) : Accounted b.1 b.2.1 := by
  obtain ⟨before, f, after, fs, ea, eb, turned⟩ := turned_of_step accounts step
  rw [ea] at accounts
  rw [eb]
  exact accounted_of_turned accounts turned

theorem evolves_of_step {a b : List Forcer × Recorded × World} (accounts : Accounted a.1 a.2.1)
    (step : Crew.Step (turn E) a b) : a.2.1.store.heap.Evolves b.2.1.store.heap := by
  obtain ⟨_, _, _, _, _, _, turned⟩ := turned_of_step accounts step
  exact turned.evolves

theorem accounted_of_runs {a b : List Forcer × Recorded × World} (accounts : Accounted a.1 a.2.1)
    (runs : Crew.Runs (turn E) a b) : Accounted b.1 b.2.1 := by
  induction runs with
  | refl => exact accounts
  | tail _ step ih => exact accounted_of_step ih step

theorem forced_of_runs {a b : List Forcer × Recorded × World} (accounts : Accounted a.1 a.2.1)
    (runs : Crew.Runs (turn E) a b) {r : Ref} {v : Value}
    (known : a.2.1.store.heap.state? r = some (.forced v)) :
    b.2.1.store.heap.state? r = some (.forced v) := by
  induction runs with
  | refl => exact known
  | tail earlier step ih =>
    exact (evolves_of_step (accounted_of_runs accounts earlier) step).forced ih

/-- Work leaves its cell only by being handed out. -/
theorem pending_of_runs {a b : List Forcer × Recorded × World} (accounts : Accounted a.1 a.2.1)
    (runs : Crew.Runs (turn E) a b) {r : Ref} {w : Work}
    (known : a.2.1.store.heap.state? r = some (.pending w)) :
    b.2.1.store.heap.state? r = some (.pending w) ∨ r ∈ b.2.1.ledger.handed.map Prod.fst := by
  induction runs with
  | refl => exact .inl known
  | tail earlier step ih =>
    obtain ⟨_, _, _, _, _, _, turned⟩ := turned_of_step (accounted_of_runs accounts earlier) step
    rcases ih with still | taken
    · exact turned.keeps still
    · exact .inr (turned.remembers taken)

theorem accounted_start (scripts : List (Script Unit)) (s : Store) :
    Accounted (scripts.map start) { store := s } := by
  have idle : (scripts.map start).flatMap owned = [] := by
    simp [start, owned]
  refine ⟨by simp [idle], by simp [idle, Heap.Forcing], ?_, by simp, by simp, by simp⟩
  intro f member
  obtain ⟨script, _, rfl⟩ := List.mem_map.mp member
  rfl

end Forcer

/-- Whatever threads without a ledger do can be recorded. -/
theorem Forcer.exists_recorded {E : Engine} {fs : List Forcer} {x : Recorded} {w : World}
    {b : List (Runner Unit) × Store × World}
    (step : Crew.Step (fun t => Runner.turn E id id (fun _ => .goOn []) t)
      (fs.map Forcer.runner, x.store, w) b) :
    ∃ fs' x', Crew.Step (Forcer.turn E) (fs, x, w) (fs', x', b.2.2) ∧
      fs'.map Forcer.runner = b.1 ∧ x'.store = b.2.1 := by
  generalize ea : (fs.map Forcer.runner, x.store, w) = a at step
  cases step with
  | @goOn t s s' threads before after w took =>
    obtain ⟨threads_eq, rfl, rfl⟩ := by simpa using ea
    obtain ⟨left, rest, rfl, rfl, more⟩ := List.map_eq_append_iff.mp threads_eq
    obtain ⟨f, right, rfl, rfl, rfl⟩ := List.map_eq_cons_iff.mp more
    rw [← turn_erased] at took
    cases moved : f.turn E x with
    | goOn fs' x' =>
      rw [moved] at took
      cases took
      exact ⟨_, _, .goOn left right w moved, by simp, rfl⟩
    | ask q next x' => rw [moved] at took; cases took
    | wait x' => rw [moved] at took; cases took
  | @ask t s s' q threads before after w took =>
    obtain ⟨threads_eq, rfl, rfl⟩ := by simpa using ea
    obtain ⟨left, rest, rfl, rfl, more⟩ := List.map_eq_append_iff.mp threads_eq
    obtain ⟨f, right, rfl, rfl, rfl⟩ := List.map_eq_cons_iff.mp more
    rw [← turn_erased] at took
    cases moved : f.turn E x with
    | goOn fs' x' => rw [moved] at took; cases took
    | wait x' => rw [moved] at took; cases took
    | ask q' next x' =>
      rw [moved] at took
      cases took
      exact ⟨_, _, .ask left right w moved, by simp, rfl⟩

/-- Any threads force, fill and make cells on any store in any order of turns. In one turn a cell
    stays as it is or makes one of its moves; work leaves its cell only by being handed out, and no
    cell's work is handed out twice; forced values stay; calls that have ended on one cell, or on
    cells linked by redirects, gave one value. -/
theorem forcing_is_shared (E : Engine) (scripts : List (Script Unit)) (s : Store) {w w' : World}
    {fs : List Forcer} {x : Recorded}
    (runs : Crew.Runs (Forcer.turn E) (scripts.map Forcer.start, { store := s }, w)
      (fs, x, w')) :
    (∀ b, Crew.Step (Forcer.turn E) (fs, x, w') b → x.store.heap.Evolves b.2.1.store.heap) ∧
    (∀ b, Crew.Runs (Forcer.turn E) (fs, x, w') b → ∀ r work,
      x.store.heap.state? r = some (.pending work) →
      b.2.1.store.heap.state? r = some (.pending work) ∨
        r ∈ b.2.1.ledger.handed.map Prod.fst) ∧
    (x.ledger.handed.map Prod.fst).Nodup ∧
    (∀ b, Crew.Runs (Forcer.turn E) (fs, x, w') b → ∀ r v,
      x.store.heap.state? r = some (.forced v) →
      b.2.1.store.heap.state? r = some (.forced v)) ∧
    ∀ r r' v v', (r, v) ∈ x.ledger.returned → (r', v') ∈ x.ledger.returned →
      x.store.heap.Linked r r' → v = v' := by
  have accounts : Forcer.Accounted fs x :=
    Forcer.accounted_of_runs (Forcer.accounted_start scripts s) runs
  refine ⟨?_, ?_, accounts.once, ?_, ?_⟩
  · intro b step
    exact Forcer.evolves_of_step (a := (fs, x, w')) accounts step
  · intro b later r work known
    exact Forcer.pending_of_runs (a := (fs, x, w')) accounts later known
  · intro b later r v known
    exact Forcer.forced_of_runs (a := (fs, x, w')) accounts later known
  · intro r r' v v' first second linked
    have y := accounts.returned _ first
    have y' := accounts.returned _ second
    exact Heap.yields_unique ((Heap.yields_of_linked linked).mp y) y'

/-- Cell 0 goes on with cell 1, which lists nothing. -/
def pairStore : Store :=
  { heap := ⟨#[.ofSuspension (.traced "pair" ⟨1⟩), .ofSuspension (.entries [])]⟩ }

def observer (r : Ref) : Script Unit := .demand .pure r fun _ => .done ()

/-- One thread forces the first cell of the pair and takes over the second one's work; another
    thread forces the second cell meanwhile. Both calls give the empty list. -/
theorem forcing_is_shared_by_pair :
    ∃ fs x, Crew.Runs (Forcer.turn { bound := 1 })
        ([observer ⟨0⟩, observer ⟨1⟩].map Forcer.start, { store := pairStore }, {}) (fs, x, {}) ∧
      x.ledger.handed = [(⟨1⟩, ⟨0⟩), (⟨0⟩, ⟨0⟩)] ∧
      x.ledger.returned = [(⟨1⟩, .list .nil), (⟨0⟩, .list .nil)] ∧
      (x.ledger.handed.map Prod.fst).Nodup ∧
      ∀ r r' v v', (r, v) ∈ x.ledger.returned → (r', v') ∈ x.ledger.returned →
        x.store.heap.Linked r r' → v = v' := by
  have runs := Crew.runs_of_follow (Forcer.turn { bound := 1 }) [0, 0, 0, 0, 1, 1, 0, 0, 1, 1]
    ([observer ⟨0⟩, observer ⟨1⟩].map Forcer.start, { store := pairStore }, {}) rfl
  have shared := forcing_is_shared _ _ _ runs
  exact ⟨_, _, runs, rfl, rfl, shared.2.2.1, shared.2.2.2.2⟩

end CallByNeed
