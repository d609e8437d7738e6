import CallByNeed.Proofs.Crew
import CallByNeed.Proofs.Known.Mentions
import CallByNeed.Proofs.Likeness.Same
import CallByNeed.Proofs.Loading

/- Redirects of a running program. They come from definitions, from handles filled during the run
   and from tail calls; only definitions redirect to cells that may be redirected again. So no path
   of redirects is endless, and whoever follows one comes to a cell that has work, a forcer or a
   value. -/
namespace CallByNeed
open Relation (ReflTransGen TransGen)

/-- Code may do all that it can do in a program that loads. -/
def Manner.loaded : Manner where
  chains := Eq
  chains_nil := Manner.exact.chains_nil
  lax := False
  hosted := True
  strays := False

section
variable {B : Bond} {v v' : Value}

theorem eq_of_faultLike {e e' : Fault} (faults : FaultLike .loaded e e') : e = e' := by
  obtain ⟨cause, passed⟩ := e
  obtain ⟨cause', passed'⟩ := e'
  obtain ⟨rfl, rfl⟩ := faults
  rfl

theorem ValueLike.through_loaded (values : ValueLike .loaded B v v') (site : Option Location) :
    ValueLike .loaded B (v.through? site) (v'.through? site) := by
  cases values with
  | error faults =>
    obtain rfl := eq_of_faultLike faults
    exact .error ⟨rfl, rfl⟩
  | _ => simp only [Value.through?]; constructor <;> assumption

theorem Demand.reply_loaded (how : Demand) (site : Option Location)
    (values : ValueLike .loaded B v v') :
    (∃ u u', how.reply site v = .resume u ∧ how.reply site v' = .resume u' ∧
        ValueLike .loaded B u u') ∨
      ∃ action action', how.reply site v = .perform action ∧
        how.reply site v' = .perform action' ∧ B.actions action action' := by
  have same := values.type_eq
  cases how with
  | pure =>
    cases values with
    | effect actions => exact .inl ⟨_, _, rfl, rfl, .error ⟨rfl, rfl⟩⟩
    | _ => exact .inl ⟨_, _, rfl, rfl, by constructor <;> assumption⟩
  | effect =>
    cases values with
    | effect actions => exact .inr ⟨_, _, rfl, rfl, actions⟩
    | error faults => exact .inl ⟨_, _, rfl, rfl, .error faults⟩
    | _ => exact .inl ⟨_, _, rfl, rfl, .error ⟨by rw [same], rfl⟩⟩

end

theorem Program.Loaded.refs {m : Module} {h : Heap} (loaded : Program.Loaded .loaded m h) :
    ∀ r ∈ m.refs, r ∈ h.domain := by
  intro r mem
  rcases List.mem_append.1 mem with mem | mem
  · obtain ⟨d, mine, rfl⟩ := List.mem_map.1 mem
    exact loaded.definitions d mine
  · obtain ⟨o, mine, rfl⟩ := List.mem_map.1 mem
    exact loaded.outputs o mine

namespace Output

/-- A thread of a run before its first turn: it starts outputs, or forces or performs a cell that the
    module names. -/
inductive Thread.Starts (m : Module) : Thread → Prop where
  | main {outputs : List Output} (sub : outputs ⊆ m.outputs) : Starts m (.main outputs)
  | walk {r : Ref} (root : r ∈ m.refs) : Starts m (.walk (.ready (forceList r)))
  | perform {r : Ref} (root : r ∈ m.refs) : Starts m (.perform (.ready (performCell r)))
  | idle : Starts m (.work .idle)
  | force {job : Job} (root : job.target ∈ m.refs) :
      Starts m (.work (.force job (.ready (observe job.target))))

/-- The heap at one moment of a run. -/
def heapAt (run : Nat → List Thread × Shared × World) (i : Nat) : Heap := (run i).2.1.store.heap

/-- A redirect out of a definition, or out of a handle that was filled during the run. -/
def Filled (m : Module) (run : Nat → List Thread × Shared × World) (n : Nat) (r t : Ref) : Prop :=
  (heapAt run n).Redirects r t ∧
    (r ∈ m.definitions.map Prod.snd ∨ ∃ i < n, (heapAt run i).Fills (heapAt run (i + 1)) r t)

/-- A redirect made by a tail call of the run; nothing redirects its target. -/
def Taken (run : Nat → List Thread × Shared × World) (n : Nat) (r t : Ref) : Prop :=
  (heapAt run n).Redirects r t ∧ (heapAt run n).Firm t ∧
    ∃ i < n, (heapAt run i).Splices (heapAt run (i + 1)) r t

section
variable {m : Module} {h : Heap} {E : Engine} {threads : List Thread} {permits n : Nat}
variable {run : Nat → List Thread × Shared × World} {w : World}

/-- What is true at the first moment. -/
theorem keeps_of_starts (loaded : Program.Loaded .loaded m h)
    (starts : ∀ t ∈ threads, t.Starts m) :
    Keeps .loaded h.domain threads { heap := h } := by
  have roots : ∀ r ∈ m.refs, r ∈ h.domain := loaded.refs
  have owned : threads.flatMap Thread.owned = [] := by
    refine List.flatMap_eq_nil_iff.2 fun t mem => ?_
    cases starts t mem <;> rfl
  refine ⟨⟨loaded.within, by simp, by simp⟩, fun t mem => ?_, by simp [owned], ?_⟩
  · cases starts t mem with
    | main sub => exact .main fun o mine => loaded.outputs o (sub mine)
    | walk root => exact knows_walk (roots _ root)
    | perform root => exact knows_perform trivial (roots _ root)
    | idle => exact .work .idle
    | @force job root =>
      have known := roots _ root
      refine .work (.force known (Runner.knows_of_alike fun K grows => ?_))
      have cells : (Bond.among K).cells job.target job.target := ⟨rfl, grows known⟩
      exact (Alike.observe cells).imp fun _ _ _ => trivial
  · simp [owned, Heap.Forcing]

/-- What is true at every moment: where each redirect comes from, and what is known. -/
structure Moment (m : Module) (h : Heap) (run : Nat → List Thread × Shared × World) (n : Nat) :
    Prop where
  keeps : ∃ G, h.domain ⊆ G ∧ Keeps .loaded G (run n).1 (run n).2.1.store
  redirects : ∀ r t, (heapAt run n).Redirects r t → h.Redirects r t ∨
    ((heapAt run n).Firm t ∧ ((∃ i < n, (heapAt run i).Fills (heapAt run (i + 1)) r t) ∨
      ∃ i < n, (heapAt run i).Splices (heapAt run (i + 1)) r t))

theorem moment_of_run (loaded : Program.Loaded .loaded m h)
    (starts : ∀ t ∈ threads, t.Starts m)
    (first : run 0 = (threads, .start permits { heap := h }, w))
    (steps : Crew.IsRun (Thread.turn E) run n) : Moment m h run n := by
  induction n with
  | zero =>
    have heap : heapAt run 0 = h := by rw [heapAt, first]; rfl
    constructor
    case keeps =>
      refine ⟨h.domain, Set.Subset.rfl, ?_⟩
      rw [first]
      exact keeps_of_starts loaded starts
    case redirects =>
      intro r t redirect
      rw [heap] at redirect
      exact .inl redirect
  | succ n ih =>
    obtain ⟨⟨G, grown, keeps⟩, redirects⟩ := ih fun i less => steps i (by omega)
    have step := steps n (by omega)
    obtain ⟨K, wider, kept, evolves, relinks⟩ :=
      keeps_of_step trivial not_false (fun _ => rfl) keeps step
    constructor
    case keeps => exact ⟨K, grown.trans wider, kept⟩
    case redirects =>
      intro r t redirect
      rcases relinks r t redirect with old | fills | splices
      · rcases redirects r t old with loaded | ⟨firm, ⟨i, less, fills⟩ | ⟨i, less, splices⟩⟩
        · exact .inl loaded
        · exact .inr ⟨evolves.firm firm, .inl ⟨i, by omega, fills⟩⟩
        · exact .inr ⟨evolves.firm firm, .inr ⟨i, by omega, splices⟩⟩
      · exact .inr ⟨evolves.firm fills.firm, .inl ⟨n, by omega, fills⟩⟩
      · exact .inr ⟨evolves.firm splices.firm, .inr ⟨n, by omega, splices⟩⟩

/-- A path of redirects takes from the loaded heap what that has, and then one hop at most. -/
theorem Moment.leadsOut (moment : Moment m h run n) (aliases : ∀ r, h.LeadsOut r) (r : Ref) :
    (heapAt run n).LeadsOut r := by
  induction aliases r with
  | intro r _ ih =>
    refine .intro r fun t redirect => ?_
    rcases moment.redirects r t redirect with old | ⟨firm, _⟩
    · exact ih t old
    · exact Heap.leadsOut_of_not_redirects fun u => firm.not_redirects

theorem Moment.lands (moment : Moment m h run n) (aliases : ∀ r, h.LeadsOut r) {G : Set Ref}
    (within : (heapAt run n).Within .loaded G ∅) {r : Ref} (known : r ∈ G) :
    (heapAt run n).Lands r := by
  induction moment.leadsOut aliases r with
  | intro r _ ih =>
    obtain ⟨c, state, inside⟩ := within r known
    cases inside with
    | vacant waits => cases waits
    | pending works => exact ⟨r, _, .refl, state, .pending _⟩
    | forcing => exact ⟨r, _, .refl, state, .forcing⟩
    | forced values => exact ⟨r, _, .refl, state, .forced _⟩
    | redirect target => exact Heap.Lands.head state (ih _ state target)

theorem Moment.path (moment : Moment m h run n) (loaded : Program.Loaded .loaded m h) {r d : Ref}
    (path : (heapAt run n).Leads r d) :
    ∃ q, ReflTransGen (Filled m run n) r q ∧ (q = d ∨ Taken run n q d) := by
  induction path using ReflTransGen.head_induction_on with
  | refl => exact ⟨d, .refl, .inl rfl⟩
  | @head r t redirect rest ih =>
    obtain ⟨q, filled, last⟩ := ih
    rcases moment.redirects r t redirect with old | ⟨firm, fills | splices⟩
    · exact ⟨q, .head ⟨redirect, .inl (loaded.handles r t old)⟩ filled, last⟩
    · exact ⟨q, .head ⟨redirect, .inr fills⟩ filled, last⟩
    · have ended : t = d := by
        rcases rest.cases_head with same | ⟨u, further, _⟩
        · exact same
        · exact absurd further firm.not_redirects
      subst ended
      exact ⟨r, .refl, .inr ⟨redirect, firm, splices⟩⟩

end

/-- At every moment of every run of a program that loads, whatever its threads force and in whatever
    order: redirects form no cycle; they end in cells that have work, a forcer or a value; a path of
    them goes out of filled handles and then through one tail call at most; and from whatever can be
    reached they end likewise. -/
theorem redirects_lead_out {p : Program} {m : Module} {h : Heap} (loads : p.load {} = .ok (m, h))
    (E : Engine) (permits : Nat) {threads : List Thread} (starts : ∀ t ∈ threads, t.Starts m)
    {run : Nat → List Thread × Shared × World} {w : World} {n : Nat}
    (first : run 0 = (threads, .start permits { heap := h }, w))
    (steps : Crew.IsRun (Thread.turn E) run n) :
    (∀ r, ¬ TransGen (heapAt run n).Redirects r r) ∧
    (∀ r t, (heapAt run n).Redirects r t → (heapAt run n).Lands r) ∧
    (∀ r d, (heapAt run n).Leads r d →
      ∃ q, ReflTransGen (Filled m run n) r q ∧ (q = d ∨ Taken run n q d)) ∧
    ∀ r, Reachable m (run n).1 (run n).2.1.store r → (heapAt run n).Lands r := by
  have loaded : Program.Loaded .loaded m h :=
    Program.loaded_of_load not_false (fun _ _ => .inl trivial) loads
  have moment : Moment m h run n := moment_of_run loaded starts first steps
  obtain ⟨G, grown, keeps⟩ := moment.keeps
  refine ⟨?_, ?_, ?_, ?_⟩
  · exact fun r => (moment.leadsOut loaded.aliases r).acyclic
  · intro r t redirect
    rcases moment.redirects r t redirect with old | ⟨firm, _⟩
    · exact moment.lands loaded.aliases keeps.within.heap (grown ⟨_, old⟩)
    · exact Heap.Lands.head redirect firm.lands
  · exact fun r d path => moment.path loaded path
  · intro r reachable
    refine moment.lands loaded.aliases keeps.within.heap (keeps.reachable ?_ reachable)
    exact fun q mem => grown (loaded.refs q mem)

/-- One name for another, whose call ends in a tail call. -/
def aliasProgram : Program where
  definitions := [
    .variable "x" (.global "y"),
    .variable "y" (.call (.global "f") [] [] [] none),
    .function "f" (.plain []) [] (.call (.global "list") [] [] [] none)]

/-- A worker forces the alias. After its tail call one path leads through two definitions to the cell
    that is being forced, and another one there from the tail. -/
theorem redirects_lead_out_of_alias :
    ∃ m h run, aliasProgram.load {} = .ok (m, h) ∧
      Crew.IsRun (Thread.turn { bound := 1 }) run 11 ∧
      (heapAt run 11).Redirects ⟨0⟩ ⟨1⟩ ∧ (heapAt run 11).Redirects ⟨1⟩ ⟨3⟩ ∧
      (heapAt run 11).Redirects ⟨6⟩ ⟨3⟩ ∧ (heapAt run 11).state? ⟨3⟩ = some .forcing ∧
      (∀ r, ¬ TransGen (heapAt run 11).Redirects r r) ∧ (heapAt run 11).Lands ⟨6⟩ := by
  have loads : ∃ m h, aliasProgram.load {} = .ok (m, h) := ⟨_, _, rfl⟩
  obtain ⟨m, h, loads⟩ := loads
  let start : List Thread × Shared × World :=
    ([.work (.force { target := ⟨0⟩ } (.ready (observe ⟨0⟩)))], .start 1 { heap := h }, {})
  let run := Crew.followed (Thread.turn { bound := 1 }) (List.replicate 11 0) start
  refine ⟨m, h, run, loads, ?_⟩
  have explicit := loads
  cases explicit
  have steps : Crew.IsRun (Thread.turn { bound := 1 }) run 11 := Crew.isRun_of_follow _ _ start rfl
  have taken : (heapAt run 11).Redirects ⟨6⟩ ⟨3⟩ := rfl
  have out := redirects_lead_out loads _ 1 (by
    intro t mem
    obtain rfl := List.mem_singleton.1 mem
    exact .force (List.mem_cons_self ..)) rfl steps
  exact ⟨steps, rfl, rfl, taken, rfl, out.1, out.2.1 _ _ taken⟩

end Output
end CallByNeed
