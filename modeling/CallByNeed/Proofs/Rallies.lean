import CallByNeed.Proofs.Crew
import CallByNeed.Proofs.Rallies.Threads
import CallByNeed.Proofs.Redirects
import CallByNeed.Proofs.Safety.Loading

/- The list that `rally` answers, in any run. Reports may come in any order, late, or after an argument
   has been listed already, and readers may force the tails in any order: no argument is lost and
   none is listed twice. -/
namespace CallByNeed
open Relation (ReflTransGen)

/-- Nothing in the store has to do with a rally yet. -/
structure Store.Untouched (s : Store) : Prop where
  rallies : s.rallies = #[]
  pool : ∀ job ∈ s.pool, job.report = none
  cells : ∀ r w, s.heap.state? r = some (.pending w) → w.rally? = none

/-! ### Loading -/

/-- No cell waits to list an argument of a rally. -/
def Heap.Aloof (h : Heap) : Prop := ∀ r c, h.state? r = some c → c.Aloof

namespace Heap
variable {h h' : Heap}

/-- Cells that a script makes, if it makes nothing else. -/
theorem Aloof.of_built {α : Type} {script : Script α} {a : α} (aloof : h.Aloof)
    (leaves : script.Aloof) (built : script.built h = some (a, h')) : h'.Aloof := by
  induction script generalizing h with
  | done b =>
    cases built
    exact aloof
  | act action next ih =>
    cases action with
    | alloc c =>
      obtain ⟨_, built⟩ := Cell.not_isAction_of_built built
      refine ih _ (fun r s known => ?_) (leaves.2 _) built
      rw [state?_alloc] at known
      split at known
      · cases known
        exact leaves.1
      · exact aloof r s known
    | _ => cases built
  | _ => cases built

theorem Aloof.fillAll (aloof : h.Aloof) (handles targets : List Ref) :
    (Program.fillAll handles targets h).Aloof := by
  induction handles generalizing targets h with
  | nil => simpa [Program.fillAll] using aloof
  | cons handle handles ih =>
    cases targets with
    | nil => simpa [Program.fillAll] using aloof
    | cons target targets =>
      rw [Program.fillAll]
      refine ih (fun r c known => ?_) targets
      unfold Heap.fill at known
      split at known
      · rw [state?_setState] at known
        split at known
        · cases state : h.state? r <;> rw [state] at known <;> cases known
          trivial
        · exact aloof r c known
      · exact aloof r c known

end Heap

theorem Signature.aloof_shareHalf (h : Half Expr) :
    (shareHalf h : Script (Half Default)).Aloof := by
  refine (Script.aloof_mapM (fun o => ?_) h.optionals).bind fun _ => Script.aloof_pure _
  exact (Expr.aloof_interpret [] o.2).bind fun _ => Script.aloof_pure _

theorem Program.aloof_build (m : Meaning) : (build m : Script Ref).Aloof := by
  cases m with
  | «variable» value => exact Expr.aloof_interpret [] value
  | function name signature bindings result =>
    have share : (signature.share : Script (Signature Default)).Aloof :=
      (Signature.aloof_shareHalf signature.positional).bind fun _ =>
        (Signature.aloof_shareHalf signature.keyword).bind fun _ => Script.aloof_pure _
    exact share.bind fun _ => Script.aloof_allocValue _

/-- A program that has been loaded has opened no rally. -/
theorem Program.untouched_of_load {p : Program} {m : Module} {h : Heap}
    (loads : p.load {} = .ok (m, h)) : ({ heap := h } : Store).Untouched := by
  obtain ⟨meanings, outputs, cells, h₁, h₂, h₃, stages⟩ := stages_of_load loads
  have handles : h₁.Aloof := by
    intro r c known
    by_cases mine : r ∈ m.definitions.map Prod.snd
    · cases (stages.handled.vacant r mine).symm.trans known
      trivial
    · cases (stages.handled.others r mine).symm.trans known
  have definitions : (meanings.mapM build : Script (List Ref)).Aloof :=
    Script.aloof_mapM aloof_build meanings
  have expressions : (outputs.mapM fun o => do
      pure { cell := ← o.1.interpret [], expanded := o.2 } : Script (List Output)).Aloof := by
    refine Script.aloof_mapM (fun o => ?_) outputs
    exact (Expr.aloof_interpret [] o.1).bind fun _ => Script.aloof_pure _
  have built := (handles.of_built definitions stages.built).of_built expressions stages.made
  refine ⟨rfl, by simp, fun r w known => ?_⟩
  rw [stages.filled] at known
  exact built.fillAll _ _ r _ known

/-! ### The list of a rally -/

namespace Heap

/-- The cell comes to one that has still to list an argument, or that somebody is forcing. -/
def Awaited (h : Heap) (r : Ref) (id : Nat) : Prop :=
  ∃ c, h.Leads r c ∧ (h.state? c = some .forcing ∨
    ∃ w, h.state? c = some (.pending w) ∧ w.rally? = some id)

variable {h : Heap} {posts : List Post} {arguments : Array Ref} {slot t : Ref} {order : List Nat}
variable {last : Option Ref} {heads all all' : List Ref}

/-- Reads a list to its end, if that is near. -/
def readList (h : Heap) : Nat → Ref → Option (List Ref)
  | 0, _ => none
  | n + 1, r =>
    match h.state? r with
    | some (.forced (.list .nil)) => some []
    | some (.forced (.list (.cons head tail))) => (h.readList n tail).map (head :: ·)
    | _ => none

theorem elements_of_readList {n : Nat} (reads : h.readList n slot = some all) :
    h.Elements slot all := by
  induction n generalizing slot all with
  | zero => cases reads
  | succ n ih =>
    simp only [readList] at reads
    split at reads
    · next state =>
      cases reads
      exact ⟨slot, .nil, slot, .refl, state⟩
    · next state =>
      obtain ⟨others, further, rfl⟩ := Option.map_eq_some_iff.1 reads
      obtain ⟨t, lists, ended⟩ := ih further
      exact ⟨t, .cons ⟨slot, .refl, state⟩ lists, ended⟩
    · cases reads

theorem Elements.unique (first : h.Elements slot all) (second : h.Elements slot all') :
    all = all' := by
  obtain ⟨t, lists, _⟩ := id first
  obtain ⟨t', lists', _⟩ := id second
  exact (lists.prefix_of_elements second).eq_of_length_le
    (lists'.prefix_of_elements first).length_le

/-- Whoever walks the list meets the arguments in the order in which they were listed. -/
theorem Chain.split (chain : h.Chain posts arguments slot order last)
    (lists : h.Lists slot heads t) (forcing : ∀ p ∈ posts, h.state? p.cell = some .forcing)
    (unforced : ∀ cell v, last = some cell → ¬ h.Yields cell v) :
    ∃ is js, order = is ++ js ∧ is.filterMap (arguments[·]?) = heads ∧
      h.Chain posts arguments t js last := by
  induction lists generalizing order with
  | nil => exact ⟨[], order, rfl, rfl, chain⟩
  | cons yields _ ih =>
    cases chain with
    | opened leads => exact absurd ((yields_of_leads leads).1 yields) (unforced _ _ rfl)
    | ended shows => cases shows.of_yields forcing yields
    | @cons _ _ _ i _ _ argument shows rest =>
      cases shows.of_yields forcing yields
      obtain ⟨is, js, rfl, same, chain⟩ := ih rest
      exact ⟨i :: is, js, rfl, by simp [argument, same], chain⟩

end Heap

/-- The list of a rally at one moment, with the arguments it has listed and those that are left. -/
structure Rally.Lists (y : Rally) (h : Heap) (id : Nat) (root : Ref) (emitted rest : List Ref) :
    Prop where
  all : (emitted ++ rest).Perm y.arguments.toList
  left : rest.length = y.left
  forced : ∀ r ∈ emitted, ∃ v, h.Yields r v
  /-- All readers meet the same arguments in the same order. -/
  walked : ∀ heads t, h.Lists root heads t → heads <+: emitted
  /-- A tail is one more cell, or the end after all arguments, or still to be forced. -/
  tails : ∀ heads t, h.Lists root heads t →
    (∃ head tail, h.Yields t (.list (.cons head tail))) ∨
    (h.Yields t (.list .nil) ∧ heads = emitted ∧ rest = []) ∨ h.Awaited t id

namespace Rally

/-- What has been listed, and what is left of the arguments. -/
theorem Counts.perm {y : Rally} {order : List Nat} (counts : y.Counts order) :
    ∃ rest : List Ref, rest.length = y.left ∧
      (order.filterMap (y.arguments[·]?) ++ rest).Perm y.arguments.toList := by
  obtain ⟨places, size, perm⟩ := counts.parts
  rw [List.filterMap_append] at perm
  refine ⟨_, ?_, perm⟩
  have whole := perm.length_eq
  have left := counts.left
  have first := List.length_filterMap_le (y.arguments[·]?) order
  have second := List.length_filterMap_le (y.arguments[·]?) places
  simp only [List.length_append, Array.length_toList] at whole
  omega

theorem lists_of_rallying {bound : Nat} {s : Store} {posts : List Post} {K : Nat → Course}
    (rallying : Rallying bound s posts K) {id : Nat} {y : Rally}
    (found : s.rallies[id]? = some y) :
    ∃ emitted rest, y.Lists s.heap id (K id).root emitted rest := by
  have kept := rallying.kept id
  obtain ⟨counts, chain, forced, _, ended⟩ := kept.books y found
  obtain ⟨rest, left, perm⟩ := counts.perm
  -- The last cell of the list has no value: it waits, or somebody is forcing it.
  have last (cell : Ref) (is_last : (K id).stage.cell? = some cell) :
      s.heap.state? cell = some .forcing ∨
        ∃ w, s.heap.state? cell = some (.pending w) ∧ w.rally? = some id := by
    cases stage : (K id).stage with
    | waits c =>
      rw [stage] at is_last
      cases is_last
      exact .inr (kept.waits cell stage)
    | works d =>
      rw [stage] at is_last
      cases is_last
      exact .inl (kept.forcing cell (by rw [stage]; rfl))
    | found d i =>
      rw [stage] at is_last
      cases is_last
      exact .inl (kept.forcing cell (by rw [stage]; rfl))
    | ended =>
      rw [stage] at is_last
      cases is_last
  have unforced (cell : Ref) (v : Value) (is_last : (K id).stage.cell? = some cell) :
      ¬ s.heap.Yields cell v := by
    rintro ⟨d, path, value⟩
    rcases last cell is_last with forcing | ⟨w, pending, _⟩ <;>
      rcases path.cases_head with rfl | ⟨u, redirect, _⟩ <;> simp_all [Heap.Redirects]
  have listed : ∃ more, (K id).listed = (K id).order ++ more ∧
      ((K id).stage.cell? = none → more = []) := by
    unfold Rally.Course.listed
    cases stage : (K id).stage with
    | found d i => exact ⟨[i], rfl, by simp [Stage.cell?]⟩
    | _ => exact ⟨[], (List.append_nil _).symm, fun _ => rfl⟩
  obtain ⟨more, listed, complete⟩ := listed
  refine ⟨_, rest, perm, left, fun r member => ?_, fun heads t lists => ?_, fun heads t lists => ?_⟩
  · obtain ⟨i, place, here⟩ := List.mem_filterMap.1 member
    obtain ⟨r', v, ⟨y', found', here'⟩, yields⟩ := forced i place
    rw [found] at found'
    cases found'
    rw [here] at here'
    cases here'
    exact ⟨v, yields⟩
  · obtain ⟨is, js, order, rfl, _⟩ := chain.split lists rallying.forcing unforced
    rw [listed, order, List.append_assoc, List.filterMap_append]
    exact List.prefix_append _ _
  · obtain ⟨is, js, order, rfl, rest_chain⟩ := chain.split lists rallying.forcing unforced
    have shown {l : LazyList} (shows : s.heap.Presents posts t l) :
        s.heap.Yields t (.list l) ∨ s.heap.Awaited t id := by
      rcases shows with yields | ⟨d, leads, member⟩
      · exact .inl yields
      · exact .inr ⟨d, leads, .inl (rallying.forcing _ member)⟩
    generalize same : (K id).stage.cell? = tail at rest_chain
    cases rest_chain with
    | opened leads => exact .inr (.inr ⟨_, leads, last _ same⟩)
    | cons _ shows _ => exact (shown shows).imp (fun yields => ⟨_, _, yields⟩) .inr
    | ended shows =>
      rcases shown shows with yields | awaited
      · refine .inr (.inl ⟨yields, ?_, ?_⟩)
        · rw [listed, complete same, order]
          simp
        · have finished : (K id).stage = .ended := by
            cases stage : (K id).stage <;> simp_all [Stage.cell?]
          rw [ended finished] at left
          exact List.eq_nil_of_length_eq_zero left
      · exact .inr (.inr awaited)

end Rally

namespace Output

/-- A thread of a run before its first turn: the main loop, or a worker. -/
inductive Thread.IsFirst : Thread → Prop where
  | main {outputs : List Output} : IsFirst (.main outputs)
  | idle : IsFirst (.work .idle)

/-- A thread has come to the body of `rally`, called with this list of arguments, whose value is to
    be the value of the cell. -/
def CallsRally (E : Engine) (threads : List Thread) (cell arguments : Ref) : Prop :=
  (⟨cell, .runs (Builtin.rally.run E.bound [arguments])⟩ : Post) ∈ threads.flatMap Thread.posts

section
variable {E : Engine} {threads : List Thread} {start : Store} {permits n : Nat}
variable {run : Nat → List Thread × Shared × World} {w : World}

/-- What is true at the first moment. -/
theorem rallied_of_first (untouched : start.Untouched) (begin : ∀ t ∈ threads, t.IsFirst) :
    Rallied E threads start fun _ => { root := ⟨0⟩, order := [], stage := .ended } := by
  have posts : threads.flatMap Thread.posts = [] := by
    refine List.flatMap_eq_nil_iff.2 fun t member => ?_
    cases begin t member <;> rfl
  refine ⟨fun t member => ?_, ?_⟩
  · cases begin t member with
    | main => exact .main
    | idle => exact .idle
  · rw [posts]
    refine ⟨.nil, nofun, nofun, nofun, fun id => ?_, fun job member id i reports => ?_⟩
    · refine ⟨fun y found => ?_, fun _ => rfl, nofun, nofun, fun c w pending lists => ?_⟩
      · simp [untouched.rallies] at found
      · rw [untouched.cells c w pending] at lists
        cases lists
    · rw [untouched.pool job member] at reports
      cases reports

/-- What is true at every moment, and what has come of the calls of `rally` by then. -/
theorem rallied_of_run (untouched : start.Untouched) (begin : ∀ t ∈ threads, t.IsFirst)
    (first : run 0 = (threads, .start permits start, w))
    (steps : Crew.IsRun (Thread.turn E) run n) :
    ∃ K, Rallied E (run n).1 (run n).2.1.store K ∧ ∀ i, i ≤ n → ∀ d arguments,
      CallsRally E (run i).1 d arguments →
      Post.Called E.bound (run n).2.1.store ((run n).1.flatMap Thread.posts) K d arguments := by
  have now {m : Nat} {K : Nat → Rally.Course} {d arguments : Ref}
      (calls : CallsRally E (run m).1 d arguments) :
      Post.Called E.bound (run m).2.1.store ((run m).1.flatMap Thread.posts) K d arguments :=
    .collects calls (Post.collects_rallyAll ..)
  induction n with
  | zero =>
    refine ⟨fun _ => { root := ⟨0⟩, order := [], stage := .ended }, ?_, fun i less d a calls => ?_⟩
    · rw [first]
      exact rallied_of_first untouched begin
    · obtain rfl : i = 0 := by omega
      exact now calls
  | succ n ih =>
    obtain ⟨K, rallied, calls⟩ := ih fun i less => steps i (by omega)
    obtain ⟨K', rallied', keeps⟩ := rallied_of_step rallied (steps n (by omega))
    refine ⟨K', rallied', fun i less d a called => ?_⟩
    by_cases last : i = n + 1
    · subst last
      exact now called
    · exact keeps d a (calls i (by omega) d a called)

/-- At every moment of every run, whatever its threads force and in whatever order: what each rally
    has listed and what it has left are all its arguments, each of them once. Once a call of `rally` with
    a list of arguments has a value, that is the list of a rally with these arguments; it has those
    listed so far, all of them forced, in the one order in which all its readers meet them, and it
    ends when none is left. -/
theorem rally_lists_each_argument_once (untouched : start.Untouched)
    (begin : ∀ t ∈ threads, t.IsFirst) (first : run 0 = (threads, .start permits start, w))
    (steps : Crew.IsRun (Thread.turn E) run n) :
    (∀ (id : Nat) (y : Rally), (run n).2.1.store.rallies[id]? = some y →
      ∃ order, y.Counts order ∧ ∀ i ∈ order, (run n).2.1.store.Forced id i) ∧
    ∀ i, i ≤ n → ∀ cell list, CallsRally E (run i).1 cell list →
      ∀ arguments, (heapAt run n).Elements list arguments → ∀ v, (heapAt run n).Yields cell v →
        ∃ (id : Nat) (y : Rally) (emitted rest : List Ref),
          (run n).2.1.store.rallies[id]? = some y ∧ y.arguments.toList = arguments ∧
            y.Lists (heapAt run n) id cell emitted rest := by
  obtain ⟨K, ⟨_, rallying⟩, calls⟩ := rallied_of_run untouched begin first steps
  constructor
  · intro id y found
    have books := (rallying.kept id).books y found
    exact ⟨_, books.counts, books.forced⟩
  · intro i less cell list called arguments elements v yields
    cases calls i less cell list called with
    | collects member _ =>
      have forcing := rallying.forcing _ member
      exact absurd yields (Heap.not_yields_of_forcing .refl forcing v)
    | @opened id y found root same =>
      obtain ⟨emitted, rest, lists⟩ := Rally.lists_of_rallying rallying found
      rw [root] at lists
      exact ⟨id, y, emitted, rest, found, same.unique elements, lists⟩
    | failed reads => exact absurd reads (LazyList.not_gathering_error elements)

end

/-- An output for each of two arguments, whichever is forced first. -/
def race : Program where
  outputs := [{
    expanded := true
    value := .call (.global "rally")
      (["slow", "fast"].map fun text =>
        ⟨.call (.global "write") [⟨.literal (.string text), false⟩] [] [] none, false⟩) [] [] none }]

def raceLoaded : Module × Heap :=
  (race.load {}).toOption.getD ({ definitions := [], outputs := [] }, {})

def raceStart : List Thread × Shared × World :=
  ([.main raceLoaded.1.outputs, .work .idle, .work .idle],
    .start 2 { heap := raceLoaded.2 }, {})

/-- One worker takes the first argument and waits. Another forces the second one and reports it, and
    the reader of the list lists it. Then the first argument is late: the reader forces it on the spot,
    and lists it. Only now does the first worker report it, and the reader comes to the end. -/
def raceTurns : List Nat :=
  [0, 1] ++ List.replicate 20 0 ++ [1] ++ List.replicate 17 2 ++ List.replicate 8 0 ++
    List.replicate 24 1 ++ List.replicate 5 3 ++ List.replicate 6 2

def raceRun : Nat → List Thread × Shared × World :=
  Crew.followed (Thread.turn { bound := 8 }) raceTurns raceStart

set_option maxRecDepth 4000 in
/-- The argument that was reported first comes first. The other one comes once, though it is listed
    before its report comes. -/
theorem rally_lists_each_argument_once_of_race :
    race.load {} = .ok raceLoaded ∧ Crew.IsRun (Thread.turn { bound := 8 }) raceRun 83 ∧
      CallsRally { bound := 8 } (raceRun 10).1 ⟨7⟩ ⟨10⟩ ∧
      (heapAt raceRun 83).Elements ⟨10⟩ [⟨3⟩, ⟨6⟩] ∧
      ∃ (id : Nat) (y : Rally), (raceRun 83).2.1.store.rallies[id]? = some y ∧
        y.arguments.toList = [⟨3⟩, ⟨6⟩] ∧ (heapAt raceRun 83).Elements ⟨7⟩ [⟨6⟩, ⟨3⟩] ∧
        y.Lists (heapAt raceRun 83) id ⟨7⟩ [⟨6⟩, ⟨3⟩] [] := by
  have loads : race.load {} = .ok raceLoaded := rfl
  have steps : Crew.IsRun (Thread.turn { bound := 8 }) raceRun 83 := by
    have goes : (Crew.follow (Thread.turn { bound := 8 }) raceTurns raceStart).isSome := by
      decide +kernel
    obtain ⟨_, follows⟩ := Option.isSome_iff_exists.1 goes
    exact Crew.isRun_of_follow _ _ _ follows
  have calls : CallsRally { bound := 8 } (raceRun 10).1 ⟨7⟩ ⟨10⟩ := List.mem_cons_self
  have arguments : (heapAt raceRun 83).readList 3 ⟨10⟩ = some [⟨3⟩, ⟨6⟩] := by decide +kernel
  have listed : (heapAt raceRun 83).readList 3 ⟨7⟩ = some [⟨6⟩, ⟨3⟩] := by decide +kernel
  have arguments := Heap.elements_of_readList arguments
  have listed := Heap.elements_of_readList listed
  obtain ⟨t, walked, _⟩ := id listed
  obtain ⟨v, first⟩ : ∃ v, (heapAt raceRun 83).Yields ⟨7⟩ v := by
    cases walked with
    | cons yields => exact ⟨_, yields⟩
  have once := rally_lists_each_argument_once (Program.untouched_of_load loads)
    (by
      intro t member
      simp only [List.mem_cons, List.not_mem_nil, or_false] at member
      obtain rfl | rfl | rfl := member
      · exact .main
      · exact .idle
      · exact .idle)
    rfl steps
  obtain ⟨id, y, emitted, rest, found, same, lists⟩ :=
    once.2 10 (by decide) _ _ calls _ arguments v first
  -- Two arguments are all there are.
  have many := lists.all.length_eq
  rw [same, List.length_append] at many
  obtain rfl := (lists.walked _ _ walked).eq_of_length_le (by simp at many ⊢; omega)
  obtain rfl : rest = [] := by simpa using many
  exact ⟨loads, steps, calls, arguments, id, y, found, same, listed, lists⟩

end Output
end CallByNeed
