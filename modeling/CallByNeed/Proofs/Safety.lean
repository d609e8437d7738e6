import CallByNeed.Proofs.Binding.Parameters
import CallByNeed.Proofs.Safety.Loading
import CallByNeed.Proofs.Safety.Threads

/- Programs that load do not panic. Loading forces nothing and leaves no handle vacant; code is
   interpreted among as many locals as it names; a binding gives each parameter its cell; and no handle
   is forced before it is filled, or filled twice. Whatever turn is taken, all threads stay safe and the
   store sealed. -/
namespace CallByNeed

/-- The script forces the cell: for its value with faults or without, or for a value of one type. -/
inductive Forces (r : Ref) : Script Value → Prop where
  | observe : Forces r (observe r)
  | force : Forces r (force r)
  | number : Forces r (do pure (.number (← forceNumber r)))
  | string : Forces r (do pure (.string (← forceString r)))
  | bool : Forces r (do pure (.bool (← forceBool r)))
  | list : Forces r (do pure (.list (← forceList r)))
  | dict : Forces r (do pure (.dict (← forceDict r)))

/-- The next step of the runner is a panic. -/
def Runner.Panics {α : Type} (E : Engine) (w : Runner α) (s : Store) : Prop :=
  ∃ p s', w.step E s = .ended (.halt (.panic p)) s'

namespace Output

def Thread.Panics (E : Engine) (t : Thread) (s : Store) : Prop :=
  match t with
  | .walk w => w.Panics E s
  | .perform w => w.Panics E s
  | .work (.force _ w) => w.Panics E s
  | _ => False

/-- A thread before its first turn: it starts outputs, performs a cell, or forces one. -/
inductive Thread.Begins (G : Ken) : Thread → Prop where
  | main {outputs : List Output} (cells : ∀ o ∈ outputs, o.cell ∈ G.cells) :
      Begins G (.main outputs)
  | walk {r : Ref} (known : r ∈ G.cells) : Begins G (.walk (.ready (forceList r)))
  | perform {r : Ref} (known : r ∈ G.cells) : Begins G (.perform (.ready (performCell r)))
  | idle : Begins G (.work .idle)
  | force {job : Job} {script : Script Value} (known : job.target ∈ G.cells)
      (forces : Forces job.target script) : Begins G (.work (.force job (.ready script)))

/-- Before this moment of the run somebody asked for the result of an effect and was shown its cell. -/
def ShownBefore (run : Nat → List Thread × Shared × World) (n : Nat) (r : Ref) : Prop :=
  ∃ i < n, ∃ t ∈ (run i).1, t.Shows r

/-- All threads are safe, hold handles of their own, and force cells of their own. -/
structure Sealed (G : Ken) (threads : List Thread) (s : Store) : Prop where
  store : s.Sealed G
  safe : ∃ hs, AllSealed (Thread.Sealed G s.heap) hs threads ∧ s.heap.Holds hs
  apart : (threads.flatMap Thread.owned).Nodup
  forcing : s.heap.Forcing (threads.flatMap Thread.owned)

section
variable {G K : Ken} {E : Engine} {t : Thread} {s s' : Store} {before after threads : List Thread}

/-- One thread among others has taken a turn. -/
theorem Sealed.of_turned (sealed : Sealed G (before ++ t :: after) s)
    (turns : ∀ mine, t.Sealed G s.heap mine → s.heap.Holds mine → ∃ K mine',
      Store.Turned G s t.owned mine t.Shows s' K (threads.flatMap Thread.owned) mine' ∧
        AllSealed (Thread.Sealed K s'.heap) mine' threads) :
    ∃ K, G ≤ K ∧ Sealed K (before ++ threads ++ after) s' ∧
      (∀ r ∈ K.shown, r ∈ G.shown ∨ t.Shows r) ∧
      ∀ r w, s.heap.state? r = some (.pending w) → w.Performs →
        s'.heap.state? r = some (.pending w) ∨ r ∈ G.shown := by
  obtain ⟨store, ⟨hs, all, holds⟩, apart, forcing⟩ := sealed
  obtain ⟨left, rest, rfl, all_before, all_after⟩ := all.of_append
  cases all_after with
  | @cons mine right _ _ first all_after =>
    have own : s.heap.Holds mine :=
      holds.sublist ((List.sublist_append_left ..).trans (List.sublist_append_right ..))
    obtain ⟨K, mine', turned, all'⟩ := turns mine first own
    obtain ⟨handed, served⟩ := turned.served
    simp only [List.flatMap_append, List.flatMap_cons] at apart forcing
    have later {hs : List Ref} {ts : List Thread} (old : AllSealed (Thread.Sealed G s.heap) hs ts) :
        AllSealed (Thread.Sealed K s'.heap) hs ts :=
      old.imp fun _ _ thread => thread.mono turned.grows served.evolves
    refine ⟨K, turned.grows, ⟨turned.sealed, ⟨left ++ (mine' ++ right), ?_, ?_⟩, ?_, ?_⟩,
      turned.shown, turned.takes⟩
    · rw [List.append_assoc]
      exact (later all_before).append (all'.append (later all_after))
    · exact turned.passes.holds_amid holds
    · simpa using served.apart apart forcing
    · simpa using served.forcing_all apart forcing

theorem Sealed.own (sealed : Sealed G (before ++ t :: after) s) :
    t.owned.Nodup ∧ s.heap.Forcing t.owned := by
  have apart := sealed.apart
  simp only [List.flatMap_append, List.flatMap_cons, List.nodup_append] at apart
  refine ⟨apart.2.1.1, fun r member => sealed.forcing r ?_⟩
  exact List.mem_flatMap.2 ⟨t, by simp, member⟩

/-- Whose turn it may be. -/
theorem sealed_of_step {a b : List Thread × Shared × World} (sealed : Sealed G a.1 a.2.1.store)
    (step : Crew.Step (Thread.turn E) a b) :
    ∃ K, G ≤ K ∧ Sealed K b.1 b.2.1.store ∧
      (∀ r ∈ K.shown, r ∈ G.shown ∨ ∃ t ∈ a.1, t.Shows r) ∧
      ∀ r w, a.2.1.store.heap.state? r = some (.pending w) → w.Performs →
        b.2.1.store.heap.state? r = some (.pending w) ∨ r ∈ G.shown := by
  cases step with
  | @goOn t x x' threads before after w turned =>
    obtain ⟨apart, forcing⟩ := sealed.own
    obtain ⟨K, grows, kept, shown, takes⟩ := sealed.of_turned fun mine thread holds =>
      sealed_of_goOn turned forcing apart sealed.store thread holds
    exact ⟨K, grows, kept, fun r mem => (shown r mem).imp id fun shows => ⟨t, by simp, shows⟩, takes⟩
  | @ask t x x' q threads before after w turned =>
    obtain ⟨apart, forcing⟩ := sealed.own
    let more := threads (World.answer q w).1
    have turns : ∀ mine, t.Sealed G x.store.heap mine → x.store.heap.Holds mine → ∃ K mine',
        Store.Turned G x.store t.owned mine t.Shows x'.store K (more.flatMap Thread.owned) mine' ∧
          AllSealed (Thread.Sealed K x'.store.heap) mine' more := by
      intro mine thread holds
      obtain ⟨same, _, answered⟩ := sealed_of_ask turned thread
      obtain ⟨owned, all⟩ := answered (World.answer q w).1
      rw [same]
      exact ⟨G, mine, Store.turned_same sealed.store forcing owned holds (.refl _), all⟩
    obtain ⟨K, grows, kept, shown, takes⟩ := sealed.of_turned turns
    exact ⟨K, grows, kept, fun r mem => (shown r mem).imp id fun shows => ⟨t, by simp, shows⟩, takes⟩

/-- What is known at a moment of a run, and who has been shown an effect by then. -/
theorem sealed_of_run {run : Nat → List Thread × Shared × World} {n : Nat}
    (sealed : Sealed G (run 0).1 (run 0).2.1.store) (unshown : G.shown = ∅)
    (steps : Crew.IsRun (Thread.turn E) run n) :
    ∃ K, G ≤ K ∧ Sealed K (run n).1 (run n).2.1.store ∧ ∀ r ∈ K.shown, ShownBefore run n r := by
  induction n with
  | zero =>
    refine ⟨G, G.le_refl, sealed, fun r mem => ?_⟩
    simp [unshown] at mem
  | succ n ih =>
    obtain ⟨K, grows, kept, shown⟩ := ih fun i less => steps i (by omega)
    obtain ⟨L, wider, later, shows, _⟩ := sealed_of_step kept (steps n (by omega))
    refine ⟨L, Ken.le_trans grows wider, later, fun r mem => ?_⟩
    rcases shows r mem with old | now
    · obtain ⟨i, less, before⟩ := shown r old
      exact ⟨i, by omega, before⟩
    · exact ⟨n, by omega, now⟩

/-- Safe threads do not panic if all the handles are filled that one may know. -/
theorem Thread.Sealed.not_panics {mine : List Ref} (filled : ¬ G.gaps)
    (thread : t.Sealed G s.heap mine) (sealed : s.Sealed G) : ¬ t.Panics E s := by
  cases thread with
  | walk runner =>
    rintro ⟨p, s', halts⟩
    exact Runner.not_panic filled runner sealed p halts
  | perform runner =>
    rintro ⟨p, s', halts⟩
    exact Runner.not_panic filled runner sealed p halts
  | work worker =>
    cases worker with
    | force runner =>
      rintro ⟨p, s', halts⟩
      exact Runner.not_panic filled runner sealed p halts
    | _ => exact id
  | _ => exact id

theorem sealed_force {h : Heap} {r : Ref} {script : Script Value} (known : r ∈ G.cells)
    (forces : Forces r script) : (Runner.ready script).Sealed False Worker.terms G h [] := by
  have cells {K : Ken} (grows : G ≤ K) : K.bond.cells r r := ⟨rfl, grows.1 known⟩
  have typed {α : Type} {as_value : α → Value} {script : Script α}
      (fits : ∀ a, (as_value a).Replies) (tame : script.Tame True none)
      (alike : ∀ K, G ≤ K → ∃ like, Alike .loaded K.bond like script script) :
      (Runner.ready (do pure (as_value (← script)))).Sealed False Worker.terms G h [] := by
    refine Runner.sealed_of_gives (tame.bind fun a => Script.gives_pure (fits a)) fun K grows => ?_
    obtain ⟨like, scripts⟩ := alike K grows
    exact scripts.bind fun _ _ _ => .pure trivial
  cases forces with
  | observe => exact sealed_observe known
  | force =>
    exact Runner.sealed_of_gives (Script.gives_force r) fun K grows =>
      (Alike.force (cells grows)).imp fun _ _ _ => trivial
  | number =>
    exact typed (fun _ => ⟨trivial, nofun⟩) (Script.tame_forceNumber r) fun K grows =>
      ⟨_, alike_forceNumber (cells grows)⟩
  | string =>
    exact typed (fun _ => ⟨trivial, nofun⟩) (Script.tame_forceString r) fun K grows =>
      ⟨_, alike_forceString (cells grows)⟩
  | bool =>
    exact typed (fun _ => ⟨trivial, nofun⟩) (Script.tame_forceBool r) fun K grows =>
      ⟨_, alike_forceBool (cells grows)⟩
  | list =>
    exact typed (fun _ => ⟨trivial, nofun⟩) (Script.tame_forceList r) fun K grows =>
      ⟨_, alike_forceList (cells grows)⟩
  | dict =>
    exact typed (fun _ => ⟨trivial, nofun⟩) (Script.tame_forceDict r) fun K grows =>
      ⟨_, alike_forceDict (cells grows)⟩

/-- Threads that have not begun hold nothing and force nothing. -/
theorem sealed_of_begins (sealed : s.Sealed G) (begins : ∀ t ∈ threads, t.Begins G) :
    Sealed G threads s := by
  have owned : threads.flatMap Thread.owned = [] := by
    refine List.flatMap_eq_nil_iff.2 fun t mem => ?_
    cases begins t mem <;> rfl
  refine ⟨sealed, ⟨[], AllSealed.of_forall fun t mem => ?_, .nil, by simp⟩, by simp [owned],
    by simp [owned, Heap.Forcing]⟩
  cases begins t mem with
  | main cells => exact .main cells
  | walk known => exact sealed_walk known
  | perform known => exact sealed_perform known
  | idle => exact .work .idle
  | force known forces => exact .work (.force (sealed_force known forces))

end
end Output

/-! ### What is interpreted -/

/-- On so many parameters the body interprets the expression among so many locals. -/
inductive Body.Interprets (parameters : Nat) : Body → Expr → Nat → Prop where
  | binding {bindings : List Expr} {result e : Expr} {i : Nat} (place : bindings[i]? = some e) :
      Interprets parameters (.code bindings result) e (parameters + i)
  | result {bindings : List Expr} {result : Expr} :
      Interprets parameters (.code bindings result) result (parameters + bindings.length)

/-- Some cell holds a function, the action of an effect or a switch that interprets the expression
    among so many locals. -/
inductive Heap.Interprets (h : Heap) : Expr → Nat → Prop where
  | call {r : Ref} {f : Function} {arguments : Arguments} {cells : List Ref} {e : Expr} {locals : Nat}
      (holds : h.state? r = some (.forced (.function f)))
      (binds : (f.signature.bind arguments).CanAnswer cells)
      (body : f.body.Interprets cells.length e locals) : Interprets h e locals
  | action {r : Ref} {site : Option Location} {body : Body} {cells : List Ref} {e : Expr}
      {locals : Nat}
      (holds : h.state? r = some (.pending { task := .resume (.action body cells), site }))
      (interprets : body.Interprets cells.length e locals) : Interprets h e locals
  | branch {r matched : Ref} {site : Option Location} {b : Branch} {key : Except Fault Key} {e : Expr}
      (holds : h.state? r = some (.pending { task := .resume (.branch b matched), site }))
      (selects : b.select key = .done e) : Interprets h e b.locals.length

/-- What loading does: it makes cells of which it forces none, and fills the handle of each definition
    once. What it interprets, it interprets in scope. -/
structure Program.LoadsSafely (p : Program) (m : Module) (h : Heap) : Prop where
  steps : Heap.Loads {} (m.definitions.map Prod.snd) h
  names : m.definitions.map Prod.fst = p.names
  once : (m.definitions.map Prod.snd).Nodup
  unforced : ∀ r, h.state? r ≠ some .forcing
  full : ∀ r, h.state? r ≠ some .vacant
  definitions : ∀ d ∈ p.definitions, ∃ x, d.resolve m.definitions = .ok x ∧ x.InScope
  outputs : ∀ o ∈ p.outputs, ∃ e, o.value.resolve m.definitions {} = .ok e ∧ e.InScope 0

section
variable {p : Program} {m : Module} {h : Heap}

theorem Expr.inScope_of_getElem? {bindings : List Expr} {parameters i : Nat} {e : Expr}
    (in_scope : bindingsInScope parameters bindings) (place : bindings[i]? = some e) :
    e.InScope (parameters + i) := by
  induction bindings generalizing parameters i with
  | nil => cases place
  | cons first bindings ih =>
    obtain ⟨head, others⟩ := in_scope
    cases i with
    | zero =>
      cases place
      exact head
    | succ i =>
      have later := ih others place
      rwa [Nat.add_right_comm] at later

theorem Body.Interprets.in_scope {body : Body} {isEffect : Bool} {parameters locals : Nat} {e : Expr}
    (interprets : body.Interprets parameters e locals) (fits : body.Fits isEffect parameters) :
    e.InScope locals := by
  cases interprets with
  | binding place => exact Expr.inScope_of_getElem? fits.1 place
  | result => exact fits.2

/-- In a heap that fits, code has all the locals that it names. -/
theorem Heap.Fits.in_scope (fits : h.Fits) {e : Expr} {locals : Nat}
    (interprets : h.Interprets e locals) : e.InScope locals := by
  cases interprets with
  | call holds binds body =>
    have function : Function.Fits _ := fits _ _ holds
    rw [Signature.length_of_bind binds] at body
    exact body.in_scope function
  | action holds interprets => exact interprets.in_scope (fits _ _ holds)
  | branch holds selects => exact Branch.inScope_of_select (fits _ _ holds) selects

theorem Program.loadsSafely_of_load (loads : p.load {} = .ok (m, h)) : p.LoadsSafely m h := by
  have loaded : Loaded .loaded m h := loaded_of_load not_false (fun _ _ => .inl trivial) loads
  obtain ⟨meanings, outputs, cells, h₁, h₂, h₃, stages⟩ := stages_of_load loads
  refine ⟨stages.loads, stages.handled.names, stages.handled.nodup, loaded.idle, fun r vacant => ?_,
    fun d mem => ?_, fun o mem => ?_⟩
  · obtain ⟨c, state, within⟩ := loaded.within r ⟨_, vacant⟩
    rw [vacant] at state
    cases state
    cases within with
    | vacant waits => exact waits
  · obtain ⟨x, _, resolved⟩ := exists_of_forall₂ stages.resolved mem
    exact ⟨x, resolved, inScope_of_resolve resolved⟩
  · obtain ⟨x, _, resolved⟩ := exists_of_forall₂ stages.listed mem
    exact ⟨x.1, resolved, node_inScope_of_resolve resolved⟩

theorem Program.sealed_of_load (loads : p.load {} = .ok (m, h)) :
    ({ heap := h } : Store).Sealed h.ken := by
  obtain ⟨meanings, outputs, cells, h₁, h₂, h₃, stages⟩ := stages_of_load loads
  exact (loaded_of_load not_false (fun _ _ => .inl trivial) loads).sealed stages.plain

end

namespace Output

/-- No thread panics next, and nothing is interpreted out of scope. -/
structure SafeAt (E : Engine) (run : Nat → List Thread × Shared × World) (n : Nat) : Prop where
  calm : ∀ t ∈ (run n).1, ¬ t.Panics E (run n).2.1.store
  in_scope : ∀ e locals, (heapAt run n).Interprets e locals → e.InScope locals

theorem Thread.Starts.begins {m : Module} {G : Ken} {t : Thread} (starts : t.Starts m)
    (known : ∀ r ∈ m.refs, r ∈ G.cells) : t.Begins G := by
  cases starts with
  | main sub =>
    exact .main fun o mem => known _ (List.mem_append_right _ (List.mem_map_of_mem (sub mem)))
  | walk root => exact .walk (known _ root)
  | perform root => exact .perform (known _ root)
  | idle => exact .idle
  | force root => exact .force (known _ root) .observe

/-- No program that loads panics in any run, whatever its threads force and in whatever order. -/
theorem loaded_programs_never_panic {p : Program} {m : Module} {h : Heap}
    (loads : p.load {} = .ok (m, h)) (E : Engine) (permits : Nat) {threads : List Thread}
    (starts : ∀ t ∈ threads, t.Starts m) {run : Nat → List Thread × Shared × World} {w : World}
    {n : Nat} (first : run 0 = (threads, .start permits { heap := h }, w))
    (steps : Crew.IsRun (Thread.turn E) run n) :
    p.LoadsSafely m h ∧
    (∀ (s : Signature Default) (arguments : Arguments) (cells : List Ref),
      (s.bind arguments).CanAnswer cells → cells.length = s.arity ∧
        s.parameters.map Parameter.name = s.names ∧
        ∃ b, FoundInOrder { left := arguments } s.parameters cells b) ∧
    SafeAt E run n := by
  have loaded : Program.Loaded .loaded m h :=
    Program.loaded_of_load not_false (fun _ _ => .inl trivial) loads
  have begins : ∀ t ∈ threads, t.Begins h.ken := fun t mem => (starts t mem).begins loaded.refs
  have sealed : Sealed h.ken (run 0).1 (run 0).2.1.store := by
    rw [first]
    exact sealed_of_begins (Program.sealed_of_load loads) begins
  obtain ⟨K, grows, kept, _⟩ := sealed_of_run sealed rfl steps
  refine ⟨Program.loadsSafely_of_load loads, fun s arguments cells answers => ?_, ?_⟩
  · exact ⟨Signature.length_of_bind answers, Signature.names_parameters,
      Signature.foundInOrder_of_bind answers⟩
  · refine ⟨fun t mem => ?_, fun e locals => kept.store.heap.fits.in_scope⟩
    obtain ⟨hs, all, _⟩ := kept.safe
    obtain ⟨mine, thread⟩ := all.of_mem mem
    exact thread.not_panics (fun gaps => grows.2.2.2.2 gaps) kept.store

/-- A function with a default, and a binding that is a switch: it answers the default. -/
def chooserProgram : Program where
  definitions := [
    .function "choose"
      { positional := { requireds := ["x"], optionals := [("otherwise", .literal (.string "none"))] } }
      [.switch (.local 0) [⟨.literal (.bool true), .local 1⟩] none] (.local 2),
    .variable "chosen" (.call (.global "choose") [⟨.literal (.bool true), false⟩] [] [] none)]

/-- A worker forces the variable. Seven turns on there is a switch that may interpret its second local
    of two, and in the end the variable has the default. -/
theorem loaded_programs_never_panic_of_chooser :
    ∃ m h run, chooserProgram.load {} = .ok (m, h) ∧
      Crew.IsRun (Thread.turn { bound := 1 }) run 15 ∧ (heapAt run 8).Interprets (.local 1) 2 ∧
      (heapAt run 15).state? ⟨5⟩ = some (.forced (.string "none")) ∧ chooserProgram.LoadsSafely m h ∧
      SafeAt { bound := 1 } run 15 := by
  have loads : ∃ m h, chooserProgram.load {} = .ok (m, h) := ⟨_, _, rfl⟩
  obtain ⟨m, h, loads⟩ := loads
  let start : List Thread × Shared × World :=
    ([.work (.force { target := ⟨1⟩ } (.ready (observe ⟨1⟩)))], .start 1 { heap := h }, {})
  let run := Crew.followed (Thread.turn { bound := 1 }) (List.replicate 15 0) start
  refine ⟨m, h, run, loads, ?_⟩
  have explicit := loads
  cases explicit
  have steps : Crew.IsRun (Thread.turn { bound := 1 }) run 15 := Crew.isRun_of_follow _ _ start rfl
  let switch : Branch :=
    { cases := [⟨.bool true, .local 1⟩], default := none, locals := [⟨4⟩, ⟨2⟩] }
  have waits : (heapAt run 8).state? ⟨6⟩ =
      some (.pending { task := .resume (.branch switch ⟨4⟩), site := none }) := rfl
  have selects : switch.select (.ok (.bool true)) = .done (.local 1) := rfl
  have chosen : (heapAt run 15).state? ⟨5⟩ = some (.forced (.string "none")) := by
    rfl
  have safe := loaded_programs_never_panic loads _ 1 (by
    intro t mem
    obtain rfl := List.mem_singleton.1 mem
    exact .force (List.mem_cons_of_mem _ (List.mem_cons_self ..))) rfl steps
  exact ⟨steps, .branch waits selects, chosen, safe.1, safe.2.2⟩

end Output
end CallByNeed
