import CallByNeed.Proofs.Outputs.Turns
import CallByNeed.Proofs.Reading.Runs

/- Runs of plain outputs under one permit. The permit is with the main loop's next output or with the
   one before it, so the threads are never more than one output, the main loop and the workers; what
   they do is what one thread does that performs the outputs in the order of the list. -/
namespace CallByNeed
open Relation (ReflTransGen)

/-- What a turn leads to in a world. -/
inductive Turn.Leads {τ σ : Type} : Turn τ σ → World → List τ → σ → World → Prop where
  | goOn (threads : List τ) (x : σ) (w : World) : Leads (.goOn threads x) w threads x w
  | ask {q : Request} (next : q.Answer → List τ) (x : σ) (w : World) :
      Leads (.ask q next x) w (next (World.answer q w).1) x (World.answer q w).2

namespace Crew
variable {τ σ : Type} {turn : τ → σ → Turn τ σ}

theorem leads_of_step {a b : List τ × σ × World} (step : Step turn a b) :
    ∃ before t after threads, a.1 = before ++ t :: after ∧ b.1 = before ++ threads ++ after ∧
      (turn t a.2.1).Leads a.2.2 threads b.2.1 b.2.2 := by
  cases step with
  | goOn before after w moved => exact ⟨before, _, after, _, rfl, rfl, by rw [moved]; exact .goOn ..⟩
  | ask before after w moved => exact ⟨before, _, after, _, rfl, rfl, by rw [moved]; exact .ask ..⟩

theorem step_of_leads {t : τ} {x x' : σ} {threads : List τ} {w w' : World}
    (leads : (turn t x).Leads w threads x' w') (before after : List τ) :
    Step turn (before ++ t :: after, x, w) (before ++ threads ++ after, x', w') := by
  generalize moved : turn t x = next at leads
  cases leads with
  | goOn => exact .goOn before after w moved
  | ask => exact .ask before after w moved

end Crew

namespace Runner
variable {α β : Type} {E : Engine} {w w' : Runner α} {s s' : Store} {world world' : World}

theorem Tick.bind (f : α → Script β) (tick : Tick E (w, s, world) (w', s', world')) :
    Tick E (w.bind f, s, world) (w'.bind f, s', world') := by
  cases tick with
  | next world step => exact .next world (step_of_advance (advance_of_step step).bind)
  | ask world step => exact .ask world (step_bind_of_ask step)

/-- The turn of a runner's thread is a step of the runner, or its script has ended. -/
theorem of_leads {τ σ : Type} {thread : Runner α → τ} {share : Store → σ}
    {finish : Except Fault α → σ → Turn τ σ} {threads : List τ} {x : σ}
    (leads : (w.turn E thread share finish s).Leads world threads x world') :
    (∃ w' s', Tick E (w, s, world) (w', s', world') ∧ threads = [thread w'] ∧ x = share s') ∨
      (∃ a, w = .ready (.done a) ∧ (finish (.ok a) (share s)).Leads world threads x world') ∨
      ∃ e, w = .ready (.raise e) ∧ (finish (.error e) (share s)).Leads world threads x world' := by
  unfold Runner.turn at leads
  split at leads
  · next step =>
    cases leads
    exact .inl ⟨_, _, .next world step, rfl, rfl⟩
  · next step =>
    cases leads
    exact .inl ⟨_, _, .ask world step, rfl, rfl⟩
  · next step =>
    obtain ⟨_, no⟩ | ⟨a, rfl, answer, rfl⟩ | ⟨_, _, no, _⟩ := of_ended step
    · cases no
    · cases answer
      exact .inr (.inl ⟨_, rfl, leads⟩)
    · cases no
  · next step =>
    obtain ⟨_, no⟩ | ⟨_, _, no, _⟩ | ⟨e, rfl, fault, rfl⟩ := of_ended step
    · cases no
    · cases no
    · cases fault
      exact .inr (.inr ⟨_, rfl, leads⟩)
  · cases leads

end Runner

namespace Output

/-- Performs cells one after another. -/
def performAll : List Ref → Script Unit
  | [] => pure ()
  | r :: rs => do performCell r; performAll rs

/-- What is left to perform after the first outputs. -/
def performFrom (outputs : List Output) (place : Nat) : Script Unit :=
  performAll ((outputs.drop place).map Output.cell)

theorem performFrom_of_found {outputs : List Output} {place : Nat} {o : Output}
    (found : outputs[place]? = some o) :
    performFrom outputs place = performCell o.cell >>= fun _ => performFrom outputs (place + 1) := by
  obtain ⟨bound, rfl⟩ := List.getElem?_eq_some_iff.1 found
  simp only [performFrom, List.drop_eq_getElem_cons bound, List.map_cons, performAll]

/-- Who has the permit, of so many that are free, with so many outputs begun and so many ended; and
    what is left to do for a thread that performs all of them. -/
inductive Holder (outputs : List Output) : List Noted → Nat → Nat → Nat → Runner Unit → Prop where
  | nobody {k : Nat} {solo : Runner Unit} (rest : solo = .ready (performFrom outputs k)) :
      Holder outputs [] 1 k k solo
  | performs {k : Nat} {w solo : Runner Unit}
      (rest : solo = w.bind fun _ => performFrom outputs (k + 1)) :
      Holder outputs [⟨.perform w, .performs (.output k)⟩] 0 (k + 1) k solo
  | leaves {k : Nat} {solo : Runner Unit} (rest : solo = .ready (performFrom outputs (k + 1))) :
      Holder outputs [⟨.leave, .performs (.output k)⟩] 0 (k + 1) (k + 1) solo

theorem Holder.short {outputs : List Output} {ts : List Noted} {free begun ended : Nat}
    {solo : Runner Unit} (holder : Holder outputs ts free begun ended solo) : ts.length ≤ 1 := by
  cases holder <;> simp

/-- The main loop, of which so many outputs have been begun. Without a failure it ends with the
    list. -/
inductive Loop (outputs : List Output) (failure : Option Fault) : List Noted → Nat → Prop where
  | looks {k : Nat} : Loop outputs failure [⟨.main (outputs.drop k), .main k⟩] k
  | waits {k : Nat} {cell : Ref} (found : outputs[k]? = some ⟨cell, false⟩) :
      Loop outputs failure
        [⟨.acquire cell (.main (outputs.drop (k + 1))), .waits (.output k) (.main (k + 1))⟩] k
  | ended {k : Nat} (all : failure = none → outputs.length ≤ k) : Loop outputs failure [] k

theorem Loop.short {outputs : List Output} {failure : Option Fault} {ts : List Noted} {begun : Nat}
    (loop : Loop outputs failure ts begun) : ts.length ≤ 1 := by
  cases loop <;> simp

/-- A thread that performs all outputs, beside others. -/
structure Solo where
  runner : Runner Unit
  others : List Thread
  store : Store
  world : World

/-- One step of it, or a turn of one of the others. -/
inductive Solo.Step (E : Engine) : Solo → Solo → Prop where
  | tick {w w' : Runner Unit} {others : List Thread} {s s' : Store} {world world' : World}
      (tick : Runner.Tick E (w, s, world) (w', s', world')) :
      Step E ⟨w, others, s, world⟩ ⟨w', others, s', world'⟩
  | other {w : Runner Unit} {others others' : List Thread} {s s' : Store} {world world' : World}
      (step : Crew.Step (Thread.turn E) (others, { store := s, free := 0 }, world)
        (others', { store := s', free := 0 }, world')) :
      Step E ⟨w, others, s, world⟩ ⟨w, others', s', world'⟩

/-- With one permit the threads are whoever has it, the main loop and the workers. -/
structure Single (outputs : List Output) (holder loop pool : List Noted) (x : Journal)
    (solo : Solo) : Prop where
  holder : Holder outputs holder x.shared.free x.begun.length x.ended.length solo.runner
  loop : Loop outputs x.shared.failure loop x.begun.length
  workers : ∀ t ∈ pool, ∃ w, t = ⟨.work w, .works⟩
  others : pool.map Noted.thread = solo.others
  store : x.shared.store = solo.store
  begun : x.begun = (outputs.take x.begun.length).mapIdx fun i o => (.output i, o.cell)
  ended : x.ended.map Prod.fst = (List.range x.ended.length).map fun i => .item (.output i)

section
variable {E : Engine} {outputs : List Output} {x x' : Journal} {world world' : World} {t : Noted}
variable {ts : List Noted}

theorem Noted.of_leads (leads : (t.turn E x).Leads world ts x' world') :
    ∃ threads shared, ts = threads.map t.heir ∧
      (t.thread.turn E x.shared).Leads world threads shared world' ∧
      x' = { shared, begun := x.begun ++ t.begins, ended := x.ended ++ t.ends } := by
  unfold Noted.turn at leads
  split at leads
  · next moved =>
    cases leads
    exact ⟨_, _, rfl, by rw [moved]; exact .goOn .., rfl⟩
  · next moved =>
    cases leads
    exact ⟨_, _, rfl, by rw [moved]; exact .ask .., rfl⟩
  · cases leads

/-- A worker that takes a turn leaves permits and failure alone. -/
theorem of_leads_work {w : Worker} {x x' : Shared} {threads : List Thread}
    (leads : (Thread.turn E (.work w) x).Leads world threads x' world') :
    (∀ t ∈ threads, ∃ w, t = .work w) ∧ x' = { x with store := x'.store } ∧
      ∀ free failure, (Thread.turn E (.work w) ⟨x.store, free, failure⟩).Leads world threads
        ⟨x'.store, free, failure⟩ world' := by
  have all {ws : List Worker} : ∀ t ∈ ws.map Thread.work, ∃ w, t = .work w := by
    intro t member
    obtain ⟨w, _, rfl⟩ := List.mem_map.1 member
    exact ⟨w, rfl⟩
  obtain ⟨s, free, failure⟩ := x
  simp only [Thread.turn] at leads ⊢
  cases turned : w.turn E s with
  | goOn ws s' =>
    rw [turned] at leads
    cases leads
    exact ⟨all, rfl, fun free failure => .goOn ..⟩
  | ask q next s' =>
    rw [turned] at leads
    cases leads
    exact ⟨all, rfl, fun free failure => .ask ..⟩
  | wait s' =>
    rw [turned] at leads
    cases leads

theorem of_leads_perform {w : Runner Unit} {x x' : Shared} {threads : List Thread}
    (leads : (Thread.turn E (.perform w) x).Leads world threads x' world') :
    (∃ w' s', Runner.Tick E (w, x.store, world) (w', s', world') ∧ threads = [.perform w'] ∧
      x' = { x with store := s' }) ∨
      world' = world ∧ threads = [.leave] ∧
        (w = .ready (.done ()) ∧ x' = x ∨ ∃ e, w = .ready (.raise e) ∧ x' = x.record e) := by
  obtain ⟨s, free, failure⟩ := x
  simp only [Thread.turn] at leads
  rcases Runner.of_leads leads with ⟨w', s', tick, rfl, rfl⟩ | ⟨_, rfl, ended⟩ | ⟨e, rfl, ended⟩
  · exact .inl ⟨w', s', tick, rfl, rfl⟩
  · cases ended
    exact .inr ⟨rfl, rfl, .inl ⟨rfl, rfl⟩⟩
  · cases ended
    exact .inr ⟨rfl, rfl, .inr ⟨e, rfl, rfl⟩⟩

/-- A performer that takes a step has not come to its end. -/
theorem Noted.ends_of_tick {w : Runner Unit} {s : Store} {y : Runner Unit × Store × World}
    (tick : Runner.Tick E (w, s, world) y) (mark : Mark) : ends ⟨.perform w, mark⟩ = [] := by
  have undone : w ≠ .ready (.done ()) := by
    rintro rfl
    generalize start : (Runner.ready (Script.done ()), s, world) = x at tick
    cases tick <;> cases start <;> next step => cases step
  have unfailed (e : Fault) : w ≠ .ready (.raise e) := by
    rintro rfl
    generalize start : (Runner.ready (Script.raise e), s, world) = x at tick
    cases tick <;> cases start <;> next step => cases step
  unfold ends
  split <;> simp_all

namespace Single
variable {holder loop pool holder' loop' pool' : List Noted} {solo solo' : Solo}

/-- Nothing has begun or ended. -/
theorem keep (single : Single outputs holder loop pool x solo) (begun : x'.begun = x.begun)
    (ended : x'.ended = x.ended)
    (who : Holder outputs holder' x'.shared.free x.begun.length x.ended.length solo'.runner)
    (main : Loop outputs x'.shared.failure loop' x.begun.length)
    (workers : ∀ t ∈ pool', ∃ w, t = ⟨.work w, .works⟩)
    (others : pool'.map Noted.thread = solo'.others) (store : x'.shared.store = solo'.store) :
    Single outputs holder' loop' pool' x' solo' := by
  refine ⟨?_, ?_, workers, others, store, ?_, ?_⟩
  · rw [begun, ended]
    exact who
  · rw [begun]
    exact main
  · rw [begun]
    exact single.begun
  · rw [ended]
    exact single.ended

/-- A turn leads to a moment of the same kind. Unless an output fails, the thread that performs all of
    them has taken the same step, or none. -/
def Steps (E : Engine) (outputs : List Output) (solo : Solo) (ts : List Noted) (x : Journal)
    (world : World) : Prop :=
  ∃ holder loop pool solo', ts = holder ++ loop ++ pool ∧
    Single outputs holder loop pool x solo' ∧ solo'.world = world ∧
    (x.shared.failure = none → solo' = solo ∨ Solo.Step E solo solo')

/-- An output that comes to its end. -/
theorem steps_of_ended {k : Nat} {w : Runner Unit} {o : Except Fault Unit}
    (single : Single outputs [⟨.perform w, .performs (.output k)⟩] loop pool x solo)
    (begun : x'.begun = x.begun) (ended : x'.ended = x.ended ++ [(.item (.output k), o)])
    (store : x'.shared.store = x.shared.store) (free : x'.shared.free = x.shared.free)
    (fine : x'.shared.failure = none → x.shared.failure = none ∧ w = .ready (.done ())) :
    Steps E outputs solo ([⟨.leave, .performs (.output k)⟩] ++ loop ++ pool) x' solo.world := by
  obtain ⟨who, main, workers, others, same, first, last⟩ := single
  generalize counted : x.begun.length = b at who main first
  generalize closed : x.ended.length = e at who last
  generalize permits : x.shared.free = p at who free
  cases who with
  | performs rest =>
    refine ⟨_, loop, pool, { solo with runner := .ready (performFrom outputs (k + 1)) }, rfl,
      ⟨?_, ?_, workers, others, store.trans same, ?_, ?_⟩, rfl, fun unfailed => .inl ?_⟩
    · rw [begun, counted, ended, List.length_append, closed, free]
      exact .leaves rfl
    · rw [begun, counted]
      cases main with
      | looks => exact .looks
      | waits found => exact .waits found
      | ended all => exact .ended fun unfailed => all (fine unfailed).1
    · rw [begun, counted]
      exact first
    · rw [ended, List.length_append, closed, List.map_append, last]
      simp [List.range_succ]
    · rw [(fine unfailed).2] at rest
      exact congrArg (fun w => { solo with runner := w }) rest.symm

theorem steps_of_holder (single : Single outputs [t] loop pool x solo)
    (leads : (t.turn E x).Leads solo.world ts x' world') :
    Steps E outputs solo (ts ++ loop ++ pool) x' world' := by
  obtain ⟨threads, shared', rfl, moved, rfl⟩ := Noted.of_leads leads
  have who := single.holder
  generalize counted : x.begun.length = k at who
  generalize closed : x.ended.length = l at who
  generalize permits : x.shared.free = free at who
  cases who with
  | @performs _ w _ rest =>
    rcases of_leads_perform moved with ⟨w', s', tick, rfl, rfl⟩ |
      ⟨rfl, rfl, ⟨rfl, rfl⟩ | ⟨e, rfl, rfl⟩⟩
    · rw [Noted.ends_of_tick tick, List.append_nil]
      rw [single.store] at tick
      refine ⟨[⟨.perform w', .performs (.output l)⟩], loop, pool,
        ⟨w'.bind fun _ => performFrom outputs (l + 1), solo.others, s', world'⟩, rfl,
        single.keep (List.append_nil _) rfl ?_ single.loop single.workers single.others rfl, rfl,
        fun _ => .inr ?_⟩
      · rw [counted, closed, permits]
        exact .performs rfl
      · have ticked := tick.bind fun _ => performFrom outputs (l + 1)
        have step : Solo.Step E ⟨_, solo.others, _, _⟩ ⟨_, solo.others, _, _⟩ := .tick ticked
        rw [← rest] at step
        exact step
    · exact single.steps_of_ended (List.append_nil _) rfl rfl rfl fun fine => ⟨fine, rfl⟩
    · refine single.steps_of_ended (List.append_nil _) rfl rfl rfl fun fine => ?_
      rw [Shared.record] at fine
      cases failed : x.shared.failure <;> simp [failed] at fine
  | leaves rest =>
    cases moved
    refine ⟨[], loop, pool, solo, rfl, single.keep (List.append_nil _) (List.append_nil _) ?_
      single.loop single.workers single.others single.store, rfl, fun _ => .inl rfl⟩
    rw [counted, closed, permits]
    exact .nobody rest

theorem steps_of_worker {before after : List Noted}
    (single : Single outputs holder loop (before ++ t :: after) x solo)
    (leads : (t.turn E x).Leads solo.world ts x' world') :
    Steps E outputs solo (holder ++ loop ++ (before ++ ts ++ after)) x' world' := by
  obtain ⟨threads, shared', rfl, moved, rfl⟩ := Noted.of_leads leads
  obtain ⟨w, rfl⟩ := single.workers t (by simp)
  obtain ⟨workers, same, alone⟩ := of_leads_work moved
  have others := single.others
  rw [List.map_append, List.map_cons] at others
  refine ⟨holder, loop, before ++ threads.map (Noted.heir ⟨.work w, .works⟩) ++ after,
    { solo with
      others := before.map Noted.thread ++ threads ++ after.map Noted.thread
      store := shared'.store
      world := world' }, rfl, single.keep (List.append_nil _) (List.append_nil _) ?_ ?_ ?_ ?_ rfl,
    rfl, fun _ => .inr ?_⟩
  · rw [same]
    exact single.holder
  · rw [same]
    exact single.loop
  · intro t member
    simp only [List.mem_append, List.mem_map] at member
    rcases member with (left | ⟨thread, mine, rfl⟩) | right
    · exact single.workers t (by simp [left])
    · obtain ⟨w', rfl⟩ := workers thread mine
      exact ⟨w', rfl⟩
    · exact single.workers t (by simp [right])
  · simp [Noted.heir, Function.comp_def]
  · have step := Crew.step_of_leads (alone 0 none) (before.map Noted.thread)
      (after.map Noted.thread)
    rw [others, single.store] at step
    exact .other step

/-- The main loop looks at the next output. -/
theorem steps_of_main {k : Nat} (plain : ∀ o ∈ outputs, o.expanded = false)
    (single : Single outputs holder [⟨.main (outputs.drop k), .main k⟩] pool x solo)
    (counted : x.begun.length = k)
    (leads : (Noted.turn E ⟨.main (outputs.drop k), .main k⟩ x).Leads solo.world ts x' world') :
    Steps E outputs solo (holder ++ ts ++ pool) x' world' := by
  obtain ⟨threads, shared', rfl, moved, rfl⟩ := Noted.of_leads leads
  have stays (loop' : List Noted) (main : Loop outputs x.shared.failure loop' x.begun.length) :
      Steps E outputs solo (holder ++ loop' ++ pool)
        { shared := x.shared, begun := x.begun ++ [], ended := x.ended ++ [] } solo.world :=
    ⟨holder, loop', pool, solo, rfl, single.keep (List.append_nil _) (List.append_nil _)
      single.holder main single.workers single.others single.store, rfl, fun _ => .inl rfl⟩
  rcases Nat.lt_or_ge k outputs.length with inside | outside
  · rw [List.drop_eq_getElem_cons inside] at moved ⊢
    have unexpanded := plain _ (List.getElem_mem inside)
    simp only [Thread.turn, unexpanded, Bool.false_eq_true, ↓reduceIte] at moved
    split at moved
    · next failed =>
      cases moved
      exact stays [] (.ended fun fine => by simp [fine] at failed)
    · cases moved
      refine stays [⟨.acquire outputs[k].cell (.main (outputs.drop (k + 1))),
        .waits (.output k) (.main (k + 1))⟩] ?_
      rw [counted]
      refine .waits (List.getElem?_eq_some_iff.2 ⟨inside, ?_⟩)
      rw [← unexpanded]
  · rw [List.drop_eq_nil_of_le outside] at moved ⊢
    cases moved
    exact stays [] (.ended fun _ => by omega)

/-- The main loop takes the permit, which nobody has then, and begins the next output. -/
theorem steps_of_acquire {k : Nat} {cell : Ref}
    (single : Single outputs holder [⟨.acquire cell (.main (outputs.drop (k + 1))),
      .waits (.output k) (.main (k + 1))⟩] pool x solo)
    (counted : x.begun.length = k) (found : outputs[k]? = some ⟨cell, false⟩)
    (leads : (Noted.turn E ⟨.acquire cell (.main (outputs.drop (k + 1))),
      .waits (.output k) (.main (k + 1))⟩ x).Leads solo.world ts x' world') :
    Steps E outputs solo (holder ++ ts ++ pool) x' world' := by
  obtain ⟨threads, shared', rfl, moved, rfl⟩ := Noted.of_leads leads
  obtain ⟨⟨s, free, failure⟩, begun, ended⟩ := x
  obtain ⟨who, _, workers, others, store, first, last⟩ := single
  dsimp only at who moved counted
  generalize counted' : begun.length = b at who
  generalize closed : ended.length = e at who
  cases who with
  | performs => cases moved
  | leaves => cases moved
  | nobody rest =>
    cases moved
    have same : b = k := counted'.symm.trans counted
    subst same
    have more : (begun ++ [(Item.output b, cell)]).length = b + 1 := by
      rw [List.length_append, counted, List.length_singleton]
    refine ⟨[⟨.perform (.ready (performCell cell)), .performs (.output b)⟩],
      [⟨.main (outputs.drop (b + 1)), .main (b + 1)⟩], pool, solo, rfl,
      ⟨?_, ?_, workers, others, store, ?_, ?_⟩, rfl, fun _ => .inl rfl⟩
    · dsimp only
      rw [Noted.begins, more, Noted.ends, List.append_nil, closed]
      refine .performs ?_
      rw [rest, performFrom_of_found found]
      rfl
    · dsimp only
      rw [Noted.begins, more]
      exact .looks
    · dsimp only [Noted.begins] at first ⊢
      have bound := (List.getElem?_eq_some_iff.1 found).1
      rw [counted] at first
      rw [more, List.take_add_one, found, Option.toList_some, List.mapIdx_append, ← first]
      simp [Nat.min_eq_left bound.le]
    · rw [Noted.ends, List.append_nil]
      exact last

/-- The main loop's turn: it looks at the next output, or takes the permit for it. -/
theorem steps_of_loop (plain : ∀ o ∈ outputs, o.expanded = false)
    (single : Single outputs holder [t] pool x solo)
    (leads : (t.turn E x).Leads solo.world ts x' world') :
    Steps E outputs solo (holder ++ ts ++ pool) x' world' := by
  have main := single.loop
  generalize counted : x.begun.length = k at main
  cases main with
  | looks => exact single.steps_of_main plain counted leads
  | waits found => exact single.steps_of_acquire counted found leads

/-- One thread of a list and who stands before and after it, in a list of two parts. -/
theorem place_of_append {α : Type} {xs ys before after : List α} {t : α}
    (parts : xs ++ ys = before ++ t :: after) :
    (∃ mid, xs = before ++ t :: mid ∧ after = mid ++ ys) ∨
      ∃ mid, ys = mid ++ t :: after ∧ before = xs ++ mid := by
  rcases List.append_eq_append_iff.1 parts with ⟨mid, left, right⟩ | ⟨mid, left, right⟩
  · exact .inr ⟨mid, right, left⟩
  · cases mid with
    | nil => exact .inr ⟨[], by simpa using right.symm, by simpa using left.symm⟩
    | cons u mid =>
      cases right
      exact .inl ⟨mid, left, rfl⟩

theorem alone_of_length {α : Type} {xs before after : List α} {t : α} (short : xs.length ≤ 1)
    (parts : xs = before ++ t :: after) : before = [] ∧ after = [] := by
  have total := congrArg List.length parts
  simp only [List.length_append, List.length_cons] at total
  exact ⟨List.length_eq_zero_iff.1 (by omega), List.length_eq_zero_iff.1 (by omega)⟩

/-- What one turn preserves. -/
theorem steps_of_step (plain : ∀ o ∈ outputs, o.expanded = false)
    (single : Single outputs holder loop pool x solo) {b : List Noted × Journal × World}
    (step : Crew.Step (Noted.turn E) (holder ++ loop ++ pool, x, solo.world) b) :
    Steps E outputs solo b.1 b.2.1 b.2.2 := by
  obtain ⟨before, t, after, threads, parts, parts', leads⟩ := Crew.leads_of_step step
  rw [parts']
  rcases place_of_append parts with ⟨mid, front, rfl⟩ | ⟨mid, rfl, rfl⟩
  · rcases place_of_append front with ⟨mid', rfl, rfl⟩ | ⟨mid', rfl, rfl⟩
    · obtain ⟨rfl, rfl⟩ := alone_of_length single.holder.short rfl
      simpa using single.steps_of_holder leads
    · obtain ⟨rfl, rfl⟩ := alone_of_length single.loop.short rfl
      simpa using single.steps_of_loop plain leads
  · simpa using single.steps_of_worker leads

end Single

/-- A run starts with one permit, the main loop and the workers. -/
theorem single_start (outputs : List Output) {permits : Nat} (one : permits ≤ 1) (s : Store)
    (w : World) :
    Single outputs [] [⟨.main outputs, .main 0⟩] (List.replicate workers ⟨.work .idle, .works⟩)
      { shared := .start permits s }
      ⟨.ready (performFrom outputs 0), List.replicate workers (.work .idle), s, w⟩ := by
  have free : (Shared.start permits s).free = 1 := by simp [Shared.start]; omega
  have main : Loop outputs none [⟨.main (outputs.drop 0), .main 0⟩] 0 := .looks
  refine ⟨?_, main, ?_, by simp, rfl, rfl, rfl⟩
  · rw [free]
    exact .nobody rfl
  · intro t member
    exact ⟨.idle, List.eq_of_mem_replicate member⟩

end

end Output
end CallByNeed
