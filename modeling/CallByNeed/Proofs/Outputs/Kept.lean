import CallByNeed.Proofs.Outputs.Turns

/- What every turn keeps true of marked threads and their journal: all that has been started runs or
   has ended, all that has ended has done so as its cell says, and the failure is the first fault in
   the journal. -/
namespace CallByNeed

theorem Runner.Goes.served {α : Type} {E : Engine} {w w' : Runner α} {s s' : Store}
    (goes : w.Goes E s w' s') (forcing : s.heap.Forcing w.owned) (apart : w.owned.Nodup) :
    (∃ handed, s.heap.Served s'.heap w.owned w'.owned handed) ∧ s.heap.Before s'.heap := by
  rcases goes with advance | ⟨q, next, a, asks, rfl⟩
  · exact ⟨advance.served forcing apart, advance.before forcing⟩
  · obtain ⟨rfl, _⟩ := Runner.of_ask asks
    rw [Runner.owned_of_ask asks a]
    exact ⟨⟨[], Heap.served_same forcing⟩, Heap.before_refl _⟩

theorem Runner.Goes.tells {α : Type} {E : Engine} {w w' : Runner α} {s s' : Store}
    {whole : Script α} (goes : w.Goes E s w' s') (forcing : s.heap.Forcing w.owned)
    (tells : w.Tells s.heap whole) : w'.Tells s'.heap whole := by
  rcases goes with advance | ⟨q, next, a, asks, rfl⟩
  · exact tells.step advance forcing
  · exact tells.ask asks a

namespace Output

/-- To perform a cell is to demand the result of its effect. -/
theorem isReader_performCell (r : Ref) : (performCell r).IsReader := by
  refine Script.IsReader.bind (.demand .effect r .done) fun v => ?_
  cases v with
  | error e => exact .raise e
  | _ => exact .done ()

section
variable {E : Engine} {outputs : List Output} {h h' : Heap} {begun begun' : List (Item × Ref)}
variable {x x' : Journal} {t t' : Thread} {mark : Mark} {s s' : Store}

theorem Thread.Proceeds.served (forces : t.Proceeds E s t' s') (forcing : s.heap.Forcing t.owned)
    (apart : t.owned.Nodup) :
    (∃ handed, s.heap.Served s'.heap t.owned t'.owned handed) ∧ s.heap.Before s'.heap := by
  cases forces with
  | walk goes => exact goes.served forcing apart
  | perform goes => exact goes.served forcing apart
  | job goes => exact goes.served forcing apart
  | @idle w w' _ _ before after same =>
    have nothing : (Thread.work w').owned = (Thread.work w).owned := after.trans before.symm
    rw [nothing, same]
    exact ⟨⟨[], Heap.served_same forcing⟩, Heap.before_refl _⟩

theorem Item.Names.before {item : Item} {cell : Ref} (before : h.Before h')
    (names : item.Names outputs h cell) : item.Names outputs h' cell := by
  cases names with
  | output plain => exact .output plain
  | element expanded lists => exact .element expanded (lists.before before)

/-- A thread fits its mark as long as cells are forced and items are started. -/
theorem Fits.later (fits : Fits outputs h begun t mark) (before : h.Before h')
    (more : begun ⊆ begun') : Fits outputs h' begun' t mark := by
  induction fits with
  | main => exact .main
  | acquire names free _ ih => exact .acquire (names.before before) free ih
  | walk expanded lists tells => exact .walk expanded (lists.before before) (tells.before before)
  | reach expanded lists yields =>
    exact .reach expanded (lists.before before) (before.yields yields)
  | perform started tells => exact .perform (more started) (tells.before before)
  | leave => exact .leave
  | work => exact .work

theorem Fits.forces (fits : Fits outputs s.heap begun t mark) (forces : t.Proceeds E s t' s')
    (forcing : s.heap.Forcing t.owned) (before : s.heap.Before s'.heap) :
    Fits outputs s'.heap begun t' mark := by
  cases forces with
  | walk goes =>
    cases fits with
    | walk expanded lists tells =>
      exact .walk expanded (lists.before before) (goes.tells forcing tells)
  | perform goes =>
    cases fits with
    | perform started tells => exact .perform started (goes.tells forcing tells)
  | job goes =>
    cases fits
    exact .work
  | idle =>
    cases fits
    exact .work

end

/-- How what has ended has done so, by what its cell has become. -/
inductive Duty.Ends (outputs : List Output) (x : Journal) : Duty → Except Fault Unit → Prop where
  | item {item : Item} {cell : Ref} {o : Except Fault Unit} (started : (item, cell) ∈ x.begun)
      (reads : (performCell cell).Reads x.shared.store.heap o) : Ends outputs x (.item item) o
  | walked {place : Nat} {list : Ref} {heads : List Ref}
      (expanded : outputs[place]? = some ⟨list, true⟩)
      (elements : x.shared.store.heap.Elements list heads) : Ends outputs x (.walk place) (.ok ())
  | lost {place : Nat} {list tail : Ref} {heads : List Ref} {e : Fault}
      (expanded : outputs[place]? = some ⟨list, true⟩)
      (lists : x.shared.store.heap.Lists list heads tail)
      (reads : (forceList tail).Reads x.shared.store.heap (.error e)) :
      Ends outputs x (.walk place) (.error e)

/-- The first fault in a journal. -/
def firstFault (ended : List (Duty × Except Fault Unit)) : Option Fault :=
  ended.findSome? fun p =>
    match p.2 with
    | .ok () => none
    | .error e => some e

structure Kept (outputs : List Output) (ts : List Noted) (x : Journal) : Prop where
  apart : (ts.flatMap (·.thread.owned)).Nodup
  forcing : x.shared.store.heap.Forcing (ts.flatMap (·.thread.owned))
  fits : ∀ t ∈ ts, Fits outputs x.shared.store.heap x.begun t.thread t.mark
  names : ∀ p ∈ x.begun, p.1.Names outputs x.shared.store.heap p.2
  runs : ∀ p ∈ x.begun, (∃ w, ⟨.perform w, .performs p.1⟩ ∈ ts) ∨ ∃ o, (.item p.1, o) ∈ x.ended
  ends : ∀ p ∈ x.ended, p.1.Ends outputs x p.2
  failure : x.shared.failure = firstFault x.ended

/-- A later journal: the heap may have changed, and more may be noted. -/
structure Journal.Before (x x' : Journal) : Prop where
  heap : x.shared.store.heap.Before x'.shared.store.heap
  begun : x.begun ⊆ x'.begun
  ended : x.ended ⊆ x'.ended

section
variable {E : Engine} {outputs : List Output} {x x' : Journal} {t : Noted}
variable {ts before after : List Noted}

theorem Duty.Ends.later {duty : Duty} {o : Except Fault Unit} (ends : duty.Ends outputs x o)
    (later : x.Before x') : duty.Ends outputs x' o := by
  cases ends with
  | item started reads => exact .item (later.begun started) (reads.before later.heap)
  | walked expanded elements => exact .walked expanded (elements.before later.heap)
  | lost expanded lists reads =>
    exact .lost expanded (lists.before later.heap) (reads.before later.heap)

namespace Noted

/-- The threads of a turn go on with the cells that their thread was forcing. -/
theorem Goes.served (goes : t.Goes E outputs x ts x')
    (forcing : x.shared.store.heap.Forcing t.thread.owned) (apart : t.thread.owned.Nodup) :
    ∃ handed, x.shared.store.heap.Served x'.shared.store.heap t.thread.owned
      (ts.flatMap (·.thread.owned)) handed := by
  cases goes with
  | force forces =>
    obtain ⟨⟨handed, served⟩, _⟩ := forces.served forcing apart
    exact ⟨handed, by simpa using served⟩
  | giveUp failed idle =>
    rw [idle.1]
    exact ⟨[], Heap.served_same (by simp [Heap.Forcing])⟩
  | begin permit =>
    refine ⟨[], ?_⟩
    simpa [Thread.owned, Runner.owned] using Heap.served_same forcing
  | _ => exact ⟨[], Heap.served_same forcing⟩

theorem Goes.later (goes : t.Goes E outputs x ts x')
    (forcing : x.shared.store.heap.Forcing t.thread.owned) (apart : t.thread.owned.Nodup) :
    x.Before x' := by
  cases goes with
  | force forces => exact ⟨(forces.served forcing apart).2, by simp, by simp⟩
  | _ => exact ⟨Heap.before_refl _, by simp, by simp⟩

theorem Goes.fits (goes : t.Goes E outputs x ts x')
    (fits : Fits outputs x.shared.store.heap x.begun t.thread t.mark)
    (forcing : x.shared.store.heap.Forcing t.thread.owned) (later : x.Before x') :
    ∀ t' ∈ ts, Fits outputs x'.shared.store.heap x'.begun t'.thread t'.mark := by
  cases goes with
  | force forces => simpa using fits.forces forces forcing later.heap
  | finish | giveUp | walked | lost | leave => simp
  | expand expanded =>
    have walk : Fits outputs x.shared.store.heap x.begun _ _ := .walk expanded .nil
      (Runner.tells_start (Script.isReader_forceList _) x.shared.store.heap)
    simpa using ⟨walk, .main⟩
  | offer plain => simpa using Fits.acquire (.output plain) rfl .main
  | @begin cell _ item _ _ permit =>
    cases fits with
    | acquire names _ rest =>
      have started : (item, cell) ∈ x.begun ++ [(item, cell)] := by simp
      have performs : Fits outputs _ _ _ _ := .perform started
        (Runner.tells_start (isReader_performCell cell) x.shared.store.heap)
      simpa using ⟨performs, rest.later (Heap.before_refl _) (by simp)⟩
  | reach =>
    cases fits with
    | walk expanded lists tells =>
      have yields := Script.yields_of_reads_forceList tells.done
      simpa using Fits.reach expanded lists yields
  | element =>
    cases fits with
    | @reach _ _ _ head _ heads expanded lists yields =>
      have walk : Fits outputs x.shared.store.heap x.begun _ _ := .walk expanded (lists.snoc yields)
        (Runner.tells_start (Script.isReader_forceList _) x.shared.store.heap)
      rw [List.length_append] at walk
      simpa using Fits.acquire (.element expanded (lists.snoc yields)) rfl walk
  | performed | failed => simpa using Fits.leave

/-- What a turn starts has its cell and is performed. -/
theorem Goes.begun (goes : t.Goes E outputs x ts x')
    (fits : Fits outputs x.shared.store.heap x.begun t.thread t.mark) :
    ∀ p ∈ x'.begun, p ∈ x.begun ∨ p.1.Names outputs x'.shared.store.heap p.2 ∧
      ∃ w, ⟨.perform w, .performs p.1⟩ ∈ ts := by
  cases goes with
  | begin permit =>
    cases fits with
    | acquire names _ _ =>
      intro p member
      rcases List.mem_append.1 member with old | new
      · exact .inl old
      · rw [List.mem_singleton.1 new]
        exact .inr ⟨names, _, List.mem_cons_self ..⟩
  | _ => exact fun p member => .inl member

/-- An item is performed until it ends. -/
theorem Goes.runs {item : Item} {w : Runner Unit}
    (goes : Goes E outputs x ⟨.perform w, .performs item⟩ ts x') :
    (∃ w', ⟨.perform w', .performs item⟩ ∈ ts) ∨ ∃ o, (.item item, o) ∈ x'.ended := by
  cases goes with
  | force forces =>
    cases forces with
    | perform goes => exact .inl ⟨_, List.mem_singleton_self _⟩
  | giveUp failed idle => cases idle.2
  | performed => exact .inr ⟨.ok (), by simp⟩
  | @failed e => exact .inr ⟨.error e, by simp⟩

theorem Goes.ends (goes : t.Goes E outputs x ts x')
    (fits : Fits outputs x.shared.store.heap x.begun t.thread t.mark) :
    ∀ p ∈ x'.ended, p ∈ x.ended ∨ p.1.Ends outputs x p.2 := by
  have one {duty : Duty} {o : Except Fault Unit} (ends : duty.Ends outputs x o) :
      ∀ p ∈ x.ended ++ [(duty, o)], p ∈ x.ended ∨ p.1.Ends outputs x p.2 := by
    intro p member
    rcases List.mem_append.1 member with old | new
    · exact .inl old
    · rw [List.mem_singleton.1 new]
      exact .inr ends
  cases goes with
  | walked =>
    cases fits with
    | walk expanded lists tells =>
      have yields := Script.yields_of_reads_forceList tells.done
      exact one (.walked expanded ⟨_, lists, yields⟩)
  | lost =>
    cases fits with
    | walk expanded lists tells => exact one (.lost expanded lists tells.raise)
  | performed =>
    cases fits with
    | perform started tells => exact one (.item started tells.done)
  | failed =>
    cases fits with
    | perform started tells => exact one (.item started tells.raise)
  | _ => exact fun p member => .inl member

theorem Goes.failure (goes : t.Goes E outputs x ts x')
    (first : x.shared.failure = firstFault x.ended) :
    x'.shared.failure = firstFault x'.ended := by
  cases goes with
  | walked | performed => simpa [firstFault] using first
  | lost | failed => simp [firstFault, Shared.record, first]
  | _ => exact first

end Noted

/-- A thread forces cells of its own. -/
theorem Kept.own (kept : Kept outputs (before ++ t :: after) x) :
    x.shared.store.heap.Forcing t.thread.owned ∧ t.thread.owned.Nodup := by
  have apart := kept.apart
  simp only [List.flatMap_append, List.flatMap_cons, List.nodup_append] at apart
  refine ⟨fun r member => kept.forcing r ?_, apart.2.1.1⟩
  exact List.mem_flatMap.2 ⟨t, by simp, member⟩

theorem later_of_goes (kept : Kept outputs (before ++ t :: after) x)
    (goes : t.Goes E outputs x ts x') : x.Before x' :=
  goes.later kept.own.1 kept.own.2

theorem kept_of_goes (kept : Kept outputs (before ++ t :: after) x)
    (goes : t.Goes E outputs x ts x') : Kept outputs (before ++ ts ++ after) x' := by
  have apart := kept.apart
  have forcing := kept.forcing
  simp only [List.flatMap_append, List.flatMap_cons] at apart forcing
  have fits := kept.fits t (by simp)
  obtain ⟨forced, mine⟩ := kept.own
  obtain ⟨handed, served⟩ := goes.served forced mine
  have later := later_of_goes kept goes
  constructor
  case apart => simpa using served.apart apart forcing
  case forcing => simpa using served.forcing_all apart forcing
  case fits =>
    intro t' member
    simp only [List.mem_append] at member
    rcases member with (left | new) | right
    · exact (kept.fits t' (by simp [left])).later later.heap later.begun
    · exact goes.fits fits forced later t' new
    · exact (kept.fits t' (by simp [right])).later later.heap later.begun
  case names =>
    intro p member
    rcases goes.begun fits p member with old | ⟨names, _⟩
    · exact (kept.names p old).before later.heap
    · exact names
  case runs =>
    intro p member
    rcases goes.begun fits p member with old | ⟨_, w, new⟩
    · rcases kept.runs p old with ⟨w, running⟩ | ⟨o, ended⟩
      · simp only [List.mem_append, List.mem_cons] at running
        rcases running with left | rfl | right
        · exact .inl ⟨w, by simp [left]⟩
        · rcases goes.runs with ⟨w', still⟩ | ended
          · exact .inl ⟨w', by simp [still]⟩
          · exact .inr ended
        · exact .inl ⟨w, by simp [right]⟩
      · exact .inr ⟨o, later.ended ended⟩
    · exact .inl ⟨w, by simp [new]⟩
  case ends =>
    intro p member
    rcases goes.ends fits p member with old | ends
    · exact (kept.ends p old).later later
    · exact ends.later later
  case failure => exact goes.failure kept.failure

/-- Whose turn it is, and of what kind. -/
theorem Noted.goes_of_step {a b : List Noted × Journal × World} (kept : Kept outputs a.1 a.2.1)
    (step : Crew.Step (Noted.turn E) a b) :
    ∃ before t after ts, a.1 = before ++ t :: after ∧ b.1 = before ++ ts ++ after ∧
      t.Goes E outputs a.2.1 ts b.2.1 := by
  cases step with
  | goOn before after w turned =>
    have fits := kept.fits _ (List.mem_append_right _ (List.mem_cons_self ..))
    exact ⟨before, _, after, _, rfl, rfl, Noted.goes_of_turn fits turned⟩
  | ask before after w turned =>
    have fits := kept.fits _ (List.mem_append_right _ (List.mem_cons_self ..))
    exact ⟨before, _, after, _, rfl, rfl, Noted.goes_of_ask fits turned _⟩

end

end Output
end CallByNeed
