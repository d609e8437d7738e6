import CallByNeed.Output
import CallByNeed.Proofs.Crew
import CallByNeed.Proofs.Known.Threads
import CallByNeed.Proofs.Reading.Runs

/- Runs of outputs with a journal. Each thread is marked with what it does: two outputs may be one
   cell, so cells alone do not tell which of them has been started. No thread looks at marks or
   journal, so a crew that keeps them takes the very turns of one that does not. Marks and threads fit each other: a mark says which output
   a thread belongs to, and the heap says how far its list has been walked. -/
namespace CallByNeed
namespace Output

/-- What may be started: a plain output of the list, or an element of an expanded one. Places count
    from 0. -/
inductive Item where
  | output (place : Nat)
  | element (place index : Nat)
  deriving DecidableEq, Repr

/-- What a fault of the run may come from: an item, or the walk of an expanded output. -/
inductive Duty where
  | item (i : Item)
  | walk (place : Nat)
  deriving DecidableEq, Repr

inductive Mark where
  /-- The main loop, with the place of the first output that is left. -/
  | main (next : Nat)
  /-- Waits to start an item, and goes on with a later mark. -/
  | waits (item : Item) (later : Mark)
  /-- Walks the expanded output at a place, of which so many elements have been reached. -/
  | walks (place reached : Nat)
  | performs (item : Item)
  | works

structure Noted where
  thread : Thread
  mark : Mark

/-- What has been started, by which cell, and what has ended, the earliest first. -/
structure Journal where
  shared : Shared
  begun : List (Item × Ref) := []
  ended : List (Duty × Except Fault Unit) := []

/-- The mark of a thread that comes out of a marked thread's turn. -/
def Mark.after : Mark → Thread → Mark
  | .main next, .acquire _ _ => .waits (.output next) (.main (next + 1))
  | .main next, .walk _ => .walks next 0
  | .main next, _ => .main (next + 1)
  | .waits item _, .perform _ => .performs item
  | .waits _ later, _ => later
  | .walks place reached, .acquire _ _ =>
    .waits (.element place reached) (.walks place (reached + 1))
  | mark, _ => mark

namespace Noted

def heir (t : Noted) (thread : Thread) : Noted := { thread, mark := t.mark.after thread }

/-- The item that the turn of a thread starts, with its cell. -/
def begins (t : Noted) : List (Item × Ref) :=
  match t.thread, t.mark with
  | .acquire cell _, .waits item _ => [(item, cell)]
  | _, _ => []

/-- What the turn of a thread brings to its end. -/
def ends (t : Noted) : List (Duty × Except Fault Unit) :=
  match t.thread, t.mark with
  | .perform (.ready (.done ())), .performs item => [(.item item, .ok ())]
  | .perform (.ready (.raise e)), .performs item => [(.item item, .error e)]
  | .walk (.ready (.done .nil)), .walks place _ => [(.walk place, .ok ())]
  | .walk (.ready (.raise e)), .walks place _ => [(.walk place, .error e)]
  | _, _ => []

/-- The turn of the thread, noted. A thread that waits leaves nothing to note. -/
def turn (E : Engine) (t : Noted) (x : Journal) : Turn Noted Journal :=
  let note (shared : Shared) : Journal :=
    { shared, begun := x.begun ++ t.begins, ended := x.ended ++ t.ends }
  match t.thread.turn E x.shared with
  | .goOn threads shared => .goOn (threads.map t.heir) (note shared)
  | .ask q next shared => .ask q (fun a => (next a).map t.heir) (note shared)
  | .wait shared => .wait { x with shared }

/-- Without marks and journal, a turn is the turn of the thread. -/
theorem turn_erased (E : Engine) (t : Noted) (x : Journal) :
    (t.turn E x).map Noted.thread Journal.shared = t.thread.turn E x.shared := by
  unfold turn
  cases t.thread.turn E x.shared with
  | goOn threads shared => simp [Turn.map, heir, Function.comp_def]
  | ask q next shared => simp [Turn.map, heir, Function.comp_def]
  | wait shared => rfl

end Noted

def notedCrew (outputs : List Output) : List Noted :=
  ⟨.main outputs, .main 0⟩ :: List.replicate workers ⟨.work .idle, .works⟩

/-- A state of a run without marks and journal. -/
abbrev unnoted : List Noted × Journal × World → List Thread × Shared × World :=
  Crew.erase Noted.thread Journal.shared

/-- Every run of outputs can be noted. -/
theorem exists_noted {E : Engine} {permits n : Nat} {outputs : List Output} {s : Store} {w : World}
    {run : Nat → List Thread × Shared × World}
    (first : run 0 = (crew outputs, .start permits s, w)) (steps : Crew.IsRun (Thread.turn E) run n) :
    ∃ noted, noted 0 = (notedCrew outputs, { shared := .start permits s }, w) ∧
      Crew.IsRun (Noted.turn E) noted n ∧ ∀ i ≤ n, unnoted (noted i) = run i := by
  apply Crew.exists_run_of_erased (Noted.turn_erased E) _ steps
  rw [first]
  simp [Crew.erase, notedCrew, crew]

end Output

/-! ### Turns of marked threads -/

namespace Heap

/-- The heads of the cells that a list has up to a tail. -/
inductive Lists (h : Heap) : Ref → List Ref → Ref → Prop where
  | nil {r : Ref} : Lists h r [] r
  | cons {r head tail t : Ref} {heads : List Ref} (yields : h.Yields r (.list (.cons head tail)))
      (rest : Lists h tail heads t) : Lists h r (head :: heads) t

/-- All the heads of a list. -/
def Elements (h : Heap) (r : Ref) (heads : List Ref) : Prop :=
  ∃ t, h.Lists r heads t ∧ h.Yields t (.list .nil)

variable {h h' : Heap} {r t head tail : Ref} {heads all : List Ref}

theorem Lists.before (before : h.Before h') (lists : h.Lists r heads t) : h'.Lists r heads t := by
  induction lists with
  | nil => exact .nil
  | cons yields _ ih => exact .cons (before.yields yields) ih

theorem Elements.before (before : h.Before h') (elements : h.Elements r heads) :
    h'.Elements r heads := by
  obtain ⟨t, lists, ends⟩ := elements
  exact ⟨t, lists.before before, before.yields ends⟩

theorem Lists.snoc (lists : h.Lists r heads t) (yields : h.Yields t (.list (.cons head tail))) :
    h.Lists r (heads ++ [head]) tail := by
  induction lists with
  | nil => exact .cons yields .nil
  | cons first _ ih => exact .cons first (ih yields)

/-- Heads that have been reached are among all heads, at their place. -/
theorem Lists.prefix_of_elements (lists : h.Lists r heads t) (elements : h.Elements r all) :
    heads <+: all := by
  obtain ⟨last, rest, ends⟩ := elements
  induction lists generalizing all with
  | nil => exact List.nil_prefix
  | cons yields _ ih =>
    cases rest with
    | nil => cases Heap.yields_unique yields ends
    | cons yields' rest =>
      cases Heap.yields_unique yields yields'
      exact List.prefix_cons_inj _ |>.2 (ih rest)

end Heap

/-- One step of a runner that is not its last, whatever the host answers. -/
def Runner.Goes {α : Type} (E : Engine) (w : Runner α) (s : Store) (w' : Runner α) (s' : Store) :
    Prop :=
  w.Advance E s w' s' ∨ ∃ q next a, w.step E s = .ask q next s' ∧ w' = next a

/-- Whoever goes on has not come to an end. -/
theorem Runner.Goes.unended {α : Type} {E : Engine} {w w' : Runner α} {s s' : Store}
    (goes : w.Goes E s w' s') : (∀ a, w ≠ .ready (.done a)) ∧ ∀ e, w ≠ .ready (.raise e) := by
  rcases goes with advance | ⟨q, next, a, asks, rfl⟩
  · constructor <;> rintro _ rfl <;> cases advance
  · constructor <;> rintro _ rfl <;> cases asks

namespace Output

/-- An item of a list of outputs, and the cell that it is. -/
inductive Item.Names (outputs : List Output) (h : Heap) : Item → Ref → Prop where
  | output {place : Nat} {cell : Ref} (plain : outputs[place]? = some ⟨cell, false⟩) :
      Names outputs h (.output place) cell
  | element {place : Nat} {list cell tail : Ref} {heads : List Ref}
      (expanded : outputs[place]? = some ⟨list, true⟩)
      (lists : h.Lists list (heads ++ [cell]) tail) :
      Names outputs h (.element place heads.length) cell

/-- Outputs hold a permit from when they start until they give it back. -/
def Thread.holdsPermit : Thread → Bool
  | .perform _ | .leave => true
  | _ => false

inductive Fits (outputs : List Output) (h : Heap) (begun : List (Item × Ref)) :
    Thread → Mark → Prop where
  | main {next : Nat} : Fits outputs h begun (.main (outputs.drop next)) (.main next)
  | acquire {cell : Ref} {next : Thread} {item : Item} {later : Mark}
      (names : item.Names outputs h cell) (free : next.holdsPermit = false)
      (rest : Fits outputs h begun next later) :
      Fits outputs h begun (.acquire cell next) (.waits item later)
  | walk {place : Nat} {list tail : Ref} {heads : List Ref} {w : Runner LazyList}
      (expanded : outputs[place]? = some ⟨list, true⟩) (lists : h.Lists list heads tail)
      (tells : w.Tells h (forceList tail)) :
      Fits outputs h begun (.walk w) (.walks place heads.length)
  | reach {place : Nat} {list tail head rest : Ref} {heads : List Ref}
      (expanded : outputs[place]? = some ⟨list, true⟩) (lists : h.Lists list heads tail)
      (yields : h.Yields tail (.list (.cons head rest))) :
      Fits outputs h begun (.reach head rest) (.walks place heads.length)
  | perform {item : Item} {cell : Ref} {w : Runner Unit} (started : (item, cell) ∈ begun)
      (tells : w.Tells h (performCell cell)) : Fits outputs h begun (.perform w) (.performs item)
  | leave {item : Item} : Fits outputs h begun .leave (.performs item)
  | work {w : Worker} : Fits outputs h begun (.work w) .works

/-- A thread goes on with what it forces. -/
inductive Thread.Proceeds (E : Engine) : Thread → Store → Thread → Store → Prop where
  | walk {w w' : Runner LazyList} {s s' : Store} (goes : w.Goes E s w' s') :
      Proceeds E (.walk w) s (.walk w') s'
  | perform {w w' : Runner Unit} {s s' : Store} (goes : w.Goes E s w' s') :
      Proceeds E (.perform w) s (.perform w') s'
  | job {job : Job} {w w' : Runner Value} {s s' : Store} (goes : w.Goes E s w' s') :
      Proceeds E (.work (.force job w)) s (.work (.force job w')) s'
  /-- A worker takes a job, or is done with one. -/
  | idle {w w' : Worker} {s s' : Store} (before : w.owned = []) (after : w'.owned = [])
      (same : s'.heap = s.heap) : Proceeds E (.work w) s (.work w') s'

/-- All that a turn of a marked thread can do. -/
inductive Noted.Goes (E : Engine) (outputs : List Output) (x : Journal) :
    Noted → List Noted → Journal → Prop where
  | force {t t' : Thread} {mark : Mark} {s' : Store} (forces : t.Proceeds E x.shared.store t' s') :
      Goes E outputs x ⟨t, mark⟩ [⟨t', mark⟩] { x with shared := { x.shared with store := s' } }
  /-- The main loop has come to the end of the list. -/
  | finish {next : Nat} (all : outputs.length ≤ next) :
      Goes E outputs x ⟨.main (outputs.drop next), .main next⟩ [] x
  /-- Whoever looks and finds a failure starts nothing more. -/
  | giveUp {t : Noted} (failed : x.shared.failure.isSome)
      (idle : t.thread.owned = [] ∧ t.thread.holdsPermit = false) : Goes E outputs x t [] x
  | expand {next : Nat} {list : Ref} (expanded : outputs[next]? = some ⟨list, true⟩) :
      Goes E outputs x ⟨.main (outputs.drop next), .main next⟩
        [⟨.walk (.ready (forceList list)), .walks next 0⟩,
          ⟨.main (outputs.drop (next + 1)), .main (next + 1)⟩] x
  | offer {next : Nat} {cell : Ref} (plain : outputs[next]? = some ⟨cell, false⟩) :
      Goes E outputs x ⟨.main (outputs.drop next), .main next⟩
        [⟨.acquire cell (.main (outputs.drop (next + 1))),
          .waits (.output next) (.main (next + 1))⟩] x
  | begin {cell : Ref} {next : Thread} {item : Item} {later : Mark} {free : Nat}
      (permit : x.shared.free = free + 1) :
      Goes E outputs x ⟨.acquire cell next, .waits item later⟩
        [⟨.perform (.ready (performCell cell)), .performs item⟩, ⟨next, later⟩]
        { x with shared := { x.shared with free }, begun := x.begun ++ [(item, cell)] }
  | reach {head tail : Ref} {place reached : Nat} :
      Goes E outputs x ⟨.walk (.ready (.done (.cons head tail))), .walks place reached⟩
        [⟨.reach head tail, .walks place reached⟩] x
  | element {head tail : Ref} {place reached : Nat} :
      Goes E outputs x ⟨.reach head tail, .walks place reached⟩
        [⟨.acquire head (.walk (.ready (forceList tail))),
          .waits (.element place reached) (.walks place (reached + 1))⟩] x
  | walked {place reached : Nat} :
      Goes E outputs x ⟨.walk (.ready (.done .nil)), .walks place reached⟩ []
        { x with ended := x.ended ++ [(.walk place, .ok ())] }
  | lost {e : Fault} {place reached : Nat} :
      Goes E outputs x ⟨.walk (.ready (.raise e)), .walks place reached⟩ []
        { x with
          shared := x.shared.record e
          ended := x.ended ++ [(.walk place, .error e)] }
  | performed {item : Item} :
      Goes E outputs x ⟨.perform (.ready (.done ())), .performs item⟩ [⟨.leave, .performs item⟩]
        { x with ended := x.ended ++ [(.item item, .ok ())] }
  | failed {e : Fault} {item : Item} :
      Goes E outputs x ⟨.perform (.ready (.raise e)), .performs item⟩
        [⟨.leave, .performs item⟩]
        { x with
          shared := x.shared.record e
          ended := x.ended ++ [(.item item, .error e)] }
  | leave {item : Item} :
      Goes E outputs x ⟨.leave, .performs item⟩ []
        { x with shared := { x.shared with free := x.shared.free + 1 } }

/-- The turn of a runner's thread goes on with the runner, or ends its script. -/
theorem goes_of_turn {α τ σ : Type} {E : Engine} {thread : Runner α → τ} {share : Store → σ}
    {finish : Except Fault α → σ → Turn τ σ} {w : Runner α} {s : Store} {threads : List τ} {x : σ}
    (turned : w.turn E thread share finish s = .goOn threads x) :
    (∃ w' s', w.Goes E s w' s' ∧ threads = [thread w'] ∧ x = share s') ∨
      (∃ a, w = .ready (.done a) ∧ finish (.ok a) (share s) = .goOn threads x) ∨
      ∃ e, w = .ready (.raise e) ∧ finish (.error e) (share s) = .goOn threads x := by
  unfold Runner.turn at turned
  split at turned
  · next moved =>
    cases turned
    exact .inl ⟨_, _, .inl (Runner.advance_of_step moved), rfl, rfl⟩
  · cases turned
  · next ended =>
    obtain ⟨_, no⟩ | ⟨a, rfl, answer, rfl⟩ | ⟨_, _, no, _⟩ := Runner.of_ended ended
    · cases no
    · cases answer
      exact .inr (.inl ⟨_, rfl, turned⟩)
    · cases no
  · next ended =>
    obtain ⟨_, no⟩ | ⟨_, _, no, _⟩ | ⟨e, rfl, fault, rfl⟩ := Runner.of_ended ended
    · cases no
    · cases no
    · cases fault
      exact .inr (.inr ⟨_, rfl, turned⟩)
  · cases turned

theorem goes_of_turn_ask {α τ σ : Type} {E : Engine} {thread : Runner α → τ} {share : Store → σ}
    {finish : Except Fault α → σ → Turn τ σ} {w : Runner α} {s : Store} {q : Request}
    {next : q.Answer → List τ} {x : σ}
    (finishes : ∀ a y, ∃ threads z, finish a y = .goOn threads z)
    (turned : w.turn E thread share finish s = .ask q next x) (a : q.Answer) :
    ∃ w' s', w.Goes E s w' s' ∧ next a = [thread w'] ∧ x = share s' := by
  have never {a : Except Fault α} {y : σ} : finish a y ≠ .ask q next x := by
    obtain ⟨_, _, goes_on⟩ := finishes a y
    simp [goes_on]
  unfold Runner.turn at turned
  split at turned
  · cases turned
  · next asked =>
    cases turned
    exact ⟨_, _, .inr ⟨_, _, a, asked, rfl⟩, rfl, rfl⟩
  · exact absurd turned never
  · exact absurd turned never
  · cases turned

section
variable {E : Engine} {outputs : List Output} {x : Shared} {s s' : Store}

theorem forces_of_worker {w : Worker} {ws : List Worker} (turned : w.turn E s = .goOn ws s') :
    ∃ w', ws = [w'] ∧ Thread.Proceeds E (.work w) s (.work w') s' := by
  cases w with
  | idle =>
    simp only [Worker.turn] at turned
    split at turned
    · cases turned
    · cases turned
      exact ⟨_, rfl, .idle rfl rfl rfl⟩
  | force job w =>
    simp only [Worker.turn] at turned
    rcases goes_of_turn turned with ⟨w', s₁, goes, rfl, rfl⟩ | ⟨a, rfl, ended⟩ | ⟨e, rfl, ended⟩
    · exact ⟨_, rfl, .job goes⟩
    · cases ended
      exact ⟨_, rfl, .idle rfl rfl rfl⟩
    · cases ended
      exact ⟨_, rfl, .idle rfl rfl rfl⟩
  | report job =>
    simp only [Worker.turn] at turned
    split at turned <;> cases turned <;> exact ⟨_, rfl, .idle rfl rfl rfl⟩

theorem forces_of_worker_ask {w : Worker} {q : Request} {next : q.Answer → List Worker}
    (turned : w.turn E s = .ask q next s') (a : q.Answer) :
    ∃ w', next a = [w'] ∧ Thread.Proceeds E (.work w) s (.work w') s' := by
  cases w with
  | idle =>
    simp only [Worker.turn] at turned
    split at turned <;> cases turned
  | force job w =>
    simp only [Worker.turn] at turned
    obtain ⟨w', s₁, goes, more, rfl⟩ := goes_of_turn_ask (fun _ _ => ⟨_, _, rfl⟩) turned a
    exact ⟨_, more, .job goes⟩
  | report job =>
    simp only [Worker.turn] at turned
    split at turned <;> cases turned

end

namespace Noted
variable {E : Engine} {outputs : List Output} {x x' : Journal} {t : Noted} {ts : List Noted}

theorem goes_of_main {next : Nat} {threads : List Thread} {shared : Shared}
    (turned : Thread.turn E (.main (outputs.drop next)) x.shared = .goOn threads shared) :
    Goes E outputs x ⟨.main (outputs.drop next), .main next⟩
      (threads.map (heir ⟨.main (outputs.drop next), .main next⟩)) { x with shared } := by
  cases left : outputs.drop next with
  | nil =>
    rw [left] at turned
    cases turned
    rw [← left]
    exact .finish (List.drop_eq_nil_iff.1 left)
  | cons o rest =>
    have first : outputs[next]? = some o := by
      rw [← List.head?_drop, left]
      rfl
    have others : rest = outputs.drop (next + 1) := by
      rw [← List.tail_drop, left]
      rfl
    rw [left] at turned
    simp only [Thread.turn] at turned
    split at turned
    · next failed =>
      cases turned
      exact .giveUp failed ⟨rfl, rfl⟩
    · split at turned
      · next expanded =>
        cases turned
        obtain ⟨cell, _⟩ := o
        cases expanded
        rw [← left, others]
        exact .expand first
      · next plain =>
        cases turned
        obtain ⟨cell, expanded⟩ := o
        cases expanded with
        | true => exact absurd rfl plain
        | false =>
          rw [← left, others]
          exact .offer first

/-- A thread that goes on ends nothing. -/
theorem ends_of_forces {thread thread' : Thread} {mark : Mark} {s s' : Store}
    (forces : thread.Proceeds E s thread' s') : ends ⟨thread, mark⟩ = [] := by
  cases forces with
  | walk goes =>
    obtain ⟨undone, unraised⟩ := goes.unended
    unfold ends
    split <;> simp_all
  | perform goes =>
    obtain ⟨undone, unraised⟩ := goes.unended
    unfold ends
    split <;> simp_all
  | job | idle => rfl

theorem goes_of_forces {thread thread' : Thread} {mark : Mark} {s' : Store}
    (forces : thread.Proceeds E x.shared.store thread' s') (begun : begins ⟨thread, mark⟩ = [])
    (same : mark.after thread' = mark) :
    Goes E outputs x ⟨thread, mark⟩ ([thread'].map (heir ⟨thread, mark⟩))
      { shared := { x.shared with store := s' }
        begun := x.begun ++ begins ⟨thread, mark⟩
        ended := x.ended ++ ends ⟨thread, mark⟩ } := by
  rw [begun, ends_of_forces forces]
  simpa [heir, same] using Goes.force forces

theorem goes_of_walk {w : Runner LazyList} {place reached : Nat} {threads : List Thread}
    {shared : Shared} (turned : Thread.turn E (.walk w) x.shared = .goOn threads shared) :
    Goes E outputs x ⟨.walk w, .walks place reached⟩
      (threads.map (heir ⟨.walk w, .walks place reached⟩))
      { shared
        begun := x.begun ++ begins ⟨.walk w, .walks place reached⟩
        ended := x.ended ++ ends ⟨.walk w, .walks place reached⟩ } := by
  obtain ⟨⟨store, free, failure⟩, begun, ended⟩ := x
  simp only [Thread.turn] at turned
  rcases Output.goes_of_turn turned with ⟨w', s', goes, rfl, rfl⟩ | ⟨l, rfl, finished⟩ |
    ⟨e, rfl, finished⟩
  · exact goes_of_forces (.walk goes) rfl rfl
  · cases l with
    | nil =>
      cases finished
      simpa [begins, ends] using Goes.walked
    | cons head tail =>
      cases finished
      simpa [begins, ends, heir, Mark.after] using Goes.reach
  · cases finished
    simpa [begins, ends] using Goes.lost

theorem goes_of_perform {w : Runner Unit} {item : Item} {threads : List Thread}
    {shared : Shared} (turned : Thread.turn E (.perform w) x.shared = .goOn threads shared) :
    Goes E outputs x ⟨.perform w, .performs item⟩
      (threads.map (heir ⟨.perform w, .performs item⟩))
      { shared
        begun := x.begun ++ begins ⟨.perform w, .performs item⟩
        ended := x.ended ++ ends ⟨.perform w, .performs item⟩ } := by
  obtain ⟨⟨store, free, failure⟩, begun, ended⟩ := x
  simp only [Thread.turn] at turned
  rcases Output.goes_of_turn turned with ⟨w', s', goes, rfl, rfl⟩ | ⟨_, rfl, finished⟩ |
    ⟨e, rfl, finished⟩
  · exact goes_of_forces (.perform goes) rfl rfl
  · cases finished
    simpa [begins, ends, heir, Mark.after] using @Goes.performed E outputs
  · cases finished
    simpa [begins, ends, heir, Mark.after] using @Goes.failed E outputs

theorem goes_of_acquire {cell : Ref} {next : Thread} {item : Item} {later : Mark}
    {threads : List Thread} {shared : Shared} (idle : next.holdsPermit = false)
    (turned : Thread.turn E (.acquire cell next) x.shared = .goOn threads shared) :
    Goes E outputs x ⟨.acquire cell next, .waits item later⟩
      (threads.map (heir ⟨.acquire cell next, .waits item later⟩))
      { shared
        begun := x.begun ++ begins ⟨.acquire cell next, .waits item later⟩
        ended := x.ended ++ ends ⟨.acquire cell next, .waits item later⟩ } := by
  have resumes : (Mark.waits item later).after next = later := by
    cases next with
    | perform w => cases idle
    | _ => rfl
  have starts (w : Runner Unit) : (Mark.waits item later).after (.perform w) = .performs item := rfl
  simp only [Thread.turn] at turned
  split at turned
  · cases turned
  · next free permit =>
    cases turned
    simpa [begins, ends, heir, resumes, starts] using
      @Goes.begin E outputs x cell next item later free permit

theorem goes_of_reach {head tail : Ref} {place reached : Nat} {threads : List Thread}
    {shared : Shared} (turned : Thread.turn E (.reach head tail) x.shared = .goOn threads shared) :
    Goes E outputs x ⟨.reach head tail, .walks place reached⟩
      (threads.map (heir ⟨.reach head tail, .walks place reached⟩))
      { x with shared } := by
  simp only [Thread.turn] at turned
  split at turned
  · next failed =>
    cases turned
    exact .giveUp failed ⟨rfl, rfl⟩
  · cases turned
    exact .element

theorem goes_of_work {w : Worker} {threads : List Thread} {shared : Shared}
    (turned : Thread.turn E (.work w) x.shared = .goOn threads shared) :
    Goes E outputs x ⟨.work w, .works⟩ (threads.map (heir ⟨.work w, .works⟩))
      { x with shared } := by
  obtain ⟨⟨store, free, failure⟩, begun, ended⟩ := x
  simp only [Thread.turn] at turned
  cases moved : w.turn E store with
  | goOn ws s' =>
    rw [moved] at turned
    cases turned
    obtain ⟨w', rfl, forces⟩ := forces_of_worker moved
    exact .force forces
  | ask q next s' => rw [moved] at turned; cases turned
  | wait s' => rw [moved] at turned; cases turned

/-- The cases of `Goes` are all that a turn can be. -/
theorem goes_of_turn (fits : Fits outputs x.shared.store.heap x.begun t.thread t.mark)
    (turned : t.turn E x = .goOn ts x') : Goes E outputs x t ts x' := by
  obtain ⟨thread, mark⟩ := t
  unfold turn at turned
  split at turned <;> cases turned
  next threads shared moved =>
  cases fits with
  | main => simpa [begins, ends] using goes_of_main moved
  | acquire _ idle _ => exact goes_of_acquire idle moved
  | walk => exact goes_of_walk moved
  | reach => simpa [begins, ends] using goes_of_reach moved
  | perform => exact goes_of_perform moved
  | leave =>
    cases moved
    simpa [begins, ends] using Goes.leave
  | work => simpa [begins, ends] using goes_of_work moved

theorem forces_of_ask {thread : Thread} {shared shared' : Shared} {q : Request}
    {next : q.Answer → List Thread} (turned : thread.turn E shared = .ask q next shared')
    (a : q.Answer) : ∃ thread' s', next a = [thread'] ∧
      shared' = { shared with store := s' } ∧ thread.Proceeds E shared.store thread' s' := by
  obtain ⟨store, free, failure⟩ := shared
  cases thread with
  | main outputs =>
    cases outputs with
    | nil => cases turned
    | cons o outputs =>
      simp only [Thread.turn] at turned
      split at turned
      · cases turned
      · split at turned <;> cases turned
  | acquire cell next => cases free <;> cases turned
  | walk w =>
    simp only [Thread.turn] at turned
    obtain ⟨w', s', goes, more, rfl⟩ := goes_of_turn_ask (fun a y => by
      rcases a with e | l
      · exact ⟨_, _, rfl⟩
      · cases l <;> exact ⟨_, _, rfl⟩) turned a
    exact ⟨_, s', more, rfl, .walk goes⟩
  | reach head tail =>
    simp only [Thread.turn] at turned
    split at turned <;> cases turned
  | perform w =>
    simp only [Thread.turn] at turned
    obtain ⟨w', s', goes, more, rfl⟩ := goes_of_turn_ask (fun a y => by
      cases a <;> exact ⟨_, _, rfl⟩) turned a
    exact ⟨_, s', more, rfl, .perform goes⟩
  | leave => cases turned
  | work w =>
    simp only [Thread.turn] at turned
    cases moved : w.turn E store with
    | goOn ws s' => rw [moved] at turned; cases turned
    | wait s' => rw [moved] at turned; cases turned
    | ask q' more s' =>
      rw [moved] at turned
      cases turned
      obtain ⟨w', one, forces⟩ := forces_of_worker_ask moved a
      exact ⟨_, s', by simp [one], rfl, forces⟩

theorem goes_of_ask {q : Request} {next : q.Answer → List Noted}
    (fits : Fits outputs x.shared.store.heap x.begun t.thread t.mark)
    (turned : t.turn E x = .ask q next x') (a : q.Answer) : Goes E outputs x t (next a) x' := by
  obtain ⟨thread, mark⟩ := t
  unfold turn at turned
  split at turned <;> cases turned
  next threads shared moved =>
  obtain ⟨thread', s', one, rfl, forces⟩ := forces_of_ask moved a
  dsimp only
  rw [one]
  apply goes_of_forces forces
  · cases forces <;> rfl
  · cases forces <;> cases fits <;> rfl

end Noted

end Output
end CallByNeed
