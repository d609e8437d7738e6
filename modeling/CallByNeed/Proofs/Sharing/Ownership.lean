import CallByNeed.Proofs.Engine.Advance
import CallByNeed.Proofs.Heap.Moves
import CallByNeed.Runner
import Mathlib.Data.List.Forall2

/- Threads with a ledger. The ledger says whose work was handed out and which calls have ended; no
   thread looks at it, so a crew with a ledger takes the very turns of one without. The redirects
   from the cell of an open call lead to the cell that its thread is forcing for it, and in the end
   to the value it gives. -/
namespace CallByNeed

structure Ledger where
  /-- A cell whose work was handed out, and the cell in whose run the work went, latest first. -/
  handed : List (Ref × Ref) := []
  /-- A demanded cell and the value its call gave, latest first. -/
  returned : List (Ref × Value) := []

structure Recorded where
  store : Store
  ledger : Ledger := {}

/-- A thread with the cells of its open calls, the innermost first. -/
structure Forcer where
  runner : Runner Unit
  calls : List Ref := []

def Heap.hasWork (h : Heap) (r : Ref) : Bool :=
  match h.state? r with
  | some (.pending _) => true
  | _ => false

/-- The work that a step takes, and where it goes. -/
def Engine.handed (E : Engine) (h : Heap) : Control → List (Ref × Ref)
  | .enter r => if h.hasWork r then [(r, r)] else []
  | .run cell _ (.done (.tail child)) =>
    if E.splices && h.hasWork child then [(child, cell)] else []
  | _ => []

namespace Control

/-- The call that a step ends, with its value. -/
def returned (c : Control) (calls : List Ref) : List (Ref × Value) :=
  match c, calls with
  | .give v, call :: _ => [(call, v)]
  | _, _ => []

/-- Giving a value ends the innermost call. To enter a cell begins one, unless a redirect led
    there. -/
def callsAfter (c : Control) (calls : List Ref) : Option Control → List Ref
  | some (.enter r) =>
    match c with
    | .enter _ => calls
    | .run _ _ _ => r :: calls
    | .give _ => r :: calls.tail
  | _ =>
    match c with
    | .give _ => calls.tail
    | _ => calls

end Control

def Runner.control? {α : Type} : Runner α → Option Control
  | .ready _ => none
  | .forcing _ _ _ c _ => some c

namespace Forcer

def start (script : Script Unit) : Forcer := { runner := .ready script }

def after (f : Forcer) (w : Runner Unit) : Forcer :=
  match f.runner, w.control? with
  | .forcing _ _ _ c _, c' => { runner := w, calls := c.callsAfter f.calls c' }
  | .ready _, some (.enter r) => { runner := w, calls := r :: f.calls }
  | .ready _, _ => { runner := w, calls := f.calls }

def record (E : Engine) (f : Forcer) (x : Recorded) (store : Store) : Recorded :=
  match f.runner with
  | .forcing _ _ _ c _ =>
    { store
      ledger :=
        { handed := E.handed x.store.heap c ++ x.ledger.handed
          returned := c.returned f.calls ++ x.ledger.returned } }
  | .ready _ => { x with store }

/-- A thread whose script has ended is gone. -/
def turn (E : Engine) (f : Forcer) (x : Recorded) : Turn Forcer Recorded :=
  match f.runner.step E x.store with
  | .next w s => .goOn [f.after w] (f.record E x s)
  | .ask q next s => .ask q (fun a => [f.after (next a)]) (f.record E x s)
  | .ended (.answer _) s | .ended (.fault _) s => .goOn [] (f.record E x s)
  | .ended (.halt _) s => .wait (f.record E x s)

theorem runner_after (f : Forcer) (w : Runner Unit) : (f.after w).runner = w := by
  unfold after
  split <;> rfl

theorem store_record (E : Engine) (f : Forcer) (x : Recorded) (s : Store) :
    (f.record E x s).store = s := by
  unfold record
  split <;> rfl

/-- Without the ledger, a turn is the turn of the thread's runner. -/
theorem turn_erased (E : Engine) (f : Forcer) (x : Recorded) :
    (f.turn E x).map Forcer.runner Recorded.store =
      f.runner.turn E id id (fun _ => .goOn []) x.store := by
  unfold turn Runner.turn
  cases f.runner.step E x.store with
  | next w s => simp [Turn.map, runner_after, store_record]
  | ask q next s => simp [Turn.map, runner_after, store_record]
  | ended ending s => cases ending <;> simp [Turn.map, store_record]

end Forcer

/-! ### Ownership

Who forces what. A thread owns the cells it runs: they are being forced, and nobody else touches
them. Each of its calls is owed the value of the cell that the call led to. -/

open Relation (ReflTransGen)

def Control.cells : Control → List Ref
  | .run cell _ _ => [cell]
  | _ => []

def Forcer.owned (f : Forcer) : List Ref :=
  match f.runner with
  | .ready _ => []
  | .forcing _ _ _ c frames => c.cells ++ frames.map Frame.cell

def Heap.Forcing (h : Heap) (owned : List Ref) : Prop := ∀ r ∈ owned, h.state? r = some .forcing

/-- What a step does to a heap on behalf of the owner of some cells. -/
structure Heap.Served (h h' : Heap) (owned owned' : List Ref) (handed : List (Ref × Ref)) :
    Prop where
  evolves : h.Evolves h'
  others : ∀ r, h.state? r = some .forcing → r ∉ owned → h'.state? r = some .forcing
  forcing : h'.Forcing owned'
  owns : owned' = owned ∨ owned' = owned.tail ∨
    ∃ r w, owned' = r :: owned ∧ h.state? r = some (.pending w)
  hands : handed = [] ∨
    ∃ r p w, handed = [(r, p)] ∧ h.state? r = some (.pending w) ∧ h'.Spent r
  keeps : ∀ r w, h.state? r = some (.pending w) →
    h'.state? r = some (.pending w) ∨ r ∈ handed.map Prod.fst

namespace Heap
variable {h h' : Heap} {owned : List Ref}

theorem served_same (forcing : h.Forcing owned) : h.Served h owned owned [] where
  evolves := evolves_refl h
  others := fun _ known _ => known
  forcing := forcing
  owns := .inl rfl
  hands := .inl rfl
  keeps := fun _ _ known => .inl known

theorem served_start (forcing : h.Forcing owned) {r : Ref} {w : Work}
    (pending : h.state? r = some (.pending w)) :
    h.Served (h.setState r .forcing) owned (r :: owned) [(r, r)] where
  evolves := evolves_setState pending (.start w)
  others := by
    intro t known _
    rw [state?_setState_ne _ _, known]
    rintro rfl
    simp [known] at pending
  forcing := by
    intro t member
    by_cases same : t = r
    · subst same
      exact state?_setState_self pending _
    · rw [state?_setState_ne same]
      exact forcing t (by simpa [same] using member)
  owns := .inr (.inr ⟨r, w, rfl, pending⟩)
  hands := .inr ⟨r, r, w, rfl, pending, .forcing, state?_setState_self pending _, by simp, by simp⟩
  keeps := by
    intro t w' known
    by_cases same : t = r
    · exact .inr (by simp [same])
    · exact .inl (by rw [state?_setState_ne same, known])

theorem served_splice (forcing : h.Forcing owned) {child parent : Ref} {w : Work}
    (pending : h.state? child = some (.pending w)) :
    h.Served (h.setState child (.redirect parent)) owned owned [(child, parent)] where
  evolves := evolves_setState pending (.splice w parent)
  others := by
    intro t known _
    rw [state?_setState_ne _ _, known]
    rintro rfl
    simp [known] at pending
  forcing := by
    intro t member
    have known := forcing t member
    rw [state?_setState_ne _ _, known]
    rintro rfl
    simp [known] at pending
  owns := .inl rfl
  hands := .inr ⟨child, parent, w, rfl, pending, .redirect parent,
    state?_setState_self pending _, by simp, by simp⟩
  keeps := by
    intro t w' known
    by_cases same : t = child
    · exact .inr (by simp [same])
    · exact .inl (by rw [state?_setState_ne same, known])

theorem served_publish {r : Ref} (forcing : h.Forcing (r :: owned)) (apart : r ∉ owned)
    (v : Value) : h.Served (h.publish r v) (r :: owned) owned [] where
  evolves := evolves_publish (forcing r (by simp)) v
  others := by
    intro t known away
    rw [publish, state?_setState_ne _ _, known]
    rintro rfl
    simp at away
  forcing := by
    intro t member
    rw [publish, state?_setState_ne _ _]
    · exact forcing t (by simp [member])
    · rintro rfl
      exact apart member
  owns := .inr (.inl rfl)
  hands := .inl rfl
  keeps := by
    intro t w known
    refine .inl ?_
    rw [publish, state?_setState_ne _ _, known]
    rintro rfl
    rw [forcing t (by simp)] at known
    cases known

theorem served_alloc (forcing : h.Forcing owned) (c : Cell) :
    h.Served (h.alloc c).2 owned owned [] where
  evolves := evolves_alloc h c
  others := fun _ known _ => state?_alloc_of_some known c
  forcing := fun r member => state?_alloc_of_some (forcing r member) c
  owns := .inl rfl
  hands := .inl rfl
  keeps := fun _ _ known => .inl (state?_alloc_of_some known c)

theorem state?_fill_of_full {r : Ref} {c : CellState} (known : h.state? r = some c)
    (full : c ≠ .vacant) (handle target : Ref) : (h.fill handle target).2.state? r = some c := by
  unfold fill
  split
  · next vacant =>
    rw [state?_setState_ne _ _, known]
    rintro rfl
    rw [known] at vacant
    exact full (Option.some.inj vacant)
  · exact known

theorem served_fill (forcing : h.Forcing owned) (handle target : Ref) :
    h.Served (h.fill handle target).2 owned owned [] where
  evolves := evolves_fill h handle target
  others := fun _ known _ => state?_fill_of_full known (by simp) handle target
  forcing := fun r member => state?_fill_of_full (forcing r member) (by simp) handle target
  owns := .inl rfl
  hands := .inl rfl
  keeps := fun _ _ known => .inl (state?_fill_of_full known (by simp) handle target)

end Heap

/-- Whoever comes to own a cell takes it from nobody. -/
theorem Heap.Served.apart {h h' : Heap} {owned owned' before after : List Ref}
    {handed : List (Ref × Ref)} (served : h.Served h' owned owned' handed)
    (apart : (before ++ (owned ++ after)).Nodup)
    (forcing : h.Forcing (before ++ (owned ++ after))) : (before ++ (owned' ++ after)).Nodup := by
  rcases served.owns with rfl | rfl | ⟨r, w, rfl, pending⟩
  · exact apart
  · refine apart.sublist (.append_left (.append_right ?_ _) _)
    exact List.tail_sublist owned
  · have fresh : r ∉ before ++ (owned ++ after) := by
      intro member
      rw [forcing r member] at pending
      cases pending
    rw [List.cons_append, List.perm_middle.nodup_iff]
    exact List.nodup_cons.mpr ⟨fresh, apart⟩

/-- Owned cells stay forcing, those of the thread that took the step and all others. -/
theorem Heap.Served.forcing_all {h h' : Heap} {owned owned' before after : List Ref}
    {handed : List (Ref × Ref)} (served : h.Served h' owned owned' handed)
    (apart : (before ++ (owned ++ after)).Nodup)
    (forcing : h.Forcing (before ++ (owned ++ after))) :
    h'.Forcing (before ++ (owned' ++ after)) := by
  have away : ∀ r, r ∈ before ∨ r ∈ after → r ∉ owned := by
    simp only [List.nodup_append, List.mem_append] at apart
    intro r outside mine
    rcases outside with left | right
    · exact apart.2.2 r left r (.inl mine) rfl
    · exact apart.2.1.2.2 r mine r right rfl
  intro r member
  simp only [List.mem_append] at member
  rcases member with left | mine | right
  · exact served.others r (forcing r (by simp [left])) (away r (.inl left))
  · exact served.forcing r mine
  · exact served.others r (forcing r (by simp [right])) (away r (.inr right))

theorem Store.served_act {s : Store} {owned : List Ref} (forcing : s.heap.Forcing owned)
    (a : Action) : s.heap.Served (s.act a).2.heap owned owned [] := by
  cases a with
  | alloc c => exact Heap.served_alloc forcing c
  | fill handle target => exact Heap.served_fill forcing handle target
  | trace label => exact Heap.served_same forcing
  | submit job => exact Heap.served_same forcing
  | openRally arguments => exact Heap.served_same forcing
  | pollRally id =>
    simp only [act]
    split <;> exact Heap.served_same forcing
  | listRally id i =>
    simp only [act]
    split <;> exact Heap.served_same forcing

theorem Heap.hasWork_of_pending {h : Heap} {r : Ref} {w : Work}
    (pending : h.state? r = some (.pending w)) : h.hasWork r = true := by
  simp [hasWork, pending]

theorem Heap.hasWork_eq_false {h : Heap} {r : Ref}
    (idle : ∀ w, h.state? r ≠ some (.pending w)) : h.hasWork r = false := by
  unfold hasWork
  split
  · next w pending => exact absurd pending (idle w)
  · rfl

theorem Engine.handed_enter {E : Engine} {h : Heap} {r : Ref}
    (idle : ∀ w, h.state? r ≠ some (.pending w)) : E.handed h (.enter r) = [] := by
  simp [handed, Heap.hasWork_eq_false idle]

theorem Engine.handed_tail {E : Engine} {h : Heap} {cell child : Ref} {site : Option Location}
    (keeps : E.splices = true → ∀ w, h.state? child ≠ some (.pending w)) :
    E.handed h (.run cell site (.done (.tail child))) = [] := by
  by_cases splices : E.splices = true
  · simp [handed, Heap.hasWork_eq_false (keeps splices)]
  · simp [handed, splices]

/-- Each step serves the cells that its thread runs. -/
theorem Engine.Advance.served {E : Engine} {c c' : Control} {frames frames' : List Frame}
    {s s' : Store} (step : E.Advance c frames s c' frames' s')
    (forcing : s.heap.Forcing (c.cells ++ frames.map Frame.cell))
    (apart : (c.cells ++ frames.map Frame.cell).Nodup) :
    s.heap.Served s'.heap (c.cells ++ frames.map Frame.cell) (c'.cells ++ frames'.map Frame.cell)
      (E.handed s.heap c) := by
  cases step with
  | found forced =>
    rw [Engine.handed_enter (by simp [forced])]
    exact Heap.served_same forcing
  | follow redirect =>
    rw [Engine.handed_enter (by simp [redirect])]
    exact Heap.served_same forcing
  | @start r w _ _ pending =>
    have handed : E.handed s.heap (.enter r) = [(r, r)] := by
      simp [Engine.handed, Heap.hasWork_of_pending pending]
    rw [handed]
    exact Heap.served_start forcing pending
  | value =>
    simp only [Control.cells, List.singleton_append, List.nodup_cons] at forcing apart
    exact Heap.served_publish forcing apart.1 _
  | fault =>
    simp only [Control.cells, List.singleton_append, List.nodup_cons] at forcing apart
    exact Heap.served_publish forcing apart.1 _
  | @splice cell child site w _ _ splices pending =>
    have handed : E.handed s.heap (.run cell site (.done (.tail child))) = [(child, cell)] := by
      simp [Engine.handed, splices, Heap.hasWork_of_pending pending]
    rw [handed]
    exact Heap.served_splice forcing pending
  | tail keeps =>
    rw [Engine.handed_tail keeps]
    exact Heap.served_same forcing
  | demand => exact Heap.served_same forcing
  | act => exact Store.served_act forcing _
  | pass =>
    simp only [Control.cells, List.map_cons, List.nil_append, List.nodup_cons] at forcing apart
    exact Heap.served_publish forcing apart.1 _
  | resume reply => exact Heap.served_same forcing
  | perform reply => exact Heap.served_same forcing

open Relation (ReflTransGen)

def Control.Answers (h : Heap) (call : Ref) : Control → Prop
  | .enter r | .run r _ _ => h.Leads call r
  | .give v => h.Yields call v

/-- The innermost call is served by the control, each other one by a frame. -/
inductive Heap.Serves (h : Heap) (c : Control) (frames : List Frame) : List Ref → Prop where
  | intro {call : Ref} {calls : List Ref} (answers : c.Answers h call)
      (waiting : List.Forall₂ (fun frame call => h.Leads call frame.cell) frames calls) :
      Serves h c frames (call :: calls)

def Forcer.Served (h : Heap) (f : Forcer) : Prop :=
  match f.runner with
  | .ready _ => f.calls = []
  | .forcing _ _ _ c frames => h.Serves c frames f.calls

namespace Heap
variable {h h' : Heap}

theorem Evolves.answers (e : h.Evolves h') {call : Ref} {c : Control} (a : c.Answers h call) :
    c.Answers h' call := by
  cases c with
  | enter r => exact e.leads a
  | run r site script => exact e.leads a
  | give v => exact e.yields a

theorem Evolves.waiting (e : h.Evolves h') {frames : List Frame} {calls : List Ref}
    (w : List.Forall₂ (fun frame call => h.Leads call frame.cell) frames calls) :
    List.Forall₂ (fun frame call => h'.Leads call frame.cell) frames calls :=
  w.imp fun _ _ path => e.leads path

theorem Evolves.served (e : h.Evolves h') {f : Forcer} (served : f.Served h) : f.Served h' := by
  unfold Forcer.Served at served ⊢
  cases runner : f.runner with
  | ready script => simpa [runner] using served
  | forcing how r next c frames =>
    simp only [runner] at served ⊢
    generalize f.calls = calls at served ⊢
    cases served with
    | intro answers waiting => exact .intro (e.answers answers) (e.waiting waiting)

theorem yields_published {r call : Ref} (owned : h.state? r = some .forcing)
    (path : h.Leads call r) (v : Value) : (h.publish r v).Yields call v :=
  ⟨r, (evolves_publish owned v).leads path, state?_setState_self owned _⟩

end Heap

/-- A step goes on with the open calls, and the call it ends gets the value of its cell. -/
theorem Engine.Advance.serves {E : Engine} {c c' : Control} {frames frames' : List Frame}
    {s s' : Store} {calls : List Ref} (step : E.Advance c frames s c' frames' s')
    (forcing : s.heap.Forcing (c.cells ++ frames.map Frame.cell))
    (serves : s.heap.Serves c frames calls) :
    s'.heap.Serves c' frames' (c.callsAfter calls (some c')) := by
  obtain ⟨answers, waiting⟩ := serves
  cases step with
  | found forced => exact .intro ⟨_, answers, forced⟩ waiting
  | follow redirect => exact .intro (ReflTransGen.tail answers redirect) waiting
  | start pending =>
    have e := Heap.evolves_setState pending (.start _)
    exact .intro (e.leads answers) (e.waiting waiting)
  | value =>
    have owned := forcing _ (List.mem_append_left _ (List.mem_singleton_self _))
    exact .intro (Heap.yields_published owned answers _)
      ((Heap.evolves_publish owned _).waiting waiting)
  | fault =>
    have owned := forcing _ (List.mem_append_left _ (List.mem_singleton_self _))
    exact .intro (Heap.yields_published owned answers _)
      ((Heap.evolves_publish owned _).waiting waiting)
  | @splice cell _ _ w _ _ splices pending =>
    have e := Heap.evolves_setState pending (.splice w cell)
    exact .intro (e.leads answers) (e.waiting waiting)
  | tail keeps => exact .intro .refl (.cons answers waiting)
  | demand => exact .intro .refl (.cons answers waiting)
  | @act _ _ a _ _ _ =>
    have e := (Store.served_act forcing a).evolves
    exact .intro (e.leads answers) (e.waiting waiting)
  | pass =>
    cases waiting with
    | cons path waiting =>
      have owned := forcing _ (List.mem_append_right _ (List.mem_cons_self))
      exact .intro (Heap.yields_published owned path _)
        ((Heap.evolves_publish owned _).waiting waiting)
  | resume reply =>
    cases waiting with
    | cons path waiting => exact .intro path waiting
  | perform reply =>
    cases waiting with
    | cons path waiting => exact .intro .refl (.cons path waiting)

theorem Heap.Serves.returned {h : Heap} {c : Control} {frames : List Frame} {calls : List Ref}
    (serves : h.Serves c frames calls) : ∀ p ∈ c.returned calls, h.Yields p.1 p.2 := by
  obtain ⟨answers, _⟩ := serves
  cases c with
  | enter r => simp [Control.returned]
  | run r site script => simp [Control.returned]
  | give v =>
    intro p member
    rw [List.mem_singleton.mp member]
    exact answers

/-- What a turn comes to for its thread and the ledger. -/
structure Forcer.Turned (f : Forcer) (x : Recorded) (fs : List Forcer) (x' : Recorded) : Prop where
  heap : ∃ handed, x'.ledger.handed = handed ++ x.ledger.handed ∧
    x.store.heap.Served x'.store.heap f.owned (fs.flatMap Forcer.owned) handed
  returned : ∃ returned, x'.ledger.returned = returned ++ x.ledger.returned ∧
    ∀ p ∈ returned, x'.store.heap.Yields p.1 p.2
  serves : ∀ f' ∈ fs, f'.Served x'.store.heap

namespace Forcer
variable {E : Engine} {f : Forcer} {x : Recorded}

/-- A script that runs in no cell owns none, and has no open call. -/
theorem turned_ready {script : Script Unit} {s : Store} {calls : List Ref}
    (served : x.store.heap.Served s.heap [] [] []) (closed : calls = []) (w : Runner Unit)
    (idle : (∃ script', w = .ready script') ∨ ∃ how r next, w = .demand how r next) :
    Turned ⟨.ready script, calls⟩ x [after ⟨.ready script, calls⟩ w] { x with store := s } := by
  subst closed
  refine ⟨⟨[], rfl, ?_⟩, ⟨[], rfl, by simp⟩, ?_⟩
  · rcases idle with ⟨script', rfl⟩ | ⟨how, r, next, rfl⟩ <;> exact served
  · intro f' member
    rw [List.mem_singleton.mp member]
    rcases idle with ⟨script', rfl⟩ | ⟨how, r, next, rfl⟩
    · rfl
    · exact .intro .refl .nil

theorem turned_ended {script : Script Unit} {calls : List Ref} :
    Turned ⟨.ready script, calls⟩ x [] x where
  heap := ⟨[], rfl, Heap.served_same (by simp [Heap.Forcing, owned])⟩
  returned := ⟨[], rfl, by simp⟩
  serves := by simp

/-- The turn of a cell that asks the host: whatever it answers, nothing moves. -/
theorem turned_asked {how : Demand} {r cell : Ref} {next : Value → Script Unit}
    {site : Option Location} {q : Request} {rest : q.Answer → Script Outcome}
    {frames : List Frame} {calls : List Ref}
    (forcing : x.store.heap.Forcing (cell :: frames.map Frame.cell))
    (serves : x.store.heap.Serves (.run cell site (.ask q rest)) frames calls) (a : q.Answer) :
    Turned ⟨.forcing how r next (.run cell site (.ask q rest)) frames, calls⟩ x
      [after ⟨.forcing how r next (.run cell site (.ask q rest)) frames, calls⟩
        (.forcing how r next (.run cell site (rest a)) frames)] x := by
  refine ⟨⟨[], rfl, by simpa [owned, after, Control.cells] using Heap.served_same forcing⟩,
    ⟨[], rfl, by simp⟩, ?_⟩
  intro f' member
  rw [List.mem_singleton.mp member]
  obtain ⟨answers, waiting⟩ := serves
  exact .intro answers waiting

/-- The turn of a thread whose engine goes on. -/
theorem turned_advance {how : Demand} {r : Ref} {next : Value → Script Unit} {c c' : Control}
    {frames frames' : List Frame} {calls : List Ref} {s' : Store}
    (step : E.Advance c frames x.store c' frames' s')
    (forcing : x.store.heap.Forcing (owned ⟨.forcing how r next c frames, calls⟩))
    (apart : (owned ⟨.forcing how r next c frames, calls⟩).Nodup)
    (serves : x.store.heap.Serves c frames calls) :
    Turned ⟨.forcing how r next c frames, calls⟩ x
      [after ⟨.forcing how r next c frames, calls⟩ (.forcing how r next c' frames')]
      (record E ⟨.forcing how r next c frames, calls⟩ x s') := by
  have served := step.served forcing apart
  refine ⟨⟨_, rfl, ?_⟩, ⟨_, rfl, ?_⟩, ?_⟩
  · simpa [owned, after, record] using served
  · intro p member
    exact served.evolves.yields (serves.returned p member)
  · intro f' member
    rw [List.mem_singleton.mp member]
    exact step.serves forcing serves

/-- The turn that ends the call of a script. -/
theorem turned_finished {how : Demand} {r : Ref} {next : Value → Script Unit} {v : Value}
    {calls : List Ref} (serves : x.store.heap.Serves (.give v) [] calls) (w : Runner Unit)
    (idle : (∃ script, w = .ready script) ∨ ∃ how r next, w = .demand how r next) :
    Turned ⟨.forcing how r next (.give v) [], calls⟩ x
      [after ⟨.forcing how r next (.give v) [], calls⟩ w]
      (record E ⟨.forcing how r next (.give v) [], calls⟩ x x.store) := by
  refine ⟨⟨[], rfl, ?_⟩, ⟨_, rfl, serves.returned⟩, ?_⟩
  · rcases idle with ⟨script, rfl⟩ | ⟨how, r, next, rfl⟩ <;>
      exact Heap.served_same (by simp [Heap.Forcing, owned, Control.cells])
  · obtain ⟨_, waiting⟩ := serves
    cases waiting
    intro f' member
    rw [List.mem_singleton.mp member]
    rcases idle with ⟨script, rfl⟩ | ⟨how, r, next, rfl⟩
    · rfl
    · exact .intro .refl .nil

end Forcer
end CallByNeed
