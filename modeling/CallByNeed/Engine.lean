import CallByNeed.Call

/- The engine: forces one cell with an explicit stack of suspended bodies, so nesting costs heap and
   not stack. When a body answers with an unforced cell, the engine moves that cell's work into the
   running cell and goes on; a tail call therefore suspends nothing. A step touches the store once
   at most, so the steps of several forcers may come in any order. -/
namespace CallByNeed

structure Engine where
  /-- Bound of the loops in scripts. -/
  bound : Nat
  /-- Whether the work of unforced tail cells is taken over, or such cells are forced in turn. -/
  splices : Bool := true

/-- What a suspended body waits for: the answer to a demand, or the value of its tail. -/
inductive Wait where
  | reply (how : Demand) (r : Ref) (next : Value → Script Outcome)
  | tail

/-- A cell being forced whose body waits for another cell. -/
structure Frame where
  cell : Ref
  site : Option Location
  wait : Wait

inductive Control where
  | enter (r : Ref)
  | run (cell : Ref) (site : Option Location) (s : Script Outcome)
  | give (v : Value)

/-- Why an evaluation has no answer. -/
inductive Halt where
  | exhausted
  /-- A cell that is being forced is needed: by another forcer, or for its own value. -/
  | blocked (r : Ref)
  | panic (p : Panic)
  deriving DecidableEq, Repr

/-- What a demand makes of the value of its cell. -/
inductive Reply where
  | resume (v : Value)
  /-- The cell holds an effect to perform, whose action comes next. -/
  | perform (action : Ref)

def Demand.reply (how : Demand) (site : Option Location) (v : Value) : Reply :=
  match how, v with
  | .pure, .effect _ => .resume (.error (({ cause := .impure } : Fault).through? site))
  | .pure, v => .resume v
  | .effect, .effect action => .perform action
  | .effect, .error e => .resume (.error e)
  | .effect, v => .resume (.error { cause := .notEffect v.type })

inductive Progress where
  | next (c : Control) (frames : List Frame) (s : Store)
  | ask (q : Request) (next : q.Answer → Control) (frames : List Frame) (s : Store)
  | finished (v : Value) (s : Store)
  | halted (h : Halt) (s : Store)

namespace Engine

/-- The running cell gets its value; a fault passes the site of the call that ran last. -/
def publish (cell : Ref) (site : Option Location) (v : Value) (frames : List Frame) (s : Store) :
    Progress :=
  let v := v.through? site
  .next (.give v) frames { s with heap := s.heap.publish cell v }

def enter (E : Engine) (r : Ref) (frames : List Frame) (s : Store) : Progress :=
  match s.heap.enter r with
  | (.done v, heap) => .next (.give v) frames { s with heap }
  | (.follow target, heap) => .next (.enter target) frames { s with heap }
  | (.start w, heap) => .next (.run r w.site (w.task.script E.bound)) frames { s with heap }
  | (.busy, heap) => .halted (.blocked r) { s with heap }
  | (.vacant, heap) => .halted (.panic .vacantForced) { s with heap }

/-- The work of an unforced tail, if the engine takes it over. -/
def takeWork (E : Engine) (parent child : Ref) (heap : Heap) : Option Work × Heap :=
  if E.splices then heap.takeWork parent child else (none, heap)

def run (E : Engine) (cell : Ref) (site : Option Location) (frames : List Frame) (s : Store) :
    Script Outcome → Progress
  | .done (.value v) => publish cell site v frames s
  | .done (.tail child) =>
    match E.takeWork cell child s.heap with
    | (some w, heap) => .next (.run cell w.site (w.task.script E.bound)) frames { s with heap }
    | (none, heap) =>
      .next (.enter child) ({ cell, site, wait := .tail } :: frames) { s with heap }
  | .raise e => publish cell site (.error e) frames s
  | .panic p => .halted (.panic p) s
  | .stall => .halted .exhausted s
  | .demand how r next => .next (.enter r) ({ cell, site, wait := .reply how r next } :: frames) s
  | .act a next =>
    let (x, s) := s.act a
    .next (.run cell site (next x)) frames s
  | .ask q next => .ask q (fun x => .run cell site (next x)) frames s

def give (v : Value) (s : Store) : List Frame → Progress
  | [] => .finished v s
  | { cell, site, wait := .tail } :: frames => publish cell site v frames s
  | { cell, site, wait := .reply how r next } :: frames =>
    match how.reply (s.heap.site? r) v with
    | .resume v => .next (.run cell site (next v)) frames s
    | .perform action =>
      .next (.enter action) ({ cell, site, wait := .reply .pure action next } :: frames) s

def step (E : Engine) (c : Control) (frames : List Frame) (s : Store) : Progress :=
  match c with
  | .enter r => E.enter r frames s
  | .run cell site script => E.run cell site frames s script
  | .give v => give v s frames

/-- Whoever cannot go on has changed nothing. -/
theorem store_of_halted {E : Engine} {c : Control} {frames : List Frame} {s s' : Store} {h : Halt}
    (e : E.step c frames s = .halted h s') : s' = s := by
  cases c with
  | enter r =>
    simp only [step, enter] at e
    split at e <;> simp only [Progress.halted.injEq, reduceCtorEq] at e
    · next heap busy =>
      rw [← e.2, Heap.heap_of_enter_busy busy]
    · next heap vacant =>
      rw [← e.2, Heap.heap_of_enter_vacant vacant]
  | run cell site script =>
    simp only [step, run, publish] at e
    split at e <;> try split at e
    all_goals simp_all
  | give v =>
    simp only [step, give, publish] at e
    split at e <;> try split at e
    all_goals simp_all

end Engine

end CallByNeed
