import CallByNeed.Heap

/- Everything an evaluation changes apart from the world: the heap, the rallies, the work handed to
   the pool, and the trace. -/
namespace CallByNeed

/-- Arguments forced in the background and listed as they are reported. -/
structure Rally where
  arguments : Array Ref
  listed : Array Bool
  left : Nat
  /-- Reports not read yet, the oldest first. -/
  reports : List Nat := []

inductive Poll where
  | exhausted
  | reported (index : Nat)
  /-- No report came in time; here is the first argument not listed yet. -/
  | late (index : Nat) (argument : Ref)

namespace Rally

def ofRefs (arguments : List Ref) : Rally :=
  { arguments := arguments.toArray
    listed := Array.replicate arguments.length false
    left := arguments.length }

/-- Reads the oldest report if there is one. -/
def poll (y : Rally) : Poll × Rally :=
  if y.left = 0 then (.exhausted, y)
  else
    match y.reports with
    | i :: reports => (.reported i, { y with reports })
    | [] =>
      match y.listed.findIdx? (· == false) with
      | none => (.exhausted, y)
      | some i =>
        match y.arguments[i]? with
        | some r => (.late i r, y)
        | none => (.exhausted, y)

/-- Lists an argument unless it is listed already. -/
def list (y : Rally) (i : Nat) : Option Ref × Rally :=
  match y.listed[i]?, y.arguments[i]? with
  | some false, some r =>
    (some r, { y with listed := y.listed.setIfInBounds i true, left := y.left - 1 })
  | _, _ => (none, y)

def report (y : Rally) (i : Nat) : Rally := { y with reports := y.reports ++ [i] }

end Rally

/-- A cell to force in the background, and the rally to report it to. -/
structure Job where
  target : Ref
  report : Option (Nat × Nat) := none

structure Store where
  heap : Heap := {}
  rallies : Array Rally := #[]
  /-- Jobs no worker has taken, the oldest first. Whoever needs such a cell first forces it on the
      spot. -/
  pool : Array Job := #[]
  trace : Array String := #[]

/-- What a script can do to the store in one step. -/
inductive Action where
  | alloc (c : Cell)
  | fill (handle target : Ref)
  | trace (label : String)
  | submit (job : Job)
  | openRally (arguments : List Ref)
  | pollRally (id : Nat)
  | listRally (id index : Nat)

@[reducible] def Action.Answer : Action → Type
  | .alloc _ => Ref
  | .fill _ _ => Bool
  | .trace _ | .submit _ => Unit
  | .openRally _ => Nat
  | .pollRally _ => Poll
  | .listRally _ _ => Option Ref

namespace Store

/-- Tells a rally that an argument is forced. -/
def report (s : Store) (id i : Nat) : Store :=
  { s with rallies := s.rallies.modify id fun y => y.report i }

def act (s : Store) : (a : Action) → a.Answer × Store
  | .alloc c =>
    let (r, heap) := s.heap.alloc c
    (r, { s with heap })
  | .fill handle target =>
    let (filled, heap) := s.heap.fill handle target
    (filled, { s with heap })
  | .trace label => ((), { s with trace := s.trace.push label })
  | .submit job => ((), { s with pool := s.pool.push job })
  | .openRally arguments =>
    (s.rallies.size, { s with rallies := s.rallies.push (Rally.ofRefs arguments) })
  | .pollRally id =>
    match s.rallies[id]? with
    | none => (.exhausted, s)
    | some y =>
      let (answer, y) := y.poll
      (answer, { s with rallies := s.rallies.setIfInBounds id y })
  | .listRally id i =>
    match s.rallies[id]? with
    | none => (none, s)
    | some y =>
      let (answer, y) := y.list i
      (answer, { s with rallies := s.rallies.setIfInBounds id y })

end Store
end CallByNeed
