import CallByNeed.Value

/- The heap of cells. A cell is forced at most once; every operation here is one indivisible step,
   so any order of steps by any number of forcers is a sequence of these operations. -/
namespace CallByNeed

inductive CellState where
  /-- A handle that can be referred to before its target exists. -/
  | vacant
  | pending (w : Work)
  | forcing
  /-- Whatever another cell becomes. -/
  | redirect (target : Ref)
  | forced (v : Value)

/-- A cell keeps the call site it was made for, whatever happens to its state. -/
structure Cell where
  state : CellState
  site : Option Location := none

namespace Cell

def ofValue (v : Value) : Cell := { state := .forced v }

def ofCall (function : Ref) (arguments : Arguments) (site : Option Location := none) : Cell :=
  { state := .pending { task := .call function arguments, site }, site }

def ofSuspension (s : Suspension) : Cell := { state := .pending { task := .resume s } }

def vacant : Cell := { state := .vacant }

end Cell

structure Heap where
  cells : Array Cell := #[]

/-- What a forcer finds at a cell. -/
inductive Entry where
  | done (v : Value)
  | follow (target : Ref)
  /-- The forcer has taken the work and must publish its result. -/
  | start (w : Work)
  | busy
  | vacant

namespace Heap

def size (h : Heap) : Nat := h.cells.size

def cell? (h : Heap) (r : Ref) : Option Cell := h.cells[r.index]?

def state? (h : Heap) (r : Ref) : Option CellState := (h.cell? r).map Cell.state

def site? (h : Heap) (r : Ref) : Option Location := (h.cell? r).bind Cell.site

/-- Only the cell itself counts, not one it redirects to. -/
def isForced (h : Heap) (r : Ref) : Bool :=
  match h.state? r with
  | some (.forced _) => true
  | _ => false

def alloc (h : Heap) (c : Cell) : Ref × Heap := (⟨h.size⟩, ⟨h.cells.push c⟩)

def setState (h : Heap) (r : Ref) (s : CellState) : Heap :=
  ⟨h.cells.modify r.index fun c => { c with state := s }⟩

/-- Asks a cell for its value and takes its work if it has any. A reference to no cell is like a
    handle that is never filled. -/
def enter (h : Heap) (r : Ref) : Entry × Heap :=
  match h.state? r with
  | some (.forced v) => (.done v, h)
  | some (.redirect target) => (.follow target, h)
  | some (.pending w) => (.start w, h.setState r .forcing)
  | some .forcing => (.busy, h)
  | some .vacant | none => (.vacant, h)

theorem heap_of_enter_busy {h h' : Heap} {r : Ref} (e : h.enter r = (.busy, h')) : h' = h := by
  unfold enter at e
  split at e <;> simp_all

theorem heap_of_enter_vacant {h h' : Heap} {r : Ref} (e : h.enter r = (.vacant, h')) :
    h' = h := by
  unfold enter at e
  split at e <;> simp_all

/-- Moves the work of an unforced child into the cell `parent`, which is being forced. -/
def takeWork (h : Heap) (parent child : Ref) : Option Work × Heap :=
  match h.state? child with
  | some (.pending w) => (some w, h.setState child (.redirect parent))
  | _ => (none, h)

def publish (h : Heap) (r : Ref) (v : Value) : Heap := h.setState r (.forced v)

/-- Points a vacant handle at its target; any other cell is left alone. -/
def fill (h : Heap) (handle target : Ref) : Bool × Heap :=
  match h.state? handle with
  | some .vacant => (true, h.setState handle (.redirect target))
  | _ => (false, h)

theorem size_setState (h : Heap) (r : Ref) (s : CellState) : (h.setState r s).size = h.size := by
  simp [size, setState]

theorem state?_setState (h : Heap) (r t : Ref) (s : CellState) :
    (h.setState r s).state? t =
      if t = r then (h.state? t).map fun _ => s else h.state? t := by
  cases r with | mk i
  cases t with | mk j
  by_cases e : i = j
  · subst e
    cases hc : h.cells[i]? <;> simp [state?, cell?, setState, Array.getElem?_modify, hc]
  · simp [state?, cell?, setState, Array.getElem?_modify, e, Ne.symm e]

theorem site?_setState (h : Heap) (r t : Ref) (s : CellState) :
    (h.setState r s).site? t = h.site? t := by
  cases r with | mk i
  cases t with | mk j
  by_cases e : i = j
  · subst e
    cases hc : h.cells[i]? <;> simp [site?, cell?, setState, Array.getElem?_modify, hc]
  · simp [site?, cell?, setState, Array.getElem?_modify, e]

theorem cell?_alloc (h : Heap) (c : Cell) (r : Ref) :
    (h.alloc c).2.cell? r = if r = (h.alloc c).1 then some c else h.cell? r := by
  cases r with | mk i
  simp only [alloc, cell?, size, Ref.mk.injEq]
  grind

end Heap

/-- Where new cells can be made. -/
class Allocates (m : Type → Type) where
  alloc : Cell → m Ref

export Allocates (alloc)

instance : Allocates (StateM Heap) where
  alloc c h := h.alloc c

section
variable {m : Type → Type} [Monad m] [Allocates m]

def allocValue (v : Value) : m Ref := alloc (.ofValue v)

/-- A call of a value with positional arguments only. -/
def allocCall (function : Value) (positionals : List Ref) : m Ref := do
  alloc (.ofCall (← allocValue function) { positionals })

/-- Puts a head before a known list. -/
def LazyList.push (l : LazyList) (head : Ref) : m LazyList := do
  pure (.cons head (← allocValue (.list l)))

/-- A list of known elements, all its cells forced. -/
def LazyList.ofRefs (elements : List Ref) : m LazyList :=
  elements.reverse.foldlM LazyList.push .nil

end

end CallByNeed
