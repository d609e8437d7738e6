import CallByNeed.Proofs.Accounts.Threads
import CallByNeed.Proofs.Rallies.Listing
import CallByNeed.Proofs.Rallies.Posts

/- The course of a rally: the cells of its list so far, and who makes the next one. A list has one
   last cell; whoever forces that cell is the only one that lists an argument. -/
namespace CallByNeed
open Relation (ReflTransGen)

/-- How far the last cell of the list of a rally has come. -/
inductive Rally.Stage where
  /-- Nobody has asked for the cell. -/
  | waits (cell : Ref)
  | works (cell : Ref)
  /-- Whoever forces the cell has listed an argument and not made the next cell yet. -/
  | found (cell : Ref) (i : Nat)
  | ended

namespace Rally.Stage

def cell? : Rally.Stage → Option Ref
  | waits cell | works cell | found cell _ => some cell
  | ended => none

/-- The cell that is being forced to list an argument. -/
def forcer? : Rally.Stage → Option Ref
  | works cell | found cell _ => some cell
  | waits _ | ended => none

end Rally.Stage

structure Rally.Course where
  /-- The cell that `rally` was called for. -/
  root : Ref
  /-- The places of the arguments that the cells of the list show. -/
  order : List Nat
  stage : Rally.Stage

/-- The places of all arguments that have been listed. -/
def Rally.Course.listed (c : Rally.Course) : List Nat :=
  match c.stage with
  | .found _ i => c.order ++ [i]
  | _ => c.order

namespace Heap

/-- The cell is a list, or whoever forces it is about to say so. -/
def Presents (h : Heap) (posts : List Post) (slot : Ref) (l : LazyList) : Prop :=
  h.Yields slot (.list l) ∨
    ∃ d, h.Leads slot d ∧ (⟨d, .runs (.done (.value (.list l)))⟩ : Post) ∈ posts

/-- From a cell on, the list shows the arguments at these places, and comes to its end or to a cell
    that is still to be forced. -/
inductive Chain (h : Heap) (posts : List Post) (arguments : Array Ref) :
    Ref → List Nat → Option Ref → Prop
  | opened {slot cell : Ref} (leads : h.Leads slot cell) :
      Chain h posts arguments slot [] (some cell)
  | ended {slot : Ref} (shows : h.Presents posts slot .nil) : Chain h posts arguments slot [] none
  | cons {slot head tail : Ref} {i : Nat} {order : List Nat} {last : Option Ref}
      (argument : arguments[i]? = some head) (shows : h.Presents posts slot (.cons head tail))
      (rest : Chain h posts arguments tail order last) :
      Chain h posts arguments slot (i :: order) last

variable {h h' : Heap} {posts posts' : List Post} {arguments : Array Ref} {slot d cell : Ref}
variable {order : List Nat} {last : Option Ref} {l : LazyList} {i : Nat} {head tail : Ref}

theorem Presents.of_leads (leads : h.Leads slot d) (shows : h.Presents posts d l) :
    h.Presents posts slot l := by
  rcases shows with yields | ⟨q, path, member⟩
  · exact .inl ((yields_of_leads leads).2 yields)
  · exact .inr ⟨q, leads.trans path, member⟩

/-- A cell that has a value shows that value, for nobody forces it. -/
theorem Presents.of_yields (shows : h.Presents posts slot l)
    (forcing : ∀ p ∈ posts, h.state? p.cell = some .forcing) {v : Value}
    (yields : h.Yields slot v) : v = .list l := by
  rcases shows with shown | ⟨q, path, member⟩
  · exact yields_unique yields shown
  · exact absurd yields (not_yields_of_forcing path (forcing _ member) v)

theorem Chain.imp (chain : h.Chain posts arguments slot order last) (later : h.Before h')
    (shows : ∀ slot l, h.Presents posts slot l → h'.Presents posts' slot l) :
    h'.Chain posts' arguments slot order last := by
  induction chain with
  | opened leads => exact .opened (later.leads leads)
  | ended shown => exact .ended (shows _ _ shown)
  | cons argument shown _ ih => exact .cons argument (shows _ _ shown) ih

/-- The last cell has given its work away. -/
theorem Chain.moved (chain : h.Chain posts arguments slot order (some cell))
    (leads : h.Leads cell d) : h.Chain posts arguments slot order (some d) := by
  generalize same : some cell = last at chain
  induction chain with
  | opened path =>
    cases same
    exact .opened (path.trans leads)
  | ended => cases same
  | cons argument shown _ ih => exact .cons argument shown (ih same)

/-- The last cell shows one more argument. -/
theorem Chain.snoc (chain : h.Chain posts arguments slot order (some cell))
    (argument : arguments[i]? = some head) (shows : h.Presents posts cell (.cons head tail)) :
    h.Chain posts arguments slot (order ++ [i]) (some tail) := by
  generalize same : some cell = last at chain
  induction chain with
  | opened path =>
    cases same
    exact .cons argument (shows.of_leads path) (.opened .refl)
  | ended => cases same
  | cons argument shown _ ih => exact .cons argument shown (ih same)

/-- The last cell shows the end of the list. -/
theorem Chain.closed (chain : h.Chain posts arguments slot order (some cell))
    (shows : h.Presents posts cell .nil) : h.Chain posts arguments slot order none := by
  generalize same : some cell = last at chain
  induction chain with
  | opened path =>
    cases same
    exact .ended (shows.of_leads path)
  | ended => cases same
  | cons argument shown _ ih => exact .cons argument shown (ih same)

/-- Work to list an argument of this rally waits in the same cells as before. -/
def SameListers (id : Nat) (h h' : Heap) : Prop :=
  ∀ r w, w.rally? = some id →
    (h'.state? r = some (.pending w) ↔ h.state? r = some (.pending w))

theorem sameListers_refl (id : Nat) (h : Heap) : h.SameListers id h := fun _ _ _ => .rfl

theorem sameListers_setState {id : Nat} {r : Ref} {s s' : CellState} (known : h.state? r = some s)
    (was : ∀ w, w.rally? = some id → s ≠ .pending w) (now : ∀ w, s' ≠ .pending w) :
    h.SameListers id (h.setState r s') := by
  intro t w lists
  by_cases same : t = r
  · subst same
    rw [state?_setState_self known, known]
    have := was w lists
    have := now w
    simp_all
  · rw [state?_setState_ne same]

theorem sameListers_alloc {id : Nat} {c : Cell}
    (other : ∀ w, c.state = .pending w → w.rally? ≠ some id) : h.SameListers id (h.alloc c).2 := by
  intro t w lists
  rw [state?_alloc]
  split
  · next new =>
    constructor
    · intro pending
      exact absurd lists (other w (Option.some.inj pending))
    · intro pending
      rw [new, show (h.alloc c).1 = ⟨h.size⟩ from rfl, state?_size] at pending
      cases pending
  · rfl

end Heap

/-- What is true of an open rally and its course. -/
structure Rally.Books (s : Store) (posts : List Post) (id : Nat) (y : Rally) (c : Rally.Course) :
    Prop where
  counts : y.Counts c.listed
  chain : s.heap.Chain posts y.arguments c.root c.order c.stage.cell?
  forced : ∀ i ∈ c.listed, s.Forced id i
  reports : ∀ i ∈ y.reports, s.Forced id i
  ended : c.stage = .ended → y.left = 0

/-- What is true of the course of a rally. There is none before the rally is opened. -/
structure Rally.Course.Kept (s : Store) (posts : List Post) (id : Nat) (c : Rally.Course) : Prop where
  books : ∀ y, s.rallies[id]? = some y → y.Books s posts id c
  unopened : s.rallies[id]? = none → c.stage = .ended
  waits : ∀ cell, c.stage = .waits cell →
    ∃ w, s.heap.state? cell = some (.pending w) ∧ w.rally? = some id
  forcing : ∀ d, c.stage.forcer? = some d → s.heap.state? d = some .forcing
  /-- No other cell waits to list an argument. -/
  lister : ∀ cell w, s.heap.state? cell = some (.pending w) → w.rally? = some id →
    c.stage = .waits cell

/-- No rally has its next argument listed by the forcing of this cell. -/
def Free (K : Nat → Rally.Course) (d : Ref) : Prop := ∀ id, (K id).stage.forcer? ≠ some d

/-- What a forcer does about rallies, and how far it has come with it. -/
inductive Post.Minds (bound : Nat) (s : Store) (K : Nat → Rally.Course) (d : Ref) : Stand → Prop
  | runs {m : Script Outcome} (free : Free K d) (orderly : m.Orderly bound) :
      Minds bound s K d (.runs m)
  | awaits {how : Demand} {r : Ref} {next : Value → Script Outcome} (free : Free K d)
      (orderly : ∀ v, (next v).Orderly bound) : Minds bound s K d (.awaits how r next)
  | follows (free : Free K d) : Minds bound s K d .follows
  | submits {id i : Nat} {others : List Ref} {m : Script Outcome}
      (works : (K id).stage = .works d)
      (arguments : ∀ j r, others[j]? = some r → s.Argument id (i + j) r)
      (here : m = Builtin.submitting bound id i others) : Minds bound s K d (.runs m)
  | seeks {id b : Nat} {m : Script Outcome} (works : (K id).stage = .works d)
      (here : m = Builtin.seeking b id) : Minds bound s K d (.runs m)
  | demands {id b i : Nat} {r : Ref} {m : Script Outcome} (works : (K id).stage = .works d)
      (argument : s.Argument id i r)
      (here : m = .demand .pure r fun _ => Builtin.picking b id i) : Minds bound s K d (.runs m)
  | late {id b i : Nat} {r : Ref} {how : Demand} {next : Value → Script Outcome}
      (works : (K id).stage = .works d) (argument : s.Argument id i r) (pure : how = .pure)
      (here : next = fun _ => Builtin.picking b id i) : Minds bound s K d (.awaits how r next)
  | picks {id b i : Nat} {m : Script Outcome} (works : (K id).stage = .works d)
      (forced : s.Forced id i) (here : m = Builtin.picking b id i) : Minds bound s K d (.runs m)
  | lists {id i : Nat} {head : Ref} {m : Script Outcome} (found : (K id).stage = .found d i)
      (argument : s.Argument id i head) (here : m = Builtin.listing id (some head)) :
      Minds bound s K d (.runs m)

/-- A job that reports to a rally forces the argument that it reports. -/
def Job.Fits (s : Store) (job : Job) : Prop :=
  ∀ id i, job.report = some (id, i) → s.Argument id i job.target

/-- What is true at every moment of the cells being forced, and of all rallies and their courses. -/
structure Rallying (bound : Nat) (s : Store) (posts : List Post) (K : Nat → Rally.Course) : Prop where
  apart : (posts.map Post.cell).Nodup
  forcing : ∀ p ∈ posts, s.heap.state? p.cell = some .forcing
  minds : ∀ p ∈ posts, Post.Minds bound s K p.cell p.stand
  sole : ∀ id id' d, (K id).stage.forcer? = some d → (K id').stage.forcer? = some d → id = id'
  kept : ∀ id, (K id).Kept s posts id
  jobs : ∀ job ∈ s.pool, job.Fits s

section
variable {bound : Nat} {s s' : Store} {K K' : Nat → Rally.Course} {posts posts' : List Post} {d : Ref}
variable {id i : Nat} {c c' : Rally.Course}

theorem Store.Forced.later (forced : s.Forced id i) (later : s.heap.Before s'.heap)
    (arguments : ∀ id i r, s.Argument id i r → s'.Argument id i r) : s'.Forced id i := by
  obtain ⟨r, v, argument, yields⟩ := forced
  exact ⟨r, v, arguments _ _ _ argument, later.yields yields⟩

theorem Job.Fits.later {job : Job} (fits : job.Fits s)
    (arguments : ∀ id i r, s.Argument id i r → s'.Argument id i r) : job.Fits s' :=
  fun id i reports => arguments id i _ (fits id i reports)

/-- What others do changes nothing for a forcer, unless they take over a rally from it. -/
theorem Post.Minds.later {stand : Stand} (minds : Post.Minds bound s K d stand)
    (later : s.heap.Before s'.heap)
    (arguments : ∀ id i r, s.Argument id i r → s'.Argument id i r)
    (same : ∀ id, (K' id).stage = (K id).stage ∨
      ((K id).stage.forcer? ≠ some d ∧ (K' id).stage.forcer? ≠ some d)) :
    Post.Minds bound s' K' d stand := by
  have free (free : Free K d) : Free K' d := by
    intro id
    rcases same id with same | ⟨_, other⟩
    · exact same ▸ free id
    · exact other
  have mine {id : Nat} (held : (K id).stage.forcer? = some d) :
      (K' id).stage = (K id).stage := by
    rcases same id with same | ⟨other, _⟩
    · exact same
    · exact absurd held other
  have works {id : Nat} (works : (K id).stage = .works d) : (K' id).stage = .works d :=
    (mine (by rw [works]; rfl)).trans works
  cases minds with
  | runs unheld orderly => exact .runs (free unheld) orderly
  | awaits unheld orderly => exact .awaits (free unheld) orderly
  | follows unheld => exact .follows (free unheld)
  | submits mine left here =>
    exact .submits (works mine) (fun j r other => arguments _ _ _ (left j r other)) here
  | seeks mine here => exact .seeks (works mine) here
  | demands mine argument here => exact .demands (works mine) (arguments _ _ _ argument) here
  | late mine argument pure here => exact .late (works mine) (arguments _ _ _ argument) pure here
  | picks mine forced here => exact .picks (works mine) (forced.later later arguments) here
  | @lists id _ _ _ found argument here =>
    have held : (K id).stage.forcer? = some d := by rw [found]; rfl
    exact .lists ((mine held).trans found) (arguments _ _ _ argument) here

/-- A script that is done, or asks the host, has nothing to do with a rally. -/
theorem Post.Minds.idle {m : Script Outcome} (minds : Post.Minds bound s K d (.runs m))
    (plain : (∃ o, m = .done o) ∨ (∃ e, m = .raise e) ∨ ∃ q next, m = .ask q next) :
    Free K d ∧ m.Orderly bound := by
  have seeks {b id : Nat} (here : m = Builtin.seeking b id) : False := by
    subst here
    cases b with
    | zero => simp [Builtin.seeking_zero] at plain
    | succ b => simp [Builtin.seeking_succ] at plain
  cases minds with
  | runs free orderly => exact ⟨free, orderly⟩
  | @submits _ _ others _ _ _ here =>
    cases others with
    | nil => exact (seeks here).elim
    | cons r others => simp [here, Builtin.submitting_cons] at plain
  | seeks _ here => exact (seeks here).elim
  | demands _ _ here => simp [here] at plain
  | picks _ _ here => simp [here, Builtin.picking] at plain
  | lists _ _ here =>
    obtain ⟨_, same⟩ | ⟨_, same⟩ | ⟨_, _, same⟩ := plain <;> rw [here] at same <;> cases same

/-- The only cells that a rally demands are arguments that are late. -/
theorem Post.Minds.demand {how : Demand} {r : Ref} {next : Value → Script Outcome}
    (minds : Post.Minds bound s K d (.runs (.demand how r next))) :
    (Free K d ∧ ∀ v, (next v).Orderly bound) ∨
      ∃ id b i, (K id).stage = .works d ∧ s.Argument id i r ∧ how = .pure ∧
        next = fun _ => Builtin.picking b id i := by
  have seeks {b id : Nat} (here : Script.demand how r next = Builtin.seeking b id) : False := by
    cases b with
    | zero => cases here
    | succ b =>
      rw [Builtin.seeking_succ] at here
      cases here
  cases minds with
  | runs free orderly => exact .inl ⟨free, orderly⟩
  | @submits _ _ others _ _ _ here =>
    cases others with
    | nil => exact (seeks here).elim
    | cons r others => cases here
  | seeks _ here => exact (seeks here).elim
  | @demands id b i _ _ works argument here =>
    cases here
    exact .inr ⟨id, b, i, works, argument, rfl, rfl⟩
  | picks _ _ here => cases here
  | lists _ _ here => cases here

/-- A rally that nobody touches keeps its course. -/
theorem Rally.Course.Kept.stays (kept : c.Kept s posts id) (later : s.heap.Before s'.heap)
    (arguments : ∀ id i r, s.Argument id i r → s'.Argument id i r)
    (shows : ∀ slot l, s.heap.Presents posts slot l → s'.heap.Presents posts' slot l)
    (opened : s'.rallies[id]? = none → s.rallies[id]? = none)
    (books : ∀ y', s'.rallies[id]? = some y' → ∃ y, s.rallies[id]? = some y ∧
      y'.arguments = y.arguments ∧ y'.Counts c.listed ∧ y'.left = y.left ∧
      ∀ i ∈ y'.reports, i ∈ y.reports ∨ s'.Forced id i)
    (listers : s.heap.SameListers id s'.heap)
    (forcing : ∀ d, c.stage.forcer? = some d → s'.heap.state? d = some .forcing) :
    c.Kept s' posts' id := by
  constructor
  case books =>
    intro y' found
    obtain ⟨y, was, same, counts, left, reports⟩ := books y' found
    have before := kept.books y was
    constructor
    case counts => exact counts
    case chain => exact same ▸ before.chain.imp later shows
    case forced => exact fun i listed => (before.forced i listed).later later arguments
    case reports =>
      intro i reported
      rcases reports i reported with old | forced
      · exact (before.reports i old).later later arguments
      · exact forced
    case ended => exact fun last => left.trans (before.ended last)
  case unopened => exact fun none => kept.unopened (opened none)
  case waits =>
    intro cell waits
    obtain ⟨w, pending, lists⟩ := kept.waits cell waits
    exact ⟨w, (listers cell w lists).2 pending, lists⟩
  case forcing => exact forcing
  case lister =>
    intro cell w pending lists
    exact kept.lister cell w ((listers cell w lists).1 pending) lists

end
end CallByNeed
