import CallByNeed.Engine
import CallByNeed.Proofs.Heap.Moves
import CallByNeed.Proofs.Likeness.Same
import CallByNeed.Proofs.Likeness.Task

/- When the states of two engines match, of which the left one may take over the work of tails and
   the right one not. All cells have the same addresses, and both sides run the same script; but a
   cell that runs its tails itself on the left waits for them on the right. The tails are `lent` to
   it until it gets its value. -/
namespace CallByNeed

/-- The left engine takes over the work of tails, the right one forces them in turn. -/
def Engine.Apart (E E' : Engine) : Prop := E.splices = true ∧ E'.splices = false

/-- Runs of the engines can be compared in this manner. -/
structure Manner.Compares (M : Manner) (E E' : Engine) : Prop extends M.Admits where
  bounds : M.Bounds E.bound E'.bound
  through : ∀ site l l', M.chains l l' → M.chains (site :: l) (site :: l')
  splices : E.splices = E'.splices ∨ E.Apart E'
  /-- The right side passes sites that the left side does not. -/
  longer : E.Apart E' → ∀ site l l', M.chains l l' → M.chains l (site :: l')

namespace Manner.Compares
variable {M : Manner} {E E' : Engine}

theorem through? (compares : M.Compares E E') {v v' : Value} (values : ValueLike M .same v v')
    (site : Option Location) : ValueLike M .same (v.through? site) (v'.through? site) := by
  cases values with
  | error faults =>
    obtain ⟨cause, passed⟩ := faults
    cases site with
    | none => exact .error ⟨cause, passed⟩
    | some site => exact .error ⟨cause, compares.through site _ _ passed⟩
  | _ => constructor <;> assumption

theorem through?_right (compares : M.Compares E E') (apart : E.Apart E') {v v' : Value}
    (values : ValueLike M .same v v') (site : Option Location) :
    ValueLike M .same v (v'.through? site) := by
  cases values with
  | error faults =>
    obtain ⟨cause, passed⟩ := faults
    cases site with
    | none => exact .error ⟨cause, passed⟩
    | some site => exact .error ⟨cause, compares.longer apart site _ _ passed⟩
  | _ => constructor <;> assumption

end Manner.Compares

/-- Cells that run on the left, each with the tails lent to it, the innermost run first. -/
abbrev Loans := List (Ref × List Ref)

/-- `cell` runs on the left for what `current` runs for on the right, where these frames wait for
    it. -/
inductive Delegates (apart : Prop) (cell : Ref) : Ref → List Frame → List Ref → Prop where
  | self : Delegates apart cell cell [] []
  | tail {current parent : Ref} {site : Option Location} {frames : List Frame} {lent : List Ref}
      (differ : apart) (before : Delegates apart cell parent frames lent) :
      Delegates apart cell current ({ cell := parent, site, wait := .tail } :: frames)
        (current :: lent)

/-- All that is held is the same on both sides. -/
def Held.Diagonal : Held → Prop
  | .nothing => True
  | .knot handle handle' made => handle = handle' ∧ ∀ p ∈ made, p.1 = p.2

theorem Held.diagonal_nothing : Held.nothing.Diagonal := trivial

section
variable (M : Manner)

inductive WaitLike : Wait → Wait → Prop where
  | tail : WaitLike .tail .tail
  | reply {how : Demand} {r : Ref} {next next' : Value → Script Outcome} {held : Held}
      (diagonal : held.Diagonal)
      (rest : ∀ v v', ValueLike M .same v v' →
        ScriptLike M .same (Settled M .same) held (next v) (next' v')) :
      WaitLike (.reply how r next) (.reply how r next')

inductive FramesLike (apart : Prop) : Loans → List Frame → List Frame → Prop where
  | nil : FramesLike apart [] [] []
  | cons {cell current : Ref} {site : Option Location} {wait wait' : Wait}
      {between frames frames' : List Frame} {lent : List Ref} {loans : Loans}
      (delegates : Delegates apart cell current between lent) (waits : WaitLike M wait wait')
      (rest : FramesLike apart loans frames frames') :
      FramesLike apart ((cell, lent) :: loans) ({ cell, site, wait } :: frames)
        ({ cell := current, site, wait := wait' } :: (between ++ frames'))

inductive ControlLike (apart : Prop) :
    Loans → Control → List Frame → Control → List Frame → Prop where
  | enter {loans : Loans} {frames frames' : List Frame} (r : Ref)
      (stack : FramesLike M apart loans frames frames') :
      ControlLike apart loans (.enter r) frames (.enter r) frames'
  | give {loans : Loans} {frames frames' : List Frame} {v v' : Value}
      (values : ValueLike M .same v v') (stack : FramesLike M apart loans frames frames') :
      ControlLike apart loans (.give v) frames (.give v') frames'
  | run {cell current : Ref} {site : Option Location} {between frames frames' : List Frame}
      {lent : List Ref} {loans : Loans} {held : Held} {s s' : Script Outcome}
      (delegates : Delegates apart cell current between lent) (diagonal : held.Diagonal)
      (scripts : ScriptLike M .same (Settled M .same) held s s')
      (stack : FramesLike M apart loans frames frames') :
      ControlLike apart ((cell, lent) :: loans) (.run cell site s) frames (.run current site s')
        (between ++ frames')

inductive SameState : Option CellState → Option CellState → Prop where
  | missing : SameState none none
  | vacant : SameState (some .vacant) (some .vacant)
  | pending {w w' : Work} (works : WorkLike M .same w w') :
      SameState (some (.pending w)) (some (.pending w'))
  | forcing : SameState (some .forcing) (some .forcing)
  | redirect (target : Ref) : SameState (some (.redirect target)) (some (.redirect target))
  | forced {v v' : Value} (values : ValueLike M .same v v') :
      SameState (some (.forced v)) (some (.forced v'))

inductive CellMatch (loans : Loans) (h h' : Heap) (r : Ref) : Prop where
  | same (states : SameState M (h.state? r) (h'.state? r))
  /-- Its work is being done, on the left in another cell. -/
  | lent {cell : Ref} {lent : List Ref} (loan : (cell, lent) ∈ loans) (mine : r ∈ lent)
      (left : h.state? r = some (.redirect cell)) (right : h'.state? r = some .forcing)
  /-- Its work was done, on the left in another cell. -/
  | done {cell : Ref} {v v' : Value} (left : h.state? r = some (.redirect cell))
      (value : h.state? cell = some (.forced v)) (right : h'.state? r = some (.forced v'))
      (values : ValueLike M .same v v')

structure HeapMatch (loans : Loans) (h h' : Heap) : Prop where
  size : h.size = h'.size
  sites : ∀ r, h.site? r = h'.site? r
  cells : ∀ r, CellMatch M loans h h' r
  running : ∀ p ∈ loans, h.state? p.1 = some .forcing ∧ h'.state? p.1 = some .forcing
  lent : ∀ p ∈ loans, ∀ r ∈ p.2,
    h.state? r = some (.redirect p.1) ∧ h'.state? r = some .forcing
  distinct : (loans.map (·.1)).Nodup

structure StoreMatch (loans : Loans) (s s' : Store) : Prop where
  heap : HeapMatch M loans s.heap s'.heap
  rallies : s.rallies = s'.rallies
  pool : s.pool = s'.pool
  trace : s.trace = s'.trace

end

variable {M : Manner} {loans : Loans} {h h' : Heap} {r : Ref}

theorem SameState.pending_inv {w : Work} {o : Option CellState} (like : SameState M (some (.pending w)) o) :
    ∃ w', o = some (.pending w') ∧ WorkLike M .same w w' := by
  cases like with
  | pending works => exact ⟨_, rfl, works⟩

/-- A loan does not matter to a cell that is not lent. -/
theorem CellMatch.imp {more : Loans} (mat : CellMatch M loans h h' r) {k k' : Heap}
    (left : k.state? r = h.state? r) (right : k'.state? r = h'.state? r)
    (stays : ∀ t v, h.state? t = some (.forced v) → k.state? t = some (.forced v))
    (kept : ∀ cell lent, (cell, lent) ∈ loans → r ∈ lent →
      ∃ lent', (cell, lent') ∈ more ∧ r ∈ lent') :
    CellMatch M more k k' r := by
  cases mat with
  | same states => exact .same (by rw [left, right]; exact states)
  | lent loan mine redirect forcing =>
    obtain ⟨lent', loan', mine'⟩ := kept _ _ loan mine
    exact .lent loan' mine' (left.trans redirect) (right.trans forcing)
  | done redirect value forced values =>
    exact .done (left.trans redirect) (stays _ _ value) (right.trans forced) values

namespace HeapMatch

/-- A cell with work is at rest on both sides. -/
theorem pending (mat : HeapMatch M loans h h') {w : Work} (left : h.state? r = some (.pending w)) :
    ∃ w', h'.state? r = some (.pending w') ∧ WorkLike M .same w w' := by
  cases mat.cells r with
  | same states =>
    rw [left] at states
    exact states.pending_inv
  | lent _ _ redirect _ => rw [left] at redirect; cases redirect
  | done redirect _ _ _ => rw [left] at redirect; cases redirect

theorem not_pending (mat : HeapMatch M loans h h') (left : ∀ w, h.state? r ≠ some (.pending w))
    (w' : Work) : h'.state? r ≠ some (.pending w') := by
  intro right
  cases mat.cells r with
  | same states =>
    rw [right] at states
    generalize h.state? r = o at states left
    cases states with
    | pending works => exact left _ rfl
  | lent _ _ _ forcing => rw [right] at forcing; cases forcing
  | done _ _ forced _ => rw [right] at forced; cases forced

theorem ne_of_running (mat : HeapMatch M loans h h') {p : Ref × List Ref} (loan : p ∈ loans)
    {c : CellState} (state : h.state? r = some c) (idle : c ≠ .forcing) : p.1 ≠ r := by
  rintro rfl
  rw [(mat.running p loan).1] at state
  exact idle (Option.some.inj state.symm)

theorem not_mem_of_state (mat : HeapMatch M loans h h') {p : Ref × List Ref} (loan : p ∈ loans)
    {c : CellState} (state : h.state? r = some c) (other : c ≠ .redirect p.1) : r ∉ p.2 := by
  intro mine
  rw [(mat.lent p loan r mine).1] at state
  exact other (Option.some.inj state.symm)

/-- Both sides start the work of a cell. -/
theorem start (mat : HeapMatch M loans h h') {w w' : Work} (left : h.state? r = some (.pending w))
    (right : h'.state? r = some (.pending w')) :
    HeapMatch M ((r, []) :: loans) (h.setState r .forcing) (h'.setState r .forcing) where
  size := by simp only [Heap.size_setState, mat.size]
  sites t := by simp only [Heap.site?_setState, mat.sites t]
  cells t := by
    by_cases same : t = r
    · subst same
      refine .same ?_
      rw [Heap.state?_setState_self left, Heap.state?_setState_self right]
      exact .forcing
    · refine (mat.cells t).imp (Heap.state?_setState_ne same _) (Heap.state?_setState_ne same _)
        ?_ ?_
      · intro u v forced
        rw [Heap.state?_setState_ne, forced]
        rintro rfl
        rw [left] at forced
        cases forced
      · intro cell lent loan mine
        exact ⟨lent, .tail _ loan, mine⟩
  running := by
    intro p loan
    cases loan with
    | head =>
      exact ⟨Heap.state?_setState_self left _, Heap.state?_setState_self right _⟩
    | tail _ loan =>
      have ne := mat.ne_of_running loan left (by simp)
      rw [Heap.state?_setState_ne ne, Heap.state?_setState_ne ne]
      exact mat.running p loan
  lent := by
    intro p loan t mine
    cases loan with
    | head => cases mine
    | tail _ loan =>
      have ne : t ≠ r := by
        rintro rfl
        exact mat.not_mem_of_state loan left (by simp) mine
      rw [Heap.state?_setState_ne ne, Heap.state?_setState_ne ne]
      exact mat.lent p loan t mine
  distinct := by
    refine List.nodup_cons.2 ⟨?_, mat.distinct⟩
    intro running
    obtain ⟨p, loan, same⟩ := List.mem_map.1 running
    exact mat.ne_of_running loan left (by simp) same

/-- The left side takes over the work of a tail, the right side starts it. -/
theorem lend {cell : Ref} {lent : List Ref} (mat : HeapMatch M ((cell, lent) :: loans) h h')
    {w w' : Work} (left : h.state? r = some (.pending w))
    (right : h'.state? r = some (.pending w')) :
    HeapMatch M ((cell, r :: lent) :: loans) (h.setState r (.redirect cell))
      (h'.setState r .forcing) where
  size := by simp only [Heap.size_setState, mat.size]
  sites t := by simp only [Heap.site?_setState, mat.sites t]
  cells t := by
    by_cases same : t = r
    · subst same
      exact .lent (List.mem_cons_self ..) (List.mem_cons_self ..)
        (Heap.state?_setState_self left _) (Heap.state?_setState_self right _)
    · refine (mat.cells t).imp (Heap.state?_setState_ne same _) (Heap.state?_setState_ne same _)
        ?_ ?_
      · intro u v forced
        rw [Heap.state?_setState_ne, forced]
        rintro rfl
        rw [left] at forced
        cases forced
      · intro cell' lent' loan mine
        cases loan with
        | head => exact ⟨r :: lent, .head _, .tail _ mine⟩
        | tail _ loan => exact ⟨lent', .tail _ loan, mine⟩
  running := by
    intro p loan
    cases loan with
    | head =>
      have ne := mat.ne_of_running (List.mem_cons_self ..) left (by simp)
      rw [Heap.state?_setState_ne ne, Heap.state?_setState_ne ne]
      exact mat.running (cell, lent) (List.mem_cons_self ..)
    | tail _ loan =>
      have ne := mat.ne_of_running (.tail _ loan) left (by simp)
      rw [Heap.state?_setState_ne ne, Heap.state?_setState_ne ne]
      exact mat.running p (.tail _ loan)
  lent := by
    have others : ∀ p ∈ (cell, lent) :: loans, ∀ t ∈ p.2,
        (h.setState r (.redirect cell)).state? t = some (.redirect p.1) ∧
          (h'.setState r .forcing).state? t = some .forcing := by
      intro p loan t mine
      have ne : t ≠ r := by
        rintro rfl
        exact mat.not_mem_of_state loan left (by simp) mine
      rw [Heap.state?_setState_ne ne, Heap.state?_setState_ne ne]
      exact mat.lent p loan t mine
    intro p loan t mine
    cases loan with
    | head =>
      cases mine with
      | head => exact ⟨Heap.state?_setState_self left _, Heap.state?_setState_self right _⟩
      | tail _ mine => exact others _ (List.mem_cons_self ..) t mine
    | tail _ loan => exact others p (.tail _ loan) t mine
  distinct := mat.distinct

/-- Both sides take over the work of a tail. -/
theorem splice {w w' : Work} (mat : HeapMatch M loans h h') (left : h.state? r = some (.pending w))
    (right : h'.state? r = some (.pending w')) (parent : Ref) :
    HeapMatch M loans (h.setState r (.redirect parent)) (h'.setState r (.redirect parent)) where
  size := by simp only [Heap.size_setState, mat.size]
  sites t := by simp only [Heap.site?_setState, mat.sites t]
  cells t := by
    by_cases same : t = r
    · subst same
      refine .same ?_
      rw [Heap.state?_setState_self left, Heap.state?_setState_self right]
      exact .redirect parent
    · refine (mat.cells t).imp (Heap.state?_setState_ne same _) (Heap.state?_setState_ne same _)
        ?_ fun cell lent loan mine => ⟨lent, loan, mine⟩
      intro u v forced
      rw [Heap.state?_setState_ne, forced]
      rintro rfl
      rw [left] at forced
      cases forced
  running := by
    intro p loan
    have ne := mat.ne_of_running loan left (by simp)
    rw [Heap.state?_setState_ne ne, Heap.state?_setState_ne ne]
    exact mat.running p loan
  lent := by
    intro p loan t mine
    have ne : t ≠ r := by
      rintro rfl
      exact mat.not_mem_of_state loan left (by simp) mine
    rw [Heap.state?_setState_ne ne, Heap.state?_setState_ne ne]
    exact mat.lent p loan t mine
  distinct := mat.distinct

/-- Both sides make a cell. -/
theorem alloc (mat : HeapMatch M loans h h') {c c' : Cell} (states : SameState M c.state c'.state)
    (site : c.site = c'.site) :
    (h.alloc c).1 = (h'.alloc c').1 ∧ HeapMatch M loans (h.alloc c).2 (h'.alloc c').2 := by
  have same_ref : (h.alloc c).1 = (h'.alloc c').1 := by
    simp only [Heap.alloc, mat.size]
  refine ⟨same_ref, ?_⟩
  constructor
  case size =>
    have size := mat.size
    simp only [Heap.size, Heap.alloc, Array.size_push] at size ⊢
    omega
  case sites =>
    intro t
    have old := mat.sites t
    simp only [Heap.site?, Heap.cell?_alloc, same_ref] at old ⊢
    split
    · exact site
    · exact old
  case cells =>
    intro t
    by_cases new : t = (h.alloc c).1
    · refine .same ?_
      rw [Heap.state?_alloc, Heap.state?_alloc, if_pos new, if_pos (new.trans same_ref)]
      exact states
    · have new' : t ≠ (h'.alloc c').1 := fun same => new (same.trans same_ref.symm)
      refine (mat.cells t).imp ?_ ?_ ?_ fun cell lent loan mine => ⟨lent, loan, mine⟩
      · rw [Heap.state?_alloc, if_neg new]
      · rw [Heap.state?_alloc, if_neg new']
      · exact fun u v forced => Heap.state?_alloc_of_some forced c
  case running =>
    intro p loan
    obtain ⟨left, right⟩ := mat.running p loan
    exact ⟨Heap.state?_alloc_of_some left c, Heap.state?_alloc_of_some right c'⟩
  case lent =>
    intro p loan t mine
    obtain ⟨left, right⟩ := mat.lent p loan t mine
    exact ⟨Heap.state?_alloc_of_some left c, Heap.state?_alloc_of_some right c'⟩
  case distinct => exact mat.distinct

/-- Both sides fill a handle, or both refuse. -/
theorem fill (mat : HeapMatch M loans h h') (handle target : Ref) :
    (h.fill handle target).1 = (h'.fill handle target).1 ∧
      HeapMatch M loans (h.fill handle target).2 (h'.fill handle target).2 := by
  by_cases vacant : h.state? handle = some .vacant
  · have vacant' : h'.state? handle = some .vacant := by
      cases mat.cells handle with
      | same states =>
        rw [vacant] at states
        generalize h'.state? handle = o at states
        cases states
        rfl
      | lent _ _ redirect _ => rw [vacant] at redirect; cases redirect
      | done redirect _ _ _ => rw [vacant] at redirect; cases redirect
    simp only [Heap.fill, vacant, vacant', true_and]
    constructor
    case size => simp only [Heap.size_setState, mat.size]
    case sites => exact fun t => by simp only [Heap.site?_setState, mat.sites t]
    case cells =>
      intro t
      by_cases same : t = handle
      · subst same
        refine .same ?_
        rw [Heap.state?_setState_self vacant, Heap.state?_setState_self vacant']
        exact .redirect target
      · refine (mat.cells t).imp (Heap.state?_setState_ne same _)
          (Heap.state?_setState_ne same _) ?_ fun cell lent loan mine => ⟨lent, loan, mine⟩
        intro u v forced
        rw [Heap.state?_setState_ne, forced]
        rintro rfl
        rw [vacant] at forced
        cases forced
    case running =>
      intro p loan
      have ne := mat.ne_of_running loan vacant (by simp)
      rw [Heap.state?_setState_ne ne, Heap.state?_setState_ne ne]
      exact mat.running p loan
    case lent =>
      intro p loan t mine
      have ne : t ≠ handle := by
        rintro rfl
        exact mat.not_mem_of_state loan vacant (by simp) mine
      rw [Heap.state?_setState_ne ne, Heap.state?_setState_ne ne]
      exact mat.lent p loan t mine
    case distinct => exact mat.distinct
  · have vacant' : h'.state? handle ≠ some .vacant := by
      intro right
      cases mat.cells handle with
      | same states =>
        rw [right] at states
        generalize h.state? handle = o at states vacant
        cases states
        exact vacant rfl
      | lent _ _ _ forcing => rw [right] at forcing; cases forcing
      | done _ _ forced _ => rw [right] at forced; cases forced
    have refused : ∀ k : Heap, k.state? handle ≠ some .vacant →
        k.fill handle target = (false, k) := by
      intro k filled
      unfold Heap.fill
      split
      · next vacant => exact absurd vacant filled
      · rfl
    rw [refused h vacant, refused h' vacant']
    exact ⟨rfl, mat⟩

end HeapMatch

/-- Some cells, and no others, have got values like `v`. -/
structure Published (M : Manner) (cells : List Ref) (v : Value) (h h' : Heap) : Prop where
  size : h'.size = h.size
  sites : ∀ r, h'.site? r = h.site? r
  inside : ∀ r ∈ cells, ∃ v', h'.state? r = some (.forced v') ∧ ValueLike M .same v v'
  outside : ∀ r, r ∉ cells → h'.state? r = h.state? r

/-- A cell gets its value, and on the right all that is lent to it. -/
theorem HeapMatch.publish {cell : Ref} {lent : List Ref}
    (mat : HeapMatch M ((cell, lent) :: loans) h h') {v : Value} {h'' : Heap}
    (published : Published M (cell :: lent) v h' h'') :
    HeapMatch M loans (h.publish cell v) h'' := by
  obtain ⟨left, right⟩ := mat.running (cell, lent) (List.mem_cons_self ..)
  have distinct := List.nodup_cons.1 mat.distinct
  have value : (h.publish cell v).state? cell = some (.forced v) :=
    Heap.state?_setState_self left _
  have other_cell : ∀ p ∈ loans, p.1 ≠ cell := by
    rintro p loan rfl
    exact distinct.1 (List.mem_map.2 ⟨p, loan, rfl⟩)
  have other_lent : ∀ t c, h.state? t = some c → c ≠ .redirect cell → t ∉ lent :=
    fun t c state other => mat.not_mem_of_state (List.mem_cons_self ..) state other
  constructor
  case size => rw [Heap.publish, Heap.size_setState, published.size, mat.size]
  case sites => exact fun t => by rw [Heap.publish, Heap.site?_setState, published.sites, mat.sites]
  case cells =>
    intro t
    by_cases same : t = cell
    · subst same
      obtain ⟨v', forced, values⟩ := published.inside t (List.mem_cons_self ..)
      refine .same ?_
      rw [value, forced]
      exact .forced values
    · by_cases mine : t ∈ lent
      · obtain ⟨v', forced, values⟩ := published.inside t (.tail _ mine)
        obtain ⟨redirect, _⟩ := mat.lent (cell, lent) (List.mem_cons_self ..) t mine
        refine .done ?_ value forced values
        exact (Heap.state?_setState_ne same _).trans redirect
      · refine (mat.cells t).imp (Heap.state?_setState_ne same _)
          (published.outside t (by simp [same, mine])) ?_ ?_
        · intro u x forced
          rw [Heap.publish, Heap.state?_setState_ne, forced]
          rintro rfl
          rw [left] at forced
          cases forced
        · intro cell' lent' loan mine'
          cases loan with
          | head => exact absurd mine' mine
          | tail _ loan => exact ⟨lent', loan, mine'⟩
  case running =>
    intro p loan
    obtain ⟨forcing, forcing'⟩ := mat.running p (.tail _ loan)
    have ne := other_cell p loan
    have free := other_lent p.1 _ forcing (by simp)
    rw [Heap.publish, Heap.state?_setState_ne ne, published.outside _ (by simp [ne, free])]
    exact ⟨forcing, forcing'⟩
  case lent =>
    intro p loan t mine
    obtain ⟨redirect, forcing⟩ := mat.lent p (.tail _ loan) t mine
    have ne : t ≠ cell := by
      rintro rfl
      rw [left] at redirect
      cases redirect
    have free := other_lent t _ redirect (by simpa using other_cell p loan)
    rw [Heap.publish, Heap.state?_setState_ne ne, published.outside _ (by simp [ne, free])]
    exact ⟨redirect, forcing⟩
  case distinct => exact distinct.2

end CallByNeed
