import CallByNeed.Heap
import Mathlib.Logic.Relation
import Mathlib.Order.RelClasses

/- How cells change, and where redirects lead. Redirects and forced values stay for good, so all
   that is said here about one heap holds of every later one. -/
namespace CallByNeed
open Relation (ReflTransGen EqvGen)

/-- All the ways in which a cell may change. -/
inductive CellState.Moves : CellState → CellState → Prop where
  | fill (target : Ref) : Moves .vacant (.redirect target)
  | start (w : Work) : Moves (.pending w) .forcing
  | splice (w : Work) (parent : Ref) : Moves (.pending w) (.redirect parent)
  | publish (v : Value) : Moves .forcing (.forced v)

namespace Heap

/-- Every cell stays as it is or moves once. There may be new cells. -/
def Evolves (h h' : Heap) : Prop :=
  ∀ r c, h.state? r = some c → ∃ c', h'.state? r = some c' ∧ (c' = c ∨ c.Moves c')

def Redirects (h : Heap) (r target : Ref) : Prop := h.state? r = some (.redirect target)

def Leads (h : Heap) : Ref → Ref → Prop := ReflTransGen h.Redirects

/-- The cells are one cell, or linked by redirects in whatever direction. -/
def Linked (h : Heap) : Ref → Ref → Prop := EqvGen h.Redirects

/-- The redirects from a cell end in a forced one. -/
def Yields (h : Heap) (r : Ref) (v : Value) : Prop :=
  ∃ d, h.Leads r d ∧ h.state? d = some (.forced v)

/-- The cell had work, and somebody has taken it. -/
def Spent (h : Heap) (r : Ref) : Prop :=
  ∃ c, h.state? r = some c ∧ c ≠ .vacant ∧ ∀ w, c ≠ .pending w

theorem state?_alloc (h : Heap) (c : Cell) (r : Ref) :
    (h.alloc c).2.state? r = if r = (h.alloc c).1 then some c.state else h.state? r := by
  simp only [state?, cell?_alloc]
  split <;> rfl

theorem state?_new (h : Heap) (c : Cell) : (h.alloc c).2.state? (h.alloc c).1 = some c.state := by
  rw [state?_alloc, if_pos rfl]

theorem state?_size (h : Heap) : h.state? ⟨h.size⟩ = none := by
  simp [state?, cell?, size]

theorem state?_alloc_of_some {h : Heap} {r : Ref} {s : CellState} (known : h.state? r = some s)
    (c : Cell) : (h.alloc c).2.state? r = some s := by
  rw [state?_alloc, if_neg, known]
  rintro rfl
  rw [show (h.alloc c).1 = ⟨h.size⟩ from rfl, state?_size] at known
  cases known

theorem state?_setState_self {h : Heap} {r : Ref} {s : CellState} (known : h.state? r = some s)
    (s' : CellState) : (h.setState r s').state? r = some s' := by
  simp [state?_setState, known]

theorem state?_setState_ne {h : Heap} {r t : Ref} (other : t ≠ r) (s : CellState) :
    (h.setState r s).state? t = h.state? t := by
  simp [state?_setState, other]

theorem evolves_refl (h : Heap) : h.Evolves h := fun _ c known => ⟨c, known, .inl rfl⟩

theorem evolves_alloc (h : Heap) (c : Cell) : h.Evolves (h.alloc c).2 :=
  fun _ s known => ⟨s, state?_alloc_of_some known c, .inl rfl⟩

theorem evolves_setState {h : Heap} {r : Ref} {s s' : CellState} (known : h.state? r = some s)
    (move : s.Moves s') : h.Evolves (h.setState r s') := by
  intro t c before
  by_cases same : t = r
  · subst same
    have : s = c := by simpa [known] using before
    subst this
    exact ⟨s', state?_setState_self known s', .inr move⟩
  · exact ⟨c, by rw [state?_setState_ne same, before], .inl rfl⟩

theorem evolves_publish {h : Heap} {r : Ref} (forcing : h.state? r = some .forcing) (v : Value) :
    h.Evolves (h.publish r v) :=
  evolves_setState forcing (.publish v)

theorem evolves_fill (h : Heap) (handle target : Ref) : h.Evolves (h.fill handle target).2 := by
  unfold fill
  split
  · next vacant => exact evolves_setState vacant (.fill target)
  · exact evolves_refl h

theorem Evolves.redirects {h h' : Heap} (e : h.Evolves h') {r t : Ref} (known : h.Redirects r t) :
    h'.Redirects r t := by
  obtain ⟨c, after, same | move⟩ := e r _ known
  · rw [Redirects, after, same]
  · cases move

theorem Evolves.forced {h h' : Heap} (e : h.Evolves h') {r : Ref} {v : Value}
    (known : h.state? r = some (.forced v)) : h'.state? r = some (.forced v) := by
  obtain ⟨c, after, same | move⟩ := e r _ known
  · rw [after, same]
  · cases move

theorem Evolves.leads {h h' : Heap} (e : h.Evolves h') {r t : Ref} (path : h.Leads r t) :
    h'.Leads r t :=
  ReflTransGen.mono (fun _ _ known => e.redirects known) _ _ path

theorem Evolves.yields {h h' : Heap} (e : h.Evolves h') {r : Ref} {v : Value}
    (y : h.Yields r v) : h'.Yields r v := by
  obtain ⟨d, path, forced⟩ := y
  exact ⟨d, e.leads path, e.forced forced⟩

theorem Evolves.spent {h h' : Heap} (e : h.Evolves h') {r : Ref} (spent : h.Spent r) :
    h'.Spent r := by
  obtain ⟨c, known, full, idle⟩ := spent
  obtain ⟨c', after, same | move⟩ := e r c known
  · subst same
    exact ⟨c', after, full, idle⟩
  · refine ⟨c', after, ?_, ?_⟩ <;> cases move <;> simp_all

/-- A cell that redirects yields exactly what its target yields. -/
theorem yields_of_redirects {h : Heap} {r t : Ref} {v : Value} (redirect : h.Redirects r t) :
    h.Yields r v ↔ h.Yields t v := by
  constructor
  · rintro ⟨d, path, forced⟩
    cases path.cases_head with
    | inl same =>
      subst same
      rw [redirect] at forced
      cases forced
    | inr more =>
      obtain ⟨next, first, rest⟩ := more
      rw [Redirects, redirect] at first
      cases first
      exact ⟨d, rest, forced⟩
  · rintro ⟨d, path, forced⟩
    exact ⟨d, .head redirect path, forced⟩

theorem yields_of_linked {h : Heap} {r t : Ref} (linked : h.Linked r t) {v : Value} :
    h.Yields r v ↔ h.Yields t v := by
  induction linked with
  | rel r t redirect => exact yields_of_redirects redirect
  | refl r => rfl
  | symm r t _ ih => exact ih.symm
  | trans r t u _ _ first second => exact first.trans second

theorem yields_unique {h : Heap} {r : Ref} {v v' : Value} (y : h.Yields r v)
    (y' : h.Yields r v') : v = v' := by
  obtain ⟨d, path, forced⟩ := y
  induction path using ReflTransGen.head_induction_on with
  | refl =>
    obtain ⟨d', path', forced'⟩ := y'
    cases path'.cases_head with
    | inl same =>
      subst same
      simpa [forced] using forced'
    | inr more =>
      obtain ⟨next, first, _⟩ := more
      rw [Redirects, forced] at first
      cases first
  | head first _ ih => exact ih ((yields_of_redirects first).mp y')

end Heap

/-! ### Links

Where redirects come from in one step, and why they lead out. A handle is filled with a forced
cell; work is moved into a cell that is being forced. Neither target is ever redirected. -/

open Relation (ReflTransGen TransGen)

/-- A cell in which a search for a value ends: it has work, or a forcer, or a value. -/
inductive CellState.IsOwn : CellState → Prop where
  | pending (w : Work) : IsOwn (.pending w)
  | forcing : IsOwn .forcing
  | forced (v : Value) : IsOwn (.forced v)

/-- A cell that is or was being forced. -/
inductive CellState.IsFirm : CellState → Prop where
  | forcing : IsFirm .forcing
  | forced (v : Value) : IsFirm (.forced v)

theorem CellState.IsFirm.isOwn {c : CellState} (firm : c.IsFirm) : c.IsOwn := by
  cases firm with
  | forcing => exact .forcing
  | forced v => exact .forced v

namespace Heap

def Firm (h : Heap) (r : Ref) : Prop := ∃ c, h.state? r = some c ∧ c.IsFirm

/-- The redirects from a cell end in a cell of its own. -/
def Lands (h : Heap) (r : Ref) : Prop := ∃ d c, h.Leads r d ∧ h.state? d = some c ∧ c.IsOwn

/-- No redirects lead from a cell without end, and none back to it. -/
def LeadsOut (h : Heap) (r : Ref) : Prop := Acc (fun t r => h.Redirects r t) r

/-- A step points a vacant handle at a forced cell. -/
def Fills (h h' : Heap) (r t : Ref) : Prop :=
  h.state? r = some .vacant ∧ h'.Redirects r t ∧ ∃ v, h.state? t = some (.forced v)

/-- A step moves the work of a cell into one that is being forced. -/
def Splices (h h' : Heap) (r t : Ref) : Prop :=
  (∃ w, h.state? r = some (.pending w)) ∧ h'.Redirects r t ∧ h.state? t = some .forcing

/-- The new redirects of a step come from filling handles and from moving work. -/
def Relinks (h h' : Heap) : Prop :=
  ∀ r t, h'.Redirects r t → h.Redirects r t ∨ h.Fills h' r t ∨ h.Splices h' r t

variable {h h' : Heap} {r t : Ref}

theorem relinks_refl (h : Heap) : h.Relinks h := fun _ _ known => .inl known

theorem relinks_alloc (h : Heap) {c : Cell} (plain : ∀ t, c.state ≠ .redirect t) :
    h.Relinks (h.alloc c).2 := by
  intro r t redirect
  rw [Redirects, state?_alloc] at redirect
  split at redirect
  · exact absurd (Option.some.inj redirect) (plain t)
  · exact .inl redirect

theorem relinks_setState (h : Heap) (r : Ref) {c : CellState} (plain : ∀ t, c ≠ .redirect t) :
    h.Relinks (h.setState r c) := by
  intro q t redirect
  by_cases same : q = r
  · subst same
    rw [Redirects, state?_setState, if_pos rfl] at redirect
    obtain ⟨_, _, state⟩ := Option.map_eq_some_iff.1 redirect
    exact absurd state (plain t)
  · rw [Redirects, state?_setState_ne same] at redirect
    exact .inl redirect

theorem relinks_redirect {t : Ref}
    (move : h.Redirects r t ∨ h.Fills (h.setState r (.redirect t)) r t ∨
      h.Splices (h.setState r (.redirect t)) r t) : h.Relinks (h.setState r (.redirect t)) := by
  intro q u redirect
  by_cases same : q = r
  · subst same
    have target : u = t := by
      rw [Redirects, state?_setState, if_pos rfl] at redirect
      obtain ⟨_, _, state⟩ := Option.map_eq_some_iff.1 redirect
      cases state
      rfl
    subst target
    exact move
  · rw [Redirects, state?_setState_ne same] at redirect
    exact .inl redirect

theorem relinks_fill {v : Value} (vacant : h.state? r = some .vacant)
    (forced : h.state? t = some (.forced v)) : h.Relinks (h.setState r (.redirect t)) :=
  relinks_redirect (.inr (.inl ⟨vacant, state?_setState_self vacant _, v, forced⟩))

theorem relinks_splice {w : Work} (pending : h.state? r = some (.pending w))
    (forcing : h.state? t = some .forcing) : h.Relinks (h.setState r (.redirect t)) :=
  relinks_redirect (.inr (.inr ⟨⟨w, pending⟩, state?_setState_self pending _, forcing⟩))

/-- What is firm once is never redirected. -/
theorem Evolves.firm (evolves : h.Evolves h') (firm : h.Firm r) : h'.Firm r := by
  obtain ⟨c, state, firm⟩ := firm
  obtain ⟨c', state', same | move⟩ := evolves r c state
  · subst same
    exact ⟨c', state', firm⟩
  · cases firm with
    | forced v => cases move
    | forcing =>
      cases move
      exact ⟨_, state', .forced _⟩

theorem Fills.firm (fills : h.Fills h' r t) : h.Firm t := by
  obtain ⟨_, _, v, forced⟩ := fills
  exact ⟨_, forced, .forced v⟩

theorem Splices.firm (splices : h.Splices h' r t) : h.Firm t :=
  ⟨_, splices.2.2, .forcing⟩

theorem Firm.lands (firm : h.Firm r) : h.Lands r := by
  obtain ⟨c, state, firm⟩ := firm
  exact ⟨r, c, .refl, state, firm.isOwn⟩

theorem Firm.not_redirects (firm : h.Firm r) : ¬ h.Redirects r t := by
  obtain ⟨c, state, firm⟩ := firm
  intro redirect
  rw [Redirects, state] at redirect
  cases firm <;> cases redirect

theorem leadsOut_of_not_redirects (own : ∀ t, ¬ h.Redirects r t) : h.LeadsOut r :=
  .intro r fun t redirect => absurd redirect (own t)

theorem LeadsOut.acyclic (out : h.LeadsOut r) : ¬ TransGen h.Redirects r r := by
  induction out with
  | intro r _ ih =>
    intro cycle
    obtain ⟨t, first, rest⟩ := TransGen.head'_iff.1 cycle
    exact ih t first (.tail' rest first)

theorem Lands.head (redirect : h.Redirects r t) (lands : h.Lands t) : h.Lands r := by
  obtain ⟨d, c, leads, state, own⟩ := lands
  exact ⟨d, c, .head redirect leads, state, own⟩

end Heap
end CallByNeed
