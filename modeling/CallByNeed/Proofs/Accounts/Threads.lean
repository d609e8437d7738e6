import CallByNeed.Proofs.Accounts.Paths
import CallByNeed.Proofs.Sharing

/- Threads keep account of the work they do. Each cell that a thread is forcing has come to where it is
   by a way through the script of some work; work that nobody does is still to be done, or settled.
   So whatever value a cell has got, its work has made it. -/
namespace CallByNeed
open Relation (ReflTransGen)

/-! ### The heap as it was made -/

/-- The second heap has come of the first one, which has all its cells as they were made. -/
structure Heap.Origin (g h : Heap) : Prop where
  before : g.Before h
  size : g.size = h.size

namespace Heap
variable {g h : Heap} {r : Ref} {w : Work} {s s' : CellState}

theorem origin_refl (h : Heap) : h.Origin h := ⟨h.before_refl, rfl⟩

theorem extends_refl (g : Heap) : g.Extends g := fun _ _ known => known

theorem Extends.trans {g₁ g₂ : Heap} (first : g.Extends g₁) (second : g₁.Extends g₂) :
    g.Extends g₂ :=
  fun r state known => second r state (first r state known)

theorem extends_alloc (g : Heap) (c : Cell) : g.Extends (g.alloc c).2 :=
  fun _ _ known => state?_alloc_of_some known c

theorem Origin.made (origin : g.Origin h) {c : Cell} (known : h.cell? r = some c) :
    ∃ c', g.cell? r = some c' ∧ c'.Before c := by
  have inside : r.index < g.cells.size := by
    have bound := (Array.getElem?_eq_some_iff.1 known).1
    have size : g.cells.size = h.cells.size := origin.size
    omega
  have made : g.cell? r = some g.cells[r.index] := Array.getElem?_eq_getElem inside
  obtain ⟨c', later, before⟩ := origin.before r _ made
  rw [known] at later
  cases later
  exact ⟨_, made, before⟩

/-- Work that is still to be done was there when the cell was made. -/
theorem Origin.pending (origin : g.Origin h) (pending : h.state? r = some (.pending w)) :
    g.state? r = some (.pending w) := by
  obtain ⟨c, known, state⟩ := exists_cell pending
  obtain ⟨c', made, _, moves⟩ := origin.made known
  rw [state] at moves
  rcases moves.cases_tail with same | ⟨_, _, move⟩
  · simp [state?, made, same]
  · cases move

theorem Origin.later (origin : g.Origin h) {h' : Heap} (before : h.Before h')
    (size : h'.size = h.size) : g.Origin h' :=
  ⟨origin.before.trans before, origin.size.trans size.symm⟩

theorem Origin.alloc (origin : g.Origin h) (c : Cell) :
    (g.alloc c).2.Origin (h.alloc c).2 ∧ (g.alloc c).1 = (h.alloc c).1 := by
  have new : (g.alloc c).1 = (h.alloc c).1 := congrArg Ref.mk origin.size
  refine ⟨⟨fun r c' known => ?_, ?_⟩, new⟩
  · rw [cell?_alloc, ← new]
    rw [cell?_alloc] at known
    split
    · next here =>
      rw [if_pos here] at known
      cases known
      exact ⟨c, rfl, c.before_refl⟩
    · next old =>
      rw [if_neg old] at known
      exact origin.before r c' known
  · have size : g.cells.size = h.cells.size := origin.size
    simp [Heap.alloc, Heap.size, size]

/-- The heap has gone on, and with it the heap of cells as they were made. New work is still to be
    done. -/
structure Widens (g h g' h' : Heap) : Prop where
  extends' : g.Extends g'
  before : h.Before h'
  origin : g'.Origin h'
  new : ∀ r w, g'.state? r = some (.pending w) →
    g.state? r = some (.pending w) ∨ h'.state? r = some (.pending w)

theorem Origin.grows (origin : g.Origin h) {h' : Heap} (before : h.Before h')
    (size : h'.size = h.size) : g.Widens h g h' :=
  ⟨g.extends_refl, before, origin.later before size, fun _ _ => .inl⟩

theorem Origin.grows_alloc (origin : g.Origin h) (c : Cell) :
    g.Widens h (g.alloc c).2 (h.alloc c).2 := by
  obtain ⟨made, new⟩ := origin.alloc c
  refine ⟨g.extends_alloc c, h.before_alloc c, made, fun r w pending => ?_⟩
  rw [state?_alloc] at pending
  split at pending
  · next here =>
    rw [here, new, state?_alloc, if_pos rfl]
    exact .inr pending
  · exact .inl pending

theorem size_act {s : Store} {a : Action} (other : ∀ c, a ≠ .alloc c) :
    (s.act a).2.heap.size = s.heap.size := by
  cases a with
  | alloc c => exact absurd rfl (other c)
  | fill handle target =>
    simp only [Store.act, Heap.fill]
    split
    · exact size_setState ..
    · rfl
  | pollRally id =>
    simp only [Store.act]
    split <;> rfl
  | listRally id i =>
    simp only [Store.act]
    split <;> rfl
  | _ => rfl

/-- What a script does to the store is done to the heap of cells as they were made. -/
theorem Origin.act {s : Store} (origin : g.Origin s.heap) (a : Action) {α : Type} (m : Script α) :
    ∃ g', g.Widens s.heap g' (s.act a).2.heap ∧
      ∀ (log : List (Ref × Value)) (next : a.Answer → Script α),
        m.Goes g s.heap log (.act a next) → m.Goes g' (s.act a).2.heap log (next (s.act a).1) := by
  by_cases makes : ∃ c, a = .alloc c
  · obtain ⟨c, rfl⟩ := makes
    have grows := origin.grows_alloc c
    refine ⟨_, grows, fun log next path => .alloc (path.mono grows.extends' grows.before) ?_⟩
    change (g.alloc c).2.state? (s.heap.alloc c).1 = some c.state
    rw [state?_alloc, if_pos (origin.alloc c).2.symm]
  · have other : ∀ c, a ≠ .alloc c := fun c same => makes ⟨c, same⟩
    have grows := origin.grows (Store.before_act s a) (size_act other)
    exact ⟨g, grows, fun log next path => .act (path.mono grows.extends' grows.before) other⟩

end Heap

/-! ### Threads at work -/

/-- The cell `d` is being forced, and its script has come to this point by way of the work of `r`,
    which is the cell itself or one whose work it has taken over. -/
def Heap.Working (bound : Nat) (g h : Heap) (r d : Ref) (site : Option Location)
    (m : Script Outcome) : Prop :=
  ∃ w log, g.state? r = some (.pending w) ∧ w.site = site ∧ h.Leads r d ∧
    (w.task.script bound).Goes g h log m

/-- Each frame waits for the call above it, at a point of the work of some cell. -/
inductive Heap.Waiting (bound : Nat) (g h : Heap) : List Frame → List Ref → List Ref → Prop
  | nil {call : Ref} : Waiting bound g h [] [call] []
  | reply {d r call asked : Ref} {site : Option Location} {how how' : Demand}
      {next : Value → Script Outcome} {frames : List Frame} {calls rs : List Ref}
      (working : Working bound g h r d site (.demand how' asked next))
      (answers : ∀ h' v, h.Before h' → h'.Replies how call v → h'.Replies how' asked v)
      (rest : Waiting bound g h frames calls rs) :
      Waiting bound g h ({ cell := d, site, wait := .reply how call next } :: frames)
        (call :: calls) (r :: rs)
  | tail {d r call : Ref} {site : Option Location} {frames : List Frame} {calls rs : List Ref}
      (working : Working bound g h r d site (.done (.tail call)))
      (rest : Waiting bound g h frames calls rs) :
      Waiting bound g h ({ cell := d, site, wait := .tail } :: frames) (call :: calls) (r :: rs)

/-- The cells whose work is being done by a control and its frames. -/
inductive Heap.Engaged (bound : Nat) (g h : Heap) :
    Control → List Frame → List Ref → List Ref → Prop
  | enter {q : Ref} {frames : List Frame} {calls rs : List Ref}
      (waiting : Waiting bound g h frames calls rs) : Engaged bound g h (.enter q) frames calls rs
  | run {r d : Ref} {site : Option Location} {m : Script Outcome} {frames : List Frame}
      {calls rs : List Ref} (working : Working bound g h r d site m)
      (waiting : Waiting bound g h frames calls rs) :
      Engaged bound g h (.run d site m) frames calls (r :: rs)
  | give {v : Value} {frames : List Frame} {calls rs : List Ref}
      (waiting : Waiting bound g h frames calls rs) : Engaged bound g h (.give v) frames calls rs

/-- All work that was ever made is still to be done, settled, or being done by somebody. -/
def Heap.Tracked (bound : Nat) (g h : Heap) (busy : Ref → Prop) : Prop :=
  ∀ r w, g.state? r = some (.pending w) →
    h.state? r = some (.pending w) ∨ Heap.Settled bound g h r w ∨ busy r

section
variable {bound : Nat} {g g' h h' : Heap} {c : Control} {frames : List Frame} {calls rs : List Ref}
variable {r d : Ref} {site : Option Location} {m : Script Outcome} {busy busy' : Ref → Prop}

theorem Heap.Working.mono (grows : g.Widens h g' h') (working : Working bound g h r d site m) :
    Working bound g' h' r d site m := by
  obtain ⟨w, log, made, same, leads, path⟩ := working
  exact ⟨w, log, grows.extends' _ _ made, same, grows.before.leads leads,
    path.mono grows.extends' grows.before⟩

theorem Heap.Waiting.mono (grows : g.Widens h g' h') (waiting : Waiting bound g h frames calls rs) :
    Waiting bound g' h' frames calls rs := by
  induction waiting with
  | nil => exact .nil
  | reply working answers _ ih =>
    exact .reply (working.mono grows) (fun h'' v later => answers h'' v (grows.before.trans later)) ih
  | tail working _ ih => exact .tail (working.mono grows) ih

theorem Heap.Engaged.mono (grows : g.Widens h g' h') (engaged : Engaged bound g h c frames calls rs) :
    Engaged bound g' h' c frames calls rs := by
  cases engaged with
  | enter waiting => exact .enter (waiting.mono grows)
  | run working waiting => exact .run (working.mono grows) (waiting.mono grows)
  | give waiting => exact .give (waiting.mono grows)

/-- It is enough to look after work that is taken or left. -/
theorem Heap.Tracked.grows (tracked : Tracked bound g h busy) (grows : g.Widens h g' h')
    (taken : ∀ r w, h.state? r = some (.pending w) →
      h'.state? r = some (.pending w) ∨ Heap.Settled bound g' h' r w ∨ busy' r)
    (left : ∀ r w, g.state? r = some (.pending w) → busy r →
      Heap.Settled bound g' h' r w ∨ busy' r) : Tracked bound g' h' busy' := by
  intro r w made
  rcases grows.new r w made with old | new
  · rcases tracked r w old with pending | settled | mine
    · exact taken r w pending
    · exact .inr (.inl (settled.mono grows.extends' grows.before))
    · exact .inr (left r w old mine)
  · exact .inl new

end

/-! ### One step -/

section
variable {bound : Nat} {g g' h h' : Heap} {rs : List Ref} {r d : Ref} {w : Work}
variable {site : Option Location} {m : Script Outcome} {others : Ref → Prop}

theorem Heap.Origin.grows_setState (origin : g.Origin h) {s s' : CellState}
    (known : h.state? d = some s) (move : s.Moves s') : g.Widens h g (h.setState d s') :=
  origin.grows (before_setState known move) (size_setState h d s')

/-- Somebody takes the work of a cell, and does it. -/
theorem Heap.Tracked.taken {busy busy' : Ref → Prop} (tracked : Tracked bound g h busy)
    {s' : CellState} (grows : g.Widens h g (h.setState r s')) (mine : busy' r)
    (left : ∀ q w, g.state? q = some (.pending w) → busy q →
      Heap.Settled bound g (h.setState r s') q w ∨ busy' q) :
    Tracked bound g (h.setState r s') busy' := by
  refine tracked.grows grows (fun q w pending => ?_) left
  by_cases same : q = r
  · exact .inr (.inr (same ▸ mine))
  · exact .inl (by rw [state?_setState_ne same, pending])

/-- Nobody takes work, and the one who stops has settled it. -/
theorem Heap.Tracked.published (tracked : Tracked bound g h fun q => q ∈ r :: rs ∨ others q)
    (forcing : h.state? d = some .forcing) {v : Value} (grows : g.Widens h g (h.publish d v))
    (settled : ∀ w, g.state? r = some (.pending w) → Settled bound g (h.publish d v) r w) :
    Tracked bound g (h.publish d v) fun q => q ∈ rs ∨ others q := by
  refine tracked.grows grows (fun q w pending => .inl ?_) (fun q w made busy => ?_)
  · have other : q ≠ d := by
      rintro rfl
      rw [forcing] at pending
      cases pending
    rw [publish, state?_setState_ne other, pending]
  · rcases busy with mine | theirs
    · rcases List.mem_cons.1 mine with rfl | rest
      · exact .inl (settled w made)
      · exact .inr (.inl rest)
    · exact .inr (.inr theirs)

theorem Heap.Tracked.unchanged {busy : Ref → Prop} (tracked : Tracked bound g h busy)
    (grows : g.Widens h g' h')
    (kept : ∀ r w, h.state? r = some (.pending w) → h'.state? r = some (.pending w)) :
    Tracked bound g' h' busy :=
  tracked.grows grows (fun r w pending => .inl (kept r w pending)) (fun _ _ _ busy => .inr busy)

/-- Whoever publishes the value that his work makes has settled it. -/
theorem Heap.Working.settles (working : Working bound g h r d site m)
    (forcing : h.state? d = some .forcing) {v : Value} (grows : g.Widens h g (h.publish d v))
    (makes : ∀ (w : Work) log, w.site = site → (w.task.script bound).Goes g h log m →
      ∃ log', w.Makes bound g h log' v) :
    ∀ w, g.state? r = some (.pending w) → Settled bound g (h.publish d v) r w := by
  obtain ⟨w', log, made, same, leads, path⟩ := working
  intro w made'
  rw [made] at made'
  cases made'
  obtain ⟨_, makes⟩ := makes w' log same path
  exact .made (yields_published forcing leads v) (makes.mono grows.extends' grows.before)

variable {frames : List Frame} {calls : List Ref}

/-- The heaps have gone on, and all work has been accounted for again. -/
def Heap.EngagedAfter (bound : Nat) (g h h' : Heap) (c : Control) (frames : List Frame)
    (calls : List Ref) (others : Ref → Prop) : Prop :=
  ∃ g' rs, g.Widens h g' h' ∧ Engaged bound g' h' c frames calls rs ∧
    Tracked bound g' h' fun r => r ∈ rs ∨ others r

/-- Work is settled by the value it makes, which is given to those who wait for it. -/
theorem Heap.Working.published (working : Working bound g h r d site m) (origin : g.Origin h)
    (waiting : Waiting bound g h frames calls rs)
    (tracked : Tracked bound g h fun q => q ∈ r :: rs ∨ others q)
    (forcing : h.state? d = some .forcing) (v : Value)
    (makes : ∀ (w : Work) log, w.site = site → (w.task.script bound).Goes g h log m →
      ∃ log', w.Makes bound g h log' v) :
    EngagedAfter bound g h (h.publish d v) (.give v) frames calls others := by
  have grows := origin.grows (before_publish forcing v) (size_setState ..)
  exact ⟨g, rs, grows, .give (waiting.mono grows),
    tracked.published forcing grows (working.settles forcing grows makes)⟩

/-- A cell whose work has ended with another one takes over the work of that one. -/
theorem Heap.Working.spliced {child : Ref}
    (working : Working bound g h r d site (.done (.tail child))) (origin : g.Origin h)
    (waiting : Waiting bound g h frames calls rs)
    (tracked : Tracked bound g h fun q => q ∈ r :: rs ∨ others q)
    (pending : h.state? child = some (.pending w)) :
    EngagedAfter bound g h (h.setState child (.redirect d)) (.run d w.site (w.task.script bound))
      frames calls others := by
  have grows := origin.grows_setState pending (.splice w d)
  have redirect : (h.setState child (.redirect d)).Redirects child d :=
    state?_setState_self pending _
  refine ⟨g, child :: rs, grows, .run ⟨w, [], origin.pending pending, rfl, .single redirect,
    .start⟩ (waiting.mono grows), ?_⟩
  refine tracked.taken grows (.inl List.mem_cons_self) fun q w' made busy => ?_
  rcases busy with mine | theirs
  · rcases List.mem_cons.1 mine with rfl | rest
    · obtain ⟨w₀, log, made₀, same, leads, path⟩ := working
      rw [made] at made₀
      cases made₀
      have ended := Script.Goes.ended (o := .ok (Outcome.tail child)) path
      exact .inl (.joined (ended.mono grows.extends' grows.before) (grows.before.leads leads)
        (.single redirect))
    · exact .inr (.inl (List.mem_cons_of_mem child rest))
  · exact .inr (.inr theirs)

end

/-- A step of a thread goes on with the work it does, settles it, or takes more. -/
theorem Engine.Advance.engaged {E : Engine} {g : Heap} {c c' : Control} {frames frames' : List Frame}
    {s s' : Store} {calls rs : List Ref} {others : Ref → Prop}
    (step : E.Advance c frames s c' frames' s')
    (forcing : s.heap.Forcing (c.cells ++ frames.map Frame.cell))
    (serves : s.heap.Serves c frames calls) (origin : g.Origin s.heap)
    (engaged : Heap.Engaged E.bound g s.heap c frames calls rs)
    (tracked : Heap.Tracked E.bound g s.heap fun r => r ∈ rs ∨ others r) :
    Heap.EngagedAfter E.bound g s.heap s'.heap c' frames' (c.callsAfter calls (some c')) others := by
  have still : g.Widens s.heap g s.heap := origin.grows s.heap.before_refl rfl
  cases step with
  | found forced =>
    cases engaged with
    | enter waiting => exact ⟨g, rs, still, .give waiting, tracked⟩
  | follow redirect =>
    cases engaged with
    | enter waiting => exact ⟨g, rs, still, .enter waiting, tracked⟩
  | @start r w _ _ pending =>
    cases engaged with
    | enter waiting =>
      have grows := origin.grows_setState pending (.start w)
      refine ⟨g, r :: rs, grows, .run ⟨w, [], origin.pending pending, rfl, .refl, .start⟩
        (waiting.mono grows), ?_⟩
      refine tracked.taken grows (.inl List.mem_cons_self) fun q w _ busy => .inr ?_
      exact busy.imp_left (List.mem_cons_of_mem r)
  | @value cell site v _ _ =>
    cases engaged with
    | run working waiting =>
      have owned := forcing cell (by simp [Control.cells])
      apply working.published origin waiting tracked owned
      rintro w log rfl path
      exact ⟨_, .value (Script.Goes.ended (o := .ok (Outcome.value v)) path)⟩
  | @fault cell site e _ _ =>
    cases engaged with
    | run working waiting =>
      have owned := forcing cell (by simp [Control.cells])
      apply working.published origin waiting tracked owned
      rintro w log rfl path
      exact ⟨_, .fault (Script.Goes.ended (o := .error e) path)⟩
  | splice _ pending =>
    cases engaged with
    | run working waiting => exact working.spliced origin waiting tracked pending
  | tail keeps =>
    cases engaged with
    | run working waiting => exact ⟨g, _, still, .enter (.tail working waiting), tracked⟩
  | demand =>
    cases engaged with
    | run working waiting =>
      exact ⟨g, _, still, .enter (.reply working (fun _ _ _ replies => replies) waiting), tracked⟩
  | @act cell site a next _ _ =>
    cases engaged with
    | run working waiting =>
      obtain ⟨r₀, log, made, same, leads, path⟩ := working
      obtain ⟨g', grows, goes⟩ := origin.act a (Task.script E.bound r₀.task)
      refine ⟨g', _, grows, .run ⟨r₀, log, grows.extends' _ _ made, same, grows.before.leads leads,
        goes log next path⟩ (waiting.mono grows), tracked.unchanged grows fun r w pending => ?_⟩
      have idle : s.heap.Forcing [] := by simp [Heap.Forcing]
      simpa using (Store.served_act idle a).keeps r w pending
  | @pass cell site v _ _ =>
    obtain ⟨yields, _⟩ := serves
    cases engaged with
    | give waiting =>
      cases waiting with
      | tail working rest =>
        have owned := forcing cell (by simp [Control.cells])
        apply working.published origin rest tracked owned
        rintro w log rfl path
        exact ⟨_, .tail (Script.Goes.ended (o := .ok (Outcome.tail _)) path) yields (.inr rfl)⟩
  | resume reply =>
    obtain ⟨yields, _⟩ := serves
    cases engaged with
    | give waiting =>
      cases waiting with
      | reply working answers rest =>
        obtain ⟨r₀, log, made, same, leads, path⟩ := working
        have replies := answers s.heap _ s.heap.before_refl (.resume yields reply)
        exact ⟨g, _, still, .run ⟨r₀, _, made, same, leads, path.demand replies⟩ rest, tracked⟩
  | perform reply =>
    obtain ⟨yields, _⟩ := serves
    cases engaged with
    | give waiting =>
      cases waiting with
      | reply working answers rest =>
        refine ⟨g, _, still, .enter (.reply working (fun h' u later replies => ?_) rest), tracked⟩
        refine answers h' u later (.perform (later.yields yields) ?_ replies)
        rwa [later.site_of_yields yields]

/-! ### Cells that are being worked for -/

theorem Heap.Waiting.forces {bound : Nat} {g h : Heap} {frames : List Frame} {calls rs : List Ref}
    (waiting : Waiting bound g h frames calls rs) :
    ∀ r ∈ rs, ∃ d ∈ frames.map Frame.cell, h.Leads r d := by
  have one {r d : Ref} {site : Option Location} {m : Script Outcome} {rest : List Ref}
      (working : Working bound g h r d site m) : ∃ q ∈ d :: rest, h.Leads r q := by
    obtain ⟨w, log, _, _, leads, _⟩ := working
    exact ⟨d, List.mem_cons_self, leads⟩
  induction waiting with
  | nil => nofun
  | reply working _ _ ih | tail working _ ih =>
    intro q member
    rcases List.mem_cons.1 member with rfl | rest
    · exact one working
    · obtain ⟨d, inside, leads⟩ := ih q rest
      exact ⟨d, List.mem_cons_of_mem _ inside, leads⟩

theorem Heap.Engaged.forces {bound : Nat} {g h : Heap} {c : Control} {frames : List Frame}
    {calls rs : List Ref} (engaged : Engaged bound g h c frames calls rs) :
    ∀ r ∈ rs, ∃ d ∈ c.cells ++ frames.map Frame.cell, h.Leads r d := by
  cases engaged with
  | enter waiting => exact waiting.forces
  | give waiting => exact waiting.forces
  | run working waiting =>
    intro q member
    rcases List.mem_cons.1 member with rfl | rest
    · obtain ⟨w, log, _, _, leads, _⟩ := working
      exact ⟨_, List.mem_cons_self, leads⟩
    · obtain ⟨d, inside, leads⟩ := waiting.forces q rest
      exact ⟨d, List.mem_cons_of_mem _ inside, leads⟩

/-- A cell whose forcing goes on has no value. -/
theorem Heap.not_yields_of_forcing {h : Heap} {r d : Ref} (leads : h.Leads r d)
    (forcing : h.state? d = some .forcing) (v : Value) : ¬ h.Yields r v := by
  intro yields
  obtain ⟨t, path, forced⟩ := (yields_of_leads leads).1 yields
  rcases path.cases_head with rfl | ⟨u, redirect, _⟩
  · rw [forcing] at forced
    cases forced
  · rw [Redirects, forcing] at redirect
    cases redirect

end CallByNeed
