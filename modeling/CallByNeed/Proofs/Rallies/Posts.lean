import CallByNeed.Proofs.Outputs.Turns
import CallByNeed.Proofs.Outputs.Kept

/- The cells that the threads of a run are forcing, and where the forcing of each one stands. A turn
   of a thread moves one of them, begins with one or is done with one; whose stack it is on does not
   matter to what is said about them. -/
namespace CallByNeed
open Relation (ReflTransGen)

/-- Where the forcing of a cell stands. -/
inductive Stand where
  | runs (m : Script Outcome)
  /-- The script waits for the answer to a demand. -/
  | awaits (how : Demand) (r : Ref) (next : Value → Script Outcome)
  /-- The script has ended, and the value of its tail is still to come. -/
  | follows

/-- A cell that is being forced. -/
structure Post where
  cell : Ref
  stand : Stand

def Frame.post (frame : Frame) : Post :=
  match frame.wait with
  | .reply how r next => ⟨frame.cell, .awaits how r next⟩
  | .tail => ⟨frame.cell, .follows⟩

def Control.posts : Control → List Post
  | .run cell _ m => [⟨cell, .runs m⟩]
  | _ => []

def Runner.posts {α : Type} : Runner α → List Post
  | .ready _ => []
  | .forcing _ _ _ c frames => c.posts ++ frames.map Frame.post

def Output.Thread.posts : Thread → List Post
  | .acquire _ next => next.posts
  | .walk w => w.posts
  | .perform w => w.posts
  | .work (.force _ w) => w.posts
  | _ => []

/-- The rally has this argument at this place. -/
def Store.Argument (s : Store) (id i : Nat) (r : Ref) : Prop :=
  ∃ y, s.rallies[id]? = some y ∧ y.arguments[i]? = some r

/-- The argument at this place is forced. -/
def Store.Forced (s : Store) (id i : Nat) : Prop :=
  ∃ r v, s.Argument id i r ∧ s.heap.Yields r v

/-- All that one turn can do to the cells being forced, and to the store. -/
inductive Post.Goes (E : Engine) : List Post → Store → List Post → Store → Prop where
  | start {r : Ref} {w : Work} {s : Store} (pending : s.heap.state? r = some (.pending w)) :
      Goes E [] s [⟨r, .runs (w.task.script E.bound)⟩] { s with heap := s.heap.setState r .forcing }
  | value {d : Ref} {v : Value} {site : Option Location} {s : Store} :
      Goes E [⟨d, .runs (.done (.value v))⟩] s []
        { s with heap := s.heap.publish d (v.through? site) }
  | fault {d : Ref} {e : Fault} {site : Option Location} {s : Store} :
      Goes E [⟨d, .runs (.raise e)⟩] s []
        { s with heap := s.heap.publish d (.error (e.through? site)) }
  | pass {d : Ref} {v : Value} {s : Store} :
      Goes E [⟨d, .follows⟩] s [] { s with heap := s.heap.publish d v }
  | splice {d child : Ref} {w : Work} {s : Store}
      (pending : s.heap.state? child = some (.pending w)) :
      Goes E [⟨d, .runs (.done (.tail child))⟩] s [⟨d, .runs (w.task.script E.bound)⟩]
        { s with heap := s.heap.setState child (.redirect d) }
  | tail {d child : Ref} {s : Store} :
      Goes E [⟨d, .runs (.done (.tail child))⟩] s [⟨d, .follows⟩] s
  | demand {d r : Ref} {how : Demand} {next : Value → Script Outcome} {s : Store} :
      Goes E [⟨d, .runs (.demand how r next)⟩] s [⟨d, .awaits how r next⟩] s
  | act {d : Ref} {a : Action} {next : a.Answer → Script Outcome} {s : Store} :
      Goes E [⟨d, .runs (.act a next)⟩] s [⟨d, .runs (next (s.act a).1)⟩] (s.act a).2
  | ask {d : Ref} {q : Request} {next : q.Answer → Script Outcome} {x : q.Answer} {s : Store} :
      Goes E [⟨d, .runs (.ask q next)⟩] s [⟨d, .runs (next x)⟩] s
  | resume {d r : Ref} {how : Demand} {next : Value → Script Outcome} {v : Value} {s : Store}
      (replies : s.heap.Replies how r v) :
      Goes E [⟨d, .awaits how r next⟩] s [⟨d, .runs (next v)⟩] s
  | perform {d r action : Ref} {how : Demand} {next : Value → Script Outcome} {s : Store}
      (answers : ∀ h' v, s.heap.Before h' → h'.Replies .pure action v → h'.Replies how r v)
      (effect : how = .effect) :
      Goes E [⟨d, .awaits how r next⟩] s [⟨d, .awaits .pure action next⟩] s
  /-- A worker takes the oldest job. -/
  | take {s : Store} :
      Goes E [] s [] { s with pool := s.pool.eraseIdxIfInBounds 0 }
  | report {id i : Nat} {s : Store} (forced : s.Forced id i) : Goes E [] s [] (s.report id i)
  | still {s : Store} : Goes E [] s [] s

/-! ### Steps of an engine -/

/-- Each frame waits for the call above it. -/
inductive Frame.Waits : List Frame → List Ref → Prop
  | nil {call : Ref} : Waits [] [call]
  | reply {cell call : Ref} {site : Option Location} {how : Demand}
      {next : Value → Script Outcome} {frames : List Frame} {calls : List Ref}
      (rest : Waits frames calls) :
      Waits ({ cell, site, wait := .reply how call next } :: frames) (call :: calls)
  | tail {cell call : Ref} {site : Option Location} {frames : List Frame} {calls : List Ref}
      (rest : Waits frames calls) :
      Waits ({ cell, site, wait := .tail } :: frames) (call :: calls)

/-- The posts of a thread before and after its turn: all but one are where they were. -/
def Post.Turned (E : Engine) (all : List Post) (s : Store) (all' : List Post) (s' : Store) : Prop :=
  ∃ ps ps' rest, all = ps ++ rest ∧ all' = ps' ++ rest ∧ Post.Goes E ps s ps' s'

section
variable {E : Engine} {c c' : Control} {frames frames' : List Frame} {s s' : Store}
variable {calls : List Ref}

theorem Engine.Advance.waits (step : E.Advance c frames s c' frames' s')
    (waits : Frame.Waits frames calls) :
    Frame.Waits frames' (c.callsAfter calls (some c')) := by
  cases step with
  | tail => exact .tail waits
  | demand => exact .reply waits
  | pass =>
    cases waits with
    | tail rest => exact rest
  | resume =>
    cases waits with
    | reply rest => exact rest
  | perform =>
    cases waits with
    | reply rest => exact .reply rest
  | _ => exact waits

theorem Engine.Advance.turned (step : E.Advance c frames s c' frames' s')
    (serves : s.heap.Serves c frames calls) (waits : Frame.Waits frames calls) :
    Post.Turned E (c.posts ++ frames.map Frame.post) s (c'.posts ++ frames'.map Frame.post) s' := by
  obtain ⟨answers, _⟩ := serves
  cases step with
  | found => exact ⟨[], [], _, rfl, rfl, .still⟩
  | follow => exact ⟨[], [], _, rfl, rfl, .still⟩
  | start pending => exact ⟨[], [_], _, rfl, rfl, .start pending⟩
  | value => exact ⟨[_], [], _, rfl, rfl, .value⟩
  | fault => exact ⟨[_], [], _, rfl, rfl, .fault⟩
  | splice _ pending => exact ⟨[_], [_], _, rfl, rfl, .splice pending⟩
  | tail => exact ⟨[_], [_], _, rfl, rfl, .tail⟩
  | demand => exact ⟨[_], [_], _, rfl, rfl, .demand⟩
  | act => exact ⟨[_], [_], _, rfl, rfl, .act⟩
  | pass => exact ⟨[_], [], _, rfl, rfl, .pass⟩
  | resume reply =>
    cases waits with
    | reply rest => exact ⟨[_], [_], _, rfl, rfl, .resume (.resume answers reply)⟩
  | perform reply =>
    cases waits with
    | reply rest =>
      refine ⟨[_], [_], _, rfl, rfl, .perform (fun h' u later replies => ?_) ?_⟩
      · refine .perform (later.yields answers) ?_ replies
        rwa [later.site_of_yields answers]
      · exact (Demand.effect_of_perform reply).1

end

/-! ### Steps of a runner that only demands -/

/-- The runner comes to what the script reads, and each of its frames waits for the call above it. -/
structure Runner.Sound {α : Type} (h : Heap) (whole : Script α) (w : Runner α) : Prop where
  tells : w.Tells h whole
  waits : ∀ how r next c frames, w = .forcing how r next c frames →
    ∃ calls, h.Serves c frames calls ∧ Frame.Waits frames calls

namespace Runner
variable {α : Type} {E : Engine} {h h' : Heap} {whole : Script α} {w w' : Runner α} {s s' : Store}

theorem owned_eq_posts (w : Runner α) : w.owned = w.posts.map Post.cell := by
  have cells (frames : List Frame) :
      frames.map Frame.cell = (frames.map Frame.post).map Post.cell := by
    rw [List.map_map]
    refine List.map_congr_left fun frame _ => ?_
    obtain ⟨cell, site, wait⟩ := frame
    cases wait <;> rfl
  cases w with
  | ready m => rfl
  | forcing how r next c frames =>
    simp only [owned, posts, List.map_append, cells]
    cases c <;> rfl

theorem Sound.before (before : h.Before h') (sound : w.Sound h whole) : w.Sound h' whole := by
  refine ⟨sound.tells.before before, fun how r next c frames same => ?_⟩
  obtain ⟨calls, serves, waits⟩ := sound.waits how r next c frames same
  exact ⟨calls, before.serves serves, waits⟩

theorem sound_start (reader : whole.IsReader) (h : Heap) : Sound h whole (.ready whole) :=
  ⟨tells_start reader h, nofun⟩

theorem Sound.demanded {how : Demand} {r : Ref} {next : Value → Script α}
    (tells : (demand how r next).Tells h whole) : (demand how r next).Sound h whole := by
  refine ⟨tells, fun how' r' next' c frames same => ?_⟩
  cases same
  exact ⟨[r], Heap.serves_first h r, .nil⟩

/-- One step of a runner that only demands is one of its posts, or none. -/
theorem Sound.goes (sound : w.Sound s.heap whole) (goes : w.Goes E s w' s')
    (forcing : s.heap.Forcing w.owned) :
    w'.Sound s'.heap whole ∧ Post.Turned E w.posts s w'.posts s' := by
  obtain ⟨tells, waits⟩ := sound
  rcases goes with step | ⟨q, next, a, asked, rfl⟩
  · have told := tells.step step forcing
    cases step with
    | demand => exact ⟨.demanded told, [], [], [], rfl, rfl, .still⟩
    | act =>
      cases tells with
      | ready reader _ => cases reader
    | engine step =>
      obtain ⟨calls, serves, waiting⟩ := waits _ _ _ _ _ rfl
      refine ⟨⟨told, fun how r next c frames same => ?_⟩, step.turned serves waiting⟩
      cases same
      exact ⟨_, step.serves forcing serves, step.waits waiting⟩
    | resume => exact ⟨⟨told, nofun⟩, [], [], [], rfl, rfl, .still⟩
    | perform => exact ⟨.demanded told, [], [], [], rfl, rfl, .still⟩
  · have told := tells.ask asked a
    obtain ⟨rfl, ⟨rest, rfl, rfl⟩ | ⟨how, r, rest, cell, site, script, frames, rfl, rfl⟩⟩ :=
      of_ask asked
    · cases tells with
      | ready reader _ => cases reader
    · refine ⟨⟨told, fun how r next c frames same => ?_⟩, [_], [_], _, rfl, rfl, .ask⟩
      cases same
      obtain ⟨calls, serves, waiting⟩ := waits _ _ _ _ _ rfl
      cases serves with
      | intro answers waiting' => exact ⟨_, .intro answers waiting', waiting⟩

end Runner

/-! ### What every turn keeps -/

/-- In the later store the rally is open too, with the same arguments. -/
def Store.KeepsRally (s' : Store) (id : Nat) (y : Rally) : Prop :=
  ∃ y', s'.rallies[id]? = some y' ∧ y'.arguments = y.arguments

namespace Store
variable {s : Store} {id : Nat} {y : Rally}

theorem keepsRally_set {s' : Store} {z z' : Rally} {id' : Nat} (found : s.rallies[id]? = some y)
    (was : s.rallies[id']? = some z) (set : s'.rallies = s.rallies.setIfInBounds id' z')
    (same : z'.arguments = z.arguments) : s'.KeepsRally id y := by
  rw [KeepsRally, set]
  by_cases this : id' = id
  · subst this
    rw [was] at found
    cases found
    exact ⟨z', by simp [(Array.getElem?_eq_some_iff.1 was).1], same⟩
  · exact ⟨y, by simp [this, found], rfl⟩

theorem keepsRally_act (a : Action) (found : s.rallies[id]? = some y) :
    (s.act a).2.KeepsRally id y := by
  cases a with
  | openRally arguments =>
    refine ⟨y, ?_, rfl⟩
    have bound := (Array.getElem?_eq_some_iff.1 found).1
    simp only [act, Array.getElem?_push]
    rw [if_neg (by omega), found]
  | pollRally id' =>
    simp only [act]
    split
    · exact ⟨y, found, rfl⟩
    · next z was => exact keepsRally_set found was rfl z.arguments_of_poll
  | listRally id' i =>
    simp only [act]
    split
    · exact ⟨y, found, rfl⟩
    · next z was => exact keepsRally_set found was rfl (z.arguments_of_list i)
  | _ => exact ⟨y, found, rfl⟩

theorem keepsRally_report (id' i : Nat) (found : s.rallies[id]? = some y) :
    (s.report id' i).KeepsRally id y := by
  by_cases same : id' = id
  · subst same
    exact ⟨y.report i, by simp [report, Array.getElem?_modify, found], rfl⟩
  · exact ⟨y, by simp [report, Array.getElem?_modify, same, found], rfl⟩

end Store

namespace Post.Goes
variable {E : Engine} {ps ps' before after : List Post} {s s' : Store} {id i : Nat} {r : Ref}

theorem later (goes : Goes E ps s ps' s')
    (forcing : ∀ p ∈ ps, s.heap.state? p.cell = some .forcing) : s.heap.Before s'.heap := by
  cases goes with
  | start pending => exact Heap.before_setState pending (.start _)
  | value | fault | pass => exact Heap.before_publish (forcing _ List.mem_cons_self) _
  | splice pending => exact Heap.before_setState pending (.splice _ _)
  | act => exact Store.before_act _ _
  | _ => exact s.heap.before_refl

theorem rally (goes : Goes E ps s ps' s') {y : Rally} (found : s.rallies[id]? = some y) :
    s'.KeepsRally id y := by
  cases goes with
  | act => exact Store.keepsRally_act _ found
  | report => exact Store.keepsRally_report _ _ found
  | _ => exact ⟨y, found, rfl⟩

theorem argument (goes : Goes E ps s ps' s') (argument : s.Argument id i r) :
    s'.Argument id i r := by
  obtain ⟨y, found, here⟩ := argument
  obtain ⟨y', found', same⟩ := goes.rally found
  exact ⟨y', found', same ▸ here⟩

/-- Nobody but its forcer touches a cell that is being forced. -/
theorem forcing (goes : Goes E ps s ps' s') (forced : s.heap.state? r = some .forcing)
    (kept : r ∈ ps.map Post.cell → r ∈ ps'.map Post.cell) : s'.heap.state? r = some .forcing := by
  have other {t : Ref} {c c' : CellState} (known : s.heap.state? t = some c) (plain : c ≠ .forcing) :
      (s.heap.setState t c').state? r = some .forcing := by
    rw [Heap.state?_setState_ne _ _, forced]
    rintro rfl
    rw [forced] at known
    exact plain (Option.some.inj known).symm
  have away {d : Ref} {st : Stand} (v : Value)
      (kept : r ∈ [(⟨d, st⟩ : Post)].map Post.cell → r ∈ ([] : List Post).map Post.cell) :
      (s.heap.publish d v).state? r = some .forcing := by
    have different : r ≠ d := fun same => by simp [same] at kept
    rw [Heap.publish, Heap.state?_setState_ne different, forced]
  cases goes with
  | start pending => exact other pending (by simp)
  | splice pending => exact other pending (by simp)
  | value => exact away _ kept
  | fault => exact away _ kept
  | pass => exact away _ kept
  | act =>
    have idle : s.heap.Forcing [] := by simp [Heap.Forcing]
    exact (Store.served_act idle _).others r forced (by simp)
  | _ => exact forced

/-- After the turn, too, each cell is forced by one thread. -/
theorem alone (goes : Goes E ps s ps' s') (apart : ((before ++ (ps ++ after)).map Post.cell).Nodup)
    (forcing : ∀ p ∈ before ++ (ps ++ after), s.heap.state? p.cell = some .forcing) :
    ((before ++ (ps' ++ after)).map Post.cell).Nodup ∧
      ∀ p ∈ before ++ (ps' ++ after), s'.heap.state? p.cell = some .forcing := by
  have outside : ∀ p ∈ before ++ after, p.cell ∉ ps.map Post.cell := by
    intro p member inside
    simp only [List.map_append, List.nodup_append, List.mem_append] at apart
    obtain ⟨-, ⟨-, -, right⟩, left⟩ := apart
    rcases List.mem_append.1 member with first | last
    · exact left _ (List.mem_map_of_mem first) _ (.inl inside) rfl
    · exact right _ inside _ (List.mem_map_of_mem last) rfl
  have others : ∀ p ∈ before ++ after, s'.heap.state? p.cell = some .forcing := by
    intro p member
    refine goes.forcing (forcing p ?_) fun inside => absurd inside (outside p member)
    simp only [List.mem_append] at member ⊢
    tauto
  -- The cells are what they were, or one less, or one more that was not being forced.
  have cells : ps'.map Post.cell = ps.map Post.cell ∨ ps' = [] ∨
      ∃ q m w, ps = [] ∧ ps' = [⟨q, .runs m⟩] ∧ s.heap.state? q = some (.pending w) ∧
        s'.heap.state? q = some .forcing := by
    cases goes with
    | start pending =>
      exact .inr (.inr ⟨_, _, _, rfl, rfl, pending, Heap.state?_setState_self pending _⟩)
    | value | fault | pass => exact .inr (.inl rfl)
    | _ => exact .inl rfl
  rcases cells with same | rfl | ⟨q, m, w, rfl, rfl, pending, forced⟩
  · refine ⟨by simpa [same] using apart, fun p member => ?_⟩
    simp only [List.mem_append] at member
    rcases member with first | mine | last
    · exact others p (List.mem_append_left _ first)
    · have cell : p.cell ∈ ps.map Post.cell := same ▸ List.mem_map_of_mem mine
      obtain ⟨p', mine', cell'⟩ := List.mem_map.1 cell
      refine goes.forcing (cell' ▸ forcing p' (by simp [mine'])) fun _ => ?_
      exact List.mem_map_of_mem mine
    · exact others p (List.mem_append_right _ last)
  · refine ⟨?_, by simpa using others⟩
    refine apart.sublist (List.Sublist.map _ ?_)
    exact (List.Sublist.refl before).append (by simp)
  · constructor
    · have fresh : q ∉ (before ++ after).map Post.cell := by
        intro inside
        obtain ⟨p, member, rfl⟩ := List.mem_map.1 inside
        rw [forcing p (by simpa using member)] at pending
        cases pending
      have more : (q :: (before ++ after).map Post.cell).Nodup :=
        List.nodup_cons.2 ⟨fresh, by simpa using apart⟩
      rw [List.singleton_append, List.map_append, List.map_cons, List.perm_middle.nodup_iff]
      simpa using more
    · intro p member
      simp only [List.mem_append, List.mem_singleton] at member
      rcases member with first | rfl | last
      · exact others p (List.mem_append_left _ first)
      · exact forced
      · exact others p (List.mem_append_right _ last)

end Post.Goes
end CallByNeed
