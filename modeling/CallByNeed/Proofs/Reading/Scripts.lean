import CallByNeed.Proofs.Engine.Returns
import CallByNeed.Proofs.Sharing.Ownership

/- One heap and a later one. Each cell has kept its site and moved any number of times, so whatever
   a cell yields in the earlier heap it yields in the later one. What a script reads in a heap whose
   cells are forced already: the end of a script that demands cells and does nothing else. Later
   heaps read the same, so what two scripts read can be compared without asking when they ran. -/
namespace CallByNeed
open Relation (ReflTransGen)

/-- A cell and what may have become of it. -/
structure Cell.Before (c c' : Cell) : Prop where
  site : c'.site = c.site
  moves : ReflTransGen CellState.Moves c.state c'.state

theorem Cell.before_refl (c : Cell) : c.Before c := ⟨rfl, .refl⟩

theorem Cell.Before.trans {a b c : Cell} (first : a.Before b) (second : b.Before c) :
    a.Before c :=
  ⟨second.site.trans first.site, first.moves.trans second.moves⟩

namespace Heap

/-- The second heap may have come of the first one. There may be new cells. -/
def Before (h h' : Heap) : Prop :=
  ∀ r c, h.cell? r = some c → ∃ c', h'.cell? r = some c' ∧ c.Before c'

variable {h h' h'' : Heap} {r t : Ref} {v : Value}

theorem before_refl (h : Heap) : h.Before h := fun _ c known => ⟨c, known, c.before_refl⟩

theorem Before.trans (first : h.Before h') (second : h'.Before h'') : h.Before h'' := by
  intro r c known
  obtain ⟨c', later, moved⟩ := first r c known
  obtain ⟨c'', last, moved'⟩ := second r c' later
  exact ⟨c'', last, moved.trans moved'⟩

theorem exists_cell {s : CellState} (known : h.state? r = some s) :
    ∃ c, h.cell? r = some c ∧ c.state = s :=
  Option.map_eq_some_iff.1 known

/-- A heap comes before the one that it evolves into, if cells keep their sites. -/
theorem Evolves.before (evolves : h.Evolves h')
    (sites : ∀ r c, h.cell? r = some c → h'.site? r = c.site) : h.Before h' := by
  intro r c known
  have state : h.state? r = some c.state := by simp [state?, known]
  obtain ⟨s, after, moved⟩ := evolves r _ state
  obtain ⟨c', found, rfl⟩ := exists_cell after
  have site : c'.site = c.site := by
    rw [← sites r c known]
    simp [site?, found]
  refine ⟨c', found, site, ?_⟩
  rcases moved with same | move
  · rw [same]
  · exact .single move

theorem before_setState {s s' : CellState} (known : h.state? r = some s) (move : s.Moves s') :
    h.Before (h.setState r s') := by
  apply (evolves_setState known move).before
  intro t c found
  rw [site?_setState]
  simp [site?, found]

theorem before_publish (forcing : h.state? r = some .forcing) (v : Value) :
    h.Before (h.publish r v) :=
  before_setState forcing (.publish v)

theorem before_alloc (h : Heap) (c : Cell) : h.Before (h.alloc c).2 := by
  apply (evolves_alloc h c).before
  intro r c' known
  have old : r ≠ (h.alloc c).1 := by
    rintro rfl
    simp [alloc, cell?, size] at known
  simp [site?, cell?_alloc, old, known]

theorem before_fill (h : Heap) (handle target : Ref) : h.Before (h.fill handle target).2 := by
  unfold fill
  split
  · next vacant => exact before_setState vacant (.fill target)
  · exact before_refl h

theorem Before.site (before : h.Before h') {s : CellState} (known : h.state? r = some s) :
    h'.site? r = h.site? r := by
  obtain ⟨c, found, _⟩ := exists_cell known
  obtain ⟨c', later, same⟩ := before r c found
  simp [site?, found, later, same.site]

/-- A state that never changes again is there for good. -/
theorem Before.settled (before : h.Before h') {s : CellState} (known : h.state? r = some s)
    (last : ∀ s', ¬ s.Moves s') : h'.state? r = some s := by
  obtain ⟨c, found, rfl⟩ := exists_cell known
  obtain ⟨c', later, _, moves⟩ := before r c found
  rcases moves.cases_head with same | ⟨s', move, _⟩
  · simp [state?, later, same]
  · exact absurd move (last s')

theorem Before.redirects (before : h.Before h') (known : h.Redirects r t) : h'.Redirects r t :=
  before.settled known nofun

theorem Before.forced (before : h.Before h') (known : h.state? r = some (.forced v)) :
    h'.state? r = some (.forced v) :=
  before.settled known nofun

theorem Before.leads (before : h.Before h') (path : h.Leads r t) : h'.Leads r t :=
  ReflTransGen.mono (fun _ _ known => before.redirects known) _ _ path

theorem Before.yields (before : h.Before h') (yields : h.Yields r v) : h'.Yields r v := by
  obtain ⟨d, path, forced⟩ := yields
  exact ⟨d, before.leads path, before.forced forced⟩

/-- A cell that yields a value has a state. -/
theorem Yields.known (yields : h.Yields r v) : ∃ s, h.state? r = some s := by
  obtain ⟨d, path, forced⟩ := yields
  rcases path.cases_head with rfl | ⟨t, redirect, _⟩
  · exact ⟨_, forced⟩
  · exact ⟨_, redirect⟩

theorem Before.site_of_yields (before : h.Before h') (yields : h.Yields r v) :
    h'.site? r = h.site? r := by
  obtain ⟨s, known⟩ := yields.known
  exact before.site known

end Heap

theorem Store.before_act (s : Store) (a : Action) : s.heap.Before (s.act a).2.heap := by
  cases a with
  | alloc c => exact s.heap.before_alloc c
  | fill handle target => exact s.heap.before_fill handle target
  | trace label => exact s.heap.before_refl
  | submit job => exact s.heap.before_refl
  | openRally arguments => exact s.heap.before_refl
  | pollRally id =>
    simp only [act]
    split <;> exact s.heap.before_refl
  | listRally id i =>
    simp only [act]
    split <;> exact s.heap.before_refl

/-- Each step of the engine leaves a later heap, if the cells it runs are being forced. -/
theorem Engine.Advance.before {E : Engine} {c c' : Control} {frames frames' : List Frame}
    {s s' : Store} (step : E.Advance c frames s c' frames' s')
    (forcing : s.heap.Forcing (c.cells ++ frames.map Frame.cell)) : s.heap.Before s'.heap := by
  have running {cell : Ref} (mine : cell ∈ c.cells ++ frames.map Frame.cell) (v : Value) :
      s.heap.Before (s.heap.publish cell v) :=
    Heap.before_publish (forcing cell mine) v
  cases step with
  | start pending => exact Heap.before_setState pending (.start _)
  | value => exact running (by simp [Control.cells]) _
  | fault => exact running (by simp [Control.cells]) _
  | splice _ pending => exact Heap.before_setState pending (.splice _ _)
  | act => exact Store.before_act _ _
  | pass => exact running (by simp [Control.cells]) _
  | found | follow | tail | demand | resume | perform => exact s.heap.before_refl

/-! ### Bounds -/

/-- What holds of all large bounds is shown for bounds that are not 0. -/
theorem exists_bound_succ {P : Nat → Prop} (large : ∃ k, ∀ n, k ≤ n → P (n + 1)) :
    ∃ k, ∀ n, k ≤ n → P n := by
  obtain ⟨k, holds⟩ := large
  refine ⟨k + 1, fun n enough => ?_⟩
  have step := holds (n - 1) (Nat.le_sub_one_of_lt enough)
  rwa [Nat.sub_add_cancel (Nat.one_le_of_lt enough)] at step

/-- The second one of two bounds is not 0. -/
theorem exists_bounds_succ {P : Nat → Nat → Prop}
    (large : ∃ k, ∀ m n, k ≤ m → k ≤ n → P m (n + 1)) : ∃ k, ∀ m n, k ≤ m → k ≤ n → P m n := by
  obtain ⟨k, holds⟩ := large
  refine ⟨k + 1, fun m n enough long => ?_⟩
  have step := holds m (n - 1) (Nat.le_of_succ_le enough) (Nat.le_sub_one_of_lt long)
  rwa [Nat.sub_add_cancel (Nat.one_le_of_lt long)] at step

/-! ### Answers -/

/-- The answer to a demand of a cell that has been forced, as has the action of its effect. -/
inductive Heap.Replies (h : Heap) : Demand → Ref → Value → Prop where
  | resume {how : Demand} {r : Ref} {u v : Value} (yields : h.Yields r u)
      (reply : how.reply (h.site? r) u = .resume v) : Replies h how r v
  | perform {how : Demand} {r action : Ref} {u v : Value} (yields : h.Yields r u)
      (reply : how.reply (h.site? r) u = .perform action) (rest : Replies h .pure action v) :
      Replies h how r v

/-- How a script ends that finds all it demands forced. -/
inductive Script.Reads {α : Type} (h : Heap) : Script α → Except Fault α → Prop where
  | done {a : α} : Reads h (.done a) (.ok a)
  | raise {e : Fault} : Reads h (.raise e) (.error e)
  | demand {how : Demand} {r : Ref} {next : Value → Script α} {v : Value} {o : Except Fault α}
      (replies : h.Replies how r v) (rest : Reads h (next v) o) : Reads h (.demand how r next) o

/-- The script that has come to this end. -/
def Script.ended {α : Type} : Except Fault α → Script α
  | .ok a => .done a
  | .error e => .raise e

/-- The script only demands cells, whatever it is answered. -/
inductive Script.IsReader {α : Type} : Script α → Prop where
  | done (a : α) : IsReader (.done a)
  | raise (e : Fault) : IsReader (.raise e)
  | panic (p : Panic) : IsReader (.panic p)
  | stall : IsReader .stall
  | demand (how : Demand) (r : Ref) {next : Value → Script α} (rest : ∀ v, IsReader (next v)) :
      IsReader (.demand how r next)

section
variable {h h' : Heap} {how : Demand} {r : Ref} {u v w : Value}

theorem Heap.replies_pure_iff :
    h.Replies .pure r v ↔ ∃ u, h.Yields r u ∧ Demand.pure.reply (h.site? r) u = .resume v := by
  constructor
  · intro replies
    cases replies with
    | resume yields reply => exact ⟨_, yields, reply⟩
    | @perform _ _ _ u _ yields reply =>
      obtain ⟨w, resumes⟩ := Demand.pure_reply (h.site? r) u
      rw [resumes] at reply
      cases reply
  · rintro ⟨u, yields, reply⟩
    exact .resume yields reply

/-- A value that is no effect answers a pure demand as it is. -/
theorem Heap.Yields.replies (yields : h.Yields r v) (plain : ∀ action, v ≠ .effect action) :
    h.Replies .pure r v := by
  apply Replies.resume yields
  cases v with
  | effect action => exact absurd rfl (plain action)
  | _ => rfl

theorem Heap.Replies.unique (first : h.Replies how r v) (second : h.Replies how r w) : v = w := by
  induction first generalizing w with
  | resume yields reply =>
    cases second with
    | resume yields' reply' =>
      rw [Heap.yields_unique yields' yields, reply] at reply'
      cases reply'
      rfl
    | perform yields' reply' _ =>
      rw [Heap.yields_unique yields' yields, reply] at reply'
      cases reply'
  | perform yields reply _ ih =>
    cases second with
    | resume yields' reply' =>
      rw [Heap.yields_unique yields' yields, reply] at reply'
      cases reply'
    | perform yields' reply' rest =>
      rw [Heap.yields_unique yields' yields, reply] at reply'
      cases reply'
      exact ih rest

theorem Heap.Before.replies (before : h.Before h') (replies : h.Replies how r v) :
    h'.Replies how r v := by
  induction replies with
  | resume yields reply =>
    rw [← before.site_of_yields yields] at reply
    exact .resume (before.yields yields) reply
  | perform yields reply _ ih =>
    rw [← before.site_of_yields yields] at reply
    exact .perform (before.yields yields) reply ih

end

namespace Script
variable {α β : Type} {h h' : Heap}

theorem Reads.unique {m : Script α} {o o' : Except Fault α} (first : m.Reads h o)
    (second : m.Reads h o') : o = o' := by
  induction first with
  | done => cases second; rfl
  | raise => cases second; rfl
  | demand replies _ ih =>
    cases second with
    | demand replies' rest =>
      rw [replies'.unique replies] at rest
      exact ih rest

theorem Reads.before {m : Script α} {o : Except Fault α} (reads : m.Reads h o)
    (before : h.Before h') : m.Reads h' o := by
  induction reads with
  | done => exact .done
  | raise => exact .raise
  | demand replies _ ih => exact .demand (before.replies replies) ih

theorem Reads.bind {m : Script α} {f : α → Script β} {a : α} {o : Except Fault β}
    (first : m.Reads h (.ok a)) (rest : (f a).Reads h o) : (m >>= f).Reads h o := by
  change (m.bind f).Reads h o
  generalize ended : Except.ok a = x at first
  induction first with
  | done => cases ended; exact rest
  | raise => cases ended
  | demand replies _ ih => exact .demand replies (ih ended)

theorem Reads.bind_error {m : Script α} {f : α → Script β} {e : Fault}
    (first : m.Reads h (.error e)) : (m >>= f).Reads h (.error e) := by
  change (m.bind f).Reads h (.error e)
  generalize ended : Except.error e = x at first
  induction first with
  | done => cases ended
  | raise => cases ended; exact .raise
  | demand replies _ ih => exact .demand replies (ih ended)

/-- A script in two parts ends with the fault of the first one, or with what the second one reads. -/
theorem reads_bind_iff {m : Script α} {f : α → Script β} {o : Except Fault β} :
    (m >>= f).Reads h o ↔
      (∃ a, m.Reads h (.ok a) ∧ (f a).Reads h o) ∨ ∃ e, m.Reads h (.error e) ∧ o = .error e := by
  constructor
  · intro reads
    change (m.bind f).Reads h o at reads
    induction m with
    | done a => exact .inl ⟨a, .done, reads⟩
    | raise e => cases reads; exact .inr ⟨e, .raise, rfl⟩
    | panic p => cases reads
    | stall => cases reads
    | demand how r next ih =>
      cases reads with
      | demand replies rest =>
        rcases ih _ rest with ⟨a, first, second⟩ | ⟨e, first, same⟩
        · exact .inl ⟨a, .demand replies first, second⟩
        · exact .inr ⟨e, .demand replies first, same⟩
    | act a next => cases reads
    | ask q next => cases reads
  · rintro (⟨a, first, second⟩ | ⟨e, first, rfl⟩)
    · exact first.bind second
    · exact first.bind_error

theorem reads_ended (o : Except Fault α) : (ended o).Reads h o := by
  cases o with
  | ok a => exact .done
  | error e => exact .raise

theorem reads_demand_iff {how : Demand} {r : Ref} {next : Value → Script α}
    {o : Except Fault α} :
    (Script.demand how r next).Reads h o ↔ ∃ v, h.Replies how r v ∧ (next v).Reads h o := by
  constructor
  · intro reads
    cases reads with
    | demand replies rest => exact ⟨_, replies, rest⟩
  · rintro ⟨v, replies, rest⟩
    exact .demand replies rest

/-- What is read of a cell is its value. -/
theorem yields_of_reads_force {r : Ref} {v : Value} (reads : (force r).Reads h (.ok v)) :
    h.Yields r v := by
  obtain ⟨u, replies, same⟩ := reads_demand_iff.1 reads
  obtain ⟨w, yields, reply⟩ := Heap.replies_pure_iff.1 replies
  cases u <;> cases same
  all_goals cases w <;> cases reply <;> exact yields

theorem yields_of_reads_forceList {r : Ref} {l : LazyList}
    (reads : (forceList r).Reads h (.ok l)) : h.Yields r (.list l) := by
  obtain ⟨v, forced, list⟩ | ⟨e, _, no⟩ := reads_bind_iff.1 reads
  · cases v with
    | list l' =>
      cases list
      exact yields_of_reads_force forced
    | _ => cases list
  · cases no

theorem reads_force {r : Ref} {v : Value} (yields : h.Yields r v) (ordered : v.isOrdered = true) :
    (force r).Reads h (.ok v) := by
  cases v with
  | error e => cases ordered
  | effect action => cases ordered
  | _ => exact .demand (yields.replies (by simp)) .done

theorem reads_forceList {r : Ref} {l : LazyList} (yields : h.Yields r (.list l)) :
    (forceList r).Reads h (.ok l) :=
  (reads_force yields rfl).bind .done

theorem IsReader.pure (a : α) : (pure a : Script α).IsReader := .done a

theorem IsReader.bind {m : Script α} {f : α → Script β} (first : m.IsReader)
    (rest : ∀ a, (f a).IsReader) : (m >>= f).IsReader := by
  change (m.bind f).IsReader
  induction first with
  | done a => exact rest a
  | raise e => exact .raise e
  | panic p => exact .panic p
  | stall => exact .stall
  | demand how r _ ih => exact .demand how r ih

theorem isReader_force (r : Ref) : (force r).IsReader := by
  refine .demand .pure r fun v => ?_
  cases v with
  | error e => exact .raise e
  | _ => exact .done _

theorem isReader_forceList (r : Ref) : (forceList r).IsReader := by
  refine (isReader_force r).bind fun v => ?_
  cases v with
  | list l => exact .done l
  | _ => exact .raise _

end Script
end CallByNeed
