import CallByNeed.Proofs.Reading.Endings

/- What a script that only demands comes to demand, and what it takes for it to fail. A run of such a
   script forces, at any moment, a cell that the script comes to in the heap of that moment. -/
namespace CallByNeed
open Relation (ReflTransGen)

namespace Script
variable {α β : Type} {h h' : Heap}

/-- The script comes to demand the cell, and finds all that it demands before forced already. -/
inductive Demands (h : Heap) : Script α → Ref → Prop where
  | here {how : Demand} {r : Ref} {next : Value → Script α} : Demands h (.demand how r next) r
  | action {how : Demand} {r action : Ref} {next : Value → Script α} {u : Value}
      (yields : h.Yields r u) (reply : how.reply (h.site? r) u = .perform action) :
      Demands h (.demand how r next) action
  | later {how : Demand} {q r : Ref} {next : Value → Script α} {v : Value}
      (replies : h.Replies how q v) (rest : Demands h (next v) r) : Demands h (.demand how q next) r

/-- A demand for a value is for the cell itself. -/
theorem demands_pure_iff {q r : Ref} {next : Value → Script α} :
    (Script.demand .pure q next).Demands h r ↔
      r = q ∨ ∃ v, h.Replies .pure q v ∧ (next v).Demands h r := by
  constructor
  · intro demands
    cases demands with
    | here => exact .inl rfl
    | action _ reply => cases (Demand.effect_of_perform reply).1
    | later replies rest => exact .inr ⟨_, replies, rest⟩
  · rintro (rfl | ⟨v, replies, rest⟩)
    · exact .here
    · exact .later replies rest

theorem not_demands_pure {a : α} {r : Ref} : ¬ (pure a : Script α).Demands h r := nofun

/-- No more than one cell has to be forced for the script to fail, and if forcing it comes to an end
    then the script does fail, whatever the cell yields. -/
inductive Falters (h : Heap) : Script α → Prop where
  | raise {e : Fault} : Falters h (.raise e)
  | demand {how : Demand} {r : Ref} {next : Value → Script α} {v : Value}
      (replies : h.Replies how r v) (rest : Falters h (next v)) : Falters h (.demand how r next)
  | opens {r : Ref} {next : Value → Script α}
      (fails : ∀ h' v, h.Before h' → h'.Replies .pure r v → ∃ e, (next v).Reads h' (.error e)) :
      Falters h (.demand .pure r next)

theorem Falters.bind {m : Script α} (falters : m.Falters h) (f : α → Script β) :
    (m >>= f).Falters h := by
  change (m.bind f).Falters h
  induction falters with
  | raise => exact .raise
  | demand replies _ ih => exact .demand replies ih
  | opens fails =>
    refine .opens fun h' v before replies => ?_
    obtain ⟨e, reads⟩ := fails h' v before replies
    exact ⟨e, reads.bind_error⟩

theorem Reads.falters {m : Script α} {e : Fault} (reads : m.Reads h (.error e)) :
    m.Falters h := by
  generalize fault : Except.error e = o at reads
  induction reads with
  | done => cases fault
  | raise => exact .raise
  | demand replies _ ih => exact .demand replies (ih fault)

section
variable {E : Engine} {m : Script α} {s t : Store} {world world' : World}

/-- The script fails at once, or as soon as a cell has been forced. -/
def Fails (m : Script α) (s : Store) : Prop :=
  (∃ e, ∀ E world, m.Leaves E s world (.error e) s world) ∨
  ∃ r, ∀ E world v t world', (observe r).Leaves E s world (.ok v) t world' →
    ∃ e, m.Leaves E s world (.error e) t world'

theorem Falters.fails (falters : m.Falters s.heap) : m.Fails s := by
  generalize same : s.heap = h at falters
  induction falters with
  | raise => exact .inl ⟨_, fun _ _ => Reads.raise.leaves⟩
  | @demand how q next v replies _ ih =>
    have first : ∀ {E : Engine} {o t world world'}, (next v).Leaves E s world o t world' →
        (Script.demand how q next).Leaves E s world o t world' := by
      subst same
      exact fun rest => .of_advance .demand (.of_replies replies rest)
    rcases ih with ⟨e, now⟩ | ⟨r, once⟩
    · exact .inl ⟨e, fun E world => first (now E world)⟩
    · refine .inr ⟨r, fun E world v t world' observed => ?_⟩
      obtain ⟨e, rest⟩ := once E world v t world' observed
      exact ⟨e, first rest⟩
  | @opens r next fails =>
    refine .inr ⟨r, fun E world v t world' observed => ?_⟩
    have reader : (observe r).IsReader := .demand .pure r fun v => .done v
    obtain ⟨before, reads⟩ := reader.reads_of_leaves observed
    obtain ⟨u, replies, ended⟩ := reads_demand_iff.1 reads
    cases ended
    obtain ⟨e, failed⟩ := fails t.heap _ (same ▸ before) replies
    exact ⟨e, observed.bind (f := next) failed.leaves⟩

end
end Script

/-! ### Moments of a run -/

namespace Runner
variable {α : Type} {E : Engine} {h h' : Heap} {whole : Script α} {w w' : Runner α}
variable {s s' t : Store} {world world' : World}

/-- What the runner has still to do. -/
def rest : Runner α → Script α
  | .ready m => m
  | .forcing how r next _ _ => .demand how r next

/-- Whatever is still demanded the whole script comes to demand. The first call of the engine is for
    the demanded cell. -/
structure Along (h : Heap) (whole : Script α) (w : Runner α) : Prop where
  reader : w.rest.IsReader
  serving : ∀ {how r next c frames}, w = .forcing how r next c frames →
    ∃ calls, h.Serves c frames calls ∧ calls.getLast? = some r
  demands : ∀ h' q, h.Before h' → w.rest.Demands h' q → whole.Demands h' q

/-- One step of a runner that only demands. -/
theorem Along.step (along : w.Along s.heap whole) (step : w.Advance E s w' s')
    (forcing : s.heap.Forcing w.owned) : w'.Along s'.heap whole := by
  obtain ⟨reader, serving, demands⟩ := along
  cases step with
  | demand =>
    refine ⟨reader, ?_, demands⟩
    rintro _ _ _ _ _ ⟨⟩
    exact ⟨_, Heap.serves_first _ _, rfl⟩
  | act => cases reader
  | engine step =>
    refine ⟨reader, ?_, fun h' q later => demands h' q ((step.before forcing).trans later)⟩
    rintro _ _ _ _ _ ⟨⟩
    obtain ⟨calls, serves, call⟩ := serving rfl
    exact ⟨_, step.serves forcing serves, (step.lastCall serves).trans call⟩
  | resume reply =>
    obtain ⟨calls, serves, call⟩ := serving rfl
    have yields := serves.yields call
    cases reader with
    | demand _ _ readers =>
      refine ⟨readers _, nofun, fun h' q later rest => demands h' q later ?_⟩
      rw [← later.site_of_yields yields] at reply
      exact .later (.resume (later.yields yields) reply) rest
  | perform reply =>
    obtain ⟨calls, serves, call⟩ := serving rfl
    have yields := serves.yields call
    cases reader with
    | demand _ _ readers =>
      refine ⟨.demand _ _ readers, ?_, fun h' q later rest => demands h' q later ?_⟩
      · rintro _ _ _ _ _ ⟨⟩
        exact ⟨_, Heap.serves_first _ _, rfl⟩
      · rw [← later.site_of_yields yields] at reply
        rcases Script.demands_pure_iff.1 rest with rfl | ⟨v, replies, rest⟩
        · exact .action (later.yields yields) reply
        · exact .later (.perform (later.yields yields) reply replies) rest

theorem Along.ask {q : Request} {next : q.Answer → Runner α} (along : w.Along s.heap whole)
    (step : w.step E s = .ask q next s') (a : q.Answer) : (next a).Along s'.heap whole := by
  obtain ⟨reader, serving, demands⟩ := along
  obtain ⟨rfl, ⟨rest, rfl, rfl⟩ | ⟨how, r, rest, cell, site, script, frames, rfl, rfl⟩⟩ :=
    of_ask step
  · cases reader
  · refine ⟨reader, ?_, demands⟩
    rintro _ _ _ _ _ ⟨⟩
    obtain ⟨calls, serves, call⟩ := serving rfl
    cases serves with
    | intro answers waiting => exact ⟨_, .intro answers waiting, call⟩

end Runner
end CallByNeed
