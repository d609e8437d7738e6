import CallByNeed.Proofs.Likeness.Data
import CallByNeed.Script

/- Likeness of scripts: on like answers they demand, do and ask alike, and come to like results. A
   script may make a handle and cells that mention it before it fills the handle; until then these
   are held by the script and bonded to nothing. -/
namespace CallByNeed

/-- What a script has made and shown to nobody. -/
inductive Held where
  | nothing
  /-- Handles to fill, and pairs of cells that may mention them, the latest first. -/
  | knot (handle handle' : Ref) (made : List (Ref × Ref))

def Bond.add (B : Bond) (pairs : List (Ref × Ref)) : Bond :=
  { B with cells := fun r r' => B.cells r r' ∨ (r, r') ∈ pairs }

inductive PollLike (B : Bond) : Poll → Poll → Prop where
  | exhausted : PollLike B .exhausted .exhausted
  | reported (i : Nat) : PollLike B (.reported i) (.reported i)
  | late {r r' : Ref} (i : Nat) (cells : B.cells r r') : PollLike B (.late i r) (.late i r')

/-- Like results, or like faults in their place. -/
inductive ResultLike (M : Manner) {α β : Type} (post : α → β → Prop) :
    Except Fault α → Except Fault β → Prop where
  | ok {a : α} {a' : β} (results : post a a') : ResultLike M post (.ok a) (.ok a')
  | error {e e' : Fault} (faults : FaultLike M e e') : ResultLike M post (.error e) (.error e')

inductive ScriptLike (M : Manner) (B : Bond) {α β : Type}
    (post : Held → Except Fault α → Except Fault β → Prop) :
    Held → Script α → Script β → Prop where
  | stall {held : Held} {s : Script β} (stops : M.lax ∨ s = .stall) :
      ScriptLike M B post held .stall s
  | done {held : Held} {a : α} {a' : β} (results : post held (.ok a) (.ok a')) :
      ScriptLike M B post held (.done a) (.done a')
  | raise {held : Held} {e e' : Fault} (results : post held (.error e) (.error e')) :
      ScriptLike M B post held (.raise e) (.raise e')
  | panic {held : Held} (p : Panic) : ScriptLike M B post held (.panic p) (.panic p)
  | demand {held : Held} {how : Demand} {r r' : Ref} {next : Value → Script α}
      {next' : Value → Script β} (hosted : how = .effect → M.hosted) (cells : B.cells r r')
      (rest : ∀ v v', ValueLike M B v v' → ScriptLike M B post held (next v) (next' v')) :
      ScriptLike M B post held (.demand how r next) (.demand how r' next')
  | alloc {c c' : Cell} {next : Ref → Script α} {next' : Ref → Script β}
      (made : CellLike M B c c')
      (rest : ∀ r r', B.cells r r' → ScriptLike M B post .nothing (next r) (next' r')) :
      ScriptLike M B post .nothing (.act (.alloc c) next) (.act (.alloc c') next')
  /-- An effect is made and not performed. -/
  | action {b b' : Body} {ps ps' : List Ref} {next : Ref → Script α} {next' : Ref → Script β}
      (bodies : BodyLike M B true ps.length b b') (parameters : RefsLike B ps ps')
      (rest : ∀ r r', B.actions r r' → ScriptLike M B post .nothing (next r) (next' r')) :
      ScriptLike M B post .nothing (.act (.alloc (.ofSuspension (.action b ps))) next)
        (.act (.alloc (.ofSuspension (.action b' ps'))) next')
  | vacant {next : Ref → Script α} {next' : Ref → Script β}
      (rest : ∀ r r', ScriptLike M B post (.knot r r' []) (next r) (next' r')) :
      ScriptLike M B post .nothing (.act (.alloc .vacant) next) (.act (.alloc .vacant) next')
  | hold {handle handle' : Ref} {made : List (Ref × Ref)} {v v' : Value} {next : Ref → Script α}
      {next' : Ref → Script β} (values : ValueLike M (B.add ((handle, handle') :: made)) v v')
      (rest : ∀ r r',
        ScriptLike M B post (.knot handle handle' ((r, r') :: made)) (next r) (next' r')) :
      ScriptLike M B post (.knot handle handle' made) (.act (.alloc (.ofValue v)) next)
        (.act (.alloc (.ofValue v')) next')
  /-- Once the handle has its target, all that was held is known. -/
  | fill {handle handle' target target' : Ref} {made : List (Ref × Ref)}
      {next : Bool → Script α} {next' : Bool → Script β} (mine : (target, target') ∈ made)
      (rest : (∀ p ∈ (handle, handle') :: made, B.cells p.1 p.2) →
        ScriptLike M B post .nothing (next true) (next' true))
      (refused : ScriptLike M B post (.knot handle handle' made) (next false) (next' false)) :
      ScriptLike M B post (.knot handle handle' made) (.act (.fill handle target) next)
        (.act (.fill handle' target') next')
  | trace {held : Held} {next : Unit → Script α} {next' : Unit → Script β} (label : String)
      (rest : ScriptLike M B post held (next ()) (next' ())) :
      ScriptLike M B post held (.act (.trace label) next) (.act (.trace label) next')
  | submit {held : Held} {r r' : Ref} {next : Unit → Script α} {next' : Unit → Script β}
      (targets : B.cells r r') (report : Option (Nat × Nat))
      (rest : ScriptLike M B post held (next ()) (next' ())) :
      ScriptLike M B post held (.act (.submit { target := r, report }) next)
        (.act (.submit { target := r', report }) next')
  | openRally {held : Held} {rs rs' : List Ref} {next : Nat → Script α} {next' : Nat → Script β}
      (hosted : M.hosted) (arguments : RefsLike B rs rs')
      (rest : ∀ id, ScriptLike M B post held (next id) (next' id)) :
      ScriptLike M B post held (.act (.openRally rs) next) (.act (.openRally rs') next')
  | pollRally {held : Held} {next : Poll → Script α} {next' : Poll → Script β} (hosted : M.hosted)
      (id : Nat) (rest : ∀ p p', PollLike B p p' → ScriptLike M B post held (next p) (next' p')) :
      ScriptLike M B post held (.act (.pollRally id) next) (.act (.pollRally id) next')
  | listRally {held : Held} {next : Option Ref → Script α} {next' : Option Ref → Script β}
      (hosted : M.hosted) (id i : Nat)
      (rest : ∀ o o', Option.Rel B.cells o o' → ScriptLike M B post held (next o) (next' o')) :
      ScriptLike M B post held (.act (.listRally id i) next) (.act (.listRally id i) next')
  | ask {held : Held} {q : Request} {next : q.Answer → Script α} {next' : q.Answer → Script β}
      (hosted : M.hosted) (rest : ∀ a, ScriptLike M B post held (next a) (next' a)) :
      ScriptLike M B post held (.ask q next) (.ask q next')

/-- What a script comes to that ends with all it held before. -/
def Unchanged (M : Manner) {α β : Type} (post : α → β → Prop) (held after : Held)
    (x : Except Fault α) (x' : Except Fault β) : Prop :=
  after = held ∧ ResultLike M post x x'

/-- Likeness of scripts that tie no knot. -/
def Alike (M : Manner) (B : Bond) {α β : Type} (post : α → β → Prop) (s : Script α)
    (s' : Script β) : Prop :=
  ScriptLike M B (Unchanged M post .nothing) .nothing s s'

section
variable {M : Manner} {B : Bond} {α β γ δ : Type} {s : Script α} {s' : Script β}

theorem ScriptLike.bind {post : Held → Except Fault α → Except Fault β → Prop}
    {post' : Held → Except Fault γ → Except Fault δ → Prop} {held : Held}
    {f : α → Script γ} {f' : β → Script δ} (like : ScriptLike M B post held s s')
    (fails : ∀ held e e', post held (.error e) (.error e') → post' held (.error e) (.error e'))
    (rest : ∀ held a a', post held (.ok a) (.ok a') → ScriptLike M B post' held (f a) (f' a')) :
    ScriptLike M B post' held (s >>= f) (s' >>= f') := by
  change ScriptLike M B post' held (s.bind f) (s'.bind f')
  induction like with
  | stall stops =>
    refine .stall (stops.imp id ?_)
    rintro rfl
    rfl
  | done results => exact rest _ _ _ results
  | raise results => exact .raise (fails _ _ _ results)
  | panic p => exact .panic p
  | demand hosted cells _ ih => exact .demand hosted cells ih
  | alloc made _ ih => exact .alloc made ih
  | action bodies parameters _ ih => exact .action bodies parameters ih
  | vacant _ ih => exact .vacant ih
  | hold values _ ih => exact .hold values ih
  | fill mine _ _ ih ih' => exact .fill mine ih ih'
  | trace label _ ih => exact .trace label ih
  | submit targets report _ ih => exact .submit targets report ih
  | openRally hosted arguments _ ih => exact .openRally hosted arguments ih
  | pollRally hosted id _ ih => exact .pollRally hosted id ih
  | listRally hosted id i _ ih => exact .listRally hosted id i ih
  | ask hosted _ ih => exact .ask hosted ih

theorem ScriptLike.attempt {post : Held → Except Fault α → Except Fault β → Prop}
    {post' : Held → Except Fault (Except Fault α) → Except Fault (Except Fault β) → Prop}
    {held : Held} (like : ScriptLike M B post held s s')
    (rest : ∀ held x x', post held x x' → post' held (.ok x) (.ok x')) :
    ScriptLike M B post' held s.attempt s'.attempt := by
  induction like with
  | stall stops =>
    refine .stall (stops.imp id ?_)
    rintro rfl
    rfl
  | done results => exact .done (rest _ _ _ results)
  | raise results => exact .done (rest _ _ _ results)
  | panic p => exact .panic p
  | demand hosted cells _ ih => exact .demand hosted cells ih
  | alloc made _ ih => exact .alloc made ih
  | action bodies parameters _ ih => exact .action bodies parameters ih
  | vacant _ ih => exact .vacant ih
  | hold values _ ih => exact .hold values ih
  | fill mine _ _ ih ih' => exact .fill mine ih ih'
  | trace label _ ih => exact .trace label ih
  | submit targets report _ ih => exact .submit targets report ih
  | openRally hosted arguments _ ih => exact .openRally hosted arguments ih
  | pollRally hosted id _ ih => exact .pollRally hosted id ih
  | listRally hosted id i _ ih => exact .listRally hosted id i ih
  | ask hosted _ ih => exact .ask hosted ih

/-- The first script ties no knot; what it leaves to the second one may. -/
theorem ScriptLike.bind_unchanged {post : α → β → Prop}
    {post' : Held → Except Fault γ → Except Fault δ → Prop} {held : Held}
    {f : α → Script γ} {f' : β → Script δ}
    (like : ScriptLike M B (Unchanged M post held) held s s')
    (fails : ∀ e e', FaultLike M e e' → post' held (.error e) (.error e'))
    (rest : ∀ a a', post a a' → ScriptLike M B post' held (f a) (f' a')) :
    ScriptLike M B post' held (s >>= f) (s' >>= f') := by
  refine like.bind ?_ ?_
  · rintro _ e e' ⟨rfl, ⟨⟩⟩
    exact fails e e' ‹_›
  · rintro _ a a' ⟨rfl, ⟨⟩⟩
    exact rest a a' ‹_›

namespace Alike
variable {post : α → β → Prop}

theorem done {a : α} {a' : β} (results : post a a') : Alike M B post (.done a) (.done a') :=
  ScriptLike.done ⟨rfl, .ok results⟩

theorem pure {a : α} {a' : β} (results : post a a') :
    Alike M B post (Pure.pure a : Script α) (Pure.pure a') :=
  done results

theorem raise {e e' : Fault} (faults : FaultLike M e e') :
    Alike M B post (.raise e) (.raise e') :=
  ScriptLike.raise ⟨rfl, .error faults⟩

theorem fail (c : Cause) : Alike M B post (CallByNeed.fail c) (CallByNeed.fail c) :=
  raise (faultLike_of_cause M c)

theorem panic (p : Panic) : Alike M B post (.panic p) (.panic p) :=
  ScriptLike.panic p

/-- A loop has used up its bound. -/
theorem exhausted {bound : Nat} (bounds : M.Bounds 0 bound) (stops : bound = 0 → s' = .stall) :
    Alike M B post .stall s' := by
  rcases bounds with rfl | ⟨lax, _⟩
  · exact ScriptLike.stall (.inr (stops rfl))
  · exact ScriptLike.stall (.inl lax)

theorem bind {post' : γ → δ → Prop} {f : α → Script γ} {f' : β → Script δ}
    (like : Alike M B post s s') (rest : ∀ a a', post a a' → Alike M B post' (f a) (f' a')) :
    Alike M B post' (s >>= f) (s' >>= f') := by
  refine ScriptLike.bind_unchanged like ?_ ?_
  · intro e e' faults
    exact ⟨rfl, .error faults⟩
  · intro a a' results
    exact rest a a' results

theorem imp {post' : α → β → Prop} (like : Alike M B post s s')
    (weaker : ∀ a a', post a a' → post' a a') : Alike M B post' s s' := by
  have again : Alike M B post' (s >>= Pure.pure) (s' >>= Pure.pure) :=
    like.bind fun a a' results => pure (weaker a a' results)
  simpa using again

theorem attempt (like : Alike M B post s s') :
    Alike M B (ResultLike M post) s.attempt s'.attempt := by
  refine ScriptLike.attempt like ?_
  rintro after x x' ⟨rfl, results⟩
  exact ⟨rfl, .ok results⟩

theorem demand {how : Demand} {r r' : Ref} {next : Value → Script α} {next' : Value → Script β}
    (hosted : how = .effect → M.hosted) (cells : B.cells r r')
    (rest : ∀ v v', ValueLike M B v v' → Alike M B post (next v) (next' v')) :
    Alike M B post (.demand how r next) (.demand how r' next') :=
  ScriptLike.demand hosted cells rest

theorem alloc {c c' : Cell} (made : CellLike M B c c') :
    Alike M B B.cells (CallByNeed.alloc c : Script Ref) (CallByNeed.alloc c') :=
  ScriptLike.alloc made fun _ _ cells => .done ⟨rfl, .ok cells⟩

theorem allocValue {v v' : Value} (values : ValueLike M B v v') :
    Alike M B B.cells (CallByNeed.allocValue v : Script Ref) (CallByNeed.allocValue v') :=
  alloc ⟨.forced values, rfl⟩

theorem suspend {s s' : Suspension} (suspensions : SuspensionLike M B s s') :
    Alike M B B.cells (CallByNeed.alloc (.ofSuspension s) : Script Ref)
      (CallByNeed.alloc (.ofSuspension s')) :=
  alloc ⟨.pending ⟨.resume suspensions, rfl⟩, rfl⟩

theorem allocOfCall {f f' : Ref} {a a' : Arguments} (functions : B.cells f f')
    (arguments : ArgumentsLike B a a') (site : Option Location) :
    Alike M B B.cells (CallByNeed.alloc (.ofCall f a site) : Script Ref)
      (CallByNeed.alloc (.ofCall f' a' site)) :=
  alloc ⟨.pending ⟨.call functions arguments, rfl⟩, rfl⟩

theorem observe {r r' : Ref} (cells : B.cells r r') :
    Alike M B (ValueLike M B) (CallByNeed.observe r) (CallByNeed.observe r') :=
  demand (by simp) cells fun _ _ values => done values

theorem perform {r r' : Ref} (hosted : M.hosted) (cells : B.cells r r') :
    Alike M B (ValueLike M B) (CallByNeed.perform r) (CallByNeed.perform r') :=
  demand (fun _ => hosted) cells fun _ _ values => done values

theorem force {r r' : Ref} (cells : B.cells r r') :
    Alike M B (ValueLike M B) (CallByNeed.force r) (CallByNeed.force r') := by
  refine demand (by simp) cells ?_
  intro v v' values
  cases values with
  | error faults => exact raise faults
  | _ => exact done (by constructor <;> assumption)

end Alike

/-- Scripts that look at cells and leave the store alone. -/
inductive Script.DemandsOnly : Script α → Prop where
  | done (a : α) : DemandsOnly (.done a)
  | raise (e : Fault) : DemandsOnly (.raise e)
  | panic (p : Panic) : DemandsOnly (.panic p)
  | stall : DemandsOnly .stall
  | demand (how : Demand) (r : Ref) {next : Value → Script α}
      (rest : ∀ v, DemandsOnly (next v)) : DemandsOnly (.demand how r next)

theorem Script.DemandsOnly.bind {f : α → Script γ} (only : s.DemandsOnly)
    (rest : ∀ a, (f a).DemandsOnly) : (s >>= f).DemandsOnly := by
  change (s.bind f).DemandsOnly
  induction only with
  | done a => exact rest a
  | raise e => exact .raise e
  | panic p => exact .panic p
  | stall => exact .stall
  | demand how r _ ih => exact .demand how r ih

theorem demandsOnly_forceList (r : Ref) : (forceList r).DemandsOnly := by
  refine .demand .pure r fun v => ?_
  cases v <;> first | exact .done _ | exact .raise _

/-- What is held stays as it is while cells are only looked at. -/
theorem ScriptLike.carry {post : α → β → Prop} (only : s.DemandsOnly)
    (like : Alike M B post s s') (held : Held) :
    ScriptLike M B (Unchanged M post held) held s s' := by
  induction only generalizing s' with
  | done a =>
    cases like with
    | done results => exact .done ⟨rfl, results.2⟩
  | raise e =>
    cases like with
    | raise results => exact .raise ⟨rfl, results.2⟩
  | panic p =>
    cases like with
    | panic p => exact .panic p
  | stall =>
    cases like with
    | stall stops => exact .stall stops
  | demand how r _ ih =>
    cases like with
    | demand hosted cells rest => exact .demand hosted cells fun v v' values => ih v (rest v v' values)

theorem ValueLike.type_eq {v v' : Value} (values : ValueLike M B v v') : v.type = v'.type := by
  cases values <;> rfl

theorem ValueLike.isOrdered_eq {v v' : Value} (values : ValueLike M B v v') :
    v.isOrdered = v'.isOrdered := by
  cases values <;> rfl

end

section
variable {M : Manner} {B : Bond} {r r' : Ref}

theorem alike_forceNumber (cells : B.cells r r') :
    Alike M B Eq (forceNumber r) (forceNumber r') := by
  refine (Alike.force cells).bind ?_
  intro v v' values
  cases values <;> first | exact .pure rfl | exact .fail _

theorem alike_forceString (cells : B.cells r r') :
    Alike M B Eq (forceString r) (forceString r') := by
  refine (Alike.force cells).bind ?_
  intro v v' values
  cases values <;> first | exact .pure rfl | exact .fail _

theorem alike_forceBool (cells : B.cells r r') : Alike M B Eq (forceBool r) (forceBool r') := by
  refine (Alike.force cells).bind ?_
  intro v v' values
  cases values <;> first | exact .pure rfl | exact .fail _

theorem alike_forceList (cells : B.cells r r') :
    Alike M B (LazyListLike B) (forceList r) (forceList r') := by
  refine (Alike.force cells).bind ?_
  intro v v' values
  cases values <;> first | exact .pure ‹_› | exact .fail _

theorem alike_forceDict (cells : B.cells r r') :
    Alike M B (DictLike B.cells) (forceDict r) (forceDict r') := by
  refine (Alike.force cells).bind ?_
  intro v v' values
  cases values <;> first | exact .pure ‹_› | exact .fail _

end
end CallByNeed
