import CallByNeed.Proofs.Likeness.Task

/- Code that fits where it stands. An expression names only locals it has, a body fits the
   parameters that are bound for it, and a body that reaches the outside belongs to an effect
   function. All cells of a heap hold such code and nothing else. A script of such code is safe
   whatever it is answered. A safe script never panics as long as it holds a vacant handle for each one it
   fills; it makes only cells that fit; what it makes for an effect it answers at once, inside that
   effect. A quiet one demands values only and writes nothing. -/
namespace CallByNeed

mutual
/-- Every local is below the number of locals. -/
def Expr.InScope (locals : Nat) : Expr → Prop
  | .literal _ | .predefined _ | .cell _ => True
  | .local i => i < locals
  | .call function positionals keywords dicts _ =>
    function.InScope locals ∧ positionalsInScope locals positionals ∧
      keywordsInScope locals keywords ∧ exprsInScope locals dicts
  | .switch value cases none => value.InScope locals ∧ casesInScope locals cases
  | .switch value cases (some default) =>
    value.InScope locals ∧ casesInScope locals cases ∧ default.InScope locals

def positionalsInScope (locals : Nat) : List PositionalExpr → Prop
  | [] => True
  | ⟨value, _⟩ :: rest => value.InScope locals ∧ positionalsInScope locals rest

def keywordsInScope (locals : Nat) : List KeywordExpr → Prop
  | [] => True
  | ⟨_, value⟩ :: rest => value.InScope locals ∧ keywordsInScope locals rest

def casesInScope (locals : Nat) : List CaseExpr → Prop
  | [] => True
  | ⟨_, result⟩ :: rest => result.InScope locals ∧ casesInScope locals rest

def exprsInScope (locals : Nat) : List Expr → Prop
  | [] => True
  | e :: rest => e.InScope locals ∧ exprsInScope locals rest
end

/-- Each binding sees the locals and the bindings before it. -/
def bindingsInScope : Nat → List Expr → Prop
  | _, [] => True
  | locals, e :: rest => e.InScope locals ∧ bindingsInScope (locals + 1) rest

/-- A body on as many parameters; the bodies of builtin effect functions are effects only. -/
def Body.Fits (isEffect : Bool) (arity : Nat) : Body → Prop
  | .builtin b => b.signature.arity = arity ∧ (b.isEffect = true → isEffect = true)
  | .code bindings result =>
    bindingsInScope arity bindings ∧ result.InScope (arity + bindings.length)
  | .parameter i => i < arity
  | .parameters => True

def Function.Fits (f : Function) : Prop := f.body.Fits f.isEffect f.signature.arity

def Value.Fits : Value → Prop
  | .function f => f.Fits
  | _ => True

structure Branch.Fits (b : Branch) : Prop where
  cases : casesInScope b.locals.length b.cases
  default : ∀ e, b.default = some e → e.InScope b.locals.length

def Suspension.Fits : Suspension → Prop
  | .branch b _ => b.Fits
  | .action body parameters => body.Fits true parameters.length
  | _ => True

def Work.Fits (w : Work) : Prop :=
  match w.task with
  | .resume s => s.Fits
  | .call _ _ => True

/-- The work is the body of an effect. -/
def Work.Performs (w : Work) : Prop := ∃ body parameters, w.task = .resume (.action body parameters)

def CellState.Fits : CellState → Prop
  | .pending w => w.Fits
  | .forced v => v.Fits
  | _ => True

def Heap.Fits (h : Heap) : Prop := ∀ r c, h.state? r = some c → c.Fits

theorem Builtin.fits_function (b : Builtin) : b.function.Fits := ⟨rfl, id⟩

theorem Builtin.fits_value (b : Builtin) : (Value.function b.function).Fits := b.fits_function

theorem Predefined.fits_value (p : Predefined) : p.value.Fits := by
  cases p with
  | constant b => trivial
  | function b => exact b.fits_value

theorem Literal.fits_value (l : Literal) : l.value.Fits := by
  cases l <;> trivial

theorem Value.Fits.through? {v : Value} (fits : v.Fits) (site : Option Location) :
    (v.through? site).Fits := by
  cases v <;> exact fits

/-! ### Safe scripts -/

/-- What a new cell is: one that anybody may force, a handle, or the action of an effect. -/
inductive Cell.Role where
  | plain
  | handle
  | action

def Cell.role (c : Cell) : Cell.Role :=
  match c.state with
  | .vacant => .handle
  | .pending { task := .resume (.action _ _), .. } => .action
  | _ => .plain

def Request.Reads : Request → Prop
  | .read _ => True
  | .write _ _ => False

/-- Values that a demand is answered with. -/
def Value.Replies (v : Value) : Prop := v.Fits ∧ ∀ action, v ≠ .effect action

namespace Script
variable {α β : Type}

/-- `held` is the handle that the script has made and not filled. It ends with what satisfies
    `post`, or has just made an action and answers what stands in `made` to it. -/
def Safe (quiet : Prop) (made : Ref → α → Prop) (post : Option Ref → α → Prop) :
    Option Ref → Script α → Prop
  | held, .done a => post held a
  | _, .raise _ => True
  | _, .panic _ => False
  | _, .stall => True
  | held, .demand how _ next =>
    (quiet → how = .pure) ∧ ∀ v, v.Replies → Safe quiet made post held (next v)
  | held, .act (.alloc c) next =>
    c.state.Fits ∧
      (c.role = .plain → ∀ r, Safe quiet made post held (next r)) ∧
      (c.role = .handle → held = none ∧ ∀ r, Safe quiet made post (some r) (next r)) ∧
      (c.role = .action → held = none ∧ ∀ r, ∃ a, next r = .done a ∧ made r a)
  | held, .act (.fill handle _) next => held = some handle ∧ Safe quiet made post none (next true)
  | held, .act (.trace _) next => Safe quiet made post held (next ())
  | held, .act (.submit _) next => Safe quiet made post held (next ())
  | held, .act (.openRally _) next => ∀ id, Safe quiet made post held (next id)
  | held, .act (.pollRally _) next => ∀ answer, Safe quiet made post held (next answer)
  | held, .act (.listRally _ _) next => ∀ answer, Safe quiet made post held (next answer)
  | held, .ask q next => (quiet → q.Reads) ∧ ∀ answer, Safe quiet made post held (next answer)

/-- Safe, and what was held before is held afterwards. -/
def Gives (quiet : Prop) (held : Option Ref) (post : α → Prop) (s : Script α) : Prop :=
  s.Safe quiet (fun _ _ => False) (fun held' a => held' = held ∧ post a) held

def Tame (quiet : Prop) (held : Option Ref) (s : Script α) : Prop :=
  s.Gives quiet held fun _ => True

end Script

section
variable {α β : Type} {quiet : Prop} {held : Option Ref} {s : Script α}

namespace Script

theorem Safe.bind {made : Ref → β → Prop} {post : Option Ref → α → Prop}
    {post' : Option Ref → β → Prop} {f : α → Script β}
    (safe : s.Safe quiet (fun _ _ => False) post held)
    (rest : ∀ held' a, post held' a → (f a).Safe quiet made post' held') :
    (s >>= f).Safe quiet made post' held := by
  change (s.bind f).Safe quiet made post' held
  induction s generalizing held with
  | done a => exact rest held a safe
  | raise e => trivial
  | panic p => exact safe
  | stall => trivial
  | demand how r next ih => exact ⟨safe.1, fun v replies => ih v (safe.2 v replies)⟩
  | ask q next ih => exact ⟨safe.1, fun a => ih a (safe.2 a)⟩
  | act a next ih =>
    cases a with
    | alloc c =>
      obtain ⟨fits, plain, handle, action⟩ := safe
      refine ⟨fits, fun role r => ih r (plain role r), fun role => ?_, fun role => ?_⟩
      · exact ⟨(handle role).1, fun r => ih r ((handle role).2 r)⟩
      · obtain ⟨_, _, never⟩ := (action role).2 default
        exact never.elim
    | fill handle target => exact ⟨safe.1, ih true safe.2⟩
    | trace label => exact ih () safe
    | submit job => exact ih () safe
    | openRally arguments => exact fun id => ih id (safe id)
    | pollRally id => exact fun x => ih x (safe x)
    | listRally id i => exact fun x => ih x (safe x)

theorem Safe.imp {quiet' : Prop} {made made' : Ref → α → Prop} {post post' : Option Ref → α → Prop}
    (safe : s.Safe quiet made post held) (louder : quiet' → quiet)
    (wider : ∀ r a, made r a → made' r a) (weaker : ∀ held' a, post held' a → post' held' a) :
    s.Safe quiet' made' post' held := by
  induction s generalizing held with
  | done a => exact weaker held a safe
  | raise e => trivial
  | panic p => exact safe
  | stall => trivial
  | demand how r next ih =>
    exact ⟨fun silent => safe.1 (louder silent), fun v replies => ih v (safe.2 v replies)⟩
  | ask q next ih => exact ⟨fun silent => safe.1 (louder silent), fun a => ih a (safe.2 a)⟩
  | act a next ih =>
    cases a with
    | alloc c =>
      obtain ⟨fits, plain, handle, action⟩ := safe
      refine ⟨fits, fun role r => ih r (plain role r), fun role => ?_, fun role => ?_⟩
      · exact ⟨(handle role).1, fun r => ih r ((handle role).2 r)⟩
      · refine ⟨(action role).1, fun r => ?_⟩
        obtain ⟨a, ends, mine⟩ := (action role).2 r
        exact ⟨a, ends, wider r a mine⟩
    | fill handle target => exact ⟨safe.1, ih true safe.2⟩
    | trace label => exact ih () safe
    | submit job => exact ih () safe
    | openRally arguments => exact fun id => ih id (safe id)
    | pollRally id => exact fun x => ih x (safe x)
    | listRally id i => exact fun x => ih x (safe x)

/-- Faults are answers, and nothing else changes. -/
theorem Safe.attempt {post : Option Ref → α → Prop} {P : Option Ref → Except Fault α → Prop}
    (safe : s.Safe quiet (fun _ _ => False) post held)
    (answers : ∀ held' a, post held' a → P held' (.ok a)) (fails : ∀ held' e, P held' (.error e)) :
    s.attempt.Safe quiet (fun _ _ => False) P held := by
  induction s generalizing held with
  | done a => exact answers held a safe
  | raise e => exact fails held e
  | panic p => exact safe
  | stall => trivial
  | demand how r next ih => exact ⟨safe.1, fun v replies => ih v (safe.2 v replies)⟩
  | ask q next ih => exact ⟨safe.1, fun a => ih a (safe.2 a)⟩
  | act a next ih =>
    cases a with
    | alloc c =>
      obtain ⟨fits, plain, handle, action⟩ := safe
      refine ⟨fits, fun role r => ih r (plain role r), fun role => ?_, fun role => ?_⟩
      · exact ⟨(handle role).1, fun r => ih r ((handle role).2 r)⟩
      · obtain ⟨_, _, never⟩ := (action role).2 default
        exact never.elim
    | fill handle target => exact ⟨safe.1, ih true safe.2⟩
    | trace label => exact ih () safe
    | submit job => exact ih () safe
    | openRally arguments => exact fun id => ih id (safe id)
    | pollRally id => exact fun x => ih x (safe x)
    | listRally id i => exact fun x => ih x (safe x)

/-- A script that holds what it held, before another one. -/
theorem Gives.next {made : Ref → β → Prop} {post : α → Prop} {post' : Option Ref → β → Prop}
    {f : α → Script β} (gives : s.Gives quiet held post)
    (rest : ∀ a, post a → (f a).Safe quiet made post' held) :
    (s >>= f).Safe quiet made post' held := by
  refine gives.bind ?_
  rintro _ a ⟨rfl, results⟩
  exact rest a results

theorem Tame.next {made : Ref → β → Prop} {post : Option Ref → β → Prop} {f : α → Script β}
    (tame : s.Tame quiet held) (rest : ∀ a, (f a).Safe quiet made post held) :
    (s >>= f).Safe quiet made post held :=
  Gives.next tame fun a _ => rest a

theorem Gives.bind {post : α → Prop} {post' : β → Prop} {f : α → Script β}
    (gives : s.Gives quiet held post) (rest : ∀ a, post a → (f a).Gives quiet held post') :
    (s >>= f).Gives quiet held post' :=
  gives.next rest

theorem Tame.bind {P : β → Prop} {f : α → Script β} (tame : s.Tame quiet held)
    (rest : ∀ a, (f a).Gives quiet held P) : (s >>= f).Gives quiet held P :=
  tame.next rest

theorem Gives.imp {post post' : α → Prop} (gives : s.Gives quiet held post)
    (weaker : ∀ a, post a → post' a) : s.Gives quiet held post' :=
  Safe.imp gives id (fun _ _ => id) fun _ a results => ⟨results.1, weaker a results.2⟩

theorem Gives.tame {post : α → Prop} (gives : s.Gives quiet held post) : s.Tame quiet held :=
  gives.imp fun _ _ => trivial

/-- Whatever has been promised of new actions, none is made. -/
theorem Gives.safe {made : Ref → α → Prop} {post : α → Prop} {post' : Option Ref → α → Prop}
    (gives : s.Gives quiet held post) (weaker : ∀ a, post a → post' held a) :
    s.Safe quiet made post' held := by
  refine Safe.imp gives id (fun _ _ => False.elim) ?_
  rintro _ a ⟨rfl, results⟩
  exact weaker a results

theorem gives_pure {post : α → Prop} {a : α} (results : post a) :
    (pure a : Script α).Gives quiet held post := ⟨rfl, results⟩

theorem tame_pure (a : α) : (pure a : Script α).Tame quiet held := gives_pure trivial

theorem gives_fail {post : α → Prop} (c : Cause) : (fail c : Script α).Gives quiet held post :=
  trivial

theorem gives_raise {post : α → Prop} (e : Fault) : (raise e : Script α).Gives quiet held post :=
  trivial

theorem gives_stall {post : α → Prop} : (stall : Script α).Gives quiet held post := trivial

/-- A new cell that is neither a handle nor an action. -/
theorem tame_alloc {c : Cell} (fits : c.state.Fits) (plain : c.role = .plain) :
    (alloc c : Script Ref).Tame quiet held := by
  refine ⟨fits, fun _ r => ⟨rfl, trivial⟩, fun role => ?_, fun role => ?_⟩
  · rw [plain] at role
    cases role
  · rw [plain] at role
    cases role

theorem tame_allocValue {v : Value} (fits : v.Fits) :
    (allocValue v : Script Ref).Tame quiet held :=
  tame_alloc fits rfl

theorem tame_allocList (l : LazyList) : (allocValue (.list l) : Script Ref).Tame quiet held :=
  tame_allocValue trivial

theorem tame_allocDict (d : Dict Ref) : (allocValue (.dict d) : Script Ref).Tame quiet held :=
  tame_allocValue trivial

theorem tame_suspendConcat (tail rest : Ref) :
    (alloc (.ofSuspension (.concat tail rest)) : Script Ref).Tame quiet held :=
  tame_alloc trivial rfl

theorem tame_suspendEntries (es : List (Key × Ref)) :
    (alloc (.ofSuspension (.entries es)) : Script Ref).Tame quiet held :=
  tame_alloc trivial rfl

theorem tame_suspendRally (id : Nat) :
    (alloc (.ofSuspension (.rally id)) : Script Ref).Tame quiet held :=
  tame_alloc trivial rfl

theorem tame_suspendBranch {b : Branch} (fits : b.Fits) (matched : Ref) :
    (alloc (.ofSuspension (.branch b matched)) : Script Ref).Tame quiet held :=
  tame_alloc fits rfl

theorem tame_allocOfCall (f : Ref) (a : Arguments) (site : Option Location) :
    (alloc (.ofCall f a site) : Script Ref).Tame quiet held :=
  tame_alloc trivial rfl

theorem tame_allocCall {f : Value} (fits : f.Fits) (positionals : List Ref) :
    (allocCall f positionals : Script Ref).Tame quiet held :=
  (tame_allocValue fits).bind fun _ => tame_allocOfCall _ _ _

theorem gives_observe (r : Ref) : (observe r).Gives quiet held Value.Replies :=
  ⟨fun _ => rfl, fun _ replies => ⟨rfl, replies⟩⟩

theorem gives_force (r : Ref) : (force r).Gives quiet held Value.Replies := by
  refine ⟨fun _ => rfl, fun v replies => ?_⟩
  cases v <;> first | exact ⟨rfl, replies⟩ | trivial

theorem tame_force (r : Ref) : (force r).Tame quiet held := (gives_force r).tame

theorem gives_perform (loud : ¬ quiet) (r : Ref) : (perform r).Gives quiet held Value.Replies :=
  ⟨fun silent => absurd silent loud, fun _ replies => ⟨rfl, replies⟩⟩

theorem tame_forceNumber (r : Ref) : (forceNumber r).Tame quiet held := by
  refine (tame_force r).bind fun v => ?_
  cases v <;> first | exact tame_pure _ | exact gives_fail _

theorem tame_forceString (r : Ref) : (forceString r).Tame quiet held := by
  refine (tame_force r).bind fun v => ?_
  cases v <;> first | exact tame_pure _ | exact gives_fail _

theorem tame_forceBool (r : Ref) : (forceBool r).Tame quiet held := by
  refine (tame_force r).bind fun v => ?_
  cases v <;> first | exact tame_pure _ | exact gives_fail _

theorem tame_forceList (r : Ref) : (forceList r).Tame quiet held := by
  refine (tame_force r).bind fun v => ?_
  cases v <;> first | exact tame_pure _ | exact gives_fail _

theorem tame_forceDict (r : Ref) : (forceDict r).Tame quiet held := by
  refine (tame_force r).bind fun v => ?_
  cases v <;> first | exact tame_pure _ | exact gives_fail _

/-- An invariant of a loop over a list may count how many elements came before. -/
theorem gives_foldlM_count {γ : Type} {I : Nat → α → Prop} {f : α → γ → Script α}
    (step : ∀ n a x, I n a → (f a x).Gives quiet held (I (n + 1))) (l : List γ) {n : Nat} {a : α}
    (starts : I n a) : (l.foldlM f a).Gives quiet held (I (n + l.length)) := by
  induction l generalizing n a with
  | nil => exact gives_pure starts
  | cons x l ih =>
    rw [List.foldlM_cons]
    refine (step n a x starts).bind fun b next => ?_
    have all := ih next
    rwa [Nat.add_right_comm] at all

theorem tame_foldlM {γ : Type} {f : α → γ → Script α} (step : ∀ a x, (f a x).Tame quiet held)
    (l : List γ) (a : α) : (l.foldlM f a).Tame quiet held :=
  gives_foldlM_count (I := fun _ _ => True) (fun _ a x _ => step a x) l (n := 0) trivial

theorem gives_mapM {γ : Type} {f : γ → Script α} (l : List γ)
    (each : ∀ x ∈ l, (f x).Tame quiet held) :
    (l.mapM f).Gives quiet held fun results => results.length = l.length := by
  induction l with
  | nil =>
    rw [List.mapM_nil]
    exact gives_pure rfl
  | cons x l ih =>
    rw [List.mapM_cons]
    refine (each x (List.mem_cons_self ..)).bind fun _ => ?_
    refine (ih fun y mem => each y (List.mem_cons_of_mem _ mem)).bind fun _ count => ?_
    exact gives_pure (by simp [count])

theorem tame_mapM {γ : Type} {f : γ → Script α} (each : ∀ x, (f x).Tame quiet held) (l : List γ) :
    (l.mapM f).Tame quiet held :=
  (gives_mapM l fun x _ => each x).tame

end Script
end
end CallByNeed
