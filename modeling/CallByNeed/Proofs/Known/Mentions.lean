import CallByNeed.Proofs.Known.Threads

/- What can be reached: the cells that data mention, that threads name, and so on from cell to cell.
   Data within a set of cells mention none outside. -/
namespace CallByNeed

def LazyList.refs : LazyList → List Ref
  | .nil => []
  | .cons head tail => [head, tail]

def Default.refs : Default → List Ref
  | .literal _ => []
  | .cell r => [r]

def Half.refs (h : Half Default) : List Ref := h.optionals.flatMap fun o => o.2.refs

def Arguments.refs (a : Arguments) : List Ref :=
  a.positionals ++ a.spread.toList ++ a.keywords.map (·.2) ++ a.dicts

mutual
def Expr.refs : Expr → List Ref
  | .literal _ | .predefined _ | .local _ => []
  | .cell r => [r]
  | .call function positionals keywords dicts _ =>
    function.refs ++ positionalRefs positionals ++ keywordRefs keywords ++ exprRefs dicts
  | .switch value cases none => value.refs ++ caseRefs cases
  | .switch value cases (some default) => value.refs ++ caseRefs cases ++ default.refs

def positionalRefs : List PositionalExpr → List Ref
  | [] => []
  | ⟨value, _⟩ :: rest => value.refs ++ positionalRefs rest

def keywordRefs : List KeywordExpr → List Ref
  | [] => []
  | ⟨_, value⟩ :: rest => value.refs ++ keywordRefs rest

def caseRefs : List CaseExpr → List Ref
  | [] => []
  | ⟨_, result⟩ :: rest => result.refs ++ caseRefs rest

def exprRefs : List Expr → List Ref
  | [] => []
  | e :: rest => e.refs ++ exprRefs rest
end

def Body.refs : Body → List Ref
  | .code bindings result => exprRefs bindings ++ result.refs
  | _ => []

def Function.refs (f : Function) : List Ref :=
  f.signature.positional.refs ++ f.signature.keyword.refs ++ f.body.refs

def Native.refs : Native → List Ref
  | .partialCall function arguments keywords => [function, arguments, keywords]
  | .fixedPoint function self => [function, self]

def Value.refs : Value → List Ref
  | .list l => l.refs
  | .dict d => d.entries.map (·.2)
  | .function f => f.refs
  | .native f => f.refs
  | .effect action => [action]
  | _ => []

def Branch.refs (b : Branch) : List Ref :=
  caseRefs b.cases ++ (b.default.map Expr.refs).getD [] ++ b.locals

def Suspension.refs : Suspension → List Ref
  | .branch b matched => matched :: b.refs
  | .concat tail rest => [tail, rest]
  | .entries es => es.map (·.2)
  | .action body parameters => body.refs ++ parameters
  | .rally _ => []
  | .traced _ target => [target]

def Task.refs : Task → List Ref
  | .call function arguments => function :: arguments.refs
  | .resume s => s.refs

def CellState.refs : CellState → List Ref
  | .pending w => w.task.refs
  | .redirect target => [target]
  | .forced v => v.refs
  | .vacant | .forcing => []

def Control.refs : Control → List Ref
  | .enter r => [r]
  | .run cell _ _ => [cell]
  | .give v => v.refs

def Frame.refs (f : Frame) : List Ref :=
  match f.wait with
  | .reply _ r _ => [f.cell, r]
  | .tail => [f.cell]

/-- What a runner's script mentions shows when it is demanded. -/
def Runner.refs {α : Type} : Runner α → List Ref
  | .ready _ => []
  | .forcing _ r _ c frames => r :: (c.refs ++ frames.flatMap Frame.refs)

def Worker.refs : Worker → List Ref
  | .idle => []
  | .force job w => job.target :: w.refs
  | .report job => [job.target]

def Output.Thread.refs : Output.Thread → List Ref
  | .main outputs => outputs.map Output.cell
  | .acquire cell next => cell :: next.refs
  | .walk w => w.refs
  | .reach head tail => [head, tail]
  | .perform w => w.refs
  | .leave => []
  | .work w => w.refs

/-- Cells that the pool and the rallies name. -/
def Store.refs (s : Store) : List Ref :=
  s.pool.toList.map Job.target ++ s.rallies.toList.flatMap fun y => y.arguments.toList

def Module.refs (m : Module) : List Ref :=
  m.definitions.map Prod.snd ++ m.outputs.map Output.cell

/-- The state of one cell names another. -/
def Heap.Mentions (h : Heap) (r t : Ref) : Prop := ∃ c, h.state? r = some c ∧ t ∈ c.refs

/-- From what the module, the store or a thread names, cells lead from one to the other. -/
def Output.Reachable (m : Module) (threads : List Output.Thread) (s : Store) (r : Ref) : Prop :=
  ∃ root, root ∈ m.refs ++ s.refs ++ threads.flatMap Output.Thread.refs ∧
    Relation.ReflTransGen s.heap.Mentions root r

section
variable {M : Manner} {G : Set Ref}

theorem RefsLike.refs {rs : List Ref} (like : RefsLike (.among G) rs rs) : ∀ r ∈ rs, r ∈ G :=
  fun r mem => (List.forall₂_same.1 like r mem).2

theorem EntriesLike.refs {κ : Type} {es : List (κ × Ref)}
    (like : EntriesLike (Bond.among G).cells es es) : ∀ r ∈ es.map (·.2), r ∈ G := by
  intro r mem
  obtain ⟨e, mine, rfl⟩ := List.mem_map.1 mem
  exact (List.forall₂_same.1 like e mine).2.2

theorem LazyListLike.refs {l : LazyList} (like : LazyListLike (.among G) l l) :
    ∀ r ∈ l.refs, r ∈ G := by
  cases like with
  | nil => simp [LazyList.refs]
  | cons heads tails => simpa [LazyList.refs] using ⟨heads.2, tails.2⟩

theorem HalfLike.refs {h : Half Default} (like : HalfLike (DefaultLike (.among G)) h h) :
    ∀ r ∈ h.refs, r ∈ G := by
  intro r mem
  obtain ⟨o, mine, within⟩ := List.mem_flatMap.1 mem
  have default := (List.forall₂_same.1 like.optionals o mine).2
  cases default_eq : o.2 with
  | literal l => simp [default_eq, Default.refs] at within
  | cell q =>
    rw [default_eq] at default within
    cases default with
    | cell cells =>
      obtain rfl : r = q := by simpa [Default.refs] using within
      exact cells.2

theorem ArgumentsLike.refs {a : Arguments} (like : ArgumentsLike (.among G) a a) :
    ∀ r ∈ a.refs, r ∈ G := by
  intro r mem
  simp only [Arguments.refs, List.mem_append] at mem
  rcases mem with ((mem | mem) | mem) | mem
  · exact like.positionals.refs r mem
  · have spread := like.spread
    cases found : a.spread with
    | none => simp [found] at mem
    | some list =>
      rw [found] at spread
      obtain rfl : r = list := by simpa [found] using mem
      cases spread with
      | some cells => exact cells.2
  · exact like.keywords.refs r mem
  · exact like.dicts.refs r mem

mutual
theorem ExprLike.refs {n : Nat} : ∀ {e e' : Expr}, ExprLike M (.among G) n e e' →
    ∀ r ∈ e.refs, r ∈ G
  | _, _, .literal _, r, mem => by simp [Expr.refs] at mem
  | _, _, .predefined _, r, mem => by simp [Expr.refs] at mem
  | _, _, .cell cells, r, mem => by
    obtain rfl := List.mem_singleton.1 (by simpa [Expr.refs] using mem)
    exact cells.2
  | _, _, .local _, r, mem => by simp [Expr.refs] at mem
  | _, _, .call function positionals keywords dicts _, r, mem => by
    simp only [Expr.refs, List.mem_append] at mem
    rcases mem with ((mem | mem) | mem) | mem
    · exact function.refs r mem
    · exact positionals.refs r mem
    · exact keywords.refs r mem
    · exact dicts.refs r mem
  | _, _, .switch value cases .none, r, mem => by
    simp only [Expr.refs, List.mem_append] at mem
    rcases mem with mem | mem
    · exact value.refs r mem
    · exact cases.refs r mem
  | _, _, .switch value cases (.some default), r, mem => by
    simp only [Expr.refs, List.mem_append] at mem
    rcases mem with (mem | mem) | mem
    · exact value.refs r mem
    · exact cases.refs r mem
    · exact default.refs r mem

theorem PositionalsLike.refs {n : Nat} : ∀ {ps ps' : List PositionalExpr},
    PositionalsLike M (.among G) n ps ps' → ∀ r ∈ positionalRefs ps, r ∈ G
  | _, _, .nil, r, mem => by simp [positionalRefs] at mem
  | _, _, .cons value _ rest, r, mem => by
    simp only [positionalRefs, List.mem_append] at mem
    rcases mem with mem | mem
    · exact value.refs r mem
    · exact rest.refs r mem

theorem KeywordsLike.refs {n : Nat} : ∀ {ks ks' : List KeywordExpr},
    KeywordsLike M (.among G) n ks ks' → ∀ r ∈ keywordRefs ks, r ∈ G
  | _, _, .nil, r, mem => by simp [keywordRefs] at mem
  | _, _, .cons _ value rest, r, mem => by
    simp only [keywordRefs, List.mem_append] at mem
    rcases mem with mem | mem
    · exact value.refs r mem
    · exact rest.refs r mem

theorem CasesLike.refs {n : Nat} : ∀ {cs cs' : List CaseExpr},
    CasesLike M (.among G) n cs cs' → ∀ r ∈ caseRefs cs, r ∈ G
  | _, _, .nil, r, mem => by simp [caseRefs] at mem
  | _, _, .cons _ result rest, r, mem => by
    simp only [caseRefs, List.mem_append] at mem
    rcases mem with mem | mem
    · exact result.refs r mem
    · exact rest.refs r mem

theorem ExprsLike.refs {n : Nat} : ∀ {es es' : List Expr},
    ExprsLike M (.among G) n es es' → ∀ r ∈ exprRefs es, r ∈ G
  | _, _, .nil, r, mem => by simp [exprRefs] at mem
  | _, _, .cons first rest, r, mem => by
    simp only [exprRefs, List.mem_append] at mem
    rcases mem with mem | mem
    · exact first.refs r mem
    · exact rest.refs r mem
end

theorem BindingsLike.refs {n : Nat} {es es' : List Expr}
    (like : BindingsLike M (.among G) n es es') : ∀ r ∈ exprRefs es, r ∈ G := by
  induction like with
  | nil => simp [exprRefs]
  | cons first _ ih =>
    intro r mem
    simp only [exprRefs, List.mem_append] at mem
    exact mem.elim (first.refs r) (ih r)

theorem BodyLike.refs {isEffect : Bool} {n : Nat} {b b' : Body}
    (like : BodyLike M (.among G) isEffect n b b') : ∀ r ∈ b.refs, r ∈ G := by
  cases like with
  | code binds results =>
    intro r mem
    simp only [Body.refs, List.mem_append] at mem
    exact mem.elim (binds.refs r) (results.refs r)
  | _ => simp [Body.refs]

theorem FunctionLike.refs {f : Function} (like : FunctionLike M (.among G) f f) :
    ∀ r ∈ f.refs, r ∈ G := by
  intro r mem
  simp only [Function.refs, List.mem_append] at mem
  rcases mem with (mem | mem) | mem
  · exact like.signature.positional.refs r mem
  · exact like.signature.keyword.refs r mem
  · exact like.body.refs r mem

theorem ValueLike.refs {v : Value} (like : ValueLike M (.among G) v v) :
    ∀ r ∈ v.refs, r ∈ G := by
  cases like with
  | list lists => exact lists.refs
  | dict dicts => exact EntriesLike.refs dicts
  | function functions => exact functions.refs
  | native natives =>
    cases natives with
    | partialCall f ps ks => simpa [Value.refs, Native.refs] using ⟨f.2, ps.2, ks.2⟩
    | fixedPoint f self => simpa [Value.refs, Native.refs] using ⟨f.2, self.2⟩
  | effect actions => simpa [Value.refs] using actions.2
  | _ => simp [Value.refs]

theorem BranchLike.refs {b : Branch} (like : BranchLike M (.among G) b b) :
    ∀ r ∈ b.refs, r ∈ G := by
  intro r mem
  simp only [Branch.refs, List.mem_append] at mem
  rcases mem with (mem | mem) | mem
  · exact like.cases.refs r mem
  · have default := like.default
    cases found : b.default with
    | none => simp [found] at mem
    | some e =>
      rw [found] at default
      cases default with
      | some expr => exact expr.refs r (by simpa [found] using mem)
  · exact like.locals.refs r mem

theorem TaskLike.refs {t : Task} (like : TaskLike M (.among G) t t) : ∀ r ∈ t.refs, r ∈ G := by
  intro r mem
  cases like with
  | call functions arguments =>
    rcases List.mem_cons.1 mem with rfl | mem
    · exact functions.2
    · exact arguments.refs r mem
  | resume suspensions =>
    cases suspensions with
    | branch branches matched =>
      rcases List.mem_cons.1 mem with rfl | mem
      · exact matched.2
      · exact branches.refs r mem
    | concat tails rests =>
      simp only [Task.refs, Suspension.refs, List.mem_cons, List.not_mem_nil, or_false] at mem
      rcases mem with rfl | rfl
      · exact tails.2
      · exact rests.2
    | entries entries => exact EntriesLike.refs entries r mem
    | action hosted bodies parameters =>
      simp only [Task.refs, Suspension.refs, List.mem_append] at mem
      exact mem.elim (bodies.refs r) (parameters.refs r)
    | rally hosted => simp [Task.refs, Suspension.refs] at mem
    | traced targets =>
      obtain rfl := List.mem_singleton.1 mem
      exact targets.2

/-- A known cell mentions known cells only. -/
theorem CellState.Within.refs {unfilled : Prop} {c : CellState} (within : c.Within M G unfilled) :
    ∀ r ∈ c.refs, r ∈ G := by
  cases within with
  | vacant _ => simp [CellState.refs]
  | pending works => exact works.task.refs
  | forcing => simp [CellState.refs]
  | redirect known => simpa [CellState.refs] using known
  | forced values => exact values.refs

theorem Control.Knows.refs {h : Heap} {c : Control} (knows : c.Knows M G h) :
    ∀ r ∈ c.refs, r ∈ G := by
  cases knows with
  | enter known => simpa [Control.refs] using known
  | run running _ _ => simpa [Control.refs] using running
  | give values => exact values.refs

theorem Frame.Knows.refs {h : Heap} {f : Frame} (knows : f.Knows M G h) :
    ∀ r ∈ f.refs, r ∈ G := by
  obtain ⟨cell, site, wait⟩ := f
  obtain ⟨running, waits⟩ := knows
  cases waits with
  | reply hosted asked mine rest => simpa [Frame.refs] using ⟨running, asked⟩
  | tail => simpa [Frame.refs] using running

theorem Runner.Knows.refs {α : Type} {post : Bond → α → α → Prop} {h : Heap} {w : Runner α}
    (knows : w.Knows M post G h) : ∀ r ∈ w.refs, r ∈ G := by
  intro r mem
  cases knows with
  | ready mine scripts => cases mem
  | forcing hosted asked mine rest control stack =>
    rcases List.mem_cons.1 mem with rfl | mem
    · exact asked
    · rcases List.mem_append.1 mem with mem | mem
      · exact control.refs r mem
      · obtain ⟨f, frame, mem⟩ := List.mem_flatMap.1 mem
        exact (stack f frame).refs r mem

theorem Worker.Knows.refs {h : Heap} {w : Worker} (knows : w.Knows M G h) :
    ∀ r ∈ w.refs, r ∈ G := by
  intro r mem
  cases knows with
  | idle => cases mem
  | force target runner =>
    rcases List.mem_cons.1 mem with rfl | mem
    · exact target
    · exact runner.refs r mem
  | report target =>
    obtain rfl := List.mem_singleton.1 mem
    exact target

namespace Output

theorem Thread.Knows.refs {h : Heap} {t : Thread} (knows : t.Knows M G h) :
    ∀ r ∈ t.refs, r ∈ G := by
  intro r mem
  induction knows with
  | main cells =>
    obtain ⟨o, mine, rfl⟩ := List.mem_map.1 mem
    exact cells o mine
  | acquire known _ ih =>
    rcases List.mem_cons.1 mem with rfl | mem
    · exact known
    · exact ih mem
  | walk runner => exact runner.refs r mem
  | reach heads tails =>
    simp only [Thread.refs, List.mem_cons, List.not_mem_nil, or_false] at mem
    rcases mem with rfl | rfl
    · exact heads
    · exact tails
  | perform runner => exact runner.refs r mem
  | leave => cases mem
  | work worker => exact worker.refs r mem

/-- All that can be reached is known. -/
theorem Keeps.reachable {m : Module} {threads : List Thread} {s : Store} {r : Ref}
    (keeps : Keeps M G threads s) (roots : ∀ r ∈ m.refs, r ∈ G)
    (reachable : Reachable m threads s r) : r ∈ G := by
  obtain ⟨root, named, path⟩ := reachable
  induction path with
  | refl =>
    simp only [List.mem_append] at named
    rcases named with (named | named) | named
    · exact roots root named
    · rcases List.mem_append.1 named with named | named
      · obtain ⟨job, mine, rfl⟩ := List.mem_map.1 named
        exact keeps.within.pool job (Array.mem_toList_iff.1 mine)
      · obtain ⟨y, mine, named⟩ := List.mem_flatMap.1 named
        exact keeps.within.rallies y (Array.mem_toList_iff.1 mine) root (Array.mem_toList_iff.1 named)
    · obtain ⟨t, mine, named⟩ := List.mem_flatMap.1 named
      exact (keeps.knows t mine).refs root named
  | tail _ mention ih =>
    obtain ⟨c, state, named⟩ := mention
    exact (keeps.within.heap.of_state ih state).refs _ named

end Output
end
end CallByNeed
