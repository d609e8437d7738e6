import CallByNeed.Proofs.Likeness.Data

/- Two things that are like a third one are alike, under the bond of the cells that stand for one cell
   there. -/
namespace CallByNeed

/-- Cells that stand for one cell. -/
def Bond.peers (B C : Bond) : Bond where
  cells := fun r t => ∃ o, B.cells o r ∧ C.cells o t
  actions := fun r t => ∃ o, B.actions o r ∧ C.actions o t

/-- Chains that compare with one chain compare. -/
def Manner.Joins (M : Manner) : Prop := ∀ l k k', M.chains l k → M.chains l k' → M.chains k k'

theorem forall₂_join {α β γ : Type} {p : α → β → Prop} {q : α → γ → Prop} {r : β → γ → Prop}
    (join : ∀ a b c, p a b → q a c → r b c) {as : List α} {bs : List β} {cs : List γ}
    (left : List.Forall₂ p as bs) (right : List.Forall₂ q as cs) : List.Forall₂ r bs cs := by
  induction left generalizing cs with
  | nil =>
    cases right
    exact .nil
  | cons first _ ih =>
    cases right with
    | cons other rest => exact .cons (join _ _ _ first other) (ih rest)

theorem EntriesLike.join {κ α β γ : Type} {p : α → β → Prop} {q : α → γ → Prop}
    {r : β → γ → Prop} (join : ∀ a b c, p a b → q a c → r b c) {es : List (κ × α)}
    {es' : List (κ × β)} {es'' : List (κ × γ)} (left : EntriesLike p es es')
    (right : EntriesLike q es es'') : EntriesLike r es' es'' :=
  forall₂_join (fun _ _ _ e e' => ⟨e.1.symm.trans e'.1, join _ _ _ e.2 e'.2⟩) left right

section
variable {M : Manner} {B C : Bond}

theorem RefsLike.peers {rs rs' rs'' : List Ref} (left : RefsLike B rs rs')
    (right : RefsLike C rs rs'') : RefsLike (B.peers C) rs' rs'' :=
  forall₂_join (fun o _ _ cells cells' => ⟨o, cells, cells'⟩) left right

theorem optionRel_peers {o o' o'' : Option Ref} (left : Option.Rel B.cells o o')
    (right : Option.Rel C.cells o o'') : Option.Rel (B.peers C).cells o' o'' := by
  cases left with
  | some cells =>
    cases right with
    | some cells' => exact .some ⟨_, cells, cells'⟩
  | none =>
    cases right
    exact .none

theorem LazyListLike.peers {l l' l'' : LazyList} (left : LazyListLike B l l')
    (right : LazyListLike C l l'') : LazyListLike (B.peers C) l' l'' := by
  cases left with
  | nil =>
    cases right
    exact .nil
  | cons heads tails =>
    cases right with
    | cons heads' tails' => exact .cons ⟨_, heads, heads'⟩ ⟨_, tails, tails'⟩

theorem DefaultLike.peers {d d' d'' : Default} (left : DefaultLike B d d')
    (right : DefaultLike C d d'') : DefaultLike (B.peers C) d' d'' := by
  cases left with
  | literal l =>
    cases right
    exact .literal l
  | cell cells =>
    cases right with
    | cell cells' => exact .cell ⟨_, cells, cells'⟩

theorem HalfLike.peers {h h' h'' : Half Default} (left : HalfLike (DefaultLike B) h h')
    (right : HalfLike (DefaultLike C) h h'') : HalfLike (DefaultLike (B.peers C)) h' h'' := by
  have defaults : ∀ d d' d'', DefaultLike B d d' → DefaultLike C d d'' →
      DefaultLike (B.peers C) d' d'' := fun _ _ _ => DefaultLike.peers
  exact ⟨left.requireds.symm.trans right.requireds, left.optionals.join defaults right.optionals,
    left.rest.symm.trans right.rest⟩

theorem HalfLike.arity_eq {δ δ' : Type} {p : δ → δ' → Prop} {h : Half δ} {h' : Half δ'}
    (like : HalfLike p h h') : h.arity = h'.arity := by
  simp only [Half.arity, like.requireds, like.rest, like.optionals.length_eq]

theorem SignatureLike.arity_eq {δ δ' : Type} {p : δ → δ' → Prop} {s : Signature δ}
    {s' : Signature δ'} (like : SignatureLike p s s') : s.arity = s'.arity := by
  simp only [Signature.arity, like.positional.arity_eq, like.keyword.arity_eq]

theorem ArgumentsLike.peers {a a' a'' : Arguments} (left : ArgumentsLike B a a')
    (right : ArgumentsLike C a a'') : ArgumentsLike (B.peers C) a' a'' :=
  ⟨left.positionals.peers right.positionals, optionRel_peers left.spread right.spread,
    left.keywords.join (fun o _ _ cells cells' => ⟨o, cells, cells'⟩) right.keywords,
    left.dicts.peers right.dicts⟩

theorem PredefinedLike.join {p p' p'' : Predefined} (left : PredefinedLike M p p')
    (right : PredefinedLike M p p'') : PredefinedLike M p' p'' := by
  cases p <;> cases p' <;> try exact left.elim
  all_goals cases p'' <;> try exact right.elim
  · exact Eq.trans (Eq.symm left) right
  · exact ⟨left.1.symm.trans right.1, left.1 ▸ left.2⟩

mutual
theorem ExprLike.peers {n : Nat} {e e' e'' : Expr} :
    ExprLike M B n e e' → ExprLike M C n e e'' → ExprLike M (B.peers C) n e' e''
  | .literal l, .literal _ => .literal l
  | .predefined like, .predefined like' => .predefined (like.join like')
  | .cell cells, .cell cells' => .cell ⟨_, cells, cells'⟩
  | .local in_scope, .local _ => .local in_scope
  | .call f ps ks ds site, .call f' ps' ks' ds' _ =>
    .call (f.peers f') (ps.peers ps') (ks.peers ks') (ds.peers ds') site
  | .switch value cases default, .switch value' cases' default' =>
    .switch (value.peers value') (cases.peers cases') (default.peers default')

theorem PositionalsLike.peers {n : Nat} {ps ps' ps'' : List PositionalExpr} :
    PositionalsLike M B n ps ps' → PositionalsLike M C n ps ps'' →
      PositionalsLike M (B.peers C) n ps' ps''
  | .nil, .nil => .nil
  | .cons value expanded rest, .cons value' _ rest' =>
    .cons (value.peers value') expanded (rest.peers rest')

theorem KeywordsLike.peers {n : Nat} {ks ks' ks'' : List KeywordExpr} :
    KeywordsLike M B n ks ks' → KeywordsLike M C n ks ks'' →
      KeywordsLike M (B.peers C) n ks' ks''
  | .nil, .nil => .nil
  | .cons name value rest, .cons _ value' rest' =>
    .cons name (value.peers value') (rest.peers rest')

theorem CasesLike.peers {n : Nat} {cs cs' cs'' : List CaseExpr} :
    CasesLike M B n cs cs' → CasesLike M C n cs cs'' → CasesLike M (B.peers C) n cs' cs''
  | .nil, .nil => .nil
  | .cons pattern result rest, .cons _ result' rest' =>
    .cons pattern (result.peers result') (rest.peers rest')

theorem ExprsLike.peers {n : Nat} {es es' es'' : List Expr} :
    ExprsLike M B n es es' → ExprsLike M C n es es'' → ExprsLike M (B.peers C) n es' es''
  | .nil, .nil => .nil
  | .cons first rest, .cons first' rest' => .cons (first.peers first') (rest.peers rest')

theorem OptionLike.peers {n : Nat} {o o' o'' : Option Expr} :
    OptionLike M B n o o' → OptionLike M C n o o'' → OptionLike M (B.peers C) n o' o''
  | .none, .none => .none
  | .some like, .some like' => .some (like.peers like')
end

theorem BindingsLike.peers {n : Nat} {es es' es'' : List Expr} (left : BindingsLike M B n es es')
    (right : BindingsLike M C n es es'') : BindingsLike M (B.peers C) n es' es'' := by
  induction left generalizing es'' with
  | nil =>
    cases right
    exact .nil
  | cons first _ ih =>
    cases right with
    | cons first' rest' => exact .cons (first.peers first') (ih rest')

theorem BindingsLike.length_eq {n : Nat} {es es' : List Expr} (like : BindingsLike M B n es es') :
    es.length = es'.length := by
  induction like with
  | nil => rfl
  | cons _ _ ih => simp [ih]

theorem BodyLike.peers {isEffect : Bool} {n : Nat} {b b' b'' : Body}
    (left : BodyLike M B isEffect n b b') (right : BodyLike M C isEffect n b b'') :
    BodyLike M (B.peers C) isEffect n b' b'' := by
  cases left with
  | builtin permitted =>
    cases right
    exact .builtin permitted
  | code binds results =>
    cases right with
    | code binds' results' =>
      refine .code (binds.peers binds') ?_
      rw [← binds.length_eq]
      exact results.peers results'
  | parameter i =>
    cases right
    exact .parameter i
  | parameters =>
    cases right
    exact .parameters

theorem FunctionLike.peers {f f' f'' : Function} (left : FunctionLike M B f f')
    (right : FunctionLike M C f f'') : FunctionLike M (B.peers C) f' f'' := by
  obtain ⟨name, signature, body, isEffect⟩ := left
  refine ⟨name.symm.trans right.name, ?_, ?_, isEffect.symm.trans right.isEffect⟩
  · exact ⟨signature.positional.peers right.signature.positional,
      signature.keyword.peers right.signature.keyword⟩
  · rw [← isEffect, ← signature.arity_eq]
    exact body.peers right.body

theorem NativeLike.peers {f f' f'' : Native} (left : NativeLike B f f')
    (right : NativeLike C f f'') : NativeLike (B.peers C) f' f'' := by
  cases left with
  | partialCall f ps ks =>
    cases right with
    | partialCall f' ps' ks' => exact .partialCall ⟨_, f, f'⟩ ⟨_, ps, ps'⟩ ⟨_, ks, ks'⟩
  | fixedPoint f self =>
    cases right with
    | fixedPoint f' self' => exact .fixedPoint ⟨_, f, f'⟩ ⟨_, self, self'⟩

theorem ValueLike.peers (joins : M.Joins) {v v' v'' : Value} (left : ValueLike M B v v')
    (right : ValueLike M C v v'') : ValueLike M (B.peers C) v' v'' := by
  cases left with
  | bool b => cases right; exact .bool b
  | number x => cases right; exact .number x
  | string s => cases right; exact .string s
  | list lists =>
    cases right with
    | list lists' => exact .list (lists.peers lists')
  | dict dicts =>
    cases right with
    | dict dicts' =>
      exact .dict (EntriesLike.join (fun o _ _ cells cells' => ⟨o, cells, cells'⟩) dicts dicts')
  | function functions =>
    cases right with
    | function functions' => exact .function (functions.peers functions')
  | native natives =>
    cases right with
    | native natives' => exact .native (natives.peers natives')
  | error faults =>
    cases right with
    | error faults' =>
      exact .error ⟨faults.cause.symm.trans faults'.cause,
        joins _ _ _ faults.passed faults'.passed⟩
  | effect actions =>
    cases right with
    | effect actions' => exact .effect ⟨_, actions, actions'⟩

theorem BranchLike.peers {b b' b'' : Branch} (left : BranchLike M B b b')
    (right : BranchLike M C b b'') : BranchLike M (B.peers C) b' b'' := by
  have count : b.locals.length = b'.locals.length := left.locals.length_eq
  refine ⟨?_, ?_, left.locals.peers right.locals⟩
  · rw [← count]
    exact left.cases.peers right.cases
  · rw [← count]
    exact left.default.peers right.default

theorem SuspensionLike.peers {s s' s'' : Suspension} (left : SuspensionLike M B s s')
    (right : SuspensionLike M C s s'') : SuspensionLike M (B.peers C) s' s'' := by
  cases left with
  | branch branches matched =>
    cases right with
    | branch branches' matched' => exact .branch (branches.peers branches') ⟨_, matched, matched'⟩
  | concat tails rests =>
    cases right with
    | concat tails' rests' => exact .concat ⟨_, tails, tails'⟩ ⟨_, rests, rests'⟩
  | entries entries =>
    cases right with
    | entries entries' =>
      exact .entries (entries.join (fun o _ _ cells cells' => ⟨o, cells, cells'⟩) entries')
  | action hosted bodies parameters =>
    cases right with
    | action _ bodies' parameters' =>
      refine .action hosted ?_ (RefsLike.peers parameters parameters')
      rw [← parameters.length_eq]
      exact bodies.peers bodies'
  | rally hosted =>
    cases right
    exact .rally hosted
  | traced targets =>
    cases right with
    | traced targets' => exact .traced ⟨_, targets, targets'⟩

theorem WorkLike.peers {w w' w'' : Work} (left : WorkLike M B w w') (right : WorkLike M C w w'') :
    WorkLike M (B.peers C) w' w'' := by
  obtain ⟨task, site⟩ := left
  obtain ⟨task', site'⟩ := right
  refine ⟨?_, site.symm.trans site'⟩
  generalize w.task = t, w'.task = t', w''.task = t'' at task task' ⊢
  cases task with
  | call functions arguments =>
    cases task' with
    | call functions' arguments' =>
      exact .call ⟨_, functions, functions'⟩ (arguments.peers arguments')
  | resume suspensions =>
    cases task' with
    | resume suspensions' => exact .resume (suspensions.peers suspensions')

theorem StateLike.peers (joins : M.Joins) {c c' c'' : CellState} (left : StateLike M B c c')
    (right : StateLike M C c c'') : StateLike M (B.peers C) c' c'' := by
  cases left with
  | vacant strays =>
    cases right
    exact .vacant strays
  | pending works =>
    cases right with
    | pending works' => exact .pending (works.peers works')
  | forced values =>
    cases right with
    | forced values' => exact .forced (values.peers joins values')

end

/-! ### The other way round

What is alike is alike the other way round. -/

def Bond.flip (B : Bond) : Bond where
  cells := fun r r' => B.cells r' r
  actions := fun r r' => B.actions r' r

/-- Chains that compare one way compare the other way, too. -/
def Manner.Reverses (M : Manner) : Prop := ∀ l k, M.chains l k → M.chains k l

section
variable {M : Manner} {B : Bond}

theorem RefsLike.flip {rs rs' : List Ref} (like : RefsLike B rs rs') : RefsLike B.flip rs' rs :=
  List.Forall₂.flip like

theorem EntriesLike.flip {κ α β : Type} {p : α → β → Prop} {es : List (κ × α)} {es' : List (κ × β)}
    (like : EntriesLike p es es') : EntriesLike (fun b a => p a b) es' es :=
  List.Forall₂.imp (fun _ _ e => ⟨e.1.symm, e.2⟩) (List.Forall₂.flip like)

theorem optionRel_flip {o o' : Option Ref} (like : Option.Rel B.cells o o') :
    Option.Rel B.flip.cells o' o := by
  cases like with
  | some cells => exact .some cells
  | none => exact .none

theorem LazyListLike.flip {l l' : LazyList} (like : LazyListLike B l l') :
    LazyListLike B.flip l' l := by
  cases like with
  | nil => exact .nil
  | cons heads tails => exact .cons heads tails

theorem DefaultLike.flip {d d' : Default} (like : DefaultLike B d d') :
    DefaultLike B.flip d' d := by
  cases like with
  | literal l => exact .literal l
  | cell cells => exact .cell cells

theorem HalfLike.flip {h h' : Half Default} (like : HalfLike (DefaultLike B) h h') :
    HalfLike (DefaultLike B.flip) h' h :=
  ⟨like.requireds.symm, like.optionals.flip.imp fun _ _ => DefaultLike.flip, like.rest.symm⟩

theorem SignatureLike.flip {s s' : Signature Default} (like : SignatureLike (DefaultLike B) s s') :
    SignatureLike (DefaultLike B.flip) s' s :=
  ⟨like.positional.flip, like.keyword.flip⟩

theorem ArgumentsLike.flip {a a' : Arguments} (like : ArgumentsLike B a a') :
    ArgumentsLike B.flip a' a :=
  ⟨like.positionals.flip, optionRel_flip like.spread, like.keywords.flip, like.dicts.flip⟩

theorem PredefinedLike.flip {p p' : Predefined} (like : PredefinedLike M p p') :
    PredefinedLike M p' p := by
  cases p <;> cases p' <;> try exact like.elim
  · exact Eq.symm like
  · exact ⟨like.1.symm, like.1 ▸ like.2⟩

mutual
theorem ExprLike.flip {n : Nat} {e e' : Expr} : ExprLike M B n e e' → ExprLike M B.flip n e' e
  | .literal l => .literal l
  | .predefined like => .predefined like.flip
  | .cell cells => .cell cells
  | .local in_scope => .local in_scope
  | .call f ps ks ds site => .call f.flip ps.flip ks.flip ds.flip site
  | .switch value cases default => .switch value.flip cases.flip default.flip

theorem PositionalsLike.flip {n : Nat} {ps ps' : List PositionalExpr} :
    PositionalsLike M B n ps ps' → PositionalsLike M B.flip n ps' ps
  | .nil => .nil
  | .cons value expanded rest => .cons value.flip expanded rest.flip

theorem KeywordsLike.flip {n : Nat} {ks ks' : List KeywordExpr} :
    KeywordsLike M B n ks ks' → KeywordsLike M B.flip n ks' ks
  | .nil => .nil
  | .cons name value rest => .cons name value.flip rest.flip

theorem CasesLike.flip {n : Nat} {cs cs' : List CaseExpr} :
    CasesLike M B n cs cs' → CasesLike M B.flip n cs' cs
  | .nil => .nil
  | .cons pattern result rest => .cons pattern result.flip rest.flip

theorem ExprsLike.flip {n : Nat} {es es' : List Expr} :
    ExprsLike M B n es es' → ExprsLike M B.flip n es' es
  | .nil => .nil
  | .cons first rest => .cons first.flip rest.flip

theorem OptionLike.flip {n : Nat} {o o' : Option Expr} :
    OptionLike M B n o o' → OptionLike M B.flip n o' o
  | .none => .none
  | .some like => .some like.flip
end

theorem BindingsLike.flip {n : Nat} {es es' : List Expr} (like : BindingsLike M B n es es') :
    BindingsLike M B.flip n es' es := by
  induction like with
  | nil => exact .nil
  | cons first _ ih => exact .cons first.flip ih

theorem BodyLike.flip {isEffect : Bool} {n : Nat} {b b' : Body}
    (like : BodyLike M B isEffect n b b') : BodyLike M B.flip isEffect n b' b := by
  cases like with
  | builtin permitted => exact .builtin permitted
  | code binds results => exact .code binds.flip (binds.length_eq ▸ results.flip)
  | parameter i => exact .parameter i
  | parameters => exact .parameters

theorem FunctionLike.flip {f f' : Function} (like : FunctionLike M B f f') :
    FunctionLike M B.flip f' f := by
  obtain ⟨name, signature, body, isEffect⟩ := like
  refine ⟨name.symm, signature.flip, ?_, isEffect.symm⟩
  rw [← isEffect, ← signature.arity_eq]
  exact body.flip

theorem NativeLike.flip {f f' : Native} (like : NativeLike B f f') : NativeLike B.flip f' f := by
  cases like with
  | partialCall f ps ks => exact .partialCall f ps ks
  | fixedPoint f self => exact .fixedPoint f self

theorem ValueLike.flip (reverses : M.Reverses) {v v' : Value} (like : ValueLike M B v v') :
    ValueLike M B.flip v' v := by
  cases like with
  | bool b => exact .bool b
  | number x => exact .number x
  | string s => exact .string s
  | list lists => exact .list lists.flip
  | dict dicts => exact .dict (EntriesLike.flip dicts)
  | function functions => exact .function functions.flip
  | native natives => exact .native natives.flip
  | error faults => exact .error ⟨faults.cause.symm, reverses _ _ faults.passed⟩
  | effect actions => exact .effect actions

theorem BranchLike.flip {b b' : Branch} (like : BranchLike M B b b') :
    BranchLike M B.flip b' b := by
  have count : b.locals.length = b'.locals.length := like.locals.length_eq
  exact ⟨count ▸ like.cases.flip, count ▸ like.default.flip, like.locals.flip⟩

theorem SuspensionLike.flip {s s' : Suspension} (like : SuspensionLike M B s s') :
    SuspensionLike M B.flip s' s := by
  cases like with
  | branch branches matched => exact .branch branches.flip matched
  | concat tails rests => exact .concat tails rests
  | entries entries => exact .entries entries.flip
  | action hosted bodies parameters =>
    exact .action hosted (parameters.length_eq ▸ bodies.flip) parameters.flip
  | rally hosted => exact .rally hosted
  | traced targets => exact .traced targets

theorem TaskLike.flip {t t' : Task} (like : TaskLike M B t t') : TaskLike M B.flip t' t := by
  cases like with
  | call functions arguments => exact .call functions arguments.flip
  | resume suspensions => exact .resume suspensions.flip

theorem WorkLike.flip {w w' : Work} (like : WorkLike M B w w') : WorkLike M B.flip w' w :=
  ⟨like.task.flip, like.site.symm⟩

theorem StateLike.flip (reverses : M.Reverses) {c c' : CellState} (like : StateLike M B c c') :
    StateLike M B.flip c' c := by
  cases like with
  | vacant strays => exact .vacant strays
  | pending works => exact .pending works.flip
  | forced values => exact .forced (values.flip reverses)

end
end CallByNeed
