import CallByNeed.Proofs.Performing.Supply
import CallByNeed.Proofs.Performing.Turns

/- Effects in sequence. Who performs a call of `effectSeq` performs its arguments in order, up to the
   first that fails, and each of them once: what has been performed changes nothing any more. The
   next cell of a spread list is forced between two of them, and nothing else is done. -/
namespace CallByNeed

/-- The cell holds a sequence of effects that has not been performed. -/
structure Heap.Poised (h : Heap) (t a first rest : Ref) : Prop where
  yields : h.Yields t (.effect a)
  waits : h.state? a =
    some (.pending { task := .resume (.action (.builtin .effectSeq) [first, rest]) })

/-- What performing a call of `effectSeq` does. To observe the call is to make its effect, and then
    only its arguments have been looked at. -/
structure Engine.PerformsInTurn (E : Engine) (s : Store) (t : Ref) (arguments : Arguments) : Prop where
  /-- The arguments are performed in order, up to the first fault or to the end of their list, and
      what has come of the last one is the answer. Each of them has been performed by then. -/
  inTurn : ∀ w v s' w', (perform t).Leaves E s w (.ok v) s' w' → ¬ arguments.Shows s'.heap .nil →
    (∀ rs e, ¬ arguments.Shows s'.heap ((Extent.ofList rs).append (.failed e))) →
    ∃ e s₁ w₁ a first rest rs l s₂ x, (observe t).Leaves E s w (.ok (.error e)) s₁ w₁ ∧ w.Intact w₁ ∧
      s₁.heap.Poised t a first rest ∧ E.Performs first rest s₁ w₁ rs l v s₂ w' ∧
      s' = s₂.publish a v ∧ arguments.Shows s'.heap x ∧ ((Extent.ofList rs).append l.begun).Within x ∧
      ∀ q ∈ rs, ∃ u, ∀ (s'' : Store) world, s'.heap.Before s''.heap →
        (perform q).Leaves E s'' world (.ok u) s'' world
  /-- If the arguments can be performed, so can the call. -/
  comes : ∀ w u s₁ w₁ a first rest rs l v s₂ w', (observe t).Leaves E s w (.ok u) s₁ w₁ →
    s₁.heap.Poised t a first rest → E.Performs first rest s₁ w₁ rs l v s₂ w' →
    rs.length ≤ E.bound → (perform t).Leaves E s w (.ok v) (s₂.publish a v) w'
  /-- If none is spread, this is what performing them one after the other does. -/
  plainly : ∀ first others, arguments.positionals = first :: others → arguments.spread = none →
    others.length < E.bound → ∃ s₁ a, s.Keeps s₁ t ∧
      (∀ w, ∃ e, (observe t).Leaves E s w (.ok (.error e)) s₁ w) ∧
      ∀ w v s' w', (perform t).Leaves E s w (.ok v) s' w' ↔ ∃ s₂,
        (performEach first others).Leaves E s₁ w (.ok v) s₂ w' ∧ s' = s₂.publish a v
  /-- Whoever performs the call once more is answered the same and changes nothing. -/
  again : ∀ w v s' w', (perform t).Leaves E s w (.ok v) s' w' → ∀ (s'' : Store) world,
    s'.heap.Before s''.heap → (perform t).Leaves E s'' world (.ok v) s'' world

/-! ### The body of the effect -/

/-- A fault is passed on. -/
def Value.pass : Value → Script Unit
  | .error e => .raise e
  | _ => pure ()

theorem Value.pass_of_sound (v : Value) (sound : ∀ e, v ≠ .error e) : v.pass = pure () := by
  cases v with
  | error e => exact absurd rfl (sound e)
  | _ => rfl

/-- The result of the last effect that is performed. -/
def lastResult (bound : Nat) (first rest : Ref) : Script Value := do
  let result ← perform first
  (← forceList rest).trail Value.pass perform bound result

theorem Task.script_sequence (bound : Nat) (first rest : Ref) :
    (Task.resume (.action (.builtin .effectSeq) [first, rest])).script bound =
      lastResult bound first rest >>= answer := by
  have body : (Task.resume (.action (.builtin .effectSeq) [first, rest])).script bound =
      Builtin.effectsInSequence bound first rest := rfl
  simp only [body, Builtin.effectsInSequence, lastResult, bind_assoc]
  rfl

section
variable {E : Engine} {G : Ken} {r t a first rest : Ref} {rs : List Ref} {l : LazyList} {v u : Value}
variable {s s₁ s' : Store} {w w₁ w' : World} {o : Except Fault Value}

theorem Heap.Replies.plain {h : Heap} {how : Demand} (replies : h.Replies how r v) (action : Ref) :
    v ≠ .effect action := by
  induction replies with
  | @resume how _ u v _ reply => cases how <;> cases u <;> cases reply <;> nofun
  | perform _ _ _ ih => exact ih

theorem LazyList.plain_of_trail {n : Nat} (plain : ∀ action, u ≠ .effect action)
    (leaves : (l.trail Value.pass perform n u).Leaves E s w (.ok v) s' w') (action : Ref) :
    v ≠ .effect action := by
  induction n generalizing l u s w with
  | zero => exact absurd leaves Script.not_leaves_stall
  | succ n ih =>
    cases l with
    | nil =>
      obtain ⟨rfl, -, -⟩ := Script.of_leaves_pure leaves
      exact plain action
    | cons head tail =>
      by_cases faulty : ∃ e, u = .error e
      · obtain ⟨e, rfl⟩ := faulty
        rw [trail_of_fault fun _ => rfl] at leaves
        exact absurd leaves Script.not_leaves_raise
      · obtain ⟨u', s₁, w₁, x, s₂, w₂, performs, -, rest⟩ :=
          (leaves_trail_iff Value.pass_of_sound fun e same => faulty ⟨e, same⟩).1 leaves
        cases x with
        | ok l => exact ih performs.before_perform.2.plain rest
        | error e =>
          obtain ⟨_, _, _, _, raised⟩ := Script.of_leaves_bind rest
          exact absurd raised Script.not_leaves_raise

theorem isReader_lastResult (bound : Nat) (first rest : Ref) :
    (lastResult bound first rest).IsReader :=
  (Script.isReader_perform first).bind fun u => (Script.isReader_forceList rest).bind fun l =>
    LazyList.isReader_trail (fun _ => rfl) Value.pass_of_sound bound l u

theorem plain_of_lastResult {bound : Nat}
    (leaves : (lastResult bound first rest).Leaves E s w (.ok v) s' w') (action : Ref) :
    v ≠ .effect action := by
  obtain ⟨u, s₁, w₁, performs, leaves⟩ := Script.of_leaves_bind leaves
  obtain ⟨l, s₂, w₂, -, trail⟩ := Script.of_leaves_bind leaves
  exact LazyList.plain_of_trail performs.before_perform.2.plain trail action

/-- The body of the effect performs cells in turn, if no tail of their list fails. -/
theorem Engine.performs_of_lastResult {bound : Nat} (sealed : s.Sealed G) (known : first ∈ G.cells)
    (behind : rest ∈ G.cells)
    (whole : ∀ rs e visited, ¬ s'.heap.Shows rest ((Extent.ofList rs).append (.failed e)) visited)
    (leaves : (lastResult bound first rest).Leaves E s w o s' w') :
    ∃ rs l, E.Performs first rest s w rs l (Value.ofResult o) s' w' := by
  rcases Script.leaves_bind_iff.1 leaves with ⟨u, s₁, w₁, performs, leaves⟩ | ⟨e, faulty, -⟩
  · rcases Script.leaves_bind_iff.1 leaves with ⟨l, s₂, w₂, fetches, trail⟩ | ⟨e, faulty, -⟩
    · obtain ⟨K, grows, sealed₁⟩ := performs.sealed_perform sealed known
      obtain ⟨reads, L, wider, sealed₂, cells⟩ :=
        fetches.sealed_forceList sealed₁ (grows.1 behind)
      refine Engine.Performs.of_fetch performs fetches reads
        (LazyList.performs_of_trail (fun _ => rfl) Value.pass_of_sound sealed₂ cells ?_ trail)
      rintro next others rfl rs e visited shows
      have later :=
        ((LazyList.isReader_trail (fun _ => rfl) Value.pass_of_sound bound _ u).reads_of_leaves
          trail).1
      exact whole (next :: rs) e _ (.cons (fetches.before_forceList.2.mono later) shows)
    · exact absurd (.failed faulty.before_forceList.2) (whole [] e _)
  · exact absurd faulty Script.not_leaves_perform_error

theorem Engine.Performs.lastResult {bound : Nat}
    (performs : E.Performs first rest s w rs l v s' w') (enough : rs.length ≤ bound) :
    ∃ o, (lastResult bound first rest).Leaves E s w o s' w' ∧ Value.ofResult o = v := by
  obtain ⟨u, s₁, w₁, x, s₂, w₂, o, first, fetches, trail, same⟩ :=
    LazyList.trail_of_performs (fun _ => rfl) Value.pass_of_sound performs enough
  exact ⟨o, first.bind (fetches.bind trail), same⟩

/-! ### The cell of the effect -/

theorem Script.leaves_answer_iff {m : Script Value} {x : Except Fault Outcome} :
    (m >>= answer).Leaves E s w x s' w' ↔ ∃ o, m.Leaves E s w o s' w' ∧ x = o.map .value := by
  rw [leaves_bind_iff]
  constructor
  · rintro (⟨v, s₁, w₁, leaves, answered⟩ | ⟨e, leaves, rfl⟩)
    · obtain ⟨rfl, rfl, rfl⟩ := leaves_pure_iff.1 answered
      exact ⟨.ok v, leaves, rfl⟩
    · exact ⟨.error e, leaves, rfl⟩
  · rintro ⟨v | e, leaves, rfl⟩
    · exact .inr ⟨_, leaves, rfl⟩
    · exact .inl ⟨_, _, _, leaves, leaves_pure⟩

/-- Who demands a cell is given what its body has come to. -/
theorem Runner.leaves_within_ended_iff {cell r : Ref} {x : Except Fault Value}
    (plain : ∀ action, Value.ofResult o ≠ .effect action) :
    ((Runner.ready (Script.ended (o.map .value))).within cell none .pure r .done).Leaves E s w x s' w' ↔
      x = .ok (Value.ofResult o) ∧ s' = s.publish cell (Value.ofResult o) ∧ w' = w := by
  have given {v : Value} (plain : ∀ action, v ≠ .effect action) :
      (Runner.forcing .pure r .done (.give (v.through? none)) []).Leaves E
        { s with heap := s.heap.publish cell (v.through? none) } w x s' w' ↔
      x = .ok v ∧ s' = s.publish cell v ∧ w' = w := by
    rw [Value.through?_none]
    refine (Runner.Advance.resume (v := v) ?_).leaves_iff.trans Script.leaves_pure_iff
    cases v <;> first | rfl | exact absurd rfl (plain _)
  cases o with
  | ok v => exact (Runner.Advance.engine .value).leaves_iff.trans (given plain)
  | error e => exact (Runner.Advance.engine .fault).leaves_iff.trans (given (v := .error e) nofun)

/-- To perform what holds an effect is to run the action of the effect. -/
theorem Heap.Yields.leaves_perform_iff (yields : s.heap.Yields t (.effect a)) :
    (perform t).Leaves E s w o s' w' ↔ (observe a).Leaves E s w o s' w' := by
  have demands {how : Demand} {q : Ref} : (Script.demand how q .done).Leaves E s w o s' w' ↔
      (Runner.forcing how q .done (.enter q) []).Leaves E s w o s' w' :=
    Runner.Advance.demand.leaves_iff
  have performs : (Runner.forcing .effect t .done (.give (.effect a)) []).Leaves E s w o s' w' ↔
      (Runner.forcing .pure a .done (.enter a) []).Leaves E s w o s' w' :=
    (Runner.Advance.perform rfl).leaves_iff
  have moves := (Runner.returns_of_yields yields (E := E)).moves []
  exact demands.trans ((Runner.leaves_iff_of_moves moves).trans (performs.trans demands.symm))

/-- The body of the effect only demands, so it can be run beside its cell. -/
theorem isReader_sequence (bound : Nat) (first rest : Ref) :
    (lastResult bound first rest >>= answer).IsReader :=
  (isReader_lastResult bound first rest).bind fun _ => .pure _

theorem Heap.Poised.still (poised : s.heap.Poised t a first rest)
    (result : (lastResult E.bound first rest).Leaves E s w o s' w') :
    s'.heap.state? a =
      some (.pending { task := .resume (.action (.builtin .effectSeq) [first, rest]) }) := by
  have beside := Script.leaves_answer_iff.2 ⟨o, result, rfl⟩
  exact ((isReader_sequence E.bound first rest).leaves_begun
    (Task.script_sequence E.bound first rest) poised.waits beside).1

theorem Store.publish_start (s : Store) (a : Ref) (v : Value) :
    (s.start a).publish a v = s.publish a v := by
  simp only [Store.publish, Store.start, Heap.publish, Heap.setState_setState]

/-- To perform a sequence is to perform its cells in turn, and to keep the result. -/
theorem Heap.Poised.leaves_perform_iff (poised : s.heap.Poised t a first rest) :
    (perform t).Leaves E s w (.ok v) s' w' ↔ ∃ o s₂,
      (lastResult E.bound first rest).Leaves E s w o s₂ w' ∧ v = Value.ofResult o ∧
        s' = s₂.publish a v := by
  have reader := isReader_sequence E.bound first rest
  have body := Task.script_sequence E.bound first rest
  have plain {o : Except Fault Value} {s₂ : Store} {w₂ : World}
      (result : (lastResult E.bound first rest).Leaves E s w o s₂ w₂) (action : Ref) :
      Value.ofResult o ≠ .effect action := by
    cases o with
    | ok v => exact plain_of_lastResult result action
    | error e => nofun
  rw [poised.yields.leaves_perform_iff]
  constructor
  · intro leaves
    obtain ⟨x, s₁, w₁, ran, within⟩ := (Runner.Leaves.after leaves .demand).of_pending poised.waits
    rw [body] at ran
    obtain ⟨s₂, beside, -, rfl⟩ := (reader.leaves_start_iff body poised.waits).1 ran
    obtain ⟨o, result, rfl⟩ := Script.leaves_answer_iff.1 beside
    obtain ⟨same, rfl, rfl⟩ := (Runner.leaves_within_ended_iff (plain result)).1 within
    cases same
    exact ⟨o, s₂, result, rfl, s₂.publish_start a _⟩
  · rintro ⟨o, s₂, result, rfl, rfl⟩
    have beside := Script.leaves_answer_iff.2 ⟨o, result, rfl⟩
    have ran := (reader.leaves_start_iff body poised.waits).2 ⟨s₂, beside, poised.still result, rfl⟩
    refine (Runner.leaves_demand_iff_of_pending poised.waits (body ▸ ran)).2 ?_
    exact (Runner.leaves_within_ended_iff (plain result)).2 ⟨rfl, (s₂.publish_start a _).symm, rfl⟩

/-! ### The call -/

variable {f : Ref} {arguments : Arguments} {site : Option Location} {others : List Ref}
variable {spread : Option Ref}

/-- To observe a call that makes an effect is to find the effect. -/
theorem Runner.leaves_observe_call
    (call : s.heap.state? t = some (.pending { task := .call f arguments, site }))
    (body : ((Task.call f arguments).script E.bound).Leaves E (s.start t) w (.ok (.value (.effect a)))
      s₁ w₁) : ∃ e, (observe t).Leaves E s w (.ok (.error e)) (s₁.publish t (.effect a)) w₁ := by
  refine ⟨({ cause := .impure } : Fault).through? ((s₁.publish t (.effect a)).heap.site? t),
    (Runner.leaves_demand_iff_of_pending call body).2 ?_⟩
  exact .of_advance (.engine .value) (.of_advance (.resume rfl) Script.leaves_pure)

/-- To perform a call that makes an effect is to observe it first. -/
theorem Runner.leaves_perform_call_iff
    (call : s.heap.state? t = some (.pending { task := .call f arguments, site }))
    (body : ((Task.call f arguments).script E.bound).Leaves E (s.start t) w (.ok (.value (.effect a)))
      s₁ w₁) (busy : s₁.heap.state? t = some .forcing) :
    (perform t).Leaves E s w o s' w' ↔
      (perform t).Leaves E (s₁.publish t (.effect a)) w₁ o s' w' := by
  have known : (s₁.publish t (.effect a)).heap.Yields t (.effect a) :=
    ⟨t, .refl, Heap.state?_setState_self busy _⟩
  refine (Runner.leaves_demand_iff_of_pending call body).trans ?_
  rw [known.leaves_perform_iff]
  refine (Runner.Advance.engine .value).leaves_iff.trans ?_
  refine (Runner.Advance.perform rfl).leaves_iff.trans ?_
  exact Runner.Advance.demand.leaves_iff.symm

/-- A call of `effectSeq` has made its effect: nothing else has been done yet. -/
structure Heap.Sequence (h : Heap) (G : Ken) (arguments : Arguments) (t a first rest : Ref) :
    Prop where
  poised : h.Poised t a first rest
  first_known : first ∈ G.cells
  rest_known : rest ∈ G.cells
  supplied : ∃ others spread, h.Supplied others spread rest ∧ ∀ h' x, h.Before h' →
    Arguments.Shows h' { positionals := others, spread } x → arguments.Shows h' (.cons first x)

/-- Whoever runs the call makes the effect, if there is any argument. -/
theorem Store.Sealed.sequence (sealed : s.Sealed G) (known : t ∈ G.cells)
    (call : s.heap.state? t = some (.pending { task := .call f arguments, site }))
    (function : s.heap.Yields f (.function Builtin.effectSeq.function))
    (bare : arguments.keywords = [] ∧ arguments.dicts = []) {x : Except Fault Outcome}
    (body : ((Task.call f arguments).script E.bound).Leaves E (s.start t) w x s₁ w₁) :
    w.Intact w₁ ∧ s₁.heap.state? t = some .forcing ∧
    ((∃ e, x = .error e) ∧ (arguments.Shows s₁.heap .nil ∨ ∃ e, arguments.Shows s₁.heap (.failed e)) ∨
    ∃ a first rest K, x = .ok (.value (.effect a)) ∧ (s₁.publish t (.effect a)).Sealed K ∧
      (s₁.publish t (.effect a)).heap.Sequence K arguments t a first rest) := by
  obtain ⟨intact, busy, ⟨e, rfl, binds⟩ | ⟨cells, s₂, a, K, binds, rfl, larger, told, shown, waits⟩⟩ :=
    sealed.defers rfl known call function body
  · rcases Signature.of_leaves_plain bare.1 bare.2 binds with ⟨_, none⟩ | ⟨_, _, _, _, same, _⟩
    · exact ⟨intact, busy, .inl ⟨⟨e, rfl⟩, none⟩⟩
    · cases same
  · rcases Signature.of_leaves_plain bare.1 bare.2 binds with
      ⟨⟨_, same⟩, _⟩ | ⟨first, rest, others, spread, same, supplied, link⟩
    · cases same
    · cases same
      have parameters := told.parameters_of_pending shown waits
      have before := Heap.before_publish busy (.effect a)
      refine ⟨intact, busy, .inr ⟨a, first, rest, K, rfl, told, ⟨?_, waits⟩, parameters _ (by simp),
        parameters _ (by simp), others, spread, supplied.later fun q c other known => ?_, ?_⟩⟩
      · exact ⟨t, .refl, Heap.state?_setState_self busy _⟩
      · have there := larger.extends' q c known
        refine (Heap.state?_setState_ne ?_ _).trans there
        rintro rfl
        rw [busy] at there
        cases there
        exact other rfl
      · exact fun h' x later => link h' x ((larger.before.trans before).trans later)

theorem Heap.before_publish_pending {work : Work} (waits : s.heap.state? a = some (.pending work))
    (v : Value) : s.heap.Before (s.publish a v).heap := by
  have started : s.heap.Before (s.start a).heap := Heap.before_setState waits (.start _)
  rw [← s.publish_start a v]
  exact started.trans (Heap.before_publish (Heap.state?_setState_self waits _) v)

/-- Whoever performs the sequence performs its cells in turn. -/
theorem Heap.Sequence.inTurn (sequence : s.heap.Sequence G arguments t a first rest)
    (sealed : s.Sealed G)
    (whole : ∀ rs e, ¬ arguments.Shows s'.heap ((Extent.ofList rs).append (.failed e)))
    (leaves : (perform t).Leaves E s w (.ok v) s' w') :
    ∃ rs l s₂ x, E.Performs first rest s w rs l v s₂ w' ∧ s' = s₂.publish a v ∧
      s₂.heap.Before s'.heap ∧ arguments.Shows s'.heap x ∧
      ((Extent.ofList rs).append l.begun).Within x := by
  obtain ⟨o, s₂, result, rfl, rfl⟩ := sequence.poised.leaves_perform_iff.1 leaves
  have later := Heap.before_publish_pending (sequence.poised.still result) (Value.ofResult o)
  obtain ⟨others, spread, supplied, link⟩ := sequence.supplied
  have since := ((isReader_lastResult _ _ _).reads_of_leaves result).1
  obtain ⟨g, extends', kept⟩ := result.recounts
  have supplied := supplied.later fun q c _ known => extends' q c known
  -- What is seen of the list of the others is known of the arguments.
  have seen {x : Extent Ref} {visited : List Ref} (shows : s₂.heap.Shows rest x visited) :
      ∃ y, arguments.Shows (s₂.publish a (Value.ofResult o)).heap (.cons first y) ∧ x.Within y := by
    obtain ⟨y, known, within⟩ := supplied.shows kept shows
    exact ⟨y, (link _ _ since known).mono later, within⟩
  obtain ⟨rs, l, performs⟩ := Engine.performs_of_lastResult sealed sequence.first_known
    sequence.rest_known (fun rs e visited shows => by
      obtain ⟨y, known, within⟩ := seen shows
      rw [Extent.eq_of_failed_within within] at known
      exact whole (first :: rs) e known) result
  obtain ⟨more, visited, rfl, shows⟩ := performs.shows
  obtain ⟨y, known, within⟩ := seen shows
  exact ⟨_, l, s₂, _, performs, rfl, later, known, .cons within⟩

theorem Heap.Sequence.performs_of_plain (sequence : s.heap.Sequence G arguments t a first rest)
    (sealed : s.Sealed G) (plain : arguments.spread = none)
    (known : s.heap.state? rest = some (.forced (.list l))) (whole : s.heap.Whole l others)
    (enough : others.length < E.bound) : (perform t).Leaves E s w (.ok v) s' w' ↔ ∃ s₂,
      (performEach first others).Leaves E s w (.ok v) s₂ w' ∧ s' = s₂.publish a v := by
  constructor
  · intro leaves
    have finite : ∀ rs e, ¬ arguments.Shows s'.heap ((Extent.ofList rs).append (.failed e)) := by
      intro rs e shows
      rw [Arguments.Shows, plain] at shows
      exact Extent.failed_ne_ofList _ _ _ shows
    obtain ⟨rs, l', s₂, x, performs, same, -⟩ := sequence.inTurn sealed finite leaves
    exact ⟨s₂, performs.each known whole, same⟩
  · rintro ⟨s₂, each, rfl⟩
    obtain ⟨rs, l', fewer, performs⟩ := Engine.performs_of_each each known whole
    obtain ⟨o, result, rfl⟩ := performs.lastResult (fewer.trans (Nat.succ_le_of_lt enough))
    exact sequence.poised.leaves_perform_iff.2 ⟨o, s₂, result, rfl, rfl⟩

/-- A call whose arguments are explicit makes its effect, whatever these are. -/
theorem Task.comes_sequence (E : Engine)
    (function : s.heap.Yields f (.function Builtin.effectSeq.function)) (first : Ref)
    (others : List Ref) : ∃ a rest l s₁,
      ((Task.call f { positionals := first :: others }).script E.bound).Comes E s
        (.ok (.value (.effect a))) s₁ ∧ s.heap.Enlarges s₁.heap ∧
      s₁.heap.state? a =
        some (.pending { task := .resume (.action (.builtin .effectSeq) [first, rest]) }) ∧
      s₁.heap.state? rest = some (.forced (.list l)) ∧ s₁.heap.Whole l others := by
  have callee : (force f).Comes E s (.ok (.function Builtin.effectSeq.function)) s :=
    .demand (Runner.returns_of_yields function) rfl .done
  obtain ⟨rest, u, binds, larger, supplied⟩ :=
    Signature.comes_plain E s "effect" "effects" first others none
  obtain ⟨a, s₁, made, more, waits⟩ :=
    Script.comes_alloc E u (.ofSuspension (.action (.builtin .effectSeq) [first, rest]))
  cases supplied with
  | @known _ l known whole =>
    refine ⟨a, rest, l, s₁, callee.bind (binds.bind (made.bind .done)), larger.trans more, waits, ?_⟩
    exact ⟨more.extends' _ _ known, whole.mono more.extends'⟩

/-- Performing a call of `effectSeq` performs its arguments in turn, up to the first that fails: each
    of them once, and nothing else. -/
theorem effects_are_performed_in_turn (sealed : s.Sealed G) (known : t ∈ G.cells)
    (call : s.heap.state? t = some (.pending { task := .call f arguments, site }))
    (function : s.heap.Yields f (.function Builtin.effectSeq.function))
    (bare : arguments.keywords = [] ∧ arguments.dicts = []) :
    E.PerformsInTurn s t arguments where
  inTurn w v s' w' leaves some_left finite := by
    obtain ⟨x, s₁, w₁, body, within⟩ := (Runner.Leaves.after leaves .demand).of_pending call
    obtain ⟨intact, busy, ⟨⟨e, rfl⟩, none⟩ | ⟨a, first, rest, K, rfl, told, sequence⟩⟩ :=
      sealed.sequence known call function bare body
    · obtain ⟨-, rfl, -⟩ := Script.leaves_pure_iff.1 (Runner.Leaves.of_within_raise within)
      have later := Heap.before_publish busy (.error (e.through? site))
      rcases none with none | ⟨e, none⟩
      · exact absurd (none.mono later) some_left
      · exact absurd (none.mono later) (finite [] e)
    · obtain ⟨e, observed⟩ := Runner.leaves_observe_call call body
      have performed := (Runner.leaves_perform_call_iff call body busy).1 leaves
      obtain ⟨rs, l, s₂, x, performs, same, later, shows, within⟩ :=
        sequence.inTurn told finite performed
      refine ⟨e, _, w₁, a, first, rest, rs, l, s₂, x, observed, intact, sequence.poised, performs,
        same, shows, within, fun q mem => ?_⟩
      obtain ⟨u, again⟩ := performs.again q mem
      exact ⟨u, fun s'' world since => again s'' world (later.trans since)⟩
  comes w u s₁ w₁ a first rest rs l v s₂ w' observed poised performs enough := by
    obtain ⟨x, s₃, w₃, body, within⟩ := (Runner.Leaves.after observed .demand).of_pending call
    obtain ⟨-, busy, ⟨⟨e, rfl⟩, -⟩ | ⟨a', _, _, K, rfl, told, sequence⟩⟩ :=
      sealed.sequence known call function bare body
    · obtain ⟨-, rfl, -⟩ := Script.leaves_pure_iff.1 (Runner.Leaves.of_within_raise within)
      have yields : Heap.Yields (s₃.heap.publish t (.error (e.through? site))) t _ :=
        ⟨t, .refl, Heap.state?_setState_self busy _⟩
      cases Heap.yields_unique yields poised.yields
    · obtain ⟨e, observed'⟩ := Runner.leaves_observe_call call body
      obtain ⟨-, rfl, rfl⟩ := Runner.Leaves.unique observed' observed
      obtain ⟨o, result, rfl⟩ := performs.lastResult enough
      refine (Runner.leaves_perform_call_iff call body busy).2 ?_
      exact poised.leaves_perform_iff.2 ⟨o, s₂, result, rfl, rfl⟩
  plainly first others explicit plain enough := by
    obtain ⟨positionals, spread, keywords, dicts⟩ := arguments
    cases explicit
    cases plain
    obtain ⟨rfl, rfl⟩ := bare
    have started : (s.start t).heap.Yields f (.function Builtin.effectSeq.function) :=
      (Store.keeps_start call).before.yields function
    obtain ⟨a, rest, l, s₁, comes, larger, waits, rest_known, whole⟩ :=
      Task.comes_sequence E started first others
    have body (w : World) :
        ((Task.call f { positionals := first :: others }).script E.bound).Leaves E (s.start t) w
          (.ok (.value (.effect a))) s₁ w := comes.leaves
    have busy : s₁.heap.state? t = some .forcing :=
      larger.extends' _ _ (Heap.state?_setState_self call _)
    have keeps := (Store.keeps_start call).trans
      ((larger.keeps t).trans (Store.keeps_publish busy (.effect a)))
    have later := Heap.before_publish busy (.effect a)
    refine ⟨_, a, keeps, fun w => Runner.leaves_observe_call call (body w), fun w v s' w' => ?_⟩
    obtain ⟨-, -, ⟨⟨_, same⟩, _⟩ | ⟨a', first', rest', K, same, told, sequence⟩⟩ :=
      sealed.sequence known call function ⟨rfl, rfl⟩ (body w)
    · cases same
    · cases same
      cases sequence.poised.waits.symm.trans
        ((Heap.state?_setState_ne (by rintro rfl; rw [busy] at waits; cases waits) _).trans waits)
      exact (Runner.leaves_perform_call_iff call (body w) busy).trans
        (sequence.performs_of_plain told rfl (later.forced rest_known) (whole.before later) enough)
  again w v s' w' leaves s'' world later := leaves.perform_again later world

end

def writing (text : String) : Node :=
  .call (.global "write") [⟨.literal (.string text), false⟩] [] [] none

/-- The third of four is no effect. All but the first are spread. -/
def steps : Program where
  outputs := [{
    value := .call (.global "effectSeq") [⟨writing "one", false⟩,
      ⟨.call (.global "list") [⟨writing "two", false⟩, ⟨.literal (.number .one), false⟩,
        ⟨writing "four", false⟩] [] [] none, true⟩] [] [] none }]

set_option maxRecDepth 4000 in
/-- The first two have been written, once. -/
theorem effects_are_performed_in_turn_of_steps : ∃ m h r v t w', steps.load {} = .ok (m, h) ∧
    m.outputs.map Output.cell = [r] ∧ ({ heap := h } : Store).Sealed h.ken ∧
    v = .error { cause := .notEffect .number } ∧
    (perform r).Leaves { bound := 4 } { heap := h } {} (.ok v) t w' ∧
    w'.stdout = "one\ntwo\n" ∧ (∀ w, (perform r).Leaves { bound := 4 } t w (.ok v) t w) ∧
    ∃ s₁ w₁ first rest rs l s₂,
      Engine.Performs { bound := 4 } first rest s₁ w₁ rs l v s₂ w' ∧ ({} : World).Intact w₁ := by
  have loads : ∃ m h, steps.load {} = .ok (m, h) := ⟨_, _, rfl⟩
  obtain ⟨m, h, loads⟩ := loads
  obtain ⟨r, t, w', f, arguments, site, list, l, rs, output, known, call, function, bare, leaves,
    texts, spread, explicit, listed, whole⟩ : ∃ r t w' f arguments site list l rs,
      m.outputs.map Output.cell = [r] ∧ r ∈ h.ken.cells ∧
      h.state? r = some (.pending { task := .call f arguments, site }) ∧
      h.Yields f (.function Builtin.effectSeq.function) ∧
      (arguments.keywords = [] ∧ arguments.dicts = []) ∧
      (perform r).Leaves { bound := 4 } { heap := h } {}
        (.ok (.error { cause := .notEffect .number })) t w' ∧
      w'.stdout = "one\ntwo\n" ∧ arguments.spread = some list ∧ arguments.positionals ≠ [] ∧
      t.heap.Listed list (.ok l) ∧ t.heap.Whole l rs := by
    cases loads
    exact ⟨_, _, _, _, _, _, _, _, _, rfl, ⟨_, rfl⟩, rfl, ⟨_, .refl, rfl⟩, ⟨rfl, rfl⟩, ⟨200, rfl⟩,
      rfl, rfl, nofun, ⟨_, .resume ⟨_, .refl, rfl⟩ rfl, rfl⟩, .cons rfl (.cons rfl (.cons rfl .nil))⟩
  have sealed := Program.sealed_of_load loads
  have turns := effects_are_performed_in_turn (E := { bound := 4 }) sealed known call function bare
  have some_left : ¬ arguments.Shows t.heap .nil := by
    rw [Arguments.Shows, spread]
    rintro ⟨y, -, -, same⟩
    cases positionals : arguments.positionals with
    | nil => exact explicit positionals
    | cons => rw [positionals] at same; cases same
  have finite (rs : List Ref) (e : Fault) :
      ¬ arguments.Shows t.heap ((Extent.ofList rs).append (.failed e)) := fun fails =>
    Extent.failed_ne_ofList _ _ _
      (Extent.eq_of_failed_within (fails.within spread listed whole)).symm
  obtain ⟨e, s₁, w₁, a, first, rest, rs, l, s₂, x, observed, intact, poised, performs, -⟩ :=
    turns.inTurn _ _ _ _ leaves some_left finite
  exact ⟨m, h, r, _, t, w', loads, output, sealed, rfl, leaves, texts,
    fun w => turns.again _ _ _ _ leaves t w t.heap.before_refl, s₁, w₁, first, rest, rs, l, s₂,
    performs, intact⟩

end CallByNeed
