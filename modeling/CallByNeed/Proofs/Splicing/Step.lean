import CallByNeed.Proofs.Engine.Runs
import CallByNeed.Proofs.Splicing.Match

/- Matching engines make matching moves. One move of a side may take several of the other: on the
   left a lent cell is one redirect further away, on the right a value passes through all cells that
   waited for it. -/
namespace CallByNeed
open Relation (ReflTransGen TransGen)

def MachineMatch (M : Manner) (apart : Prop) (x y : Control × List Frame × Store) : Prop :=
  ∃ loans, ControlLike M apart loans x.1 x.2.1 y.1 y.2.1 ∧ StoreMatch M loans x.2.2 y.2.2

section
variable {M : Manner} {E E' : Engine} {loans : Loans} {s s' : Store}

theorem StoreMatch.with_heap {more : Loans} (mat : StoreMatch M loans s s') {h h' : Heap}
    (heap : HeapMatch M more h h') :
    StoreMatch M more { s with heap := h } { s' with heap := h' } :=
  ⟨heap, mat.rallies, mat.pool, mat.trace⟩

theorem Manner.Compares.reply (compares : M.Compares E E') (how : Demand) (site : Option Location)
    {v v' : Value} (values : ValueLike M .same v v') :
    (∃ u u', how.reply site v = .resume u ∧ how.reply site v' = .resume u' ∧
      ValueLike M .same u u') ∨
    ∃ action, how.reply site v = .perform action ∧ how.reply site v' = .perform action := by
  cases how with
  | pure =>
    refine .inl ?_
    cases values with
    | effect actions => exact ⟨_, _, rfl, rfl, Value.like_refl compares.toAdmits _⟩
    | _ => exact ⟨_, _, rfl, rfl, by constructor <;> assumption⟩
  | effect =>
    cases values with
    | effect actions =>
      cases actions
      exact .inr ⟨_, rfl, rfl⟩
    | error faults => exact .inl ⟨_, _, rfl, rfl, .error faults⟩
    | _ => exact .inl ⟨_, _, rfl, rfl, Value.like_refl compares.toAdmits _⟩

/-- On the right a value passes through all cells that waited for it. -/
theorem Delegates.unwind (compares : M.Compares E E') {cell current : Ref} {between : List Frame}
    {lent : List Ref} (delegates : Delegates (E.Apart E') cell current between lent)
    (frames : List Frame) {v v' : Value} {s : Store} (values : ValueLike M .same v v')
    (known : ∀ t ∈ cell :: lent, ∃ c, s.heap.state? t = some c) :
    ∃ v'' h'', ReflTransGen E'.Moves
        (.give v', between ++ frames, { s with heap := s.heap.publish current v' })
        (.give v'', frames, { s with heap := h'' }) ∧
      ValueLike M .same v v'' ∧ Published M (cell :: lent) v s.heap h'' := by
  induction delegates generalizing v' s with
  | self =>
    obtain ⟨c, state⟩ := known cell (List.mem_cons_self ..)
    refine ⟨v', _, .refl, values, ?_⟩
    constructor
    case size => exact Heap.size_setState ..
    case sites => exact fun r => Heap.site?_setState ..
    case inside =>
      intro r mine
      obtain rfl : r = cell := by simpa using mine
      exact ⟨v', Heap.state?_setState_self state _, values⟩
    case outside => exact fun r other => Heap.state?_setState_ne (by simpa using other) _
  | @tail current parent site between lent differ before ih =>
    obtain ⟨c, state⟩ := known current (.tail _ (List.mem_cons_self ..))
    let h := s.heap.publish current v'
    have passed := compares.through?_right differ values site
    have known_after : ∀ t ∈ cell :: lent,
        ∃ c, ({ s with heap := h } : Store).heap.state? t = some c := by
      intro t mine
      by_cases same : t = current
      · exact ⟨_, by rw [same]; exact Heap.state?_setState_self state _⟩
      · obtain ⟨c, state⟩ := known t (by simp only [List.mem_cons] at mine ⊢; tauto)
        exact ⟨c, (Heap.state?_setState_ne same _).trans state⟩
    obtain ⟨v'', h'', moves, values', published⟩ := ih passed known_after
    refine ⟨v'', h'', .head Engine.Advance.pass.move moves, values', ?_⟩
    constructor
    case size => exact published.size.trans (Heap.size_setState ..)
    case sites => exact fun r => (published.sites r).trans (Heap.site?_setState ..)
    case inside =>
      intro r mine
      by_cases inner : r ∈ cell :: lent
      · exact published.inside r inner
      · obtain rfl : r = current := by
          simp only [List.mem_cons] at mine inner
          tauto
        refine ⟨v', (published.outside r inner).trans ?_, values⟩
        exact Heap.state?_setState_self state _
    case outside =>
      intro r other
      simp only [List.mem_cons, not_or] at other
      refine (published.outside r (by simp [other])).trans ?_
      exact Heap.state?_setState_ne other.2.1 _

theorem meets_enter (compares : M.Compares E E') {frames frames' : List Frame} (r : Ref)
    (stack : FramesLike M (E.Apart E') loans frames frames') (mat : StoreMatch M loans s s') :
    Engine.Meets E E' M.lax (MachineMatch M (E.Apart E')) (.enter r, frames, s) (.enter r, frames', s') := by
  cases mat.heap.cells r with
  | same states =>
    generalize left : s.heap.state? r = o, right : s'.heap.state? r = o' at states
    cases states with
    | missing =>
      exact .stuck (Engine.sticks_of_empty (.inl left)) (.inr (Engine.sticks_of_empty (.inl right)))
    | vacant =>
      exact .stuck (Engine.sticks_of_empty (.inr left)) (.inr (Engine.sticks_of_empty (.inr right)))
    | forcing =>
      exact .stuck (Engine.sticks_of_forcing left) (.inr (Engine.sticks_of_forcing right))
    | @pending w w' works =>
      refine .moved (Engine.Advance.start left).moves (Engine.Advance.start right).moves ?_
      have scripts := works.task.like_script compares.bounds
      rw [← works.site]
      exact ⟨(r, []) :: loans, .run .self Held.diagonal_nothing scripts stack,
        mat.with_heap (mat.heap.start left right)⟩
    | redirect target =>
      refine .moved (Engine.Advance.follow left).moves (Engine.Advance.follow right).moves ?_
      exact ⟨loans, .enter target stack, mat⟩
    | forced values =>
      refine .moved (Engine.Advance.found left).moves (Engine.Advance.found right).moves ?_
      exact ⟨loans, .give values stack, mat⟩
  | lent loan mine left right =>
    have busy := (mat.heap.running _ loan).1
    have sticks : E.Sticks (.enter _, frames, s) := Engine.sticks_of_forcing busy
    exact .stuck (.head (Engine.Advance.follow left).move sticks)
      (.inr (Engine.sticks_of_forcing right))
  | done left value right values =>
    have follows : TransGen E.Moves (.enter r, frames, s) (.enter _, frames, s) :=
      (Engine.Advance.follow left).moves
    refine .moved (.tail follows (Engine.Advance.found value).move)
      (Engine.Advance.found right).moves ?_
    exact ⟨loans, .give values stack, mat⟩

/-- Both sides give a running cell its value. -/
theorem meets_publish (compares : M.Compares E E') {cell current : Ref} {site : Option Location}
    {between frames frames' : List Frame} {lent : List Ref}
    (delegates : Delegates (E.Apart E') cell current between lent)
    (stack : FramesLike M (E.Apart E') loans frames frames')
    (mat : StoreMatch M ((cell, lent) :: loans) s s') {v v' : Value}
    (values : ValueLike M .same v v') {c c' : Control} {fs fs' : List Frame}
    (left : E.Advance c fs s (.give (v.through? site)) frames
      { s with heap := s.heap.publish cell (v.through? site) })
    (right : E'.Advance c' fs' s' (.give (v'.through? site)) (between ++ frames')
      { s' with heap := s'.heap.publish current (v'.through? site) }) :
    Engine.Meets E E' M.lax (MachineMatch M (E.Apart E')) (c, fs, s) (c', fs', s') := by
  have passed := compares.through? values site
  have known : ∀ t ∈ cell :: lent, ∃ c, s'.heap.state? t = some c := by
    intro t mine
    cases mine with
    | head => exact ⟨_, (mat.heap.running _ (List.mem_cons_self ..)).2⟩
    | tail _ mine => exact ⟨_, (mat.heap.lent _ (List.mem_cons_self ..) t mine).2⟩
  obtain ⟨v'', h'', moves, values', published⟩ := delegates.unwind compares frames' passed known
  refine .moved left.moves (.head' right.move moves) ?_
  exact ⟨loans, .give values' stack, mat.with_heap (mat.heap.publish published)⟩

theorem meets_give (compares : M.Compares E E') {frames frames' : List Frame} {v v' : Value}
    (values : ValueLike M .same v v') (stack : FramesLike M (E.Apart E') loans frames frames')
    (mat : StoreMatch M loans s s') :
    Engine.Meets E E' M.lax (MachineMatch M (E.Apart E')) (.give v, frames, s) (.give v', frames', s') := by
  cases stack with
  | nil => exact .finished .refl .refl ⟨_, .give values .nil, mat⟩
  | cons delegates waits rest =>
    cases waits with
    | tail => exact meets_publish compares delegates rest mat values .pass .pass
    | @reply how r next next' held diagonal scripts =>
      have sites := mat.heap.sites r
      rcases compares.reply how (s.heap.site? r) values with
        ⟨u, u', left, right, resumed⟩ | ⟨action, left, right⟩
      · rw [sites] at right
        refine .moved (Engine.Advance.resume left).moves (Engine.Advance.resume right).moves ?_
        exact ⟨_, .run delegates diagonal (scripts u u' resumed) rest, mat⟩
      · rw [sites] at right
        refine .moved (Engine.Advance.perform left).moves (Engine.Advance.perform right).moves ?_
        exact ⟨_, .enter action (.cons delegates (.reply diagonal scripts) rest), mat⟩

theorem StateLike.same {c c' : CellState} (like : StateLike M .same c c') :
    SameState M (some c) (some c') := by
  cases like with
  | vacant _ => exact .vacant
  | pending works => exact .pending works
  | forced values => exact .forced values

theorem Held.Diagonal.tie_le {handle handle' : Ref} {made : List (Ref × Ref)}
    (diagonal : Held.Diagonal (.knot handle handle' made)) :
    Bond.same.add ((handle, handle') :: made) ≤ Bond.same := by
  refine ⟨?_, fun _ _ => id⟩
  rintro r r' (same | mine)
  · exact same
  · cases mine with
    | head => exact diagonal.1
    | tail _ mine => exact diagonal.2 _ mine

theorem PollLike.refl (p : Poll) : PollLike .same p p := by
  cases p with
  | exhausted => exact .exhausted
  | reported i => exact .reported i
  | late i r => exact .late i rfl

/-- Both sides make a cell and go on with it. -/
theorem meets_alloc {cell current : Ref} {site : Option Location}
    {between frames frames' : List Frame} {lent : List Ref}
    (delegates : Delegates (E.Apart E') cell current between lent)
    (stack : FramesLike M (E.Apart E') loans frames frames')
    (mat : StoreMatch M ((cell, lent) :: loans) s s') (held : Ref → Held) {c c' : Cell}
    (states : SameState M c.state c'.state) (sites : c.site = c'.site)
    {next next' : Ref → Script Outcome} (diagonal : ∀ r, (held r).Diagonal)
    (rest : ∀ r, ScriptLike M .same (Settled M .same) (held r) (next r) (next' r)) :
    Engine.Meets E E' M.lax (MachineMatch M (E.Apart E')) (.run cell site (.act (.alloc c) next), frames, s)
      (.run current site (.act (.alloc c') next'), between ++ frames', s') := by
  obtain ⟨same_ref, heap⟩ := mat.heap.alloc states sites
  have scripts : ScriptLike M .same (Settled M .same) (held (s.heap.alloc c).1)
      (next (s.act (.alloc c)).1) (next' (s'.act (.alloc c')).1) := by
    simp only [Store.act, ← same_ref]
    exact rest _
  refine .moved Engine.Advance.act.moves Engine.Advance.act.moves ?_
  exact ⟨_, .run delegates (diagonal _) scripts stack, mat.with_heap heap⟩

/-- What an action answers and does does not depend on the cells, unless it makes or fills one. -/
theorem Store.act_of_heap (s : Store) (h : Heap) {a : Action} (other : ∀ c, a ≠ .alloc c)
    (unfilled : ∀ handle target, a ≠ .fill handle target) :
    (({ s with heap := h } : Store).act a).1 = (s.act a).1 ∧
      (({ s with heap := h } : Store).act a).2 = { (s.act a).2 with heap := h } := by
  cases a with
  | alloc c => exact absurd rfl (other c)
  | fill handle target => exact absurd rfl (unfilled handle target)
  | trace label => exact ⟨rfl, rfl⟩
  | submit job => exact ⟨rfl, rfl⟩
  | openRally rs => exact ⟨rfl, rfl⟩
  | pollRally id =>
    simp only [Store.act]
    split <;> exact ⟨rfl, rfl⟩
  | listRally id i =>
    simp only [Store.act]
    split <;> exact ⟨rfl, rfl⟩

theorem Store.heap_of_act (s : Store) {a : Action} (other : ∀ c, a ≠ .alloc c)
    (unfilled : ∀ handle target, a ≠ .fill handle target) : (s.act a).2.heap = s.heap := by
  have same := (Store.act_of_heap s s.heap other unfilled).2
  calc (s.act a).2.heap
      _ = (({ s with heap := s.heap } : Store).act a).2.heap := rfl
      _ = s.heap := by rw [same]

/-- Both sides do what has nothing to do with cells. -/
theorem meets_act {cell current : Ref} {site : Option Location}
    {between frames frames' : List Frame} {lent : List Ref}
    (delegates : Delegates (E.Apart E') cell current between lent)
    (stack : FramesLike M (E.Apart E') loans frames frames')
    (mat : StoreMatch M ((cell, lent) :: loans) s s') {a : Action} (other : ∀ c, a ≠ .alloc c)
    (unfilled : ∀ handle target, a ≠ .fill handle target) {held : Held}
    (diagonal : held.Diagonal) {next next' : a.Answer → Script Outcome}
    (rest : ∀ x, ScriptLike M .same (Settled M .same) held (next x) (next' x)) :
    Engine.Meets E E' M.lax (MachineMatch M (E.Apart E')) (.run cell site (.act a next), frames, s)
      (.run current site (.act a next'), between ++ frames', s') := by
  obtain ⟨heap, rallies, pool, trace⟩ := mat
  have right_store : s' = { s with heap := s'.heap } := by
    cases s
    cases s'
    simp_all
  obtain ⟨answer, after⟩ := Store.act_of_heap s s'.heap other unfilled
  rw [← right_store] at answer after
  have left_heap := Store.heap_of_act s other unfilled
  refine .moved Engine.Advance.act.moves Engine.Advance.act.moves ?_
  refine ⟨_, .run delegates diagonal ?_ stack, ?_⟩
  · rw [answer]
    exact rest _
  · rw [after]
    exact ⟨left_heap ▸ heap, rfl, rfl, rfl⟩

theorem meets_tail (compares : M.Compares E E') {cell current child : Ref}
    {site : Option Location} {between frames frames' : List Frame} {lent : List Ref}
    (delegates : Delegates (E.Apart E') cell current between lent)
    (stack : FramesLike M (E.Apart E') loans frames frames')
    (mat : StoreMatch M ((cell, lent) :: loans) s s') :
    Engine.Meets E E' M.lax (MachineMatch M (E.Apart E')) (.run cell site (.done (.tail child)), frames, s)
      (.run current site (.done (.tail child)), between ++ frames', s') := by
  have waits : FramesLike M (E.Apart E') ((cell, lent) :: loans)
      ({ cell, site, wait := .tail } :: frames)
      ({ cell := current, site, wait := .tail } :: (between ++ frames')) :=
    .cons delegates .tail stack
  by_cases idle : ∃ w, s.heap.state? child = some (.pending w)
  · obtain ⟨w, left⟩ := idle
    obtain ⟨w', right, works⟩ := mat.heap.pending left
    have scripts := works.task.like_script compares.bounds
    rcases compares.splices with same | apart
    · by_cases takes : E.splices = true
      · -- Neither side can be ahead of the other, so the parent is the same.
        cases delegates with
        | tail apart _ =>
          obtain ⟨splices, waits'⟩ := apart
          rw [splices, waits'] at same
          cases same
        | self =>
          refine .moved (Engine.Advance.splice takes left).moves
            (Engine.Advance.splice (same ▸ takes) right).moves ?_
          rw [← works.site]
          exact ⟨_, .run .self Held.diagonal_nothing scripts stack,
            mat.with_heap (mat.heap.splice left right cell)⟩
      · have takes' : E'.splices ≠ true := same ▸ takes
        refine .moved (Engine.Advance.tail fun yes => absurd yes takes).moves
          (Engine.Advance.tail fun yes => absurd yes takes').moves ?_
        exact ⟨_, .enter child waits, mat⟩
    · have takes' : E'.splices ≠ true := by simp [apart.2]
      have enters : TransGen E'.Moves
          (.run current site (.done (.tail child)), between ++ frames', s')
          (.enter child, { cell := current, site, wait := .tail } :: (between ++ frames'), s') :=
        (Engine.Advance.tail fun yes => absurd yes takes').moves
      refine .moved (Engine.Advance.splice apart.1 left).moves
        (.tail enters (Engine.Advance.start right).move) ?_
      rw [← works.site]
      exact ⟨_, .run (.tail apart delegates) Held.diagonal_nothing scripts stack,
        mat.with_heap (mat.heap.lend left right)⟩
  · have keeps : ∀ w, s.heap.state? child ≠ some (.pending w) := by simpa using idle
    refine .moved (Engine.Advance.tail fun _ => keeps).moves
      (Engine.Advance.tail fun _ => mat.heap.not_pending keeps).moves ?_
    exact ⟨_, .enter child waits, mat⟩

/-- Both sides fill a handle, or are refused. -/
theorem meets_fill {cell current : Ref} {site : Option Location}
    {between frames frames' : List Frame} {lent : List Ref}
    (delegates : Delegates (E.Apart E') cell current between lent)
    (stack : FramesLike M (E.Apart E') loans frames frames')
    (mat : StoreMatch M ((cell, lent) :: loans) s s') (handle target : Ref)
    {next next' : Bool → Script Outcome}
    (rest : ∀ filled, ∃ held : Held, held.Diagonal ∧
      ScriptLike M .same (Settled M .same) held (next filled) (next' filled)) :
    Engine.Meets E E' M.lax (MachineMatch M (E.Apart E')) (.run cell site (.act (.fill handle target) next), frames, s)
      (.run current site (.act (.fill handle target) next'), between ++ frames', s') := by
  obtain ⟨same_answer, heap⟩ := mat.heap.fill handle target
  obtain ⟨held, diagonal, scripts⟩ := rest (s.heap.fill handle target).1
  have scripts : ScriptLike M .same (Settled M .same) held
      (next (s.act (.fill handle target)).1) (next' (s'.act (.fill handle target)).1) := by
    simp only [Store.act, ← same_answer]
    exact scripts
  refine .moved Engine.Advance.act.moves Engine.Advance.act.moves ?_
  exact ⟨_, .run delegates diagonal scripts stack, mat.with_heap heap⟩

theorem meets_run (compares : M.Compares E E') {cell current : Ref} {site : Option Location}
    {between frames frames' : List Frame} {lent : List Ref}
    (delegates : Delegates (E.Apart E') cell current between lent) {held : Held}
    (diagonal : held.Diagonal) {script script' : Script Outcome}
    (scripts : ScriptLike M .same (Settled M .same) held script script')
    (stack : FramesLike M (E.Apart E') loans frames frames')
    (mat : StoreMatch M ((cell, lent) :: loans) s s') :
    Engine.Meets E E' M.lax (MachineMatch M (E.Apart E')) (.run cell site script, frames, s)
      (.run current site script', between ++ frames', s') := by
  cases scripts with
  | stall stops =>
    refine .stuck (Engine.sticks_of_halted rfl) (stops.imp id ?_)
    rintro rfl
    exact Engine.sticks_of_halted rfl
  | done results =>
    cases results with
    | ok outcomes =>
      cases outcomes with
      | value values => exact meets_publish compares delegates stack mat values .value .value
      | tail tails =>
        cases tails
        exact meets_tail compares delegates stack mat
  | raise results =>
    cases results with
    | error faults =>
      exact meets_publish compares delegates stack mat (.error faults) .fault .fault
  | panic p => exact .stuck (Engine.sticks_of_halted rfl) (.inr (Engine.sticks_of_halted rfl))
  | demand _ cells rest =>
    cases cells
    refine .moved Engine.Advance.demand.moves Engine.Advance.demand.moves ?_
    exact ⟨_, .enter _ (.cons delegates (.reply diagonal rest) stack), mat⟩
  | alloc made rest =>
    exact meets_alloc delegates stack mat (fun _ => .nothing) made.state.same made.site
      (fun _ => diagonal) fun r => rest r r rfl
  | action bodies parameters rest =>
    refine meets_alloc delegates stack mat (fun _ => .nothing) ?_ ?_ (fun _ => diagonal)
      fun r => rest r r rfl
    · exact .pending ⟨.resume (.action compares.hosted bodies parameters), rfl⟩
    · rfl
  | vacant rest =>
    refine meets_alloc delegates stack mat (fun r => .knot r r []) .vacant rfl ?_
      fun r => rest r r
    exact fun r => ⟨rfl, by simp⟩
  | @hold handle handle' made v v' next next' values rest =>
    refine meets_alloc delegates stack mat (fun r => .knot handle handle' ((r, r) :: made)) ?_ ?_
      ?_ fun r => rest r r
    · exact .forced (values.mono diagonal.tie_le)
    · rfl
    · intro r
      refine ⟨diagonal.1, fun p mine => ?_⟩
      cases mine with
      | head => rfl
      | tail _ mine => exact diagonal.2 p mine
  | @fill handle handle' target target' made next next' mine rest refused =>
    obtain rfl : handle = handle' := diagonal.1
    obtain rfl : target = target' := diagonal.2 _ mine
    refine meets_fill delegates stack mat handle target fun filled => ?_
    cases filled with
    | false => exact ⟨_, diagonal, refused⟩
    | true =>
      refine ⟨_, Held.diagonal_nothing, rest fun p held => ?_⟩
      cases held with
      | head => rfl
      | tail _ held => exact diagonal.2 p held
  | trace label rest =>
    exact meets_act delegates stack mat (by simp) (by simp) diagonal fun _ => rest
  | submit targets report rest =>
    cases targets
    exact meets_act delegates stack mat (by simp) (by simp) diagonal fun _ => rest
  | openRally _ arguments rest =>
    cases refsLike_same.1 arguments
    exact meets_act delegates stack mat (by simp) (by simp) diagonal rest
  | pollRally _ id rest =>
    exact meets_act delegates stack mat (by simp) (by simp) diagonal fun p => rest p p (.refl p)
  | listRally _ id i rest =>
    exact meets_act delegates stack mat (by simp) (by simp) diagonal
      fun o => rest o o (optionRel_same.2 rfl)
  | ask _ rest =>
    refine .asked rfl rfl fun a => ?_
    exact ⟨_, .run delegates diagonal (rest a) stack, mat⟩

/-- Matching engines go on matching. -/
theorem meets_of_match (compares : M.Compares E E') {x y : Control × List Frame × Store}
    (mat : MachineMatch M (E.Apart E') x y) : Engine.Meets E E' M.lax (MachineMatch M (E.Apart E')) x y := by
  obtain ⟨c, frames, s⟩ := x
  obtain ⟨c', frames', s'⟩ := y
  obtain ⟨loans, controls, stores⟩ := mat
  cases controls with
  | enter r stack => exact meets_enter compares r stack stores
  | give values stack => exact meets_give compares values stack stores
  | run delegates diagonal scripts stack =>
    exact meets_run compares delegates diagonal scripts stack stores

end
end CallByNeed
