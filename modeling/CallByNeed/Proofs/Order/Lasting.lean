import CallByNeed.Proofs.Order.Meaning

/- Scripts that stay alike while more cells come to be bonded, one step at a time. All that a pure
   script can do is in these cases; the other actions need a host. -/
namespace CallByNeed

/-- The scripts are alike, whatever else comes to be bonded; what they hold in the end does not
    matter. -/
def Script.LastsTo {α β : Type} (post : Bond → α → β → Prop) (B : Bond) (held : Held)
    (s : Script α) (s' : Script β) : Prop :=
  ∀ C, B ≤ C → ScriptLike .quiet C (fun _ => ResultLike .quiet (post C)) held s s'

/-- What scripts that stay alike do when they make cells. -/
inductive Script.AllocLasts {α β : Type} (post : Bond → α → β → Prop) (B : Bond)
    (next : Ref → Script α) (next' : Ref → Script β) : Held → Cell → Cell → Prop where
  | made {c c' : Cell} (states : StateLike .quiet B c.state c'.state)
      (rest : ∀ C, B ≤ C → ∀ r r', C.cells r r' → LastsTo post C .nothing (next r) (next' r')) :
      AllocLasts post B next next' .nothing c c'
  | action {b b' : Body} {ps ps' : List Ref} (bodies : BodyLike .quiet B true ps.length b b')
      (parameters : RefsLike B ps ps')
      (rest : ∀ C, B ≤ C → ∀ r r', C.actions r r' → LastsTo post C .nothing (next r) (next' r')) :
      AllocLasts post B next next' .nothing (.ofSuspension (.action b ps))
        (.ofSuspension (.action b' ps'))
  | hold {handle handle' : Ref} {made : List (Ref × Ref)} {v v' : Value}
      (values : ValueLike .quiet (B.tie handle handle' made) v v')
      (rest : ∀ r r', LastsTo post B (.knot handle handle' ((r, r') :: made)) (next r) (next' r')) :
      AllocLasts post B next next' (.knot handle handle' made) (.ofValue v) (.ofValue v')

section
variable {α β : Type} {post : Bond → α → β → Prop} {B C : Bond} {held : Held} {s' : Script β}

theorem Alike.lastsTo {s : Script α} {s' : Script β}
    (alike : ∀ C, B ≤ C → Alike .quiet C (post C) s s') :
    Script.LastsTo post B .nothing s s' := by
  intro C grows
  have again : ScriptLike .quiet C (fun _ => ResultLike .quiet (post C)) .nothing
      (s >>= Pure.pure) (s' >>= Pure.pure) :=
    .bind_unchanged (alike C grows) (fun _ _ faults => .error faults)
      fun _ _ results => .done (.ok results)
  simpa using again

namespace Script.LastsTo

theorem mono (grows : B ≤ C) {s : Script α} (lasts : LastsTo post B held s s') :
    LastsTo post C held s s' :=
  fun D wider => lasts D (Bond.le_trans grows wider)

theorem of_done {x : α} (lasts : LastsTo post B held (.done x) s') :
    ∃ y, s' = .done y ∧ post B x y := by
  cases lasts B (Bond.le_refl B) with
  | done results =>
    cases results with
    | ok results => exact ⟨_, rfl, results⟩

theorem of_raise {e : Fault} (lasts : LastsTo post B held (.raise e) s') :
    ∃ e', s' = .raise e' ∧ e.cause = e'.cause := by
  cases lasts B (Bond.le_refl B) with
  | raise results =>
    cases results with
    | error faults => exact ⟨_, rfl, faults.cause⟩

theorem of_demand {how : Demand} {r : Ref} {next : Value → Script α}
    (lasts : LastsTo post B held (.demand how r next) s') :
    how = .pure ∧ ∃ r' next', s' = .demand .pure r' next' ∧ B.cells r r' ∧
      ∀ C, B ≤ C → ∀ v v', ValueLike .quiet C v v' → LastsTo post C held (next v) (next' v') := by
  cases lasts B (Bond.le_refl B) with
  | demand hosted cells _ =>
    have pure : how = .pure := by
      cases how with
      | pure => rfl
      | effect => exact (hosted rfl).elim
    subst pure
    refine ⟨rfl, _, _, rfl, cells, fun C grows v v' values D wider => ?_⟩
    cases lasts D (Bond.le_trans grows wider) with
    | demand _ _ rest => exact rest v v' (values.mono wider)

theorem of_trace {label : String} {next : Unit → Script α}
    (lasts : LastsTo post B held (.act (.trace label) next) s') :
    ∃ next', s' = .act (.trace label) next' ∧ LastsTo post B held (next ()) (next' ()) := by
  cases lasts B (Bond.le_refl B) with
  | trace label _ =>
    refine ⟨_, rfl, fun D wider => ?_⟩
    cases lasts D wider with
    | trace _ rest => exact rest

theorem of_submit {job : Job} {next : Unit → Script α}
    (lasts : LastsTo post B held (.act (.submit job) next) s') :
    ∃ job' next', s' = .act (.submit job') next' ∧ LastsTo post B held (next ()) (next' ()) := by
  cases lasts B (Bond.le_refl B) with
  | submit targets report _ =>
    refine ⟨_, _, rfl, fun D wider => ?_⟩
    cases lasts D wider with
    | submit _ _ rest => exact rest

theorem of_vacant {next : Ref → Script α}
    (lasts : LastsTo post B held (.act (.alloc .vacant) next) s') :
    held = .nothing ∧ ∃ next', s' = .act (.alloc .vacant) next' ∧
      ∀ r r', LastsTo post B (.knot r r' []) (next r) (next' r') := by
  cases lasts B (Bond.le_refl B) with
  | alloc made _ => exact absurd rfl made.state.full.1
  | vacant _ =>
    refine ⟨rfl, _, rfl, fun r r' D wider => ?_⟩
    cases lasts D wider with
    | alloc made _ => exact absurd rfl made.state.full.1
    | vacant rest => exact rest r r'

theorem of_fill {handle target : Ref} {next : Bool → Script α}
    (lasts : LastsTo post B held (.act (.fill handle target) next) s') :
    ∃ handle' target' made next', held = .knot handle handle' made ∧
      s' = .act (.fill handle' target') next' ∧ (target, target') ∈ made ∧
      ∀ C, B ≤ C → (∀ p ∈ (handle, handle') :: made, C.cells p.1 p.2) →
        LastsTo post C .nothing (next true) (next' true) := by
  cases lasts B (Bond.le_refl B) with
  | fill pair _ _ =>
    refine ⟨_, _, _, _, rfl, rfl, pair, fun C grows known D wider => ?_⟩
    cases lasts D (Bond.le_trans grows wider) with
    | fill _ rest _ => exact rest fun p mem => wider.1 _ _ (known p mem)

theorem of_alloc {c : Cell} {next : Ref → Script α} (full : c ≠ .vacant)
    (lasts : LastsTo post B held (.act (.alloc c) next) s') :
    ∃ c' next', s' = .act (.alloc c') next' ∧ c'.state ≠ .vacant ∧ c'.state ≠ .forcing ∧
      AllocLasts post B next next' held c c' := by
  cases lasts B (Bond.le_refl B) with
  | @alloc _ c' _ _ made _ =>
    have idle : c'.state ≠ .forcing := made.state.idle
    refine ⟨_, _, rfl, made.state.full.2, idle, .made made.state fun C grows r r' cells D wider => ?_⟩
    cases lasts D (Bond.le_trans grows wider) with
    | alloc _ rest => exact rest r r' (wider.1 _ _ cells)
    | action bodies =>
      cases made.state with
      | pending works =>
        cases works.task with
        | resume suspensions =>
          cases suspensions with
          | action hosted => exact hosted.elim
    | vacant _ => exact absurd rfl full
  | action bodies parameters _ =>
    refine ⟨_, _, rfl, by simp [Cell.ofSuspension], by simp [Cell.ofSuspension],
      .action bodies parameters fun C grows r r' actions D wider => ?_⟩
    cases lasts D (Bond.le_trans grows wider) with
    | alloc made _ =>
      cases made.state with
      | pending works =>
        cases works.task with
        | resume suspensions =>
          cases suspensions with
          | action hosted _ _ => exact hosted.elim
    | action _ _ rest => exact rest r r' (wider.2 _ _ actions)
  | vacant _ => exact absurd rfl full
  | hold values _ =>
    refine ⟨_, _, rfl, by simp [Cell.ofValue], by simp [Cell.ofValue],
      .hold values fun r r' D wider => ?_⟩
    cases lasts D wider with
    | hold _ rest => exact rest r r'

/-- Whatever else a script does needs a host. -/
theorem not_openRally {rs : List Ref} {next : Nat → Script α} :
    ¬ LastsTo post B held (.act (.openRally rs) next) s' := by
  intro lasts
  cases lasts B (Bond.le_refl B) with
  | openRally hosted _ _ => exact hosted

theorem not_pollRally {id : Nat} {next : Poll → Script α} :
    ¬ LastsTo post B held (.act (.pollRally id) next) s' := by
  intro lasts
  cases lasts B (Bond.le_refl B) with
  | pollRally hosted _ _ => exact hosted

theorem not_listRally {id i : Nat} {next : Option Ref → Script α} :
    ¬ LastsTo post B held (.act (.listRally id i) next) s' := by
  intro lasts
  cases lasts B (Bond.le_refl B) with
  | listRally hosted _ _ _ => exact hosted

end Script.LastsTo
end

/-- Lasting likeness of the scripts of cells. -/
def Script.Lasts (B : Bond) (held : Held) (s s' : Script Outcome) : Prop :=
  ∀ C, B ≤ C → ScriptLike .quiet C (Settled .quiet C) held s s'

/-- The handle that is still to be filled, on the right side. -/
def Held.handle : Held → Option Ref
  | .nothing => none
  | .knot _ handle _ => some handle

/-- The handle is still vacant. -/
def Held.Open (h : Heap) (held : Held) : Prop :=
  ∀ r, held.handle = some r → h.state? r = some .vacant

/-- A cell other than the handle. -/
def Held.Spares (held : Held) (r : Ref) : Prop := held.handle ≠ some r

section
variable {B C : Bond} {g g' : Heap} {bound : Nat} {held : Held} {s' : Script Outcome}

theorem Held.open_nothing {h : Heap} : Held.nothing.Open h := by
  intro r none
  cases none

theorem Script.Lasts.mono (grows : B ≤ C) {s s' : Script Outcome} (lasts : Script.Lasts B held s s') :
    Script.Lasts C held s s' :=
  fun D wider => lasts D (Bond.le_trans grows wider)

theorem WorkLike.lasts {w w' : Work} (works : WorkLike .quiet B w w') (bound : Nat) :
    Script.Lasts B .nothing (w.task.script bound) (w'.task.script bound) :=
  fun _ grows => (works.mono grows).task.like_script (.inl rfl)

namespace Script.Lasts

theorem of_value {v : Value} (lasts : Lasts B held (.done (.value v)) s') :
    ∃ v', s' = .done (.value v') ∧ ValueLike .quiet B v v' := by
  obtain ⟨_, rfl, outcomes⟩ := LastsTo.of_done lasts
  cases outcomes with
  | value values => exact ⟨_, rfl, values⟩

theorem of_fault {e : Fault} (lasts : Lasts B held (.raise e) s') :
    ∃ e', s' = .raise e' ∧ e.cause = e'.cause :=
  LastsTo.of_raise lasts

theorem of_tail {r : Ref} (lasts : Lasts B held (.done (.tail r)) s') :
    ∃ r', s' = .done (.tail r') ∧ B.cells r r' := by
  obtain ⟨_, rfl, outcomes⟩ := LastsTo.of_done lasts
  cases outcomes with
  | tail tails => exact ⟨_, rfl, tails⟩

theorem of_demand {how : Demand} {r : Ref} {next : Value → Script Outcome}
    (lasts : Lasts B held (.demand how r next) s') :
    how = .pure ∧ ∃ r' next', s' = .demand .pure r' next' ∧ B.cells r r' ∧
      ∀ C, B ≤ C → ∀ v v', ValueLike .quiet C v v' → Lasts C held (next v) (next' v') :=
  LastsTo.of_demand lasts

theorem of_trace {label : String} {next : Unit → Script Outcome}
    (lasts : Lasts B held (.act (.trace label) next) s') :
    ∃ next', s' = .act (.trace label) next' ∧ Lasts B held (next ()) (next' ()) :=
  LastsTo.of_trace lasts

theorem of_submit {job : Job} {next : Unit → Script Outcome}
    (lasts : Lasts B held (.act (.submit job) next) s') :
    ∃ job' next', s' = .act (.submit job') next' ∧ Lasts B held (next ()) (next' ()) :=
  LastsTo.of_submit lasts

theorem of_vacant {next : Ref → Script Outcome}
    (lasts : Lasts B held (.act (.alloc .vacant) next) s') :
    held = .nothing ∧ ∃ next', s' = .act (.alloc .vacant) next' ∧
      ∀ r r', Lasts B (.knot r r' []) (next r) (next' r') :=
  LastsTo.of_vacant lasts

theorem of_fill {handle target : Ref} {next : Bool → Script Outcome}
    (lasts : Lasts B held (.act (.fill handle target) next) s') :
    ∃ handle' target' made next', held = .knot handle handle' made ∧
      s' = .act (.fill handle' target') next' ∧ (target, target') ∈ made ∧
      ∀ C, B ≤ C → (∀ p ∈ (handle, handle') :: made, C.cells p.1 p.2) →
        Lasts C .nothing (next true) (next' true) :=
  LastsTo.of_fill lasts

/-- Two cells are made. Whatever cells they turn out to be, once they are there the scripts go on
    alike, and the handle to fill is the same as before. -/
theorem of_alloc {c : Cell} {next : Ref → Script Outcome} (full : c ≠ .vacant)
    (lasts : Lasts (g.twins g') held (.act (.alloc c) next) s') :
    ∃ c' next', s' = .act (.alloc c') next' ∧ c'.state ≠ .vacant ∧ c'.state ≠ .forcing ∧
      ∀ a a' r r', g.Grows a → g'.Grows a' → a.state? r = some c.state →
        a'.state? r' = some c'.state → held.Twinned g g' →
        ∃ held' : Held, held'.handle = held.handle ∧ held'.Twinned a a' ∧
          Lasts (a.twins a') held' (next r) (next' r') := by
  obtain ⟨c', next', rfl, full', idle, each⟩ := LastsTo.of_alloc full lasts
  refine ⟨c', next', rfl, full', idle, fun a a' r r' left right state state' mine => ?_⟩
  have grows := Heap.twins_mono left right
  cases each with
  | made states rest =>
    have cells := Heap.twins_of_like state state' (states.mono grows)
    exact ⟨.nothing, rfl, Held.twinned_nothing, rest _ grows r r' cells⟩
  | action bodies parameters rest =>
    have actions := Heap.twins_of_effects state state'
      (.made (bodies.mono grows) (parameters.mono grows))
    exact ⟨.nothing, rfl, Held.twinned_nothing, rest _ grows r r' actions⟩
  | @hold handle handle' made _ _ values rest =>
    have tied := values.mono (Bond.add_mono grows (List.Subset.refl _))
    exact ⟨.knot handle handle' ((r, r') :: made), rfl,
      (mine.mono left right).hold state state' tied, (rest r r').mono grows⟩

theorem not_openRally {rs : List Ref} {next : Nat → Script Outcome} :
    ¬ Lasts B held (.act (.openRally rs) next) s' :=
  LastsTo.not_openRally

theorem not_pollRally {id : Nat} {next : Poll → Script Outcome} :
    ¬ Lasts B held (.act (.pollRally id) next) s' :=
  LastsTo.not_pollRally

theorem not_listRally {id i : Nat} {next : Option Ref → Script Outcome} :
    ¬ Lasts B held (.act (.listRally id i) next) s' :=
  LastsTo.not_listRally

end Script.Lasts
end
end CallByNeed
