import CallByNeed.Proofs.FixedPoints.Doubles

/- Two engines at work on the same doubled knots. A step of one engine is a step of the other, but for
   the calls that still wait on the right: where the left engine finds a knot tied, the right one ties
   its own. -/
namespace CallByNeed
open Relation (ReflTransGen TransGen)

inductive Control.Doubled (D : Doubles) : Control → Control → Prop where
  | enter {r q : Ref} (cells : D.bond.cells r q) : Doubled D (.enter r) (.enter q)
  | run {cell cell' : Ref} (site site' : Option Location) {held : Held}
      {script script' : Script Outcome} (cells : D.partners cell cell') (mine : held.Bonded D.bond)
      (scripts : script.Bonded .siteless D.bond (Settled .siteless) held script') :
      Doubled D (.run cell site script) (.run cell' site' script')
  | give {v v' : Value} (values : ValueLike .siteless D.bond v v') : Doubled D (.give v) (.give v')

structure Engine.Doubled (E : Engine) (D : Doubles) (x y : Control × List Frame × Store) : Prop where
  control : x.1.Doubled D y.1
  stack : D.Stacked x.2.1 y.2.1
  stores : x.2.2.Doubled E D y.2.2

/-- More may have been doubled by now. -/
def Engine.Beyond (E : Engine) (D : Doubles) (x y : Control × List Frame × Store) : Prop :=
  ∃ U : Doubles, D.bond ≤ U.bond ∧ E.Doubled U x y

/-- The two engines are at work on doubles, and the left one keeps to what it forces. -/
def Engine.Abreast (E : Engine) (D : Doubles) (x y : Control × List Frame × Store) : Prop :=
  E.Beyond D x y ∧ Engine.Sound x

section
variable {E : Engine} {B : Bond} {D : Doubles} {s s' : Store} {r q cell cell' : Ref}
variable {v v' : Value} {frames frames' : List Frame} {site site' : Option Location}

theorem TaskLike.mono {M : Manner} {C : Bond} {t t' : Task} (grows : B ≤ C) (like : TaskLike M B t t') :
    TaskLike M C t t' := by
  cases like with
  | call functions arguments => exact .call (grows.1 _ _ functions) (arguments.mono grows)
  | resume suspensions => exact .resume (suspensions.mono grows)

theorem faultLike_siteless {e e' : Fault} (same : e.cause = e'.cause) : FaultLike .siteless e e' :=
  ⟨same, trivial⟩

/-- Like values stay alike, whichever sites they pass. -/
theorem ValueLike.through_siteless (values : ValueLike .siteless B v v')
    (site site' : Option Location) :
    ValueLike .siteless B (v.through? site) (v'.through? site') := by
  cases values with
  | error faults =>
    refine .error (faultLike_siteless ?_)
    cases site <;> cases site' <;> exact faults.cause
  | _ => constructor <;> assumption

/-- Like values get like replies, whichever sites their cells have. -/
theorem Demand.reply_siteless (how : Demand) (site site' : Option Location)
    (values : ValueLike .siteless B v v') :
    (∃ u u', how.reply site v = .resume u ∧ how.reply site' v' = .resume u' ∧
      ValueLike .siteless B u u') ∨
    ∃ action action', how.reply site v = .perform action ∧ how.reply site' v' = .perform action' ∧
      B.actions action action' := by
  have causes (c : Cause) : ValueLike .siteless B (.error { cause := c }) (.error { cause := c }) :=
    .error (faultLike_siteless rfl)
  cases how with
  | pure =>
    refine .inl ?_
    cases values with
    | effect actions => exact ⟨_, _, rfl, rfl, (causes .impure).through_siteless site site'⟩
    | _ => exact ⟨_, _, rfl, rfl, by constructor <;> assumption⟩
  | effect =>
    cases values with
    | effect actions => exact .inr ⟨_, _, rfl, rfl, actions⟩
    | error faults => exact .inl ⟨_, _, rfl, rfl, .error faults⟩
    | _ => exact .inl ⟨_, _, rfl, rfl, causes _⟩

namespace Engine

/-- To find a cell forced takes a step at least. -/
theorem gives_of_yields (yields : s.heap.Yields r v) (frames : List Frame) :
    TransGen E.Moves (.enter r, frames, s) (.give v, frames, s) := by
  rcases Relation.reflTransGen_iff_eq_or_transGen.1
    ((Runner.returns_of_yields (E := E) yields).moves frames) with same | moves
  · cases same
  · exact moves

/-- Whatever the engines come to by themselves, the left one keeps to what it forces. -/
theorem Meets.abreast {U : Doubles} {x y : Control × List Frame × Store} (grows : D.bond ≤ U.bond)
    (meets : Meets E E False (E.Beyond U) x y) (sound : Sound x) :
    Meets E E False (E.Abreast D) x y := by
  have earlier {x y : Control × List Frame × Store} : E.Beyond U x y → E.Beyond D x y :=
    fun ⟨V, more, doubled⟩ => ⟨V, Bond.le_trans grows more, doubled⟩
  cases meets with
  | moved left right related =>
    exact .moved left right ⟨earlier related, sound.moves left.to_reflTransGen⟩
  | stuck left right => exact .stuck left right
  | asked left right related =>
    subst left
    obtain ⟨forcing, apart, asked⟩ := sound
    exact .asked rfl right fun a =>
      ⟨earlier (related a), forcing, apart, asked.answer fun _ path => path⟩
  | finished left right related =>
    exact .finished left right ⟨earlier related, sound.moves left⟩

/-- Partners at work get like values. -/
theorem Doubled.publish (stores : s.Doubled E D s') (cells : D.partners cell cell')
    (stack : D.Stacked frames frames') (busy : s.heap.state? cell = some .forcing)
    (values : ValueLike .siteless D.bond v v') :
    E.Doubled D (.give v, frames, s.publish cell v) (.give v', frames', s'.publish cell' v') := by
  obtain ⟨_, _, state, busy', states⟩ := stores.partners cells
  rw [busy] at state
  cases state
  cases states
  exact ⟨.give values, stack, stores.change cells (s.works_publish busy v)
    (s'.works_publish busy' v') (Heap.state?_setState_self busy _)
    (Heap.state?_setState_self busy' _) (.forced values)⟩

/-- Like work is run by partners, whichever sites the calls have. -/
theorem doubled_script {w o : Work} (works : TaskLike .siteless D.bond w.task o.task)
    (cells : D.partners cell cell') : (Control.run cell w.site (w.task.script E.bound)).Doubled D
      (.run cell' o.site (o.task.script E.bound)) := by
  have empty : Held.nothing.Bonded D.bond := trivial
  exact .run _ _ cells empty fun B more => (works.mono more).like_script (.inl rfl)

/-- A knot that is tied on the left is tied on the right as well. -/
theorem meets_enter_waits {self : Ref} {b : Builtin} {fs fs' : List Ref}
    (stores : s.Doubled E D s') (stack : D.Stacked frames frames') (left : s.heap.Yields r v)
    (tied : s.heap.Tied self b fs v) (right : s'.heap.Untied E b fs' q)
    (functions : RefsLike D.bond fs fs') (alone : ∀ o, ¬ D.partners o q) :
    Meets E E False (E.Beyond D) (.enter r, frames, s)
      (.enter q, frames', s') := by
  obtain ⟨self', v', t', works', tied', known, moves⟩ := right.enters
  have knot := stores.tie (s.works_refl (List.Subset.refl [])) works' right tied' known
    (fun {_ o} cells mine => by
      rcases mine with mem | mem
      · cases mem
      · exact absurd (List.mem_singleton.1 mem ▸ cells) (alone _))
    (fun o mem other => absurd (List.mem_singleton.1 mem) other)
  refine .moved (gives_of_yields left frames) (moves frames') ⟨_, D.le_tie .., ?_, ?_, knot⟩
  · exact .give (tied.values tied' functions)
  · exact stack.mono (D.le_tie ..) (fun _ _ => id) fun _ _ _ => id

theorem meets_enter (stores : s.Doubled E D s') (stack : D.Stacked frames frames')
    (cells : D.bond.cells r q) : Meets E E False (E.Beyond D)
      (.enter r, frames, s) (.enter q, frames', s') := by
  rcases cells with cells | cells
  · obtain ⟨c, c', state, state', states⟩ := stores.partners cells
    cases states with
    | vacant => exact .stuck (sticks_of_empty (.inr state)) (.inr (sticks_of_empty (.inr state')))
    | forcing => exact .stuck (sticks_of_forcing state) (.inr (sticks_of_forcing state'))
    | pending works =>
      refine .moved (Advance.start state).moves (Advance.start state').moves
        ⟨D, Bond.le_refl _, doubled_script works.task cells, stack, ?_⟩
      exact stores.change cells (s.works_start state) (s'.works_start state')
        (Heap.state?_setState_self state _) (Heap.state?_setState_self state' _) .forcing
    | redirect targets =>
      exact .moved (Advance.follow state).moves (Advance.follow state').moves
        ⟨D, Bond.le_refl _, .enter targets, stack, stores⟩
    | forced values =>
      exact .moved (Advance.found state).moves (Advance.found state').moves
        ⟨D, Bond.le_refl _, .give values, stack, stores⟩
  · cases stores.copies cells with
    | known left right values =>
      exact .moved (gives_of_yields left frames) (gives_of_yields right frames')
        ⟨D, Bond.le_refl _, .give values, stack, stores⟩
    | waits left tied right functions alone =>
      exact meets_enter_waits stores stack left tied right functions alone

/-- Values are given to frames of partners. -/
theorem meets_give (stores : s.Doubled E D s') (stack : D.Stacked frames frames')
    (forcing : s.heap.Forcing (cellsOf frames)) (values : ValueLike .siteless D.bond v v') :
    Meets E E False (E.Beyond D) (.give v, frames, s) (.give v', frames', s') := by
  cases stack with
  | nil => exact .finished .refl .refl ⟨D, Bond.le_refl _, .give values, .nil, stores⟩
  | @last cell site alone =>
    have busy : s.heap.state? cell = some .forcing := forcing cell (by simp)
    have passed : ValueLike .siteless D.bond (v.through? site) v' := by
      have nowhere : v'.through? none = v' := by cases v' <;> rfl
      exact nowhere ▸ values.through_siteless site none
    exact .finished (.single Advance.pass.move) .refl
      ⟨D, Bond.le_refl _, .give passed, .nil, stores.change_left alone (s.works_publish busy _)⟩
  | @frame f f' frames frames' cells waits rest =>
    obtain ⟨cell, site, wait⟩ := f
    obtain ⟨cell', site', wait'⟩ := f'
    have busy : s.heap.state? cell = some .forcing := forcing cell (by simp)
    cases waits with
    | tail =>
      exact .moved Advance.pass.moves Advance.pass.moves
        ⟨D, Bond.le_refl _, Doubled.publish stores cells rest busy (values.through_siteless site site')⟩
    | @reply how r q next next' held mine rests =>
      rcases how.reply_siteless (s.heap.site? r) (s'.heap.site? q) values with
        ⟨u, u', left, right, resumed⟩ | ⟨action, action', left, right, actions⟩
      · refine .moved (Advance.resume left).moves (Advance.resume right).moves
          ⟨D, Bond.le_refl _, .run _ _ cells mine fun B more => ?_, rest, stores⟩
        exact rests B more _ _ (resumed.mono more)
      · exact .moved (Advance.perform left).moves (Advance.perform right).moves
          ⟨D, Bond.le_refl _, .enter actions, .frame cells (.reply mine rests) rest, stores⟩

/-- The value of a knot that is tied on the left is that of the cell whose tail it is, where the
    right engine takes over the call that ties it. -/
theorem meets_tail_waits {child child' self : Ref} {b : Builtin} {fs fs' : List Ref}
    (stores : s.Doubled E D s') (cells : D.partners cell cell') (stack : D.Stacked frames frames')
    (forcing : s.heap.Forcing (cell :: cellsOf frames)) (splices : E.splices = true)
    (left : s.heap.Yields child v) (tied : s.heap.Tied self b fs v)
    (right : s'.heap.Untied E b fs' child') (functions : RefsLike D.bond fs fs')
    (alone : ∀ o, ¬ D.partners o child') :
    Meets E E False (E.Beyond D)
      (.run cell site (.done (.tail child)), frames, s)
      (.run cell' site' (.done (.tail child')), frames', s') := by
  have busy : s.heap.state? cell = some .forcing := forcing cell List.mem_cons_self
  obtain ⟨_, _, state, busy', states⟩ := stores.partners cells
  rw [busy] at state
  cases state
  cases states
  obtain ⟨self', v', t', works', tied', known, published', moves⟩ := right.splices splices busy'
  have works := s.works_publish busy v
  have published : (s.publish cell v).heap.state? cell = some (.forced v) :=
    Heap.state?_setState_self busy _
  have later := tied.before works.before
  have gives : TransGen E.Moves (.run cell site (.done (.tail child)), frames, s)
      (.give v, frames, s.publish cell v) := by
    have waits : E.Advance (.run cell site (.done (.tail child))) frames s (.enter child)
        ({ cell, site, wait := .tail } :: frames) s := .tail fun _ w => left.not_pending w
    have passes : E.Advance (.give v) ({ cell, site, wait := .tail } :: frames) s
        (.give (v.through? site)) frames (s.publish cell (v.through? site)) := .pass
    rw [tied.through?] at passes
    exact .trans (.head waits.move (gives_of_yields left _)) passes.moves
  have knot := stores.tie works works' right tied' known
    (fun {r o} mates mine => by
      have same : r = cell ∧ o = cell' := by
        rcases mine with mem | mem
        · obtain rfl := List.mem_singleton.1 mem
          exact ⟨rfl, (stores.unique mates cells).1 rfl⟩
        · rcases List.mem_cons.1 mem with rfl | mem
          · exact absurd mates (alone r)
          · obtain rfl := List.mem_singleton.1 mem
            exact ⟨(stores.unique mates cells).2 rfl, rfl⟩
      obtain ⟨rfl, rfl⟩ := same
      exact ⟨_, _, published, published', .forced (later.values tied' functions)⟩)
    (fun o mem other => by
      rw [List.mem_singleton.1 ((List.mem_cons.1 mem).resolve_left other)]
      exact busy')
  refine .moved gives (moves site' frames') ⟨_, D.le_tie .., ?_, ?_, knot⟩
  · exact .give (later.values tied' functions)
  · exact stack.mono (D.le_tie ..) (fun _ _ => id) fun _ _ _ => id

/-- A cell goes on with its tail. -/
theorem meets_tail {child child' : Ref} (stores : s.Doubled E D s') (cells : D.partners cell cell')
    (stack : D.Stacked frames frames') (forcing : s.heap.Forcing (cell :: cellsOf frames))
    (tails : D.bond.cells child child') : Meets E E False (E.Beyond D)
      (.run cell site (.done (.tail child)), frames, s)
      (.run cell' site' (.done (.tail child')), frames', s') := by
  have waits (keeps : E.splices = true → ∀ w, s.heap.state? child ≠ some (.pending w))
      (keeps' : E.splices = true → ∀ w, s'.heap.state? child' ≠ some (.pending w)) :
      Meets E E False (E.Beyond D)
        (.run cell site (.done (.tail child)), frames, s)
        (.run cell' site' (.done (.tail child')), frames', s') :=
    .moved (Advance.tail keeps).moves (Advance.tail keeps').moves
      ⟨D, Bond.le_refl _, .enter tails, .frame cells .tail stack, stores⟩
  by_cases splices : E.splices = true
  · rcases tails with mates | copies
    · obtain ⟨c, c', state, state', states⟩ := stores.partners mates
      cases states with
      | pending works =>
        refine .moved (Advance.splice splices state).moves (Advance.splice splices state').moves
          ⟨D, Bond.le_refl _, doubled_script works.task cells, stack, ?_⟩
        exact stores.change mates (s.works_splice state cell) (s'.works_splice state' cell')
          (Heap.state?_setState_self state _) (Heap.state?_setState_self state' _)
          (.redirect (.inl cells))
      | _ => exact waits (by simp [state]) (by simp [state'])
    · cases stores.copies copies with
      | known left right =>
        exact waits (fun _ => left.not_pending) fun _ => right.not_pending
      | waits left tied right functions alone =>
        exact meets_tail_waits stores cells stack forcing splices left tied right functions alone
  · exact waits (fun yes => absurd yes splices) fun yes => absurd yes splices

/-- Partners run like scripts. -/
theorem meets_run {held : Held} {script script' : Script Outcome} (stores : s.Doubled E D s')
    (cells : D.partners cell cell') (stack : D.Stacked frames frames')
    (forcing : s.heap.Forcing (cell :: cellsOf frames)) (mine : held.Bonded D.bond)
    (scripts : script.Bonded .siteless D.bond (Settled .siteless) held script') :
    Meets E E False (E.Beyond D) (.run cell site script, frames, s)
      (.run cell' site' script', frames', s') := by
  have first := scripts D.bond (Bond.le_refl _)
  have busy : s.heap.state? cell = some .forcing := forcing cell List.mem_cons_self
  cases script with
  | stall =>
    cases first with
    | stall stops =>
      rcases stops with no | rfl
      · cases no
      · exact .stuck (sticks_of_halted rfl) (.inr (sticks_of_halted rfl))
  | panic p =>
    cases first
    exact .stuck (sticks_of_halted rfl) (.inr (sticks_of_halted rfl))
  | done outcome =>
    cases first with
    | done results =>
      cases results with
      | ok outcomes =>
        cases outcomes with
        | value values =>
          exact .moved Advance.value.moves Advance.value.moves
            ⟨D, Bond.le_refl _, Doubled.publish stores cells stack busy (values.through_siteless site site')⟩
        | tail tails => exact meets_tail stores cells stack forcing tails
  | raise e =>
    cases first with
    | raise results =>
      cases results with
      | error faults =>
        have values : ValueLike .siteless D.bond (.error _) (.error _) := .error faults
        exact .moved Advance.fault.moves Advance.fault.moves
          ⟨D, Bond.le_refl _, Doubled.publish stores cells stack busy (values.through_siteless site site')⟩
  | demand how r next =>
    cases first with
    | demand hosted asked rest =>
      refine .moved Advance.demand.moves Advance.demand.moves ⟨D, Bond.le_refl _, .enter asked,
        .frame cells (.reply mine fun B more v v' values => ?_) stack, stores⟩
      cases scripts B more with
      | demand _ _ rest => exact rest v v' values
  | act a next =>
    obtain ⟨a', next', rfl, _, held', grows, mine', scripts', U, rfl, holds⟩ :=
      (Doubles.keeps E ({ cell, site, wait := .tail } :: frames)
        ({ cell := cell', site := site', wait := .tail } :: frames')).act (by exact id) trivial
        ⟨D, rfl, stores, .frame cells .tail stack, by simpa using forcing⟩ mine scripts
    cases holds.stack with
    | frame cells' _ stack' =>
      exact .moved Advance.act.moves Advance.act.moves
        ⟨U, grows, .run _ _ cells' mine' scripts', stack', holds.stores⟩
  | ask q next =>
    cases first with
    | ask hosted _ =>
      refine .asked rfl rfl fun a => ⟨D, Bond.le_refl _, .run _ _ cells mine fun B more => ?_, stack, stores⟩
      cases scripts B more with
      | ask _ rest => exact rest a

/-- Engines on doubled knots go on alike. -/
theorem meets_of_abreast {x y : Control × List Frame × Store} (abreast : E.Abreast D x y) :
    Meets E E False (E.Abreast D) x y := by
  obtain ⟨⟨U, grows, control, stack, stores⟩, sound⟩ := abreast
  refine Meets.abreast grows ?_ sound
  obtain ⟨c, frames, s⟩ := x
  obtain ⟨c', frames', s'⟩ := y
  have forcing := sound.forcing
  cases control with
  | enter cells => exact meets_enter stores stack cells
  | give values => exact meets_give stores stack forcing values
  | run site site' cells mine scripts => exact meets_run stores cells stack forcing mine scripts

end Engine
end
end CallByNeed
