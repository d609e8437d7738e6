import CallByNeed.Engine
import CallByNeed.Proofs.Order.Twins
import CallByNeed.Proofs.Splicing.Step

/- What a cell means in a heap in which nothing has been forced: the value that its work comes to when
   every cell it makes is one that the heap has already. Nothing changes on the way, so a meaning
   stays one while the heap grows, and twins mean the like in the same number of steps. -/
namespace CallByNeed

/-- Equal values, or faults of one cause. -/
inductive Value.Resembles : Value → Value → Prop where
  | same (v : Value) : Resembles v v
  | error {e e' : Fault} (cause : e.cause = e'.cause) : Resembles (.error e) (.error e')

/-- What can be asked for a value. -/
inductive Aim where
  | cell (r : Ref)
  | body (s : Script Outcome)

/-- The value of a cell or of a body, and the number of steps that lead there. -/
inductive Heap.Means (bound : Nat) (g : Heap) : Nat → Aim → Value → Prop where
  | forced {r : Ref} {v u : Value} (state : g.state? r = some (.forced v))
      (resembles : v.Resembles u) : Means bound g 0 (.cell r) u
  | redirect {n : Nat} {r t : Ref} {v : Value} (state : g.state? r = some (.redirect t))
      (rest : Means bound g n (.cell t) v) : Means bound g (n + 1) (.cell r) v
  | pending {n : Nat} {r : Ref} {w : Work} {v : Value} (state : g.state? r = some (.pending w))
      (rest : Means bound g n (.body (w.task.script bound)) v) : Means bound g (n + 1) (.cell r) v
  | value {v u : Value} (resembles : v.Resembles u) :
      Means bound g 0 (.body (.done (.value v))) u
  | fault {e e' : Fault} (cause : e.cause = e'.cause) :
      Means bound g 0 (.body (.raise e)) (.error e')
  | tail {n : Nat} {r : Ref} {v : Value} (rest : Means bound g n (.cell r) v) :
      Means bound g (n + 1) (.body (.done (.tail r))) v
  | demand {n m : Nat} {r : Ref} {site : Option Location} {next : Value → Script Outcome}
      {v v' u : Value} (first : Means bound g n (.cell r) v)
      (reply : Demand.pure.reply site v = .resume v') (rest : Means bound g m (.body (next v')) u) :
      Means bound g (n + m + 1) (.body (.demand .pure r next)) u
  /-- The new cell is one that the heap has. -/
  | alloc {n : Nat} {r : Ref} {c : Cell} {next : Ref → Script Outcome} {v : Value}
      (state : g.state? r = some c.state) (full : c.state ≠ .vacant)
      (rest : Means bound g n (.body (next r)) v) :
      Means bound g (n + 1) (.body (.act (.alloc c) next)) v
  /-- Which cell a handle is shows when it is filled. -/
  | vacant {n : Nat} {next : Ref → Script Outcome} {v : Value} (r : Ref)
      (rest : Means bound g n (.body (next r)) v) :
      Means bound g (n + 1) (.body (.act (.alloc .vacant) next)) v
  | fill {n : Nat} {handle target : Ref} {next : Bool → Script Outcome} {v : Value}
      (state : g.state? handle = some (.redirect target))
      (rest : Means bound g n (.body (next true)) v) :
      Means bound g (n + 1) (.body (.act (.fill handle target) next)) v
  | trace {n : Nat} {label : String} {next : Unit → Script Outcome} {v : Value}
      (rest : Means bound g n (.body (next ())) v) :
      Means bound g (n + 1) (.body (.act (.trace label) next)) v
  | submit {n : Nat} {job : Job} {next : Unit → Script Outcome} {v : Value}
      (rest : Means bound g n (.body (next ())) v) :
      Means bound g (n + 1) (.body (.act (.submit job) next)) v

/-- What scripts hold on two sides holds the like, given that it is bonded. -/
def Held.Holds (B : Bond) (g g' : Heap) : Held → Prop
  | .nothing => True
  | .knot handle handle' made => ∀ p ∈ made, ∃ v v', g.state? p.1 = some (.forced v) ∧
      g'.state? p.2 = some (.forced v') ∧ ValueLike .quiet (B.tie handle handle' made) v v'

/-- The cells that are bonded are twins. -/
def Held.Twinned (g g' : Heap) : Held → Prop
  | .nothing => True
  | .knot handle handle' made => ∀ p ∈ made, ∃ v v', g.state? p.1 = some (.forced v) ∧
      g'.state? p.2 = some (.forced v') ∧
      ValueLike .quiet ((g.twins g').tie handle handle' made) v v'

/-- Cells that are twins, or scripts that are alike among twins. -/
inductive Aim.Like (g g' : Heap) : Aim → Aim → Prop where
  | cell {r r' : Ref} (cells : (g.twins g').cells r r') : Like g g' (.cell r) (.cell r')
  | body {held : Held} {s s' : Script Outcome} (mine : held.Twinned g g')
      (scripts : ScriptLike .quiet (g.twins g') (Settled .quiet (g.twins g')) held s s') :
      Like g g' (.body s) (.body s')

section
variable {B : Bond} {g g' a a' : Heap} {bound more n m : Nat} {aim aim' : Aim} {v v' u u' x : Value}

theorem Value.Resembles.trans (first : v.Resembles u) (second : u.Resembles x) :
    v.Resembles x := by
  cases first with
  | same => exact second
  | error cause =>
    cases second with
    | same => exact .error cause
    | error cause' => exact .error (cause.trans cause')

theorem Value.Resembles.symm (resembles : v.Resembles u) : u.Resembles v := by
  cases resembles with
  | same => exact .same v
  | error cause => exact .error cause.symm

theorem Value.resembles_through? (v : Value) (site : Option Location) :
    v.Resembles (v.through? site) := by
  cases v with
  | error e =>
    refine .error ?_
    cases site <;> rfl
  | _ => exact .same _

theorem ValueLike.resembling (values : ValueLike .quiet B v v') (left : v.Resembles u)
    (right : v'.Resembles u') : ValueLike .quiet B u u' := by
  cases left with
  | same =>
    cases right with
    | same => exact values
    | error cause =>
      cases values with
      | error faults => exact .error ⟨faults.cause.trans cause, trivial⟩
  | error cause =>
    cases values with
    | error faults =>
      cases right with
      | same => exact .error ⟨cause.symm.trans faults.cause, trivial⟩
      | error cause' => exact .error ⟨(cause.symm.trans faults.cause).trans cause', trivial⟩

/-- Whichever site is to blame, demanding like values has like answers. -/
theorem ValueLike.reply {site site' : Option Location} (values : ValueLike .quiet B v v')
    (left : Demand.pure.reply site v = .resume u) (right : Demand.pure.reply site' v' = .resume u') :
    ValueLike .quiet B u u' := by
  cases values with
  | effect actions =>
    cases left
    cases right
    refine .error ⟨?_, trivial⟩
    cases site <;> cases site' <;> rfl
  | _ =>
    cases left
    cases right
    constructor <;> assumption

namespace Heap

theorem Means.resembling (means : g.Means bound n aim v) (resembles : v.Resembles u) :
    g.Means bound n aim u := by
  induction means with
  | forced state first => exact .forced state (first.trans resembles)
  | redirect state _ ih => exact .redirect state (ih resembles)
  | pending state _ ih => exact .pending state (ih resembles)
  | value first => exact .value (first.trans resembles)
  | fault cause =>
    cases resembles with
    | same => exact .fault cause
    | error cause' => exact .fault (cause.trans cause')
  | tail _ ih => exact .tail (ih resembles)
  | demand first reply _ _ ih => exact .demand first reply (ih resembles)
  | alloc state full _ ih => exact .alloc state full (ih resembles)
  | vacant r _ ih => exact .vacant r (ih resembles)
  | fill state _ ih => exact .fill state (ih resembles)
  | trace _ ih => exact .trace (ih resembles)
  | submit _ ih => exact .submit (ih resembles)

theorem Means.mono (grows : g.Grows g') (means : g.Means bound n aim v) :
    g'.Means bound n aim v := by
  induction means with
  | forced state resembles => exact .forced (grows _ _ state (by simp)) resembles
  | redirect state _ ih => exact .redirect (grows _ _ state (by simp)) ih
  | pending state _ ih => exact .pending (grows _ _ state (by simp)) ih
  | value resembles => exact .value resembles
  | fault cause => exact .fault cause
  | tail _ ih => exact .tail ih
  | demand _ reply _ ih ih' => exact .demand ih reply ih'
  | alloc state full _ ih => exact .alloc (grows _ _ state full) full ih
  | vacant r _ ih => exact .vacant r ih
  | fill state _ ih => exact .fill (grows _ _ state (by simp)) ih
  | trace _ ih => exact .trace ih
  | submit _ ih => exact .submit ih

end Heap

section
variable {C : Bond} {handle handle' r r' : Ref} {made : List (Ref × Ref)}

theorem Held.holds_nothing : Held.nothing.Holds B g g' := trivial

theorem Held.holds_knot : Held.Holds B g g' (.knot handle handle' []) := by
  intro p mem
  cases mem

theorem Held.Holds.mono (left : g.Grows a) (right : g'.Grows a') (bonds : B ≤ C) {held : Held}
    (mine : held.Holds B g g') : held.Holds C a a' := by
  cases held with
  | nothing => trivial
  | knot handle handle' made =>
    intro p mem
    obtain ⟨v, v', state, state', values⟩ := mine p mem
    exact ⟨v, v', left _ _ state (by simp), right _ _ state' (by simp),
      values.mono (Bond.add_mono bonds (List.Subset.refl _))⟩

/-- One more pair is held. -/
theorem Held.Holds.hold (mine : Held.Holds B g g' (.knot handle handle' made))
    (state : g.state? r = some (.forced v)) (state' : g'.state? r' = some (.forced v'))
    (values : ValueLike .quiet (B.tie handle handle' made) v v') :
    Held.Holds B g g' (.knot handle handle' ((r, r') :: made)) := by
  have wider : B.tie handle handle' made ≤ B.tie handle handle' ((r, r') :: made) := by
    refine Bond.add_mono (Bond.le_refl _) ?_
    simp
  intro p mem
  cases mem with
  | head => exact ⟨v, v', state, state', values.mono wider⟩
  | tail _ mem =>
    obtain ⟨u, u', forced, forced', old⟩ := mine p mem
    exact ⟨u, u', forced, forced', old.mono wider⟩

end

theorem Held.twinned_nothing : Held.nothing.Twinned g g' := trivial

theorem Held.twinned_knot {handle handle' : Ref} :
    Held.Twinned g g' (.knot handle handle' []) :=
  Held.holds_knot (B := g.twins g')

theorem Held.Twinned.mono (left : g.Grows a) (right : g'.Grows a') {held : Held}
    (mine : held.Twinned g g') : held.Twinned a a' :=
  Held.Holds.mono left right (Heap.twins_mono left right) mine

theorem Held.Twinned.hold {handle handle' r r' : Ref} {made : List (Ref × Ref)}
    (mine : Held.Twinned g g' (.knot handle handle' made))
    (state : g.state? r = some (.forced v)) (state' : g'.state? r' = some (.forced v'))
    (values : ValueLike .quiet ((g.twins g').tie handle handle' made) v v') :
    Held.Twinned g g' (.knot handle handle' ((r, r') :: made)) :=
  Held.Holds.hold mine state state' values

/-- The handles are filled, so all that was held is known. -/
theorem Held.Twinned.tied {handle handle' target target' : Ref} {made : List (Ref × Ref)}
    (mine : Held.Twinned g g' (.knot handle handle' made)) (pair : (target, target') ∈ made)
    (state : g.state? handle = some (.redirect target))
    (state' : g'.state? handle' = some (.redirect target')) :
    ∀ p ∈ (handle, handle') :: made, (g.twins g').cells p.1 p.2 := by
  refine Heap.twins_of_pairs fun p mem => ?_
  cases mem with
  | head => exact ⟨_, _, state, state', .redirect (.inr (.tail _ pair))⟩
  | tail _ mem =>
    obtain ⟨v, v', forced, forced', values⟩ := mine p mem
    exact ⟨_, _, forced, forced', .made (.forced values)⟩

/-- Twins mean the like, and it takes them the same number of steps. -/
theorem Heap.Means.agree (first : g.Means bound n aim v) (second : g'.Means bound m aim' v')
    (like : Aim.Like g g' aim aim') : n = m ∧ ValueLike .quiet (g.twins g') v v' := by
  induction first generalizing m aim' v' with
  | forced state resembles =>
    cases like with
    | cell cells =>
      cases Heap.twinned cells with
      | pending left => simp [state] at left
      | redirect left => simp [state] at left
      | forced left right values =>
        cases state.symm.trans left
        cases second with
        | redirect other => simp [right] at other
        | pending other => simp [right] at other
        | forced other resembles' =>
          cases right.symm.trans other
          exact ⟨rfl, values.resembling resembles resembles'⟩
  | redirect state _ ih =>
    cases like with
    | cell cells =>
      cases Heap.twinned cells with
      | pending left => simp [state] at left
      | forced left => simp [state] at left
      | redirect left right targets =>
        cases state.symm.trans left
        cases second with
        | forced other => simp [right] at other
        | pending other => simp [right] at other
        | redirect other rest =>
          cases right.symm.trans other
          obtain ⟨rfl, values⟩ := ih rest (.cell targets)
          exact ⟨rfl, values⟩
  | pending state _ ih =>
    cases like with
    | cell cells =>
      cases Heap.twinned cells with
      | forced left => simp [state] at left
      | redirect left => simp [state] at left
      | pending left right works =>
        cases state.symm.trans left
        cases second with
        | forced other => simp [right] at other
        | redirect other => simp [right] at other
        | pending other rest =>
          cases right.symm.trans other
          have scripts := works.task.like_script (.inl (Eq.refl bound))
          obtain ⟨rfl, values⟩ := ih rest (.body Held.twinned_nothing scripts)
          exact ⟨rfl, values⟩
  | value resembles =>
    cases like with
    | body mine scripts =>
      cases scripts with
      | done results =>
        cases results with
        | ok outcomes =>
          cases outcomes with
          | value values =>
            cases second with
            | value resembles' => exact ⟨rfl, values.resembling resembles resembles'⟩
  | fault cause =>
    cases like with
    | body mine scripts =>
      cases scripts with
      | raise results =>
        cases results with
        | error faults =>
          cases second with
          | fault cause' =>
            exact ⟨rfl, .error ⟨(cause.symm.trans faults.cause).trans cause', trivial⟩⟩
  | tail _ ih =>
    cases like with
    | body mine scripts =>
      cases scripts with
      | done results =>
        cases results with
        | ok outcomes =>
          cases outcomes with
          | tail tails =>
            cases second with
            | tail rest =>
              obtain ⟨rfl, values⟩ := ih rest (.cell tails)
              exact ⟨rfl, values⟩
  | demand _ reply _ ih ih' =>
    cases like with
    | body mine scripts =>
      cases scripts with
      | demand _ cells rest =>
        cases second with
        | demand first' reply' second' =>
          obtain ⟨rfl, values⟩ := ih first' (.cell cells)
          have replies := values.reply reply reply'
          obtain ⟨rfl, results⟩ := ih' second' (.body mine (rest _ _ replies))
          exact ⟨rfl, results⟩
  | alloc state full _ ih =>
    cases like with
    | body mine scripts =>
      cases scripts with
      | alloc made rest =>
        cases second with
        | alloc state' full' second' =>
          have cells := Heap.twins_of_like state state' made.state
          obtain ⟨rfl, values⟩ := ih second' (.body mine (rest _ _ cells))
          exact ⟨rfl, values⟩
        | vacant r second' => exact absurd rfl made.state.full.2
      | action bodies parameters rest =>
        cases second with
        | alloc state' full' second' =>
          have actions := Heap.twins_of_effects state state' (.made bodies parameters)
          obtain ⟨rfl, values⟩ := ih second' (.body mine (rest _ _ actions))
          exact ⟨rfl, values⟩
      | vacant rest => exact absurd rfl full
      | hold values rest =>
        cases second with
        | alloc state' full' second' =>
          have held := Held.Twinned.hold mine state state' values
          obtain ⟨rfl, values⟩ := ih second' (.body held (rest _ _))
          exact ⟨rfl, values⟩
  | vacant r _ ih =>
    cases like with
    | body mine scripts =>
      cases scripts with
      | alloc made _ => exact absurd rfl made.state.full.1
      | vacant rest =>
        cases second with
        | alloc state' full' second' => exact absurd rfl full'
        | vacant r' second' =>
          obtain ⟨rfl, values⟩ := ih second' (.body Held.twinned_knot (rest r r'))
          exact ⟨rfl, values⟩
  | fill state _ ih =>
    cases like with
    | body mine scripts =>
      cases scripts with
      | fill pair rest _ =>
        cases second with
        | fill state' second' =>
          have known := Held.Twinned.tied mine pair state state'
          obtain ⟨rfl, values⟩ := ih second' (.body Held.twinned_nothing (rest known))
          exact ⟨rfl, values⟩
  | trace _ ih =>
    cases like with
    | body mine scripts =>
      cases scripts with
      | trace _ rest =>
        cases second with
        | trace second' =>
          obtain ⟨rfl, values⟩ := ih second' (.body mine rest)
          exact ⟨rfl, values⟩
  | submit _ ih =>
    cases like with
    | body mine scripts =>
      cases scripts with
      | submit _ _ rest =>
        cases second with
        | submit second' =>
          obtain ⟨rfl, values⟩ := ih second' (.body mine rest)
          exact ⟨rfl, values⟩

/-- The same cell, or two scripts that differ in how much their loops may do. -/
inductive Aim.Raised : Aim → Aim → Prop where
  | cell (r : Ref) : Raised (.cell r) (.cell r)
  | body {held : Held} {s s' : Script Outcome} (diagonal : held.Diagonal)
      (scripts : ScriptLike .exact .same (Settled .exact .same) held s s') :
      Raised (.body s) (.body s')

theorem Work.raised (w : Work) (le : bound ≤ more) :
    Aim.Raised (.body (w.task.script bound)) (.body (w.task.script more)) :=
  .body Held.diagonal_nothing
    ((w.like_refl Manner.exact_admits).task.like_script (.inr ⟨trivial, le⟩))

/-- A larger bound of loops changes no meaning. -/
theorem Heap.Means.raise (le : bound ≤ more) (means : g.Means bound n aim v)
    (raised : aim.Raised aim') : g.Means more n aim' v := by
  induction means generalizing aim' with
  | forced state resembles =>
    cases raised
    exact .forced state resembles
  | redirect state _ ih =>
    cases raised
    exact .redirect state (ih (.cell _))
  | pending state _ ih =>
    cases raised
    exact .pending state (ih (Work.raised _ le))
  | value resembles =>
    cases raised with
    | body diagonal scripts =>
      cases scripts with
      | done results =>
        cases results with
        | ok outcomes =>
          cases outcomes with
          | value values =>
            rw [← eq_of_exact values]
            exact .value resembles
  | fault cause =>
    cases raised with
    | body diagonal scripts =>
      cases scripts with
      | raise results =>
        cases results with
        | error faults => exact .fault (faults.cause.symm.trans cause)
  | tail _ ih =>
    cases raised with
    | body diagonal scripts =>
      cases scripts with
      | done results =>
        cases results with
        | ok outcomes =>
          cases outcomes with
          | tail tails =>
            cases tails
            exact .tail (ih (.cell _))
  | @demand _ _ _ _ _ _ v' _ _ reply _ ih ih' =>
    cases raised with
    | body diagonal scripts =>
      cases scripts with
      | demand _ cells rest =>
        cases cells
        have same := rest v' v' (v'.like_refl Manner.exact_admits)
        exact .demand (ih (.cell _)) reply (ih' (.body diagonal same))
  | @alloc _ r _ _ _ state full _ ih =>
    cases raised with
    | body diagonal scripts =>
      cases scripts with
      | alloc made rest =>
        have same := state_eq_of_exact made.state
        exact .alloc (same ▸ state) (same ▸ full) (ih (.body diagonal (rest _ _ rfl)))
      | action bodies parameters rest =>
        cases bodies.eq
        cases refsLike_same.1 parameters
        exact .alloc state full (ih (.body diagonal (rest _ _ rfl)))
      | vacant rest => exact absurd rfl full
      | @hold handle handle' made v v' _ _ values rest =>
        have same := eq_of_exact (values.mono diagonal.tie_le)
        subst same
        have held : Held.Diagonal (.knot handle handle' ((r, r) :: made)) := by
          refine ⟨diagonal.1, fun p mem => ?_⟩
          cases mem with
          | head => rfl
          | tail _ mem => exact diagonal.2 p mem
        exact .alloc state full (ih (.body held (rest _ _)))
  | vacant r _ ih =>
    cases raised with
    | body diagonal scripts =>
      cases scripts with
      | @alloc _ c' _ _ made rest =>
        have same : c' = .vacant := by
          have states := state_eq_of_exact made.state
          have sites := made.site
          cases c'
          cases states
          cases sites
          rfl
        subst same
        exact .vacant r (ih (.body diagonal (rest r r rfl)))
      | vacant rest =>
        have held : Held.Diagonal (.knot r r []) := ⟨rfl, by simp⟩
        exact .vacant r (ih (.body held (rest r r)))
  | fill state _ ih =>
    cases raised with
    | body diagonal scripts =>
      cases scripts with
      | fill pair rest _ =>
        cases diagonal.1
        cases diagonal.2 _ pair
        refine .fill state (ih (.body Held.diagonal_nothing (rest fun p held => ?_)))
        cases held with
        | head => rfl
        | tail _ held => exact diagonal.2 p held
  | trace _ ih =>
    cases raised with
    | body diagonal scripts =>
      cases scripts with
      | trace _ rest => exact .trace (ih (.body diagonal rest))
  | submit _ ih =>
    cases raised with
    | body diagonal scripts =>
      cases scripts with
      | submit targets report rest => exact .submit (ih (.body diagonal rest))

end
end CallByNeed
