import CallByNeed.Proofs.Inlining.Tasks
import CallByNeed.Proofs.Order.Answered

/- Stores whose cells have kin for twins. Neither store need have the kin itself: it is in a heap
   between the two, in which more cells may have been made. -/
namespace CallByNeed

/-- Cells that are bonded through a third one. -/
def Bond.comp (B C : Bond) : Bond := B.flip.peers C

/-- Cells of `g` and `g'` that have kin for twins, the kin in `d` and `e`. -/
def Heap.across (g d e g' : Heap) : Bond := ((g.twins d).comp (d.kin e)).comp (e.twins g')

/-- Both stores are at rest, and bonded cells have kin for twins. -/
structure Store.LinkedBy (bound : Nat) (g d e g' : Heap) (B : Bond) (s s' : Store) : Prop where
  left : g.Backs bound s
  right : g'.Backs bound s'
  idle : ∀ r, d.state? r ≠ some .forcing
  idle' : ∀ r, e.state? r ≠ some .forcing
  bonds : B ≤ g.across d e g'

def Store.Linked (B : Bond) (s s' : Store) : Prop :=
  ∃ bound g d e g', Store.LinkedBy bound g d e g' B s s'

/-- The cell is that of an effect which has not been performed. -/
def Heap.Offers (h : Heap) (r : Ref) (b : Body) (ps : List Ref) : Prop :=
  ∃ site, h.state? r = some (.pending { task := .resume (.action b ps), site })

section
variable {B C : Bond} {g g' a a' d d' e e' : Heap} {bound n : Nat} {r r' o o' : Ref}
variable {s s' t t' : Store} {u v v' w x : Value}

/-! ### Bonds -/

theorem Bond.comp_mono {B' C' : Bond} (left : B ≤ B') (right : C ≤ C') : B.comp C ≤ B'.comp C' :=
  ⟨fun _ _ ⟨o, first, second⟩ => ⟨o, left.1 _ _ first, right.1 _ _ second⟩,
    fun _ _ ⟨o, first, second⟩ => ⟨o, left.2 _ _ first, right.2 _ _ second⟩⟩

theorem RefsLike.comp {rs rs' rs'' : List Ref} (left : RefsLike B rs rs')
    (right : RefsLike C rs' rs'') : RefsLike (B.comp C) rs rs'' :=
  left.flip.peers right

theorem BodyLike.comp {isEffect : Bool} {arity : Nat} {b b' b'' : Body}
    (left : BodyLike .quiet B isEffect arity b b')
    (right : BodyLike .quiet C isEffect arity b' b'') :
    BodyLike .quiet (B.comp C) isEffect arity b b'' :=
  left.flip.peers right

theorem ValueLike.comp (left : ValueLike .quiet B v u) (right : ValueLike .quiet C u w) :
    ValueLike .quiet (B.comp C) v w :=
  (left.flip Manner.quiet_reverses).peers Manner.quiet_joins right

theorem Value.Kin.after (left : ValueLike .quiet B v u) (kin : u.Kin C w) : v.Kin (B.comp C) w :=
  ⟨left.inScope Manner.quiet_tidy, kin.right, (left.inlined Manner.quiet_tidy).comp kin.values⟩

theorem Value.Kin.before (kin : v.Kin B u) (right : ValueLike .quiet C u w) : v.Kin (B.comp C) w :=
  ⟨kin.left, (right.flip Manner.quiet_reverses).inScope Manner.quiet_tidy,
    kin.values.comp (right.inlined Manner.quiet_tidy)⟩

namespace Heap

theorem twins_flip (g g' : Heap) : (g.twins g').flip ≤ g'.twins g := by
  refine le_twins ⟨fun r' r cells => ?_, fun r' r actions => ?_⟩
  · obtain ⟨c, c', state, state', like⟩ := (twins_fits g g').cells r r' cells
    exact ⟨c', c, state', state, like.flip⟩
  · obtain ⟨c, c', state, state', like⟩ := (twins_fits g g').actions r r' actions
    exact ⟨c', c, state', state, like.flip⟩

theorem across_mono (left : g.Grows a) (kin : d.Grows d') (kin' : e.Grows e')
    (right : g'.Grows a') : g.across d e g' ≤ a.across d' e' a' :=
  Bond.comp_mono (Bond.comp_mono (twins_mono left kin) (kin_mono kin kin')) (twins_mono kin' right)

theorem across_flip (g d e g' : Heap) : (g.across d e g').flip ≤ g'.across e d g := by
  constructor
  · rintro r' r ⟨o', ⟨o, first, kin⟩, last⟩
    exact ⟨o, ⟨o', (twins_flip e g').1 _ _ last, (kin_flip d e).1 _ _ kin⟩,
      (twins_flip g d).1 _ _ first⟩
  · rintro r' r ⟨o', ⟨o, first, kin⟩, last⟩
    exact ⟨o, ⟨o', (twins_flip e g').2 _ _ last, (kin_flip d e).2 _ _ kin⟩,
      (twins_flip g d).2 _ _ first⟩

/-- A cell that has a twin is one of itself. -/
theorem twins_self (known : (g.twins d).cells r o) : (g.twins g).cells r r := by
  have back := (twins_flip g d).1 _ _ known
  exact twins_peers back back

/-! ### Effects -/

theorem offers_of_twins (actions : (g.twins d).actions r o) :
    ∃ b b' ps ps', g.Offers r b ps ∧ d.Offers o b' ps' ∧
      BodyLike .quiet (g.twins d) true ps.length b b' ∧ RefsLike (g.twins d) ps ps' := by
  obtain ⟨c, c', state, state', like⟩ := (twins_fits g d).actions r o actions
  cases like with
  | made bodies parameters =>
    exact ⟨_, _, _, _, ⟨_, state⟩, ⟨_, state'⟩, bodies, parameters⟩

theorem offers_of_kin (actions : (d.kin e).actions o o') :
    ∃ b b' ps ps', d.Offers o b ps ∧ e.Offers o' b' ps' ∧
      BodyLike .quiet (d.kin e) true ps.length (b.inlined ps.length) (b'.inlined ps.length) ∧
        RefsLike (d.kin e) ps ps' := by
  obtain ⟨c, c', tells, tells', like⟩ := (kin_suits d e).actions o o' actions
  cases like with
  | made bodies parameters =>
    have count : _ = _ := parameters.length_eq
    cases tells with
    | pending _ plain => exact plain.elim
    | action state =>
      cases tells' with
      | pending _ plain => exact plain.elim
      | action state' =>
        rw [← count] at bodies
        exact ⟨_, _, _, _, ⟨_, state⟩, ⟨_, state'⟩, bodies, parameters⟩

theorem Offers.same {b b' : Body} {ps ps' : List Ref} (first : g.Offers r b ps)
    (second : g.Offers r b' ps') : b = b' ∧ ps = ps' := by
  obtain ⟨_, state⟩ := first
  obtain ⟨_, state'⟩ := second
  cases state.symm.trans state'
  exact ⟨rfl, rfl⟩

/-- Bonded effects are of bodies that tell the like, and of bonded parameters. -/
theorem offers_of_across (actions : (g.across d e g').actions r r') :
    ∃ b b' ps ps', g.Offers r b ps ∧ g'.Offers r' b' ps' ∧
      BodyLike .quiet (g.across d e g') true ps.length (b.inlined ps.length)
        (b'.inlined ps.length) ∧ RefsLike (g.across d e g') ps ps' := by
  obtain ⟨o', ⟨o, first, kin⟩, last⟩ := actions
  obtain ⟨b, b₁, ps, ps₁, offers, offers₁, bodies, parameters⟩ := offers_of_twins first
  obtain ⟨b₁', b₂, ps₁', ps₂, again, offers₂, bodies₁, parameters₁⟩ := offers_of_kin kin
  obtain ⟨b₂', b', ps₂', ps', again', offers', bodies₂, parameters₂⟩ := offers_of_twins last
  obtain ⟨rfl, rfl⟩ := offers₁.same again
  obtain ⟨rfl, rfl⟩ := offers₂.same again'
  have count : ps.length = ps₁.length := parameters.length_eq
  have count₁ : ps₁.length = ps₂.length := parameters₁.length_eq
  rw [← count] at bodies₁
  rw [← count₁, ← count] at bodies₂
  exact ⟨b, b', ps, ps', offers, offers',
    ((bodies.inlined Manner.quiet_tidy).comp bodies₁).comp (bodies₂.inlined Manner.quiet_tidy),
    (parameters.comp parameters₁).comp parameters₂⟩

/-- While nothing is performed, effects are where they have been made. -/
theorem Backs.offers {b : Body} {ps : List Ref} (backs : g.Backs bound s)
    (offers : g.Offers r b ps) : s.heap.Offers r b ps := by
  obtain ⟨t, mat, honours, idle⟩ := backs
  obtain ⟨site, state⟩ := offers
  have performs : Work.Performs { task := .resume (.action b ps), site } := ⟨b, ps, rfl⟩
  obtain ⟨c, now, became⟩ := honours.now state
  cases became with
  | busy calm => exact absurd performs calm
  | done calm => exact absurd performs calm
  | same =>
    cases mat.heap.cells r with
    | lent loan => cases loan
    | done _ _ forced => simp [now] at forced
    | same states =>
      rw [now] at states
      generalize left : s.heap.state? r = c at states
      cases states with
      | @pending w _ works =>
        obtain ⟨task, site'⟩ := w
        obtain ⟨tasks, _⟩ := works
        cases tasks with
        | resume suspensions =>
          cases suspensions with
          | action _ bodies parameters =>
            cases bodies.eq
            cases refsLike_same.1 parameters
            exact ⟨_, left⟩

/-! ### Forcing -/

/-- What a cell means, a twin of it means, once its heap has got the cells it takes. -/
theorem Means.carried (means : g.Means bound n (.cell r) v) (known : (g.twins d).cells r o)
    (idle : ∀ q, d.state? q ≠ some .forcing) :
    ∃ d' w m, d.Grows d' ∧ (∀ q, d'.state? q ≠ some .forcing) ∧
      d'.Means bound m (.cell o) w ∧ ValueLike .quiet (g.twins d') v w := by
  let E : Engine := { bound, splices := false }
  have answered : Aim.Answered E g n (.cell r) := means.answered rfl
  have free : Heap.Free bound n d d := fun q forcing => absurd forcing (idle q)
  obtain ⟨d', w, t, _, found⟩ :=
    answered d { heap := d } o (d.honours_self bound idle) known free
  have cells := (twins_mono g.grows_refl found.grows).1 _ _ known
  exact ⟨d', w, n, found.grows, found.honours.idle, found.means,
    (means.agree found.means (.cell cells)).2⟩

end Heap

namespace Store.LinkedBy

theorem symm (link : LinkedBy bound g d e g' B s s') : LinkedBy bound g' e d g B.flip s' s := by
  refine ⟨link.right, link.left, link.idle', link.idle, ?_⟩
  have flipped : B.flip ≤ (g.across d e g').flip :=
    ⟨fun r' r => link.bonds.1 r r', fun r' r => link.bonds.2 r r'⟩
  exact Bond.le_trans flipped (Heap.across_flip g d e g')

theorem raise {more : Nat} (link : LinkedBy bound g d e g' B s s') (le : bound ≤ more) :
    LinkedBy more g d e g' B s s' :=
  ⟨link.left.raise le, link.right.raise le, link.idle, link.idle', link.bonds⟩

theorem bonds_of_grows (link : LinkedBy bound g d e g' B s s') (left : g.Grows a) (kin : d.Grows d')
    (kin' : e.Grows e') (right : g'.Grows a') : B ≤ a.across d' e' a' :=
  Bond.le_trans link.bonds (Heap.across_mono left kin kin' right)

/-- A bonded cell is forced on the left. What stands for the other cell means the like of what it is
    forced to. -/
theorem forced (link : LinkedBy bound g d e g' B s s') (cells : B.cells r r')
    (forces : s.Forces r v t) :
    ∃ more a d' e' o' m site u x, LinkedBy more a d' e' g' B t s' ∧ (e'.twins g').cells o' r' ∧
      e'.Means more m (.cell o') x ∧ u.Kin ((a.twins d').comp (d'.kin e')) x ∧
        Demand.pure.reply site u = .resume v := by
  obtain ⟨o', ⟨o, first, kin⟩, last⟩ := link.bonds.1 r r' cells
  obtain ⟨a, more, n, site, u, le, grows, backs, means, reply⟩ :=
    link.left.forced (Heap.twins_self first) forces
  have first := (Heap.twins_mono grows d.grows_refl).1 _ _ first
  obtain ⟨d', w, k, wider, idle, carried, values⟩ := means.carried first link.idle
  have kin := (Heap.kin_mono wider e.grows_refl).1 _ _ kin
  obtain ⟨e', told⟩ := retold more d' (k + 1) k (Nat.lt_succ_self k) e o o' w carried kin
  obtain ⟨m, x, meant, alike⟩ := told.means
  have idle' : ∀ q, e'.state? q ≠ some .forcing := fun q busy =>
    link.idle' q ((told.kept.forcing q).1 busy)
  have bonds := link.bonds_of_grows grows wider told.grows g'.grows_refl
  exact ⟨more, a, d', e', o', m, site, u, x, ⟨backs, link.right.raise le, idle, idle', bonds⟩,
    (Heap.twins_mono told.grows g'.grows_refl).1 _ _ last, meant, alike.after values, reply⟩

theorem ends (link : LinkedBy bound g d e g' B s s') (cells : B.cells r r') (ends : s.Ends r) :
    s'.Ends r' := by
  obtain ⟨v, t, forces⟩ := ends
  obtain ⟨_, a, d', e', o', m, site, u, x, later, known, means, _⟩ := link.forced cells forces
  exact later.right.ends known means

end Store.LinkedBy

namespace Store.Linked

theorem symm (linked : Linked B s s') : Linked B.flip s' s := by
  obtain ⟨bound, g, d, e, g', link⟩ := linked
  exact ⟨bound, g', e, d, g, link.symm⟩

theorem ends (linked : Linked B s s') (cells : B.cells r r') : s.Ends r ↔ s'.Ends r' := by
  obtain ⟨bound, g, d, e, g', link⟩ := linked
  exact ⟨link.ends cells, link.symm.ends cells⟩

theorem left (linked : Linked B s s') (cells : B.cells r r') (forces : s.Forces r v t) :
    Linked B t s' := by
  obtain ⟨bound, g, d, e, g', link⟩ := linked
  obtain ⟨more, a, d', e', _, _, _, _, _, later, _⟩ := link.forced cells forces
  exact ⟨more, a, d', e', g', later⟩

theorem right (linked : Linked B s s') (cells : B.cells r r') (forces : s'.Forces r' v' t') :
    Linked B s t' :=
  (linked.symm.left cells forces).symm

theorem values (linked : Linked B s s') (cells : B.cells r r') (forces : s.Forces r v t)
    (forces' : s'.Forces r' v' t') : ∃ C, B ≤ C ∧ v.Kin C v' ∧ Linked C t t' := by
  obtain ⟨bound, g, d, e, g', link⟩ := linked
  obtain ⟨more, a, d', e', o', m, site, u, x, later, known, means, kin, reply⟩ :=
    link.forced cells forces
  obtain ⟨a', most, n, site', u', le, grows, backs, means', reply'⟩ :=
    later.right.forced (Heap.twins_self ((Heap.twins_flip e' g').1 _ _ known)) forces'
  have known := (Heap.twins_mono e'.grows_refl grows).1 _ _ known
  have values := ((means.raise le (.cell o')).agree means' (.cell known)).2
  have bonds := later.bonds_of_grows a.grows_refl d'.grows_refl e'.grows_refl grows
  exact ⟨a.across d' e' a', bonds, (kin.before values).reply reply reply', most, a, d', e', a',
    later.left.raise le, backs, later.idle, later.idle', Bond.le_refl _⟩

theorem effects (linked : Linked B s s') (actions : B.actions r r') :
    ∃ b b' ps ps' C, s.heap.Offers r b ps ∧ s'.heap.Offers r' b' ps' ∧ B ≤ C ∧
      BodyLike .quiet C true ps.length (b.inlined ps.length) (b'.inlined ps.length) ∧
        RefsLike C ps ps' ∧ Linked C s s' := by
  obtain ⟨bound, g, d, e, g', link⟩ := linked
  obtain ⟨b, b', ps, ps', offers, offers', bodies, parameters⟩ :=
    Heap.offers_of_across (link.bonds.2 r r' actions)
  exact ⟨b, b', ps, ps', g.across d e g', link.left.offers offers, link.right.offers offers',
    link.bonds, bodies, parameters, bound, g, d, e, g', link.left, link.right, link.idle,
    link.idle', Bond.le_refl _⟩

end Store.Linked
end
end CallByNeed
