import CallByNeed.Proofs.Order.Explained
import CallByNeed.Proofs.Splicing

/- Whatever a cell means, the engine returns for its twins, and the twins mean it in as many steps. No
   cell is in the way that is being forced already: it would need more steps than are left. -/
namespace CallByNeed

/-- To mean anything, cells that are being forced need more than `n` steps. -/
def Heap.Free (bound n : Nat) (g h : Heap) : Prop :=
  ∀ r, h.state? r = some .forcing →
    ∀ a j u, g.Grows a → a.Means bound j (.cell r) u → n < j

/-- What takes `n` steps in `g` is returned for twins of it, wherever these are. -/
def Aim.Answered (E : Engine) (g : Heap) (n : Nat) : Aim → Prop
  | .cell r => ∀ (g' : Heap) (s : Store) (r' : Ref), g'.Honours E.bound s.heap →
      (g.twins g').cells r r' → Heap.Free E.bound n g' s.heap →
      ∃ g'' v' s', E.Returns (.enter r') s v' s' ∧
        Heap.Explains E.bound n g' s.heap (.cell r') v' (fun _ => True) g'' s'.heap
  | .body script => ∀ (g' : Heap) (s : Store) (held : Held) (cell : Ref) (site : Option Location)
      (script' : Script Outcome), g'.Honours E.bound s.heap → s.heap.state? cell = some .forcing →
      held.Twinned g g' → held.Open s.heap → Script.Lasts (g.twins g') held script script' →
      Heap.Free E.bound n g' s.heap →
      ∃ g'' v' h s', E.Returns (.run cell site script') s v' s' ∧
        Heap.Explains E.bound n g' s.heap (.body script') v' held.Spares g'' h ∧
        s'.heap = h.publish cell v'

section
variable {E : Engine} {g g' g'' h h' : Heap} {n m bound : Nat} {r r' : Ref} {v : Value}
variable {spared : Ref → Prop} {w w' : Work}

theorem Heap.Free.mono (free : Heap.Free bound n g h) (le : m ≤ n) (grows : g.Grows g')
    (kept : h.Kept h' spared) : Heap.Free bound m g' h' := by
  intro r forcing a j u wider means
  have less := free r ((kept.forcing r).1 forcing) a j u (grows.trans wider) means
  omega

/-- A cell that nobody has forced yet. -/
theorem answered_start (body : g.Means E.bound n (.body (w.task.script E.bound)) v)
    (ih : Aim.Answered E g n (.body (w.task.script E.bound)))
    (state : g.state? r = some (.pending w)) (known : (g.twins g').cells r r')
    (state' : g'.state? r' = some (.pending w')) (works : WorkLike .quiet (g.twins g') w w')
    {s : Store} (honours : g'.Honours E.bound s.heap)
    (pending : s.heap.state? r' = some (.pending w')) (free : Heap.Free E.bound (n + 1) g' s.heap) :
    ∃ g'' v' s', E.Returns (.enter r') s v' s' ∧
      Heap.Explains E.bound (n + 1) g' s.heap (.cell r') v' (fun _ => True) g'' s'.heap := by
  have forcing := Heap.state?_setState_self pending .forcing
  have free' : Heap.Free E.bound n g' (s.heap.setState r' .forcing) := by
    intro q busy a j u grows means
    by_cases same : q = r'
    · subst same
      have both := Heap.twins_mono g.grows_refl grows
      have count := (body.pending state).agree means (.cell (both.1 _ _ known))
      omega
    · rw [Heap.state?_setState_ne same] at busy
      have less := free q busy a j u grows means
      omega
  obtain ⟨g'', v', h, s', returns, found, published⟩ :=
    ih g' { s with heap := s.heap.setState r' .forcing } .nothing r' w'.site _
      (honours.start pending works.calm.2) forcing Held.twinned_nothing Held.open_nothing
      (works.lasts E.bound) free'
  have means := found.means.pending (found.grows _ _ state' (by simp))
  have still := (found.kept.forcing r').2 forcing
  refine ⟨g'', v', s', .start pending returns, found.grows, ?_, means, ?_⟩
  · rw [published]
    exact found.honours.publish still means
  · rw [published]
    refine Heap.kept_of_forced pending (found.kept.weaken ?_) v'
    rintro q - ⟨⟩

/-- The engine returns what is meant by a twin. -/
theorem Heap.Means.answered (unspliced : E.splices = false) {aim : Aim}
    (means : g.Means E.bound n aim v) : aim.Answered E g n := by
  induction means with
  | forced state resembles =>
    intro g' s r' honours known free
    cases Heap.twinned known with
    | pending left => simp [state] at left
    | redirect left => simp [state] at left
    | forced left right values =>
      obtain ⟨c, now, became⟩ := honours.now right
      cases became with
      | same idle =>
        have means : g'.Means E.bound 0 (.cell r') _ := .forced right (.same _)
        exact ⟨g', _, s, .found now, g'.grows_refl, honours, means, Heap.kept_refl _ _⟩
  | redirect state _ ih =>
    intro g' s r' honours known free
    cases Heap.twinned known with
    | pending left => simp [state] at left
    | forced left => simp [state] at left
    | redirect left right targets =>
      cases state.symm.trans left
      obtain ⟨c, now, became⟩ := honours.now right
      cases became with
      | same idle =>
        have free' := free.mono (Nat.le_succ _) g'.grows_refl (Heap.kept_refl _ fun _ => True)
        obtain ⟨g'', v', s', returns, found⟩ := ih g' s _ honours targets free'
        have means := found.means.redirect (found.grows _ _ right (by simp))
        exact ⟨g'', v', s', .follow now returns, found.grows, found.honours, means, found.kept⟩
  | @pending n r w v state body ih =>
    intro g' s r' honours known free
    cases Heap.twinned known with
    | forced left => simp [state] at left
    | redirect left => simp [state] at left
    | @pending _ w' left right works =>
      cases state.symm.trans left
      have start {s : Store} := answered_start (s := s) body ih state known right works
      obtain ⟨c, now, became⟩ := honours.now right
      cases became with
      | same idle => exact start honours now free
      | busy =>
        -- Forced afresh, the cell would mean something in too few steps.
        have idle := honours.idle
        have nobody : Heap.Free E.bound (n + 1) g' g' := fun q forcing => absurd forcing (idle q)
        obtain ⟨g'', v', s', _, found⟩ :=
          start (s := { heap := g' }) (g'.honours_self E.bound idle) right nobody
        have less := free r' now g'' (n + 1) v' found.grows found.means
        omega
      | done =>
        obtain ⟨m, means⟩ := honours.means now
        obtain ⟨rfl, _⟩ := (body.pending state).agree means (.cell known)
        exact ⟨g', _, s, .found now, g'.grows_refl, honours, means, Heap.kept_refl _ _⟩
  | value resembles =>
    intro g' s held cell site script' honours forcing mine opened lasts free
    obtain ⟨v', rfl, _⟩ := lasts.of_value
    have means : g'.Means E.bound 0 (.body (.done (.value v'))) (v'.through? site) :=
      .value (v'.resembles_through? site)
    exact ⟨g', _, s.heap, _, .value, ⟨g'.grows_refl, honours, means, Heap.kept_refl _ _⟩, rfl⟩
  | fault cause =>
    intro g' s held cell site script' honours forcing mine opened lasts free
    obtain ⟨e, rfl, _⟩ := lasts.of_fault
    have means : g'.Means E.bound 0 (.body (.raise e)) (.error (e.through? site)) :=
      .fault (by cases site <;> rfl)
    exact ⟨g', _, s.heap, _, .fault, ⟨g'.grows_refl, honours, means, Heap.kept_refl _ _⟩, rfl⟩
  | tail _ ih =>
    intro g' s held cell site script' honours forcing mine opened lasts free
    obtain ⟨r', rfl, known⟩ := lasts.of_tail
    have free' := free.mono (Nat.le_succ _) g'.grows_refl (Heap.kept_refl _ fun _ => True)
    obtain ⟨g'', v', s', returns, found⟩ := ih g' s r' honours known free'
    have means := (Heap.Means.tail found.means).resembling (v'.resembles_through? site)
    have keeps : E.splices = true → ∀ w, s.heap.state? r' ≠ some (.pending w) := by
      simp [unspliced]
    exact ⟨g'', _, s'.heap, _, .tail keeps returns, ⟨found.grows, found.honours, means,
      found.kept.weaken fun _ _ => trivial⟩, rfl⟩
  | @demand n m r site' next v v' u first reply _ ih ih' =>
    intro g' s held cell site script' honours forcing mine opened lasts free
    obtain ⟨-, r', next', rfl, known, rest⟩ := lasts.of_demand
    have free₁ := free.mono (m := n) (by omega) g'.grows_refl (Heap.kept_refl _ fun _ => True)
    obtain ⟨g₁, v₁, s₁, returns, found⟩ := ih g' s r' honours known free₁
    have grows := Heap.twins_mono g.grows_refl found.grows
    have values := (first.agree found.means (.cell (grows.1 _ _ known))).2
    obtain ⟨u₁, reply₁⟩ := Demand.pure_reply (s₁.heap.site? r') v₁
    have free₂ := free.mono (m := m) (by omega) found.grows found.kept
    obtain ⟨g₂, v₂, h, s₂, returns', found', published⟩ := ih' g₁ s₁ held cell site (next' u₁)
      found.honours ((found.kept.forcing cell).2 forcing) (mine.mono g.grows_refl found.grows)
      (opened.kept rfl found.kept) (rest _ grows _ _ (values.reply reply reply₁)) free₂
    refine ⟨g₂, v₂, h, s₂, .demand returns reply₁ returns',
      ⟨found.grows.trans found'.grows, found'.honours, ?_, ?_⟩, published⟩
    · exact .demand (found.means.mono found'.grows) reply₁ found'.means
    · exact (found.kept.weaken fun _ _ => trivial).trans found'.kept fun _ spares _ => spares
  | @alloc n r c next v state full _ ih =>
    intro g' s held cell site script' honours forcing mine opened lasts free
    have nonempty : c ≠ .vacant := by
      rintro rfl
      exact full rfl
    obtain ⟨c', next', rfl, full', idle, rest⟩ := lasts.of_alloc nonempty
    obtain ⟨same, honours'⟩ := honours.alloc idle
    have grows := g'.grows_alloc c'
    have kept := s.heap.kept_alloc idle
    have state' := g'.state?_new c'
    obtain ⟨held', handle, mine', lasts'⟩ := rest _ _ _ _ g.grows_refl grows state state' mine
    rw [same] at lasts' state'
    obtain ⟨g'', v', h, s', returns, found, published⟩ := ih _ (s.act (.alloc c')).2 held' cell site
      _ honours' (((kept fun _ => True).forcing cell).2 forcing) mine' (opened.kept handle (kept _))
      lasts' (free.mono (Nat.le_succ n) grows (kept fun _ => True))
    refine ⟨g'', v', h, s', .act returns, ⟨grows.trans found.grows, found.honours, ?_, ?_⟩,
      published⟩
    · exact .alloc (found.grows _ _ state' full') full' found.means
    · refine (kept held.Spares).trans found.kept fun r spares _ => ?_
      rw [Held.Spares, handle]
      exact spares
  | @vacant n next v r _ ih =>
    intro g' s held cell site script' honours forcing mine opened lasts free
    obtain ⟨rfl, next', rfl, rest⟩ := lasts.of_vacant
    have idle : Cell.vacant.state ≠ .forcing := by simp [Cell.vacant]
    obtain ⟨-, honours'⟩ := honours.alloc idle
    have grows := g'.grows_alloc .vacant
    have kept := s.heap.kept_alloc idle fun _ => True
    let r' := (s.heap.alloc .vacant).1
    have mine' : Held.Twinned g (g'.alloc .vacant).2 (.knot r r' []) := by
      intro p mem
      cases mem
    have opened' : Held.Open (s.heap.alloc .vacant).2 (.knot r r' []) := by
      rintro _ ⟨⟩
      exact s.heap.state?_new .vacant
    obtain ⟨g'', v', h, s', returns, found, published⟩ := ih _ (s.act (.alloc .vacant)).2 _ cell site
      _ honours' ((kept.forcing cell).2 forcing) mine' opened'
      ((rest r r').mono (Heap.twins_mono g.grows_refl grows)) (free.mono (Nat.le_succ n) grows kept)
    refine ⟨g'', v', h, s', .act returns,
      ⟨grows.trans found.grows, found.honours, .vacant r' found.means, ?_⟩, published⟩
    refine (kept.weaken fun _ _ => trivial).trans found.kept fun q _ vacant same => ?_
    exact Heap.ne_of_vacant vacant .vacant (Option.some.inj same).symm
  | @fill n handle target next v state _ ih =>
    intro g' s held cell site script' honours forcing mine opened lasts free
    obtain ⟨handle', target', made, next', rfl, rfl, pair, rest⟩ := lasts.of_fill
    have vacant : s.heap.state? handle' = some .vacant := opened handle' rfl
    have filled : s.act (.fill handle' target') =
        (true, { s with heap := s.heap.setState handle' (.redirect target') }) := by
      simp [Store.act, Heap.fill, vacant]
    have origin := honours.vacant vacant
    have grows := Heap.grows_fill origin (.redirect target')
    have state' := Heap.state?_setState_self origin (.redirect target')
    have known := (mine.mono g.grows_refl grows).tied pair state state'
    have kept : s.heap.Kept (s.heap.setState handle' (.redirect target'))
        (Held.knot handle handle' made).Spares := by
      refine Heap.kept_fill vacant target' ?_
      rintro q spares rfl
      exact spares rfl
    obtain ⟨g'', v', h, s', returns, found, published⟩ := ih _ (s.act (.fill handle' target')).2
      .nothing cell site (next' true) (by rw [filled]; exact honours.fill vacant target')
      (by rw [filled]; exact (kept.forcing cell).2 forcing) Held.twinned_nothing Held.open_nothing
      (rest _ (Heap.twins_mono g.grows_refl grows) known)
      (by rw [filled]; exact free.mono (Nat.le_succ n) grows kept)
    refine ⟨g'', v', h, s', .act ?_, ⟨grows.trans found.grows, found.honours, ?_, ?_⟩, published⟩
    · rw [show (s.act (.fill handle' target')).1 = true by rw [filled]]
      exact returns
    · exact .fill (found.grows _ _ state' (by simp)) found.means
    · have kept' := found.kept
      rw [filled] at kept'
      exact kept.trans kept' fun _ _ _ same => by cases same
  | trace _ ih =>
    intro g' s held cell site script' honours forcing mine opened lasts free
    obtain ⟨next', rfl, rest⟩ := lasts.of_trace
    have free' := free.mono (Nat.le_succ _) g'.grows_refl (Heap.kept_refl _ fun _ => True)
    obtain ⟨g'', v', h, s', returns, found, published⟩ :=
      ih g' (s.act (.trace _)).2 held cell site _ honours forcing mine opened rest free'
    exact ⟨g'', v', h, s', .act returns,
      ⟨found.grows, found.honours, .trace found.means, found.kept⟩, published⟩
  | submit _ ih =>
    intro g' s held cell site script' honours forcing mine opened lasts free
    obtain ⟨job', next', rfl, rest⟩ := lasts.of_submit
    have free' := free.mono (Nat.le_succ _) g'.grows_refl (Heap.kept_refl _ fun _ => True)
    obtain ⟨g'', v', h, s', returns, found, published⟩ :=
      ih g' (s.act (.submit job')).2 held cell site _ honours forcing mine opened rest free'
    exact ⟨g'', v', h, s', .act returns,
      ⟨found.grows, found.honours, .submit found.means, found.kept⟩, published⟩

end

/-! ### Stores between evaluations

Stores between two evaluations. The engine that takes over the work of tails is compared with the one
that forces them in turn, and that one with what cells mean. -/

open Relation (ReflTransGen)

/-- What the two engines are compared in: nothing is asked of code, and chains do not matter. -/
def Manner.chainless : Manner where
  chains := fun _ _ => True
  chains_nil := trivial
  lax := False
  hosted := True
  strays := True

theorem Manner.chainless_compares (bound : Nat) :
    Manner.chainless.Compares { bound, splices := true } { bound, splices := false } := by
  constructor
  case toAdmits => exact ⟨trivial, trivial, fun _ => trivial⟩
  case bounds => exact .inl rfl
  case through => exact fun _ _ _ _ => trivial
  case splices => exact .inr ⟨rfl, rfl⟩
  case longer => exact fun _ _ _ _ _ => trivial

/-- `s` is at rest and has the cells of `g`; those that are forced have the values that they mean. -/
def Heap.Backs (bound : Nat) (g : Heap) (s : Store) : Prop :=
  ∃ t : Store, StoreMatch .chainless [] s t ∧ g.Honours bound t.heap ∧
    ∀ r, t.heap.state? r ≠ some .forcing

theorem Value.resembles_of_like {v v' : Value} (values : ValueLike .chainless .same v v') :
    v.Resembles v' := by
  rcases values.eq_or_error with same | ⟨e, e', rfl, rfl, faults⟩
  · rw [same]
    exact .same v'
  · exact .error faults.cause

section
variable {bound more n : Nat} {g g' : Heap} {s s' : Store} {r r' : Ref} {v : Value}

theorem machineMatch_enter {s t : Store} (mat : StoreMatch .chainless [] s t) (r : Ref) :
    MachineMatch .chainless (Engine.Apart { bound, splices := true } { bound, splices := false })
      (.enter r, [], s) (.enter r, [], t) :=
  ⟨[], .enter r .nil, mat⟩

namespace Heap.Backs

theorem raise (backs : g.Backs bound s) (le : bound ≤ more) : g.Backs more s := by
  obtain ⟨t, mat, honours, idle⟩ := backs
  exact ⟨t, mat, honours.raise le, idle⟩

/-- What a cell is forced to is what it means, once the store has got the cells it takes. -/
theorem forced (backs : g.Backs bound s) (known : (g.twins g).cells r r)
    (forces : s.Forces r v s') :
    ∃ g' more n site u, bound ≤ more ∧ g.Grows g' ∧ g'.Backs more s' ∧
      g'.Means more n (.cell r) u ∧ Demand.pure.reply site u = .resume v := by
  obtain ⟨t, mat, honours, idle⟩ := backs
  obtain ⟨bound', u, moves, reply⟩ := Store.forces_iff.1 forces
  obtain ⟨x, t', moves', values, mat'⟩ :=
    Engine.right_end_of_match (Manner.chainless_compares bound') (machineMatch_enter mat r) moves
  have returns := Engine.returns_of_moves moves'
  obtain ⟨g', n, found⟩ := returns.explained rfl (Nat.le_max_right bound bound') g
    (honours.raise (Nat.le_max_left bound bound')) known
  refine ⟨g', _, n, _, u, Nat.le_max_left bound bound', found.grows, ⟨t', mat', found.honours, ?_⟩,
    found.means.resembling (Value.resembles_of_like values).symm, reply⟩
  exact fun q forcing => idle q ((found.kept.forcing q).1 forcing)

/-- A cell comes to an end if a twin of it means something. -/
theorem ends (backs : g'.Backs more s) (known : (g.twins g').cells r r')
    (means : g.Means more n (.cell r) v) : s.Ends r' := by
  obtain ⟨t, mat, honours, idle⟩ := backs
  let E : Engine := { bound := more, splices := false }
  have answered : Aim.Answered E g n (.cell r) := means.answered rfl
  have free : Heap.Free more n g' t.heap := fun q forcing => absurd forcing (idle q)
  obtain ⟨g'', u, t', returns, -⟩ := answered g' t r' honours known free
  obtain ⟨x, s', moves, -, -⟩ := Engine.left_end_of_match (Manner.chainless_compares more) id
    (machineMatch_enter mat r') (returns.moves [])
  obtain ⟨shown, reply⟩ := Demand.pure_reply (s'.heap.site? r') x
  exact ⟨shown, s', Store.forces_iff.2 ⟨more, x, moves, reply⟩⟩

end Heap.Backs
end
end CallByNeed
