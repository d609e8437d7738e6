import CallByNeed.Proofs.Engine.Returns
import CallByNeed.Proofs.Order.Honours
import CallByNeed.Proofs.Order.Lasting

/- Whatever the engine returns for a cell is what the cell means. The engine forces each tail in
   turn here, and the loops of the meaning may go on for longer than its own. -/
namespace CallByNeed

/-- From `h` to `h'`, which honour `g` and then `g'`, the meaning of something has been found. -/
structure Heap.Explains (bound n : Nat) (g h : Heap) (aim : Aim) (v : Value)
    (spared : Ref → Prop) (g' h' : Heap) : Prop where
  grows : g.Grows g'
  honours : g'.Honours bound h'
  means : g'.Means bound n aim v
  kept : h.Kept h' spared

/-- The value of a cell is explained, and so is that of a body just before it is published. -/
def Control.Explained (bound : Nat) (s s' : Store) (v : Value) : Control → Prop
  | .enter r => ∀ g : Heap, g.Honours bound s.heap → (g.twins g).cells r r →
      ∃ g' n, Heap.Explains bound n g s.heap (.cell r) v (fun _ => True) g' s'.heap
  | .run cell _ script => ∀ (g : Heap) (held : Held), g.Honours bound s.heap →
      s.heap.state? cell = some .forcing → held.Twinned g g → held.Open s.heap →
      Script.Lasts (g.twins g) held script script →
      ∃ g' n h, Heap.Explains bound n g s.heap (.body script) v held.Spares g' h ∧
        s'.heap = h.publish cell v
  | .give _ => True

section
variable {bound n m : Nat} {g g' g₁ h h' h₁ : Heap} {held held' : Held} {r t : Ref} {v u : Value}
variable {aim : Aim} {spared : Ref → Prop} {w : Work} {site : Option Location}

theorem Held.Open.kept (opened : held.Open h) (same : held'.handle = held.handle)
    (kept : h.Kept h' fun _ => True) : held'.Open h' := by
  intro r handle
  exact kept.vacant r trivial (opened r (same ▸ handle))

/-- A new cell is not one that was vacant before. -/
theorem Heap.ne_of_vacant (state : h.state? r = some .vacant) (c : Cell) : r ≠ (h.alloc c).1 := by
  rintro rfl
  rw [show (h.alloc c).1 = ⟨h.size⟩ from rfl, Heap.state?_size] at state
  cases state

/-- The new cell is a handle that nothing has been made for. -/
theorem Held.open_new (h : Heap) (q : Ref) :
    Held.Open (h.alloc .vacant).2 (.knot q (h.alloc .vacant).1 []) := by
  rintro _ ⟨⟩
  exact h.state?_new .vacant

namespace Heap.Explains

/-- A step that changes no cell and means what comes after it. -/
theorem step {aim' : Aim} (found : Explains bound n g h aim v spared g' h')
    (means : g'.Means bound m aim' u) : Explains bound m g h aim' u spared g' h' :=
  ⟨found.grows, found.honours, means, found.kept⟩

theorem weaken {narrow : Ref → Prop} (found : Explains bound n g h aim v spared g' h')
    (narrower : ∀ q, narrow q → spared q) : Explains bound n g h aim v narrow g' h' :=
  ⟨found.grows, found.honours, found.means, found.kept.weaken narrower⟩

/-- The body of a cell has been run, and its value is published. -/
theorem publish (origin : g.state? r = some (.pending w)) (pending : h.state? r = some (.pending w))
    (found : Explains bound n g (h.setState r .forcing) (.body (w.task.script bound)) v
      Held.nothing.Spares g' h') :
    Explains bound (n + 1) g h (.cell r) v (fun _ => True) g' (h'.publish r v) := by
  have means := found.means.pending (found.grows _ _ origin (by simp))
  have forcing := Heap.state?_setState_self pending .forcing
  have still := (found.kept.forcing r).2 forcing
  refine ⟨found.grows, found.honours.publish still means, means, ?_⟩
  refine Heap.kept_of_forced pending (found.kept.weaken ?_) v
  rintro q - ⟨⟩

theorem tail (site : Option Location)
    (found : Explains bound n g h (.cell r) v (fun _ => True) g' h') :
    Explains bound (n + 1) g h (.body (.done (.tail r))) (v.through? site) spared g' h' := by
  have means := (Heap.Means.tail found.means).resembling (v.resembles_through? site)
  exact (found.step means).weaken fun _ _ => trivial

theorem demand {next : Value → Script Outcome} {v' : Value}
    (first : Explains bound n g h (.cell r) v (fun _ => True) g₁ h₁)
    (reply : Demand.pure.reply site v = .resume v')
    (second : Explains bound m g₁ h₁ (.body (next v')) u spared g' h') :
    Explains bound (n + m + 1) g h (.body (.demand .pure r next)) u spared g' h' := by
  refine ⟨first.grows.trans second.grows, second.honours, ?_, ?_⟩
  · exact .demand (first.means.mono second.grows) reply second.means
  · exact (first.kept.weaken fun _ _ => trivial).trans second.kept fun _ spares _ => spares

/-- The script makes a cell that is not a handle. -/
theorem alloc {c : Cell} {next : Ref → Script Outcome} (full : c.state ≠ .vacant)
    (idle : c.state ≠ .forcing) (same : (g.alloc c).1 = (h.alloc c).1)
    (handle : held'.handle = held.handle)
    (found : Explains bound n (g.alloc c).2 (h.alloc c).2 (.body (next (h.alloc c).1)) v
      held'.Spares g' h') :
    Explains bound (n + 1) g h (.body (.act (.alloc c) next)) v held.Spares g' h' := by
  have state := found.grows _ _ (g.state?_new c) full
  rw [same] at state
  refine ⟨(g.grows_alloc c).trans found.grows, found.honours, .alloc state full found.means, ?_⟩
  refine (h.kept_alloc idle held.Spares).trans found.kept fun q spares _ => ?_
  rw [Held.Spares, handle]
  exact spares

/-- The script makes a handle, which stays vacant until the script fills it. -/
theorem vacant {next : Ref → Script Outcome} {q : Ref} {made : List (Ref × Ref)}
    (found : Explains bound n (g.alloc .vacant).2 (h.alloc .vacant).2
      (.body (next (h.alloc .vacant).1)) v (Held.knot q (h.alloc .vacant).1 made).Spares g' h') :
    Explains bound (n + 1) g h (.body (.act (.alloc .vacant) next)) v spared g' h' := by
  have idle : Cell.vacant.state ≠ .forcing := by simp [Cell.vacant]
  refine ⟨(g.grows_alloc .vacant).trans found.grows, found.honours, .vacant _ found.means, ?_⟩
  refine (h.kept_alloc idle spared).trans found.kept fun q _ vacant same => ?_
  exact Heap.ne_of_vacant vacant .vacant (Option.some.inj same).symm

theorem fill {next : Bool → Script Outcome} {q : Ref} {made : List (Ref × Ref)}
    (origin : g.state? r = some .vacant) (vacant : h.state? r = some .vacant)
    (found : Explains bound n (g.setState r (.redirect t)) (h.setState r (.redirect t))
      (.body (next true)) v Held.nothing.Spares g' h') :
    Explains bound (n + 1) g h (.body (.act (.fill r t) next)) v (Held.knot q r made).Spares
      g' h' := by
  have state := found.grows _ _ (Heap.state?_setState_self origin (.redirect t)) (by simp)
  refine ⟨(Heap.grows_fill origin _).trans found.grows, found.honours, .fill state found.means, ?_⟩
  refine (Heap.kept_fill vacant t ?_).trans found.kept fun _ _ _ same => by cases same
  rintro p spares rfl
  exact spares rfl

end Heap.Explains

/-- What has been found already. -/
theorem Heap.Honours.explains (honours : g.Honours bound h) (means : g.Means bound n aim v) :
    Heap.Explains bound n g h aim v spared g h :=
  ⟨g.grows_refl, honours, means, Heap.kept_refl _ _⟩

theorem Store.act_fill {s : Store} (vacant : s.heap.state? r = some .vacant) :
    s.act (.fill r t) = (true, { s with heap := s.heap.setState r (.redirect t) }) := by
  simp [Store.act, Heap.fill, vacant]

variable {E : Engine} {cell : Ref} {s s' : Store}

theorem explained_alloc {c : Cell} {next : Ref → Script Outcome} (full : c ≠ .vacant)
    (ih : Control.Explained bound (s.act (.alloc c)).2 s' v
      (.run cell site (next (s.act (.alloc c)).1))) :
    Control.Explained bound s s' v (.run cell site (.act (.alloc c) next)) := by
  intro g held honours forcing mine opened lasts
  obtain ⟨c', next', same, nonempty, idle, rest⟩ := lasts.of_alloc full
  cases same
  obtain ⟨same, honours'⟩ := honours.alloc idle
  have state := g.state?_new c
  have kept := s.heap.kept_alloc idle fun _ => True
  obtain ⟨held', handle, mine', lasts'⟩ :=
    rest _ _ _ _ (g.grows_alloc c) (g.grows_alloc c) state state mine
  rw [same] at lasts'
  obtain ⟨g', n, h, found, published⟩ :=
    ih _ held' honours' ((kept.forcing cell).2 forcing) mine' (opened.kept handle kept) lasts'
  exact ⟨g', n + 1, h, found.alloc nonempty idle same handle, published⟩

theorem explained_vacant {next : Ref → Script Outcome}
    (ih : Control.Explained bound (s.act (.alloc .vacant)).2 s' v
      (.run cell site (next (s.act (.alloc .vacant)).1))) :
    Control.Explained bound s s' v (.run cell site (.act (.alloc .vacant) next)) := by
  intro g held honours forcing mine opened lasts
  obtain ⟨rfl, next', same, rest⟩ := lasts.of_vacant
  cases same
  have idle : Cell.vacant.state ≠ .forcing := by simp [Cell.vacant]
  obtain ⟨same, honours'⟩ := honours.alloc idle
  have kept := s.heap.kept_alloc idle fun _ => True
  let r := (s.heap.alloc .vacant).1
  have grows := g.grows_alloc .vacant
  obtain ⟨g', n, h, found, published⟩ := ih _ (.knot r r []) honours' ((kept.forcing cell).2 forcing)
    Held.twinned_knot (Held.open_new _ r) ((rest r r).mono (Heap.twins_mono grows grows))
  exact ⟨g', n + 1, h, found.vacant, published⟩

theorem explained_fill {handle target : Ref} {next : Bool → Script Outcome}
    (ih : Control.Explained bound (s.act (.fill handle target)).2 s' v
      (.run cell site (next (s.act (.fill handle target)).1))) :
    Control.Explained bound s s' v (.run cell site (.act (.fill handle target) next)) := by
  intro g held honours forcing mine opened lasts
  obtain ⟨handle', target', made, next', rfl, same, pair, rest⟩ := lasts.of_fill
  cases same
  have vacant : s.heap.state? handle = some .vacant := opened handle rfl
  rw [Store.act_fill vacant] at ih
  have origin := honours.vacant vacant
  have grows := Heap.grows_fill origin (.redirect target)
  have state := Heap.state?_setState_self origin (.redirect target)
  have known := (mine.mono grows grows).tied pair state state
  have other : ∀ q, q = cell → q ≠ handle := by
    rintro _ rfl rfl
    rw [vacant] at forcing
    cases forcing
  have kept := Heap.kept_fill vacant target other
  obtain ⟨g', n, h, found, published⟩ := ih _ .nothing (honours.fill vacant target)
    ((kept.forcing cell).2 forcing) Held.twinned_nothing Held.open_nothing
    (rest _ (Heap.twins_mono grows grows) known)
  exact ⟨g', n + 1, h, found.fill origin vacant, published⟩

/-- The engine returns what is meant. -/
theorem Engine.Returns.explained (unspliced : E.splices = false) (le : E.bound ≤ bound)
    {c : Control} (returns : E.Returns c s v s') : c.Explained bound s s' v := by
  induction returns with
  | give => trivial
  | found forced =>
    intro g honours known
    obtain ⟨n, means⟩ := honours.means forced
    exact ⟨g, n, honours.explains means⟩
  | follow redirect _ ih =>
    intro g honours known
    have origin := honours.redirect redirect
    cases Heap.twinned known with
    | pending left => simp [origin] at left
    | forced left => simp [origin] at left
    | redirect left right targets =>
      cases origin.symm.trans left
      cases origin.symm.trans right
      obtain ⟨g', n, found⟩ := ih g honours targets
      exact ⟨g', n + 1, found.step (found.means.redirect (found.grows _ _ origin (by simp)))⟩
  | @start r w v s s' pending _ ih =>
    intro g honours known
    have origin := honours.pending pending
    cases Heap.twinned known with
    | forced left => simp [origin] at left
    | redirect left => simp [origin] at left
    | pending left right works =>
      cases origin.symm.trans left
      cases origin.symm.trans right
      have forcing := Heap.state?_setState_self pending .forcing
      obtain ⟨g', n, h, found, published⟩ := ih g .nothing
        (honours.start pending works.calm.1) forcing Held.twinned_nothing Held.open_nothing
        (works.lasts E.bound)
      have body := found.means.raise (Nat.le_refl bound) (w.raised le)
      refine ⟨g', n + 1, ?_⟩
      rw [published]
      exact (found.step body).publish origin pending
  | @value cell site v s =>
    intro g held honours forcing mine opened lasts
    have means : g.Means bound 0 (.body (.done (.value v))) (v.through? site) :=
      .value (v.resembles_through? site)
    exact ⟨g, 0, s.heap, honours.explains means, rfl⟩
  | @fault cell site e s =>
    intro g held honours forcing mine opened lasts
    have means : g.Means bound 0 (.body (.raise e)) (.error (e.through? site)) :=
      .fault (by cases site <;> rfl)
    exact ⟨g, 0, s.heap, honours.explains means, rfl⟩
  | splice splices =>
    rw [unspliced] at splices
    cases splices
  | @tail cell child site v s s' _ _ ih =>
    intro g held honours forcing mine opened lasts
    obtain ⟨r, same, known⟩ := lasts.of_tail
    cases same
    obtain ⟨g', n, found⟩ := ih g honours known
    exact ⟨g', n + 1, s'.heap, found.tail site, rfl⟩
  | @demand cell r site how next v v' u s s₁ s' _ reply _ ih ih' =>
    intro g held honours forcing mine opened lasts
    obtain ⟨rfl, r', next', same, known, rest⟩ := lasts.of_demand
    cases same
    obtain ⟨g₁, n, first⟩ := ih g honours known
    have grows := Heap.twins_mono first.grows first.grows
    have values := (first.means.agree first.means (.cell (grows.1 _ _ known))).2
    obtain ⟨g', m, h, second, published⟩ := ih' g₁ held first.honours
      ((first.kept.forcing cell).2 forcing) (mine.mono first.grows first.grows)
      (opened.kept rfl first.kept) (rest _ grows _ _ (values.reply reply reply))
    exact ⟨g', n + m + 1, h, first.demand reply second, published⟩
  | @perform cell r action site how next v u s s₁ s' _ reply _ _ _ =>
    intro g held honours forcing mine opened lasts
    obtain ⟨rfl, _⟩ := lasts.of_demand
    obtain ⟨x, resumes⟩ := Demand.pure_reply (s₁.heap.site? r) v
    rw [reply] at resumes
    cases resumes
  | @act cell site a next v s s' _ ih =>
    cases a with
    | alloc c =>
      by_cases full : c = .vacant
      · subst full
        exact explained_vacant ih
      · exact explained_alloc full ih
    | fill handle target => exact explained_fill ih
    | trace label =>
      intro g held honours forcing mine opened lasts
      obtain ⟨next', same, rest⟩ := lasts.of_trace
      cases same
      obtain ⟨g', n, h, found, published⟩ := ih g held honours forcing mine opened rest
      exact ⟨g', n + 1, h, found.step (.trace found.means), published⟩
    | submit job =>
      intro g held honours forcing mine opened lasts
      obtain ⟨job', next', same, rest⟩ := lasts.of_submit
      cases same
      obtain ⟨g', n, h, found, published⟩ := ih g held honours forcing mine opened rest
      exact ⟨g', n + 1, h, found.step (.submit found.means), published⟩
    | openRally rs => exact fun _ _ _ _ _ _ lasts => absurd lasts Script.Lasts.not_openRally
    | pollRally id => exact fun _ _ _ _ _ _ lasts => absurd lasts Script.Lasts.not_pollRally
    | listRally id i => exact fun _ _ _ _ _ _ lasts => absurd lasts Script.Lasts.not_listRally

end
end CallByNeed
