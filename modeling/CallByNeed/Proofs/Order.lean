import CallByNeed.Proofs.Loading.Effectless
import CallByNeed.Proofs.Order.Answered

/- Forcing hides its order. Cells of a loaded program that neither reads nor rallies come to the same
   values whatever was forced before, and not only they: in whatever order their parts are forced in
   turn, on one side or on both, these go on to agree. -/
namespace CallByNeed

/-- Bonded cells of related stores come to an end on both sides or on none, and their values are alike
    but for the sites that faults have passed; the parts of the values are bonded in the stores that
    are left. To force a bonded cell on one side only changes nothing of this. -/
structure IsIndifferent (R : Bond → Store → Store → Prop) : Prop where
  ends : ∀ {B s s' r r'}, R B s s' → B.cells r r' → (s.Ends r ↔ s'.Ends r')
  values : ∀ {B s s' r r' v v' t t'}, R B s s' → B.cells r r' → s.Forces r v t →
    s'.Forces r' v' t' → ∃ C, B ≤ C ∧ ValueLike .quiet C v v' ∧ R C t t'
  left : ∀ {B s s' r r' v t}, R B s s' → B.cells r r' → s.Forces r v t → R B t s'
  right : ∀ {B s s' r r' v' t'}, R B s s' → B.cells r r' → s'.Forces r' v' t' → R B s t'

/-- Nothing that is forced, on whichever side, tells the bonded cells of two stores apart. -/
def Store.Agree (B : Bond) (s s' : Store) : Prop := ∃ R, IsIndifferent R ∧ R B s s'

/-- Bonded cells were made alike, and both stores are at rest. -/
def Store.Descend (B : Bond) (s s' : Store) : Prop :=
  ∃ g g' bound, Heap.Backs bound g s ∧ Heap.Backs bound g' s' ∧
    ∀ r r', B.cells r r' → ((g.twins g).peers (g.twins g')).cells r r'

section
variable {g g' a a' : Heap} {B : Bond} {s s' t t' : Store} {r r' : Ref} {v v' : Value}

theorem Heap.peers_mono (left : g.Grows a) (right : g'.Grows a')
    (peers : ((g.twins g).peers (g.twins g')).cells r r') :
    ((a.twins a).peers (a.twins a')).cells r r' := by
  obtain ⟨o, one, other⟩ := peers
  exact ⟨o, (Heap.twins_mono left left).1 _ _ one, (Heap.twins_mono left right).1 _ _ other⟩

/-- Peers are twins of each other and of themselves. -/
theorem Heap.twins_of_peers (peers : ((g.twins g).peers (g.twins g')).cells r r') :
    (g.twins g).cells r r ∧ (g.twins g').cells r r' ∧
      (g'.twins g).cells r' r ∧ (g'.twins g').cells r' r' := by
  obtain ⟨o, one, other⟩ := peers
  exact ⟨Heap.twins_peers one one, Heap.twins_peers one other, Heap.twins_peers other one,
    Heap.twins_peers other other⟩

namespace Store.Descend

theorem ends (descend : Descend B s s') (cells : B.cells r r') : s.Ends r ↔ s'.Ends r' := by
  obtain ⟨g, g', bound, left, right, peers⟩ := descend
  obtain ⟨self, across, back, self'⟩ := Heap.twins_of_peers (peers r r' cells)
  constructor
  · rintro ⟨v, t, forces⟩
    obtain ⟨a, more, n, site, u, le, grows, _, means, _⟩ := left.forced self forces
    exact (right.raise le).ends ((Heap.twins_mono grows g'.grows_refl).1 _ _ across) means
  · rintro ⟨v, t, forces⟩
    obtain ⟨a, more, n, site, u, le, grows, _, means, _⟩ := right.forced self' forces
    exact (left.raise le).ends ((Heap.twins_mono grows g.grows_refl).1 _ _ back) means

theorem values (descend : Descend B s s') (cells : B.cells r r') (forces : s.Forces r v t)
    (forces' : s'.Forces r' v' t') : ∃ C, B ≤ C ∧ ValueLike .quiet C v v' ∧ Descend C t t' := by
  obtain ⟨g, g', bound, left, right, peers⟩ := descend
  obtain ⟨self, across, _, self'⟩ := Heap.twins_of_peers (peers r r' cells)
  obtain ⟨a, more, n, site, u, _, grows, backs, means, reply⟩ := left.forced self forces
  obtain ⟨a', more', n', site', u', _, grows', backs', means', reply'⟩ := right.forced self' forces'
  have means := means.raise (Nat.le_max_left more more') (.cell r)
  have means' := means'.raise (Nat.le_max_right more more') (.cell r')
  have like_self := (means.agree means (.cell ((Heap.twins_mono grows grows).1 _ _ self))).2
  have like := (means.agree means' (.cell ((Heap.twins_mono grows grows').1 _ _ across))).2
  have shown := (like_self.peers Manner.quiet_joins like).reply reply reply'
  let C : Bond := { (a.twins a).peers (a.twins a') with actions := fun _ _ => True }
  have grown : (a.twins a).peers (a.twins a') ≤ C := ⟨fun _ _ => id, fun _ _ _ => trivial⟩
  refine ⟨C, ⟨?_, fun _ _ _ => trivial⟩, shown.mono grown, a, a', _,
    backs.raise (Nat.le_max_left ..), backs'.raise (Nat.le_max_right ..), fun _ _ => id⟩
  exact fun q q' bonded => Heap.peers_mono grows grows' (peers q q' bonded)

theorem left (descend : Descend B s s') (cells : B.cells r r') (forces : s.Forces r v t) :
    Descend B t s' := by
  obtain ⟨g, g', bound, backs, backs', peers⟩ := descend
  obtain ⟨self, _⟩ := Heap.twins_of_peers (peers r r' cells)
  obtain ⟨a, more, n, site, u, le, grows, after, _⟩ := backs.forced self forces
  exact ⟨a, g', more, after, backs'.raise le, fun q q' bonded =>
    Heap.peers_mono grows g'.grows_refl (peers q q' bonded)⟩

theorem right (descend : Descend B s s') (cells : B.cells r r') (forces : s'.Forces r' v' t') :
    Descend B s t' := by
  obtain ⟨g, g', bound, backs, backs', peers⟩ := descend
  obtain ⟨_, _, _, self'⟩ := Heap.twins_of_peers (peers r r' cells)
  obtain ⟨a', more, n, site, u, le, grows, after, _⟩ := backs'.forced self' forces
  exact ⟨g, a', more, backs.raise le, after, fun q q' bonded =>
    Heap.peers_mono g.grows_refl grows (peers q q' bonded)⟩

end Store.Descend

theorem isIndifferent_descend : IsIndifferent Store.Descend where
  ends := Store.Descend.ends
  values := Store.Descend.values
  left := Store.Descend.left
  right := Store.Descend.right

/-- Each cell of a loaded program is a twin of itself. -/
theorem Heap.bond_le_twins
    (loaded : ∀ r ∈ g.domain, ∃ c, g.state? r = some c ∧ c.Loaded .quiet g.bond) :
    g.bond ≤ g.twins g := by
  refine Heap.le_twins ⟨?_, fun _ _ never => never.elim⟩
  rintro r _ ⟨rfl, known⟩
  obtain ⟨c, state, loaded⟩ := loaded r known
  refine ⟨c, c, state, state, ?_⟩
  cases loaded with
  | made states => exact .made states
  | redirect known => exact .redirect known

/-- A heap in which no cell is being forced is that of a store at rest. -/
theorem Heap.backs_self (idle : ∀ r, g.state? r ≠ some .forcing) : g.Backs 0 { heap := g } :=
  ⟨{ heap := g }, storeMatch_refl ⟨trivial, trivial, fun _ => trivial⟩ _, g.honours_self 0 idle,
    idle⟩

end

theorem Program.permits_quiet {p : Program} (reads : ¬ p.Uses .read) (rallies : ¬ p.Uses .rally)
    (b : Builtin) (uses : p.Uses b) : Manner.quiet.Permits b.isEffect b := by
  by_cases needs : b.needsHost = true
  · refine .inr (.inl ?_)
    cases b <;> first | rfl | exact absurd uses reads | exact absurd uses rallies | cases needs
  · exact .inr (.inr (by simpa using needs))

/-- The cells that a list or a dictionary is made of. -/
def Value.parts : Value → List Ref
  | .list (.cons head tail) => [head, tail]
  | .dict d => d.entries.map (·.2)
  | _ => []

/-- Stores that a program has got by loading it and then forcing cells, each with the cells that can be
    forced next: all those of the loaded heap, and the parts of the values so far. -/
inductive Program.Builds (p : Program) : Store → Set Ref → Prop where
  | loaded {m : Module} {h : Heap} (loads : p.load {} = .ok (m, h)) :
      Builds p { heap := h } h.domain
  | forced {s s' : Store} {K : Set Ref} {r : Ref} {v : Value} (before : Builds p s K)
      (known : r ∈ K) (forces : s.Forces r v s') : Builds p s' (K ∪ {q | q ∈ v.parts})

section
variable {p : Program} {B C : Bond} {s s' : Store} {K : Set Ref} {v : Value}

theorem Store.Descend.anti (descend : Store.Descend C s s')
    (less : ∀ r r', B.cells r r' → C.cells r r') : Store.Descend B s s' := by
  obtain ⟨g, g', bound, left, right, peers⟩ := descend
  exact ⟨g, g', bound, left, right, fun r r' cells => peers r r' (less r r' cells)⟩

theorem ValueLike.parts (values : ValueLike .quiet B v v) : ∀ q ∈ v.parts, B.cells q q := by
  intro q mem
  cases values with
  | list lists =>
    cases lists with
    | nil => cases mem
    | cons heads tails =>
      simp only [Value.parts, List.mem_cons, List.not_mem_nil, or_false] at mem
      rcases mem with rfl | rfl
      · exact heads
      · exact tails
  | dict dicts =>
    obtain ⟨e, mine, rfl⟩ := List.mem_map.1 mem
    exact (List.forall₂_same.1 dicts e mine).2
  | _ => cases mem

theorem Program.Builds.descend (reads : ¬ p.Uses .read) (rallies : ¬ p.Uses .rally)
    (builds : p.Builds s K) : Store.Descend (.among K) s s := by
  induction builds with
  | @loaded _ h loads =>
    have permits := Program.permits_quiet reads rallies
    have backs := Heap.backs_self (Program.loaded_of_load id permits loads).idle
    refine ⟨h, h, 0, backs, backs, ?_⟩
    rintro r _ ⟨rfl, known⟩
    have self := (Heap.bond_le_twins (Program.effectless_of_load permits loads)).1 r r ⟨rfl, known⟩
    exact ⟨r, self, self⟩
  | forced _ known forces ih =>
    obtain ⟨C, wider, values, later⟩ := ih.values ⟨rfl, known⟩ forces forces
    refine later.anti ?_
    rintro q _ ⟨rfl, old | part⟩
    · exact wider.1 q q ⟨rfl, old⟩
    · exact values.parts q part

/-- Forcing one cell takes nothing from another one, in any store of a program that neither reads nor
    rallies. The other cell comes to an end exactly if it does without the first one, its value is
    the same but for the sites that faults have passed, and so it goes on with the parts of the
    value and with all other cells. -/
theorem forcing_order_is_hidden (reads : ¬ p.Uses .read) (rallies : ¬ p.Uses .rally)
    (builds : p.Builds s K) {t u : Ref} (t_known : t ∈ K) (u_known : u ∈ K) {w : Value}
    (first : s.Forces u w s') :
    (s.Ends t ↔ s'.Ends t) ∧
      ∀ v v' after after', s.Forces t v after → s'.Forces t v' after' →
        ∃ B, Bond.among K ≤ B ∧ ValueLike .quiet B v v' ∧ Store.Agree B after after' := by
  have descend := (builds.descend reads rallies).right ⟨rfl, u_known⟩ first
  constructor
  · exact descend.ends ⟨rfl, t_known⟩
  · intro v v' after after' forces forces'
    obtain ⟨B, wider, values, later⟩ := descend.values ⟨rfl, t_known⟩ forces forces'
    exact ⟨B, wider, values, _, isIndifferent_descend, later⟩

end

/-- A call of a bool on the second line, passed through a function on the first one. -/
def passingProgram : Program where
  definitions := [
    .function "pass" (.plain ["x"]) [] (.local 0),
    .variable "called" (.call (.global "pass")
      [⟨.call (.global "true") [] [] [] (some ⟨"", "pass", 2, 1⟩), false⟩] [] []
      (some ⟨"", "pass", 1, 1⟩))]

/-- Whether the argument is forced before its function takes over its work shows in the sites that the
    fault has passed, and in nothing else. -/
theorem forcing_order_is_hidden_of_argument :
    let fault (lines : List Nat) : Value :=
      .error { cause := .notCallable .bool, passed := lines.map (⟨"called", "pass", ·, 1⟩) }
    ∃ s s' after after', (∃ K, passingProgram.Builds s K) ∧ s.Forces ⟨4⟩ (fault [2]) s' ∧
      s.Forces ⟨1⟩ (fault [2]) after ∧ s'.Forces ⟨1⟩ (fault [1, 2]) after' ∧
      ∃ B, ValueLike .quiet B (fault [2]) (fault [1, 2]) ∧ Store.Agree B after after' := by
  intro fault
  have loads : ∃ m h, passingProgram.load {} = .ok (m, h) := ⟨_, _, rfl⟩
  obtain ⟨m, h, loads⟩ := loads
  have builds := Program.Builds.loaded loads
  have uses : ∀ b, passingProgram.Uses b → False := by
    rintro b ⟨name, mem, free, named⟩
    have names : passingProgram.globals = ["pass", "true"] := rfl
    simp only [names, List.mem_cons, List.not_mem_nil, or_false] at mem
    rcases mem with rfl | rfl
    · exact free (by decide)
    · cases named
  let s : Store := { heap := h }
  cases loads
  have argument : ∃ s', s.Forces ⟨4⟩ (fault [2]) s' ∧
      ∃ after', s'.Forces ⟨1⟩ (fault [1, 2]) after' := ⟨_, ⟨1, 20, rfl⟩, _, 1, 20, rfl⟩
  obtain ⟨s', argument, after', later⟩ := argument
  have alone : ∃ after, s.Forces ⟨1⟩ (fault [2]) after := ⟨_, 1, 20, rfl⟩
  obtain ⟨after, alone⟩ := alone
  have hidden := forcing_order_is_hidden (uses .read) (uses .rally) builds (t := ⟨1⟩) (u := ⟨4⟩)
    ⟨_, rfl⟩ ⟨_, rfl⟩ argument
  obtain ⟨B, _, values, agree⟩ := hidden.2 _ _ _ _ alone later
  exact ⟨s, s', after, after', ⟨_, builds⟩, argument, alone, later, B, values, agree⟩

end CallByNeed
