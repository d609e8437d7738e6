import CallByNeed.Proofs.Performing.Beside
import CallByNeed.Proofs.Writing

/- Effects performed one after the other. Between two of them the next cell of their list is forced,
   which leaves output streams and files as they are; and the first fault ends it. -/
namespace CallByNeed

/-- Performs a cell and, up to the first fault, the others. -/
def performEach : Ref → List Ref → Script Value
  | r, [] => perform r
  | r, next :: others => do
    match ← perform r with
    | .error e => pure (.error e)
    | _ => performEach next others

/-- What a script has come to, faults included. -/
def Value.ofResult : Except Fault Value → Value
  | .ok v => v
  | .error e => .error e

/-- What is known of a list whose tail has not been looked at. -/
def LazyList.begun : LazyList → Extent Ref
  | .nil => .nil
  | .cons head _ => .cons head .unknown

/-- The first cell is performed, and so are the cells of a list, in order and up to the first fault.
    The next cell of the list is fetched each time, before the result is looked at. These cells have
    been performed when this value has come of the last one, and this is left of the list. -/
inductive Engine.Performs (E : Engine) :
    Ref → Ref → Store → World → List Ref → LazyList → Value → Store → World → Prop
  | ends {r rest : Ref} {l : LazyList} {v : Value} {s s₁ s₂ : Store} {w w₁ w₂ : World}
      (performs : (perform r).Leaves E s w (.ok v) s₁ w₁)
      (fetches : (forceList rest).Leaves E s₁ w₁ (.ok l) s₂ w₂) (reads : w₁.Intact w₂)
      (last : l = .nil ∨ ∃ e, v = .error e) : Performs E r rest s w [r] l v s₂ w₂
  | goesOn {r rest next tail : Ref} {rs : List Ref} {l : LazyList} {u v : Value}
      {s s₁ s₂ s' : Store} {w w₁ w₂ w' : World}
      (performs : (perform r).Leaves E s w (.ok u) s₁ w₁)
      (fetches : (forceList rest).Leaves E s₁ w₁ (.ok (.cons next tail)) s₂ w₂)
      (reads : w₁.Intact w₂) (sound : ∀ e, u ≠ .error e)
      (others : Performs E next tail s₂ w₂ rs l v s' w') : Performs E r rest s w (r :: rs) l v s' w'

section
variable {E : Engine} {G : Ken} {r rest : Ref} {rs : List Ref} {l : LazyList} {v : Value}
variable {s s₁ s' t : Store} {w w₁ w' : World}

theorem Script.isReader_perform (r : Ref) : (perform r).IsReader := .demand _ _ fun _ => .done _

theorem Script.IsReader.attempt {α : Type} {m : Script α} (reader : m.IsReader) :
    m.attempt.IsReader := by
  induction reader with
  | done a => exact .done (Except.ok a)
  | raise e => exact .done (Except.error e)
  | panic p => exact .panic p
  | stall => exact .stall
  | demand how r _ ih => exact .demand how r ih

theorem Script.not_leaves_perform_error {e : Fault} :
    ¬ (perform r).Leaves E s w (.error e) s' w' := by
  intro leaves
  cases ((isReader_perform r).reads_of_leaves leaves).2 with
  | demand _ rest => cases rest

theorem Script.Leaves.before_perform (leaves : (perform r).Leaves E s w (.ok v) s' w') :
    s.heap.Before s'.heap ∧ s'.heap.Replies .effect r v := by
  obtain ⟨before, reads⟩ := (isReader_perform r).reads_of_leaves leaves
  refine ⟨before, ?_⟩
  cases reads with
  | demand replies rest =>
    cases rest
    exact replies

/-! ### What has been performed -/

/-- Whoever performs a cell once more is answered the same and changes nothing. -/
theorem Script.Leaves.perform_again (leaves : (perform r).Leaves E s w (.ok v) s' w')
    (later : s'.heap.Before t.heap) (world : World) :
    (perform r).Leaves E t world (.ok v) t world :=
  (Script.Reads.demand (later.replies leaves.before_perform.2) .done).leaves

namespace Engine.Performs

theorem before (performs : E.Performs r rest s w rs l v s' w') : s.heap.Before s'.heap := by
  induction performs with
  | ends performs fetches => exact performs.before_perform.1.trans fetches.before_forceList.1
  | goesOn performs fetches _ _ _ ih =>
    exact (performs.before_perform.1.trans fetches.before_forceList.1).trans ih

/-- Each cell has been performed. -/
theorem again (performs : E.Performs r rest s w rs l v s' w') : ∀ q ∈ rs, ∃ u, ∀ (t : Store) world,
    s'.heap.Before t.heap → (perform q).Leaves E t world (.ok u) t world := by
  induction performs with
  | ends performs fetches =>
    intro q mem
    cases List.mem_singleton.1 mem
    exact ⟨_, fun t world later =>
      performs.perform_again (fetches.before_forceList.1.trans later) world⟩
  | goesOn performs fetches _ _ others ih =>
    intro q mem
    rcases List.mem_cons.1 mem with rfl | mem
    · have since := fetches.before_forceList.1.trans others.before
      exact ⟨_, fun t world later => performs.perform_again (since.trans later) world⟩
    · exact ih q mem

/-- The list has the cells that have been performed, and more if any are left. -/
theorem shows (performs : E.Performs r rest s w rs l v s' w') : ∃ others visited, rs = r :: others ∧
    s'.heap.Shows rest ((Extent.ofList others).append l.begun) visited := by
  induction performs with
  | @ends _ rest l _ _ _ _ _ _ _ _ fetches =>
    obtain ⟨-, listed⟩ := fetches.before_forceList
    cases l with
    | nil => exact ⟨[], _, rfl, .nil listed⟩
    | cons => exact ⟨[], _, rfl, .cons listed .unknown⟩
  | goesOn performs fetches _ _ more ih =>
    obtain ⟨others, visited, rfl, shows⟩ := ih
    exact ⟨_, _, rfl, .cons (fetches.before_forceList.2.mono more.before) shows⟩

/-- One more cell is performed before the others. -/
theorem of_fetch {u : Value} {s₂ : Store} {w₂ : World}
    (performs : (perform r).Leaves E s w (.ok u) s₁ w₁)
    (fetches : (forceList rest).Leaves E s₁ w₁ (.ok l) s₂ w₂) (reads : w₁.Intact w₂)
    (others : s' = s₂ ∧ w' = w₂ ∧ v = u ∧ (l = .nil ∨ ∃ e, u = .error e) ∨
      ∃ next tail rs l', l = .cons next tail ∧ (∀ e, u ≠ .error e) ∧
        E.Performs next tail s₂ w₂ rs l' v s' w') :
    ∃ rs l', E.Performs r rest s w rs l' v s' w' := by
  rcases others with ⟨rfl, rfl, rfl, last⟩ | ⟨next, tail, rs, l', rfl, sound, others⟩
  · exact ⟨_, _, .ends performs fetches reads last⟩
  · exact ⟨_, _, .goesOn performs fetches reads sound others⟩

end Engine.Performs

/-! ### Stores stay sealed -/

theorem Script.Leaves.sealed_perform (leaves : (perform r).Leaves E s w (.ok v) s' w')
    (sealed : s.Sealed G) (known : r ∈ G.cells) : ∃ K, G ≤ K ∧ s'.Sealed K := by
  have calm : (Runner.ready (perform r)).Calm True (.own (fun _ => True) fun _ _ _ => True) G [] s :=
    ⟨sealed, ⟨_, .performs trivial known fun _ _ _ _ _ =>
      ⟨trivial, fun _ _ => Alike.pure trivial⟩, List.nodup_nil, nofun⟩, List.nodup_nil, nofun⟩
  obtain ⟨-, K, grows, ended⟩ := calm.leaves trivial leaves
  exact ⟨K, grows, ended.store⟩

/-- Forcing a list leaves output streams and files as they are. -/
theorem Script.Leaves.sealed_forceList (leaves : (forceList r).Leaves E s w (.ok l) s' w')
    (sealed : s.Sealed G) (known : r ∈ G.cells) : w.Intact w' ∧ ∃ K, G ≤ K ∧ s'.Sealed K ∧
      ∀ head tail, l = .cons head tail → head ∈ K.cells ∧ tail ∈ K.cells := by
  have script : (forceList r).Sealed (.own (fun _ => True) LazyListLike) G .nothing :=
    ⟨(tame_forceList r).safe fun _ => id, fun K grows => alike_forceList ⟨rfl, grows.1 known⟩⟩
  obtain ⟨intact, -, K, held, grows, sealed', ended⟩ :=
    script.leaves trivial sealed List.nodup_nil nofun leaves
  refine ⟨intact, K, grows, sealed', ?_⟩
  rintro head tail rfl
  cases ended.of_done.2.2 with
  | ok lists =>
    cases lists with
    | cons heads tails => exact ⟨heads.2, tails.2⟩

/-! ### Cells of a list that is there -/

theorem leaves_performEach_iff {next : Ref} {others : List Ref} :
    (performEach r (next :: others)).Leaves E s w (.ok v) s' w' ↔
      (∃ e, v = .error e ∧ (perform r).Leaves E s w (.ok v) s' w') ∨
      ∃ u s₁ w₁, (perform r).Leaves E s w (.ok u) s₁ w₁ ∧ (∀ e, u ≠ .error e) ∧
        (performEach next others).Leaves E s₁ w₁ (.ok v) s' w' := by
  rw [performEach]
  constructor
  · intro leaves
    obtain ⟨u, s₁, w₁, performs, leaves⟩ := Script.of_leaves_bind leaves
    cases u with
    | error e =>
      obtain ⟨rfl, rfl, rfl⟩ := Script.of_leaves_pure leaves
      exact .inl ⟨e, rfl, performs⟩
    | _ => exact .inr ⟨_, s₁, w₁, performs, nofun, leaves⟩
  · rintro (⟨e, rfl, performs⟩ | ⟨u, s₁, w₁, performs, sound, others⟩)
    · exact performs.bind Script.leaves_pure
    · refine performs.bind ?_
      cases u with
      | error e => exact absurd rfl (sound e)
      | _ => exact others

/-- Fetching from a list that is there does nothing. -/
theorem Script.Leaves.comes_known (performs : (perform r).Leaves E s w (.ok v) s₁ w₁)
    (known : s.heap.state? rest = some (.forced (.list l))) :
    (forceList rest).Comes E s₁ (.ok l) s₁ := by
  have replies := Heap.replies_of_forced performs.before_perform.1 known nofun
  exact Heap.Listed.comes E ⟨_, replies, rfl⟩

/-- Where the list is there, its cells are performed one after the other and nothing else is done. -/
theorem Engine.Performs.each {others : List Ref} {l' : LazyList}
    (performs : E.Performs r rest s w rs l' v s' w')
    (known : s.heap.state? rest = some (.forced (.list l))) (whole : s.heap.Whole l others) :
    (performEach r others).Leaves E s w (.ok v) s' w' := by
  induction performs generalizing l others with
  | ends performs fetches _ last =>
    obtain ⟨same, rfl, rfl⟩ := (performs.comes_known known).leaves_iff.1 fetches
    cases whole with
    | nil => exact performs
    | cons =>
      cases same
      obtain ⟨e, rfl⟩ := last.resolve_left nofun
      exact leaves_performEach_iff.2 (.inl ⟨e, rfl, performs⟩)
  | goesOn performs fetches _ sound _ ih =>
    obtain ⟨same, rfl, rfl⟩ := (performs.comes_known known).leaves_iff.1 fetches
    cases whole with
    | nil => cases same
    | cons next_known whole =>
      cases same
      have before := performs.before_perform.1
      have each := ih (before.forced next_known) (whole.before before)
      exact leaves_performEach_iff.2 (.inr ⟨_, _, _, performs, sound, each⟩)

theorem Engine.performs_of_each {others : List Ref}
    (each : (performEach r others).Leaves E s w (.ok v) s' w')
    (known : s.heap.state? rest = some (.forced (.list l))) (whole : s.heap.Whole l others) :
    ∃ rs l', rs.length ≤ others.length + 1 ∧ E.Performs r rest s w rs l' v s' w' := by
  induction others generalizing r rest l s w with
  | nil =>
    cases whole
    exact ⟨[r], _, le_rfl, .ends each (each.comes_known known).leaves (World.intact_refl _) (.inl rfl)⟩
  | cons next others ih =>
    cases whole with
    | cons next_known whole =>
      rcases leaves_performEach_iff.1 each with ⟨e, rfl, performs⟩ | ⟨u, s₁, w₁, performs, sound, each⟩
      · exact ⟨[r], _, by simp, .ends performs (performs.comes_known known).leaves
          (World.intact_refl _) (.inr ⟨e, rfl⟩)⟩
      · have before := performs.before_perform.1
        obtain ⟨rs, l', fewer, more⟩ := ih each (before.forced next_known) (whole.before before)
        exact ⟨r :: rs, l', Nat.succ_le_succ fewer,
          .goesOn performs (performs.comes_known known).leaves (World.intact_refl _) sound more⟩

/-! ### The loop -/

section
variable {leave : Value → Script Unit} {n : Nat} {b : Value} {o : Except Fault Value}
variable (raises : ∀ e, leave (.error e) = .raise e)
variable (passes : ∀ v, (∀ e, v ≠ .error e) → leave v = pure ())

include raises passes in
theorem LazyList.isReader_leave (v : Value) : (leave v).IsReader := by
  by_cases faulty : ∃ e, v = .error e
  · obtain ⟨e, rfl⟩ := faulty
    exact raises e ▸ .raise e
  · exact passes v (fun e same => faulty ⟨e, same⟩) ▸ .pure ()

include raises passes in
theorem LazyList.isReader_trail (n : Nat) (l : LazyList) (b : Value) :
    (l.trail leave perform n b).IsReader := by
  have leaving := isReader_leave raises passes
  induction n generalizing l b with
  | zero => exact .stall
  | succ n ih =>
    cases l with
    | nil => exact .pure b
    | cons head tail =>
      rw [trail]
      refine (leaving b).bind fun _ => (Script.isReader_perform head).bind fun u =>
        (Script.isReader_forceList tail).attempt.bind fun x => ?_
      cases x with
      | ok l => exact ih l u
      | error e => exact (leaving u).bind fun _ => .raise e

include raises in
theorem LazyList.trail_of_fault (n : Nat) (head tail : Ref) (e : Fault) :
    (LazyList.cons head tail).trail leave perform (n + 1) (.error e) = .raise e := by
  rw [trail, raises]
  rfl

include passes in
theorem LazyList.leaves_trail_iff (sound : ∀ e, b ≠ .error e) {head tail : Ref} :
    ((LazyList.cons head tail).trail leave perform (n + 1) b).Leaves E s w o s' w' ↔
      ∃ u s₁ w₁ x s₂ w₂, (perform head).Leaves E s w (.ok u) s₁ w₁ ∧
        (forceList tail).Leaves E s₁ w₁ x s₂ w₂ ∧
        (match x with
          | .ok l => l.trail leave perform n u
          | .error e => do leave u; .raise e : Script Value).Leaves E s₂ w₂ o s' w' := by
  rw [trail, passes b sound, pure_bind]
  constructor
  · intro leaves
    rcases Script.leaves_bind_iff.1 leaves with ⟨u, s₁, w₁, performs, leaves⟩ | ⟨e, faulty, -⟩
    · rcases Script.leaves_bind_iff.1 leaves with ⟨x, s₂, w₂, fetches, leaves⟩ | ⟨e, faulty, -⟩
      · obtain ⟨x, fetches, same⟩ := Script.leaves_attempt_iff.1 fetches
        cases same
        exact ⟨u, s₁, w₁, x, s₂, w₂, performs, fetches, by cases x <;> exact leaves⟩
      · obtain ⟨_, _, same⟩ := Script.leaves_attempt_iff.1 faulty
        cases same
    · exact absurd faulty Script.not_leaves_perform_error
  · rintro ⟨u, s₁, w₁, x, s₂, w₂, performs, fetches, leaves⟩
    refine performs.bind (Script.Leaves.bind (Script.leaves_attempt_iff.2 ⟨x, fetches, rfl⟩) ?_)
    cases x <;> exact leaves

include raises passes

/-- The loop has left the last value, or it has performed the cells of the list behind it. -/
theorem LazyList.performs_of_trail (sealed : s.Sealed G)
    (known : ∀ head tail, l = .cons head tail → head ∈ G.cells ∧ tail ∈ G.cells)
    (whole : ∀ head tail, l = .cons head tail → ∀ rs e visited,
      ¬ s'.heap.Shows tail ((Extent.ofList rs).append (.failed e)) visited)
    (leaves : (l.trail leave perform n b).Leaves E s w o s' w') :
    s' = s ∧ w' = w ∧ Value.ofResult o = b ∧ (l = .nil ∨ ∃ e, b = .error e) ∨
      ∃ next tail rs l', l = .cons next tail ∧ (∀ e, b ≠ .error e) ∧
        E.Performs next tail s w rs l' (Value.ofResult o) s' w' := by
  induction n generalizing G l b s w with
  | zero => exact absurd leaves Script.not_leaves_stall
  | succ n ih =>
    cases l with
    | nil =>
      obtain ⟨rfl, rfl, rfl⟩ := Script.leaves_pure_iff.1 leaves
      exact .inl ⟨rfl, rfl, rfl, .inl rfl⟩
    | cons head tail =>
      obtain ⟨head_known, tail_known⟩ := known head tail rfl
      by_cases faulty : ∃ e, b = .error e
      · obtain ⟨e, rfl⟩ := faulty
        rw [trail_of_fault raises] at leaves
        obtain ⟨rfl, rfl, rfl⟩ := Runner.of_leaves_ended (o := .error e) leaves
        exact .inl ⟨rfl, rfl, rfl, .inr ⟨e, rfl⟩⟩
      · have sound : ∀ e, b ≠ .error e := fun e same => faulty ⟨e, same⟩
        obtain ⟨u, s₁, w₁, x, s₂, w₂, performs, fetches, leaves⟩ :=
          (leaves_trail_iff passes sound).1 leaves
        obtain ⟨K, grows, sealed₁⟩ := performs.sealed_perform sealed head_known
        have listed := fetches.before_forceList.2
        cases x with
        | error e =>
          have later : s₂.heap.Before s'.heap :=
            ((isReader_leave raises passes u).bind fun _ => .raise e).reads_of_leaves leaves |>.1
          exact absurd (.failed (listed.mono later)) (whole head tail rfl [] e _)
        | ok l =>
          obtain ⟨reads, L, wider, sealed₂, cells⟩ :=
            fetches.sealed_forceList sealed₁ (grows.1 tail_known)
          have more := ih sealed₂ cells ?_ leaves
          · obtain ⟨rs, l', performs⟩ := Engine.Performs.of_fetch performs fetches reads more
            exact .inr ⟨head, tail, rs, l', rfl, sound, performs⟩
          · rintro next others rfl rs e visited shows
            have later := ((isReader_trail raises passes n _ u).reads_of_leaves leaves).1
            exact whole head tail rfl (next :: rs) e _ (.cons (listed.mono later) shows)

/-- What has been performed in turn is what the loop has performed. -/
theorem LazyList.trail_of_performs (performs : E.Performs r rest s w rs l v s' w')
    (enough : rs.length ≤ n) : ∃ u s₁ w₁ x s₂ w₂ o, (perform r).Leaves E s w (.ok u) s₁ w₁ ∧
      (forceList rest).Leaves E s₁ w₁ (.ok x) s₂ w₂ ∧
      (x.trail leave perform n u).Leaves E s₂ w₂ o s' w' ∧ Value.ofResult o = v := by
  induction performs generalizing n with
  | @ends _ _ l v _ s₁ s₂ _ w₁ w₂ performs fetches _ last =>
    obtain _ | n := n
    · cases enough
    cases l with
    | nil => exact ⟨v, s₁, w₁, _, s₂, w₂, .ok v, performs, fetches, Script.leaves_pure, rfl⟩
    | cons head tail =>
      obtain ⟨e, rfl⟩ := last.resolve_left nofun
      refine ⟨_, s₁, w₁, _, s₂, w₂, .error e, performs, fetches, ?_, rfl⟩
      rw [trail_of_fault raises]
      exact Runner.leaves_of_ended (.error e) _ _
  | @goesOn _ _ next tail rs _ u _ _ s₁ s₂ _ _ w₁ w₂ _ performs fetches _ sound _ ih =>
    obtain _ | n := n
    · cases enough
    obtain ⟨u', s₃, w₃, x, s₄, w₄, o, first, fetch, trail, same⟩ :=
      ih (n := n) (by simpa using enough)
    exact ⟨u, s₁, w₁, _, s₂, w₂, o, performs, fetches,
      (leaves_trail_iff passes sound).2 ⟨u', s₃, w₃, .ok x, s₄, w₄, first, fetch, trail⟩, same⟩

end
end
end CallByNeed
