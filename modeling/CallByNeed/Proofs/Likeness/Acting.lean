import CallByNeed.Proofs.Likeness.Task

/- Like scripts on two stores. Whatever one of them does to its store, the other does to its own, as
   long as the stores stay related when like cells are made and like handles are filled. -/
namespace CallByNeed

theorem optionRel_imp {α β : Type} {p q : α → β → Prop} (weaker : ∀ a b, p a b → q a b)
    {o : Option α} {o' : Option β} (rel : Option.Rel p o o') : Option.Rel q o o' := by
  cases rel with
  | some rel => exact .some (weaker _ _ rel)
  | none => exact .none

theorem optionRel_none {α β : Type} {p : α → β → Prop} {o : Option α} {o' : Option β}
    (rel : Option.Rel p o o') : o = none ↔ o' = none := by
  cases rel <;> simp

theorem size_eq_of_rel {α β : Type} {p : α → β → Prop} {xs : Array α} {ys : Array β}
    (rel : ∀ i : Nat, Option.Rel p xs[i]? ys[i]?) : xs.size = ys.size := by
  apply Nat.le_antisymm
  · simpa using (optionRel_none (rel ys.size)).2 (by simp)
  · simpa using (optionRel_none (rel xs.size)).1 (by simp)

/-- What two cells that stand for each other may hold at any time. -/
inductive CellState.Bonded (M : Manner) (B : Bond) : CellState → CellState → Prop where
  | vacant : Bonded M B .vacant .vacant
  | pending {w w' : Work} (works : WorkLike M B w w') : Bonded M B (.pending w) (.pending w')
  | forcing : Bonded M B .forcing .forcing
  | redirect {target target' : Ref} (targets : B.cells target target') :
      Bonded M B (.redirect target) (.redirect target')
  | forced {v v' : Value} (values : ValueLike M B v v') : Bonded M B (.forced v) (.forced v')

structure Rally.Paired (B : Bond) (y y' : Rally) : Prop where
  arguments : ∀ i : Nat, Option.Rel B.cells y.arguments[i]? y'.arguments[i]?
  rest : y' = { y with arguments := y'.arguments }

/-- Handles are bonded at once, and so is what is made for them. -/
def Held.Bonded (B : Bond) : Held → Prop
  | .nothing => True
  | .knot handle handle' made => B.cells handle handle' ∧ ∀ p ∈ made, B.cells p.1 p.2

/-- The scripts are alike, whatever else comes to be bonded. -/
def Script.Bonded {α β : Type} (M : Manner) (B : Bond)
    (post : Bond → Held → Except Fault α → Except Fault β → Prop) (held : Held) (script : Script α)
    (script' : Script β) : Prop :=
  ∀ C, B ≤ C → ScriptLike M C (post C) held script script'

/-- Stores stay related when like cells are made and like handles are filled, and rallies are alike
    in them. -/
structure Manner.Keeps (M : Manner) (R : Bond → Store → Store → Prop) : Prop where
  rallies {B : Bond} {s s' : Store} (related : R B s s') :
    ∀ id : Nat, Option.Rel (Rally.Paired B) s.rallies[id]? s'.rallies[id]?
  rest {B : Bond} {s s' t t' : Store} (related : R B s s') (same : t.heap = s.heap)
    (same' : t'.heap = s'.heap)
    (rallies : ∀ id : Nat, Option.Rel (Rally.Paired B) t.rallies[id]? t'.rallies[id]?) : R B t t'
  alloc {B : Bond} {s s' : Store} (related : R B s s') (c c' : Cell) (site : c.site = c'.site)
    (states : c.state.Bonded M B c'.state) : ∃ C, B ≤ C ∧
      C.cells (s.act (.alloc c)).1 (s'.act (.alloc c')).1 ∧
      C.actions (s.act (.alloc c)).1 (s'.act (.alloc c')).1 ∧
      R C (s.act (.alloc c)).2 (s'.act (.alloc c')).2
  vacant {B : Bond} {s s' : Store} (related : R B s s') {r r' : Ref} (cells : B.cells r r') :
    s.heap.state? r = some .vacant ↔ s'.heap.state? r' = some .vacant
  fill {B : Bond} {s s' : Store} (related : R B s s') {r r' target target' : Ref}
    (cells : B.cells r r') (targets : B.cells target target')
    (vacant : s.heap.state? r = some .vacant) (vacant' : s'.heap.state? r' = some .vacant) :
    ∃ C, B ≤ C ∧ R C { s with heap := s.heap.setState r (.redirect target) }
      { s' with heap := s'.heap.setState r' (.redirect target') }

section
variable {M : Manner} {B C : Bond}

theorem CellState.Bonded.mono (grows : B ≤ C) {c c' : CellState} (states : c.Bonded M B c') :
    c.Bonded M C c' := by
  cases states with
  | vacant => exact .vacant
  | pending works => exact .pending (works.mono grows)
  | forcing => exact .forcing
  | redirect targets => exact .redirect (grows.1 _ _ targets)
  | forced values => exact .forced (values.mono grows)

theorem StateLike.bonded {c c' : CellState} (like : StateLike M B c c') : c.Bonded M B c' := by
  cases like with
  | vacant strays => exact .vacant
  | pending works => exact .pending works
  | forced values => exact .forced values

theorem Rally.Paired.mono (grows : B ≤ C) {y y' : Rally} (rallies : y.Paired B y') :
    y.Paired C y' :=
  ⟨fun i => optionRel_imp grows.1 (rallies.arguments i), rallies.rest⟩

theorem Rally.Paired.poll {y y' : Rally} (rallies : y.Paired B y') :
    PollLike B y.poll.1 y'.poll.1 ∧ y.poll.2.Paired B y'.poll.2 := by
  obtain ⟨arguments, rest⟩ := rallies
  generalize y'.arguments = as' at arguments rest
  subst rest
  unfold Rally.poll
  dsimp only
  split
  · exact ⟨.exhausted, arguments, rfl⟩
  · split
    · exact ⟨.reported _, arguments, rfl⟩
    · split
      · exact ⟨.exhausted, arguments, rfl⟩
      · next i found =>
        have argument := arguments i
        generalize y.arguments[i]? = o, as'[i]? = o' at argument
        cases argument with
        | none => exact ⟨.exhausted, arguments, rfl⟩
        | some cells => exact ⟨.late i cells, arguments, rfl⟩

theorem Rally.Paired.list {y y' : Rally} (rallies : y.Paired B y') (i : Nat) :
    Option.Rel B.cells (y.list i).1 (y'.list i).1 ∧ (y.list i).2.Paired B (y'.list i).2 := by
  obtain ⟨arguments, rest⟩ := rallies
  generalize y'.arguments = as' at arguments rest
  subst rest
  unfold Rally.list
  have argument := arguments i
  dsimp only
  generalize y.arguments[i]? = o, as'[i]? = o' at argument
  cases y.listed[i]? with
  | none => exact ⟨.none, arguments, rfl⟩
  | some listed =>
    cases argument with
    | none => cases listed <;> exact ⟨.none, arguments, rfl⟩
    | some cells =>
      cases listed with
      | false => exact ⟨.some cells, arguments, rfl⟩
      | true => exact ⟨.none, arguments, rfl⟩

theorem PollLike.mono (grows : B ≤ C) {p p' : Poll} (polls : PollLike B p p') :
    PollLike C p p' := by
  cases polls with
  | exhausted => exact .exhausted
  | reported i => exact .reported i
  | late i cells => exact .late i (grows.1 _ _ cells)

theorem Held.Bonded.mono (grows : B ≤ C) {held : Held} (mine : held.Bonded B) : held.Bonded C := by
  cases held with
  | nothing => trivial
  | knot handle handle' made =>
    exact ⟨grows.1 _ _ mine.1, fun p member => grows.1 _ _ (mine.2 p member)⟩

theorem Held.Bonded.add_le {handle handle' : Ref} {made : List (Ref × Ref)}
    (mine : (Held.knot handle handle' made).Bonded B) :
    B.add ((handle, handle') :: made) ≤ B := by
  refine ⟨?_, fun _ _ => id⟩
  rintro r q (old | new)
  · exact old
  · cases new with
    | head => exact mine.1
    | tail _ new => exact mine.2 _ new

theorem Script.Bonded.mono {α β : Type}
    {post : Bond → Held → Except Fault α → Except Fault β → Prop} {held : Held}
    {script : Script α} {script' : Script β} (grows : B ≤ C)
    (scripts : script.Bonded M B post held script') : script.Bonded M C post held script' :=
  fun D more => scripts D (Bond.le_trans grows more)

end

theorem Heap.fill_of_vacant {h : Heap} {handle : Ref} (vacant : h.state? handle = some .vacant)
    (target : Ref) : h.fill handle target = (true, h.setState handle (.redirect target)) := by
  simp [fill, vacant]

theorem Heap.fill_of_full {h : Heap} {handle : Ref} (full : h.state? handle ≠ some .vacant)
    (target : Ref) : h.fill handle target = (false, h) := by
  unfold fill
  split
  · next vacant => exact absurd vacant full
  · rfl

/-! ### One action at a time -/

section
variable {α β : Type} {post : Bond → Held → Except Fault α → Except Fault β → Prop} {held : Held}
variable {M : Manner} {R : Bond → Store → Store → Prop} {B : Bond} {s t s' t' : Store}

/-- Both scripts have taken an action. What is bonded now, and what the scripts hold now. -/
structure Script.ActedAlike (M : Manner) (R : Bond → Store → Store → Prop) (B : Bond)
    (post : Bond → Held → Except Fault α → Except Fault β → Prop) (t t' : Store)
    (rest : Script α) (rest' : Script β) (C : Bond) (held : Held) : Prop where
  grows : B ≤ C
  mine : held.Bonded C
  scripts : rest.Bonded M C post held rest'
  stores : R C t t'

namespace Manner.Keeps

/-- What has nothing to do with the heap. -/
theorem other {rest : Script α} {rest' : Script β} (keeps : M.Keeps R) (related : R B s s')
    (mine : held.Bonded B) (same : t.heap = s.heap) (same' : t'.heap = s'.heap)
    (rallies : ∀ id : Nat, Option.Rel (Rally.Paired B) t.rallies[id]? t'.rallies[id]?)
    (scripts : rest.Bonded M B post held rest') :
    Script.ActedAlike M R B post t t' rest rest' B held :=
  ⟨Bond.le_refl _, mine, scripts, keeps.rest related same same' rallies⟩

theorem act_alloc (keeps : M.Keeps R) (tidy : ¬ M.strays) (hosted : M.hosted) (related : R B s s')
    (mine : held.Bonded B) {c : Cell} {next : Ref → Script α} {script' : Script β}
    (scripts : Script.Bonded M B post held (.act (.alloc c) next) script') :
    ∃ (c' : Cell) (next' : Ref → Script β), script' = .act (.alloc c') next' ∧ ∃ C held',
      Script.ActedAlike M R B post (s.act (.alloc c)).2 (s'.act (.alloc c')).2
        (next (s.act (.alloc c)).1) (next' (s'.act (.alloc c')).1) C held' := by
  have filled {B : Bond} {c c' : CellState} (like : StateLike M B c c') : c ≠ .vacant := by
    rintro rfl
    cases like with
    | vacant strays => exact tidy strays
  -- Whichever way the scripts are alike, they go on alike once the new cells are bonded.
  have goesOn {c' : Cell} {next' : Ref → Script β} (full : c ≠ .vacant)
      (scripts : Script.Bonded M B post .nothing (.act (.alloc c) next) (.act (.alloc c') next'))
      {r q : Ref} {C : Bond} (grows : B ≤ C) (cells : C.cells r q) (actions : C.actions r q) :
      (next r).Bonded M C post .nothing (next' q) := by
    intro D more
    cases scripts D (Bond.le_trans grows more) with
    | alloc _ rest => exact rest _ _ (more.1 _ _ cells)
    | action _ _ rest => exact rest _ _ (more.2 _ _ actions)
    | vacant => exact absurd rfl full
  have first := scripts B (Bond.le_refl _)
  cases first with
  | @alloc _ c' _ next' made rest =>
    obtain ⟨C, grows, cells, actions, stores⟩ :=
      keeps.alloc related c c' made.site made.state.bonded
    have full : c ≠ .vacant := fun vacant => filled made.state (by rw [vacant]; rfl)
    exact ⟨c', next', rfl, C, .nothing, grows, trivial, goesOn full scripts grows cells actions, stores⟩
  | @action b b' ps ps' _ next' bodies parameters rest =>
    obtain ⟨C, grows, cells, actions, stores⟩ := keeps.alloc related (.ofSuspension (.action b ps))
      (.ofSuspension (.action b' ps')) rfl (.pending ⟨.resume (.action hosted bodies parameters), rfl⟩)
    exact ⟨_, next', rfl, C, .nothing, grows, trivial,
      goesOn (by simp [Cell.ofSuspension, Cell.vacant]) scripts grows cells actions, stores⟩
  | @vacant _ next' rest =>
    obtain ⟨C, grows, cells, -, stores⟩ := keeps.alloc related .vacant .vacant rfl .vacant
    refine ⟨_, next', rfl, C, .knot _ _ [], grows, ⟨cells, by simp⟩, fun D more => ?_, stores⟩
    cases scripts D (Bond.le_trans grows more) with
    | alloc made _ => exact absurd rfl (filled made.state)
    | vacant rest => exact rest _ _
  | @hold handle handle' made v v' _ next' values rest =>
    obtain ⟨C, grows, cells, -, stores⟩ := keeps.alloc related (.ofValue v) (.ofValue v') rfl
      (.forced (values.mono mine.add_le))
    let n := (s.act (.alloc (.ofValue v))).1
    let n' := (s'.act (.alloc (.ofValue v'))).1
    refine ⟨_, next', rfl, C, .knot handle handle' ((n, n') :: made), grows,
      ⟨grows.1 _ _ mine.1, ?_⟩, fun D more => ?_, stores⟩
    · intro p member
      cases member with
      | head => exact cells
      | tail _ member => exact grows.1 _ _ (mine.2 p member)
    · cases scripts D (Bond.le_trans grows more) with
      | hold _ rest => exact rest _ _

theorem act_fill (keeps : M.Keeps R) (related : R B s s') (mine : held.Bonded B)
    {handle target : Ref} {next : Bool → Script α} {script' : Script β}
    (scripts : Script.Bonded M B post held (.act (.fill handle target) next) script') :
    ∃ (handle' target' : Ref) (next' : Bool → Script β),
      script' = .act (.fill handle' target') next' ∧ ∃ C held',
      Script.ActedAlike M R B post (s.act (.fill handle target)).2
        (s'.act (.fill handle' target')).2 (next (s.act (.fill handle target)).1)
        (next' (s'.act (.fill handle' target')).1) C held' := by
  have first := scripts B (Bond.le_refl _)
  cases first with
  | @fill _ handle' _ target' made _ next' member rest refused =>
  refine ⟨handle', target', next', rfl, ?_⟩
  have vacants := keeps.vacant related mine.1
  by_cases vacant : s.heap.state? handle = some .vacant
  · have vacant' := vacants.1 vacant
    obtain ⟨C, grows, stores⟩ := keeps.fill related mine.1 (mine.2 _ member) vacant vacant'
    simp only [Store.act, Heap.fill_of_vacant vacant, Heap.fill_of_vacant vacant']
    refine ⟨C, .nothing, grows, trivial, fun D more => ?_, stores⟩
    have all := Bond.le_trans grows more
    cases scripts D all with
    | fill _ rest _ =>
      refine rest fun p mem => all.1 _ _ ?_
      cases mem with
      | head => exact mine.1
      | tail _ mem => exact mine.2 p mem
  · have full' := fun vacant' => vacant (vacants.2 vacant')
    simp only [Store.act, Heap.fill_of_full vacant, Heap.fill_of_full full']
    refine ⟨B, _, keeps.other related mine rfl rfl (keeps.rallies related) fun D more => ?_⟩
    cases scripts D more with
    | fill _ _ refused => exact refused

theorem rally (keeps : M.Keeps R) (related : R B s s') (id : Nat) {y y' : Rally}
    (paired : y.Paired B y') (j : Nat) :
    Option.Rel (Rally.Paired B) (s.rallies.setIfInBounds id y)[j]?
      (s'.rallies.setIfInBounds id y')[j]? := by
  simp only [Array.getElem?_setIfInBounds, size_eq_of_rel (keeps.rallies related)]
  split
  · split
    · exact .some paired
    · exact .none
  · exact keeps.rallies related j

/-- Whatever one script does, the other one does too. -/
theorem act (keeps : M.Keeps R) (tidy : ¬ M.strays) (hosted : M.hosted) (related : R B s s')
    (mine : held.Bonded B) {a : Action} {next : a.Answer → Script α} {script' : Script β}
    (scripts : Script.Bonded M B post held (.act a next) script') :
    ∃ (a' : Action) (next' : a'.Answer → Script β), script' = .act a' next' ∧ ∃ C held',
      Script.ActedAlike M R B post (s.act a).2 (s'.act a').2 (next (s.act a).1) (next' (s'.act a').1)
        C held' := by
  have first := scripts B (Bond.le_refl _)
  have rallies := keeps.rallies related
  cases a with
  | alloc c =>
    obtain ⟨c', next', rfl, acted⟩ := keeps.act_alloc tidy hosted related mine scripts
    exact ⟨.alloc c', next', rfl, acted⟩
  | fill handle target =>
    obtain ⟨handle', target', next', rfl, acted⟩ := keeps.act_fill related mine scripts
    exact ⟨.fill handle' target', next', rfl, acted⟩
  | trace label =>
    cases first with
    | @trace _ _ next' _ rest =>
      refine ⟨.trace label, next', rfl, B, held, ?_⟩
      refine keeps.other related mine rfl rfl rallies fun D more => ?_
      cases scripts D more with
      | trace _ rest => exact rest
  | submit job =>
    cases first with
    | @submit _ r r' _ next' targets report rest =>
      refine ⟨.submit { target := r', report }, next', rfl, B, held, ?_⟩
      refine keeps.other related mine rfl rfl rallies fun D more => ?_
      cases scripts D more with
      | submit _ _ rest => exact rest
  | openRally rs =>
    cases first with
    | @openRally _ _ rs' _ next' hosted arguments rest =>
      refine ⟨.openRally rs', next', rfl, B, held, ?_⟩
      have count := size_eq_of_rel rallies
      have opened : (Rally.ofRefs rs).Paired B (Rally.ofRefs rs') := by
        refine ⟨fun i => by simpa [Rally.ofRefs] using arguments.getElem? i, ?_⟩
        simp [Rally.ofRefs, arguments.length_eq]
      refine keeps.other related mine rfl rfl (fun i => ?_) fun D more => ?_
      · simp only [Store.act, Array.getElem?_push, count]
        split
        · exact .some opened
        · exact rallies i
      · cases scripts D more with
        | openRally _ _ rest =>
          simp only [Store.act, count]
          exact rest _
  | pollRally id =>
    cases first with
    | @pollRally _ _ next' hosted _ rest =>
      refine ⟨.pollRally id, next', rfl, B, held, ?_⟩
      have goesOn {p p' : Poll} (polls : PollLike B p p') :
          (next p).Bonded M B post held (next' p') := by
        intro D more
        cases scripts D more with
        | pollRally _ _ rest => exact rest p p' (polls.mono more)
      have found := rallies id
      simp only [Store.act]
      generalize s.rallies[id]? = o, s'.rallies[id]? = o' at found
      cases found with
      | none => exact keeps.other related mine rfl rfl rallies (goesOn .exhausted)
      | some rally =>
        exact keeps.other related mine rfl rfl (keeps.rally related id rally.poll.2)
          (goesOn rally.poll.1)
  | listRally id i =>
    cases first with
    | @listRally _ _ next' hosted _ _ rest =>
      refine ⟨.listRally id i, next', rfl, B, held, ?_⟩
      have goesOn {o o' : Option Ref} (listed : Option.Rel B.cells o o') :
          (next o).Bonded M B post held (next' o') := by
        intro D more
        cases scripts D more with
        | listRally _ _ _ rest => exact rest o o' (optionRel_imp more.1 listed)
      have found := rallies id
      simp only [Store.act]
      generalize s.rallies[id]? = o, s'.rallies[id]? = o' at found
      cases found with
      | none => exact keeps.other related mine rfl rfl rallies (goesOn .none)
      | some rally =>
        exact keeps.other related mine rfl rfl (keeps.rally related id (rally.list i).2)
          (goesOn (rally.list i).1)

end Manner.Keeps
end
end CallByNeed
