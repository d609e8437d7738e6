import CallByNeed.Proofs.Bundles.Following
import CallByNeed.Proofs.Listing

/- What calls of `fix` and `fixAll` make. A function is tied to a cell that is passed to it; the cell
   has become the function itself, or the list of all functions that are tied to it. -/
namespace CallByNeed
open Relation (ReflTransGen TransGen)

/-- A list of these functions, each of which is passed the cell `self`. -/
inductive Heap.Strand (h : Heap) (self : Ref) : List Ref → LazyList → Prop where
  | nil : Strand h self [] .nil
  | cons {f head tail : Ref} {fs : List Ref} {l : LazyList}
      (first : h.Yields head (.native (.fixedPoint f self))) (known : h.Yields tail (.list l))
      (rest : Strand h self fs l) : Strand h self (f :: fs) (.cons head tail)

/-- What the call of the builtin on these functions has made, and what has become of `self`. -/
inductive Heap.Tied (h : Heap) (self : Ref) : Builtin → List Ref → Value → Prop where
  | one {f : Ref} (known : h.Yields self (.native (.fixedPoint f self))) :
      Tied h self .fix [f] (.native (.fixedPoint f self))
  | many {fs : List Ref} {l : LazyList} (known : h.Yields self (.list l))
      (strand : h.Strand self fs l) : Tied h self .fixAll fs (.list l)

/-- A call of the builtin on these functions makes them, within the bound of loops. -/
inductive Engine.Ties (E : Engine) : Builtin → List Ref → Prop where
  | one (f : Ref) : Ties E .fix [f]
  | many {fs : List Ref} (enough : fs.length < E.bound) : Ties E .fixAll fs

/-- A call of the builtin on these functions that waits. -/
def Heap.Untied (h : Heap) (E : Engine) (b : Builtin) (fs : List Ref) (r : Ref) : Prop :=
  E.Ties b fs ∧ ∃ c site, h.Yields c (.function b.function) ∧
    h.state? r = some (.pending { task := .call c { positionals := fs }, site })

section
variable {h h' : Heap} {self r : Ref} {fs : List Ref} {l : LazyList} {b : Builtin} {v : Value}

theorem Heap.Strand.before (strand : h.Strand self fs l) (before : h.Before h') :
    h'.Strand self fs l := by
  induction strand with
  | nil => exact .nil
  | cons first known _ ih => exact .cons (before.yields first) (before.yields known) ih

theorem Heap.Tied.before (tied : h.Tied self b fs v) (before : h.Before h') :
    h'.Tied self b fs v := by
  cases tied with
  | one known => exact .one (before.yields known)
  | many known strand => exact .many (before.yields known) (strand.before before)

theorem Heap.Tied.yields (tied : h.Tied self b fs v) : h.Yields self v := by
  cases tied with
  | one known => exact known
  | many known => exact known

/-- No fault passes a site, and nothing is an effect. -/
theorem Heap.Tied.through? (tied : h.Tied self b fs v) (site : Option Location) :
    v.through? site = v := by
  cases tied <;> rfl

end

/-! ### Scripts whose demands have been met -/

section
variable {E : Engine} {s t : Store} {cell r : Ref} {site : Option Location} {frames : List Frame}

/-- A body whose demand has an answer goes on with it. -/
theorem Heap.Replies.moves {how : Demand} {v : Value} (replies : s.heap.Replies how r v)
    (next : Value → Script Outcome) (cell : Ref) (site : Option Location) (frames : List Frame) :
    TransGen E.Moves (.run cell site (.demand how r next), frames, s)
      (.run cell site (next v), frames, s) := by
  induction replies with
  | resume yields reply =>
    refine .head' Engine.Advance.demand.move ?_
    exact ((Runner.returns_of_yields yields).moves _).tail (Engine.Advance.resume reply).move
  | perform yields reply _ ih =>
    -- The action is entered at once, which is what the engine does for a demand of it.
    obtain ⟨⟨c, others, t⟩, first, enters⟩ := TransGen.head'_iff.1 ih
    have demands : E.Advance _ _ _ c others t := first
    cases demands
    refine .head' Engine.Advance.demand.move ?_
    exact ((Runner.returns_of_yields yields).moves _).trans
      (.head (Engine.Advance.perform reply).move enters)

/-- A part of a body that only reads what is there is done, and the body goes on. -/
theorem Script.Reads.moves {α : Type} {m : Script α} {f : α → Script Outcome} {a : α}
    (reads : m.Reads s.heap (.ok a)) (cell : Ref) (site : Option Location) (frames : List Frame) :
    ReflTransGen E.Moves (.run cell site (m >>= f), frames, s) (.run cell site (f a), frames, s) := by
  change ReflTransGen E.Moves (.run cell site (m.bind f), frames, s) _
  generalize ended : Except.ok a = o at reads
  induction reads with
  | done =>
    cases ended
    exact .refl
  | raise => cases ended
  | demand replies _ ih => exact (replies.moves _ cell site frames).to_reflTransGen.trans (ih ended)

end

/-! ### The two calls -/

section
variable {E : Engine} {s t : Store} {r : Ref} {fs : List Ref}

/-- What has been made stays one's own when more is made. -/
theorem Store.Works.more {u : Store} {left : List Ref} (works : s.Works [] t left)
    (more : t.Works [] u []) : s.Works [] u left where
  before := works.before.trans more.before
  others q c other state := more.others q c other (works.others q c other state)
  fresh := works.fresh
  rest := by rw [more.rest, works.rest]

/-- A handle that has just been made is filled. -/
theorem Store.works_knot {handle : Ref} {left : List Ref} (works : s.Works [] t left)
    (mine : handle ∈ left) (vacant : t.heap.state? handle = some .vacant) (target : Ref) :
    (fillHandle handle target).Comes E t (.ok ()) (t.act (.fill handle target)).2 ∧
      s.Works [] (t.act (.fill handle target)).2 [] ∧
      (t.act (.fill handle target)).2.heap.Redirects handle target := by
  have filled := Heap.fill_of_vacant vacant target
  have same : t.act (.fill handle target) =
      (true, { t with heap := t.heap.setState handle (.redirect target) }) := by
    simp only [Store.act, filled]
  refine ⟨.act ?_, ?_, ?_⟩
  · rw [same]
    exact .done
  · rw [same]
    exact works.trans (t.works_fill vacant target) (List.Subset.refl _) fun q mem => by
      rw [List.mem_singleton.1 mem]
      exact works.fresh _ mine
  · rw [same]
    exact Heap.state?_setState_self vacant _

/-- One function is tied to itself. -/
theorem Builtin.comes_fixedPoint (E : Engine) (s : Store) (f : Ref) : ∃ self v t,
    (fixedPoint f).Comes E s (.ok (.value v)) t ∧ s.Works [] t [] ∧ t.heap.Tied self .fix [f] v := by
  let self := (s.act (.alloc .vacant)).1
  let v : Value := .native (.fixedPoint f self)
  let s₁ := (s.act (.alloc .vacant)).2
  let target := (s₁.act (.alloc (.ofValue v))).1
  let s₂ := (s₁.act (.alloc (.ofValue v))).2
  have made := s.works_alloc .vacant
  have vacant : s₂.heap.state? self = some .vacant :=
    Heap.state?_alloc_of_some (Heap.state?_new _ _) _
  have works : s.Works [] s₂ [self] := made.more (s₁.works_alloc _).forget
  obtain ⟨fills, works', redirect⟩ := Store.works_knot (E := E) works
    List.mem_cons_self vacant target
  have known := (s₂.before_act (.fill self target)).forced (Heap.state?_new s₁.heap (.ofValue v))
  refine ⟨self, v, _, .act (.act (fills.bind .done)), works', .one ⟨target, .single redirect, known⟩⟩

/-- A cell for each of the functions. -/
theorem Builtin.comes_results (E : Engine) (s : Store) (self : Ref) (fs : List Ref) : ∃ rs t,
    (fs.mapM fun f => allocValue (.native (.fixedPoint f self)) : Script (List Ref)).Comes E s
        (.ok rs) t ∧ s.Works [] t [] ∧
      List.Forall₂ (fun f r => t.heap.Yields r (.native (.fixedPoint f self))) fs rs := by
  induction fs generalizing s with
  | nil => exact ⟨[], s, .done, s.works_refl (List.Subset.refl _), .nil⟩
  | cons f fs ih =>
    have works := s.works_alloc (.ofValue (.native (.fixedPoint f self)))
    obtain ⟨rs, t, comes, works', known⟩ := ih (s.act (.alloc (.ofValue (.native (.fixedPoint f self))))).2
    refine ⟨_ :: rs, t, ?_, works.forget.trans works' (List.Subset.refl _) (by simp),
      .cons ⟨_, .refl, works'.before.forced (Heap.state?_new _ _)⟩ known⟩
    rw [List.mapM_cons]
    exact .act (comes.bind .done)

/-- A list of such cells is a strand. -/
theorem Heap.Whole.strand {h : Heap} {self : Ref} {l : LazyList} {rs : List Ref} (whole : h.Whole l rs)
    (known : List.Forall₂ (fun f r => h.Yields r (.native (.fixedPoint f self))) fs rs) :
    h.Strand self fs l := by
  induction whole generalizing fs with
  | nil =>
    cases known
    exact .nil
  | cons list _ ih =>
    cases known with
    | cons first rest => exact .cons first ⟨_, .refl, list⟩ (ih rest)

/-- Several functions are tied to the list of them. -/
theorem Builtin.moves_fixedPoints {functions : Ref} {l : LazyList}
    (known : s.heap.state? functions = some (.forced (.list l))) (whole : s.heap.Whole l fs)
    (enough : fs.length < E.bound) : ∃ self v t, s.Works [] t [] ∧ t.heap.Tied self .fixAll fs v ∧
      ∀ cell site frames, ReflTransGen E.Moves
        (.run cell site (fixedPoints E.bound functions), frames, s)
        (.run cell site (.done (.value v)), frames, t) := by
  let self := (s.act (.alloc .vacant)).1
  let s₁ := (s.act (.alloc .vacant)).2
  have made := s.works_alloc .vacant
  have whole₁ : s₁.heap.Whole l fs := whole.carry (made.carries (List.forall_mem_nil _))
  have listed : (forceList functions).Reads s₁.heap (.ok l) :=
    Script.reads_forceList ⟨_, .refl, made.before.forced known⟩
  obtain ⟨rs, s₂, results, works₂, tied⟩ := comes_results E s₁ self fs
  obtain ⟨l', s₃, lists, works₃, whole₃⟩ := Script.works_ofRefs E s₂ rs
  let target := (s₃.act (.alloc (.ofValue (.list l')))).1
  let s₄ := (s₃.act (.alloc (.ofValue (.list l')))).2
  have works₄ := works₂.trans (works₃.trans (s₃.works_alloc (.ofValue (.list l'))).forget
    (List.Subset.refl _) (by simp)) (List.Subset.refl _) (by simp)
  have works : s.Works [] s₄ [self] := made.more works₄
  have vacant : s₄.heap.state? self = some .vacant :=
    works₄.others _ _ (by simp) (Heap.state?_new _ _)
  obtain ⟨fills, works', redirect⟩ := Store.works_knot (E := E) works
    List.mem_cons_self vacant target
  have later := s₄.before_act (.fill self target)
  have strand := (whole₃.strand (tied.imp fun _ _ => works₃.before.yields)).before
    ((s₃.before_act _).trans later)
  refine ⟨self, .list l', _, works',
    .many ⟨target, .single redirect, later.forced (Heap.state?_new _ _)⟩ strand, ?_⟩
  intro cell site frames
  refine .head Engine.Advance.act.move ?_
  refine (listed.moves cell site frames).trans ?_
  refine ((whole₁.reads_elements enough).moves cell site frames).trans ?_
  refine (results.moves cell site frames).trans ((lists.moves cell site frames).trans ?_)
  exact .head Engine.Advance.act.move (fills.moves cell site frames)

/-- The one parameter takes one argument. -/
theorem Signature.bind_one (name : String) (r : Ref) :
    (Signature.plain [name]).bind { positionals := [r] } = pure [r] := rfl

/-- The rest parameter takes all arguments. -/
theorem Signature.bind_all (more : String) (rs : List Ref) :
    (Signature.plain [] (some more)).bind { positionals := rs } =
      ({ positionals := rs } : Arguments).restPositionals >>= fun p => pure [p.1] := by
  simp [Signature.bind, Signature.plain, Binding.bindNamed, Binding.bindRest, Binding.push,
    Arguments.restPositionals, Arguments.nextPositional, Arguments.checkTaken,
    Arguments.countEntries]

/-- A call that ties a knot makes nothing but new cells, and needs nothing but its function. -/
theorem Engine.Ties.moves {b : Builtin} {c : Ref} (ties : E.Ties b fs)
    (function : s.heap.Yields c (.function b.function)) : ∃ self v t, s.Works [] t [] ∧
      t.heap.Tied self b fs v ∧ ∀ cell site frames, ReflTransGen E.Moves
        (.run cell site ((Task.call c { positionals := fs }).script E.bound), frames, s)
        (.run cell site (.done (.value v)), frames, t) := by
  have callee : (force c).Comes E s (.ok (.function b.function)) s :=
    .demand (Runner.returns_of_yields function) rfl .done
  cases ties with
  | one f =>
    obtain ⟨self, v, t, comes, works, tied⟩ := Builtin.comes_fixedPoint E s f
    refine ⟨self, v, t, works, tied, fun cell site frames => ?_⟩
    refine (callee.moves cell site frames).trans ?_
    have called : (Value.function Builtin.fix.function).call E.bound { positionals := [f] } =
        Builtin.fixedPoint f >>= pure := (bind_pure _).symm
    rw [called]
    exact comes.moves cell site frames
  | many enough =>
    obtain ⟨l, rest, s₁, binds, works, known, whole⟩ := Arguments.works_restPositionals E s fs
    obtain ⟨self, v, t, works', tied, moves⟩ := Builtin.moves_fixedPoints known whole enough
    refine ⟨self, v, t, works.trans works' (List.Subset.refl _) (by simp), tied,
      fun cell site frames => (callee.moves cell site frames).trans ?_⟩
    have bound := Signature.bind_all "functions" fs
    have called : (Value.function Builtin.fixAll.function).call E.bound { positionals := fs } =
        ({ positionals := fs } : Arguments).restPositionals >>= fun p =>
          Builtin.fixedPoints E.bound p.1 := by
      change (Signature.plain [] (some "functions")).bind _ >>= _ = _
      rw [bound, bind_assoc]
      rfl
    rw [called]
    exact (binds.moves cell site frames).trans (moves cell site frames)

/-- The cell that does the work of the call gets its value. -/
theorem Engine.Ties.gives {b : Builtin} {c cell : Ref} (ties : E.Ties b fs)
    (function : s.heap.Yields c (.function b.function)) (busy : s.heap.state? cell = some .forcing) :
    ∃ self v t, s.Works [cell] t [] ∧ t.heap.Tied self b fs v ∧
      t.heap.state? cell = some (.forced v) ∧ ∀ site frames, TransGen E.Moves
        (.run cell site ((Task.call c { positionals := fs }).script E.bound), frames, s)
        (.give v, frames, t) := by
  obtain ⟨self, v, t, works, tied, moves⟩ := ties.moves function
  have running : t.heap.state? cell = some .forcing := works.others cell _ (by simp) busy
  have ended := t.works_publish running v
  refine ⟨self, v, t.publish cell v, works.trans ended (by simp) (by simp), tied.before ended.before,
    Heap.state?_setState_self running _, fun site frames => ?_⟩
  have gives : E.Advance (.run cell site (.done (.value v))) frames t
      (.give (v.through? site)) frames (t.publish cell (v.through? site)) := .value
  rw [tied.through?] at gives
  exact .tail' (moves cell site frames) gives.move

/-- A call that waits is forced. -/
theorem Heap.Untied.enters {b : Builtin} (untied : s.heap.Untied E b fs r) :
    ∃ self v t, s.Works [r] t [] ∧ t.heap.Tied self b fs v ∧ t.heap.Yields r v ∧
      ∀ frames, TransGen E.Moves (.enter r, frames, s) (.give v, frames, t) := by
  obtain ⟨ties, c, site, function, state⟩ := untied
  have started := s.works_start state
  obtain ⟨self, v, t, works, tied, known, moves⟩ := ties.gives (started.before.yields function)
    (Heap.state?_setState_self state _)
  refine ⟨self, v, t, started.trans works (List.Subset.refl _) (by simp), tied, ⟨r, .refl, known⟩,
    fun frames => .head (Engine.Advance.start state).move (moves site frames)⟩

/-- The work of a call that waits is taken over by a cell whose tail it is. -/
theorem Heap.Untied.splices {b : Builtin} {cell : Ref} (untied : s.heap.Untied E b fs r)
    (splices : E.splices = true) (busy : s.heap.state? cell = some .forcing) :
    ∃ self v t, s.Works [r, cell] t [] ∧ t.heap.Tied self b fs v ∧ t.heap.Yields r v ∧
      t.heap.state? cell = some (.forced v) ∧ ∀ site frames, TransGen E.Moves
        (.run cell site (.done (.tail r)), frames, s) (.give v, frames, t) := by
  obtain ⟨ties, c, site, function, state⟩ := untied
  have taken := s.works_splice state cell
  have other : cell ≠ r := by
    rintro rfl
    rw [state] at busy
    cases busy
  obtain ⟨self, v, t, works, tied, known, moves⟩ := ties.gives (taken.before.yields function)
    (taken.others cell _ (by simpa using other) busy)
  have redirect := works.before.redirects
    (show Heap.Redirects _ r cell from Heap.state?_setState_self state _)
  exact ⟨self, v, t, taken.trans works (by simp) (by simp), tied, ⟨cell, .single redirect, known⟩,
    known, fun _ frames => .head (Engine.Advance.splice splices state).move (moves site frames)⟩

end
end CallByNeed
