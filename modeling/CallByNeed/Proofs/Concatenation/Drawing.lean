import CallByNeed.Proofs.Concatenation.Extents
import CallByNeed.Proofs.Reading.Runs

/- Drawing joined lists. A cell of a concatenation returns whenever the cells do that hold its sources
   up to the next element. Where these are known, any number of elements is drawn, and no other cell
   changes. -/
namespace CallByNeed

/-- A list is drawn by forcing its cells one after the other. -/
inductive Engine.Draws (E : Engine) : Ref → Extent Ref → Store → Store → Prop
  | unknown {r : Ref} {s : Store} : Draws E r .unknown s s
  | nil {r : Ref} {s s' : Store} (list : (forceList r).Comes E s (.ok .nil) s') :
      Draws E r .nil s s'
  | failed {r : Ref} {e : Fault} {s s' : Store} (list : (forceList r).Comes E s (.error e) s') :
      Draws E r (.failed e) s s'
  | cons {r head tail : Ref} {x : Extent Ref} {s s₁ s' : Store}
      (list : (forceList r).Comes E s (.ok (.cons head tail)) s₁) (rest : Draws E tail x s₁ s') :
      Draws E r (.cons head x) s s'

/-- The list to go on with, and the lists behind it, once lists have been forced until one has not
    ended. So many have ended before. -/
inductive Engine.Fetches (E : Engine) :
    Nat → LazyList → Ref → Store → Except Fault (LazyList × Ref) → Store → Prop
  | cell {head tail rest : Ref} {s : Store} :
      Fetches E 0 (.cons head tail) rest s (.ok (.cons head tail, rest)) s
  | ended {rest : Ref} {s s' : Store} (lists : (forceList rest).Comes E s (.ok .nil) s') :
      Fetches E 0 .nil rest s (.ok (.nil, rest)) s'
  | broken {rest : Ref} {e : Fault} {s s' : Store}
      (lists : (forceList rest).Comes E s (.error e) s') : Fetches E 0 .nil rest s (.error e) s'
  | next {n : Nat} {rest next others : Ref} {l : LazyList} {o : Except Fault (LazyList × Ref)}
      {s s₁ s₂ s' : Store} (lists : (forceList rest).Comes E s (.ok (.cons next others)) s₁)
      (list : (forceList next).Comes E s₁ (.ok l) s₂) (more : Fetches E n l others s₂ o s') :
      Fetches E (n + 1) .nil rest s o s'
  | misfit {rest next others : Ref} {e : Fault} {s s₁ s' : Store}
      (lists : (forceList rest).Comes E s (.ok (.cons next others)) s₁)
      (list : (forceList next).Comes E s₁ (.error e) s') : Fetches E 0 .nil rest s (.error e) s'

/-- What follows the next head of joined lists is left to a new cell. -/
def Store.leave (s : Store) : Except Fault (LazyList × Ref) → Except Fault LazyList × Store
  | .error e => (.error e, s)
  | .ok (.nil, _) => (.ok .nil, s)
  | .ok (.cons head tail, rest) =>
    let (made, s) := s.act (.alloc (.ofSuspension (.concat tail rest)))
    (.ok (.cons head made), s)

/-- The work of a cell is begun. -/
def Store.start (s : Store) (r : Ref) : Store := { s with heap := s.heap.setState r .forcing }

def Store.publish (s : Store) (r : Ref) (v : Value) : Store :=
  { s with heap := s.heap.publish r v }

theorem Value.through?_none (v : Value) : v.through? none = v := by
  cases v <;> rfl

section
variable {E : Engine} {s s₁ s₂ s' : Store} {m first rest r : Ref} {l : LazyList} {n bound : Nat}
variable {o : Except Fault LazyList} {found : Except Fault (LazyList × Ref)} {v : Value}
variable {site : Option Location}

/-- The fault that a script comes to is what the engine gives the cell whose body it is. -/
theorem Script.Comes.returns_error {body : Script Outcome} {e : Fault}
    (comes : body.Comes E s (.error e) s') (cell : Ref) (site : Option Location) :
    E.Returns (.run cell site body) s (.error (e.through? site))
      (s'.publish cell (.error (e.through? site))) := by
  generalize ended : Except.error e = x at comes
  induction comes with
  | done => cases ended
  | raise =>
    cases ended
    exact .fault
  | demand first reply _ ih => exact .demand first reply (ih ended)
  | act _ ih => exact .act (ih ended)

theorem Script.Comes.answer_list {lists : Script LazyList} (comes : lists.Comes E s o s') :
    (lists >>= fun l => answer (.list l)).Comes E s (o.map fun l => .value (.list l)) s' := by
  cases o with
  | error e => exact comes.bind_error
  | ok l => exact comes.bind .done

/-- What becomes of the cell whose body answers a list or fails. -/
theorem Script.Comes.returns_listed {body : Script Outcome}
    (comes : body.Comes E s (o.map fun l => .value (.list l)) s') (cell : Ref)
    (site : Option Location) : E.Returns (.run cell site body) s ((Value.listed o).through? site)
      (s'.publish cell ((Value.listed o).through? site)) := by
  cases o with
  | error e => exact comes.returns_error cell site
  | ok l => exact Script.Comes.returns (v := .list l) comes

/-- What a cell is forced to as a list. -/
theorem Engine.Returns.comes_forceList (returns : E.Returns (.enter r) s (.listed o) s') :
    (forceList r).Comes E s o s' := by
  cases o with
  | error e => exact Script.Comes.bind_error (.demand returns rfl .raise)
  | ok l => exact Script.Comes.bind (.demand returns rfl .done) .done

/-! ### One cell -/

theorem Engine.Fetches.comes (fetches : E.Fetches n l rest s found s') (enough : n < bound) :
    (l.concat bound rest).Comes E s (s'.leave found).1 (s'.leave found).2 := by
  induction fetches generalizing bound with
  | cell =>
    obtain ⟨bound, rfl⟩ := Nat.exists_eq_add_of_lt enough
    exact .act .done
  | ended lists =>
    obtain ⟨bound, rfl⟩ := Nat.exists_eq_add_of_lt enough
    exact lists.bind .done
  | broken lists =>
    obtain ⟨bound, rfl⟩ := Nat.exists_eq_add_of_lt enough
    exact lists.bind_error
  | next lists list _ ih =>
    obtain ⟨bound, rfl⟩ := Nat.exists_eq_add_of_lt enough
    exact lists.bind (list.bind (ih (by omega)))
  | misfit lists list =>
    obtain ⟨bound, rfl⟩ := Nat.exists_eq_add_of_lt enough
    exact lists.bind list.bind_error

/-- A cell of a concatenation returns, whatever its sources need for it. -/
theorem Engine.returns_of_concat
    (waits : s.heap.state? m = some (.pending { task := .resume (.concat first rest) }))
    (list : (forceList first).Comes E (s.start m) (.ok l) s₁)
    (fetches : E.Fetches n l rest s₁ found s₂) (enough : n < E.bound) :
    E.Returns (.enter m) s (.listed (s₂.leave found).1)
      ((s₂.leave found).2.publish m (.listed (s₂.leave found).1)) := by
  have body := list.bind (f := fun l => l.concat E.bound rest >>= fun l => answer (.list l))
    (fetches.comes enough).answer_list
  have returns := body.returns_listed m none
  rw [Value.through?_none] at returns
  exact .start waits returns

theorem Engine.returns_of_concat_error {e : Fault}
    (waits : s.heap.state? m = some (.pending { task := .resume (.concat first rest) }))
    (list : (forceList first).Comes E (s.start m) (.error e) s₁) :
    E.Returns (.enter m) s (.error e) (s₁.publish m (.error e)) :=
  .start waits (list.bind_error.returns_error m none)

/-! ### Calls -/

/-- Cells have been made, and no other cell has changed. -/
structure Heap.Enlarges (h h' : Heap) : Prop where
  extends' : h.Extends h'
  before : h.Before h'

theorem Heap.enlarges_refl (h : Heap) : h.Enlarges h := ⟨h.extends_refl, h.before_refl⟩

theorem Heap.Enlarges.trans {h h' h'' : Heap} (first : h.Enlarges h') (rest : h'.Enlarges h'') :
    h.Enlarges h'' :=
  ⟨first.extends'.trans rest.extends', first.before.trans rest.before⟩

theorem Store.enlarges_alloc (s : Store) (c : Cell) :
    s.heap.Enlarges (s.act (.alloc c)).2.heap ∧ s.heap.state? (s.act (.alloc c)).1 = none ∧
      (s.act (.alloc c)).2.heap.state? (s.act (.alloc c)).1 = some c.state := by
  refine ⟨⟨fun r state known => Heap.state?_alloc_of_some known c, s.before_act (.alloc c)⟩, ?_, ?_⟩
  · simp [Store.act, Heap.alloc, Heap.state?, Heap.cell?, Heap.size]
  · simp [Store.act, Heap.state?_alloc]

theorem Script.comes_alloc (E : Engine) (s : Store) (c : Cell) : ∃ r t,
    (alloc c : Script Ref).Comes E s (.ok r) t ∧ s.heap.Enlarges t.heap ∧
      t.heap.state? r = some c.state :=
  ⟨_, _, .act .done, (s.enlarges_alloc c).1, (s.enlarges_alloc c).2.2⟩

theorem Script.comes_allocValue (E : Engine) (s : Store) (v : Value) : ∃ r t,
    (allocValue v : Script Ref).Comes E s (.ok r) t ∧ s.heap.Enlarges t.heap ∧
      t.heap.state? r = some (.forced v) :=
  Script.comes_alloc E s (.ofValue v)

theorem Heap.Whole.mono {g g' : Heap} {rs : List Ref} (whole : g.Whole l rs)
    (extends' : g.Extends g') : g'.Whole l rs := by
  induction whole with
  | nil => exact .nil
  | cons known _ ih => exact .cons (extends' _ _ known) ih

theorem Heap.Whole.before {g h : Heap} {rs : List Ref} (whole : g.Whole l rs)
    (before : g.Before h) : h.Whole l rs := by
  induction whole with
  | nil => exact .nil
  | cons known _ ih => exact .cons (before.forced known) ih

theorem Script.comes_ofRefs (E : Engine) (s : Store) (rs : List Ref) : ∃ l t,
    (LazyList.ofRefs rs : Script LazyList).Comes E s (.ok l) t ∧ s.heap.Enlarges t.heap ∧
      t.heap.Whole l rs := by
  -- The last element is put in place first.
  have pushes : ∀ (rs js : List Ref) (l : LazyList) (s : Store), s.heap.Whole l js →
      ∃ l' t, (rs.foldlM LazyList.push l : Script LazyList).Comes E s (.ok l') t ∧
        s.heap.Enlarges t.heap ∧ t.heap.Whole l' (rs.reverse ++ js) := by
    intro rs
    induction rs with
    | nil => exact fun js l s whole => ⟨l, s, .done, s.heap.enlarges_refl, whole⟩
    | cons r rs ih =>
      intro js l s whole
      obtain ⟨tail, t, comes, larger, known⟩ := Script.comes_allocValue E s (.list l)
      obtain ⟨l', u, rest, larger', whole'⟩ :=
        ih (r :: js) (.cons r tail) t (.cons known (whole.mono larger.extends'))
      have pushed : (LazyList.push l r : Script LazyList).Comes E s (.ok (.cons r tail)) t :=
        comes.bind .done
      refine ⟨l', u, ?_, larger.trans larger', by simpa using whole'⟩
      rw [List.foldlM_cons]
      exact pushed.bind rest
  obtain ⟨l, t, comes, larger, whole⟩ := pushes rs.reverse [] .nil s .nil
  rw [List.reverse_reverse, List.append_nil] at whole
  exact ⟨l, t, comes, larger, whole⟩

/-- What is left of the positionals is put into cells, and nothing is forced. -/
theorem Arguments.comes_restPositionals (E : Engine) (s : Store) (a : Arguments) : ∃ rest t,
    a.restPositionals.Comes E s (.ok (rest, { a with positionals := [], spread := none })) t ∧
      s.heap.Enlarges t.heap ∧ t.heap.Supplied a.positionals a.spread rest := by
  obtain ⟨l, t, made, larger, whole⟩ := Script.comes_ofRefs E s a.positionals
  obtain ⟨explicit, u, put, larger', known⟩ := Script.comes_allocValue E t (.list l)
  have whole := whole.mono larger'.extends'
  unfold restPositionals
  cases spread : a.spread with
  | none =>
    exact ⟨explicit, u, made.bind (put.bind .done), larger.trans larger', .known known whole⟩
  | some list =>
    obtain ⟨f, v, callee, larger₁, function⟩ :=
      Script.comes_allocValue E u (.function Builtin.merge.function)
    obtain ⟨rest, w, call, larger₂, waits⟩ :=
      Script.comes_alloc E v (.ofCall f { positionals := [explicit, list] })
    have kept := larger₁.trans larger₂
    have merges : (allocMerge [explicit, list] : Script Ref).Comes E u (.ok rest) w :=
      callee.bind call
    refine ⟨rest, w, made.bind (put.bind (merges.bind .done)), ?_, ?_⟩
    · exact (larger.trans larger').trans kept
    · exact .merged waits (larger₂.extends' _ _ function) (kept.extends' _ _ known)
        (whole.mono kept.extends')

/-- A call of `merge` returns a list, whatever its sources need for the first cell of it. -/
theorem Engine.returns_of_merge {f : Ref} {others : List Ref} {spread : Option Ref}
    (waits : s.heap.state? m =
      some (.pending { task := .call f { positionals := first :: others, spread }, site }))
    (function : s.heap.Yields f (.function Builtin.merge.function)) : ∃ rest t,
    (s.start m).heap.Enlarges t.heap ∧ t.heap.Supplied others spread rest ∧
      ∀ l n found s₁ s₂, (force first).Comes E t (.ok (.list l)) s₁ →
        E.Fetches n l rest s₁ found s₂ → n < E.bound →
        E.Returns (.enter m) s ((Value.listed (s₂.leave found).1).through? site)
          ((s₂.leave found).2.publish m ((Value.listed (s₂.leave found).1).through? site)) := by
  have started : (s.start m).heap.Yields f (.function Builtin.merge.function) :=
    (Heap.before_setState waits (.start _)).yields function
  obtain ⟨rest, t, binds, larger, supplied⟩ :=
    Arguments.comes_restPositionals E (s.start m) { positionals := others, spread }
  refine ⟨rest, t, larger, supplied, fun l n found s₁ s₂ list fetches enough => ?_⟩
  have callee : (force f).Comes E (s.start m) (.ok (.function Builtin.merge.function)) (s.start m) :=
    .demand (Runner.returns_of_yields started) rfl .done
  have merges : (Builtin.mergeAll E.bound first rest).Comes E t
      ((s₂.leave found).1.map fun l => .value (.list l)) (s₂.leave found).2 :=
    list.bind (fetches.comes enough).answer_list
  have body : ((Task.call f { positionals := first :: others, spread }).script E.bound).Comes E
      (s.start m) ((s₂.leave found).1.map fun l => .value (.list l)) (s₂.leave found).2 := by
    refine callee.bind ?_
    simp only [Value.call, Builtin.function]
    rw [Signature.bind_merge, bind_assoc]
    exact binds.bind merges
  exact .start waits (body.returns_listed m site)

end

/-! ### Known sources -/

/-- What is found when joined lists show this. The lists that follow show what is left. -/
inductive Heap.Found (h : Heap) (room : Nat) : Extent Ref → Except Fault (LazyList × Ref) → Prop
  | failed {e : Fault} : Found h room (.failed e) (.error e)
  | nil {rest : Ref} : Found h room .nil (.ok (.nil, rest))
  | cons {head tail rest : Ref} {x : Extent Ref} {xs : Extent (Extent Ref)} {visited : List Ref}
      (shows : h.Shows tail x visited) (lists : h.ShowsLists rest xs) (fits : xs.length ≤ room) :
      Found h room (.cons head (x.append xs.join)) (.ok (.cons head tail, rest))

section
variable {E : Engine} {s : Store} {m first rest r : Ref} {l : LazyList} {room : Nat}
variable {x : Extent Ref} {xs : Extent (Extent Ref)} {visited : List Ref}
variable {o : Except Fault LazyList} {found : Except Fault (LazyList × Ref)}

/-- To force a list that has been forced changes nothing. -/
theorem Heap.Listed.comes (E : Engine) (list : s.heap.Listed r o) : (forceList r).Comes E s o s := by
  obtain ⟨v, replies, rfl⟩ := list
  obtain ⟨u, yields, reply⟩ := Heap.replies_pure_iff.1 replies
  have forced := Runner.returns_of_yields (E := E) yields
  cases v with
  | error e => exact Script.Comes.bind_error (.demand forced reply .raise)
  | list l => exact Script.Comes.bind (.demand forced reply .done) .done
  | _ => exact Script.Comes.bind (.demand forced reply .done) .raise

theorem Heap.Listed.comes_force (E : Engine) (list : s.heap.Listed r (.ok l)) :
    (force r).Comes E s (.ok (.list l)) s := by
  obtain ⟨v, replies, same⟩ := list
  obtain ⟨u, yields, reply⟩ := Heap.replies_pure_iff.1 replies
  have forced := Runner.returns_of_yields (E := E) yields
  cases v <;> cases same
  exact .demand forced reply .done

/-- Known lists are found where they are, and nothing changes. -/
theorem Heap.ShowsLists.fetches_next (E : Engine) (lists : s.heap.ShowsLists rest xs)
    (fits : xs.length ≤ room) (seen : xs.join ≠ .unknown) : ∃ n found, n ≤ xs.length ∧
      E.Fetches n .nil rest s found s ∧ s.heap.Found room xs.join found := by
  induction lists with
  | unknown => exact absurd rfl seen
  | nil lists => exact ⟨0, _, le_rfl, .ended (lists.comes E), .nil⟩
  | failed lists => exact ⟨0, _, le_rfl, .broken (lists.comes E), .failed⟩
  | cons lists known more ih =>
    simp only [Extent.length] at fits ⊢
    cases known with
    | unknown => exact absurd rfl seen
    | nil list =>
      obtain ⟨n, found, few, fetches, holds⟩ := ih (by omega) seen
      exact ⟨n + 1, found, by omega, .next (lists.comes E) (list.comes E) fetches, holds⟩
    | failed list => exact ⟨0, _, by omega, .misfit (lists.comes E) (list.comes E), .failed⟩
    | cons list shows =>
      exact ⟨1, _, by omega, .next (lists.comes E) (list.comes E) .cell, .cons shows more (by omega)⟩

theorem Heap.Shows.fetches (E : Engine) (shows : s.heap.Shows first x visited)
    (list : s.heap.Listed first (.ok l)) (lists : s.heap.ShowsLists rest xs)
    (fits : xs.length ≤ room) (seen : x.append xs.join ≠ .unknown) : ∃ n found, n ≤ xs.length ∧
      E.Fetches n l rest s found s ∧ s.heap.Found room (x.append xs.join) found := by
  cases shows with
  | unknown => exact absurd rfl seen
  | nil list' =>
    cases list.unique list'
    exact lists.fetches_next E fits seen
  | failed list' => cases list.unique list'
  | cons list' shows =>
    cases list.unique list'
    exact ⟨0, _, Nat.zero_le _, .cell, .cons shows lists fits⟩

/-- Cells may have been made, and at most this one of the others has changed. -/
structure Store.Keeps (s t : Store) (r : Ref) : Prop where
  before : s.heap.Before t.heap
  others : ∀ q state, q ≠ r → s.heap.state? q = some state → t.heap.state? q = some state

theorem Store.keeps_start {w : Work} (waits : s.heap.state? m = some (.pending w)) :
    s.Keeps (s.start m) m :=
  ⟨Heap.before_setState waits (.start w),
    fun _ _ other known => (Heap.state?_setState_ne other _).trans known⟩

theorem Store.keeps_publish (forcing : s.heap.state? m = some .forcing) (v : Value) :
    s.Keeps (s.publish m v) m :=
  ⟨Heap.before_publish forcing v,
    fun _ _ other known => (Heap.state?_setState_ne other _).trans known⟩

theorem Store.Keeps.trans {t u : Store} (first : s.Keeps t m) (rest : t.Keeps u m) :
    s.Keeps u m :=
  ⟨first.before.trans rest.before,
    fun q state other known => rest.others q state other (first.others q state other known)⟩

theorem Heap.Enlarges.keeps {t : Store} (larger : s.heap.Enlarges t.heap) (r : Ref) : s.Keeps t r :=
  ⟨larger.before, fun q state _ known => larger.extends' q state known⟩

/-- Joined lists whose first cell has been found are drawn this far, if it is so for those which are
    left behind that cell. -/
theorem Engine.draws_of_found {t : Store} {z : Extent Ref} {site : Option Location}
    (keeps : s.Keeps t m) (forcing : t.heap.state? m = some .forcing)
    (holds : t.heap.Found room z found)
    (returns : E.Returns (.enter m) s ((Value.listed (t.leave found).1).through? site)
      ((t.leave found).2.publish m ((Value.listed (t.leave found).1).through? site)))
    (behind : ∀ {made tail rest head : Ref} {x : Extent Ref} {xs : Extent (Extent Ref)}
      {visited : List Ref} {u : Store}, z = .cons head (x.append xs.join) → xs.length ≤ room →
      u.heap.state? made = some (.pending { task := .resume (.concat tail rest) }) →
      u.heap.Shows tail x visited → u.heap.ShowsLists rest xs →
      ∃ w, E.Draws made (x.append xs.join) u w ∧ u.Keeps w made) :
    ∃ u, E.Draws m (z.through? site) s u ∧ s.Keeps u m := by
  cases holds with
  | @failed e =>
    refine ⟨_, .failed (Engine.Returns.comes_forceList (o := .error (e.through? site)) returns), ?_⟩
    exact keeps.trans (Store.keeps_publish forcing _)
  | nil =>
    refine ⟨_, .nil (Engine.Returns.comes_forceList (o := .ok .nil) returns), ?_⟩
    exact keeps.trans (Store.keeps_publish forcing _)
  | @cons head tail rest x xs visited shows lists fits =>
    obtain ⟨larger, fresh, waits⟩ := t.enlarges_alloc (.ofSuspension (.concat tail rest))
    have published := Store.keeps_publish (larger.extends' _ _ forcing)
      (.list (.cons head (t.act (.alloc (.ofSuspension (.concat tail rest)))).1))
    have later := larger.before.trans published.before
    have old {q : Ref} {state : CellState} (known : t.heap.state? q = some state) :
        q ≠ (t.act (.alloc (.ofSuspension (.concat tail rest)))).1 := by
      rintro rfl
      rw [fresh] at known
      cases known
    obtain ⟨w, draws, keeps'⟩ := behind rfl fits (published.others _ _ (old forcing).symm waits)
      (shows.mono later) (lists.mono later)
    refine ⟨w, .cons (Engine.Returns.comes_forceList (o := .ok (.cons head _)) returns) draws,
      keeps.before.trans (later.trans keeps'.before), fun q state ne known => ?_⟩
    have still := keeps.others q state ne known
    exact keeps'.others q state (old still)
      (published.others q state ne (larger.extends' q state still))

theorem Engine.draws_of_concat
    (waits : s.heap.state? m = some (.pending { task := .resume (.concat first rest) }))
    (shows : s.heap.Shows first x visited) (lists : s.heap.ShowsLists rest xs)
    (fits : xs.length < E.bound) (seen : x.append xs.join ≠ .unknown)
    (behind : ∀ {made tail rest' head : Ref} {y : Extent Ref} {ys : Extent (Extent Ref)}
      {visited : List Ref} {u : Store}, x.append xs.join = .cons head (y.append ys.join) →
      ys.length ≤ xs.length →
      u.heap.state? made = some (.pending { task := .resume (.concat tail rest') }) →
      u.heap.Shows tail y visited → u.heap.ShowsLists rest' ys →
      ∃ w, E.Draws made (y.append ys.join) u w ∧ u.Keeps w made) :
    ∃ t, E.Draws m (x.append xs.join) s t ∧ s.Keeps t m := by
  have started := Store.keeps_start waits
  have forcing : (s.start m).heap.state? m = some .forcing := Heap.state?_setState_self waits _
  have shows := shows.mono started.before
  have lists := lists.mono started.before
  have fetched {l : LazyList} (list : (s.start m).heap.Listed first (.ok l)) :
      ∃ t, E.Draws m (x.append xs.join) s t ∧ s.Keeps t m := by
    obtain ⟨n, found, few, fetches, holds⟩ := shows.fetches E list lists le_rfl seen
    have returns := Engine.returns_of_concat waits (list.comes E) fetches (by omega)
    rw [← Value.through?_none (.listed _)] at returns
    have drawn := Engine.draws_of_found started forcing holds returns behind
    cases z : x.append xs.join <;> rw [z] at drawn <;> exact drawn
  cases shows with
  | unknown => exact absurd rfl seen
  | failed list =>
    have returns := Engine.returns_of_concat_error waits (list.comes E)
    exact ⟨_, .failed (Engine.Returns.comes_forceList (o := .error _) returns),
      started.trans (Store.keeps_publish forcing _)⟩
  | nil list | cons list => exact fetched list

/-- Joined lists of which this is known are drawn this far. No cell changes but the one drawn. -/
theorem Engine.draws_of_shows {z : Extent Ref}
    (waits : s.heap.state? m = some (.pending { task := .resume (.concat first rest) }))
    (shows : s.heap.Shows first x visited) (lists : s.heap.ShowsLists rest xs)
    (fits : xs.length < E.bound) (same : x.append xs.join = z) :
    ∃ t, E.Draws m z s t ∧ s.Keeps t m := by
  induction z generalizing m first rest x xs s visited with
  | unknown => exact ⟨s, .unknown, s.heap.before_refl, fun _ _ _ known => known⟩
  | nil | failed =>
    rw [← same]
    refine Engine.draws_of_concat waits shows lists fits (by simp [same]) fun no => ?_
    simp [same] at no
  | cons i z ih =>
    rw [← same]
    refine Engine.draws_of_concat waits shows lists fits (by simp [same]) ?_
    intro made tail rest' head y ys visited u found fewer waits shows lists
    rw [same] at found
    cases found
    exact ih waits shows lists (by omega) rfl

/-- Explicit lists of which this is known are drawn this far from a call of `merge`. -/
theorem Engine.draws_of_merge {f : Ref} {others : List Ref} {xs : List (Extent Ref)}
    {site : Option Location}
    (waits : s.heap.state? m =
      some (.pending { task := .call f { positionals := first :: others }, site }))
    (function : s.heap.Yields f (.function Builtin.merge.function))
    (list : s.heap.Listed first (.ok l))
    (shows : s.heap.ShowsEach (first :: others) xs) (fits : others.length < E.bound) :
    ∃ t, E.Draws m ((Extent.ofList xs).join.through? site) s t ∧ s.Keeps t m := by
  obtain ⟨rest, t, larger, supplied, returns⟩ := Engine.returns_of_merge (E := E) waits function
  have started := Store.keeps_start waits
  have forcing : (s.start m).heap.state? m = some .forcing := Heap.state?_setState_self waits _
  have keeps := started.trans (larger.keeps m)
  cases shows with
  | @cons _ x _ ys shows others' =>
    obtain ⟨_, shows⟩ := shows
    have count : (Extent.ofList ys).length < E.bound := by
      rw [Extent.length_ofList, ← others'.length_eq]
      exact fits
    have shows := shows.mono keeps.before
    have list := list.mono keeps.before
    have lists : t.heap.ShowsLists rest (.ofList ys) := by
      cases supplied with
      | known known whole =>
        have replies := Heap.replies_of_forced t.heap.before_refl known nofun
        refine whole.showsLists t.heap.before_refl ⟨_, replies, rfl⟩ (others'.imp ?_)
        exact fun _ _ known => known.imp fun _ shows => shows.mono keeps.before
    change ∃ u, E.Draws m ((x.append (Extent.ofList ys).join).through? site) s u ∧ s.Keeps u m
    by_cases seen : x.append (Extent.ofList ys).join = .unknown
    · rw [seen]
      exact ⟨s, .unknown, s.heap.before_refl, fun _ _ _ known => known⟩
    · obtain ⟨n, found, few, fetches, holds⟩ := shows.fetches E list lists le_rfl seen
      have returned := returns l n found t t (list.comes_force E) fetches (by omega)
      refine Engine.draws_of_found keeps (larger.extends' _ _ forcing) holds returned ?_
      intro made tail rest head y ys visited u _ fewer waits shows lists
      exact Engine.draws_of_shows waits shows lists (by omega) rfl

/-! ### What has been drawn -/

theorem Script.Reads.follows {α : Type} {h : Heap} {body : Script α} {o : Except Fault α}
    (reads : body.Reads h o) (g : Heap) : ∃ log, body.Follows g h log o := by
  induction reads with
  | done => exact ⟨_, .done⟩
  | raise => exact ⟨_, .raise⟩
  | demand replies _ ih =>
    obtain ⟨log, follows⟩ := ih
    exact ⟨_, .demand replies follows⟩

/-- What a list has been forced to is what it is from then on. -/
theorem Script.Leaves.before_forceList {t : Store} {w w' : World}
    (leaves : (forceList r).Leaves E s w o t w') : s.heap.Before t.heap ∧ t.heap.Listed r o := by
  obtain ⟨before, reads⟩ := (Script.isReader_forceList r).reads_of_leaves leaves
  obtain ⟨log, follows⟩ := reads.follows t.heap
  obtain ⟨v, replies, _, same⟩ := Script.of_follows_forceList follows
  exact ⟨before, v, replies, same.symm⟩

theorem Heap.listed_of_comes {t : Store} (comes : (forceList r).Comes E s o t) :
    s.heap.Before t.heap ∧ t.heap.Listed r o := by
  have leaves : (forceList r).Leaves E s {} o t {} := comes.leaves
  exact leaves.before_forceList

/-- What has been drawn is known from then on. -/
theorem Engine.Draws.shows {z : Extent Ref} {t : Store} (draws : E.Draws m z s t) :
    s.heap.Before t.heap ∧ ∃ visited, t.heap.Shows m z visited := by
  induction draws with
  | unknown => exact ⟨Heap.before_refl _, _, .unknown⟩
  | nil list =>
    obtain ⟨before, listed⟩ := Heap.listed_of_comes list
    exact ⟨before, _, .nil listed⟩
  | failed list =>
    obtain ⟨before, listed⟩ := Heap.listed_of_comes list
    exact ⟨before, _, .failed listed⟩
  | cons list _ ih =>
    obtain ⟨before, listed⟩ := Heap.listed_of_comes list
    obtain ⟨later, _, shows⟩ := ih
    exact ⟨before.trans later, _, .cons (listed.mono later) shows⟩

end
end CallByNeed
