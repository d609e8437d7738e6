import CallByNeed.Proofs.Concatenation.Cells
import CallByNeed.Proofs.Concatenation.Drawing

/- Merging lists is lazy concatenation. In any run, what has come of a merged list is what is seen of
   the lists one behind the other, faults included, and its cells have demanded the cells of the lists
   up to there and nothing else. Cells of it return whenever those cells do. -/
namespace CallByNeed
open Relation (ReflTransGen)

/-- The cell was made as a call of `merge` with these arguments. -/
def Heap.IsMerge (g h : Heap) (m : Ref) (cells : List Ref) : Prop :=
  ∃ f site, g.state? m = some (.pending { task := .call f { positionals := cells }, site }) ∧
    h.Yields f (.function Builtin.merge.function)

/-- Whatever value the cell has is a list. -/
def Heap.IsList (h : Heap) (r : Ref) : Prop := ∀ u, h.Replies .pure r u → ∃ l, u = .list l

/-- What has come of a cell behind an element of joined lists. -/
structure Heap.Concatenates (bound : Nat) (g h : Heap) (m first rest : Ref) : Prop where
  /-- All that is known of it has been drawn from it. -/
  draws : ∀ z visited, h.Shows m z visited → ∃ log, Heap.Draws bound g h m z log
  /-- What has been drawn is what was visited, and nothing else has been demanded. -/
  visits : ∀ z log, Heap.Draws bound g h m z log →
    ∃ x xs, h.Visits first rest x xs (log.map Prod.fst) ∧ z = x.append xs.join
  /-- It agrees with all that is known of the lists. -/
  agrees : ∀ z x xs visited visited', h.Shows m z visited → h.Shows first x visited' →
    h.ShowsLists rest xs → z.Agrees (x.append xs.join)

/-- What has come of a call of `merge`. A spread list may follow the explicit ones. -/
structure Heap.Merges (bound : Nat) (g h : Heap) (m f first : Ref) (others : List Ref)
    (spread : Option Ref) (site : Option Location) : Prop where
  draws : ∀ z visited, h.Shows m z visited → ∃ log, Heap.Draws bound g h m z log
  /-- The call itself has demanded its callee first. A fault in place of the list has passed the
      call. -/
  visits : ∀ z log, Heap.Draws bound g h m z log → z ≠ .unknown → ∃ rest log' x xs,
    g.Supplied others spread rest ∧ log = (f, .function Builtin.merge.function) :: log' ∧
      h.Visits first rest x xs (log'.map Prod.fst) ∧ z = (x.append xs.join).through? site
  /-- It is one list after the other. -/
  parts : spread = none → ∀ z visited, h.Shows m z visited →
    ∃ xs, h.ShowsEach (first :: others) xs ∧ z = (Extent.ofList xs).join.through? site
  agrees : spread = none → ∀ z xs visited, h.Shows m z visited →
    h.ShowsEach (first :: others) xs → z.Agrees ((Extent.ofList xs).join.through? site)

/-- Merged lists in a run. The first heap has the cells as they were made. -/
structure Heap.MergesLazily (bound : Nat) (g h : Heap) : Prop where
  cells : ∀ m first rest,
    g.state? m = some (.pending { task := .resume (.concat first rest) }) →
      Heap.Concatenates bound g h m first rest
  calls : ∀ m f first others spread site,
    g.state? m =
      some (.pending { task := .call f { positionals := first :: others, spread }, site }) →
    h.Yields f (.function Builtin.merge.function) →
    (∀ u, h.Replies .pure first u → ∃ o, u = .listed o) →
      Heap.Merges bound g h m f first others spread site
  /-- It does not matter how three lists are merged. -/
  regroups : ∀ a b c ab bc m₁ m₂ m₃ z₁ z₂ z₃ visited₁ visited₂ visited₃,
    h.IsList a → h.IsList b → h.IsList c → g.IsMerge h ab [a, b] → g.IsMerge h bc [b, c] →
    g.IsMerge h m₁ [ab, c] → g.IsMerge h m₂ [a, bc] → g.IsMerge h m₃ [a, b, c] →
    h.Shows m₁ z₁ visited₁ → h.Shows m₂ z₂ visited₂ → h.Shows m₃ z₃ visited₃ →
      ∃ x y w, h.ShowsEach [a, b, c] [x, y, w] ∧ z₁.Within (x.append (y.append w)) ∧
        z₂.Within (x.append (y.append w)) ∧ z₃.Within (x.append (y.append w))

/-- Cells of merged lists return, in any store. -/
structure Engine.MergesLazily (E : Engine) : Prop where
  /-- A cell needs no more than the forcing of the first list, and of the lists behind it while those
      before have ended. -/
  returns : ∀ (s : Store) m first rest n l found s₁ s₂,
    s.heap.state? m = some (.pending { task := .resume (.concat first rest) }) →
    (forceList first).Comes E (s.start m) (.ok l) s₁ → E.Fetches n l rest s₁ found s₂ →
    n < E.bound → E.Returns (.enter m) s (.listed (s₂.leave found).1)
      ((s₂.leave found).2.publish m (.listed (s₂.leave found).1))
  fails : ∀ (s : Store) m first rest e s₁,
    s.heap.state? m = some (.pending { task := .resume (.concat first rest) }) →
    (forceList first).Comes E (s.start m) (.error e) s₁ →
      E.Returns (.enter m) s (.error e) (s₁.publish m (.error e))
  calls : ∀ (s : Store) m f first others spread site,
    s.heap.state? m =
      some (.pending { task := .call f { positionals := first :: others, spread }, site }) →
    s.heap.Yields f (.function Builtin.merge.function) → ∃ rest t,
      (s.start m).heap.Enlarges t.heap ∧ t.heap.Supplied others spread rest ∧
      ∀ l n found s₁ s₂, (force first).Comes E t (.ok (.list l)) s₁ →
        E.Fetches n l rest s₁ found s₂ → n < E.bound →
        E.Returns (.enter m) s ((Value.listed (s₂.leave found).1).through? site)
          ((s₂.leave found).2.publish m ((Value.listed (s₂.leave found).1).through? site))
  /-- All that is known of the lists can be drawn, and no other cell changes. -/
  draws : ∀ (s : Store) m first rest x xs visited,
    s.heap.state? m = some (.pending { task := .resume (.concat first rest) }) →
    s.heap.Shows first x visited → s.heap.ShowsLists rest xs → xs.length < E.bound →
      ∃ t, E.Draws m (x.append xs.join) s t ∧ s.Keeps t m
  drawsCalls : ∀ (s : Store) m f first others site l xs,
    s.heap.state? m =
      some (.pending { task := .call f { positionals := first :: others }, site }) →
    s.heap.Yields f (.function Builtin.merge.function) → s.heap.Listed first (.ok l) →
    s.heap.ShowsEach (first :: others) xs → others.length < E.bound →
      ∃ t, E.Draws m ((Extent.ofList xs).join.through? site) s t ∧ s.Keeps t m
  /-- However three lists are merged, all that is known of them can be drawn. -/
  regroups : ∀ (s : Store) a b c ab bc m₁ m₂ m₃ x y w, m₁ ≠ ab → m₂ ≠ bc →
    s.heap.IsList a → s.heap.IsList b → s.heap.IsList c →
    s.heap.IsMerge s.heap ab [a, b] → s.heap.IsMerge s.heap bc [b, c] →
    s.heap.IsMerge s.heap m₁ [ab, c] → s.heap.IsMerge s.heap m₂ [a, bc] →
    s.heap.IsMerge s.heap m₃ [a, b, c] → s.heap.ShowsEach [a, b, c] [x, y, w] → 2 < E.bound →
      (∃ s' t, E.Draws ab (x.append y) s s' ∧ E.Draws m₁ (x.append (y.append w)) s' t) ∧
        (∃ s' t, E.Draws bc (y.append w) s s' ∧ E.Draws m₂ (x.append (y.append w)) s' t) ∧
        ∃ t, E.Draws m₃ (x.append (y.append w)) s t

section
variable {bound : Nat} {g h : Heap} {m f first rest : Ref} {others : List Ref}
variable {spread : Option Ref} {site : Option Location}

theorem Heap.Recounts.concatenates (kept : g.Recounts bound h)
    (waits : g.state? m = some (.pending { task := .resume (.concat first rest) })) :
    Heap.Concatenates bound g h m first rest := by
  have draws {z : Extent Ref} {visited : List Ref} (shows : h.Shows m z visited) :
      ∃ log, Heap.Draws bound g h m z log :=
    kept.draws_of_shows waits (fun _ _ makes => makes.of_concat.listed)
      (fun _ _ _ makes => makes.of_concat.waits) shows
  refine ⟨fun z visited => draws, fun z log drawn => drawn.of_concat waits, ?_⟩
  intro z x xs visited visited' shows list lists
  obtain ⟨log, drawn⟩ := draws shows
  obtain ⟨y, ys, visits, rfl⟩ := drawn.of_concat waits
  obtain ⟨_, seen⟩ := visits.shows
  exact Extent.Agrees.append (seen.agrees list) (visits.lists.agrees lists)

/-- What is known of some lists agrees, and so does what is known of their concatenation. -/
theorem Heap.ShowsEach.agrees {xs ys : List (Extent Ref)} (each : h.ShowsEach others xs)
    (each' : h.ShowsEach others ys) : (Extent.ofList xs).join.Agrees (Extent.ofList ys).join := by
  induction each generalizing ys with
  | nil =>
    cases each'
    exact .inl .nil
  | cons shows _ ih =>
    cases each' with
    | cons shows' each' =>
      obtain ⟨_, shows⟩ := shows
      obtain ⟨_, shows'⟩ := shows'
      exact Extent.Agrees.append (shows.agrees shows') (ih each')

theorem Heap.Recounts.merges (kept : g.Recounts bound h)
    (waits : g.state? m =
      some (.pending { task := .call f { positionals := first :: others, spread }, site }))
    (function : h.Yields f (.function Builtin.merge.function))
    (lists : ∀ u, h.Replies .pure first u → ∃ o, u = .listed o) :
    Heap.Merges bound g h m f first others spread site := by
  have draws {z : Extent Ref} {visited : List Ref} (shows : h.Shows m z visited) :
      ∃ log, Heap.Draws bound g h m z log := by
    refine kept.draws_of_shows waits (fun log v makes => ?_) (fun log head tail makes => ?_) shows
    · obtain ⟨_, _, o, _, _, rfl, _⟩ := makes.of_merge function lists
      cases o with
      | ok l => exact ⟨.ok l, rfl⟩
      | error e => exact ⟨.error _, rfl⟩
    · obtain ⟨_, _, o, _, joins, same, _⟩ := makes.of_merge function lists
      cases o <;> cases same
      exact joins.waits
  have parts (none : spread = none) {z : Extent Ref} {visited : List Ref}
      (shows : h.Shows m z visited) :
      ∃ xs, h.ShowsEach (first :: others) xs ∧ z = (Extent.ofList xs).join.through? site := by
    obtain ⟨log, drawn⟩ := draws shows
    by_cases seen : z = .unknown
    · subst seen
      exact ⟨_, h.showsEach_unknown (first :: others), rfl⟩
    · obtain ⟨rest, log', x, xs, supplied, _, visits, rfl⟩ :=
        drawn.of_merge waits function lists seen
      subst none
      cases supplied with
      | known known whole =>
        have before := kept.origin.before
        have replies := Heap.replies_of_forced before known nofun
        obtain ⟨ys, each, same⟩ := visits.parts before ⟨_, replies, rfl⟩ whole
        exact ⟨x :: ys, .cons visits.shows each, congrArg _ same⟩
  refine ⟨fun z visited => draws, fun z log drawn => drawn.of_merge waits function lists,
    fun none z visited => parts none, fun none z xs visited shows each => ?_⟩
  obtain ⟨ys, each', rfl⟩ := parts none shows
  exact (each'.agrees each).through site

/-! ### Three lists -/

theorem Heap.IsList.ne_failed {r : Ref} {x : Extent Ref} {visited : List Ref} (list : h.IsList r)
    (shows : h.Shows r x visited) (e : Fault) : x ≠ .failed e := by
  rintro rfl
  cases shows with
  | failed fault =>
    obtain ⟨u, replies, faulty⟩ := fault
    obtain ⟨l, rfl⟩ := list u replies
    cases faulty

theorem Heap.ShowsEach.ne_failed {xs : List (Extent Ref)} (each : h.ShowsEach others xs)
    (lists : ∀ r ∈ others, h.IsList r) : ∀ x ∈ xs, ∀ e, x ≠ .failed e := by
  induction each with
  | nil => nofun
  | @cons r x rs xs shows each ih =>
    obtain ⟨_, shows⟩ := shows
    have rest := ih fun q member => lists q (List.mem_cons_of_mem r member)
    exact List.forall_mem_cons.2 ⟨(lists r List.mem_cons_self).ne_failed shows, rest⟩

/-- Lists are merged to a list, and no fault of theirs has passed the call. -/
theorem Heap.Recounts.merges_lists (kept : g.Recounts bound h)
    (merge : g.IsMerge h m (first :: others)) (lists : ∀ r ∈ first :: others, h.IsList r) :
    h.IsList m ∧ ∀ z visited, h.Shows m z visited →
      ∃ xs, h.ShowsEach (first :: others) xs ∧ z = (Extent.ofList xs).join := by
  obtain ⟨f, site, waits, function⟩ := merge
  have merges := kept.merges waits function fun u replies => by
    obtain ⟨l, rfl⟩ := lists first List.mem_cons_self u replies
    exact ⟨.ok l, rfl⟩
  have parts (z : Extent Ref) (visited : List Ref) (shows : h.Shows m z visited) :
      ∃ xs, h.ShowsEach (first :: others) xs ∧ z = (Extent.ofList xs).join := by
    obtain ⟨xs, each, rfl⟩ := merges.parts rfl z visited shows
    exact ⟨xs, each, Extent.through?_eq_self (Extent.join_ne_failed (each.ne_failed lists)) site⟩
  refine ⟨fun u replies => ?_, parts⟩
  cases fault : u.asList with
  | ok l =>
    cases u <;> cases fault
    exact ⟨l, rfl⟩
  | error e =>
    obtain ⟨xs, each, same⟩ := parts _ _ (.failed ⟨u, replies, fault⟩)
    exact absurd same.symm (Extent.join_ne_failed (each.ne_failed lists) e)

/-- What is known of a list several times is known of it at once. -/
theorem Heap.exists_shows {r : Ref} {x y z : Extent Ref} (first : ∃ visited, h.Shows r x visited)
    (second : ∃ visited, h.Shows r y visited) (third : ∃ visited, h.Shows r z visited) :
    ∃ w, (∃ visited, h.Shows r w visited) ∧ x.Within w ∧ y.Within w ∧ z.Within w := by
  have directed : ∀ {x y : Extent Ref}, (∃ visited, h.Shows r x visited) →
      (∃ visited, h.Shows r y visited) →
      ∃ w, (∃ visited, h.Shows r w visited) ∧ x.Within w ∧ y.Within w := by
    rintro x y ⟨_, shows⟩ ⟨_, shows'⟩
    rcases shows.agrees shows' with less | more
    · exact ⟨y, ⟨_, shows'⟩, less, .refl y⟩
    · exact ⟨x, ⟨_, shows⟩, .refl x, more⟩
  obtain ⟨v, shows, one, two⟩ := directed first second
  obtain ⟨w, shows', both, three⟩ := directed shows third
  exact ⟨w, shows', one.trans both, two.trans both, three⟩

theorem Heap.Recounts.merges_pair {a b : Ref} (kept : g.Recounts bound h)
    (merge : g.IsMerge h m [a, b]) (first : h.IsList a) (second : h.IsList b) :
    h.IsList m ∧ ∀ z visited, h.Shows m z visited →
      ∃ x y, (∃ visited, h.Shows a x visited) ∧ (∃ visited, h.Shows b y visited) ∧
        z = x.append y := by
  obtain ⟨list, parts⟩ := kept.merges_lists merge (by simpa using ⟨first, second⟩)
  refine ⟨list, fun z visited shows => ?_⟩
  obtain ⟨xs, each, rfl⟩ := parts z visited shows
  obtain _ | ⟨known, _ | ⟨known', _ | _⟩⟩ := each
  exact ⟨_, _, known, known', by simp [Extent.ofList, Extent.join, Extent.append_nil]⟩

theorem Heap.Recounts.regroups {a b c ab bc m₁ m₂ m₃ : Ref} {z₁ z₂ z₃ : Extent Ref}
    {visited₁ visited₂ visited₃ : List Ref} (kept : g.Recounts bound h) (la : h.IsList a)
    (lb : h.IsList b) (lc : h.IsList c) (left : g.IsMerge h ab [a, b])
    (right : g.IsMerge h bc [b, c]) (merge₁ : g.IsMerge h m₁ [ab, c])
    (merge₂ : g.IsMerge h m₂ [a, bc]) (merge₃ : g.IsMerge h m₃ [a, b, c])
    (shows₁ : h.Shows m₁ z₁ visited₁) (shows₂ : h.Shows m₂ z₂ visited₂)
    (shows₃ : h.Shows m₃ z₃ visited₃) :
    ∃ x y w, h.ShowsEach [a, b, c] [x, y, w] ∧ z₁.Within (x.append (y.append w)) ∧
      z₂.Within (x.append (y.append w)) ∧ z₃.Within (x.append (y.append w)) := by
  obtain ⟨listab, partsab⟩ := kept.merges_pair left la lb
  obtain ⟨listbc, partsbc⟩ := kept.merges_pair right lb lc
  obtain ⟨_, w₁, ⟨_, inner⟩, c₁, rfl⟩ := (kept.merges_pair merge₁ listab lc).2 _ _ shows₁
  obtain ⟨x₁, y₁, a₁, b₁, rfl⟩ := partsab _ _ inner
  obtain ⟨x₂, _, a₂, ⟨_, inner⟩, rfl⟩ := (kept.merges_pair merge₂ la listbc).2 _ _ shows₂
  obtain ⟨y₂, w₂, b₂, c₂, rfl⟩ := partsbc _ _ inner
  obtain ⟨xs, each, rfl⟩ :=
    (kept.merges_lists merge₃ (by simpa using ⟨la, lb, lc⟩)).2 _ _ shows₃
  obtain _ | ⟨a₃, _ | ⟨b₃, _ | ⟨c₃, _ | _⟩⟩⟩ := each
  obtain ⟨x, showsa, lessx₁, lessx₂, lessx₃⟩ := Heap.exists_shows a₁ a₂ a₃
  obtain ⟨y, showsb, lessy₁, lessy₂, lessy₃⟩ := Heap.exists_shows b₁ b₂ b₃
  obtain ⟨w, showsc, lessw₁, lessw₂, lessw₃⟩ := Heap.exists_shows c₁ c₂ c₃
  refine ⟨x, y, w, .cons showsa (.cons showsb (.cons showsc .nil)), ?_, ?_, ?_⟩
  · rw [Extent.append_assoc]
    exact lessx₁.append (lessy₁.append lessw₁)
  · exact lessx₂.append (lessy₂.append lessw₂)
  · simp only [Extent.ofList, Extent.join, Extent.append_nil]
    exact lessx₃.append (lessy₃.append lessw₃)

section
variable {E : Engine} {s t : Store} {xs : List (Extent Ref)} {cells : List Ref} {q : Ref}

/-- A call that is not the cell that changes is still to be made. -/
theorem Heap.IsMerge.keeps (merge : s.heap.IsMerge s.heap q cells) (keeps : s.Keeps t m)
    (other : q ≠ m) : t.heap.IsMerge t.heap q cells := by
  obtain ⟨f, site, waits, function⟩ := merge
  exact ⟨f, site, keeps.others q _ other waits, keeps.before.yields function⟩

theorem Engine.draws_of_lists (merge : s.heap.IsMerge s.heap m (first :: others))
    (each : s.heap.ShowsEach (first :: others) xs) (sound : ∀ x ∈ xs, ∀ e, x ≠ .failed e)
    (fits : others.length < E.bound) : ∃ t, E.Draws m (Extent.ofList xs).join s t ∧ s.Keeps t m := by
  obtain ⟨f, site, waits, function⟩ := merge
  have draws {l : LazyList} (list : s.heap.Listed first (.ok l)) :
      ∃ t, E.Draws m (Extent.ofList xs).join s t ∧ s.Keeps t m := by
    have drawn := Engine.draws_of_merge waits function list each fits
    rwa [Extent.through?_eq_self (Extent.join_ne_failed sound)] at drawn
  obtain _ | @⟨_, x, _, xs, ⟨_, shows⟩, _⟩ := each
  cases shows with
  | unknown => exact ⟨s, .unknown, s.heap.before_refl, fun _ _ _ known => known⟩
  | failed => exact absurd rfl (sound _ List.mem_cons_self _)
  | nil list | cons list => exact draws list

theorem Engine.draws_pair {a b : Ref} {x y : Extent Ref} (merge : s.heap.IsMerge s.heap m [a, b])
    (first : ∃ visited, s.heap.Shows a x visited) (second : ∃ visited, s.heap.Shows b y visited)
    (sound : ∀ z ∈ [x, y], ∀ e, z ≠ .failed e) (fits : 1 < E.bound) :
    ∃ t, E.Draws m (x.append y) s t ∧ s.Keeps t m ∧
      ∃ visited, t.heap.Shows m (x.append y) visited := by
  obtain ⟨t, draws, keeps⟩ :=
    Engine.draws_of_lists merge (.cons first (.cons second .nil)) sound fits
  simp only [Extent.ofList, Extent.join, Extent.append_nil] at draws
  exact ⟨t, draws, keeps, draws.shows.2⟩

theorem Engine.draws_regrouped {a b c ab bc m₁ m₂ m₃ : Ref} {x y w : Extent Ref} (apart₁ : m₁ ≠ ab)
    (apart₂ : m₂ ≠ bc) (lists : ∀ r ∈ [a, b, c], s.heap.IsList r)
    (left : s.heap.IsMerge s.heap ab [a, b]) (right : s.heap.IsMerge s.heap bc [b, c])
    (merge₁ : s.heap.IsMerge s.heap m₁ [ab, c]) (merge₂ : s.heap.IsMerge s.heap m₂ [a, bc])
    (merge₃ : s.heap.IsMerge s.heap m₃ [a, b, c]) (each : s.heap.ShowsEach [a, b, c] [x, y, w])
    (fits : 2 < E.bound) :
    (∃ s' t, E.Draws ab (x.append y) s s' ∧ E.Draws m₁ (x.append (y.append w)) s' t) ∧
      (∃ s' t, E.Draws bc (y.append w) s s' ∧ E.Draws m₂ (x.append (y.append w)) s' t) ∧
      ∃ t, E.Draws m₃ (x.append (y.append w)) s t := by
  have room : 1 < E.bound := by omega
  have sound := each.ne_failed lists
  have pair {u v : Extent Ref} (first : u ∈ [x, y, w]) (second : v ∈ [x, y, w]) :
      ∀ z ∈ [u, v], ∀ e, z ≠ .failed e := by
    simpa using ⟨sound u first, sound v second⟩
  have inner {u v : Extent Ref} (first : u ∈ [x, y, w]) (second : v ∈ [x, y, w]) (e : Fault) :
      u.append v ≠ .failed e := by
    have joined := Extent.join_ne_failed (pair first second) e
    simpa [Extent.ofList, Extent.join, Extent.append_nil] using joined
  obtain ⟨t, flat, _⟩ := Engine.draws_of_lists merge₃ each sound fits
  simp only [Extent.ofList, Extent.join, Extent.append_nil] at flat
  obtain _ | ⟨showsa, _ | ⟨showsb, _ | ⟨showsc, _⟩⟩⟩ := each
  have later {r : Ref} {z : Extent Ref} {s' : Store} (before : s.heap.Before s'.heap)
      (shows : ∃ visited, s.heap.Shows r z visited) : ∃ visited, s'.heap.Shows r z visited :=
    shows.imp fun _ known => known.mono before
  refine ⟨?_, ?_, t, flat⟩
  · obtain ⟨s', draws, keeps, shows⟩ :=
      Engine.draws_pair left showsa showsb (pair (by simp) (by simp)) room
    obtain ⟨t, drawn, _⟩ := Engine.draws_pair (merge₁.keeps keeps apart₁) shows
      (later keeps.before showsc) (by simpa using ⟨inner (by simp) (by simp), sound w (by simp)⟩) room
    rw [Extent.append_assoc] at drawn
    exact ⟨s', t, draws, drawn⟩
  · obtain ⟨s', draws, keeps, shows⟩ :=
      Engine.draws_pair right showsb showsc (pair (by simp) (by simp)) room
    obtain ⟨t, drawn, _⟩ := Engine.draws_pair (merge₂.keeps keeps apart₂)
      (later keeps.before showsa) shows (by simpa using ⟨sound x (by simp), inner (by simp) (by simp)⟩)
      room
    exact ⟨s', t, draws, drawn⟩

end

theorem Heap.Recounts.merges_lazily (kept : g.Recounts bound h) : Heap.MergesLazily bound g h where
  cells _ _ _ := kept.concatenates
  calls _ _ _ _ _ _ := kept.merges
  regroups _ _ _ _ _ _ _ _ _ _ _ _ _ _ := kept.regroups

theorem Engine.merges_lazily (E : Engine) : E.MergesLazily where
  returns _ _ _ _ _ _ _ _ _ := Engine.returns_of_concat
  fails _ _ _ _ _ _ := Engine.returns_of_concat_error
  calls _ _ _ _ _ _ _ := Engine.returns_of_merge
  draws _ _ _ _ _ _ _ waits shows lists fits := Engine.draws_of_shows waits shows lists fits rfl
  drawsCalls _ _ _ _ _ _ _ _ := Engine.draws_of_merge
  regroups _ _ _ _ _ _ _ _ _ _ _ _ apart₁ apart₂ la lb lc :=
    Engine.draws_regrouped apart₁ apart₂ (by simp [la, lb, lc])

end

/-- Any threads run on any store, in any order of turns. Lists that are merged in it, be they finite or
    not, be some of them no lists at all, have the cells of one list after the other as far as these
    have come, and have demanded nothing else; and where the lists go on, so does the merged one. -/
theorem merging_is_lazy_concatenation (E : Engine) (scripts : List (Script Unit)) (s : Store)
    {w w' : World} {fs : List Forcer} {x : Recorded}
    (runs : Crew.Runs (Forcer.turn E) (scripts.map Forcer.start, { store := s }, w) (fs, x, w')) :
    (∃ g, s.heap.Extends g ∧ g.Recounts E.bound x.store.heap ∧
      Heap.MergesLazily E.bound g x.store.heap) ∧ E.MergesLazily := by
  obtain ⟨g, extends', kept⟩ := Forcer.recounts_of_runs E scripts s runs
  exact ⟨⟨g, extends', kept, kept.merges_lazily⟩, E.merges_lazily⟩

/-- Cell 0 merges the empty list in cell 2 with a list of one element. That is still to be computed. -/
def mergingStore : Store :=
  { heap := ⟨#[.ofCall ⟨1⟩ { positionals := [⟨2⟩, ⟨3⟩] },
      .ofValue (.function Builtin.merge.function), .ofValue (.list .nil),
      .ofValue (.list (.cons ⟨4⟩ ⟨2⟩)), .ofSuspension (.entries [])]⟩ }

/-- The element is the first one of the merged list, which has visited the empty list, its own list of
    the others, and the other list. The element has not been computed. -/
theorem merging_is_lazy_concatenation_of_empty :
    ∃ fs x, Crew.Runs (Forcer.turn { bound := 2 })
        ([observer ⟨0⟩].map Forcer.start, { store := mergingStore }, {}) (fs, x, {}) ∧
      x.store.heap.state? ⟨4⟩ = some (.pending { task := .resume (.entries []) }) ∧
      ∃ g rest log visited, x.store.heap.Shows ⟨0⟩ (.cons ⟨4⟩ .unknown) visited ∧
        Heap.Draws 2 g x.store.heap ⟨0⟩ (.cons ⟨4⟩ .unknown)
          ((⟨1⟩, .function Builtin.merge.function) :: log) ∧
        ∃ y ys, x.store.heap.Visits ⟨2⟩ rest y ys (log.map Prod.fst) ∧
          Extent.cons ⟨4⟩ .unknown = y.append ys.join := by
  obtain ⟨fs, x, runs, merged, function, nil, waits⟩ : ∃ fs x,
      Crew.Runs (Forcer.turn { bound := 2 })
        ([observer ⟨0⟩].map Forcer.start, { store := mergingStore }, {}) (fs, x, {}) ∧
      x.store.heap.state? ⟨0⟩ = some (.forced (.list (.cons ⟨4⟩ ⟨7⟩))) ∧
      x.store.heap.state? ⟨1⟩ = some (.forced (.function Builtin.merge.function)) ∧
      x.store.heap.state? ⟨2⟩ = some (.forced (.list .nil)) ∧
      x.store.heap.state? ⟨4⟩ = some (.pending { task := .resume (.entries []) }) :=
    ⟨_, _, Crew.runs_of_follow _ (List.replicate 20 0) _ rfl, rfl, rfl, rfl, rfl⟩
  obtain ⟨⟨g, extends', _, lazily⟩, _⟩ := merging_is_lazy_concatenation _ _ _ runs
  have merges := lazily.calls ⟨0⟩ ⟨1⟩ ⟨2⟩ [⟨3⟩] none none (extends' ⟨0⟩ _ rfl)
    ⟨⟨1⟩, .refl, function⟩ fun u replies =>
      ⟨.ok .nil, replies.unique (.resume ⟨⟨2⟩, .refl, nil⟩ rfl)⟩
  have shows : x.store.heap.Shows ⟨0⟩ (.cons ⟨4⟩ .unknown) _ :=
    .cons ⟨_, .resume ⟨⟨0⟩, .refl, merged⟩ rfl, rfl⟩ .unknown
  obtain ⟨log, draws⟩ := merges.draws _ _ shows
  obtain ⟨rest, log, y, ys, _, rfl, visits, same⟩ := merges.visits _ _ draws nofun
  refine ⟨fs, x, runs, waits, g, rest, log, _, shows, draws, y, ys, visits, same.trans ?_⟩
  cases y.append ys.join <;> rfl

end CallByNeed
