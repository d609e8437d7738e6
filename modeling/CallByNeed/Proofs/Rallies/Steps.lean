import CallByNeed.Proofs.Rallies.Courses

/- One turn, whoever takes it, keeps the books of all rallies. Most turns touch no rally at all; each
   of the others moves the course of one rally on by one stage. -/
namespace CallByNeed
open Relation (ReflTransGen)

section
variable {E : Engine} {bound : Nat} {s s' : Store} {K : Nat → Rally.Course} {before after : List Post}
variable {ps ps' : List Post} {id i : Nat} {d : Ref} {st : Stand} {c : Rally.Course}

theorem Post.Goes.shows (goes : Post.Goes E ps s ps' s')
    (forcing : ∀ p ∈ before ++ (ps ++ after), s.heap.state? p.cell = some .forcing) {slot : Ref}
    {l : LazyList} (shows : s.heap.Presents (before ++ (ps ++ after)) slot l) :
    s'.heap.Presents (before ++ (ps' ++ after)) slot l := by
  have later := goes.later fun p mine => forcing p (by simp [mine])
  rcases shows with yields | ⟨q, path, member⟩
  · exact .inl (later.yields yields)
  · simp only [List.mem_append] at member
    by_cases mine : (⟨q, .runs (.done (.value (.list l)))⟩ : Post) ∈ ps
    · cases goes with
      | value =>
        simp only [List.mem_singleton, Post.mk.injEq, Stand.runs.injEq, Script.done.injEq,
          Outcome.value.injEq] at mine
        obtain ⟨rfl, rfl⟩ := mine
        have owned := forcing ⟨q, .runs (.done (.value (.list l)))⟩ (by simp)
        exact .inl (Heap.yields_published owned path _)
      | _ => simp at mine
    · refine .inr ⟨q, later.leads path, ?_⟩
      simp only [List.mem_append]
      tauto

/-- A turn that leaves a rally and its listers alone keeps its course. -/
theorem Rallying.kept_of_books (rallying : Rallying bound s (before ++ (ps ++ after)) K)
    (goes : Post.Goes E ps s ps' s') (opened : s'.rallies[id]? = none → s.rallies[id]? = none)
    (books : ∀ y', s'.rallies[id]? = some y' → ∃ y, s.rallies[id]? = some y ∧
      y'.arguments = y.arguments ∧ y'.Counts (K id).listed ∧ y'.left = y.left ∧
      ∀ i ∈ y'.reports, i ∈ y.reports ∨ s'.Forced id i)
    (listers : s.heap.SameListers id s'.heap)
    (left : ∀ p ∈ ps, (K id).stage.forcer? = some p.cell → p.cell ∈ ps'.map Post.cell) :
    (K id).Kept s' (before ++ (ps' ++ after)) id := by
  refine (rallying.kept id).stays (goes.later ?_) (fun _ _ _ => goes.argument)
    (fun _ _ => goes.shows rallying.forcing) opened books listers fun d held => ?_
  · exact fun p mine => rallying.forcing p (by simp [mine])
  · refine goes.forcing ((rallying.kept id).forcing d held) fun inside => ?_
    obtain ⟨p, mine, rfl⟩ := List.mem_map.1 inside
    exact left p mine held

theorem Rallying.kept_of_same (rallying : Rallying bound s (before ++ (ps ++ after)) K)
    (goes : Post.Goes E ps s ps' s') (same : s'.rallies[id]? = s.rallies[id]?)
    (listers : s.heap.SameListers id s'.heap)
    (left : ∀ p ∈ ps, (K id).stage.forcer? = some p.cell → p.cell ∈ ps'.map Post.cell) :
    (K id).Kept s' (before ++ (ps' ++ after)) id := by
  refine rallying.kept_of_books goes (fun none => same ▸ none) (fun y found => ?_) listers left
  rw [same] at found
  exact ⟨y, found, rfl, ((rallying.kept id).books y found).counts, rfl, fun i => .inl⟩

/-- A turn that moves no course on. -/
theorem Rallying.steady (rallying : Rallying bound s (before ++ (ps ++ after)) K)
    (goes : Post.Goes E ps s ps' s') (mine : ∀ p ∈ ps', Post.Minds bound s' K p.cell p.stand)
    (kept : ∀ id, (K id).Kept s' (before ++ (ps' ++ after)) id)
    (jobs : ∀ job ∈ s'.pool, job.Fits s') : Rallying bound s' (before ++ (ps' ++ after)) K := by
  obtain ⟨apart, forcing⟩ := goes.alone rallying.apart rallying.forcing
  have later := goes.later fun p mine => rallying.forcing p (by simp [mine])
  refine ⟨apart, forcing, fun p member => ?_, rallying.sole, kept, jobs⟩
  by_cases new : p ∈ ps'
  · exact mine p new
  · have old : p ∈ before ++ (ps ++ after) := by
      simp only [List.mem_append] at member ⊢
      tauto
    exact (rallying.minds p old).later later (fun _ _ _ => goes.argument) fun id => .inl rfl

/-- A turn that moves on the course of one rally, which the forcing of `d` does. -/
theorem Rallying.changed (rallying : Rallying bound s (before ++ (ps ++ after)) K)
    (goes : Post.Goes E ps s [⟨d, st⟩] s')
    (was : ∀ q, (K id).stage.forcer? = some q → q = d)
    (now : ∀ q, c.stage.forcer? = some q → q = d)
    (alone : ∀ id', id' ≠ id → (K id').stage.forcer? ≠ some d)
    (mine : Post.Minds bound s' (Function.update K id c) d st)
    (kept : c.Kept s' (before ++ ([⟨d, st⟩] ++ after)) id)
    (others : ∀ id', id' ≠ id → (K id').Kept s' (before ++ ([⟨d, st⟩] ++ after)) id')
    (jobs : ∀ job ∈ s'.pool, job.Fits s') :
    Rallying bound s' (before ++ ([⟨d, st⟩] ++ after)) (Function.update K id c) := by
  obtain ⟨apart, forcing⟩ := goes.alone rallying.apart rallying.forcing
  have later := goes.later fun p mine => rallying.forcing p (by simp [mine])
  have course (id' : Nat) : (id' = id ∧ Function.update K id c id' = c) ∨
      (id' ≠ id ∧ Function.update K id c id' = K id') := by
    by_cases same : id' = id
    · exact .inl ⟨same, by rw [same, Function.update_self]⟩
    · exact .inr ⟨same, Function.update_of_ne same ..⟩
  refine ⟨apart, forcing, fun p member => ?_, fun id₁ id₂ q first second => ?_, fun id' => ?_, jobs⟩
  · have outside : p = ⟨d, st⟩ ∨ (p.cell ≠ d ∧ p ∈ before ++ (ps ++ after)) := by
      simp only [List.map_append, List.map_cons, List.map_nil, List.nodup_append,
        List.mem_append, List.mem_singleton] at apart member ⊢
      rcases member with first | mine | last
      · refine .inr ⟨fun same => ?_, .inl first⟩
        exact apart.2.2 _ (List.mem_map_of_mem first) d (.inl rfl) same
      · exact .inl mine
      · refine .inr ⟨fun same => ?_, .inr (.inr last)⟩
        exact apart.2.1.2.2 d rfl _ (List.mem_map_of_mem last) same.symm
    rcases outside with rfl | ⟨other, old⟩
    · exact mine
    · refine (rallying.minds p old).later later (fun _ _ _ => goes.argument) fun id' => ?_
      rcases course id' with ⟨rfl, same⟩ | ⟨_, same⟩
      · exact .inr ⟨fun held => other (was _ held), fun held => other (now _ (same ▸ held))⟩
      · exact .inl (by rw [same])
  · rcases course id₁ with ⟨rfl, same₁⟩ | ⟨ne₁, same₁⟩ <;>
      rcases course id₂ with ⟨same, same₂⟩ | ⟨ne₂, same₂⟩ <;> rw [same₁] at first <;>
      rw [same₂] at second
    · exact same.symm
    · exact absurd (now q first ▸ second) (alone _ ne₂)
    · exact absurd (now q second ▸ first) (alone _ ne₁)
    · exact rallying.sole _ _ q first second
  · rcases course id' with ⟨rfl, same⟩ | ⟨other, same⟩
    · rw [same]
      exact kept
    · rw [same]
      exact others id' other

/-! ### The stages of a course -/

theorem Rallying.jobs_later (rallying : Rallying bound s (before ++ (ps ++ after)) K)
    (goes : Post.Goes E ps s ps' s')
    (pool : ∀ job ∈ s'.pool, job ∈ s.pool ∨ job.report = none) : ∀ job ∈ s'.pool, job.Fits s' := by
  intro job member
  rcases pool job member with old | plain
  · exact (rallying.jobs job old).later fun _ _ _ => goes.argument
  · intro id i reports
    rw [plain] at reports
    cases reports

/-- Somebody has taken the work of the last cell of the list. -/
theorem Rally.Course.Kept.begins {posts posts' : List Post} {r : Ref} {w : Work}
    (kept : c.Kept s posts id) (pending : s.heap.state? r = some (.pending w))
    (lists : w.rally? = some id) (later : s.heap.Before s'.heap)
    (arguments : ∀ id i r, s.Argument id i r → s'.Argument id i r)
    (shows : ∀ slot l, s.heap.Presents posts slot l → s'.heap.Presents posts' slot l)
    (same : s'.rallies = s.rallies) (leads : s'.heap.Leads r d)
    (forcing : s'.heap.state? d = some .forcing)
    (others : ∀ t w, s'.heap.state? t = some (.pending w) →
      t ≠ r ∧ s.heap.state? t = some (.pending w)) :
    ({ c with stage := .works d } : Rally.Course).Kept s' posts' id := by
  have waits : c.stage = .waits r := kept.lister r w pending lists
  have listed : c.listed = c.order := by simp [Rally.Course.listed, waits]
  constructor
  case books =>
    intro y found
    rw [same] at found
    obtain ⟨counts, chain, forced, reports, _⟩ := kept.books y found
    rw [listed] at counts forced
    rw [waits] at chain
    constructor
    case counts => exact counts
    case chain => exact (chain.imp later shows).moved leads
    case forced => exact fun i mine => (forced i mine).later later arguments
    case reports => exact fun i mine => (reports i mine).later later arguments
    case ended => nofun
  case unopened =>
    intro none
    have ended := kept.unopened (same ▸ none)
    rw [waits] at ended
    cases ended
  case waits => nofun
  case forcing =>
    intro q held
    cases held
    exact forcing
  case lister =>
    intro t w' pending' lists'
    obtain ⟨other, old⟩ := others t w' pending'
    have also_waits := kept.lister t w' old lists'
    rw [waits] at also_waits
    cases also_waits
    exact absurd rfl other

/-- The forcer of the last cell has listed an argument. -/
theorem Rally.Course.Kept.finds {posts : List Post} {y : Rally} {r : Ref}
    (kept : c.Kept s posts id) (works : c.stage = .works d) (found : s.rallies[id]? = some y)
    (listed : (y.list i).1 = some r) (forced : s.Forced id i) (later : s.heap = s'.heap)
    (arguments : ∀ id i r, s.Argument id i r → s'.Argument id i r)
    {posts' : List Post}
    (shows : ∀ slot l, s.heap.Presents posts slot l → s'.heap.Presents posts' slot l)
    (now : s'.rallies[id]? = some (y.list i).2) :
    ({ c with stage := .found d i } : Rally.Course).Kept s' posts' id := by
  have order : c.listed = c.order := by simp [Rally.Course.listed, works]
  have before : s.heap.Before s'.heap := later ▸ s.heap.before_refl
  obtain ⟨counts, chain, all, reports, _⟩ := kept.books y found
  rw [order] at counts all
  rw [works] at chain
  constructor
  case books =>
    intro y' found'
    rw [now] at found'
    cases found'
    constructor
    case counts => exact (counts.listed listed).2
    case chain =>
      rw [y.arguments_of_list i]
      exact chain.imp before shows
    case forced =>
      intro j member
      rcases List.mem_append.1 member with old | new
      · exact (all j old).later before arguments
      · rw [List.mem_singleton.1 new]
        exact forced.later before arguments
    case reports =>
      intro j member
      rw [y.reports_of_list i] at member
      exact (reports j member).later before arguments
    case ended => nofun
  case unopened =>
    intro none
    rw [now] at none
    cases none
  case waits => nofun
  case forcing =>
    intro q held
    cases held
    exact later ▸ kept.forcing d (by rw [works]; rfl)
  case lister =>
    intro t w pending lists
    have waits := kept.lister t w (later ▸ pending) lists
    rw [works] at waits
    cases waits

/-- The forcer of the last cell has made the next cell and shows the argument that it has found. -/
theorem Rally.Course.Kept.lists {posts posts' : List Post} {head r : Ref}
    (kept : c.Kept s posts id) (found : c.stage = .found d i) (argument : s.Argument id i head)
    (later : s.heap.Before s'.heap)
    (arguments : ∀ id i r, s.Argument id i r → s'.Argument id i r)
    (shows : ∀ slot l, s.heap.Presents posts slot l → s'.heap.Presents posts' slot l)
    (same : s'.rallies = s.rallies) (shown : s'.heap.Presents posts' d (.cons head r))
    (made : ∃ w, s'.heap.state? r = some (.pending w) ∧ w.rally? = some id)
    (others : ∀ t w, s'.heap.state? t = some (.pending w) →
      t = r ∨ s.heap.state? t = some (.pending w)) :
    ({ c with order := c.order ++ [i], stage := .waits r } : Rally.Course).Kept s' posts' id := by
  have listed : c.listed = c.order ++ [i] := by simp [Rally.Course.listed, found]
  constructor
  case books =>
    intro y open_rally
    rw [same] at open_rally
    obtain ⟨counts, chain, forced, reports, _⟩ := kept.books y open_rally
    rw [listed] at counts forced
    rw [found] at chain
    obtain ⟨_, this, here⟩ := argument
    rw [open_rally] at this
    cases this
    constructor
    case counts => exact counts
    case chain => exact (chain.imp later shows).snoc here shown
    case forced => exact fun j mine => (forced j mine).later later arguments
    case reports => exact fun j mine => (reports j mine).later later arguments
    case ended => nofun
  case unopened =>
    intro none
    have ended := kept.unopened (same ▸ none)
    rw [found] at ended
    cases ended
  case waits =>
    intro cell waits
    cases waits
    exact made
  case forcing => nofun
  case lister =>
    intro t w pending lists
    rcases others t w pending with rfl | old
    · rfl
    · have waits := kept.lister t w old lists
      rw [found] at waits
      cases waits

/-- The forcer of the last cell has found nothing left to list. -/
theorem Rally.Course.Kept.ends {posts posts' : List Post} {y : Rally} (kept : c.Kept s posts id)
    (works : c.stage = .works d) (found : s.rallies[id]? = some y)
    (exhausted : y.poll.1 = .exhausted) (later : s.heap = s'.heap)
    (arguments : ∀ id i r, s.Argument id i r → s'.Argument id i r)
    (shows : ∀ slot l, s.heap.Presents posts slot l → s'.heap.Presents posts' slot l)
    (now : s'.rallies[id]? = some y.poll.2) (shown : s'.heap.Presents posts' d .nil) :
    ({ c with stage := .ended } : Rally.Course).Kept s' posts' id := by
  have order : c.listed = c.order := by simp [Rally.Course.listed, works]
  have before : s.heap.Before s'.heap := later ▸ s.heap.before_refl
  obtain ⟨counts, chain, all, reports, _⟩ := kept.books y found
  have left := counts.left_of_exhausted exhausted
  have counts' := counts.poll
  rw [order] at counts counts' all
  rw [works] at chain
  constructor
  case books =>
    intro y' found'
    rw [now] at found'
    cases found'
    constructor
    case counts => exact counts'
    case chain =>
      rw [y.arguments_of_poll]
      exact (chain.imp before shows).closed shown
    case forced => exact fun j mine => (all j mine).later before arguments
    case reports =>
      exact fun j mine => (reports j (Rally.reports_of_poll mine)).later before arguments
    case ended =>
      intro _
      have sizes := counts'.left
      rw [y.arguments_of_poll, ← counts.left, left] at sizes
      omega
  case unopened => exact fun _ => rfl
  case waits => nofun
  case forcing => nofun
  case lister =>
    intro t w pending lists
    have waits := kept.lister t w (later ▸ pending) lists
    rw [works] at waits
    cases waits

/-- A rally has been opened, for which nothing is listed yet. -/
theorem Rally.Course.kept_opened {posts : List Post} {rs : List Ref}
    (now : s.rallies[id]? = some (Rally.ofRefs rs)) (forcing : s.heap.state? d = some .forcing)
    (none : ∀ t w, s.heap.state? t = some (.pending w) → w.rally? ≠ some id) :
    ({ root := d, order := [], stage := .works d } : Rally.Course).Kept s posts id := by
  constructor
  case books =>
    intro y found
    rw [now] at found
    cases found
    exact ⟨Rally.counts_ofRefs rs, .opened .refl, nofun, nofun, nofun⟩
  case unopened =>
    intro unopened
    rw [now] at unopened
    cases unopened
  case waits => nofun
  case forcing =>
    intro q held
    cases held
    exact forcing
  case lister => exact fun t w pending lists => absurd lists (none t w pending)

/-! ### Actions -/

/-- An action that leaves rallies alone. -/
theorem Store.act_of_aloof {a : Action} (s : Store) (aloof : a.Aloof) :
    (s.act a).2.rallies = s.rallies ∧
      (∀ id, s.heap.SameListers id (s.act a).2.heap) ∧
      ∀ job ∈ (s.act a).2.pool, job ∈ s.pool ∨ job.report = none := by
  cases a with
  | alloc c =>
    refine ⟨rfl, fun id => Heap.sameListers_alloc fun w pending => ?_, fun job => .inl⟩
    change c.state.Aloof at aloof
    rw [pending] at aloof
    rw [show w.rally? = none from aloof]
    simp
  | fill handle target =>
    refine ⟨rfl, fun id => ?_, fun job => .inl⟩
    simp only [act, Heap.fill]
    split
    · next vacant => exact Heap.sameListers_setState vacant (by simp) (by simp)
    · exact s.heap.sameListers_refl id
  | trace label => exact ⟨rfl, fun id => s.heap.sameListers_refl id, fun job => .inl⟩
  | submit job =>
    refine ⟨rfl, fun id => s.heap.sameListers_refl id, fun job' member => ?_⟩
    rcases Array.mem_push.1 member with old | new
    · exact .inl old
    · exact .inr (new ▸ aloof)
  | openRally | pollRally | listRally => exact aloof.elim

/-- The courses have moved on as well. A rally keeps its root, and one that has been opened has its
    root where that was done. -/
def MovesOn (bound : Nat) (ps : List Post) (s s' : Store) (posts' : List Post)
    (K : Nat → Rally.Course) : Prop :=
  ∃ K', Rallying bound s' posts' K' ∧
    (∀ id, id < s.rallies.size → (K' id).root = (K id).root) ∧
    ∀ d rs next, ps = [⟨d, .runs (.act (.openRally rs) next)⟩] → (K' s.rallies.size).root = d

theorem Rallying.movesOn {posts' : List Post} (rallying : Rallying bound s' posts' K)
    (other : ∀ d rs next, ps ≠ [⟨d, .runs (.act (.openRally rs) next)⟩]) :
    MovesOn bound ps s s' posts' K :=
  ⟨K, rallying, fun _ _ => rfl, fun d rs next same => absurd same (other d rs next)⟩

theorem Rallying.movesOn_update {posts' : List Post}
    (rallying : Rallying bound s' posts' (Function.update K id c)) (root : c.root = (K id).root)
    (other : ∀ d rs next, ps ≠ [⟨d, .runs (.act (.openRally rs) next)⟩]) :
    MovesOn bound ps s s' posts' K := by
  refine ⟨_, rallying, fun id' _ => ?_, fun d rs next same => absurd same (other d rs next)⟩
  by_cases same : id' = id
  · rw [same, Function.update_self, root]
  · rw [Function.update_of_ne same]

/-- The rally that the forcer of `d` lists for is open. -/
theorem Rallying.opened {posts : List Post} (rallying : Rallying bound s posts K)
    (held : (K id).stage.forcer? = some d) : ∃ y, s.rallies[id]? = some y := by
  cases found : s.rallies[id]? with
  | some y => exact ⟨y, rfl⟩
  | none =>
    rw [(rallying.kept id).unopened found] at held
    cases held

section
variable {a : Action} {next : a.Answer → Script Outcome}

theorem Rallying.acts_aloof
    (rallying : Rallying bound s (before ++ ([⟨d, .runs (.act a next)⟩] ++ after)) K)
    (goes : Post.Goes E [⟨d, .runs (.act a next)⟩] s [⟨d, st⟩] (s.act a).2) (aloof : a.Aloof)
    (mine : Post.Minds bound (s.act a).2 K d st) :
    Rallying bound (s.act a).2 (before ++ ([⟨d, st⟩] ++ after)) K := by
  obtain ⟨rallies, listers, pool⟩ := s.act_of_aloof aloof
  refine rallying.steady goes (by simpa using mine) (fun id => ?_)
    (rallying.jobs_later goes pool)
  exact rallying.kept_of_same goes (by rw [rallies]) (listers id) (by simp)

end

/-- `rally` is called. -/
theorem Rallying.opens {rs : List Ref} {next : Nat → Script Outcome}
    (rallying : Rallying bound s (before ++ ([⟨d, .runs (.act (.openRally rs) next)⟩] ++ after)) K)
    (free : Free K d) (here : ∀ id, next id = Builtin.submitting bound id 0 rs) :
    MovesOn bound [⟨d, .runs (.act (.openRally rs) next)⟩] s (s.act (.openRally rs)).2
      (before ++ ([⟨d, .runs (next s.rallies.size)⟩] ++ after)) K := by
  have goes : Post.Goes { bound } [⟨d, .runs (.act (.openRally rs) next)⟩] s
      [⟨d, .runs (next s.rallies.size)⟩] (s.act (.openRally rs)).2 := .act
  have unopened : s.rallies[s.rallies.size]? = none := by simp
  have ended := (rallying.kept s.rallies.size).unopened unopened
  have forcing : s.heap.state? d = some .forcing :=
    rallying.forcing ⟨d, .runs (.act (.openRally rs) next)⟩ (by simp)
  have now : (s.act (.openRally rs)).2.rallies[s.rallies.size]? = some (.ofRefs rs) := by
    simp [Store.act]
  let c : Rally.Course := { root := d, order := [], stage := .works d }
  refine ⟨Function.update K s.rallies.size c, ?_, fun id bound => ?_, fun q rs' next' same => ?_⟩
  · refine rallying.changed goes ?_ ?_ (fun id' _ => free id') ?_ ?_ (fun id' other => ?_) ?_
    · intro q held
      rw [ended] at held
      cases held
    · intro q held
      cases held
      rfl
    · refine @Post.Minds.submits _ _ _ _ s.rallies.size 0 rs _ ?_ (fun j r other => ?_) ?_
      · rw [Function.update_self]
      · exact ⟨_, now, by simpa [Rally.ofRefs] using other⟩
      · exact here _
    · refine Rally.Course.kept_opened now forcing fun t w pending lists => ?_
      have waits := (rallying.kept s.rallies.size).lister t w pending lists
      rw [ended] at waits
      cases waits
    · refine rallying.kept_of_same goes ?_ (s.heap.sameListers_refl id') (by simp)
      simp [Store.act, Array.getElem?_push, other]
    · exact rallying.jobs_later goes fun job => .inl
  · rw [Function.update_of_ne (by omega)]
  · cases same
    rw [Function.update_self]

/-- The forcer of the last cell reads the reports. -/
theorem Rallying.polls {b : Nat} {next : Poll → Script Outcome}
    (rallying : Rallying bound s (before ++ ([⟨d, .runs (.act (.pollRally id) next)⟩] ++ after)) K)
    (works : (K id).stage = .works d) (nothing : next .exhausted = .done (.value (.list .nil)))
    (reported : ∀ i, next (.reported i) = Builtin.picking b id i)
    (late : ∀ i r, next (.late i r) = .demand .pure r fun _ => Builtin.picking b id i) :
    MovesOn bound [⟨d, .runs (.act (.pollRally id) next)⟩] s (s.act (.pollRally id)).2
      (before ++ ([⟨d, .runs (next (s.act (.pollRally id)).1)⟩] ++ after)) K := by
  have goes : Post.Goes { bound } [⟨d, .runs (.act (.pollRally id) next)⟩] s
      [⟨d, .runs (next (s.act (.pollRally id)).1)⟩] (s.act (.pollRally id)).2 := .act
  have held : (K id).stage.forcer? = some d := by rw [works]; rfl
  obtain ⟨y, found⟩ := rallying.opened held
  have polled : s.act (.pollRally id) =
      (y.poll.1, { s with rallies := s.rallies.setIfInBounds id y.poll.2 }) := by
    simp [Store.act, found]
  have inside := (Array.getElem?_eq_some_iff.1 found).1
  have books := (rallying.kept id).books y found
  rw [polled] at goes ⊢
  have now : (s.rallies.setIfInBounds id y.poll.2)[id]? = some y.poll.2 := by simp [inside]
  have others (id' : Nat) (other : id' ≠ id) :
      (s.rallies.setIfInBounds id y.poll.2)[id']? = s.rallies[id']? := by
    simp [Ne.symm other]
  have jobs : ∀ job ∈ s.pool,
      job.Fits { s with rallies := s.rallies.setIfInBounds id y.poll.2 } :=
    rallying.jobs_later goes fun job => .inl
  have kept {st : Stand} (goes : Post.Goes { bound } [⟨d, .runs (.act (.pollRally id) next)⟩] s
      [⟨d, st⟩] { s with rallies := s.rallies.setIfInBounds id y.poll.2 }) (id' : Nat) :
      (K id').Kept { s with rallies := s.rallies.setIfInBounds id y.poll.2 }
        (before ++ ([⟨d, st⟩] ++ after)) id' := by
    by_cases same : id' = id
    · subst same
      refine rallying.kept_of_books goes (fun none => ?_) (fun y' found' => ?_)
        (s.heap.sameListers_refl id') (by simp)
      · rw [now] at none
        cases none
      · rw [now] at found'
        cases found'
        have left := books.counts.left
        have left' := books.counts.poll.left
        rw [y.arguments_of_poll] at left'
        exact ⟨y, found, y.arguments_of_poll, books.counts.poll, by omega,
          fun i reported => .inl (Rally.reports_of_poll reported)⟩
    · exact rallying.kept_of_same goes (others id' same) (s.heap.sameListers_refl id') (by simp)
  cases answer : y.poll.1 with
  | exhausted =>
    simp only [answer, nothing] at goes ⊢
    refine (rallying.changed (c := { K id with stage := .ended }) goes ?_ ?_ ?_ (.runs ?_ trivial)
      ?_ ?_ jobs).movesOn_update rfl (by simp)
    · intro q same
      rw [held] at same
      exact (Option.some.inj same).symm
    · intro q same
      cases same
    · exact fun id' other same => other (rallying.sole _ _ d same held)
    · intro id'
      by_cases same : id' = id
      · subst same
        simp [Rally.Stage.forcer?]
      · rw [Function.update_of_ne same]
        exact fun also => same (rallying.sole _ _ d also held)
    · refine (rallying.kept id).ends works found answer rfl (fun _ _ _ => goes.argument)
        (fun _ _ => goes.shows rallying.forcing) now (.inr ⟨d, .refl, by simp⟩)
    · exact fun id' other => rallying.kept_of_same goes (others id' other)
        (s.heap.sameListers_refl id') (by simp)
  | reported i =>
    simp only [answer, reported] at goes ⊢
    refine (rallying.steady goes ?_ (kept goes) jobs).movesOn (by simp)
    · have forced := books.reports i (Rally.mem_of_reported answer)
      have later : Store.Forced { s with rallies := s.rallies.setIfInBounds id y.poll.2 } id i :=
        forced.later s.heap.before_refl fun _ _ _ => goes.argument
      simpa using Post.Minds.picks works later rfl
  | late i r =>
    simp only [answer, late] at goes ⊢
    refine (rallying.steady goes ?_ (kept goes) jobs).movesOn (by simp)
    · have argument : s.Argument id i r := ⟨y, found, Rally.argument_of_late answer⟩
      simpa using Post.Minds.demands works (goes.argument argument) rfl

/-- The forcer of the last cell lists an argument, unless that has been done. -/
theorem Rallying.picks {b : Nat} {next : Option Ref → Script Outcome}
    (rallying :
      Rallying bound s (before ++ ([⟨d, .runs (.act (.listRally id i) next)⟩] ++ after)) K)
    (works : (K id).stage = .works d) (forced : s.Forced id i)
    (listed : ∀ r, next (some r) = Builtin.listing id (some r))
    (known : next none = Builtin.seeking b id) :
    MovesOn bound [⟨d, .runs (.act (.listRally id i) next)⟩] s (s.act (.listRally id i)).2
      (before ++ ([⟨d, .runs (next (s.act (.listRally id i)).1)⟩] ++ after)) K := by
  have goes : Post.Goes { bound } [⟨d, .runs (.act (.listRally id i) next)⟩] s
      [⟨d, .runs (next (s.act (.listRally id i)).1)⟩] (s.act (.listRally id i)).2 := .act
  have held : (K id).stage.forcer? = some d := by rw [works]; rfl
  obtain ⟨y, found⟩ := rallying.opened held
  have acted : s.act (.listRally id i) =
      ((y.list i).1, { s with rallies := s.rallies.setIfInBounds id (y.list i).2 }) := by
    simp [Store.act, found]
  have inside := (Array.getElem?_eq_some_iff.1 found).1
  rw [acted] at goes ⊢
  have now : (s.rallies.setIfInBounds id (y.list i).2)[id]? = some (y.list i).2 := by simp [inside]
  have others (id' : Nat) (other : id' ≠ id) :
      (s.rallies.setIfInBounds id (y.list i).2)[id']? = s.rallies[id']? := by
    simp [Ne.symm other]
  have jobs : ∀ job ∈ s.pool,
      job.Fits { s with rallies := s.rallies.setIfInBounds id (y.list i).2 } :=
    rallying.jobs_later goes fun job => .inl
  cases answer : (y.list i).1 with
  | some r =>
    simp only [answer, listed] at goes ⊢
    have argument : s.Argument id i r :=
      ⟨y, found, (((rallying.kept id).books y found).counts.listed answer).1⟩
    refine (rallying.changed (c := { K id with stage := .found d i }) goes ?_ ?_ ?_ ?_ ?_ ?_
      jobs).movesOn_update rfl (by simp)
    · intro q same
      rw [held] at same
      exact (Option.some.inj same).symm
    · intro q same
      cases same
      rfl
    · exact fun id' other same => other (rallying.sole _ _ d same held)
    · refine @Post.Minds.lists _ _ _ _ id i _ _ ?_ (goes.argument argument) rfl
      rw [Function.update_self]
    · exact (rallying.kept id).finds works found answer forced (by rfl) (fun _ _ _ => goes.argument)
        (fun _ _ => goes.shows rallying.forcing) now
    · exact fun id' other => rallying.kept_of_same goes (others id' other)
        (s.heap.sameListers_refl id') (by simp)
  | none =>
    have same : s.rallies.setIfInBounds id (y.list i).2 = s.rallies := by
      rw [Rally.list_of_none answer]
      grind
    simp only [answer, known, same] at goes ⊢
    refine (rallying.steady goes ?_ (fun id' => ?_) rallying.jobs).movesOn (by simp)
    · simpa using Post.Minds.seeks works rfl
    · exact rallying.kept_of_same goes rfl (s.heap.sameListers_refl id') (by simp)

/-- The forcer of the last cell makes the next cell. -/
theorem Rallying.lists {head : Ref} {next : Ref → Script Outcome}
    (rallying : Rallying bound s
      (before ++ ([⟨d, .runs (.act (.alloc (.ofSuspension (.rally id))) next)⟩] ++ after)) K)
    (found : (K id).stage = .found d i) (argument : s.Argument id i head)
    (answers : ∀ r, next r = .done (.value (.list (.cons head r)))) :
    MovesOn bound [⟨d, .runs (.act (.alloc (.ofSuspension (.rally id))) next)⟩] s
      (s.act (.alloc (.ofSuspension (.rally id)))).2
      (before ++ ([⟨d, .runs (next (s.act (.alloc (.ofSuspension (.rally id)))).1)⟩] ++ after))
      K := by
  let cell : Cell := .ofSuspension (.rally id)
  have goes : Post.Goes { bound } [⟨d, .runs (.act (.alloc cell) next)⟩] s
      [⟨d, .runs (next (s.act (.alloc cell)).1)⟩] (s.act (.alloc cell)).2 := .act
  have held : (K id).stage.forcer? = some d := by rw [found]; rfl
  have later : s.heap.Before (s.act (.alloc cell)).2.heap := Store.before_act s _
  let r : Ref := (s.heap.alloc cell).1
  have made : (s.heap.alloc cell).2.state? r =
      some (.pending { task := .resume (.rally id) }) := by
    rw [Heap.state?_alloc, if_pos rfl]
    rfl
  have alone (id' : Nat) (other : id' ≠ id) : (K id').stage.forcer? ≠ some d :=
    fun same => other (rallying.sole _ _ d same held)
  rw [answers] at goes ⊢
  refine (rallying.changed
    (c := { K id with order := (K id).order ++ [i], stage := .waits r }) goes ?_ ?_ alone
    (.runs (fun id' => ?_) trivial) ?_ (fun id' other => ?_) ?_).movesOn_update rfl (by simp)
  · intro q same
    rw [held] at same
    exact (Option.some.inj same).symm
  · intro q same
    cases same
  · by_cases same : id' = id
    · subst same
      rw [Function.update_self]
      nofun
    · rw [Function.update_of_ne same]
      exact alone id' same
  · refine (rallying.kept id).lists found argument later (fun _ _ _ => goes.argument)
      (fun _ _ => goes.shows rallying.forcing) rfl (.inr ⟨d, .refl, by simp [r, cell, Store.act]⟩)
      ⟨_, made, rfl⟩ fun t w pending => ?_
    simp only [Store.act, Heap.state?_alloc] at pending
    split at pending
    · next new => exact .inl new
    · exact .inr pending
  · refine rallying.kept_of_same goes rfl (Heap.sameListers_alloc fun w same => ?_) (by simp)
    cases same
    exact fun lists => other (Option.some.inj lists).symm
  · exact rallying.jobs_later goes fun job => .inl

/-- Whatever a forcer does to the store. -/
theorem Rallying.acts {a : Action} {next : a.Answer → Script Outcome}
    (rallying : Rallying bound s (before ++ ([⟨d, .runs (.act a next)⟩] ++ after)) K) :
    MovesOn bound [⟨d, .runs (.act a next)⟩] s (s.act a).2
      (before ++ ([⟨d, .runs (next (s.act a).1)⟩] ++ after)) K := by
  have goes : Post.Goes { bound } [⟨d, .runs (.act a next)⟩] s
      [⟨d, .runs (next (s.act a).1)⟩] (s.act a).2 := .act
  have minds : Post.Minds bound s K d (.runs (.act a next)) :=
    rallying.minds ⟨d, .runs (.act a next)⟩ (by simp)
  have seeks {b id : Nat} (works : (K id).stage = .works d)
      (here : Script.act a next = Builtin.seeking b id) :
      MovesOn bound [⟨d, .runs (.act a next)⟩] s (s.act a).2
        (before ++ ([⟨d, .runs (next (s.act a).1)⟩] ++ after)) K := by
    cases b with
    | zero => cases here
    | succ b =>
      rw [Builtin.seeking_succ] at here
      cases here
      exact rallying.polls works rfl (fun _ => rfl) fun _ _ => rfl
  cases minds with
  | runs free orderly =>
    rcases orderly with ⟨aloof, orderly⟩ | ⟨rs, here⟩
    · refine (rallying.acts_aloof goes aloof (.runs free (orderly _))).movesOn ?_
      intro d' rs next' same
      cases same
      exact aloof
    · cases here
      exact rallying.opens free fun _ => rfl
  | @submits id i others _ works arguments here =>
    cases others with
    | nil => exact seeks works here
    | cons r others =>
      cases here
      refine (rallying.steady goes ?_ (fun id' => ?_) ?_).movesOn (by simp)
      · have left (j : Nat) (r' : Ref) (other : others[j]? = some r') :
            (s.act (.submit { target := r, report := some (id, i) })).2.Argument id (i + 1 + j)
              r' := by
          have argument := arguments (j + 1) r' (by simpa using other)
          rwa [show i + (j + 1) = i + 1 + j by omega] at argument
        intro p mine
        rw [List.mem_singleton.1 mine]
        exact .submits works left rfl
      · exact rallying.kept_of_same goes rfl (s.heap.sameListers_refl id') (by simp)
      · intro job member
        rcases Array.mem_push.1 member with old | new
        · exact (rallying.jobs job old).later fun _ _ _ => goes.argument
        · subst new
          intro id' i' reports
          cases reports
          exact arguments 0 r rfl
  | seeks works here => exact seeks works here
  | demands works argument here => cases here
  | picks works forced here =>
    cases here
    exact rallying.picks works forced (fun _ => rfl) rfl
  | lists found argument here =>
    cases here
    exact rallying.lists found argument fun _ => rfl

/-! ### Turns -/

/-- Whoever takes work to list an argument is the forcer of the last cell from then on. -/
theorem Rallying.takes {r : Ref} {w : Work}
    (rallying : Rallying E.bound s (before ++ (ps ++ after)) K)
    (goes : Post.Goes E ps s [⟨d, .runs (w.task.script E.bound)⟩] s')
    (pending : s.heap.state? r = some (.pending w)) (free : Free K d)
    (mine : ∀ p ∈ ps, p.cell = d) (same : s'.rallies = s.rallies) (pool : s'.pool = s.pool)
    (leads : s'.heap.Leads r d) (taken : ∀ w', s'.heap.state? r ≠ some (.pending w'))
    (others : ∀ t, t ≠ r → s'.heap.state? t = s.heap.state? t) :
    ∃ K', Rallying E.bound s' (before ++ ([⟨d, .runs (w.task.script E.bound)⟩] ++ after)) K' ∧
      ∀ id, (K' id).root = (K id).root := by
  have later := goes.later fun p mine => rallying.forcing p (by simp [mine])
  have jobs : ∀ job ∈ s'.pool, job.Fits s' :=
    rallying.jobs_later goes fun job member => .inl (pool ▸ member)
  have forcing : s'.heap.state? d = some .forcing :=
    (goes.alone rallying.apart rallying.forcing).2 ⟨d, .runs (w.task.script E.bound)⟩ (by simp)
  have cells : ∀ p ∈ ps, p.cell ∈ [(⟨d, .runs (w.task.script E.bound)⟩ : Post)].map Post.cell := by
    simpa using mine
  have listers (id : Nat) (other : w.rally? ≠ some id) : s.heap.SameListers id s'.heap := by
    intro t w' lists
    by_cases here : t = r
    · subst here
      constructor
      · exact fun still => absurd still (taken w')
      · intro was
        rw [pending] at was
        cases was
        exact absurd lists other
    · rw [others t here]
  cases lists : w.rally? with
  | none =>
    refine ⟨K, rallying.steady goes ?_ (fun id => ?_) jobs, fun _ => rfl⟩
    · simpa using Post.Minds.runs free (w.orderly_script lists E.bound)
    · exact rallying.kept_of_same goes (by rw [same]) (listers id (by simp [lists]))
        fun p mine _ => cells p mine
  | some id =>
    have waits := (rallying.kept id).lister r w pending lists
    refine ⟨Function.update K id { K id with stage := .works d }, ?_, fun id' => ?_⟩
    · refine rallying.changed goes ?_ ?_ (fun id' _ => free id') ?_ ?_ (fun id' other => ?_) jobs
      · intro q held
        rw [waits] at held
        cases held
      · intro q held
        cases held
        rfl
      · refine @Post.Minds.seeks _ _ _ _ id _ _ ?_ (w.script_of_rally? lists E.bound)
        rw [Function.update_self]
      · refine (rallying.kept id).begins pending lists later (fun _ _ _ => goes.argument)
          (fun _ _ => goes.shows rallying.forcing) same leads forcing fun t w' still => ?_
        have away : t ≠ r := by
          rintro rfl
          exact taken w' still
        exact ⟨away, others t away ▸ still⟩
      · refine rallying.kept_of_same goes (by rw [same]) (listers id' ?_) fun p mine _ => cells p mine
        rw [lists]
        exact fun same => other (Option.some.inj same).symm
    · by_cases here : id' = id
      · rw [here, Function.update_self]
      · rw [Function.update_of_ne here]

/-- A forcer goes on and leaves the store as it is. -/
theorem Rallying.resumed {st : Stand} {p : Post}
    (rallying : Rallying E.bound s (before ++ ([p] ++ after)) K)
    (goes : Post.Goes E [p] s [⟨p.cell, st⟩] s) (mine : Post.Minds E.bound s K p.cell st)
    (other : ∀ rs next, p.stand ≠ .runs (.act (.openRally rs) next)) :
    MovesOn E.bound [p] s s (before ++ ([⟨p.cell, st⟩] ++ after)) K := by
  refine (rallying.steady goes (by simpa using mine) (fun id => ?_) rallying.jobs).movesOn ?_
  · exact rallying.kept_of_same goes rfl (s.heap.sameListers_refl id) (by simp)
  · intro d rs next same
    cases same
    exact other rs next rfl

/-- A forcer is done, and its cell has got a value. -/
theorem Rallying.published {p : Post} {v : Value}
    (rallying : Rallying E.bound s (before ++ ([p] ++ after)) K)
    (goes : Post.Goes E [p] s [] { s with heap := s.heap.publish p.cell v })
    (free : Free K p.cell) (other : ∀ rs next, p.stand ≠ .runs (.act (.openRally rs) next)) :
    MovesOn E.bound [p] s { s with heap := s.heap.publish p.cell v } (before ++ ([] ++ after)) K := by
  refine (rallying.steady goes nofun (fun id => ?_)
    (rallying.jobs_later goes fun job => .inl)).movesOn ?_
  · have forcing : s.heap.state? p.cell = some .forcing := rallying.forcing p (by simp)
    refine rallying.kept_of_same goes rfl (Heap.sameListers_setState forcing nofun nofun) ?_
    intro q mine held
    rw [List.mem_singleton.1 mine] at held
    exact absurd held (free id)
  · intro d rs next same
    cases same
    exact other rs next rfl

/-- One turn of one thread keeps all that is true of rallies. -/
theorem Rallying.goes (rallying : Rallying E.bound s (before ++ (ps ++ after)) K)
    (goes : Post.Goes E ps s ps' s') :
    MovesOn E.bound ps s s' (before ++ (ps' ++ after)) K := by
  have minds {d : Ref} {st : Stand} (mine : ⟨d, st⟩ ∈ ps) : Post.Minds E.bound s K d st :=
    rallying.minds ⟨d, st⟩ (by simp [mine])
  have free_of_pending {r : Ref} {w : Work} (pending : s.heap.state? r = some (.pending w)) :
      Free K r := by
    intro id held
    rw [(rallying.kept id).forcing r held] at pending
    cases pending
  have step := goes
  cases goes with
  | @start r w _ pending =>
    have taken (w' : Work) : (s.heap.setState r .forcing).state? r ≠ some (.pending w') := by
      rw [Heap.state?_setState_self pending]
      nofun
    obtain ⟨K', now, roots⟩ := rallying.takes step pending (free_of_pending pending)
      (by simp) rfl rfl .refl taken fun t away => Heap.state?_setState_ne away _
    exact ⟨K', now, fun id _ => roots id, by simp⟩
  | @splice d child w _ pending =>
    obtain ⟨free, _⟩ := (minds List.mem_cons_self).idle (.inl ⟨_, rfl⟩)
    have redirect : (s.heap.setState child (.redirect d)).state? child = some (.redirect d) :=
      Heap.state?_setState_self pending _
    have taken (w' : Work) : (s.heap.setState child (.redirect d)).state? child ≠
        some (.pending w') := by
      rw [redirect]
      nofun
    obtain ⟨K', now, roots⟩ := rallying.takes step pending free (by simp) rfl rfl
      (.single redirect) taken fun t away => Heap.state?_setState_ne away _
    exact ⟨K', now, fun id _ => roots id, by simp⟩
  | value =>
    obtain ⟨free, _⟩ := (minds List.mem_cons_self).idle (.inl ⟨_, rfl⟩)
    exact rallying.published step free nofun
  | fault =>
    obtain ⟨free, _⟩ := (minds List.mem_cons_self).idle (.inr (.inl ⟨_, rfl⟩))
    exact rallying.published step free nofun
  | pass =>
    cases minds List.mem_cons_self with
    | follows free => exact rallying.published step free nofun
  | tail =>
    obtain ⟨free, _⟩ := (minds List.mem_cons_self).idle (.inl ⟨_, rfl⟩)
    exact rallying.resumed step (.follows free) nofun
  | demand =>
    refine rallying.resumed step ?_ nofun
    rcases (minds List.mem_cons_self).demand with ⟨free, orderly⟩ | ⟨id, b, i, works, argument, pure, here⟩
    · exact .awaits free orderly
    · exact .late works argument pure here
  | act => exact rallying.acts
  | ask =>
    obtain ⟨free, orderly⟩ := (minds List.mem_cons_self).idle (.inr (.inr ⟨_, _, rfl⟩))
    exact rallying.resumed step (.runs free (orderly _)) nofun
  | @resume d r how next v _ replies =>
    refine rallying.resumed step ?_ nofun
    cases minds List.mem_cons_self with
    | awaits free orderly => exact .runs free (orderly v)
    | late works argument pure here =>
      subst pure here
      obtain ⟨u, yields, _⟩ := Heap.replies_pure_iff.1 replies
      exact .picks works ⟨r, u, argument, yields⟩ rfl
  | perform answers effect =>
    refine rallying.resumed step ?_ nofun
    cases minds List.mem_cons_self with
    | awaits free orderly => exact .awaits free orderly
    | late works argument pure here =>
      rw [effect] at pure
      cases pure
  | take =>
    refine (rallying.steady step nofun (fun id => ?_) ?_).movesOn (by simp)
    · exact rallying.kept_of_same step rfl (s.heap.sameListers_refl id) (by simp)
    · exact rallying.jobs_later step fun job member => .inl (by grind)
  | @report id i _ forced =>
    refine (rallying.steady step nofun (fun id' => ?_) ?_).movesOn (by simp)
    · refine rallying.kept_of_books step (fun none => ?_) (fun y' found => ?_)
        (s.heap.sameListers_refl id') (by simp)
      · simpa [Store.report] using none
      · obtain ⟨y, was, more⟩ : ∃ y, s.rallies[id']? = some y ∧
            (y' = y ∨ (id = id' ∧ y' = y.report i)) := by
          simp only [Store.report, Array.getElem?_modify] at found
          split at found
          · next same =>
            obtain ⟨y, was, rfl⟩ := Option.map_eq_some_iff.1 found
            exact ⟨y, was, .inr ⟨same, rfl⟩⟩
          · exact ⟨y', found, .inl rfl⟩
        have counts := ((rallying.kept id').books y was).counts
        rcases more with rfl | ⟨rfl, rfl⟩
        · exact ⟨y', was, rfl, counts, rfl, fun j => .inl⟩
        · refine ⟨y, was, rfl, counts.report i, rfl, fun j reported => ?_⟩
          rcases List.mem_append.1 reported with old | new
          · exact .inl old
          · rw [List.mem_singleton.1 new]
            exact .inr (forced.later s.heap.before_refl fun _ _ _ => step.argument)
    · exact rallying.jobs_later step fun job => .inl
  | still =>
    refine (rallying.steady step nofun (fun id => ?_) rallying.jobs).movesOn (by simp)
    exact rallying.kept_of_same step rfl (s.heap.sameListers_refl id) (by simp)

end
end CallByNeed
