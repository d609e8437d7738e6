import CallByNeed.Proofs.Rallies.Steps

/- The threads of a run. Each of them demands cells and does nothing else to the store on its own
   account, but for the workers, which take jobs and report them. A call of `rally` gathers the elements
   of its list; once it has them, it is the root of a rally that has them as its arguments. -/
namespace CallByNeed
open Relation (ReflTransGen)

namespace LazyList
variable {h : Heap} {bound : Nat} {l : LazyList} {r : Ref}

theorem isReader_elements (bound : Nat) (l : LazyList) : (l.elements bound).IsReader :=
  (isReader_walk (fun _ _ => .pure _) bound l []).bind fun _ => .pure _

/-- The heads that a walk has gathered, the last one first. -/
theorem elements_of_walk {gathered all : List Ref} (yields : h.Yields r (.list l))
    (reads : (l.walk (fun heads head => pure (.yield (head :: heads))) bound gathered).Reads h
      (.ok all)) :
    ∃ heads, all = heads.reverse ++ gathered ∧ h.Elements r heads := by
  induction bound generalizing l r gathered with
  | zero => cases reads
  | succ bound ih =>
    cases l with
    | nil =>
      cases reads
      exact ⟨[], rfl, r, .nil, yields⟩
    | cons head tail =>
      have walks : (forceList tail >>= fun l => l.walk (fun heads head =>
          pure (.yield (head :: heads))) bound (head :: gathered)).Reads h (.ok all) := reads
      obtain ⟨l, forced, rest⟩ | ⟨_, _, no⟩ := Script.reads_bind_iff.1 walks
      · obtain ⟨heads, rfl, t, lists, ends⟩ := ih (Script.yields_of_reads_forceList forced) rest
        exact ⟨head :: heads, by simp, t, .cons yields lists, ends⟩
      · cases no

theorem elements_of_gathering {rs : List Ref}
    (reads : (Builtin.gathering bound r).Reads h (.ok rs)) : h.Elements r rs := by
  obtain ⟨l, forced, rest⟩ | ⟨_, _, no⟩ := Script.reads_bind_iff.1 reads
  · obtain ⟨all, walked, same⟩ | ⟨_, _, no⟩ := Script.reads_bind_iff.1 rest
    · obtain ⟨heads, rfl, elements⟩ :=
        elements_of_walk (Script.yields_of_reads_forceList forced) walked
      cases same
      simpa using elements
    · cases no
  · cases no

/-- A list that comes to its end has no fault on the way. -/
theorem not_walk_error {t : Ref} {heads gathered : List Ref} {e : Fault} (lists : h.Lists r heads t)
    (ends : h.Yields t (.list .nil)) :
    ¬ (forceList r >>= fun l => l.walk (fun heads head => pure (.yield (head :: heads))) bound
      gathered).Reads h (.error e) := by
  induction lists generalizing bound gathered with
  | nil =>
    intro reads
    obtain ⟨l, forced, rest⟩ | ⟨_, no, _⟩ := Script.reads_bind_iff.1 reads
    · cases Heap.yields_unique (Script.yields_of_reads_forceList forced) ends
      cases bound <;> cases rest
    · cases no.unique (Script.reads_forceList ends)
  | cons yields _ ih =>
    intro reads
    obtain ⟨l, forced, rest⟩ | ⟨_, no, _⟩ := Script.reads_bind_iff.1 reads
    · cases Heap.yields_unique (Script.yields_of_reads_forceList forced) yields
      cases bound with
      | zero => cases rest
      | succ bound => exact ih ends rest
    · cases no.unique (Script.reads_forceList yields)

theorem not_gathering_error {rs : List Ref} {e : Fault} (elements : h.Elements r rs) :
    ¬ (Builtin.gathering bound r).Reads h (.error e) := by
  obtain ⟨t, lists, ends⟩ := elements
  intro reads
  have walks : ((forceList r >>= fun l => l.walk (fun heads head => pure (.yield (head :: heads)))
      bound []) >>= fun reversed => (pure reversed.reverse : Script (List Ref))).Reads h
        (.error e) := by
    rw [bind_assoc]
    exact reads
  obtain ⟨_, _, no⟩ | ⟨_, walked, _⟩ := Script.reads_bind_iff.1 walks
  · cases no
  · exact not_walk_error lists ends walked

end LazyList

/-- The body of `rally` gathers the elements of a list, and opens a rally once it has them. -/
inductive Post.Collects (bound : Nat) (h : Heap) (arguments : Ref) : Stand → Prop
  | runs {rest : Script (List Ref)} {m : Script Outcome} (reader : rest.IsReader)
      (tells : ∀ h' o, h.Before h' → rest.Reads h' o →
        (Builtin.gathering bound arguments).Reads h' o)
      (here : m = rest >>= Builtin.rallyOf bound) : Collects bound h arguments (.runs m)
  | awaits {how : Demand} {r : Ref} {rest : Value → Script (List Ref)}
      {next : Value → Script Outcome} (reader : ∀ v, (rest v).IsReader)
      (tells : ∀ h' v o, h.Before h' → h'.Replies how r v → (rest v).Reads h' o →
        (Builtin.gathering bound arguments).Reads h' o)
      (here : next = fun v => rest v >>= Builtin.rallyOf bound) :
      Collects bound h arguments (.awaits how r next)

/-- What has come of a call of `rally` for a cell: it gathers the arguments, or has opened a rally for
    them, or the list of the arguments has a fault. -/
inductive Post.Called (bound : Nat) (s : Store) (posts : List Post) (K : Nat → Rally.Course)
    (d arguments : Ref) : Prop
  | collects {st : Stand} (member : (⟨d, st⟩ : Post) ∈ posts)
      (collects : Post.Collects bound s.heap arguments st) : Called bound s posts K d arguments
  | opened {id : Nat} {y : Rally} (found : s.rallies[id]? = some y) (root : (K id).root = d)
      (elements : s.heap.Elements arguments y.arguments.toList) :
      Called bound s posts K d arguments
  | failed {e : Fault} (reads : (Builtin.gathering bound arguments).Reads s.heap (.error e)) :
      Called bound s posts K d arguments

section
variable {E : Engine} {bound : Nat} {s s' : Store} {K K' : Nat → Rally.Course}
variable {before after ps ps' : List Post} {d arguments : Ref} {h h' : Heap} {st : Stand}

theorem Post.collects_rallyAll (bound : Nat) (h : Heap) (arguments : Ref) :
    Post.Collects bound h arguments (.runs (Builtin.rallyAll bound arguments)) := by
  refine .runs ?_ (fun h' o _ reads => reads) (Builtin.rallyAll_eq ..)
  exact (Script.isReader_forceList arguments).bind (LazyList.isReader_elements bound)

theorem Post.Collects.later (collects : Post.Collects bound h arguments st)
    (later : h.Before h') : Post.Collects bound h' arguments st := by
  cases collects with
  | runs reader tells here =>
    exact .runs reader (fun h'' o after => tells h'' o (later.trans after)) here
  | awaits reader tells here =>
    exact .awaits reader (fun h'' v o after => tells h'' v o (later.trans after)) here

/-- What becomes of a call that gathers its arguments when its turn comes. -/
theorem Post.Collects.goes (collects : Post.Collects E.bound s.heap arguments st)
    (goes : Post.Goes E ps s ps' s') (mine : (⟨d, st⟩ : Post) ∈ ps)
    (forcing : s.heap.state? d = some .forcing)
    (opened : ∀ d rs next, ps = [⟨d, .runs (.act (.openRally rs) next)⟩] →
      (K' s.rallies.size).root = d) :
    Post.Called E.bound s' (before ++ (ps' ++ after)) K' d arguments := by
  cases collects with
  | runs reader tells here =>
    cases reader with
    | done rs =>
      subst here
      cases goes with
      | act =>
        obtain ⟨rfl, same⟩ := Post.mk.inj (List.mem_singleton.1 mine)
        cases same
        refine @Post.Called.opened _ _ _ _ _ _ s.rallies.size (.ofRefs rs) (by simp [Store.act])
          (opened _ _ _ rfl) ?_
        exact LazyList.elements_of_gathering (tells _ (.ok rs) s.heap.before_refl .done)
      | _ => first | exact absurd mine List.not_mem_nil | cases List.mem_singleton.1 mine
    | raise e =>
      subst here
      cases goes with
      | fault =>
        cases List.mem_singleton.1 mine
        exact .failed (tells _ (.error e) (Heap.before_publish forcing _) .raise)
      | _ => first | exact absurd mine List.not_mem_nil | cases List.mem_singleton.1 mine
    | panic p =>
      subst here
      cases goes <;> first | exact absurd mine List.not_mem_nil | cases List.mem_singleton.1 mine
    | stall =>
      subst here
      cases goes <;> first | exact absurd mine List.not_mem_nil | cases List.mem_singleton.1 mine
    | demand how r rest =>
      subst here
      cases goes with
      | demand =>
        cases List.mem_singleton.1 mine
        refine .collects (List.mem_append_right _ List.mem_cons_self) (.awaits rest ?_ rfl)
        exact fun h' v o later replies reads => tells h' o later (.demand replies reads)
      | _ => first | exact absurd mine List.not_mem_nil | cases List.mem_singleton.1 mine
  | awaits reader tells here =>
    subst here
    cases goes with
    | resume replies =>
      cases List.mem_singleton.1 mine
      refine .collects (List.mem_append_right _ List.mem_cons_self) (.runs (reader _) ?_ rfl)
      exact fun h' o later reads => tells h' _ o later (later.replies replies) reads
    | perform answers =>
      cases List.mem_singleton.1 mine
      refine .collects (List.mem_append_right _ List.mem_cons_self) (.awaits reader ?_ rfl)
      exact fun h' v o later replies => tells h' v o later (answers h' v later replies)
    | _ => first | exact absurd mine List.not_mem_nil | cases List.mem_singleton.1 mine

/-- A turn keeps what is known of a call. -/
theorem Post.Called.goes (called : Post.Called E.bound s (before ++ (ps ++ after)) K d arguments)
    (goes : Post.Goes E ps s ps' s')
    (forcing : ∀ p ∈ before ++ (ps ++ after), s.heap.state? p.cell = some .forcing)
    (roots : ∀ id, id < s.rallies.size → (K' id).root = (K id).root)
    (opened : ∀ d rs next, ps = [⟨d, .runs (.act (.openRally rs) next)⟩] →
      (K' s.rallies.size).root = d) :
    Post.Called E.bound s' (before ++ (ps' ++ after)) K' d arguments := by
  have later := goes.later fun p mine => forcing p (by simp [mine])
  cases called with
  | @collects st member collects =>
    by_cases mine : (⟨d, st⟩ : Post) ∈ ps
    · exact collects.goes goes mine (forcing _ member) opened
    · refine .collects ?_ (collects.later later)
      simp only [List.mem_append] at member ⊢
      tauto
  | @opened id y found root elements =>
    obtain ⟨y', found', same⟩ := goes.rally found
    have bound := (Array.getElem?_eq_some_iff.1 found).1
    refine .opened found' ((roots id bound).trans root) ?_
    rw [same]
    exact elements.before later
  | failed reads => exact .failed (reads.before later)

end

/-! ### Threads -/

namespace Output
open Relation (ReflTransGen)

inductive Thread.Sound (s : Store) : Thread → Prop where
  | main {outputs : List Output} : Sound s (.main outputs)
  | acquire {cell : Ref} {next : Thread} (later : Sound s next) : Sound s (.acquire cell next)
  | walk {w : Runner LazyList} {tail : Ref} (sound : w.Sound s.heap (forceList tail)) :
      Sound s (.walk w)
  | reach {head tail : Ref} : Sound s (.reach head tail)
  | perform {w : Runner Unit} {cell : Ref} (sound : w.Sound s.heap (performCell cell)) :
      Sound s (.perform w)
  | leave : Sound s .leave
  | idle : Sound s (.work .idle)
  | force {job : Job} {w : Runner Value} (fits : job.Fits s)
      (sound : w.Sound s.heap (observe job.target)) : Sound s (.work (.force job w))
  | report {job : Job} (fits : job.Fits s) (forced : ∃ v, s.heap.Yields job.target v) :
      Sound s (.work (.report job))

section
variable {E : Engine} {t : Thread} {ts : List Thread} {x x' : Shared} {s s' : Store}

theorem Thread.owned_eq_posts (t : Thread) : t.owned = t.posts.map Post.cell := by
  induction t with
  | main | reach | leave => rfl
  | acquire cell next ih => exact ih
  | walk w => exact w.owned_eq_posts
  | perform w => exact w.owned_eq_posts
  | work w =>
    cases w with
    | force job w => exact w.owned_eq_posts
    | idle | report => rfl

theorem Thread.Sound.later (sound : t.Sound s) (later : s.heap.Before s'.heap)
    (arguments : ∀ id i r, s.Argument id i r → s'.Argument id i r) : t.Sound s' := by
  induction sound with
  | main => exact .main
  | acquire _ ih => exact .acquire ih
  | walk sound => exact .walk (sound.before later)
  | reach => exact .reach
  | perform sound => exact .perform (sound.before later)
  | leave => exact .leave
  | idle => exact .idle
  | force fits sound => exact .force (fits.later arguments) (sound.before later)
  | report fits forced =>
    obtain ⟨v, yields⟩ := forced
    exact .report (fits.later arguments) ⟨v, later.yields yields⟩

/-- After a turn of a thread: the threads that it goes on as, and their posts. -/
structure Thread.Turned (E : Engine) (t : Thread) (s : Store) (ts : List Thread) (s' : Store) :
    Prop where
  sound : ∀ t' ∈ ts, t'.Sound s'
  posts : Post.Turned E t.posts s (ts.flatMap Thread.posts) s'

theorem Thread.turned_still (free : t.posts = []) (sound : ∀ t' ∈ ts, t'.Sound s)
    (also_free : ∀ t' ∈ ts, t'.posts = []) : t.Turned E s ts s := by
  refine ⟨sound, [], [], [], free, ?_, .still⟩
  exact List.flatMap_eq_nil_iff.2 also_free

/-- The turn of a thread whose runner goes on. -/
theorem Thread.turned_runner {α : Type} {w w' : Runner α} {whole : Script α}
    {T : Runner α → Thread} (sound : w.Sound s.heap whole) (goes : w.Goes E s w' s')
    (forcing : s.heap.Forcing w.owned) (posts : ∀ w, (T w).posts = w.posts)
    (again : w'.Sound s'.heap whole → (T w').Sound s') :
    (T w).Turned E s [T w'] s' := by
  obtain ⟨sound', turned⟩ := sound.goes goes forcing
  refine ⟨?_, ?_⟩
  · intro t' member
    rw [List.mem_singleton.1 member]
    exact again sound'
  · simpa [posts] using turned

/-- Nothing that is observed is a fault of the observer. -/
theorem not_reads_observe_error {h : Heap} {r : Ref} {e : Fault} :
    ¬ (observe r).Reads h (.error e) := by
  intro reads
  obtain ⟨v, _, no⟩ := Script.reads_demand_iff.1 reads
  cases no

theorem Thread.turned_of_worker {w : Worker} {free : Nat} {failure : Option Fault}
    (turned : (Thread.work w).turn E ⟨s, free, failure⟩ = .goOn ts x')
    (sound : (Thread.work w).Sound s)
    (forcing : s.heap.Forcing w.owned) (jobs : ∀ job ∈ s.pool, job.Fits s) :
    (Thread.work w).Turned E s ts x'.store := by
  obtain ⟨ws, s', moved, rfl, rfl⟩ : ∃ ws s', w.turn E s = .goOn ws s' ∧ ts = ws.map .work ∧
      x' = ⟨s', free, failure⟩ := by
    simp only [Thread.turn] at turned
    cases moved : w.turn E s with
    | goOn ws s' =>
      rw [moved] at turned
      cases turned
      exact ⟨ws, s', rfl, rfl, rfl⟩
    | ask q ws s' => simp [moved, Turn.map] at turned
    | wait s' => simp [moved, Turn.map] at turned
  cases w with
  | idle =>
    simp only [Worker.turn] at moved
    split at moved
    · cases moved
    · next job found =>
      cases moved
      refine ⟨?_, [], [], [], rfl, rfl, .take⟩
      intro t' member
      rw [List.mem_singleton.1 member]
      exact .force (jobs job (Array.mem_of_getElem? found)) (Runner.sound_start (.demand _ _ .done) _)
  | force job w =>
    cases sound with
    | force fits sound =>
      simp only [Worker.turn] at moved
      rcases goes_of_turn moved with ⟨w', s₁, goes, rfl, rfl⟩ | ⟨v, rfl, ended⟩ | ⟨e, rfl, ended⟩
      · refine Thread.turned_runner (T := fun w => .work (.force job w)) sound goes forcing
          (fun _ => rfl) fun sound' => ?_
        obtain ⟨_, _, _, _, _, goes'⟩ := (sound.goes goes forcing).2
        exact .force (fits.later fun _ _ _ => goes'.argument) sound'
      · cases ended
        refine Thread.turned_still rfl ?_ (by simp [Thread.posts])
        intro t' member
        rw [List.mem_singleton.1 member]
        obtain ⟨u, replies, _⟩ := Script.reads_demand_iff.1 sound.tells.done
        obtain ⟨v, yields, _⟩ := Heap.replies_pure_iff.1 replies
        exact .report fits ⟨v, yields⟩
      · exact absurd sound.tells.raise not_reads_observe_error
  | report job =>
    cases sound with
    | report fits forced =>
      simp only [Worker.turn] at moved
      split at moved
      · next id i reports =>
        cases moved
        obtain ⟨v, yields⟩ := forced
        refine ⟨?_, [], [], [], rfl, rfl, .report ⟨_, v, fits id i reports, yields⟩⟩
        intro t' member
        rw [List.mem_singleton.1 member]
        exact .idle
      · cases moved
        exact Thread.turned_still rfl (by simp [Thread.Sound.idle]) (by simp [Thread.posts])

theorem Thread.turned_of_turn (turned : t.turn E x = .goOn ts x') (sound : t.Sound x.store)
    (forcing : x.store.heap.Forcing t.owned) (jobs : ∀ job ∈ x.store.pool, job.Fits x.store) :
    t.Turned E x.store ts x'.store := by
  obtain ⟨store, free, failure⟩ := x
  cases sound with
  | @main outputs =>
    cases outputs with
    | nil =>
      cases turned
      exact turned_still rfl nofun nofun
    | cons o outputs =>
      simp only [Thread.turn] at turned
      split at turned
      · cases turned
        exact turned_still rfl nofun nofun
      · split at turned
        · cases turned
          refine turned_still rfl ?_ (by simp [Thread.posts, Runner.posts])
          intro t' member
          rcases List.mem_pair.1 member with rfl | rfl
          · exact .walk (Runner.sound_start (Script.isReader_forceList o.cell) _)
          · exact .main
        · cases turned
          refine turned_still rfl ?_ (by simp [Thread.posts])
          intro t' member
          rw [List.mem_singleton.1 member]
          exact .acquire .main
  | @acquire cell next later =>
    simp only [Thread.turn] at turned
    split at turned
    · cases turned
    · cases turned
      refine ⟨?_, [], [], _, rfl, by simp [Thread.posts, Runner.posts], .still⟩
      intro t' member
      rcases List.mem_pair.1 member with rfl | rfl
      · exact .perform (Runner.sound_start (isReader_performCell cell) _)
      · exact later
  | walk sound =>
    simp only [Thread.turn] at turned
    rcases goes_of_turn turned with ⟨w', s', goes, rfl, rfl⟩ | ⟨l, rfl, ended⟩ | ⟨e, rfl, ended⟩
    · exact turned_runner sound goes forcing (fun _ => rfl) .walk
    · cases l with
      | nil =>
        cases ended
        exact turned_still rfl nofun nofun
      | cons head tail =>
        cases ended
        exact turned_still rfl (by simp [Sound.reach]) (by simp [Thread.posts])
    · cases ended
      exact turned_still rfl nofun nofun
  | @reach head tail =>
    simp only [Thread.turn] at turned
    split at turned
    · cases turned
      exact turned_still rfl nofun nofun
    · cases turned
      refine turned_still rfl ?_ (by simp [Thread.posts, Runner.posts])
      intro t' member
      rw [List.mem_singleton.1 member]
      exact .acquire (.walk (Runner.sound_start (Script.isReader_forceList tail) _))
  | perform sound =>
    simp only [Thread.turn] at turned
    rcases goes_of_turn turned with ⟨w', s', goes, rfl, rfl⟩ | ⟨_, rfl, ended⟩ | ⟨e, rfl, ended⟩
    · exact turned_runner sound goes forcing (fun _ => rfl) .perform
    · cases ended
      exact turned_still rfl (by simp [Sound.leave]) (by simp [Thread.posts])
    · cases ended
      exact turned_still rfl (by simp [Sound.leave]) (by simp [Thread.posts])
  | leave =>
    cases turned
    exact turned_still rfl nofun nofun
  | idle => exact turned_of_worker turned .idle forcing jobs
  | force fits sound => exact turned_of_worker turned (.force fits sound) forcing jobs
  | report fits forced => exact turned_of_worker turned (.report fits forced) forcing jobs

theorem Thread.turned_of_ask {q : Request} {next : q.Answer → List Thread}
    (turned : t.turn E x = .ask q next x') (sound : t.Sound x.store)
    (forcing : x.store.heap.Forcing t.owned) (a : q.Answer) :
    t.Turned E x.store (next a) x'.store := by
  obtain ⟨store, free, failure⟩ := x
  cases sound with
  | @main outputs =>
    cases outputs with
    | nil => cases turned
    | cons o outputs =>
      simp only [Thread.turn] at turned
      split at turned <;> try split at turned
      all_goals cases turned
  | acquire =>
    simp only [Thread.turn] at turned
    split at turned <;> cases turned
  | walk sound =>
    simp only [Thread.turn] at turned
    obtain ⟨w', s', goes, same, rfl⟩ := goes_of_turn_ask (fun o y => by
      rcases o with e | l
      · exact ⟨_, _, rfl⟩
      · cases l <;> exact ⟨_, _, rfl⟩) turned a
    rw [same]
    exact turned_runner sound goes forcing (fun _ => rfl) .walk
  | reach =>
    simp only [Thread.turn] at turned
    split at turned <;> cases turned
  | perform sound =>
    simp only [Thread.turn] at turned
    obtain ⟨w', s', goes, same, rfl⟩ := goes_of_turn_ask (fun o y => by
      cases o <;> exact ⟨_, _, rfl⟩) turned a
    rw [same]
    exact turned_runner sound goes forcing (fun _ => rfl) .perform
  | leave => cases turned
  | idle =>
    simp only [Thread.turn, Worker.turn] at turned
    split at turned <;> cases turned
  | @force job w fits sound =>
    simp only [Thread.turn] at turned
    cases moved : (Worker.force job w).turn E store with
    | goOn ws s => simp [moved, Turn.map] at turned
    | wait s => simp [moved, Turn.map] at turned
    | ask q' ws s =>
      rw [moved] at turned
      cases turned
      simp only [Worker.turn] at moved
      obtain ⟨w', s', goes, same, rfl⟩ := goes_of_turn_ask (fun _ _ => ⟨_, _, rfl⟩) moved a
      simp only [same]
      refine turned_runner (T := fun w => .work (.force job w)) sound goes forcing
        (fun _ => rfl) fun sound' => ?_
      obtain ⟨_, _, _, _, _, goes'⟩ := (sound.goes goes forcing).2
      exact .force (fits.later fun _ _ _ => goes'.argument) sound'
  | report =>
    simp only [Thread.turn, Worker.turn] at turned
    split at turned <;> cases turned

end

/-! ### A whole run -/

/-- What is true at every moment of a run. -/
structure Rallied (E : Engine) (threads : List Thread) (s : Store) (K : Nat → Rally.Course) :
    Prop where
  sound : ∀ t ∈ threads, t.Sound s
  rallying : Rallying E.bound s (threads.flatMap Thread.posts) K

/-- The calls of `rally` that the store and the courses know of are known of at a later moment. -/
def KeepsCalls (E : Engine) (a b : List Thread × Shared × World) (K K' : Nat → Rally.Course) :
    Prop :=
  ∀ d arguments, Post.Called E.bound a.2.1.store (a.1.flatMap Thread.posts) K d arguments →
    Post.Called E.bound b.2.1.store (b.1.flatMap Thread.posts) K' d arguments

theorem rallied_of_turned {E : Engine} {before after ts : List Thread} {t : Thread} {s s' : Store}
    {K : Nat → Rally.Course} (rallied : Rallied E (before ++ t :: after) s K)
    (turned : t.Turned E s ts s') :
    ∃ K', Rallied E (before ++ ts ++ after) s' K' ∧ ∀ d arguments,
      Post.Called E.bound s ((before ++ t :: after).flatMap Thread.posts) K d arguments →
      Post.Called E.bound s' ((before ++ ts ++ after).flatMap Thread.posts) K' d arguments := by
  obtain ⟨sound, ps, ps', rest, all, all', goes⟩ := turned
  have posts : (before ++ t :: after).flatMap Thread.posts =
      before.flatMap Thread.posts ++ (ps ++ (rest ++ after.flatMap Thread.posts)) := by
    simp [all]
  have posts' : (before ++ ts ++ after).flatMap Thread.posts =
      before.flatMap Thread.posts ++ (ps' ++ (rest ++ after.flatMap Thread.posts)) := by
    simp [all']
  have rallying := rallied.rallying
  rw [posts] at rallying
  obtain ⟨K', now, roots, opened⟩ := rallying.goes goes
  have later := goes.later fun p mine => rallying.forcing p (by simp [mine])
  refine ⟨K', ⟨fun t' member => ?_, posts' ▸ now⟩, fun d arguments called => ?_⟩
  · simp only [List.mem_append] at member
    rcases member with (left | new) | right
    · exact (rallied.sound t' (by simp [left])).later later fun _ _ _ => goes.argument
    · exact sound t' new
    · exact (rallied.sound t' (by simp [right])).later later fun _ _ _ => goes.argument
  · rw [posts] at called
    rw [posts']
    exact called.goes goes rallying.forcing roots opened

/-- One turn of one thread of a run. -/
theorem rallied_of_step {E : Engine} {a b : List Thread × Shared × World}
    {K : Nat → Rally.Course} (rallied : Rallied E a.1 a.2.1.store K)
    (step : Crew.Step (Thread.turn E) a b) :
    ∃ K', Rallied E b.1 b.2.1.store K' ∧ KeepsCalls E a b K K' := by
  have forcing {t : Thread} (member : t ∈ a.1) : a.2.1.store.heap.Forcing t.owned := by
    intro r mine
    rw [t.owned_eq_posts] at mine
    obtain ⟨p, post, rfl⟩ := List.mem_map.1 mine
    exact rallied.rallying.forcing p (List.mem_flatMap.2 ⟨t, member, post⟩)
  cases step with
  | @goOn t x x' ts before after w turned =>
    have member : t ∈ before ++ t :: after := by simp
    exact rallied_of_turned rallied (Thread.turned_of_turn turned (rallied.sound t member)
      (forcing member) rallied.rallying.jobs)
  | @ask t x x' q ts before after w turned =>
    have member : t ∈ before ++ t :: after := by simp
    exact rallied_of_turned rallied (Thread.turned_of_ask turned (rallied.sound t member)
      (forcing member) _)

end Output
end CallByNeed
