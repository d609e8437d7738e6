import CallByNeed.Proofs.Outputs.Shares
import Mathlib.Data.List.Nodup
import Mathlib.Data.List.Perm.Subperm

/- Outputs start once. In every run of a list of outputs, in whatever order its threads take turns,
   permits are neither lost nor made, no item is started twice, a run without a failure has started
   all there is to start, and a failure is the first fault that has come up. -/
namespace CallByNeed
namespace Output

/-- What a run has come to, once only workers are left. -/
def verdict (threads : List Thread) (x : Shared) : Option (Except Fault Unit) :=
  if threads.any fun t => !t.isWorker then none
  else
    match x.failure with
    | some e => some (.error e)
    | none => some (.ok ())

/-- Everything in the list of outputs has been started: each plain output, and of each expanded one
    all the elements and nothing else. -/
def Journal.Completes (x : Journal) (outputs : List Output) : Prop :=
  ∀ (place : Nat) (o : Output), outputs[place]? = some o →
    if o.expanded then
      ∃ heads, x.shared.store.heap.Elements o.cell heads ∧ ∀ (index : Nat) (cell : Ref),
        heads[index]? = some cell ↔ (Item.element place index, cell) ∈ x.begun
    else (Item.output place, o.cell) ∈ x.begun

/-- What is true of a run at any moment, by its journal. -/
structure Orderly (outputs : List Output) (limit : Nat) (threads : List Thread) (x : Journal) :
    Prop where
  /-- Permits are free or held, and no more are held than there are. -/
  permits : x.shared.free + threads.countP Thread.holdsPermit = limit
  holders : threads.countP Thread.holdsPermit ≤ limit
  /-- Each item has been started once at most, by the cell that it is. -/
  once : (x.begun.map Prod.fst).Nodup
  names : ∀ p ∈ x.begun, p.1.Names outputs x.shared.store.heap p.2
  /-- A run that ends well has started everything, and nothing has come to a fault. -/
  complete : verdict threads x.shared = some (.ok ()) →
    x.Completes outputs ∧
      ∀ p ∈ x.begun, (performCell p.2).Reads x.shared.store.heap (.ok ())
  /-- The fault of a run is the first one noted; an item that was started has come to it, or the walk
      of an expanded output. -/
  faulty : ∀ e, verdict threads x.shared = some (.error e) →
    ∃ before duty after, x.ended = before ++ (duty, .error e) :: after ∧
      (∀ p ∈ before, p.2 = .ok ()) ∧ duty.Ends outputs x (.error e)

section
variable {E : Engine} {outputs : List Output} {permits n : Nat} {ts : List Noted} {x : Journal}

theorem kept_start (outputs : List Output) (permits : Nat) (s : Store) :
    Kept outputs (notedCrew outputs) { shared := .start permits s } ∧
      Shares outputs (max permits 1) (notedCrew outputs) { shared := .start permits s } := by
  have idle : (notedCrew outputs).flatMap (·.thread.owned) = [] := by
    refine List.flatMap_eq_nil_iff.2 fun t member => ?_
    rcases List.mem_cons.1 member with rfl | worker
    · rfl
    · rw [List.eq_of_mem_replicate worker]
      rfl
  have shares (item : Item) :
      share item (notedCrew outputs) { shared := .start permits s } = 1 := by
    simp [share, notedCrew, Mark.share, Journal.started]
  constructor
  · constructor
    case apart => simp [idle]
    case forcing => simp [idle, Heap.Forcing]
    case fits =>
      intro t member
      rcases List.mem_cons.1 member with rfl | worker
      · exact (.main : Fits outputs _ _ (.main (outputs.drop 0)) (.main 0))
      · rw [List.eq_of_mem_replicate worker]
        exact .work
    case names | runs | ends => simp
    case failure => rfl
  · constructor
    case permits =>
      have none : (notedCrew outputs).countP (·.thread.holdsPermit) = 0 := by
        simp [notedCrew, Thread.holdsPermit, List.countP_eq_zero]
      rw [none]
      rfl
    case once => exact fun item => (shares item).le
    case wanted => exact fun _ item _ => (shares item).ge

/-- What is true after every turn of a run. -/
theorem kept_of_run {noted : Nat → List Noted × Journal × World} {s : Store} {w : World}
    (first : noted 0 = (notedCrew outputs, { shared := .start permits s }, w))
    (steps : Crew.IsRun (Noted.turn E) noted n) :
    ∀ i ≤ n, Kept outputs (noted i).1 (noted i).2.1 ∧
      Shares outputs (max permits 1) (noted i).1 (noted i).2.1 := by
  intro i
  induction i with
  | zero =>
    intro _
    rw [first]
    exact kept_start outputs permits s
  | succ i ih =>
    intro bound
    obtain ⟨kept, shares⟩ := ih (by omega)
    obtain ⟨before, t, after, ts, parts, parts', goes⟩ :=
      Noted.goes_of_step kept (steps i (by omega))
    rw [parts] at kept shares
    rw [parts']
    have fits := kept.fits t (by simp)
    exact ⟨kept_of_goes kept goes, shares_of_goes shares goes fits (later_of_goes kept goes)⟩

/-- Without a failure and with nobody left to start it, what is wanted has been started. -/
theorem started_of_wanted (kept : Kept outputs ts x) (shares : Shares outputs permits ts x)
    (fine : x.shared.failure = none) (left : ∀ t ∈ ts, t.thread.isWorker) {item : Item}
    (wanted : item.Wanted outputs x.shared.store.heap) : ∃ cell, (item, cell) ∈ x.begun := by
  have nobody : (ts.map (·.mark.share item)).sum = 0 := by
    refine List.sum_eq_zero_iff_forall_eq_nat.2 fun n member => ?_
    obtain ⟨t, mine, rfl⟩ := List.mem_map.1 member
    obtain ⟨thread, mark⟩ := t
    have fits := kept.fits _ mine
    have worker := left _ mine
    cases fits with
    | work => rfl
    | _ => cases worker
  have least := shares.wanted fine item wanted
  rw [share, nobody, Nat.zero_add, Journal.started, Nat.one_le_iff_ne_zero,
    ← Nat.pos_iff_ne_zero, List.count_pos_iff] at least
  obtain ⟨p, member, rfl⟩ := List.mem_map.1 least
  exact ⟨p.2, member⟩

/-- A list with infinitely many elements to start cannot have been walked to its end. -/
theorem exists_elements {place : Nat} {list : Ref} (expanded : outputs[place]? = some ⟨list, true⟩)
    (started : ∀ item : Item, item.Wanted outputs x.shared.store.heap →
      ∃ cell, (item, cell) ∈ x.begun) : ∃ heads, x.shared.store.heap.Elements list heads := by
  by_contra endless
  have all (index : Nat) : Item.element place index ∈ x.begun.map Prod.fst := by
    obtain ⟨cell, begun⟩ := started (.element place index)
      (.element expanded fun heads elements => absurd ⟨heads, elements⟩ endless)
    exact List.mem_map.2 ⟨_, begun, rfl⟩
  have many : ((List.range (x.begun.length + 1)).map (Item.element place)).Nodup :=
    List.Nodup.map (fun i j same => by simpa using same) List.nodup_range
  have fits : (List.range (x.begun.length + 1)).map (Item.element place) ⊆
      x.begun.map Prod.fst := by
    intro item member
    obtain ⟨index, _, rfl⟩ := List.mem_map.1 member
    exact all index
  have short := (List.subperm_of_subset many fits).length_le
  simp only [List.length_map, List.length_range] at short
  omega

theorem completes_of_kept (kept : Kept outputs ts x) (shares : Shares outputs permits ts x)
    (fine : x.shared.failure = none) (left : ∀ t ∈ ts, t.thread.isWorker) :
    x.Completes outputs := by
  have started {item : Item} (wanted : item.Wanted outputs x.shared.store.heap) :=
    started_of_wanted kept shares fine left wanted
  rintro place ⟨cell, expanded⟩ found
  cases expanded with
  | false =>
    obtain ⟨cell', begun⟩ := started (.output found)
    cases kept.names _ begun with
    | output found' =>
      rw [found] at found'
      cases found'
      exact begun
  | true =>
    obtain ⟨heads, elements⟩ := exists_elements found fun _ => started
    have place_of {index : Nat} {cell' : Ref} (begun : (Item.element place index, cell') ∈ x.begun) :
        heads[index]? = some cell' := by
      cases kept.names _ begun with
      | element found' lists =>
        rw [found] at found'
        cases found'
        obtain ⟨rest, rfl⟩ := lists.prefix_of_elements elements
        simp
    refine ⟨heads, elements, fun index cell' => ⟨fun known => ?_, place_of⟩⟩
    have within : ∀ heads', x.shared.store.heap.Elements cell heads' → index < heads'.length := by
      intro heads' elements'
      obtain ⟨t, lists, _⟩ := elements
      have more := (lists.prefix_of_elements elements').length_le
      have bound := (List.getElem?_eq_some_iff.1 known).1
      omega
    obtain ⟨cell'', begun⟩ := started (.element found within)
    have same := place_of begun
    rw [known] at same
    cases same
    exact begun

theorem nodup_begun (shares : Shares outputs permits ts x) : (x.begun.map Prod.fst).Nodup := by
  refine List.nodup_iff_count_le_one.2 fun item => ?_
  have once := shares.once item
  simp only [share, Journal.started] at once
  omega

theorem ok_of_firstFault {ended : List (Duty × Except Fault Unit)} (fine : firstFault ended = none) :
    ∀ p ∈ ended, p.2 = .ok () := by
  rintro ⟨duty, o⟩ member
  have none := List.findSome?_eq_none_iff.1 fine _ member
  cases o with
  | ok _ => rfl
  | error e => cases none

/-- Without a failure all that has been started has been performed without a fault. -/
theorem reads_of_kept (kept : Kept outputs ts x) (shares : Shares outputs permits ts x)
    (fine : x.shared.failure = none) (left : ∀ t ∈ ts, t.thread.isWorker) :
    ∀ p ∈ x.begun, (performCell p.2).Reads x.shared.store.heap (.ok ()) := by
  rintro ⟨item, cell⟩ member
  rcases kept.runs _ member with ⟨w, running⟩ | ⟨o, ended⟩
  · cases left _ running
  · have ok := ok_of_firstFault (kept.failure.symm.trans fine) _ ended
    cases kept.ends _ ended with
    | @item _ cell' _ started reads =>
      have same := List.inj_on_of_nodup_map (nodup_begun shares) started member rfl
      cases same
      rw [← show o = .ok () from ok]
      exact reads

theorem exists_of_firstFault {ended : List (Duty × Except Fault Unit)} {e : Fault}
    (first : firstFault ended = some e) :
    ∃ before duty after, ended = before ++ (duty, .error e) :: after ∧
      ∀ p ∈ before, p.2 = .ok () := by
  obtain ⟨before, ⟨duty, o⟩, after, parts, fault, fine⟩ := List.findSome?_eq_some_iff.1 first
  cases o with
  | ok _ => cases fault
  | error e' =>
    cases fault
    exact ⟨before, duty, after, parts, ok_of_firstFault (List.findSome?_eq_none_iff.2 fine)⟩

theorem verdict_eq_some {threads : List Thread} {x : Shared} {o : Except Fault Unit}
    (ended : verdict threads x = some o) :
    (∀ t ∈ threads, t.isWorker) ∧
      (o = .ok () ∧ x.failure = none ∨ ∃ e, o = .error e ∧ x.failure = some e) := by
  unfold verdict at ended
  split at ended
  · cases ended
  · next left =>
    have workers : ∀ t ∈ threads, t.isWorker := by simpa using left
    refine ⟨workers, ?_⟩
    split at ended
    · next e failed =>
      cases ended
      exact .inr ⟨e, rfl, failed⟩
    · next fine =>
      cases ended
      exact .inl ⟨rfl, fine⟩

theorem orderly_of_kept (kept : Kept outputs ts x) (shares : Shares outputs permits ts x) :
    Orderly outputs permits (ts.map Noted.thread) x := by
  have workers (left : ∀ t ∈ ts.map Noted.thread, t.isWorker) : ∀ t ∈ ts, t.thread.isWorker :=
    fun t member => left _ (List.mem_map.2 ⟨t, member, rfl⟩)
  have permits : x.shared.free + (ts.map Noted.thread).countP Thread.holdsPermit = permits := by
    rw [List.countP_map]
    exact shares.permits
  constructor
  case permits => exact permits
  case holders => omega
  case once => exact nodup_begun shares
  case names => exact kept.names
  case complete =>
    intro ended
    obtain ⟨left, ⟨_, fine⟩ | ⟨e, no, _⟩⟩ := verdict_eq_some ended
    · exact ⟨completes_of_kept kept shares fine (workers left),
        reads_of_kept kept shares fine (workers left)⟩
    · cases no
  case faulty =>
    intro e ended
    obtain ⟨_, ⟨no, _⟩ | ⟨e', same, failed⟩⟩ := verdict_eq_some ended
    · cases no
    · cases same
      obtain ⟨before, duty, after, parts, fine⟩ :=
        exists_of_firstFault (kept.failure.symm.trans failed)
      refine ⟨before, duty, after, parts, fine, kept.ends (duty, .error e) ?_⟩
      simp [parts]

end

theorem runAll_eq {m : Type → Type} [Monad m] [LawfulMonad m] [Host m] (E : Engine)
    (fuel permits : Nat) (outputs : List Output) (s : Store) :
    (runAll E fuel permits outputs s : m _) =
      Crew.run (Thread.turn E) Thread.isPrompt (fun threads => threads.any fun t => !t.isWorker)
        fuel (crew outputs) (.start permits s) >>= fun b => pure (verdict b.1 b.2) := by
  unfold runAll
  dsimp only
  congr
  funext b
  unfold verdict
  split
  · rfl
  · cases b.2.failure <;> rfl

/-- Whatever a whole run answers is the verdict at the end of one of the runs. -/
theorem exists_run_of_runAll {E : Engine} {fuel permits : Nat} {outputs : List Output} {s : Store}
    {w w' : World} {o : Except Fault Unit}
    (ran : (runAll E fuel permits outputs s : StateM World _) w = (some o, w')) :
    ∃ run n, run 0 = (crew outputs, .start permits s, w) ∧ Crew.IsRun (Thread.turn E) run n ∧
      verdict (run n).1 (run n).2.1 = some o := by
  rw [runAll_eq] at ran
  obtain ⟨play, is_play⟩ : ∃ play,
      (Crew.run (Thread.turn E) Thread.isPrompt (fun threads => threads.any fun t => !t.isWorker)
        fuel (crew outputs) (.start permits s) : StateM World _) = play := ⟨_, rfl⟩
  rw [is_play] at ran
  obtain ⟨⟨⟨left, x⟩, w₁⟩, ended⟩ : ∃ b, play w = b := ⟨_, rfl⟩
  have answer : verdict left x = some o := by
    change (verdict (play w).1.1 (play w).1.2, (play w).2) = (some o, w') at ran
    rw [ended] at ran
    exact congrArg Prod.fst ran
  rw [← is_play] at ended
  obtain ⟨run, n, first, last, steps⟩ :=
    Crew.exists_isRun_of_runs (Crew.runs_of_run Thread.shared_of_turn_wait ended)
  exact ⟨run, n, first, steps, by rw [last]; exact answer⟩

/-- For every list of outputs, every number of permits and every order of turns, the run can be noted
    so that it is orderly at every moment. -/
theorem outputs_start_once (E : Engine) (permits : Nat) (outputs : List Output) (s : Store)
    {run : Nat → List Thread × Shared × World} {n : Nat} {w : World}
    (first : run 0 = (crew outputs, .start permits s, w))
    (steps : Crew.IsRun (Thread.turn E) run n) :
    ∃ noted : Nat → List Noted × Journal × World,
      noted 0 = (notedCrew outputs, { shared := .start permits s }, w) ∧
      Crew.IsRun (Noted.turn E) noted n ∧
      ∀ i ≤ n, unnoted (noted i) = run i ∧
        Orderly outputs (max permits 1) (run i).1 (noted i).2.1 := by
  obtain ⟨noted, start, noted_steps, same⟩ := exists_noted first steps
  refine ⟨noted, start, noted_steps, fun i bound => ?_⟩
  obtain ⟨kept, shares⟩ := kept_of_run start noted_steps i bound
  have erased := same i bound
  refine ⟨erased, ?_⟩
  rw [← erased]
  exact orderly_of_kept kept shares

/-- An effect that gives a number, and a list of one element that is the same cell. -/
def twiceStore : Store :=
  { heap := ⟨#[.ofValue (.effect ⟨1⟩), .ofValue (.number .one),
      .ofValue (.list (.cons ⟨0⟩ ⟨3⟩)), .ofValue (.list .nil)]⟩ }

/-- The effect is an output by itself and the element of another one. -/
def twiceOutputs : List Output := [⟨⟨0⟩, false⟩, ⟨⟨2⟩, true⟩]

/-- The main loop starts the effect and the walker; the effect ends before the walker's first turn. -/
def twiceRun : Nat → List Thread × Shared × World :=
  Crew.followed (Thread.turn { bound := 1 }) (0 :: 0 :: 1 :: List.replicate 25 0)
    (crew twiceOutputs, .start 0 twiceStore, {})

/-- The cell is performed twice, under one permit although none was granted. -/
theorem outputs_start_once_of_twice :
    Crew.IsRun (Thread.turn { bound := 1 }) twiceRun 28 ∧
      verdict (twiceRun 28).1 (twiceRun 28).2.1 = some (.ok ()) ∧
      ∃ x, x.shared = (twiceRun 28).2.1 ∧ Orderly twiceOutputs 1 (twiceRun 28).1 x ∧
        (.output 0, ⟨0⟩) ∈ x.begun ∧ (.element 1 0, ⟨0⟩) ∈ x.begun := by
  have steps : Crew.IsRun (Thread.turn { bound := 1 }) twiceRun 28 :=
    Crew.isRun_of_follow _ _ _ rfl
  have ended : verdict (twiceRun 28).1 (twiceRun 28).2.1 = some (.ok ()) := rfl
  obtain ⟨noted, _, _, moments⟩ := outputs_start_once _ 0 twiceOutputs twiceStore rfl steps
  obtain ⟨erased, orderly⟩ := moments 28 (Nat.le_refl 28)
  have same : (noted 28).2.1.shared = (twiceRun 28).2.1 := by
    rw [← erased]
    rfl
  have complete := (orderly.complete (by rw [same]; exact ended)).1
  refine ⟨steps, ended, _, same, orderly, complete 0 _ rfl, ?_⟩
  obtain ⟨heads, elements, begun⟩ := complete 1 _ rfl
  rw [same] at elements
  have lists : (twiceRun 28).2.1.store.heap.Lists ⟨2⟩ [⟨0⟩] ⟨3⟩ := .cons ⟨⟨2⟩, .refl, rfl⟩ .nil
  obtain ⟨rest, rfl⟩ := lists.prefix_of_elements elements
  exact (begun 0 ⟨0⟩).1 rfl

end Output
end CallByNeed
