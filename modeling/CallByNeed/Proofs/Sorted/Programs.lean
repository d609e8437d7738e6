import CallByNeed.Proofs.Outputs.Kept
import CallByNeed.Proofs.Safety.Loading
import CallByNeed.Proofs.Sorted.Runs

/- Sorted dictionaries in programs. Loading makes no dictionary at all, and no turn of a thread makes
   one that is not sorted; so whatever a program has come to, all dictionaries in its heap are
   sorted. -/
namespace CallByNeed
open Script

/-! ### Loading -/

namespace Heap
variable {h h' : Heap}

/-- Cells that a script makes, if it makes nothing else. -/
theorem Sorted.of_built {α : Type} {script : Script α} {a : α} (sorted : h.Sorted)
    (neat : script.Neat) (built : script.built h = some (a, h')) : h'.Sorted := by
  induction script generalizing h with
  | done b =>
    cases built
    exact sorted
  | act action next ih =>
    cases action with
    | alloc c =>
      obtain ⟨_, built⟩ := Cell.not_isAction_of_built built
      exact ih _ (sorted.alloc neat.1) (neat.2 _) built
    | _ => cases built
  | _ => cases built

theorem Sorted.fillAll (sorted : h.Sorted) (handles targets : List Ref) :
    (Program.fillAll handles targets h).Sorted := by
  induction handles generalizing targets h with
  | nil => simpa [Program.fillAll] using sorted
  | cons handle handles ih =>
    cases targets with
    | nil => simpa [Program.fillAll] using sorted
    | cons target targets =>
      rw [Program.fillAll]
      exact ih (sorted.fill handle target) targets

end Heap

theorem Signature.neat_shareHalf (h : Half Expr) : (shareHalf h : Script (Half Default)).Neat := by
  refine (neat_mapM (fun o => ?_) h.optionals).bind fun _ => neat_pure _
  exact (Expr.neat_interpret [] o.2).bind fun _ => neat_pure _

theorem Signature.neat_share (s : Signature Expr) : (s.share : Script (Signature Default)).Neat :=
  (neat_shareHalf s.positional).bind fun _ => (neat_shareHalf s.keyword).bind fun _ => neat_pure _

namespace Program

theorem neat_build (m : Meaning) : (build m : Script Ref).Neat := by
  cases m with
  | «variable» value => exact Expr.neat_interpret [] value
  | function name signature bindings result =>
    refine (Signature.neat_share signature).bind fun s => ?_
    exact neat_allocValue (v := .function { name, signature := s, body := .code bindings result })
      trivial

theorem Stages.sorted {p : Program} {m : Module} {h h₁ h₂ h₃ : Heap} {meanings : List Meaning}
    {outputs : List (Expr × Bool)} {cells : List Ref}
    (stages : Stages p m h meanings outputs cells h₁ h₂ h₃) : h.Sorted := by
  have handles : h₁.Sorted := by
    intro r c known
    by_cases mine : r ∈ m.definitions.map Prod.snd
    · cases (stages.handled.vacant r mine).symm.trans known
      trivial
    · cases (stages.handled.others r mine).symm.trans known
  have definitions : (meanings.mapM build : Script (List Ref)).Neat := neat_mapM neat_build meanings
  have expressions : (outputs.mapM fun o => do
      pure { cell := ← o.1.interpret [], expanded := o.2 } : Script (List Output)).Neat := by
    refine neat_mapM (fun o => ?_) outputs
    exact (Expr.neat_interpret [] o.1).bind fun _ => neat_pure _
  rw [stages.filled]
  exact ((handles.of_built definitions stages.built).of_built expressions stages.made).fillAll _ _

theorem sorted_of_load {p : Program} {m : Module} {h : Heap} (loaded : p.load {} = .ok (m, h)) :
    h.Sorted := by
  obtain ⟨_, _, _, _, _, _, stages⟩ := stages_of_load loaded
  exact stages.sorted

end Program

/-! ### Turns -/

theorem Runner.Goes.sorts {α : Type} {post : α → Prop} {E : Engine} {w w' : Runner α}
    {s s' : Store} (goes : w.Goes E s w' s') (heap : s.heap.Sorted) (sorts : w.Sorts post) :
    s'.heap.Sorted ∧ w'.Sorts post := by
  rcases goes with advance | ⟨q, next, a, asks, rfl⟩
  · exact advance.sorts heap sorts
  · obtain ⟨rfl, sorts⟩ := sorts.ask asks a
    exact ⟨heap, sorts⟩

/-- The turn of a runner's thread goes on with the runner, or its script has come to an end. -/
theorem Runner.Sorts.of_turn {α τ σ : Type} {post : α → Prop} {E : Engine} {thread : Runner α → τ}
    {share : Store → σ} {finish : Except Fault α → σ → Turn τ σ} {w : Runner α} {s : Store}
    {threads : List τ} {x : σ} (sorts : w.Sorts post) (heap : s.heap.Sorted)
    (turned : w.turn E thread share finish s = .goOn threads x) :
    (∃ w' s', (s'.heap.Sorted ∧ w'.Sorts post) ∧ threads = [thread w'] ∧ x = share s') ∨
      ∃ o, finish o (share s) = .goOn threads x := by
  rcases Output.goes_of_turn turned with ⟨w', s', goes, more, same⟩ | ⟨a, _, ended⟩ | ⟨e, _, ended⟩
  · exact .inl ⟨w', s', goes.sorts heap sorts, more, same⟩
  · exact .inr ⟨.ok a, ended⟩
  · exact .inr ⟨.error e, ended⟩

namespace Output

/-- What the thread forces or performs makes sorted dictionaries only. -/
def Thread.Sorts : Thread → Prop
  | .acquire _ next => next.Sorts
  | .walk w => w.Sorts fun _ => True
  | .perform w => w.Sorts fun _ => True
  | .work (.force _ w) => w.Sorts fun _ => True
  | _ => True

structure Sorted (threads : List Thread) (s : Store) : Prop where
  heap : s.heap.Sorted
  threads : ∀ t ∈ threads, t.Sorts

section
variable {E : Engine} {t : Thread} {threads : List Thread} {x x' : Shared} {s s' : Store}

theorem sorted_none (heap : s.heap.Sorted) : Sorted [] s := ⟨heap, by simp⟩

theorem sorted_one (heap : s.heap.Sorted) (sorts : t.Sorts) : Sorted [t] s :=
  ⟨heap, by simpa using sorts⟩

theorem sorted_two {u : Thread} (heap : s.heap.Sorted) (sorts : t.Sorts) (others : u.Sorts) :
    Sorted [t, u] s :=
  ⟨heap, by simpa using And.intro sorts others⟩

theorem sorted_of_worker {w : Worker} {ws : List Worker} (turned : w.turn E s = .goOn ws s')
    (heap : s.heap.Sorted) (sorts : (Thread.work w).Sorts) : Sorted (ws.map .work) s' := by
  cases w with
  | idle =>
    simp only [Worker.turn] at turned
    split at turned
    · cases turned
    · cases turned
      exact sorted_one heap (.ready (sorts_observe _).neat)
  | force job w =>
    simp only [Worker.turn] at turned
    rcases sorts.of_turn heap turned with ⟨w', s₁, ⟨heap, sorts⟩, rfl, rfl⟩ | ⟨o, ended⟩
    · exact sorted_one heap sorts
    · cases ended
      exact sorted_one heap trivial
  | report job =>
    simp only [Worker.turn] at turned
    split at turned <;> cases turned <;> exact sorted_one heap trivial

theorem sorted_of_goOn (turned : t.turn E x = .goOn threads x') (heap : x.store.heap.Sorted)
    (sorts : t.Sorts) : Sorted threads x'.store := by
  obtain ⟨store, free, failure⟩ := x
  cases t with
  | main outputs =>
    cases outputs with
    | nil =>
      cases turned
      exact sorted_none heap
    | cons o outputs =>
      simp only [Thread.turn] at turned
      split at turned
      · cases turned
        exact sorted_none heap
      · split at turned <;> cases turned
        · exact sorted_two heap (.ready (neat_forceList _)) trivial
        · exact sorted_one heap trivial
  | acquire cell next =>
    cases free with
    | zero => cases turned
    | succ free =>
      cases turned
      exact sorted_two heap (.ready (isReader_performCell cell).neat) sorts
  | walk w =>
    simp only [Thread.turn] at turned
    rcases sorts.of_turn heap turned with ⟨w', s₁, ⟨heap, sorts⟩, rfl, rfl⟩ | ⟨e | l, ended⟩
    · exact sorted_one heap sorts
    · cases ended
      exact sorted_none heap
    · cases l <;> cases ended
      · exact sorted_none heap
      · exact sorted_one heap trivial
  | reach head tail =>
    simp only [Thread.turn] at turned
    split at turned <;> cases turned
    · exact sorted_none heap
    · exact sorted_one heap (.ready (neat_forceList tail))
  | perform w =>
    simp only [Thread.turn] at turned
    rcases sorts.of_turn heap turned with ⟨w', s₁, ⟨heap, sorts⟩, rfl, rfl⟩ | ⟨e | _, ended⟩
    · exact sorted_one heap sorts
    · cases ended
      exact sorted_one heap trivial
    · cases ended
      exact sorted_one heap trivial
  | leave =>
    cases turned
    exact sorted_none heap
  | work w =>
    simp only [Thread.turn] at turned
    cases moved : w.turn E store with
    | goOn ws s' =>
      rw [moved] at turned
      cases turned
      exact sorted_of_worker moved heap sorts
    | _ => rw [moved] at turned; cases turned

theorem sorted_of_worker_ask {w : Worker} {q : Request} {next : q.Answer → List Worker}
    (turned : w.turn E s = .ask q next s') (heap : s.heap.Sorted) (sorts : (Thread.work w).Sorts)
    (a : q.Answer) : Sorted ((next a).map .work) s' := by
  cases w with
  | idle =>
    simp only [Worker.turn] at turned
    split at turned <;> cases turned
  | force job w =>
    simp only [Worker.turn] at turned
    obtain ⟨w', s₁, goes, more, rfl⟩ := goes_of_turn_ask (fun _ _ => ⟨_, _, rfl⟩) turned a
    obtain ⟨heap, sorts⟩ := goes.sorts heap sorts
    rw [more]
    exact sorted_one heap sorts
  | report job =>
    simp only [Worker.turn] at turned
    split at turned <;> cases turned

theorem sorted_of_ask {q : Request} {next : q.Answer → List Thread}
    (turned : t.turn E x = .ask q next x') (heap : x.store.heap.Sorted) (sorts : t.Sorts)
    (a : q.Answer) : Sorted (next a) x'.store := by
  obtain ⟨store, free, failure⟩ := x
  cases t with
  | main outputs =>
    cases outputs with
    | nil => cases turned
    | cons o outputs =>
      simp only [Thread.turn] at turned
      split at turned
      · cases turned
      · split at turned <;> cases turned
  | acquire cell next => cases free <;> cases turned
  | walk w =>
    simp only [Thread.turn] at turned
    obtain ⟨w', s₁, goes, more, rfl⟩ := goes_of_turn_ask (fun o y => by
      rcases o with e | l
      · exact ⟨_, _, rfl⟩
      · cases l <;> exact ⟨_, _, rfl⟩) turned a
    obtain ⟨heap, sorts⟩ := goes.sorts heap sorts
    rw [more]
    exact sorted_one heap sorts
  | reach head tail =>
    simp only [Thread.turn] at turned
    split at turned <;> cases turned
  | perform w =>
    simp only [Thread.turn] at turned
    obtain ⟨w', s₁, goes, more, rfl⟩ := goes_of_turn_ask (fun o y => by
      cases o <;> exact ⟨_, _, rfl⟩) turned a
    obtain ⟨heap, sorts⟩ := goes.sorts heap sorts
    rw [more]
    exact sorted_one heap sorts
  | leave => cases turned
  | work w =>
    simp only [Thread.turn] at turned
    cases moved : w.turn E store with
    | ask q ws s' =>
      rw [moved] at turned
      cases turned
      exact sorted_of_worker_ask moved heap sorts a
    | _ => rw [moved] at turned; cases turned

/-- Threads that wait for their turn make what they made before. -/
theorem Sorted.amid {before after : List Thread} (sorted : Sorted (before ++ t :: after) s)
    (turned : Sorted threads s') : Sorted (before ++ threads ++ after) s' := by
  refine ⟨turned.heap, fun u mem => ?_⟩
  simp only [List.mem_append] at mem
  rcases mem with (left | mine) | right
  · exact sorted.threads u (List.mem_append_left _ left)
  · exact turned.threads u mine
  · exact sorted.threads u (List.mem_append_right _ (List.mem_cons_of_mem _ right))

variable {a b : List Thread × Shared × World}

/-- Whose turn it may be. -/
theorem Sorted.step (sorted : Sorted a.1 a.2.1.store) (step : Crew.Step (Thread.turn E) a b) :
    Sorted b.1 b.2.1.store := by
  cases step with
  | @goOn t x x' threads before after w turned =>
    have sorts := sorted.threads t (by simp)
    exact sorted.amid (sorted_of_goOn turned sorted.heap sorts)
  | @ask t x x' q threads before after w turned =>
    have sorts := sorted.threads t (by simp)
    exact sorted.amid (sorted_of_ask turned sorted.heap sorts _)

theorem Sorted.runs (sorted : Sorted a.1 a.2.1.store) (runs : Crew.Runs (Thread.turn E) a b) :
    Sorted b.1 b.2.1.store := by
  induction runs with
  | refl => exact sorted
  | tail _ step ih => exact ih.step step

end

/-- Whatever a program has come to, the dictionaries in its heap are sorted, and so are those that its
    threads will make. -/
theorem sorted_of_runs {p : Program} {m : Module} {h : Heap} (loaded : p.load {} = .ok (m, h))
    {E : Engine} {permits : Nat} {w : World} {b : List Thread × Shared × World}
    (runs : Crew.Runs (Thread.turn E) (crew m.outputs, .start permits { heap := h }, w) b) :
    Sorted b.1 b.2.1.store := by
  refine Sorted.runs ⟨Program.sorted_of_load loaded, fun t mem => ?_⟩ runs
  rcases List.mem_cons.1 mem with rfl | worker
  · trivial
  · cases List.eq_of_mem_replicate worker
    trivial

end Output
end CallByNeed
