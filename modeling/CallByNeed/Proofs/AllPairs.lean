import CallByNeed.Proofs.AllPairs.Surveys
import CallByNeed.Proofs.ValueOrder

/- Comparisons of many arguments. They check neighbours, or each argument against the first one, and
   so decide a relation on all pairs, since the order of values is one wherever it answers. -/
namespace CallByNeed

/-! ### Order relations -/

/-- The relations that neighbours are checked for. -/
inductive Comparator where
  | less
  | lessEq
  | greater
  | greaterEq

namespace Comparator

def builtin : Comparator → Builtin
  | less => .less
  | lessEq => .lessEq
  | greater => .greater
  | greaterEq => .greaterEq

def holds : Comparator → Ordering → Bool
  | less, o => o == .lt
  | lessEq, o => o != .gt
  | greater, o => o == .gt
  | greaterEq, o => o != .lt

/-- Each element is compared with the one before it. -/
def judge (r : Comparator) : Judge where
  judge n v u := do pure (r.holds (← Value.compare n v u))
  reader n v u := (Value.isReader_compare n v u).bind fun _ => .pure _
  alike le v u := by
    refine (Value.alike_compare (.inr ⟨trivial, le⟩) (Value.like_refl Manner.exact_admits v)
      (Value.like_refl Manner.exact_admits u)).bind ?_
    rintro o _ rfl
    exact .pure rfl
  keep _ u := u

/-- There has to be an argument. -/
def fault (r : Comparator) : Fault := { cause := .tooFew r.builtin.name 1 }

def none (r : Comparator) : Except Fault Bool := .error r.fault

variable {r : Comparator} {n bound : Nat} {v u a b c : Value} {l : LazyList} {h : Heap} {γ : Type}

/-- What is done with the last argument and the verdict does not depend on the argument. -/
theorem walk_eq_survey (r : Comparator) (bound : Nat) (l : LazyList) (v : Value)
    (k : Option Value × Bool → Script γ) (k' : Bool → Script γ)
    (same : ∀ u b, k (some u, b) = k' b) :
    (l.walk (fun (last?, _) x => do
      let u ← force x
      match last? with
      | .none => pure (.yield (some u, true))
      | some last =>
        if r.holds (← Value.compare n last u) then pure (.yield (some u, true))
        else pure (.done (some u, false))) bound (some v, true) >>= k) =
      (r.judge.survey n bound l v >>= k') := by
  induction bound generalizing l v with
  | zero => rfl
  | succ bound ih =>
    cases l with
    | nil => exact same v true
    | cons head tail =>
      simp only [LazyList.walk, Judge.survey, judge, bind_assoc, pure_bind]
      refine bind_congr fun u => bind_congr fun o => ?_
      cases r.holds o with
      | true =>
        simp only [if_true, pure_bind, bind_assoc]
        exact bind_congr fun l => ih l u
      | false => exact same u false

theorem run_builtin (r : Comparator) (bound : Nat) (arguments : Ref) :
    r.builtin.run (bound + 1) [arguments] =
      r.judge.check (.raise r.fault) (bound + 1) bound arguments := by
  have run : r.builtin.run (bound + 1) [arguments] =
      Builtin.chained (bound + 1) r.builtin r.holds arguments := by
    cases r <;> rfl
  rw [run]
  refine bind_congr fun l => ?_
  cases l with
  | nil => rfl
  | cons head tail =>
    simp only [LazyList.walk, bind_assoc, pure_bind]
    refine bind_congr fun v => bind_congr fun l => ?_
    exact walk_eq_survey r bound l v _ _ fun _ _ => rfl

end Comparator

/-- Some run that has ended has compared the values, and the relation holds of their order. -/
def Heap.Related (h : Heap) (r : Comparator) (v u : Value) : Prop :=
  ∃ o, h.Compared v u (.ok o) ∧ r.holds o = true

/-- What values come to that are to be in a relation: all of them are, or else the first neighbours that
    are not decide, by an order or by a fault. -/
inductive Heap.Verdict (h : Heap) (r : Comparator) (vs : List Value) : Except Fault Bool → Prop
  | related (pairs : vs.Pairwise (h.Related r)) : Verdict h r vs (.ok true)
  | outside {front rest : List Value} {v u : Value} {o : Ordering}
      (place : vs = front ++ v :: u :: rest) (before : (front ++ [v]).IsChain (h.Related r))
      (compared : h.Compared v u (.ok o)) (outside : r.holds o = false) : Verdict h r vs (.ok false)
  | fault {front rest : List Value} {v u : Value} {e : Fault}
      (place : vs = front ++ v :: u :: rest) (before : (front ++ [v]).IsChain (h.Related r))
      (compared : h.Compared v u (.error e)) : Verdict h r vs (.error e)

section
variable {h : Heap} {r : Comparator} {a b c v u : Value} {vs : List Value} {n : Nat}
variable {x : Except Fault Ordering} {o : Except Fault Bool}

theorem Heap.compared_iff_reads : h.Compared a b x ↔ ∃ n, (Value.compare n a b).Reads h x := by
  constructor
  · exact Heap.Compared.reads
  · rintro ⟨n, reads⟩
    exact ⟨n, { bound := n }, { heap := h }, {}, { heap := h }, {}, reads.leaves, h.before_refl⟩

theorem Heap.related_iff_ranks : h.Related r a b ↔ ∃ o, h.Ranks a b o ∧ r.holds o = true := by
  constructor
  · rintro ⟨o, compared, holds⟩
    exact ⟨o, compared.ranks, holds⟩
  · rintro ⟨o, order, holds⟩
    obtain ⟨k, reads⟩ := order.reads
    exact ⟨o, Heap.compared_iff_reads.2 ⟨k, reads k (Nat.le_refl k)⟩, holds⟩

/-- The relations up follow the order, and the relations down follow it backwards. -/
theorem Heap.Related.trans (first : h.Related r a b) (second : h.Related r b c) : h.Related r a c := by
  obtain ⟨x, order, holds⟩ := Heap.related_iff_ranks.1 first
  obtain ⟨y, order', holds'⟩ := Heap.related_iff_ranks.1 second
  apply Heap.related_iff_ranks.2
  have up : (x.isLE ∧ y.isLE) ∨ y.swap.isLE ∧ x.swap.isLE := by
    cases r <;> cases x <;> cases y <;> simp_all [Comparator.holds]
  rcases up with ⟨le, le'⟩ | ⟨le, le'⟩
  · refine ⟨_, order.trans order' le le', ?_⟩
    cases r <;> cases x <;> cases y <;> simp_all [Comparator.holds]
  · refine ⟨_, (order'.swap.trans order.swap le le').swap, ?_⟩
    cases r <;> cases x <;> cases y <;> simp_all [Comparator.holds]

instance : Trans (h.Related r) (h.Related r) (h.Related r) := ⟨Heap.Related.trans⟩

theorem Comparator.reads_judge_iff : (r.judge.judge n v u).Reads h o ↔
    (∃ x, (Value.compare n v u).Reads h (.ok x) ∧ o = .ok (r.holds x)) ∨
    ∃ e, (Value.compare n v u).Reads h (.error e) ∧ o = .error e := by
  refine Script.reads_bind_iff.trans (or_congr_left (exists_congr fun x => and_congr_right fun _ => ?_))
  constructor
  · exact fun reads => reads.unique .done
  · rintro rfl
    exact .done

theorem Comparator.related_of_reads (reads : (r.judge.judge n v u).Reads h (.ok true)) :
    h.Related r v u := by
  rcases reads_judge_iff.1 reads with ⟨x, compared, same⟩ | ⟨_, _, no⟩
  · exact ⟨x, Heap.compared_iff_reads.2 ⟨n, compared⟩, (Except.ok.inj same).symm⟩
  · cases no

/-- Neighbours in front of those that decide are in the relation. -/
theorem Heap.isChain_cons_of_place {front rest us : List Value} {y z : Value} (first : h.Related r v u)
    (place : u :: us = front ++ y :: z :: rest) (before : (front ++ [y]).IsChain (h.Related r)) :
    (v :: front ++ [y]).IsChain (h.Related r) := by
  cases front with
  | nil =>
    cases place
    exact List.isChain_cons_cons.2 ⟨first, before⟩
  | cons w front =>
    cases place
    exact List.isChain_cons_cons.2 ⟨first, before⟩

theorem Heap.Judges.isChain (judges : h.Judges r.judge v vs (.ok true)) :
    (v :: vs).IsChain (h.Related r) := by
  generalize result : (Except.ok true : Except Fault Bool) = o at judges
  induction judges with
  | all => exact .singleton _
  | decided _ decides => exact absurd result.symm decides
  | goesOn judged _ ih =>
    exact List.isChain_cons_cons.2 ⟨Comparator.related_of_reads judged, ih result⟩

theorem Heap.Judges.verdict (judges : h.Judges r.judge v vs o) : h.Verdict r (v :: vs) o := by
  induction judges with
  | all => exact .related (List.pairwise_singleton _ _)
  | @decided v u us n o judged decides =>
    rcases Comparator.reads_judge_iff.1 judged with ⟨x, compared, rfl⟩ | ⟨e, compared, rfl⟩
    · have outside : r.holds x = false := by simpa using decides
      rw [outside]
      exact .outside (List.nil_append _).symm (.singleton _)
        (Heap.compared_iff_reads.2 ⟨n, compared⟩) outside
    · exact .fault (List.nil_append _).symm (.singleton _)
        (Heap.compared_iff_reads.2 ⟨n, compared⟩)
  | @goesOn v u us n o judged rest ih =>
    have first := Comparator.related_of_reads judged
    cases ih with
    | related _ => exact .related (Heap.Judges.isChain (.goesOn judged rest)).pairwise
    | @outside front others y z p place before compared outside =>
      have place' : v :: u :: us = (v :: front) ++ y :: z :: others := congrArg (v :: ·) place
      exact .outside place' (Heap.isChain_cons_of_place first place before) compared outside
    | @fault front others y z e place before compared =>
      have place' : v :: u :: us = (v :: front) ++ y :: z :: others := congrArg (v :: ·) place
      exact .fault place' (Heap.isChain_cons_of_place first place before) compared

theorem Heap.Related.reads (holds : h.Related r v u) :
    ∃ n, (r.judge.judge n v u).Reads h (.ok true) := by
  obtain ⟨o, compared, holds⟩ := holds
  obtain ⟨n, reads⟩ := compared.reads
  exact ⟨n, Comparator.reads_judge_iff.2 (.inl ⟨o, reads, by rw [holds]⟩)⟩

theorem Heap.judges_of_isChain {front us : List Value} {y : Value}
    (before : (v :: front).IsChain (h.Related r)) (last : (v :: front).getLast? = some y)
    (judges : h.Judges r.judge y us o) : h.Judges r.judge v (front ++ us) o := by
  induction front generalizing v with
  | nil =>
    cases last
    exact judges
  | cons u front ih =>
    obtain ⟨first, before⟩ := List.isChain_cons_cons.1 before
    obtain ⟨n, judged⟩ := first.reads
    exact .goesOn judged (ih before last)

theorem Heap.Verdict.judges (verdict : h.Verdict r (v :: vs) o) : h.Judges r.judge v vs o := by
  have decided : ∀ {front rest : List Value} {y z : Value} {o : Except Fault Bool},
      v :: vs = front ++ y :: z :: rest → (front ++ [y]).IsChain (h.Related r) →
      h.Judges r.judge y (z :: rest) o → h.Judges r.judge v vs o := by
    intro front rest y z o place before judges
    cases front with
    | nil =>
      cases place
      exact judges
    | cons w front =>
      cases place
      have last : (v :: (front ++ [y])).getLast? = some y := by
        rw [← List.cons_append, List.getLast?_concat]
      have same : front ++ [y] ++ z :: rest = front ++ y :: z :: rest := by simp
      have all : h.Judges r.judge v (front ++ [y] ++ z :: rest) o :=
        Heap.judges_of_isChain before last judges
      rw [same] at all
      exact all
  cases verdict with
  | related pairs =>
    rw [← List.append_nil vs]
    exact Heap.judges_of_isChain pairs.isChain
      (List.getLast?_eq_some_getLast (List.cons_ne_nil v vs)) .all
  | @outside front rest y z p place before compared outside =>
    obtain ⟨n, reads⟩ := compared.reads
    refine decided place before (.decided (n := n) ?_ nofun)
    exact Comparator.reads_judge_iff.2 (.inl ⟨p, reads, by rw [outside]⟩)
  | @fault front rest y z e place before compared =>
    obtain ⟨n, reads⟩ := compared.reads
    refine decided place before (.decided (n := n) ?_ nofun)
    exact Comparator.reads_judge_iff.2 (.inr ⟨e, reads, rfl⟩)

end

/-- A check that ended no later than the heap has come to this. Its arguments are known now, and they
    are these values. -/
def Heap.Checked (h : Heap) (J : Judge) (none : Except Fault Bool) (arguments : Ref)
    (vs : List Value) (o : Except Fault Bool) : Prop :=
  ∃ E s w t w', Engine.Checks E J none arguments s w o t w' ∧ t.heap.Before h ∧
    h.Spells arguments vs

/-- A comparison of many arguments checks neighbours from the front, one after the other, and nothing
    behind those that decide; and so it decides the relation on all pairs. -/
structure Comparator.DecidesPairs (r : Comparator) (arguments : Ref) : Prop where
  only : ∀ (E : Engine) n s w x t w', (r.builtin.run n [arguments]).Leaves E s w x t w' →
    ∃ o, x = Outcome.ofBool o ∧ E.Checks r.judge r.none arguments s w o t w'
  ends : ∀ (E : Engine) s w o t w', E.Checks r.judge r.none arguments s w o t w' →
    ∃ k, ∀ n, k ≤ n → (r.builtin.run n [arguments]).Leaves E s w (Outcome.ofBool o) t w'
  decides : ∀ (h : Heap) v vs o, h.Checked r.judge r.none arguments (v :: vs) o →
    ∀ p, h.Verdict r (v :: vs) p ↔ p = o
  /-- What is known already is not asked for again. -/
  known : ∀ (E : Engine) (s : Store) w o v vs, s.heap.Spells arguments (v :: vs) →
    s.heap.Verdict r (v :: vs) o → E.Checks r.judge r.none arguments s w o s w

theorem Comparator.decidesPairs (r : Comparator) (arguments : Ref) : r.DecidesPairs arguments where
  only E n s w x t w' leaves := by
    have comes : ∀ E s, (Script.raise r.fault : Script Outcome).Comes E s
      (Outcome.ofBool r.none) s := fun _ _ => .raise
    cases n with
    | zero =>
      have run : r.builtin.run 0 [arguments] = (do
          let _ ← forceList arguments
          .stall) := by
        cases r <;> rfl
      rw [run] at leaves
      rcases Script.leaves_bind_iff.1 leaves with ⟨l, s₁, w₁, _, stalled⟩ | ⟨e, list, rfl⟩
      · exact absurd stalled Script.not_leaves_stall
      · exact ⟨.error e, rfl, .broken list⟩
    | succ n =>
      rw [r.run_builtin] at leaves
      exact Engine.checks_of_leaves comes leaves
  ends E s w o t w' checks := by
    have comes : ∀ E s, (Script.raise r.fault : Script Outcome).Comes E s
      (Outcome.ofBool r.none) s := fun _ _ => .raise
    obtain ⟨k, leaves⟩ := Engine.Checks.leaves comes checks
    refine exists_bound_succ ⟨k, fun n enough => ?_⟩
    rw [r.run_builtin]
    exact leaves (n + 1) n (by omega) (by omega)
  decides h v vs o checked p := by
    obtain ⟨E, s, w, t, w', checks, later, spells⟩ := checked
    have judges := checks.judges later spells
    constructor
    · exact fun verdict => verdict.judges.unique judges
    · rintro rfl
      exact judges.verdict
  known E s w o v vs spells verdict := verdict.judges.checks spells

/-! ### Equality -/

/-- Each element is compared with the first one. -/
def Judge.equality : Judge where
  judge := Value.equal
  reader := Value.isReader_equal
  alike le v u := Value.alike_equal (.inr ⟨trivial, le⟩) (Value.like_refl Manner.exact_admits v)
    (Value.like_refl Manner.exact_admits u)
  keep v _ := v

section
variable {h : Heap} {v u : Value} {vs : List Value} {n : Nat} {l : LazyList} {γ : Type}

theorem Judge.run_equal (bound : Nat) (arguments : Ref) :
    Builtin.run bound .equal [arguments] =
      Judge.equality.check (answer (.bool true)) bound bound arguments := by
  have walks : ∀ (m : Nat) (l : LazyList) (v : Value), l.walk (fun _ r => do
      if ← Value.equal bound v (← force r) then pure (.yield true)
      else pure (.done false)) m true = Judge.equality.survey bound m l v := by
    intro m
    induction m with
    | zero => exact fun _ _ => rfl
    | succ m ih =>
      intro l v
      cases l with
      | nil => rfl
      | cons head tail =>
        simp only [LazyList.walk, Judge.survey, Judge.equality, bind_assoc]
        refine bind_congr fun u => bind_congr fun same => ?_
        cases same with
        | true => exact bind_congr fun l => ih l v
        | false => rfl
  refine bind_congr fun l => ?_
  cases l with
  | nil => rfl
  | cons head tail => exact bind_congr fun v => bind_congr fun l => by rw [walks]

/-- If the first value equals all others then all of them are equal. -/
theorem Heap.judges_equality_iff :
    h.Judges Judge.equality v vs (.ok true) ↔ (v :: vs).Pairwise h.Equated := by
  have first : h.Judges Judge.equality v vs (.ok true) ↔ ∀ u ∈ vs, h.Equals v u := by
    induction vs with
    | nil => simp [Heap.Judges.all]
    | cons u us ih =>
      constructor
      · intro judges
        cases judges with
        | decided _ decides => exact absurd rfl decides
        | goesOn judged rest => exact List.forall_mem_cons.2 ⟨⟨_, judged⟩, ih.1 rest⟩
      · intro all
        obtain ⟨⟨n, judged⟩, rest⟩ := List.forall_mem_cons.1 all
        exact .goesOn judged (ih.2 rest)
  rw [first, List.pairwise_cons]
  constructor
  · intro equal
    refine ⟨fun u mem => Heap.equated_iff.2 (equal u mem), ?_⟩
    refine List.pairwise_of_forall_mem_list fun a left b right => Heap.equated_iff.2 ?_
    exact (equal a left).symm.trans (equal b right)
  · exact fun pairs u mem => Heap.equated_iff.1 (pairs.1 u mem)

end

/-- Equality of many arguments compares each of them with the first one, and so decides whether all
    pairs are equal, whichever comes first. -/
structure Judge.EqualityDecidesPairs (arguments : Ref) : Prop where
  only : ∀ (E : Engine) n s w x t w', (Builtin.run n .equal [arguments]).Leaves E s w x t w' →
    ∃ o, x = Outcome.ofBool o ∧ E.Checks equality (.ok true) arguments s w o t w'
  ends : ∀ (E : Engine) s w o t w', E.Checks equality (.ok true) arguments s w o t w' →
    ∃ k, ∀ n, k ≤ n → (Builtin.run n .equal [arguments]).Leaves E s w (Outcome.ofBool o) t w'
  decides : ∀ (h : Heap) v vs o, h.Checked equality (.ok true) arguments (v :: vs) o →
    (o = .ok true ↔ (v :: vs).Pairwise h.Equated)
  known : ∀ (E : Engine) (s : Store) w v vs, s.heap.Spells arguments (v :: vs) →
    (v :: vs).Pairwise s.heap.Equated →
    E.Checks equality (.ok true) arguments s w (.ok true) s w
  order : ∀ (h : Heap) arguments' v vs v' vs' o p,
    h.Checked equality (.ok true) arguments (v :: vs) o →
    h.Checked equality (.ok true) arguments' (v' :: vs') p → (v :: vs).Perm (v' :: vs') →
    (o = .ok true ↔ p = .ok true)

theorem Heap.Checked.equal_iff {h : Heap} {arguments : Ref} {v : Value} {vs : List Value}
    {o : Except Fault Bool}
    (checked : h.Checked Judge.equality (.ok true) arguments (v :: vs) o) :
    o = .ok true ↔ (v :: vs).Pairwise h.Equated := by
  obtain ⟨E, s, w, t, w', checks, later, spells⟩ := checked
  have judges := checks.judges later spells
  rw [← Heap.judges_equality_iff]
  constructor
  · rintro rfl
    exact judges
  · exact fun all => judges.unique all

theorem Judge.equalityDecidesPairs (arguments : Ref) : Judge.EqualityDecidesPairs arguments where
  only E n s w x t w' leaves := by
    rw [Judge.run_equal] at leaves
    exact Engine.checks_of_leaves (fun _ _ => .done) leaves
  ends E s w o t w' checks := by
    have comes : ∀ E s, (answer (.bool true)).Comes E s (Outcome.ofBool (.ok true)) s :=
      fun _ _ => .done
    obtain ⟨k, leaves⟩ := Engine.Checks.leaves comes checks
    refine ⟨k, fun n enough => ?_⟩
    rw [Judge.run_equal]
    exact leaves n n enough enough
  decides h v vs o checked := checked.equal_iff
  known E s w v vs spells pairs := (Heap.judges_equality_iff.2 pairs).checks spells
  order h arguments' v vs v' vs' o p checked checked' perm := by
    rw [checked.equal_iff, checked'.equal_iff]
    refine perm.pairwise_iff fun {a b} equal => ?_
    exact Heap.equated_iff.2 (Heap.equated_iff.1 equal).symm

theorem comparisons_decide_all_pairs (arguments : Ref) :
    (∀ r : Comparator, r.DecidesPairs arguments) ∧ Judge.EqualityDecidesPairs arguments :=
  ⟨fun r => r.decidesPairs arguments, Judge.equalityDecidesPairs arguments⟩

end CallByNeed
