import CallByNeed.Proofs.Bundles.Strung

/- Forcing strung lists. -/
namespace CallByNeed
open Relation (ReflTransGen)

section
variable {E : Engine} {s t : Store} {cell r : Ref} {site : Option Location} {frames : List Frame}

/-- A part of a body that comes to an answer is done, and the body goes on. -/
theorem Script.Comes.moves {α : Type} {m : Script α} {f : α → Script Outcome} {a : α}
    (comes : m.Comes E s (.ok a) t) (cell : Ref) (site : Option Location) (frames : List Frame) :
    ReflTransGen E.Moves (.run cell site (m >>= f), frames, s)
      (.run cell site (f a), frames, t) := by
  change ReflTransGen E.Moves (.run cell site (m.bind f), frames, s) _
  generalize ended : Except.ok a = o at comes
  induction comes with
  | done =>
    cases ended
    exact .refl
  | raise => cases ended
  | demand first reply _ ih =>
    exact .head Engine.Advance.demand.move
      ((first.moves _).trans (.head (Engine.Advance.resume reply).move (ih ended)))
  | act _ ih => exact (ih ended).head Engine.Advance.act.move

theorem Script.works_ofRefs (E : Engine) (s : Store) (rs : List Ref) : ∃ l t,
    (LazyList.ofRefs rs : Script LazyList).Comes E s (.ok l) t ∧ s.Works [] t [] ∧
      t.heap.Whole l rs := by
  -- The last element is put in place first.
  have pushes : ∀ (rs js : List Ref) (l : LazyList) (s : Store), s.heap.Whole l js →
      ∃ l' t, (rs.foldlM LazyList.push l : Script LazyList).Comes E s (.ok l') t ∧
        s.Works [] t [] ∧ t.heap.Whole l' (rs.reverse ++ js) := by
    intro rs
    induction rs with
    | nil => exact fun js l s whole => ⟨l, s, .done, s.works_refl (by simp), whole⟩
    | cons r rs ih =>
      intro js l s whole
      have works := s.works_alloc (.ofValue (.list l))
      have kept : s.heap.Carries [] _ := works.carries (by simp)
      obtain ⟨l', u, rest, works', whole'⟩ :=
        ih (r :: js) (.cons r _) _ (.cons (Heap.state?_new _ _) (whole.carry kept))
      have pushed : (LazyList.push l r : Script LazyList).Comes E s (.ok (.cons r _)) _ :=
        .act .done
      refine ⟨l', u, ?_, works.trans works' (by simp) (by simp), by simpa using whole'⟩
      rw [List.foldlM_cons]
      exact pushed.bind rest
  obtain ⟨l, t, comes, works, whole⟩ := pushes rs.reverse [] .nil s .nil
  rw [List.reverse_reverse, List.append_nil] at whole
  exact ⟨l, t, comes, works, whole⟩

/-- The known list of what is left. -/
theorem Arguments.works_restPositionals (E : Engine) (s : Store) (rs : List Ref) : ∃ l rest t,
    ({ positionals := rs } : Arguments).restPositionals.Comes E s (.ok (rest, {})) t ∧
      s.Works [] t [] ∧ t.heap.state? rest = some (.forced (.list l)) ∧ t.heap.Whole l rs := by
  obtain ⟨l, t, comes, works, whole⟩ := Script.works_ofRefs E s rs
  have works' := t.works_alloc (.ofValue (.list l))
  have kept : t.heap.Carries [] _ := works'.carries (by simp)
  exact ⟨l, _, _, comes.bind (.act .done), works.trans works'.forget (by simp) (by simp),
    Heap.state?_new _ _, whole.carry kept⟩

/-- A new call of a builtin function waits, and is known to nobody. -/
theorem Script.works_allocCall (E : Engine) (s : Store) (b : Builtin) (rs : List Ref) : ∃ r f t,
    (allocCall (.function b.function) rs : Script Ref).Comes E s (.ok r) t ∧ s.Works [] t [r] ∧
      s.heap.state? r = none ∧ t.heap.site? r = none ∧
      t.heap.state? r = some (.pending { task := .call f { positionals := rs } }) ∧
      t.heap.state? f = some (.forced (.function b.function)) := by
  let f := (s.act (.alloc (.ofValue (.function b.function)))).1
  let t := (s.act (.alloc (.ofValue (.function b.function)))).2
  let r := (t.act (.alloc (.ofCall f { positionals := rs }))).1
  have made : s.Works [] t [] := (s.works_alloc _).forget
  have called : t.Works [] (t.act (.alloc (.ofCall f { positionals := rs }))).2 [r] :=
    t.works_alloc _
  have works := made.trans called (List.Subset.refl _) (by simp)
  refine ⟨r, f, _, .act (.act .done), works, ?_, ?_, ?_, ?_⟩
  · exact (works.fresh r List.mem_cons_self).resolve_left (by simp)
  · exact t.heap.site?_new _
  · exact Heap.state?_new _ _
  · exact called.before.forced (Heap.state?_new _ _)

theorem Script.comes_force {v : Value} (known : s.heap.state? r = some (.forced v))
    (plain : v.IsPlain) : (force r).Comes E s (.ok v) s := by
  refine .demand (.found known) (u := v) ?_ ?_
  · cases v <;> first | exact plain.elim | rfl
  · cases v <;> first | exact plain.elim | exact .done

/-- A call of `append` or `merge` with these parameters runs its body. -/
theorem Engine.moves_call {b : Builtin} {f : Ref} {name others : String} (cell first : Ref)
    (rs : List Ref) (site : Option Location) (frames : List Frame)
    (function : s.heap.state? f = some (.forced (.function b.function)))
    (signature : b.signature = .plain [name] (some others)) (plain : b.isEffect = false) :
    ∃ l rest t, ReflTransGen E.Moves
        (.run cell site ((Task.call f { positionals := first :: rs }).script E.bound), frames, s)
        (.run cell site (b.run E.bound [first, rest]), frames, t) ∧
      s.Works [] t [] ∧ t.heap.state? rest = some (.forced (.list l)) ∧ t.heap.Whole l rs := by
  obtain ⟨l, rest, t, comes, works, known, whole⟩ := Arguments.works_restPositionals E s rs
  refine ⟨l, rest, t, ?_, works, known, whole⟩
  have called := (Script.comes_force (E := E) function trivial).moves
    (f := fun v => v.call E.bound { positionals := first :: rs }) cell site frames
  refine called.trans ?_
  have binds := Signature.bind_plain name others first rs none
  rw [← signature] at binds
  simp only [Value.call, Builtin.function]
  rw [binds, bind_assoc]
  simpa [plain, Body.run] using comes.moves (f := fun p => _) cell site frames

end

/-- What a body makes of an answer that should be a list: it fetches the next cell of that list and
    of those in `rest`. -/
def joinOn (n : Nat) (rest : Ref) (v : Value) : Script Outcome :=
  match v.asList with
  | .ok l => do answer (.list (← LazyList.concat n l rest))
  | .error e => .raise e

/-- What a body makes of the lists behind one that has ended. -/
def joinNext (n : Nat) : LazyList → Script Outcome
  | .nil => answer (.list .nil)
  | .cons next rest => do
    let l ← forceList next
    answer (.list (← LazyList.concat n l rest))

theorem forceList_join (r : Ref) (n : Nat) (rest : Ref) : (do
    let l ← forceList r
    answer (.list (← LazyList.concat n l rest)) : Script Outcome) =
      .demand .pure r (joinOn n rest) := by
  change Script.demand .pure r _ = _
  congr 1
  funext v
  cases v <;> rfl

theorem concat_nil (n : Nat) (rest : Ref) :
    (do answer (.list (← LazyList.concat (n + 1) .nil rest)) : Script Outcome) = (do
      joinNext n (← forceList rest)) := by
  rw [LazyList.concat, bind_assoc]
  congr 1
  funext l
  cases l with
  | nil => rfl
  | cons next rest => simp [joinNext]

theorem continues_joinOn (n : Nat) (rest : Ref) : Continues (joinOn n rest) n rest true := by
  refine ⟨fun _ => rfl, fun _ => rfl, fun _ v other faulty => ?_⟩
  cases v with
  | list l => exact absurd rfl (other l)
  | error e => exact absurd rfl (faulty e)
  | _ => rfl

/-- The cells for which frames wait. -/
abbrev cellsOf (frames : List Frame) : List Ref := frames.map Frame.cell

/-- The cell waits itself, and not for a call of the source. -/
def Heap.Ready (h : Heap) (tail : Ref) (own : List Ref) : Prop :=
  tail ∈ own ∧ h.site? tail = none

/-- Where forcing a strung list comes to a stop: at a list of which nothing is known, or with the
    next cell, and the cell that waited longest has it. -/
inductive Engine.Arrived (s : Store) (own : List Ref) (root : Option Ref) :
    List Piece → Control × List Frame × Store → Prop
  | source {r : Ref} {strict : Bool} {pieces : List Piece} {frames : List Frame} {left : List Ref}
      {t : Store} (asks : Frame.Asks r strict frames) (awaits : t.heap.Awaits frames pieces left)
      (works : s.Works own t (left ++ cellsOf frames)) (apart : (left ++ cellsOf frames).Nodup)
      (same : (cellsOf frames).getLast? = root) :
      Arrived s own root (.list r strict :: pieces) (.enter r, frames, t)
  | ended {t : Store} (works : s.Works own t [])
      (settled : ∀ r ∈ root, t.heap.state? r = some (.forced (.list .nil))) :
      Arrived s own root [] (.give (.list .nil), [], t)
  | cell {head tail : Ref} {pieces : List Piece} {left : List Ref} {t : Store}
      (strung : t.heap.Strung true tail pieces left) (ready : t.heap.Ready tail left)
      (works : s.Works own t left) (apart : left.Nodup)
      (settled : ∀ r ∈ root, t.heap.state? r = some (.forced (.list (.cons head tail)))) :
      Arrived s own root (.element head :: pieces) (.give (.list (.cons head tail)), [], t)

/-- The engine comes to such a stop by itself. -/
def Engine.Arrives (E : Engine) (own : List Ref) (root : Option Ref) (pieces : List Piece)
    (c : Control) (frames : List Frame) (s : Store) : Prop :=
  ∃ y, ReflTransGen E.Moves (c, frames, s) y ∧ Engine.Arrived s own root pieces y

section
variable {E : Engine} {s t : Store} {c c' : Control} {frames frames' : List Frame} {h : Heap}
variable {own own' left : List Ref} {root : Option Ref} {pieces pieces' : List Piece} {v : Value}
variable {cell r rest : Ref} {next : Value → Script Outcome} {n : Nat} {strict : Bool}

theorem Engine.Arrived.after {y : Control × List Frame × Store} {all : List Ref}
    (arrived : Engine.Arrived t own' root pieces y) (works : s.Works own t left) (mine : own ⊆ all)
    (cover : ∀ r ∈ own', r ∈ all ∨ s.heap.state? r = none) :
    Engine.Arrived s all root pieces y := by
  cases arrived with
  | source asks awaits works' apart same =>
    exact .source asks awaits (works.trans works' mine cover) apart same
  | ended works' settled => exact .ended (works.trans works' mine cover) settled
  | cell strung ready works' apart settled =>
    exact .cell strung ready (works.trans works' mine cover) apart settled

theorem Engine.Arrives.after {all : List Ref} (arrives : E.Arrives own' root pieces c' frames' t)
    (moves : ReflTransGen E.Moves (c, frames, s) (c', frames', t)) (works : s.Works own t left)
    (mine : own ⊆ all) (cover : ∀ r ∈ own', r ∈ all ∨ s.heap.state? r = none) :
    E.Arrives all root pieces c frames s := by
  obtain ⟨y, moves', arrived⟩ := arrives
  exact ⟨y, moves.trans moves', arrived.after works mine cover⟩

theorem Engine.moves_give {v' : Value}
    (reply : Demand.pure.reply (s.heap.site? r) v = .resume v') :
    E.Moves (.give v, { cell, site := none, wait := .reply .pure r next } :: frames, s)
      (.run cell none (next v'), frames, s) :=
  Engine.Advance.resume reply

/-- A body that does not go on with what it has demanded. -/
theorem Engine.moves_refused {v' : Value} {e : Fault}
    (reply : Demand.pure.reply (s.heap.site? r) v = .resume v') (refuses : next v' = .raise e) :
    ReflTransGen E.Moves (.give v, { cell, site := none, wait := .reply .pure r next } :: frames, s)
      (.give (.error e), frames, s.publish cell (.error e)) := by
  have raises : E.Advance (.run cell none (.raise e)) frames s (.give (.error e)) frames
      (s.publish cell (.error e)) := .fault
  rw [← refuses] at raises
  exact .head (Engine.moves_give reply) (.single raises.move)

/-- A body answers, and its cell has the value. -/
theorem Engine.moves_value : E.Moves (.run cell none (.done (.value v)), frames, s)
    (.give v, frames, s.publish cell v) := by
  have value : E.Advance (.run cell none (.done (.value v))) frames s _ frames _ := .value
  rw [Value.through?_none] at value
  exact value

/-- The value of a tail goes to the cell that waits for it. -/
theorem Engine.moves_tail : E.Moves (.give v, { cell, site := none, wait := .tail } :: frames, s)
    (.give v, frames, s.publish cell v) := by
  have pass : E.Advance (.give v) ({ cell, site := none, wait := .tail } :: frames) s _ frames _ :=
    .pass
  rw [Value.through?_none] at pass
  exact pass

theorem Heap.Forcing.tail (forcing : h.Forcing (r :: own)) : h.Forcing own :=
  fun q mem => forcing q (List.mem_cons_of_mem r mem)

theorem Store.Works.forcing (works : s.Works own t left) (forcing : s.heap.Forcing own')
    (apart : ∀ r ∈ own', r ∉ own) : t.heap.Forcing own' :=
  fun r mem => works.others r _ (apart r mem) (forcing r mem)

/-- The frame that waits longest is the last one, unless there is but one. -/
theorem settled_cons {v' : Value} (known : s.heap.state? cell = some (.forced v))
    (alone : frames = [] → v' = v)
    (others : ∀ r ∈ (cellsOf frames).getLast?, s.heap.state? r = some (.forced v')) :
    ∀ r ∈ (cell :: cellsOf frames).getLast?, s.heap.state? r = some (.forced v') := by
  intro r mem
  cases frames with
  | nil =>
    cases mem
    exact alone rfl ▸ known
  | cons frame frames => exact others r (by simpa using mem)

/-- A frame of an own cell has its value, and the other frames still wait. -/
theorem Store.passes (forcing : s.heap.Forcing (cell :: cellsOf frames))
    (apart : (cell :: cellsOf frames).Nodup) (v : Value) :
    s.Works [cell] (s.publish cell v) [] ∧ (s.publish cell v).heap.Forcing (cellsOf frames) ∧
      (s.publish cell v).heap.state? cell = some (.forced v) := by
  have busy := forcing cell List.mem_cons_self
  have works := s.works_publish busy v
  refine ⟨works, works.forcing forcing.tail fun q mem => ?_, Heap.state?_setState_self busy _⟩
  rintro same
  cases List.mem_singleton.1 same
  exact (List.nodup_cons.1 apart).1 mem

/-- Each of the frames passes a fault on. -/
theorem Heap.Awaits.gives_error {e : Fault} (awaits : h.Awaits frames pieces own)
    (forcing : s.heap.Forcing (cellsOf frames)) (apart : (cellsOf frames).Nodup) :
    ∃ t, ReflTransGen E.Moves (.give (.error e), frames, s) (.give (.error e), [], t) ∧
      s.Works (cellsOf frames) t [] ∧
      ∀ r ∈ (cellsOf frames).getLast?, t.heap.state? r = some (.forced (.error e)) := by
  induction awaits generalizing s with
  | nobody => exact ⟨s, .refl, s.works_refl (by simp), by simp⟩
  | @reply cell r _ next _ _ _ _ _ _ frames continues _ _ ih =>
    obtain ⟨works, forcing', known⟩ := s.passes forcing apart (.error e)
    obtain ⟨t, moves, works', settled⟩ := ih forcing' (List.nodup_cons.1 apart).2
    refine ⟨t, (Engine.moves_refused rfl (continues.error e)).trans moves, ?_, ?_⟩
    · exact works.trans works' (by simp) fun q mem => .inl (List.mem_cons_of_mem _ mem)
    · exact settled_cons (works'.before.forced known) (fun _ => rfl) settled
  | @tail cell _ _ frames _ ih =>
    obtain ⟨works, forcing', known⟩ := s.passes forcing apart (.error e)
    obtain ⟨t, moves, works', settled⟩ := ih forcing' (List.nodup_cons.1 apart).2
    refine ⟨t, .head Engine.moves_tail moves, ?_, ?_⟩
    · exact works.trans works' (by simp) fun q mem => .inl (List.mem_cons_of_mem _ mem)
    · exact settled_cons (works'.before.forced known) (fun _ => rfl) settled

/-- What is new is nobody's yet. -/
theorem Heap.not_mem_of_none (new : h.state? r = none)
    (known : ∀ q ∈ own, ∃ c, h.state? q = some c) : r ∉ own := by
  intro mem
  obtain ⟨c, state⟩ := known r mem
  rw [new] at state
  cases state

/-- The next cell goes through all frames, and each of them leaves what follows to a new cell. -/
theorem Heap.Awaits.gives_cell {head tail : Ref} {own₀ : List Ref} {pieces₀ : List Piece}
    (awaits : s.heap.Awaits frames pieces own) (strung : s.heap.Strung true tail pieces₀ own₀)
    (forcing : s.heap.Forcing (cellsOf frames)) (apart : (own₀ ++ (own ++ cellsOf frames)).Nodup) :
    ∃ tail' t left, ReflTransGen E.Moves (.give (.list (.cons head tail)), frames, s)
        (.give (.list (.cons head tail')), [], t) ∧
      t.heap.Strung true tail' (pieces₀ ++ pieces) left ∧ left.Nodup ∧
      s.Works (own₀ ++ (own ++ cellsOf frames)) t left ∧ (frames = [] → tail' = tail) ∧
      (s.heap.Ready tail own₀ ∨ (∃ r strict, Frame.Asks r strict frames) →
        t.heap.Ready tail' left) ∧
      ∀ r ∈ (cellsOf frames).getLast?, t.heap.state? r = some
        (.forced (.list (.cons head tail'))) := by
  induction frames generalizing s tail own₀ pieces₀ pieces own with
  | nil =>
    cases awaits
    refine ⟨tail, s, own₀, .refl, by simpa using strung, by simpa using apart,
      s.works_refl (by simp), fun _ => rfl, ?_, by simp⟩
    rintro (ready | ⟨r, strict, asks⟩)
    · exact ready
    · cases asks
  | cons frame frames ih =>
    cases awaits with
    | @tail cell _ _ _ others =>
      have busy : (cell :: cellsOf frames).Nodup := by grind [List.nodup_append]
      obtain ⟨works, forcing', known⟩ := s.passes forcing busy (.list (.cons head tail))
      have kept : s.heap.Carries (own₀ ++ own) (s.publish cell (.list (.cons head tail))).heap :=
        works.carries (by grind [List.nodup_append])
      obtain ⟨tail', t, left, moves, strung', apart', works', alone, ready', settled⟩ :=
        ih (others.carry (kept.weaken (by simp))) (strung.carry (kept.weaken (by simp))) forcing'
          (by grind [List.nodup_append])
      refine ⟨tail', t, left, .head Engine.moves_tail moves, strung', apart', ?_, by simp, ?_, ?_⟩
      · exact works.trans works' (by simp) (by grind)
      · rintro (ready | ⟨r, strict, asks⟩)
        · refine ready' (.inl ⟨ready.1, ?_⟩)
          rw [Store.publish, Heap.publish, Heap.site?_setState, ready.2]
        · cases asks
      · refine settled_cons (works'.before.forced known) (fun none => ?_) settled
        rw [alone none]
    | @reply cell r rest next n strict pieces₁ pieces₂ own₁ own₂ _ continues behind others =>
      have busy : (cell :: cellsOf frames).Nodup := by grind [List.nodup_append]
      obtain ⟨n, rfl⟩ := behind.exists_succ
      let m := (s.act (.alloc (.ofSuspension (.concat tail rest)))).1
      let s₁ := (s.act (.alloc (.ofSuspension (.concat tail rest)))).2
      let v : Value := .list (.cons head m)
      have made : s.Works [] s₁ [m] := s.works_alloc _
      have known : ∀ q ∈ own₀ ++ (own₁ ++ (own₂ ++ cell :: cellsOf frames)),
          ∃ c, s.heap.state? q = some c := by
        have waits := strung.pending
        have waits' := behind.pending
        have waits'' := others.pending
        have runs := forcing
        simp only [Heap.Forcing, List.map_cons] at runs
        grind
      have new : s.heap.state? m = none := s.heap.state?_size
      have other : m ∉ own₀ ++ (own₁ ++ (own₂ ++ cell :: cellsOf frames)) :=
        Heap.not_mem_of_none new known
      obtain ⟨put, forcing', known⟩ := s₁.passes (made.forcing forcing (by simp)) busy v
      have works : s.Works [cell] (s₁.publish cell v) [] := made.trans put (by simp) (by simp)
      have kept : s.heap.Carries (own₀ ++ (own₁ ++ own₂)) (s₁.publish cell v).heap :=
        works.carries (by grind [List.nodup_append])
      have waits : (s₁.publish cell v).heap.state? m =
          some (.pending { task := .resume (.concat tail rest) }) :=
        put.others m _ (by grind) (Heap.state?_new _ _)
      have ready : (s₁.publish cell v).heap.Ready m (m :: (own₀ ++ own₁)) := by
        refine ⟨List.mem_cons_self, ?_⟩
        rw [Store.publish, Heap.publish, Heap.site?_setState]
        exact s.heap.site?_new _
      obtain ⟨tail', t, left, moves, strung', apart', works', alone, ready', settled⟩ :=
        ih (others.carry (kept.weaken (by simp)))
          ((behind.carry (kept.weaken (by simp))).strung waits
            (strung.carry (kept.weaken (by simp)))) forcing' (by grind [List.nodup_append])
      refine ⟨tail', t, left, ?_, by simpa using strung', apart', ?_, by simp,
        fun _ => ready' (.inl ready), ?_⟩
      · refine .head (Engine.moves_give rfl) ?_
        rw [continues.list]
        have comes : (LazyList.concat (n + 1) (.cons head tail) rest).Comes E s
            (.ok (.cons head m)) s₁ := .act .done
        exact (comes.moves cell .none frames).trans (.head Engine.moves_value moves)
      · exact works.trans works' (by simp) (by grind)
      · refine settled_cons (works'.before.forced known) (fun none => ?_) settled
        rw [alone none]

end

/-- If the list for which they wait ends, the engine goes on to the pieces behind it. -/
def Engine.Proceeds (E : Engine) (h : Heap) (frames : List Frame) (pieces : List Piece)
    (own : List Ref) : Prop :=
  ∀ s : Store, h.Carries own s.heap → s.heap.Forcing (cellsOf frames) →
    (own ++ cellsOf frames).Nodup →
    E.Arrives (own ++ cellsOf frames) (cellsOf frames).getLast? pieces (.give (.list .nil)) frames s

/-- Whoever waits for the cell is brought to its first piece. -/
def Engine.Opens (E : Engine) (h : Heap) (strict : Bool) (r : Ref) (pieces : List Piece)
    (own : List Ref) : Prop :=
  ∀ (s : Store) (frames : List Frame) (pieces' : List Piece) (own' : List Ref),
    h.Carries own s.heap → s.heap.Awaits frames pieces' own' → s.heap.Forcing (cellsOf frames) →
    (own ++ (own' ++ cellsOf frames)).Nodup → Frame.Asks r strict frames →
    E.Proceeds s.heap frames pieces' own' →
    E.Arrives (own ++ (own' ++ cellsOf frames)) (cellsOf frames).getLast? (pieces ++ pieces')
      (.enter r) frames s

/-- Whichever cell does the work is brought to the first piece. -/
def Engine.Runs (E : Engine) (h : Heap) (task : Task) (pieces : List Piece) (own : List Ref) :
    Prop :=
  ∀ (s : Store) (cell : Ref) (frames : List Frame) (pieces' : List Piece) (own' : List Ref),
    h.Carries own s.heap → s.heap.Awaits frames pieces' own' →
    s.heap.Forcing (cell :: cellsOf frames) → (own ++ (own' ++ cell :: cellsOf frames)).Nodup →
    E.Proceeds s.heap frames pieces' own' →
    E.Arrives (own ++ (own' ++ cell :: cellsOf frames)) (cell :: cellsOf frames).getLast?
      (pieces ++ pieces') (.run cell none (task.script E.bound)) frames s

section
variable {E : Engine} {h h' : Heap} {s t : Store} {frames : List Frame} {v : Value}
variable {own own' : List Ref} {pieces pieces' : List Piece} {task : Task}
variable {cell r rest second others : Ref} {next : Value → Script Outcome} {n : Nat} {strict : Bool}

namespace Engine

theorem Proceeds.carry (proceeds : E.Proceeds h frames pieces own) (carries : h.Carries own h') :
    E.Proceeds h' frames pieces own :=
  fun s more => proceeds s (carries.trans more)

theorem Opens.carry (opens : E.Opens h strict r pieces own) (carries : h.Carries own h') :
    E.Opens h' strict r pieces own :=
  fun s frames pieces' own' more => opens s frames pieces' own' (carries.trans more)

theorem proceeds_nobody (E : Engine) (h : Heap) : E.Proceeds h [] [] [] :=
  fun s _ _ _ => ⟨_, .refl, .ended (s.works_refl (by simp)) (by simp)⟩

/-- The value that nobody waits for is the value of the cell that waited last. -/
theorem Arrives.settle (arrives : E.Arrives own (cellsOf frames).getLast? pieces (.give v) frames s)
    (known : s.heap.state? cell = some (.forced v)) :
    E.Arrives own (cell :: cellsOf frames).getLast? pieces (.give v) frames s := by
  cases frames with
  | cons frame frames => simpa using arrives
  | nil =>
    obtain ⟨y, moves, arrived⟩ := arrives
    rcases moves.cases_head with same | ⟨_, first, _⟩
    · subst same
      refine ⟨_, .refl, ?_⟩
      cases arrived with
      | ended works _ => exact .ended works (by simpa using known)
      | cell strung ready works apart _ =>
        exact .cell strung ready works apart (by simpa using known)
    · cases (show E.Advance _ _ _ _ _ _ from first)

/-- A cell has got the end of a list, and the frames behind it go on. -/
theorem Proceeds.publish {c : Control} {frames' : List Frame}
    (proceeds : E.Proceeds h frames pieces own) (carries : h.Carries own s.heap)
    (forcing : s.heap.Forcing (cell :: cellsOf frames))
    (apart : (own ++ cell :: cellsOf frames).Nodup)
    (moves : ReflTransGen E.Moves (c, frames', s)
      (.give (.list .nil), frames, s.publish cell (.list .nil))) :
    E.Arrives (own ++ cell :: cellsOf frames)
      (cell :: cellsOf frames).getLast? pieces c frames' s := by
  have busy : (cell :: cellsOf frames).Nodup := by grind [List.nodup_append]
  obtain ⟨works, forcing', known⟩ := s.passes forcing busy (.list .nil)
  have kept : s.heap.Carries own (s.publish cell (.list .nil)).heap :=
    works.carries (by grind [List.nodup_append])
  have arrives := proceeds _ (carries.trans kept) forcing' (by grind [List.nodup_append])
  exact (arrives.settle known).after moves works (by simp) (by grind)

theorem Proceeds.tail (proceeds : E.Proceeds h frames pieces own) :
    E.Proceeds h ({ cell, site := none, wait := .tail } :: frames) pieces own :=
  fun _ carries forcing apart =>
    proceeds.publish carries forcing apart (.single moves_tail)

/-- Nothing comes behind the list. -/
theorem Proceeds.last (proceeds : E.Proceeds h frames pieces own)
    (continues : Continues next n rest strict) (room : 0 < n)
    (ends : h.state? rest = some (.forced (.list .nil))) :
    E.Proceeds h ({ cell, site := none, wait := .reply .pure r next } :: frames) pieces own := by
  intro s carries forcing apart
  obtain ⟨n, rfl⟩ := Nat.exists_eq_add_one_of_ne_zero (Nat.pos_iff_ne_zero.1 room)
  have comes : (LazyList.concat (n + 1) .nil rest).Comes E s (.ok .nil) s :=
    .demand (.found (carries.forced _ _ ends)) rfl .done
  have moves := comes.moves (f := fun l => answer (.list l)) cell .none frames
  refine proceeds.publish carries forcing apart (.head (moves_give rfl) ?_)
  rw [continues.list]
  exact moves.tail moves_value

/-- The list behind is entered, and nothing comes behind that one. -/
theorem Proceeds.more (proceeds : E.Proceeds h frames pieces' own')
    (awaits : h.Awaits frames pieces' own') (continues : Continues next n rest strict)
    (room : 1 < n) (lists : h.state? rest = some (.forced (.list (.cons second others))))
    (ends : h.state? others = some (.forced (.list .nil)))
    (opens : E.Opens h true second pieces own) :
    E.Proceeds h ({ cell, site := none, wait := .reply .pure r next } :: frames) (pieces ++ pieces')
      (own ++ own') := by
  intro s carries forcing apart
  obtain ⟨n, rfl⟩ : ∃ m, n = m + 2 := ⟨n - 2, by omega⟩
  have left := carries.weaken (List.subset_append_left own own')
  have right := carries.weaken (List.subset_append_right own own')
  have ends' := right.forced _ _ ends
  have found : (forceList rest).Comes E s (.ok (.cons second others)) s :=
    .demand (.found (carries.forced _ _ lists)) rfl .done
  have moves : ReflTransGen E.Moves
      (.give (.list .nil), { cell, site := .none, wait := .reply .pure r next } :: frames, s)
      (.enter second,
        { cell, site := .none, wait := .reply .pure second (joinOn (n + 1) others) } :: frames,
          s) := by
    refine .head (moves_give rfl) ?_
    have looped := found.moves (f := fun l => joinNext (n + 1) l) cell .none frames
    have demanded : joinNext (n + 1) (.cons second others) =
        .demand .pure second (joinOn (n + 1) others) := forceList_join second (n + 1) others
    rw [demanded] at looped
    rw [continues.list, concat_nil]
    exact looped.tail Advance.demand.move
  have waits : s.heap.Awaits
      ({ cell, site := .none, wait := .reply .pure second (joinOn (n + 1) others) } :: frames)
      pieces' own' := .reply (continues_joinOn _ _) (.nothing n.succ_pos ends') (awaits.carry right)
  have proceeds' : E.Proceeds s.heap
      ({ cell, site := .none, wait := .reply .pure second (joinOn (n + 1) others) } :: frames)
      pieces' own' :=
    (proceeds.carry right).last (continues_joinOn (n + 1) others) n.succ_pos ends'
  have arrives := opens s _ pieces' own' left waits forcing (by simpa using apart)
    (.intro (continues_joinOn _ _)) proceeds'
  have same : s.Works [] s [] := s.works_refl (by simp)
  exact arrives.after moves same (by simp) fun q mem => .inl (by simpa using mem)

/-- A list all of whose cells are forced is at its first piece already. -/
theorem opens_whole {l : LazyList} {rs : List Ref} (known : h.state? r = some (.forced (.list l)))
    (whole : h.Whole l rs) : E.Opens h strict r (rs.map .element) [] := by
  intro s frames pieces' own' carries awaits forcing apart asks proceeds
  have found : E.Moves (.enter r, frames, s) (.give (.list l), frames, s) :=
    Advance.found (carries.forced _ _ known)
  have same : s.Works [] s [] := s.works_refl (by simp)
  cases whole.carry carries with
  | nil =>
    have arrives := proceeds s (s.heap.carries_refl _) forcing apart
    exact arrives.after (.single found) same (by simp) fun _ => .inl
  | cons tail whole' =>
    obtain ⟨tail', t, left, moves, strung, apart', works, _, ready, settled⟩ :=
      awaits.gives_cell (.whole tail whole') forcing (by simpa using apart)
    exact ⟨_, .head found moves, .cell strung (ready (.inr ⟨r, strict, asks⟩)) works apart' settled⟩

/-- The loops in concatenations have room for the two lists of a call of `merge`. -/
abbrev Roomy (E : Engine) : Prop := 1 < E.bound

theorem moves_concat (tail rest : Ref) : E.Moves
    (.run cell .none ((Task.resume (.concat tail rest)).script E.bound), frames, s)
    (.enter tail, { cell, site := .none, wait := .reply .pure tail (joinOn E.bound rest) } ::
      frames, s) := by
  simp only [Task.script, Suspension.script, forceList_join]
  exact Advance.demand

/-- A concatenation behind which nothing comes. -/
theorem Opens.runs_last {tail : Ref} (roomy : E.Roomy) (opens : E.Opens h true tail pieces own)
    (ends : h.state? rest = some (.forced (.list .nil))) :
    E.Runs h (.resume (.concat tail rest)) pieces own := by
  intro s cell frames pieces' own' carries awaits forcing apart proceeds
  have room : 0 < E.bound := Nat.lt_trans Nat.zero_lt_one roomy
  have ends' := carries.forced _ _ ends
  have continues := continues_joinOn E.bound rest
  have arrives := opens s _ pieces' own' carries (.reply continues (.nothing room ends') awaits)
    forcing apart (.intro continues) (proceeds.last continues room ends')
  have same : s.Works [] s [] := s.works_refl (by simp)
  exact arrives.after (.single (moves_concat tail rest)) same (by simp) fun _ => .inl

theorem Opens.runs_more {tail : Ref} (roomy : E.Roomy) (opens : E.Opens h true tail pieces own)
    (next : E.Opens h true second pieces' own') (strung : h.Strung true second pieces' own')
    (lists : h.state? rest = some (.forced (.list (.cons second others))))
    (ends : h.state? others = some (.forced (.list .nil))) :
    E.Runs h (.resume (.concat tail rest)) (pieces ++ pieces') (own ++ own') := by
  intro s cell frames pieces'' own'' carries awaits forcing apart proceeds
  have left := carries.weaken (List.subset_append_left own own')
  have right := carries.weaken (List.subset_append_right own own')
  have lists' := carries.forced _ _ lists
  have ends' := carries.forced _ _ ends
  have continues := continues_joinOn E.bound rest
  have behind : s.heap.Behind E.bound rest pieces' own' :=
    .list roomy lists' ends' (strung.carry right)
  have arrives := opens s _ (pieces' ++ pieces'') (own' ++ own'') left
    (.reply continues behind awaits) forcing (by simpa using apart) (.intro continues)
    (proceeds.more awaits continues roomy lists' ends' (next.carry right))
  have same : s.Works [] s [] := s.works_refl (by simp)
  rw [List.append_assoc pieces]
  exact arrives.after (.single (moves_concat tail rest)) same (by simp) fun q mem =>
    .inl (by simpa using mem)

/-- A call of `merge` demands its first collection and goes on as a concatenation does, if that is a
    list. -/
theorem exists_continues_mergeAll (bound : Nat) (first rest : Ref) : ∃ next,
    Builtin.merge.run bound [first, rest] = .demand .pure first next ∧
      Continues next bound rest false :=
  ⟨_, rfl, fun _ => rfl, fun _ => rfl, nofun⟩

theorem Opens.runs_merge {f first : Ref} (roomy : E.Roomy)
    (opens : E.Opens h false first pieces own)
    (next : E.Opens h true second pieces' own') (strung : h.Strung true second pieces' own')
    (function : h.state? f = some (.forced (.function Builtin.merge.function))) :
    E.Runs h (.call f { positionals := [first, second] }) (pieces ++ pieces') (own ++ own') := by
  intro s cell frames pieces'' own'' carries awaits forcing apart proceeds
  obtain ⟨l, rest, t, moves, works, known, whole⟩ := moves_call (E := E)
    cell first [second] .none frames (carries.forced _ _ function) rfl rfl
  obtain ⟨script, demands, continues⟩ := exists_continues_mergeAll E.bound first rest
  rw [demands] at moves
  cases whole with
  | @cons _ others _ _ ends none =>
    cases none
    have kept (own : List Ref) : s.heap.Carries own t.heap := works.carries (by simp)
    have left := (carries.weaken (List.subset_append_left own own')).trans (kept own)
    have right := (carries.weaken (List.subset_append_right own own')).trans (kept own')
    have behind : t.heap.Behind E.bound rest pieces' own' :=
      .list roomy known ends (strung.carry right)
    have arrives := opens t _ (pieces' ++ pieces'') (own' ++ own'') left
      (.reply continues behind (awaits.carry (kept own''))) (works.forcing forcing (by simp))
      (by simpa using apart) (.intro continues)
      ((proceeds.carry (kept own'')).more (awaits.carry (kept own'')) continues roomy known ends
        (next.carry right))
    rw [List.append_assoc pieces]
    exact arrives.after (moves.tail Advance.demand.move) works (by simp) fun q mem =>
      .inl (by simpa using mem)

/-- A call of `append` leaves a call of `merge` as its tail. -/
theorem moves_append {f : Ref} (cell first : Ref) (rs : List Ref) (frames : List Frame)
    (function : s.heap.state? f = some (.forced (.function Builtin.append.function))) :
    ∃ l rest f' child t, ReflTransGen E.Moves
        (.run cell .none ((Task.call f { positionals := first :: rs }).script E.bound), frames, s)
        (.run cell .none (.done (.tail child)), frames, t) ∧
      s.Works [] t [child] ∧ s.heap.state? child = .none ∧
      t.heap.state? rest = some (.forced (.list l)) ∧ t.heap.Whole l rs ∧
      t.heap.state? f' = some (.forced (.function Builtin.merge.function)) ∧
      t.heap.state? child =
        some (.pending { task := .call f' { positionals := [first, rest] } }) := by
  obtain ⟨l, rest, t, moves, works, known, whole⟩ := moves_call (E := E)
    cell first rs .none frames function rfl rfl
  obtain ⟨child, f', u, calls, made, _, _, waits, function'⟩ :=
    Script.works_allocCall E t .merge [first, rest]
  have all : s.Works [] u [child] := works.trans made (by simp) (by simp)
  refine ⟨l, rest, f', child, u, ?_, all, ?_, ?_, ?_, function', waits⟩
  · exact moves.trans (calls.moves (f := fun r => .done (.tail r)) cell .none frames)
  · exact (all.fresh child (by simp)).resolve_left (by simp)
  · exact made.before.forced known
  · have kept : t.heap.Carries [] u.heap := made.carries (by simp)
    exact whole.carry kept

/-- The tail of a call of `append` is spliced into the cell that runs, or else this cell waits for
    it. -/
theorem moves_tail_call {child : Ref} {w : Work} (plain : w.site = .none)
    (waits : s.heap.state? child = some (.pending w)) (awaits : s.heap.Awaits frames pieces own)
    (proceeds : E.Proceeds s.heap frames pieces own)
      (forcing : s.heap.Forcing (cell :: cellsOf frames))
    (apart : (child :: (own ++ cell :: cellsOf frames)).Nodup) :
    ∃ cell' frames' t, ReflTransGen E.Moves (.run cell .none (.done (.tail child)), frames, s)
        (.run cell' .none (w.task.script E.bound), frames', t) ∧
      s.Works [child] t [] ∧ t.heap.Awaits frames' pieces own ∧
        E.Proceeds t.heap frames' pieces own ∧
      t.heap.Forcing (cell' :: cellsOf frames') ∧ (own ++ cell' :: cellsOf frames').Nodup ∧
      (∀ q ∈ cell' :: cellsOf frames', q ∈ child :: cell :: cellsOf frames) ∧
      (cell' :: cellsOf frames').getLast? = (cell :: cellsOf frames).getLast? := by
  have other : ∀ q ∈ own ++ cell :: cellsOf frames, q ∉ [child] := by grind
  by_cases splices : E.splices = true
  · have works := s.works_splice waits cell
    have kept : s.heap.Carries own _ := works.carries fun q mem => other q (by simp [mem])
    have move : E.Advance (.run cell .none (.done (.tail child))) frames s _ _ _ :=
      .splice splices waits
    rw [plain] at move
    exact ⟨cell, frames, _, .single move, works, awaits.carry kept, proceeds.carry kept,
      works.forcing forcing fun q mem => other q (by simp [mem]), (List.nodup_cons.1 apart).2,
      fun q => List.mem_cons_of_mem _, rfl⟩
  · have works := (s.works_start waits).forget
    have kept : s.heap.Carries own _ := works.carries fun q mem => other q (by simp [mem])
    have stays := works.forcing forcing fun q mem => other q (by simp [mem])
    have waited : E.Advance (.run cell .none (.done (.tail child))) frames s _ _ _ :=
      .tail fun yes => absurd yes splices
    have started :
        E.Advance (.enter child) ({ cell, site := .none, wait := .tail } :: frames) s _ _ _ :=
      .start waits
    rw [plain] at started
    refine ⟨child, { cell, site := .none, wait := .tail } :: frames, _,
      .head waited.move (.single started.move), works,
      (awaits.carry kept).tail, (proceeds.carry kept).tail, ?_, by grind, by simp, by simp⟩
    intro q mem
    rcases List.mem_cons.1 mem with rfl | mem
    · exact Heap.state?_setState_self waits _
    · exact stays q mem

theorem Opens.runs_append {f first : Ref} {rs : List Ref} (roomy : E.Roomy)
    (opens : E.Opens h false first pieces own) (strung : h.Strung false first pieces own)
    (function : h.state? f = some (.forced (.function Builtin.append.function))) :
    E.Runs h (.call f { positionals := first :: rs }) (pieces ++ rs.map .element) own := by
  intro s cell frames pieces' own' carries awaits forcing apart proceeds
  obtain ⟨l, rest, f', child, t, moves, works, new, known, whole, function', waits⟩ :=
    moves_append (E := E) cell first rs frames
      (carries.forced _ _ function)
  have kept (own : List Ref) : s.heap.Carries own t.heap := works.carries (by simp)
  have owned : ∀ q ∈ own ++ (own' ++ cell :: cellsOf frames), ∃ c, s.heap.state? q = some c := by
    have waits := (strung.carry carries).pending
    have waits' := awaits.pending
    have runs := forcing
    simp only [Heap.Forcing] at runs
    grind
  have other := Heap.not_mem_of_none new owned
  obtain ⟨cell', frames', u, moves', works', awaits', proceeds', forcing', apart', among, last⟩ :=
    moves_tail_call rfl waits (awaits.carry (kept own')) (proceeds.carry (kept own'))
      (works.forcing forcing (by simp)) (by grind [List.nodup_append])
  have stays : t.heap.Carries own u.heap := works'.carries (by grind)
  have stays' : t.heap.Carries [] u.heap := works'.carries (by simp)
  have runs := Opens.runs_merge roomy (opens.carry ((carries.trans (kept own)).trans stays))
    (opens_whole (stays'.forced _ _ known) (whole.carry stays'))
    (.whole (stays'.forced _ _ known) (whole.carry stays')) (stays'.forced _ _ function')
  have arrives := runs u cell' frames' pieces' own' (u.heap.carries_refl _) awaits' forcing'
    (by grind [List.nodup_append]) proceeds'
  rw [last] at arrives
  have reached : s.Works [] u [] := works.trans works' (by simp) (by simpa using new)
  exact arrives.after (moves.trans moves') reached (by simp) (by grind)

/-- A waiting list is entered by the cell that does its work. -/
theorem Runs.opens (runs : E.Runs h task pieces own)
    (waits : h.state? r = some (.pending { task })) : E.Opens h strict r pieces (r :: own) := by
  intro s frames pieces' own' carries awaits forcing apart asks proceeds
  have waits' := carries.own r (by simp) _ waits
  have started : E.Advance (.enter r) frames s (.run r .none (task.script E.bound)) frames
    (s.start r) :=
    .start waits'
  have works := s.works_start waits'
  have kept {others : List Ref} (apart : ∀ q ∈ others, q ∉ [r]) :
      s.heap.Carries others (s.start r).heap := works.carries apart
  have own_kept : s.heap.Carries own _ := kept (by grind)
  have own_kept' : s.heap.Carries own' _ := kept (by grind)
  have stays := works.forcing forcing (by grind)
  have forcing' : (s.start r).heap.Forcing (r :: cellsOf frames) := by
    intro q mem
    rcases List.mem_cons.1 mem with rfl | mem
    · exact Heap.state?_setState_self waits' _
    · exact stays q mem
  have arrives := runs (s.start r) r frames pieces' own'
    ((carries.weaken (by simp)).trans own_kept) (awaits.carry own_kept') forcing'
    (by grind [List.nodup_append]) (proceeds.carry own_kept')
  have last : (r :: cellsOf frames).getLast? = (cellsOf frames).getLast? := by
    cases asks
    simp
  rw [last] at arrives
  exact arrives.after (.single started.move) works (by simp) fun q mem => .inl (by grind)

end Engine

open Engine

/-- A strung list is entered up to its first piece. -/
theorem Heap.Strung.opens (roomy : E.Roomy) (strung : h.Strung strict r pieces own) :
    E.Opens h strict r pieces own := by
  induction strung with
  | source strict r =>
    intro s frames pieces' own' _ awaits _ apart asks _
    exact ⟨_, .refl, .source asks awaits (s.works_refl (by simp)) apart rfl⟩
  | whole known whole => exact opens_whole known whole
  | append waits function list ih =>
    exact (Opens.runs_append roomy ih list function).opens waits
  | merge waits function _ next ih ih' =>
    exact (Opens.runs_merge roomy ih ih' next function).opens waits
  | last waits ends _ ih => exact (Opens.runs_last roomy ih ends).opens waits
  | more waits lists ends _ next ih ih' =>
    exact (Opens.runs_more roomy ih ih' next lists ends).opens waits

/-- The work of a strung list that waits, done by any cell. -/
theorem Heap.Strung.runs (roomy : E.Roomy) (strung : h.Strung strict r pieces own)
    (mine : r ∈ own) : ∃ task own', own = r :: own' ∧ h.state? r = some (.pending { task }) ∧
      E.Runs h task pieces own' := by
  cases strung with
  | source | whole => cases mine
  | append waits function list =>
    exact ⟨_, _, rfl, waits, Opens.runs_append roomy (list.opens roomy) list function⟩
  | merge waits function list next =>
    exact ⟨_, _, rfl, waits, Opens.runs_merge roomy (list.opens roomy) (next.opens roomy) next
      function⟩
  | last waits ends list => exact ⟨_, _, rfl, waits, Opens.runs_last roomy (list.opens roomy) ends⟩
  | more waits lists ends list next =>
    exact ⟨_, _, rfl, waits,
      Opens.runs_more roomy (list.opens roomy) (next.opens roomy) next lists ends⟩

theorem Heap.Awaits.proceeds (roomy : E.Roomy) (awaits : h.Awaits frames pieces own) :
    E.Proceeds h frames pieces own := by
  induction awaits with
  | nobody => exact proceeds_nobody E h
  | tail _ ih => exact ih.tail
  | reply continues behind others ih =>
    cases behind with
    | nothing room ends => exact ih.last continues room ends
    | list room lists ends next => exact ih.more others continues room lists ends (next.opens roomy)

/-- A list behind which there is nothing has ended for whoever waits for it. -/
theorem Heap.Awaits.gives_nil (roomy : E.Roomy) (awaits : s.heap.Awaits frames pieces own)
    (forcing : s.heap.Forcing (cellsOf frames)) (apart : (own ++ cellsOf frames).Nodup) :
    E.Arrives (own ++ cellsOf frames) (cellsOf frames).getLast? pieces (.give (.list .nil))
      frames s :=
  awaits.proceeds roomy s (s.heap.carries_refl _) forcing apart

/-- The innermost frame refuses what it is given, and the others pass the fault on. -/
theorem Heap.Awaits.gives_refused {e : Fault} {v' : Value} (others : h.Awaits frames pieces own)
    (forcing : s.heap.Forcing (cell :: cellsOf frames)) (apart : (cell :: cellsOf frames).Nodup)
    (reply : Demand.pure.reply (s.heap.site? r) v = .resume v') (refuses : next v' = .raise e) :
    ∃ t, ReflTransGen E.Moves
        (.give v, { cell, site := none, wait := .reply .pure r next } :: frames, s)
        (.give (.error e), [], t) ∧
      s.Works (cell :: cellsOf frames) t [] ∧
      ∀ r ∈ (cell :: cellsOf frames).getLast?, t.heap.state? r = some (.forced (.error e)) := by
  obtain ⟨works, forcing', known⟩ := s.passes forcing apart (.error e)
  obtain ⟨t, moves, works', settled⟩ := others.gives_error (E := E) forcing'
    (List.nodup_cons.1 apart).2
  refine ⟨t, (moves_refused reply refuses).trans moves, works.trans works' (by simp) (by grind), ?_⟩
  exact settled_cons (works'.before.forced known) (fun _ => rfl) settled

end
end CallByNeed
