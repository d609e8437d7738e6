import CallByNeed.Call
import CallByNeed.Proofs.Binding.Evaluation
import CallByNeed.Proofs.Binding.Supply
import CallByNeed.Proofs.Likeness.Binding

/- What is taken from arguments whose spread list ends and whose dictionaries are dictionaries, and
   what rest parameters get. Explicit arguments are put into a cell that is forced from the start; if
   lists or dictionaries have to follow them, the cell of the rest is a call of `merge` that waits.
   Lists are joined one cell at a time, dictionaries at once. -/
namespace CallByNeed

/-- The spread list, if there is one, is forced cell by cell to a list of these elements. -/
inductive Course.Spreads {ι : Type} (C : Course ι) (E : Engine) (s : Store) :
    Option Ref → List ι → Prop where
  | absent : Spreads C E s none []
  | list {r : Ref} {is : List ι} (lists : C.Forces E (C.Elements (C.Forces E) is) s r) :
      Spreads C E s (some r) is

/-- The arguments are these, once elements and entries are known. -/
structure Arguments.Supplies {ι : Type} (C : Course ι) (E : Engine) (s : Store) (a : Arguments)
    (x : Supply ι) : Prop where
  explicit : List.Forall₂ (C.means s) a.positionals x.explicit
  spread : C.Spreads E s a.spread x.spread
  keywords : EntriesLike (C.means s) a.keywords x.keywords
  dicts : List.Forall₂ ((C.dicts E).means s) a.dicts x.dicts

/-- The argument that was found, and what is left. -/
structure Arguments.Takes {ι : Type} (C : Course ι) (E : Engine) (t : Store)
    (taken : Option Ref × Arguments) (expected : Option ι × Supply ι) : Prop where
  found : Option.Rel (C.means t) taken.1 expected.1
  left : taken.2.Supplies C E t expected.2

section
variable {ι : Type} {C : Course ι} {E : Engine} {s t : Store} {a : Arguments} {x : Supply ι}

theorem Course.Spreads.later {spread : Option Ref} {is : List ι} (spreads : C.Spreads E s spread is)
    (after : C.later s t) : C.Spreads E t spread is := by
  cases spreads with
  | absent => exact .absent
  | list lists => exact .list (lists.later after)

theorem Arguments.Supplies.later (supplies : a.Supplies C E s x) (after : C.later s t) :
    a.Supplies C E t x where
  explicit := C.forall₂_means supplies.explicit after
  spread := supplies.spread.later after
  keywords := C.entriesLike_means supplies.keywords after
  dicts := (C.dicts E).forall₂_means supplies.dicts after

namespace Arguments

theorem reaches_nextPositional (supplies : a.Supplies C E s x) :
    C.Reaches E a.nextPositional s fun o t => ∃ taken, o = .ok taken ∧ Takes C E t taken x.next := by
  obtain ⟨positionals, spread, keywords, dicts⟩ := a
  obtain ⟨explicit, elements, names, entries⟩ := x
  obtain ⟨places, spreads, like, reads⟩ := supplies
  cases places with
  | cons first others =>
    exact Course.reaches_pure ⟨_, rfl, .some first, others, spreads, like, reads⟩
  | nil =>
    cases spreads with
    | absent => exact Course.reaches_pure ⟨_, rfl, .none, .nil, .absent, like, reads⟩
    | list lists =>
      cases elements with
      | nil =>
        refine (Course.reaches_forceList lists).then fun l t after same => ?_
        cases same
        have reads := (C.dicts E).forall₂_means reads after
        have like := C.entriesLike_means like after
        exact Course.reaches_pure ⟨_, rfl, .none, .nil, .absent, like, reads⟩
      | cons i is =>
        refine (Course.reaches_forceList lists).then ?_
        rintro l t after ⟨head, tail, same, means, rest⟩
        cases same
        have reads := (C.dicts E).forall₂_means reads after
        have like := C.entriesLike_means like after
        exact Course.reaches_pure ⟨_, rfl, .some means, .nil, .list rest, like, reads⟩

theorem reaches_takeEntry (key : Key) {rs : List Ref} {ds : List (Dict ι)}
    (reads : List.Forall₂ ((C.dicts E).means s) rs ds) :
    C.Reaches E (takeEntry key rs) s fun o t => ∃ taken, o = .ok taken ∧
      Option.Rel (fun taken expected => C.means t taken.1 expected.1 ∧
        List.Forall₂ ((C.dicts E).means t) taken.2 expected.2) taken
        (Supply.takeEntry key ds) := by
  induction rs generalizing s ds with
  | nil =>
    cases reads
    exact Course.reaches_pure ⟨_, rfl, .none⟩
  | cons r rs ih =>
    obtain _ | @⟨_, d, _, ds, first, others⟩ := reads
    refine (Course.reaches_forceDict first).then fun e t after like => ?_
    have found : Option.Rel (C.means t) (e.get? key) (d.get? key) := Dict.rel_find key like
    have others := (C.dicts E).forall₂_means others after
    simp only [Supply.takeEntry]
    generalize e.get? key = o, d.get? key = o' at found
    cases found with
    | some means =>
      refine (Course.reaches_alloc _).then fun left u after holds => ?_
      refine Course.reaches_pure ⟨_, rfl, .some ⟨C.stays after means, .cons ?_ ?_⟩⟩
      · refine Course.forces_of_forced holds fun u' more => ⟨_, rfl, ?_⟩
        exact (Dict.like_remove key like).imp fun _ _ => C.stays (C.trans after more)
      · exact (C.dicts E).forall₂_means others after
    | none =>
      refine (ih others).then fun taken u after' rest => ?_
      generalize Supply.takeEntry key ds = expected at rest
      cases rest with
      | none => exact Course.reaches_pure ⟨_, rfl, .none⟩
      | some rest =>
        have first := (first.later after).later after'
        exact Course.reaches_pure ⟨_, rfl, .some ⟨rest.1, .cons first rest.2⟩⟩

theorem reaches_takeKeyword (supplies : a.Supplies C E s x) (name : String) :
    C.Reaches E (a.takeKeyword name) s fun o t =>
      ∃ taken, o = .ok taken ∧ Takes C E t taken (x.takeKeyword name) := by
  obtain ⟨positionals, spread, keywords, dicts⟩ := a
  obtain ⟨explicit, elements, names, entries⟩ := x
  obtain ⟨places, spreads, like, reads⟩ := supplies
  have found := rel_find name like
  have erased := like_eraseP name like
  simp only [takeKeyword, Supply.takeKeyword]
  generalize keywords.find? (fun k => k.1 == name) = o, names.find? (fun k => k.1 == name) = o'
    at found
  cases found with
  | some first => exact Course.reaches_pure ⟨_, rfl, .some first.2, places, spreads, erased, reads⟩
  | none =>
    refine (reaches_takeEntry (.string name) reads).then fun taken t after rest => ?_
    have places := C.forall₂_means places after
    have spreads := spreads.later after
    have like := C.entriesLike_means like after
    generalize Supply.takeEntry (.string name) entries = expected at rest
    cases rest with
    | none =>
      refine Course.reaches_pure ⟨_, rfl, .none, places, spreads, like, ?_⟩
      exact (C.dicts E).forall₂_means reads after
    | some rest =>
      exact Course.reaches_pure ⟨_, rfl, .some rest.1, places, spreads, like, rest.2⟩

theorem reaches_countEntries {rs : List Ref} {ds : List (Dict ι)}
    (reads : List.Forall₂ ((C.dicts E).means s) rs ds) :
    C.Reaches E (countEntries rs) s fun o _ => o = .ok (Supply.countEntries ds) := by
  induction rs generalizing s ds with
  | nil =>
    cases reads
    exact Course.reaches_pure rfl
  | cons r rs ih =>
    obtain _ | @⟨_, d, _, ds, first, others⟩ := reads
    refine (Course.reaches_forceDict first).then fun e t after like => ?_
    refine (ih ((C.dicts E).forall₂_means others after)).bind (fun n u _ same => ?_) nofun
    cases same
    exact Course.reaches_pure (by rw [Dict.size_eq like, Supply.countEntries])

/-- The end of `checkTaken`, for a number of positionals that are left. -/
theorem reaches_checkCounts {keywords : List (String × Ref)} {names : List (String × ι)}
    (same : keywords.length = names.length) {rs : List Ref} {ds : List (Dict ι)}
    (reads : List.Forall₂ ((C.dicts E).means s) rs ds) (left : Nat) :
    C.Reaches E
      (if 0 < left then fail (.extraPositionals left)
      else do
        let left := keywords.length + (← countEntries rs)
        if 0 < left then fail (.extraKeywords left) else pure ())
      s fun o _ => Script.Answers Eq (if 0 < left then .error (.extraPositionals left)
        else if 0 < names.length + Supply.countEntries ds
          then .error (.extraKeywords (names.length + Supply.countEntries ds)) else .ok ()) o := by
  by_cases extra : 0 < left
  · simp only [if_pos extra]
    exact Course.reaches_fail .fault
  · simp only [if_neg extra]
    refine (reaches_countEntries reads).bind (fun n t _ counted => ?_) nofun
    cases counted
    rw [same]
    split
    · exact Course.reaches_fail .fault
    · exact Course.reaches_pure (.answer rfl)

theorem reaches_checkTaken (supplies : a.Supplies C E s x) :
    C.Reaches E a.checkTaken s fun o _ => Script.Answers Eq x.checkTaken o := by
  have next := reaches_nextPositional supplies
  have names := supplies.keywords.length_eq
  have places := supplies.explicit
  have reads := supplies.dicts
  unfold checkTaken Supply.checkTaken
  unfold Supply.next at next
  generalize a.positionals = ps, x.explicit = is at places next
  cases places with
  | @cons p i ps is first others =>
    simp only [List.isEmpty_cons, Bool.false_eq_true, if_false, List.length_cons, others.length_eq]
    exact reaches_checkCounts names reads (is.length + 1)
  | nil =>
    simp only [List.isEmpty_nil, if_true]
    refine next.then ?_
    rintro ⟨found, left⟩ t after ⟨taken, -⟩
    have reads := (C.dicts E).forall₂_means reads after
    cases elements : x.spread with
    | nil =>
      simp only [elements] at taken
      cases taken
      exact reaches_checkCounts names reads 0
    | cons i is =>
      simp only [elements] at taken
      cases taken
      have one : min (is.length + 1) 1 = 1 := by omega
      simp only [List.length_cons, one]
      exact reaches_checkCounts names reads 1

end Arguments
end

/-! ### Rest parameters -/

/-- The one parameter takes the first argument, and the rest parameter the others. -/
theorem Signature.bind_plain (name more : String) (first : Ref) (others : List Ref)
    (spread : Option Ref) :
    (Signature.plain [name] (some more)).bind { positionals := first :: others, spread } = (do
      let (rest, _) ← ({ positionals := others, spread } : Arguments).restPositionals
      pure [first, rest]) := by
  cases spread <;>
    simp [Signature.bind, Signature.plain, Binding.bindNamed, Binding.bindRest,
      Binding.findPositional, Binding.push, Arguments.nextPositional, Arguments.restPositionals,
      Arguments.checkTaken, Arguments.countEntries]

theorem Signature.bind_merge (first : Ref) (others : List Ref) (spread : Option Ref) :
    Builtin.merge.signature.bind { positionals := first :: others, spread } = (do
      let (rest, _) ← ({ positionals := others, spread } : Arguments).restPositionals
      pure [first, rest]) :=
  Signature.bind_plain _ _ first others spread

section
variable {ι : Type} {C : Course ι} {E : Engine} {s t : Store}

namespace Course

theorem reaches_allocValue (v : Value) : C.Reaches E (allocValue v : Script Ref) s fun o t =>
    ∃ r, o = .ok r ∧ t.heap.state? r = some (.forced v) :=
  reaches_alloc (.ofValue v)

theorem reaches_push {l : LazyList} {head : Ref} {i : ι} {is : List ι}
    (elements : C.Elements (C.Forces E) is s (.list l)) (means : C.means s head i) :
    C.Reaches E (LazyList.push l head) s fun o t =>
      ∃ l', o = .ok l' ∧ C.Elements (C.Forces E) (i :: is) t (.list l') := by
  refine (reaches_allocValue (.list l)).then fun tail t after holds => ?_
  refine reaches_pure ⟨_, rfl, head, tail, rfl, C.stays after means, ?_⟩
  exact forces_of_forced holds fun u more => elements.later (C.trans after more)

theorem reaches_ofRefs {rs : List Ref} {is : List ι} (known : List.Forall₂ (C.means s) rs is) :
    C.Reaches E (LazyList.ofRefs rs : Script LazyList) s fun o t =>
      ∃ l, o = .ok l ∧ C.Elements (C.Forces E) is t (.list l) := by
  -- The last element is put in place first.
  have pushes : ∀ {rs : List Ref} {is js : List ι} {l : LazyList} {s : Store},
      List.Forall₂ (C.means s) rs is → C.Elements (C.Forces E) js s (.list l) →
      C.Reaches E (rs.foldlM LazyList.push l : Script LazyList) s fun o t =>
        ∃ l', o = .ok l' ∧ C.Elements (C.Forces E) (is.reverse ++ js) t (.list l') := by
    intro rs
    induction rs with
    | nil =>
      intro is js l s known elements
      cases known
      exact reaches_pure ⟨l, rfl, elements⟩
    | cons r rs ih =>
      intro is js l s known elements
      obtain _ | @⟨_, i, _, is, first, others⟩ := known
      rw [List.foldlM_cons, List.reverse_cons, List.append_assoc]
      refine (reaches_push elements first).then fun l' t after pushed => ?_
      exact ih (C.forall₂_means others after) pushed
  have all := @pushes _ _ [] .nil _ (List.forall₂_reverse_iff.2 known) rfl
  rwa [List.reverse_reverse, List.append_nil] at all

/-- What comes of an ended list comes after the elements of one that has not ended. Each of these is
    left to a new cell. -/
theorem reaches_concat_append {is all : List ι} {room bound : Nat} {l : LazyList} {rest : Ref}
    (enough : room < bound) (loops : room < E.bound)
    (elements : C.Elements (C.Forces E) is s (.list l))
    (ended : ∀ t bound, C.later s t → room < bound →
      C.Reaches E (LazyList.concat bound .nil rest) t fun o u =>
        ∃ l', o = .ok l' ∧ C.Elements (C.Promises E) all u (.list l')) :
    C.Reaches E (LazyList.concat bound l rest) s fun o u =>
      ∃ l', o = .ok l' ∧ C.Elements (C.Promises E) (is ++ all) u (.list l') := by
  induction is generalizing s bound l with
  | nil =>
    cases elements
    exact ended s bound (C.refl s) enough
  | cons i is ih =>
    obtain ⟨spare, rfl⟩ := Nat.exists_eq_add_of_lt enough
    obtain ⟨head, tail, same, means, tails⟩ := elements
    cases same
    refine (reaches_alloc (.ofSuspension (.concat tail rest))).then fun r t after pending => ?_
    refine reaches_pure ⟨_, rfl, head, r, rfl, C.stays after means, .inr ⟨_, pending, ?_⟩⟩
    intro u after'
    have later := C.trans after after'
    refine (reaches_forceList (tails.later later)).then fun l v after'' elements => ?_
    have later := C.trans later after''
    refine (ih loops elements fun t bound more => ended t bound (C.trans later more)).then ?_
    exact fun l' _ _ elements => reaches_pure ⟨_, rfl, elements⟩

/-- The elements of one list and then of others. A loop is spent on each list that has ended. -/
theorem reaches_concat {iss : List (List ι)} {is : List ι} {bound : Nat} {l : LazyList} {rest : Ref}
    (enough : iss.length < bound) (loops : iss.length < E.bound)
    (elements : C.Elements (C.Forces E) is s (.list l))
    (lists : C.Forces E ((C.lists E).Elements (C.Forces E) iss) s rest) :
    C.Reaches E (LazyList.concat bound l rest) s fun o t =>
      ∃ l', o = .ok l' ∧ C.Elements (C.Promises E) (is ++ iss.flatten) t (.list l') := by
  induction iss generalizing is bound l rest s with
  | nil =>
    refine reaches_concat_append enough loops elements fun t bound after enough => ?_
    obtain ⟨spare, rfl⟩ := Nat.exists_eq_add_of_lt enough
    refine Reaches.then (reaches_forceList (C := C.reading E _) (lists.later after)) ?_
    intro l u _ ended
    cases ended
    exact reaches_pure ⟨.nil, rfl, rfl⟩
  | cons js iss ih =>
    refine reaches_concat_append enough loops elements fun t bound after enough => ?_
    rw [List.length_cons] at enough loops
    obtain ⟨spare, rfl⟩ := Nat.exists_eq_add_of_lt enough
    refine Reaches.then (reaches_forceList (C := C.reading E _) (lists.later after)) ?_
    rintro _ u after' ⟨next, rests, same, known, lists⟩
    cases same
    refine (reaches_forceList known).then fun l v after'' elements => ?_
    exact ih (by omega) (by omega) elements (lists.later after'')

/-- Dictionaries are merged one after the other. -/
theorem reaches_mergeDicts {ds : List (Dict ι)} {bound : Nat} {l : LazyList} {e : Dict Ref}
    {d : Dict ι} (room : ds.length < bound) (like : DictLike (C.means s) e d)
    (dicts : (C.dicts E).Elements (C.Forces E) ds s (.list l)) :
    C.Reaches E (l.walk (fun (d : Dict Ref) r => do pure (.yield (d.merge (← forceDict r)))) bound e)
      s fun o t => ∃ e', o = .ok e' ∧ DictLike (C.means t) e' (ds.foldl Dict.merge d) := by
  induction ds generalizing bound l e d s with
  | nil =>
    obtain ⟨spare, rfl⟩ := Nat.exists_eq_add_of_lt room
    cases dicts
    exact reaches_pure ⟨e, rfl, like⟩
  | cons first ds ih =>
    rw [List.length_cons] at room
    obtain ⟨spare, rfl⟩ := Nat.exists_eq_add_of_lt room
    obtain ⟨head, tail, same, known, others⟩ := dicts
    cases same
    have merges : C.Reaches E (do pure (ForInStep.yield (e.merge (← forceDict head)))) s
        fun o t => ∃ step, o = .ok step ∧ ∃ e', step = .yield e' ∧
          DictLike (C.means t) e' (d.merge first) :=
      (reaches_forceDict known).then fun f t after other =>
        reaches_pure ⟨_, rfl, _, rfl, Dict.like_merge (C.entriesLike_means like after) other⟩
    refine merges.then ?_
    rintro _ t after ⟨e', rfl, like⟩
    refine Reaches.then (reaches_forceList (C := C.reading E _) (others.later after)) ?_
    intro l t' after' dicts
    exact ih (by omega) (C.entriesLike_means like after') dicts

/-- A call of `merge` comes to what `merge` makes of its parameters. -/
theorem reaches_callMerge {κ : Type} {cells : κ → Store → Value → Prop} {first f : Ref}
    {others : List Ref} {ks : List κ} {post : Store → Value → Prop}
    (known : List.Forall₂ ((C.reading E cells).means s) others ks)
    (function : s.heap.state? f = some (.forced (.function Builtin.merge.function)))
    (merges : ∀ t rest, C.later s t →
      C.Forces E ((C.reading E cells).Elements (C.Forces E) ks) t rest → C.Reaches E
        (Builtin.mergeAll E.bound first rest) t fun o u => ∃ v, o = .ok (.value v) ∧ post u v) :
    C.Reaches E ((Task.call f { positionals := first :: others }).script E.bound) s fun o u =>
      ∃ v, o = .ok (.value v) ∧ post u v := by
  have forces : C.Forces E (fun _ v => v = .function Builtin.merge.function) s f :=
    forces_of_forced function fun _ _ => rfl
  refine (reaches_force forces fun _ _ same => same ▸ trivial).then ?_
  rintro _ t after rfl
  simp only [Value.call, Builtin.function]
  rw [Signature.bind_merge]
  simp only [Arguments.restPositionals, bind_assoc, pure_bind]
  have lists := reaches_ofRefs (E := E) ((C.reading E cells).forall₂_means known after)
  refine Reaches.then lists fun l u after' elements => ?_
  refine (reaches_allocValue _).then fun rest v after'' holds => ?_
  refine merges v rest (C.trans after (C.trans after' after'')) ?_
  exact forces_of_forced holds fun t more => elements.later (C.trans after'' more)

/-- A new call of `merge` waits for what `merge` makes of its parameters at any later time. -/
theorem reaches_allocMerge {κ : Type} {cells : κ → Store → Value → Prop} {first : Ref}
    {others : List Ref} {ks : List κ} {post : Store → Value → Prop}
    (known : List.Forall₂ ((C.reading E cells).means s) others ks)
    (merges : ∀ t rest, C.later s t →
      C.Forces E ((C.reading E cells).Elements (C.Forces E) ks) t rest → C.Reaches E
        (Builtin.mergeAll E.bound first rest) t fun o u => ∃ v, o = .ok (.value v) ∧ post u v) :
    C.Reaches E (Arguments.allocMerge (first :: others) : Script Ref) s fun o t =>
      ∃ r, o = .ok r ∧ C.Waits E post t r := by
  refine (reaches_allocValue _).then fun f t after function => ?_
  refine (reaches_alloc _).imp fun o u after' ⟨r, same, pending⟩ => ⟨r, same, _, pending, ?_⟩
  intro v after''
  have later := C.trans (C.trans after after') after''
  have function := C.forced (C.trans after' after'') function
  have known := (C.reading E cells).forall₂_means known later
  exact reaches_callMerge known function fun w rest more => merges w rest (C.trans later more)

theorem reaches_mergeLists {iss : List (List ι)} {is : List ι} {first rest : Ref}
    (loops : iss.length < E.bound) (elements : C.Forces E (C.Elements (C.Forces E) is) s first)
    (lists : C.Forces E ((C.lists E).Elements (C.Forces E) iss) s rest) :
    C.Reaches E (Builtin.mergeAll E.bound first rest) s fun o t =>
      ∃ v, o = .ok (.value v) ∧ C.Elements (C.Promises E) (is ++ iss.flatten) t v := by
  refine (reaches_force elements fun _ _ => Elements.plain).then fun v t after elements => ?_
  obtain ⟨l, rfl⟩ := elements.exists_list
  refine (reaches_concat loops loops elements (lists.later after)).then fun l u _ elements => ?_
  exact reaches_pure ⟨_, rfl, elements⟩

theorem reaches_mergeAllDicts {ds : List (Dict ι)} {d : Dict ι} {first rest : Ref}
    (loops : ds.length < E.bound) (entries : C.Forces E (C.Entries d) s first)
    (dicts : C.Forces E ((C.dicts E).Elements (C.Forces E) ds) s rest) :
    C.Reaches E (Builtin.mergeAll E.bound first rest) s fun o t =>
      ∃ v, o = .ok (.value v) ∧ C.Entries (ds.foldl Dict.merge d) t v := by
  refine (reaches_force entries fun _ _ => Entries.plain).then fun v t after entries => ?_
  obtain ⟨e, rfl, like⟩ := entries
  refine Reaches.then (reaches_forceList (C := C.reading E _) (dicts.later after)) ?_
  intro l u after' elements
  have like := C.entriesLike_means like after'
  exact (reaches_mergeDicts loops like elements).then fun e w _ like =>
    reaches_pure ⟨_, rfl, e, rfl, like⟩

end Course

namespace Arguments
variable {a : Arguments} {x : Supply ι}

/-- The positionals that are left come in one list. -/
theorem reaches_restPositionals (loops : 1 < E.bound) (supplies : a.Supplies C E s x) :
    C.Reaches E a.restPositionals s fun o t => ∃ rest, o = .ok rest ∧
      C.Promises E (C.Elements (C.Promises E) x.positionals) t rest.1 ∧
      rest.2.Supplies C E t { x with explicit := [], spread := [] } := by
  unfold restPositionals
  refine (Course.reaches_ofRefs supplies.explicit).then fun l t after elements => ?_
  refine (Course.reaches_allocValue _).then fun explicit u after' holds => ?_
  have lists : C.Forces E (C.Elements (C.Forces E) x.explicit) u explicit :=
    Course.forces_of_forced holds fun v more => elements.later (C.trans after' more)
  have left : ∀ v, C.later u v → ({ a with positionals := [], spread := none } : Arguments).Supplies
      C E v { x with explicit := [], spread := [] } := fun v more =>
    have later := C.trans (C.trans after after') more
    ⟨.nil, .absent, C.entriesLike_means supplies.keywords later,
      (C.dicts E).forall₂_means supplies.dicts later⟩
  have spreads := supplies.spread.later (C.trans after after')
  unfold Supply.positionals
  generalize a.spread = spread, x.spread = is at spreads
  cases spreads with
  | absent =>
    refine Course.reaches_pure ⟨_, rfl, .inl ?_, left u (C.refl u)⟩
    rw [List.append_nil]
    exact lists.imp fun _ _ => Course.Elements.promised
  | @list r is others =>
    have known : List.Forall₂ ((C.lists E).means u) [r] [is] :=
      .cons others .nil
    have loops : [is].length < E.bound := loops
    have merges := Course.reaches_allocMerge known fun v rest more others =>
      Course.reaches_mergeLists loops (lists.later more) others
    rw [List.flatten_singleton] at merges
    exact merges.then fun r v more waits =>
      Course.reaches_pure ⟨_, rfl, .inr waits, left v more⟩

/-- The keywords that are left come in one dictionary. -/
theorem reaches_restKeywords (loops : x.dicts.length < E.bound) (supplies : a.Supplies C E s x) :
    C.Reaches E a.restKeywords s fun o t => ∃ rest, o = .ok rest ∧
      C.Promises E (C.Entries x.named) t rest.1 ∧
      rest.2.Supplies C E t { x with keywords := [], dicts := [] } := by
  unfold restKeywords
  have entries := Dict.like_ofList (like_keys supplies.keywords)
  refine (Course.reaches_allocValue _).then fun explicit t after holds => ?_
  have forces : C.Forces E (C.Entries (.ofList (x.keywords.map fun k => (.string k.1, k.2)))) t
      explicit := Course.forces_of_forced holds fun u more =>
    ⟨_, rfl, C.entriesLike_means entries (C.trans after more)⟩
  have left : ∀ u, C.later t u → ({ a with keywords := [], dicts := [] } : Arguments).Supplies
      C E u { x with keywords := [], dicts := [] } := fun u more =>
    have later := C.trans after more
    ⟨C.forall₂_means supplies.explicit later, supplies.spread.later later, .nil, .nil⟩
  have known := (C.dicts E).forall₂_means supplies.dicts after
  unfold Supply.named
  generalize a.dicts = rs, x.dicts = ds at known loops
  cases known with
  | nil => exact Course.reaches_pure ⟨_, rfl, .inl forces, left t (C.refl t)⟩
  | cons first others =>
    have merges := Course.reaches_allocMerge (.cons first others) fun u rest more dicts =>
      Course.reaches_mergeAllDicts loops (forces.later more) dicts
    exact merges.then fun r u more waits =>
      Course.reaches_pure ⟨_, rfl, .inr waits, left u more⟩

end Arguments
end
end CallByNeed
