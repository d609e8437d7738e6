import CallByNeed.Proofs.Loading.Building

/- The heap of a loaded program. No cell is vacant, every cell mentions cells of the heap only, and
   redirects lead from definitions to what they stand for, along aliases that come to an end. -/
namespace CallByNeed
namespace Program

/-- What loading leaves behind. -/
structure Loaded (M : Manner) (m : Module) (h : Heap) : Prop where
  within : h.Within M h.domain ∅
  idle : ∀ r, h.state? r ≠ some .forcing
  definitions : ∀ d ∈ m.definitions, d.2 ∈ h.domain
  outputs : ∀ o ∈ m.outputs, o.cell ∈ h.domain
  handles : ∀ r t, h.Redirects r t → r ∈ m.definitions.map Prod.snd
  aliases : ∀ r, h.LeadsOut r

section
variable {M : Manner} {p : Program} {handles : Handles} {h : Heap}

theorem Handled.within (handled : Handled p.names {} handles h) :
    h.Within M h.domain {r | r ∈ handles.map Prod.snd} := by
  rintro r ⟨c, known⟩
  by_cases mine : r ∈ handles.map Prod.snd
  · exact ⟨_, handled.vacant r mine, .vacant mine⟩
  · rw [handled.others r mine] at known
    cases known

theorem Handled.domain (handled : Handled p.names {} handles h) {q : String × Ref}
    (mem : q ∈ handles) : q.2 ∈ h.domain :=
  ⟨_, handled.vacant q.2 (List.mem_map_of_mem mem)⟩

/-- Builtins that the program uses are permitted under the names it looks up. -/
theorem allows_of_uses (handled : Handled p.names {} handles h)
    (permits : ∀ b, p.Uses b → M.Permits b.isEffect b) : M.Allows handles p.globals := by
  intro name mem free b named
  refine permits b ⟨name, mem, fun defined => ?_, named⟩
  rw [← handled.names] at defined
  obtain ⟨q, mine, rfl⟩ := List.mem_map.1 defined
  have apart := List.lookup_eq_none_iff.1 free q mine
  simp at apart

/-- An alias has another definition's handle for its cell, everything else has a new cell. -/
def Apart (h : Heap) (m : Meaning) (r : Ref) : Prop :=
  m = .variable (.cell r) ∨ h.state? r = none

theorem built_of_meanings (tidy : ¬ M.strays) (handled : Handled p.names {} handles h)
    (allows : M.Allows handles p.globals) {meanings : List Meaning}
    (resolved : List.Forall₂ (fun d m => Definition.resolve handles d = .ok m) p.definitions
      meanings) {cells : List Ref} {h' : Heap}
    (run : (meanings.mapM build : StateM Heap (List Ref)).run h = (cells, h')) :
    h.Built M {r | r ∈ handles.map Prod.snd} h' ∧ (∀ r ∈ cells, r ∈ h'.domain) ∧
      List.Forall₂ (Apart h) meanings cells := by
  have built : (meanings.mapM build : Script (List Ref)).built h = some (cells, h') := by
    rw [builds_mapM builds_build meanings h, run]
  have likes : ∀ K, h.domain ⊆ K → ∀ m ∈ meanings, MeaningLike M (.among K) m m := by
    intro K grows m mem
    obtain ⟨i, bound, rfl⟩ := List.getElem_of_mem mem
    have before : i < p.definitions.length := by rw [resolved.length_eq]; exact bound
    have ties : (Bond.among K).Ties handles := fun q mine => ⟨rfl, grows (handled.domain mine)⟩
    refine Definition.like_resolve_self ties (allows.subset fun name named => ?_)
      (resolved.get before bound)
    refine List.mem_append_left _ (List.mem_flatMap.2 ⟨_, List.getElem_mem before, named⟩)
  have alike : ∀ K, h.domain ⊆ K →
      Alike M (.among K) (List.Forall₂ (Bond.among K).cells)
        (meanings.mapM build : Script (List Ref)) (meanings.mapM build) := by
    intro K grows
    refine Alike.mapM (fun m m' like => alike_build like) ?_
    exact List.forall₂_same.2 (likes K grows)
  obtain ⟨heaps, known⟩ := Heap.built_of_alike
    (P := fun B => List.Forall₂ B.cells) tidy handled.within alike built
  refine ⟨heaps, fun r mem => (List.forall₂_same.1 known r mem).2, ?_⟩
  have each := (List.forall₂_and_left meanings cells).2 ⟨fun m mem => mem, built_of_mapM built⟩
  refine each.imp ?_
  rintro m r ⟨mem, h₁, h₂, keeps, made⟩
  by_cases aliased : ∃ t, m = .variable (.cell t)
  · obtain ⟨t, rfl⟩ := aliased
    have same : some (t, h₁) = some (r, h₂) := made
    cases same
    exact .inl rfl
  · refine .inr ?_
    have not_alias : ∀ t, m ≠ .variable (.cell t) := by simpa using aliased
    have fresh := endsFresh_build (likes h.domain Set.Subset.rfl m mem) tidy not_alias h₁ r h₂ made
    by_contra known
    obtain ⟨c, state⟩ := Option.ne_none_iff_exists'.1 known
    rw [keeps r c state] at fresh
    cases fresh

/-- The cells of all outputs. -/
theorem built_of_outputs (tidy : ¬ M.strays) {unfilled : Set Ref}
    (within : h.Within M h.domain unfilled) {outputs : List (Expr × Bool)}
    (likes : ∀ o ∈ outputs, ∀ K, h.domain ⊆ K → ExprLike M (.among K) 0 o.1 o.1)
    {made : List Output} {h' : Heap}
    (run : (outputs.mapM fun o => do
      pure { cell := ← o.1.interpret [], expanded := o.2 } : StateM Heap (List Output)).run h =
        (made, h')) :
    h.Built M unfilled h' ∧ ∀ o ∈ made, o.cell ∈ h'.domain := by
  have built : (outputs.mapM fun o => do
      pure { cell := ← o.1.interpret [], expanded := o.2 } : Script (List Output)).built h =
        some (made, h') := by
    rw [builds_mapM (fun o => builds_bind (Expr.builds_interpret [] o.1) fun _ => builds_pure _)
      outputs h, run]
  have alike : ∀ K, h.domain ⊆ K →
      Alike M (.among K) (List.Forall₂ fun o o' : Output => (Bond.among K).cells o.cell o'.cell)
        (outputs.mapM fun o => do
          pure { cell := ← o.1.interpret [], expanded := o.2 } : Script (List Output))
        (outputs.mapM fun o => do
          pure { cell := ← o.1.interpret [], expanded := o.2 }) := by
    intro K grows
    refine Alike.mapM (R := fun o o' => o.2 = o'.2 ∧ ExprLike M (.among K) 0 o.1 o'.1) ?_ ?_
    · rintro ⟨e, _⟩ ⟨e', _⟩ ⟨rfl, like⟩
      exact (Expr.alike_interpret .nil like).bind fun r r' cells => .pure cells
    · exact List.forall₂_same.2 fun o mem => ⟨rfl, likes o mem K grows⟩
  obtain ⟨heaps, known⟩ := Heap.built_of_alike
    (P := fun B => List.Forall₂ fun o o' : Output => B.cells o.cell o'.cell) tidy within alike built
  exact ⟨heaps, fun o mem => (List.forall₂_same.1 known o mem).2⟩

/-- A definition whose cell is another definition's handle is an alias for it. -/
theorem alias_of_cell (handled : Handled p.names {} handles h) (distinct : p.names.Nodup)
    {meanings : List Meaning} {cells : List Ref}
    (resolved : List.Forall₂ (fun d m => Definition.resolve handles d = .ok m) p.definitions
      meanings)
    (apart : List.Forall₂ (Apart h) meanings cells) {r t : Ref}
    (pair : (r, t) ∈ (handles.map Prod.snd).zip cells) (again : t ∈ handles.map Prod.snd) :
    ∃ name target, (name, r) ∈ handles ∧ (target, t) ∈ handles ∧
      (aliases p.definitions).lookup name = some target := by
  obtain ⟨i, bound, at_i⟩ := List.getElem_of_mem pair
  simp only [List.length_zip, List.length_map, Nat.lt_min] at bound
  simp only [List.getElem_zip, List.getElem_map, Prod.mk.injEq] at at_i
  obtain ⟨rfl, rfl⟩ := at_i
  have in_meanings : i < meanings.length := by rw [apart.length_eq]; exact bound.2
  have in_definitions : i < p.definitions.length := by rw [resolved.length_eq]; exact in_meanings
  have meaning : meanings[i] = .variable (.cell cells[i]) := by
    refine (apart.get in_meanings bound.2).resolve_right fun unknown => ?_
    have vacant := handled.vacant _ again
    simp only [List.get_eq_getElem] at unknown
    rw [unknown] at vacant
    cases vacant
  have ok := resolved.get in_definitions in_meanings
  simp only [List.get_eq_getElem, meaning] at ok
  have name : handles[i].1 = p.definitions[i].name := by
    have names := handled.names
    have both : (handles.map Prod.fst)[i]? = p.names[i]? := by rw [names]
    simpa [bound.1, Program.names, in_definitions] using both
  have defined : p.definitions[i] ∈ p.definitions := List.getElem_mem in_definitions
  generalize p.definitions[i] = d at ok name defined
  cases d with
  | function n s bs e =>
    obtain ⟨_, _, ok⟩ := Except.ok_of_bind ok
    obtain ⟨_, _, ok⟩ := Except.ok_of_bind ok
    obtain ⟨_, _, ok⟩ := Except.ok_of_bind ok
    cases ok
  | «variable» n value =>
    obtain ⟨e, value_ok, ok⟩ := Except.ok_of_bind ok
    cases ok
    obtain ⟨target, rfl, found⟩ := global_of_resolve value_ok
    have known := mem_of_lookup found
    refine ⟨n, target, ?_, known, ?_⟩
    · have here := List.getElem_mem bound.1
      rwa [show handles[i] = (n, handles[i].2) from Prod.ext name rfl] at here
    · refine lookup_aliases distinct defined ?_
      have listed : target ∈ handles.map Prod.fst := List.mem_map.2 ⟨_, known, rfl⟩
      rwa [handled.names] at listed

/-- Aliases come to an end, and so do redirects from definitions. -/
theorem leadsOut_of_aliases (handled : Handled p.names {} handles h) (distinct : p.names.Nodup)
    (aliases_ok : checkAliases (aliases p.definitions) = .ok ()) {meanings : List Meaning}
    {cells : List Ref}
    (resolved : List.Forall₂ (fun d m => Definition.resolve handles d = .ok m) p.definitions
      meanings)
    (apart : List.Forall₂ (Apart h) meanings cells) {h' : Heap}
    (redirects : ∀ r t, h'.Redirects r t → (r, t) ∈ (handles.map Prod.snd).zip cells) (r : Ref) :
    h'.LeadsOut r := by
  have of_handle : ∀ n, ∀ q ∈ handles, aliasRank (aliases p.definitions) q.1 = n →
      h'.LeadsOut q.2 := by
    intro n
    induction n using Nat.strongRecOn with
    | ind n ih =>
      intro q mem rank
      refine .intro _ fun t redirect => ?_
      by_cases again : t ∈ handles.map Prod.snd
      · obtain ⟨name, target, first, second, found⟩ :=
          alias_of_cell handled distinct resolved apart (redirects _ _ redirect) again
        have same : (name, q.2) = q := List.inj_on_of_nodup_map handled.nodup first mem rfl
        have less := aliasRank_lt found (ends_of_checkAliases aliases_ok name)
        have smaller : aliasRank (aliases p.definitions) target < n := by
          rw [← rank, ← same]
          exact less
        exact ih _ smaller (target, t) second rfl
      · refine Heap.leadsOut_of_not_redirects fun u further => again ?_
        exact (List.of_mem_zip (redirects t u further)).1
  by_cases mine : r ∈ handles.map Prod.snd
  · obtain ⟨q, mem, rfl⟩ := List.mem_map.1 mine
    exact of_handle _ q mem rfl
  · refine Heap.leadsOut_of_not_redirects fun t redirect => mine ?_
    exact (List.of_mem_zip (redirects r t redirect)).1

theorem like_of_outputs (handled : Handled p.names {} handles h) {h' : Heap}
    (grown : h.domain ⊆ h'.domain) (allows : M.Allows handles p.globals)
    {outputs : List (Expr × Bool)}
    (ok : (p.outputs.mapM fun o => do pure (← o.value.resolve handles {}, o.expanded)) =
      .ok outputs) :
    ∀ o ∈ outputs, ∀ K, h'.domain ⊆ K → ExprLike M (.among K) 0 o.1 o.1 := by
  intro o mem K wider
  have resolved := forall₂_of_mapM ok
  obtain ⟨i, bound, rfl⟩ := List.getElem_of_mem mem
  have before : i < p.outputs.length := by rw [resolved.length_eq]; exact bound
  have ties : (Bond.among K).Ties handles := fun q mine =>
    ⟨rfl, wider (grown (handled.domain mine))⟩
  obtain ⟨e, value_ok, made⟩ := Except.ok_of_bind (resolved.get before bound)
  have first : outputs[i].1 = e := by
    have made : (e, p.outputs[i].expanded) = outputs[i] := Except.ok.inj made
    rw [← made]
  rw [first]
  refine Node.like_resolve_self ties (allows.subset fun name named => ?_) value_ok
  exact List.mem_append_right _ (List.mem_flatMap.2 ⟨_, List.getElem_mem before, named⟩)

theorem within_of_filled {filled : Heap} (within : h.Within M h.domain {r | r ∈ handles.map Prod.snd})
    {cells : List Ref} (nodup : (handles.map Prod.snd).Nodup)
    (count : handles.length = cells.length) (known : ∀ r ∈ cells, r ∈ h.domain)
    (vacant : ∀ r ∈ handles.map Prod.snd, h.state? r = some .vacant)
    (e : fillAll (handles.map Prod.snd) cells h = filled) :
    filled.domain = h.domain ∧ filled.Within M filled.domain ∅ ∧
      (∀ r t, filled.Redirects r t →
        (r, t) ∈ (handles.map Prod.snd).zip cells ∨ h.Redirects r t) ∧
      (∀ r, filled.state? r = some .forcing → h.state? r = some .forcing) := by
  obtain ⟨redirects, others⟩ := state?_fillAll nodup (by simpa using count) vacant
  rw [e] at redirects others
  have partner : ∀ r ∈ handles.map Prod.snd, ∃ t, (r, t) ∈ (handles.map Prod.snd).zip cells := by
    intro r mem
    obtain ⟨i, bound, rfl⟩ := List.getElem_of_mem mem
    have also : i < cells.length := by rw [← count]; simpa using bound
    have inside : i < ((handles.map Prod.snd).zip cells).length := by
      rw [List.length_zip]
      omega
    have pair := List.getElem_mem inside
    rw [List.getElem_zip] at pair
    exact ⟨_, pair⟩
  have domain : filled.domain = h.domain := by
    ext r
    simp only [Heap.domain, Set.mem_ofPred_eq]
    by_cases mine : r ∈ handles.map Prod.snd
    · obtain ⟨t, pair⟩ := partner r mine
      simp [redirects _ pair, vacant r mine]
    · rw [others r mine]
  refine ⟨domain, ?_, ?_, ?_⟩
  · rw [domain]
    intro r inside
    by_cases mine : r ∈ handles.map Prod.snd
    · obtain ⟨t, pair⟩ := partner r mine
      exact ⟨_, redirects _ pair, .redirect (known t (List.of_mem_zip pair).2)⟩
    · obtain ⟨c, state, within⟩ := within r inside
      exact ⟨c, by rw [others r mine, state], within.mono Set.Subset.rfl fun yes => absurd yes mine⟩
  · intro r t redirect
    by_cases mine : r ∈ handles.map Prod.snd
    · obtain ⟨u, pair⟩ := partner r mine
      rw [Heap.Redirects, redirects _ pair] at redirect
      cases redirect
      exact .inl pair
    · rw [Heap.Redirects, others r mine] at redirect
      exact .inr redirect
  · intro r forcing
    by_cases mine : r ∈ handles.map Prod.snd
    · obtain ⟨t, pair⟩ := partner r mine
      rw [redirects _ pair] at forcing
      cases forcing
    · rwa [others r mine] at forcing

theorem loaded_of_load (tidy : ¬ M.strays) (permits : ∀ b, p.Uses b → M.Permits b.isEffect b)
    {m : Module} (e : p.load {} = .ok (m, h)) : Loaded M m h := by
  unfold load at e
  obtain ⟨_, names_ok, e⟩ := Except.ok_of_bind e
  obtain ⟨_, aliases_ok, e⟩ := Except.ok_of_bind e
  have handled := handled_of_allocHandles p.names {}
  generalize (allocHandles p.names : StateM Heap Handles).run {} = first at handled e
  obtain ⟨handles, h₁⟩ := first
  dsimp only at handled e
  obtain ⟨meanings, meanings_ok, e⟩ := Except.ok_of_bind e
  obtain ⟨outputs, outputs_ok, e⟩ := Except.ok_of_bind e
  have allows := allows_of_uses handled permits
  have resolved := forall₂_of_mapM meanings_ok
  generalize run : (meanings.mapM build : StateM Heap (List Ref)).run h₁ = second at e
  obtain ⟨cells, h₂⟩ := second
  dsimp only at e
  obtain ⟨built, known, apart⟩ := built_of_meanings tidy handled allows resolved run
  have likes : ∀ o ∈ outputs, ∀ K, h₂.domain ⊆ K → ExprLike M (.among K) 0 o.1 o.1 :=
    like_of_outputs handled built.domain allows outputs_ok
  generalize outputs_run : (outputs.mapM fun o => do
    pure { cell := ← o.1.interpret [], expanded := o.2 } : StateM Heap (List Output)).run h₂ =
      third at e
  obtain ⟨made, h₃⟩ := third
  obtain ⟨last, listed⟩ := built_of_outputs tidy built.within likes outputs_run
  cases e
  have keeps : ∀ r ∈ handles.map Prod.snd, h₃.state? r = some .vacant := by
    intro r mem
    exact last.keeps r _ (built.keeps r _ (handled.vacant r mem))
  have count : handles.length = cells.length := by
    rw [← apart.length_eq, ← resolved.length_eq]
    simpa [Program.names] using congrArg List.length handled.names
  have cells_known : ∀ r ∈ cells, r ∈ h₃.domain := fun r mem => last.domain (known r mem)
  obtain ⟨domain, within, redirects, forcing⟩ := within_of_filled last.within handled.nodup count
    cells_known keeps rfl
  have pairs : ∀ r t, (fillAll (handles.map Prod.snd) cells h₃).Redirects r t →
      (r, t) ∈ (handles.map Prod.snd).zip cells := by
    intro r t redirect
    rcases redirects r t redirect with pair | old
    · exact pair
    · have first := built.redirects (last.redirects old)
      by_cases mine : r ∈ handles.map Prod.snd
      · rw [Heap.Redirects, handled.vacant r mine] at first
        cases first
      · rw [Heap.Redirects, handled.others r mine] at first
        cases first
  constructor
  case within => exact within
  case idle =>
    intro r busy
    have first := built.idle (last.idle (forcing r busy))
    by_cases mine : r ∈ handles.map Prod.snd
    · rw [handled.vacant r mine] at first
      cases first
    · rw [handled.others r mine] at first
      cases first
  case definitions =>
    intro d mem
    rw [domain]
    exact last.domain (built.domain (handled.domain mem))
  case outputs =>
    intro o mem
    rw [domain]
    exact listed o mem
  case handles => exact fun r t redirect => (List.of_mem_zip (pairs r t redirect)).1
  case aliases =>
    have distinct := (nodup_of_checkNames names_ok).1
    exact leadsOut_of_aliases handled distinct aliases_ok resolved apart pairs

end
end Program
end CallByNeed
