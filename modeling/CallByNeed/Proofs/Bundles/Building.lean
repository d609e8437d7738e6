import CallByNeed.Arguments
import CallByNeed.Proofs.Bundles.Opening

/- Bundles of arguments and what they are built from. A bundle shows the positionals of a call, each
   with whether it is spread: up to the first spread one they are explicit, and the cell of all
   others strings them together, however it was built. -/
namespace CallByNeed

/-- A piece stands for a positional, or for a spread one. -/
inductive Piece.Of : Piece → Ref × Bool → Prop where
  | element (r : Ref) : Of (.element r) (r, false)
  | list (r : Ref) (strict : Bool) : Of (.list r strict) (r, true)

/-- The cell is, or strings together, these positionals. -/
def Heap.Strands (h : Heap) (r : Ref) (items : List (Ref × Bool)) (own : List Ref) : Prop :=
  ∀ strict, ∃ pieces, h.Strung strict r pieces own ∧ List.Forall₂ Piece.Of pieces items

/-- A spread list, or a cell that waits to string several positionals together. -/
structure Heap.Spread (h : Heap) (r : Ref) (items : List (Ref × Bool)) (own : List Ref) : Prop where
  strands : h.Strands r items own
  apart : own.Nodup
  root : own = [] ∧ items = [(r, true)] ∨ h.Ready r own ∧ 1 < items.length

/-- What a bundle has for the positionals from the first spread one on. -/
inductive Heap.Trailing (h : Heap) : List (Ref × Bool) → Option Ref → List Ref → Prop
  | nothing : Trailing h [] none []
  | spread {r : Ref} {items : List (Ref × Bool)} {own : List Ref} (spread : h.Spread r items own) :
      Trailing h items (some r) own

/-- The positionals before the first spread one. -/
def explicitOf (items : List (Ref × Bool)) : List Ref := (items.takeWhile fun p => !p.2).map (·.1)

/-- The positionals from the first spread one on. -/
def spreadOf (items : List (Ref × Bool)) : List (Ref × Bool) := items.dropWhile fun p => !p.2

structure Heap.Bundles (h : Heap) (items : List (Ref × Bool)) (keywords : List (String × Ref))
    (dicts : List Ref) (a : Arguments) (own : List Ref) : Prop where
  positionals : a.positionals = explicitOf items
  spread : h.Trailing (spreadOf items) a.spread own
  keywords : a.keywords = keywords
  dicts : a.dicts = dicts

section
variable {E : Engine} {h h' : Heap} {s t : Store} {r first second : Ref} {own own' left : List Ref}
variable {items items' : List (Ref × Bool)} {rs : List Ref}

theorem Store.Works.keep (works : s.Works [] t [r]) (new : s.heap.state? r = none) :
    s.Works own t (r :: own) := by
  refine ⟨works.before, fun o c _ => works.others o c (by simp), fun o mem => ?_, works.rest⟩
  rcases List.mem_cons.1 mem with rfl | mem
  · exact .inr new
  · exact .inl mem

theorem Heap.Strands.carry (strands : h.Strands r items own) (carries : h.Carries own h') :
    h'.Strands r items own := by
  intro strict
  obtain ⟨pieces, strung, each⟩ := strands strict
  exact ⟨pieces, strung.carry carries, each⟩

theorem Heap.Spread.works (spread : s.heap.Spread r items own) (works : s.Works own' t left)
    (apart : ∀ o ∈ own, o ∉ own') : t.heap.Spread r items own := by
  have carries := works.carries apart
  refine ⟨spread.strands.carry carries, spread.apart, spread.root.imp id fun ⟨ready, several⟩ =>
    ⟨?_, several⟩⟩
  obtain ⟨pieces, strung, _⟩ := spread.strands true
  obtain ⟨w, state⟩ := strung.pending r ready.1
  exact ⟨ready.1, (works.before.site state).trans ready.2⟩

theorem Heap.Spread.length_pos (spread : h.Spread r items own) : 0 < items.length := by
  rcases spread.root with ⟨_, rfl⟩ | ⟨_, several⟩
  · exact Nat.zero_lt_one
  · exact Nat.lt_trans Nat.zero_lt_one several

theorem Heap.Spread.pending (spread : h.Spread r items own) :
    ∀ o ∈ own, ∃ w, h.state? o = some (.pending w) := by
  obtain ⟨pieces, strung, _⟩ := spread.strands true
  exact strung.pending

/-- A list that is spread as it is. -/
theorem Heap.spread_self (h : Heap) (r : Ref) : h.Spread r [(r, true)] [] :=
  ⟨fun strict => ⟨_, .source strict r, .cons (.list r strict) .nil⟩, List.nodup_nil,
    .inl ⟨rfl, rfl⟩⟩

theorem forall_of_plain (rs : List Ref) :
    List.Forall₂ Piece.Of (rs.map .element) (rs.map fun r => (r, false)) := by
  induction rs with
  | nil => exact .nil
  | cons r rs ih => exact .cons (.element r) ih

/-- Plain positionals behind spread ones. -/
theorem Heap.Spread.works_append (spread : s.heap.Spread first items own) (some_left : rs ≠ []) :
    ∃ r t left, (Arguments.allocAppend first rs : Script Ref).Comes E s (.ok r) t ∧
      s.Works own t left ∧ t.heap.Spread r (items ++ rs.map fun r => (r, false)) left := by
  obtain ⟨r, f, t, comes, works, new, site, waits, function⟩ :=
    Script.works_allocCall E s .append (first :: rs)
  have carries : s.heap.Carries own t.heap := works.carries (by simp)
  have fresh : r ∉ own := Heap.not_mem_of_none new fun o mem => by
    obtain ⟨w, state⟩ := spread.pending o mem
    exact ⟨_, state⟩
  refine ⟨r, t, r :: own, comes, works.keep new, ?_, List.nodup_cons.2 ⟨fresh, spread.apart⟩,
    .inr ⟨⟨by simp, site⟩, ?_⟩⟩
  · intro strict
    obtain ⟨pieces, strung, each⟩ := spread.strands false
    exact ⟨_, .append waits function (strung.carry carries),
      List.rel_append each (forall_of_plain rs)⟩
  · have := spread.length_pos
    have := List.length_pos_iff.2 some_left
    simp
    omega

/-- Spread positionals behind other ones. -/
theorem Heap.Spread.works_merge (spread : s.heap.Spread first items own)
    (next : s.heap.Spread second items' own') (apart : (own ++ own').Nodup) :
    ∃ r t left, (Arguments.allocMerge [first, second] : Script Ref).Comes E s (.ok r) t ∧
      s.Works (own ++ own') t left ∧ t.heap.Spread r (items ++ items') left := by
  obtain ⟨r, f, t, comes, works, new, site, waits, function⟩ :=
    Script.works_allocCall E s .merge [first, second]
  have carries (own : List Ref) : s.heap.Carries own t.heap := works.carries (by simp)
  have fresh : r ∉ own ++ own' := Heap.not_mem_of_none new fun o mem => by
    rcases List.mem_append.1 mem with mem | mem
    · obtain ⟨w, state⟩ := spread.pending o mem
      exact ⟨_, state⟩
    · obtain ⟨w, state⟩ := next.pending o mem
      exact ⟨_, state⟩
  refine ⟨r, t, r :: (own ++ own'), comes, works.keep new, ?_, List.nodup_cons.2 ⟨fresh, apart⟩,
    .inr ⟨⟨by simp, site⟩, ?_⟩⟩
  · intro strict
    obtain ⟨pieces, strung, each⟩ := spread.strands false
    obtain ⟨pieces', strung', each'⟩ := next.strands true
    exact ⟨_, .merge waits function (strung.carry (carries _)) (strung'.carry (carries _)),
      List.rel_append each each'⟩
  · have := spread.length_pos
    have := next.length_pos
    simp
    omega

/-- Positionals are put behind a spread list one by one. -/
theorem Heap.Spread.works_foldl (later : List (Ref × Bool))
    (spread : s.heap.Spread first items own) :
    ∃ r t left, (later.foldlM (fun list p => if p.2 then Arguments.allocMerge [list, p.1]
        else Arguments.allocAppend list [p.1]) first : Script Ref).Comes E s (.ok r) t ∧
      s.Works own t left ∧ t.heap.Spread r (items ++ later) left := by
  induction later generalizing s first items own with
  | nil => exact ⟨first, s, own, .done, s.works_refl (List.Subset.refl _), by simpa using spread⟩
  | cons p later ih =>
    obtain ⟨r, b⟩ := p
    have step : ∃ r' t left, (if b then Arguments.allocMerge [first, r]
        else Arguments.allocAppend first [r] : Script Ref).Comes E s (.ok r') t ∧
        s.Works own t left ∧ t.heap.Spread r' (items ++ [(r, b)]) left := by
      cases b with
      | true => simpa using spread.works_merge (s.heap.spread_self r) (by simpa using spread.apart)
      | false => exact spread.works_append (by simp)
    obtain ⟨r', t, left, comes, works, spread'⟩ := step
    obtain ⟨r'', u, left', rest, works', spread''⟩ := ih spread'
    refine ⟨r'', u, left', ?_, works.trans works' (List.Subset.refl _) works.fresh,
      by simpa using spread''⟩
    rw [List.foldlM_cons]
    exact comes.bind rest

theorem snd_of_spreadOf {p : Ref × Bool} {later : List (Ref × Bool)}
    (same : spreadOf items = p :: later) : p.2 = true := by
  have head := List.head?_dropWhile_not (fun p : Ref × Bool => !p.2) items
  rw [← spreadOf, same] at head
  simpa using head

theorem map_explicitOf_append (items : List (Ref × Bool)) :
    (explicitOf items).map (fun r => (r, false)) ++ spreadOf items = items := by
  induction items with
  | nil => rfl
  | cons p items ih =>
    obtain ⟨r, b⟩ := p
    cases b with
    | false => simpa [explicitOf, spreadOf] using ih
    | true => rfl

theorem explicitOf_plain (rs : List Ref) : explicitOf (rs.map fun r => (r, false)) = rs ∧
    spreadOf (rs.map fun r => (r, false)) = [] := by
  induction rs with
  | nil => exact ⟨rfl, rfl⟩
  | cons r rs ih => exact ⟨congrArg (r :: ·) ih.1, ih.2⟩

theorem explicitOf_append_of_plain (plain : spreadOf items = []) (more : List (Ref × Bool)) :
    explicitOf (items ++ more) = explicitOf items ++ explicitOf more ∧
      spreadOf (items ++ more) = spreadOf more := by
  induction items with
  | nil => exact ⟨rfl, rfl⟩
  | cons p items ih =>
    obtain ⟨r, b⟩ := p
    cases b with
    | false =>
      obtain ⟨explicit, later⟩ := ih (by simpa [spreadOf] using plain)
      exact ⟨by simpa [explicitOf] using explicit, by simpa [spreadOf] using later⟩
    | true => cases plain

theorem explicitOf_append_of_spread (spread : spreadOf items ≠ []) (more : List (Ref × Bool)) :
    explicitOf (items ++ more) = explicitOf items ∧
      spreadOf (items ++ more) = spreadOf items ++ more := by
  induction items with
  | nil => exact absurd rfl spread
  | cons p items ih =>
    obtain ⟨r, b⟩ := p
    cases b with
    | false =>
      obtain ⟨explicit, later⟩ := ih (by simpa [spreadOf] using spread)
      exact ⟨by simpa [explicitOf] using explicit, by simpa [spreadOf] using later⟩
    | true => exact ⟨rfl, rfl⟩

/-- A bundle is built from its positionals. -/
theorem Arguments.works_ofCall (E : Engine) (s : Store) (items : List (Ref × Bool))
    (keywords : List (String × Ref)) (dicts : List Ref) :
    ∃ a t own, (ofCall items keywords dicts : Script Arguments).Comes E s (.ok a) t ∧
      s.Works [] t own ∧ t.heap.Bundles items keywords dicts a own := by
  unfold ofCall
  cases same : items.dropWhile fun p => !p.2 with
  | nil =>
    refine ⟨_, s, [], .done, s.works_refl (List.Subset.refl _), rfl, ?_, rfl, rfl⟩
    rw [spreadOf, same]
    exact .nothing
  | cons p later =>
    obtain ⟨r, b⟩ := p
    obtain rfl : b = true := snd_of_spreadOf same
    obtain ⟨r', t, own, comes, works, spread⟩ :=
      Heap.Spread.works_foldl (E := E) later (s.heap.spread_self r)
    refine ⟨_, t, own, comes.bind .done, works, rfl, ?_, rfl, rfl⟩
    rw [spreadOf, same]
    exact .spread spread

/-- The spread of a bundle goes on with plain positionals, if there are any. -/
theorem Heap.Spread.works_explicit (spread : s.heap.Spread first items own) (rs : List Ref) :
    ∃ r t left, (if rs.isEmpty then pure first else Arguments.allocAppend first rs :
        Script Ref).Comes E s (.ok r) t ∧
      s.Works own t left ∧ t.heap.Spread r (items ++ rs.map fun r => (r, false)) left := by
  cases rs with
  | nil => exact ⟨first, s, own, .done, s.works_refl (List.Subset.refl _), by simpa using spread⟩
  | cons r rs => exact spread.works_append (by simp)

/-- What was made of one's own cells does not touch those of another. -/
theorem Store.Works.nodup (works : s.Works own t left) (mine : left.Nodup)
    (apart : (own ++ own').Nodup) (known : ∀ o ∈ own', ∃ c, s.heap.state? o = some c) :
    (left ++ own').Nodup := by
  obtain ⟨_, other, apart⟩ := List.nodup_append.1 apart
  refine List.nodup_append.2 ⟨mine, other, fun o mem o' mem' same => ?_⟩
  subst same
  obtain ⟨c, state⟩ := known o mem'
  rcases works.fresh o mem with mem | new
  · exact apart o mem o mem' rfl
  · rw [new] at state
    cases state

theorem Heap.Trailing.spreads {held : Option Ref} (holds : h.Trailing items held own) :
    items = [] ∧ held = none ∧ own = [] ∨ ∃ r, held = some r ∧ h.Spread r items own := by
  cases holds with
  | nothing => exact .inl ⟨rfl, rfl, rfl⟩
  | spread spread => exact .inr ⟨_, rfl, spread⟩

/-- Behind a spread, the plain positionals of the second bundle come first, then its spread. -/
theorem Arguments.merge_of_spread {a : Arguments} (b : Arguments) (held : a.spread = some first) :
    (a.merge b : Script Arguments) =
      ((if b.positionals.isEmpty then pure first else allocAppend first b.positionals) >>= fun r =>
        (match b.spread with
          | some more => allocMerge [r, more]
          | none => pure r) >>= fun r =>
        pure { positionals := a.positionals, spread := some r, keywords := a.keywords ++ b.keywords,
               dicts := a.dicts ++ b.dicts }) := by
  unfold merge
  rw [held]
  cases b.positionals.isEmpty <;> cases b.spread <;> rfl

/-- Two bundles are merged into one of the positionals of both. -/
theorem Arguments.works_merge (E : Engine) {keywords keywords' : List (String × Ref)}
    {dicts dicts' : List Ref} {a b : Arguments}
    (bundles : s.heap.Bundles items keywords dicts a own)
    (bundles' : s.heap.Bundles items' keywords' dicts' b own') (apart : (own ++ own').Nodup) :
    ∃ c t left, (a.merge b : Script Arguments).Comes E s (.ok c) t ∧
      s.Works (own ++ own') t left ∧
      t.heap.Bundles (items ++ items') (keywords ++ keywords') (dicts ++ dicts') c left := by
  obtain ⟨ps, held, ks, ds⟩ := a
  obtain ⟨ps', held', ks', ds'⟩ := b
  obtain ⟨rfl, holds, rfl, rfl⟩ := bundles
  obtain ⟨rfl, holds', rfl, rfl⟩ := bundles'
  rcases holds.spreads with ⟨plain, rfl, rfl⟩ | ⟨first, rfl, spread⟩
  · obtain ⟨explicit, later⟩ := explicitOf_append_of_plain plain items'
    refine ⟨_, s, own', .done, s.works_refl (by simp), explicit.symm, ?_, rfl, rfl⟩
    rw [later]
    exact holds'
  obtain ⟨explicit, later⟩ :=
    explicitOf_append_of_spread (List.ne_nil_of_length_pos spread.length_pos) items'
  obtain ⟨r, t, left, comes, works, spread⟩ := spread.works_explicit (E := E) (explicitOf items')
  have whole := map_explicitOf_append items'
  rw [merge_of_spread _ rfl]
  rcases holds'.spreads with ⟨plain, rfl, rfl⟩ | ⟨second, rfl, next⟩
  · rw [plain, List.append_nil] at whole
    rw [List.append_nil]
    refine ⟨_, t, left, comes.bind (.bind .done .done), works, explicit.symm, ?_, rfl, rfl⟩
    rw [later, ← whole]
    exact .spread spread
  · have mine := works.nodup spread.apart apart fun o mem => by
      obtain ⟨w, state⟩ := next.pending o mem
      exact ⟨_, state⟩
    obtain ⟨_, _, distinct⟩ := List.nodup_append.1 apart
    have next := next.works works fun o mem mem' => distinct o mem' o mem rfl
    obtain ⟨r', u, left', comes', works', spread'⟩ := spread.works_merge (E := E) next mine
    refine ⟨_, u, left', comes.bind (comes'.bind .done),
      works.trans works' (by simp) fun o mem => ?_, explicit.symm, ?_, rfl, rfl⟩
    · rcases List.mem_append.1 mem with mem | mem
      · exact (works.fresh o mem).imp (by simp +contextual) id
      · exact .inl (by simp [mem])
    · rw [later, ← whole, ← List.append_assoc]
      exact .spread spread'

end
end CallByNeed
