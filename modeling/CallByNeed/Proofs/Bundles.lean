import CallByNeed.Proofs.Bundles.Building
import CallByNeed.Proofs.Bundles.Following
import CallByNeed.Proofs.Known.Acts

/- Bundles of the same arguments bind alike. However its spread was put together, whoever binds a
   bundle and looks at the parameters cannot tell it from another one of the same positionals. -/
namespace CallByNeed

/-- Cells are looked at for what is in them, whichever cells they are. -/
def Looks {γ : Type} (G : Set Ref) (look : List Ref → Script γ) : Prop :=
  ∀ B, Bond.among G ≤ B → ∀ rs rs', RefsLike B rs rs' → Alike .loaded B Eq (look rs) (look rs')

/-- Whoever binds the first bundle and looks at the parameters comes to the same end with the second
    one, in the same world, as long as those cells in `L` that got a value are lists, or failed. -/
def BindsAs (E : Engine) (G L : Set Ref) (s : Store) (m m' : Script Arguments) : Prop :=
  ∀ {γ : Type} (sig : Signature Default) (look : List Ref → Script γ),
    SignatureLike (DefaultLike (.among G)) sig sig → Looks G look →
    ∀ o t world world', (m >>= fun a => sig.bind a >>= look).Leaves E s world o t world' →
      t.heap.KeepsLists L →
      ∃ t', (m' >>= fun a => sig.bind a >>= look).Leaves E s world o t' world'

/-- No binding can tell one bundle from the other. -/
def BindAlike (E : Engine) (G L : Set Ref) (s : Store) (m m' : Script Arguments) : Prop :=
  BindsAs E G L s m m' ∧ BindsAs E G L s m' m

/-- Arguments in cells that are known, with what is spread among those of `L`. -/
structure Given (G L : Set Ref) (items : List (Ref × Bool)) (keywords : List (String × Ref))
    (dicts : List Ref) : Prop where
  known : ∀ p ∈ items, p.1 ∈ G
  lists : ∀ p ∈ items, p.2 = true → p.1 ∈ L
  keywords : ∀ k ∈ keywords, k.2 ∈ G
  dicts : ∀ d ∈ dicts, d ∈ G

/-- The positionals of a bundle, each with whether it is spread. -/
def Arguments.items (a : Arguments) : List (Ref × Bool) :=
  a.positionals.map (fun r => (r, false)) ++ a.spread.toList.map fun r => (r, true)

/-- The pairing of each known cell with itself. -/
def Pairing.among (G : Set Ref) : Pairing := ⟨(Bond.among G).cells, fun _ => none, fun _ => none⟩

section
variable {E : Engine} {G L : Set Ref} {s t t' : Store} {items items' : List (Ref × Bool)}
variable {keywords keywords' : List (String × Ref)} {dicts dicts' : List Ref} {a a' : Arguments}
variable {own own' left left' : List Ref} {m m' : Script Arguments} {r r' : Ref}

/-! ### Stores in which bundles have been built -/

/-- What has been known before is still paired with itself. -/
theorem Store.Within.paired (within : s.Within .loaded G) (works : s.Works [] t left)
    (works' : s.Works [] t' left') : t.Paired (.among G) L t' where
  heap := by
    have state {r : Ref} (known : r ∈ G) :
        ∃ c, s.heap.state? r = some c ∧ c.Bonded .loaded (.among G) c := by
      obtain ⟨c, state, inside⟩ := within.heap r known
      exact ⟨c, state, CellState.Within.bonded (by simpa using inside)⟩
    refine ⟨?_, ?_, ?_, (fun _ _ kept => nomatch kept), (fun _ _ kept => nomatch kept)⟩
    · rintro r r' q q' ⟨rfl, _⟩ ⟨rfl, _⟩
      exact Iff.rfl
    · rintro r q ⟨rfl, known⟩
      obtain ⟨c, known, states⟩ := state known
      exact .plain (works.others r c (by simp) known) (works'.others r c (by simp) known) states
    · rintro r q ⟨rfl, known⟩
      obtain ⟨c, known, _⟩ := state known
      rw [works.before.site known, works'.before.site known]
  rallies := by
    intro id
    rw [works.rest, works'.rest]
    cases found : s.rallies[id]? with
    | none => exact .none
    | some y =>
      refine .some ⟨fun i => ?_, rfl⟩
      cases listed : y.arguments[i]? with
      | none => exact .none
      | some r =>
        exact .some ⟨rfl, within.rallies y (Array.mem_of_getElem? found) r
          (Array.mem_of_getElem? listed)⟩

/-- Pieces that stand for the same positionals are paired. -/
theorem Piece.Paired.of_items {pieces pieces' : List Piece}
    (given : ∀ p ∈ items, p.1 ∈ G ∧ (p.2 = true → p.1 ∈ L))
    (each : List.Forall₂ Piece.Of pieces items) (each' : List.Forall₂ Piece.Of pieces' items) :
    List.Forall₂ (Piece.Paired (.among G) L) pieces pieces' := by
  induction each generalizing pieces' with
  | nil =>
    cases each'
    exact .nil
  | cons first _ ih =>
    cases each' with
    | cons first' rest' =>
      refine .cons ?_ (ih (fun p mem => given p (List.mem_cons_of_mem _ mem)) rest')
      have mine := given _ List.mem_cons_self
      cases first with
      | element r =>
        cases first' with
        | element => exact .element ⟨rfl, mine.1⟩
      | list r strict =>
        cases first' with
        | list _ strict' => exact .list ⟨rfl, mine.1⟩ (.inr ⟨rfl, mine.2 rfl⟩)

/-- A cell that has just been made to wait keeps what waits in it. -/
theorem Heap.Spread.waits {m : Keepers} (spread : t.heap.Spread r items own)
    (ready : t.heap.Ready r own) :
    ∃ pieces, t.heap.Waits (m.hand own r) r pieces ∧ List.Forall₂ Piece.Of pieces items := by
  obtain ⟨pieces, strung, each⟩ := spread.strands true
  obtain ⟨rest, rfl⟩ := strung.exists_cons ready.1
  exact ⟨pieces, ⟨rest, strung, Keepers.keeps_hand spread.apart⟩, each⟩

/-- One side of making a cell wait. -/
theorem Heap.Ready.turns (ready : t.heap.Ready r own) (within : s.Within .loaded G)
    (works : s.Works [] t own) (m : Keepers) (known : Ref → Prop) (old : ∀ r, known r → r ∈ G) :
    m.Turns known s [] own r t ∧ ¬ known r := by
  have new : ∀ o ∈ own, ¬ known o := by
    intro o mem among
    obtain ⟨c, state, _⟩ := within.heap o (old o among)
    rw [(works.fresh o mem).resolve_left (by simp)] at state
    cases state
  exact ⟨⟨works, .inr (.inl ready.1), fun o mem _ => new o mem⟩, new r ready.1⟩

theorem Heap.Spread.pair (within : s.Within .loaded G) (works : s.Works [] t own)
    (works' : s.Works [] t' own') (spread : t.heap.Spread r items own)
    (spread' : t'.heap.Spread r' items own')
    (given : ∀ p ∈ items, p.1 ∈ G ∧ (p.2 = true → p.1 ∈ L)) :
    ∃ T : Pairing, Bond.among G ≤ T.bond ∧ t.Paired T L t' ∧ T.cells r r' := by
  rcases spread.root with ⟨rfl, rfl⟩ | ⟨ready, several⟩ <;>
    rcases spread'.root with ⟨rfl, same⟩ | ⟨ready', several'⟩
  · cases same
    exact ⟨.among G, Bond.le_refl _, within.paired works works', rfl,
      (given _ List.mem_cons_self).1⟩
  · simp at several'
  · simp [same] at several
  obtain ⟨pieces, waits, each⟩ := spread.waits (m := (Pairing.among G).mine) ready
  obtain ⟨pieces', waits', each'⟩ := spread'.waits (m := (Pairing.among G).mine') ready'
  obtain ⟨turns, new⟩ := ready.turns within works (Pairing.among G).mine
    (fun r => ∃ q, (Pairing.among G).cells r q) (by rintro r ⟨q, rfl, known⟩; exact known)
  obtain ⟨turns', new'⟩ := ready'.turns within works' (Pairing.among G).mine'
    (fun q => ∃ r, (Pairing.among G).cells r q) (by rintro r ⟨q, rfl, known⟩; exact known)
  have grows := (Pairing.among G).le_hand own r own' r'
  have live (o : Ref) (mem : o ∈ own) : ∃ c, t.heap.state? o = some c := by
    obtain ⟨w, state⟩ := spread.pending o mem
    exact ⟨_, state⟩
  have live' (o : Ref) (mem : o ∈ own') : ∃ c, t'.heap.state? o = some c := by
    obtain ⟨w, state⟩ := spread'.pending o mem
    exact ⟨_, state⟩
  have paired := within.paired (L := L) works works'
  have before : s.Paired (.among G) L s := within.paired (s.works_refl (List.Subset.refl []))
    (s.works_refl (List.Subset.refl []))
  have heaps : t.heap.Paired ((Pairing.among G).hand own r own' r') L t'.heap :=
    before.heap.turn ⟨turns, turns', live, live', .inr ⟨fun q cells => new ⟨q, cells⟩,
        fun q cells => new' ⟨q, cells⟩⟩⟩
      (fun _ => .inl ⟨⟨by simp, by simp⟩, by simp, by simp⟩)
      (.strung waits waits' ((Piece.Paired.of_items given each each').imp
        fun _ _ => Piece.Paired.mono grows))
      (by rw [ready.2, ready'.2])
  exact ⟨_, grows, ⟨heaps, fun id => optionRel_imp (fun _ _ => Rally.Paired.mono grows)
    (paired.rallies id)⟩, .inr ⟨rfl, rfl⟩⟩

/-- Bundles of the same arguments are alike. -/
theorem Heap.Bundles.pair (within : s.Within .loaded G) (works : s.Works [] t own)
    (works' : s.Works [] t' own') (bundles : t.heap.Bundles items keywords dicts a own)
    (bundles' : t'.heap.Bundles items keywords dicts a' own')
    (given : Given G L items keywords dicts) :
    ∃ T : Pairing, Bond.among G ≤ T.bond ∧ t.Paired T L t' ∧ ArgumentsLike T.bond a a' := by
  have spreads : ∃ T : Pairing, Bond.among G ≤ T.bond ∧ t.Paired T L t' ∧
      Option.Rel T.cells a.spread a'.spread := by
    rcases bundles.spread.spreads with ⟨plain, none, rfl⟩ | ⟨r, held, spread⟩ <;>
      rcases bundles'.spread.spreads with ⟨plain', none', rfl⟩ | ⟨r', held', spread'⟩
    · rw [none, none']
      exact ⟨.among G, Bond.le_refl _, within.paired works works', .none⟩
    · exact absurd plain (List.ne_nil_of_length_pos spread'.length_pos)
    · exact absurd plain' (List.ne_nil_of_length_pos spread.length_pos)
    · obtain ⟨T, grows, stores, cells⟩ := Heap.Spread.pair within works works' spread spread'
        fun p mem => ⟨given.known p ((List.dropWhile_sublist _).subset mem),
          given.lists p ((List.dropWhile_sublist _).subset mem)⟩
      rw [held, held']
      exact ⟨T, grows, stores, .some cells⟩
  obtain ⟨T, grows, stores, spread⟩ := spreads
  have known {r : Ref} (mem : r ∈ G) : T.bond.cells r r := grows.1 r r ⟨rfl, mem⟩
  refine ⟨T, grows, stores, ?_, spread, ?_, ?_⟩
  · rw [bundles.positionals, bundles'.positionals]
    refine List.forall₂_same.2 fun r mem => known ?_
    obtain ⟨p, first, rfl⟩ := List.mem_map.1 mem
    exact given.known p ((List.takeWhile_sublist _).subset first)
  · rw [bundles.keywords, bundles'.keywords]
    exact List.forall₂_same.2 fun k mem => ⟨rfl, known (given.keywords k mem)⟩
  · rw [bundles.dicts, bundles'.dicts]
    exact List.forall₂_same.2 fun d mem => known (given.dicts d mem)

/-- Whoever binds bundles of the same arguments cannot tell them apart. -/
theorem Heap.Bundles.binds_as (roomy : E.Roomy) (within : s.Within .loaded G)
    (given : Given G L items keywords dicts) (comes : m.Comes E s (.ok a) t)
    (comes' : m'.Comes E s (.ok a') t') (works : s.Works [] t own) (works' : s.Works [] t' own')
    (bundles : t.heap.Bundles items keywords dicts a own)
    (bundles' : t'.heap.Bundles items keywords dicts a' own') : BindsAs E G L s m m' := by
  intro γ sig look signatures looks o u world world' leaves lists
  rw [comes.leaves_bind_iff] at leaves
  obtain ⟨T, grows, stores, alike⟩ := bundles.pair within works works' bundles' given
  have scripts : Script.Bonded .loaded T.bond (fun _ => Unchanged .loaded Eq .nothing) .nothing
      (sig.bind a >>= look) (sig.bind a' >>= look) := by
    intro B more
    have wider := Bond.le_trans grows more
    have signatures' := signatures.imp fun _ _ => DefaultLike.mono wider
    refine Alike.bind (signatures'.alike_bind (alike.mono more)) fun rs rs' bound => ?_
    exact looks B wider rs rs' bound.1
  have paired : Runner.Paired T L Eq (.ready (sig.bind a >>= look)) t
      (.ready (sig.bind a' >>= look)) t' := .ready (show Held.nothing.Bonded T.bond from trivial) scripts
        stores
  obtain ⟨o', u', leaves', results⟩ := paired.leaves roomy trivial trivial leaves lists
  obtain rfl : o = o' := by
    cases results with
    | ok same => rw [same]
    | error faults => rw [eq_of_faultLike faults]
  exact ⟨u', by rw [comes'.leaves_bind_iff]; exact leaves'⟩

/-! ### How bundles are built -/

/-- The script builds a bundle of these arguments, in new cells only. -/
def Builds (E : Engine) (s : Store) (m : Script Arguments) (items : List (Ref × Bool))
    (keywords : List (String × Ref)) (dicts : List Ref) : Prop :=
  ∃ a t own, m.Comes E s (.ok a) t ∧ s.Works [] t own ∧ t.heap.Bundles items keywords dicts a own

theorem Builds.bind_alike (roomy : E.Roomy) (within : s.Within .loaded G)
    (given : Given G L items keywords dicts) (builds : Builds E s m items keywords dicts)
    (builds' : Builds E s m' items keywords dicts) : BindAlike E G L s m m' := by
  obtain ⟨a, t, own, comes, works, bundles⟩ := builds
  obtain ⟨a', t', own', comes', works', bundles'⟩ := builds'
  exact ⟨bundles.binds_as roomy within given comes comes' works works' bundles',
    bundles'.binds_as roomy within given comes' comes works' works bundles⟩

/-- A bundle as it is. -/
theorem Arguments.builds (E : Engine) (s : Store) (a : Arguments) :
    Builds E s (pure a) a.items a.keywords a.dicts := by
  obtain ⟨positionals, spread, keywords, dicts⟩ := a
  obtain ⟨all, plain⟩ := explicitOf_plain positionals
  obtain ⟨explicit, later⟩ :=
    explicitOf_append_of_plain plain (spread.toList.map fun r => (r, true))
  refine ⟨_, s, [], .done, s.works_refl (List.Subset.refl _), ?_, ?_, rfl, rfl⟩
  · rw [items, explicit, all]
    cases spread <;> simp [explicitOf]
  · rw [items, later]
    cases spread with
    | none => exact .nothing
    | some r => exact .spread (s.heap.spread_self r)

theorem Heap.Trailing.works {held : Option Ref} (holds : s.heap.Trailing items held own)
    (works : s.Works own' t left) (apart : ∀ o ∈ own, o ∉ own') : t.heap.Trailing items held own := by
  cases holds with
  | nothing => exact .nothing
  | spread spread => exact .spread (spread.works works apart)

theorem Heap.Trailing.nodup {held : Option Ref} (holds : s.heap.Trailing items held own) : own.Nodup := by
  cases holds with
  | nothing => exact List.nodup_nil
  | spread spread => exact spread.apart

theorem Heap.Trailing.live {held : Option Ref} (holds : s.heap.Trailing items held own) :
    ∀ o ∈ own, ∃ c, s.heap.state? o = some c := by
  cases holds with
  | nothing => simp
  | spread spread =>
    intro o mem
    obtain ⟨w, state⟩ := spread.pending o mem
    exact ⟨_, state⟩

/-- Bundles are built one after the other, and merged. -/
theorem Builds.merge (builds : Builds E s m items keywords dicts)
    (builds' : ∀ t, Builds E t m' items' keywords' dicts') :
    Builds E s (m >>= fun a => m' >>= fun b => a.merge b) (items ++ items')
      (keywords ++ keywords') (dicts ++ dicts') := by
  obtain ⟨a, t, own, comes, works, bundles⟩ := builds
  obtain ⟨b, u, own', comes', works', bundles'⟩ := builds' t
  have carried : u.heap.Bundles items keywords dicts a own :=
    ⟨bundles.positionals, bundles.spread.works works' (by simp), bundles.keywords, bundles.dicts⟩
  have apart : (own ++ own').Nodup := by
    refine List.nodup_append.2 ⟨bundles.spread.nodup, bundles'.spread.nodup, ?_⟩
    rintro o mem _ mem' rfl
    obtain ⟨c, state⟩ := bundles.spread.live o mem
    rw [(works'.fresh o mem').resolve_left (by simp)] at state
    cases state
  obtain ⟨c, v, left, merges, works'', merged⟩ := Arguments.works_merge E carried bundles' apart
  have built : s.Works [] u (own ++ own') := by
    have both := works.trans works' (List.Subset.refl _) (by simp)
    refine ⟨both.before, both.others, fun o mem => ?_, both.rest⟩
    rcases List.mem_append.1 mem with mem | mem
    · exact works.fresh o mem
    · exact both.fresh o mem
  exact ⟨c, v, left, comes.bind (comes'.bind merges), built.trans works'' (List.Subset.refl _)
    built.fresh, merged⟩

theorem Given.append (given : Given G L items keywords dicts)
    (given' : Given G L items' keywords' dicts') :
    Given G L (items ++ items') (keywords ++ keywords') (dicts ++ dicts') where
  known p mem := (List.mem_append.1 mem).elim (given.known p) (given'.known p)
  lists p mem := (List.mem_append.1 mem).elim (given.lists p) (given'.lists p)
  keywords k mem := (List.mem_append.1 mem).elim (given.keywords k) (given'.keywords k)
  dicts d mem := (List.mem_append.1 mem).elim (given.dicts d) (given'.dicts d)

/-- Bundles are merged into what would have been built of the arguments of both, as far as binding
    can tell; so it does not matter in which order bundles are merged, and an empty one adds
    nothing. -/
theorem merged_bundles_bind_alike (roomy : E.Roomy) (within : s.Within .loaded G) :
    (∀ items items' keywords keywords' dicts dicts', Given G L items keywords dicts →
      Given G L items' keywords' dicts' →
      BindAlike E G L s
        (do
          let a ← Arguments.ofCall items keywords dicts
          let b ← Arguments.ofCall items' keywords' dicts'
          a.merge b)
        (Arguments.ofCall (items ++ items') (keywords ++ keywords') (dicts ++ dicts'))) ∧
    (∀ a b c : Arguments, Given G L a.items a.keywords a.dicts →
      Given G L b.items b.keywords b.dicts → Given G L c.items c.keywords c.dicts →
      BindAlike E G L s (do let x ← a.merge b; x.merge c) (do let y ← b.merge c; a.merge y)) ∧
    ∀ a : Arguments, Given G L a.items a.keywords a.dicts →
      BindAlike E G L s (({} : Arguments).merge a) (pure a) ∧
        BindAlike E G L s (a.merge {}) (pure a) := by
  refine ⟨fun items items' keywords keywords' dicts dicts' given given' => ?_,
    fun a b c given given' given'' => ?_, fun a given => ⟨?_, ?_⟩⟩
  · have merged : Builds E s (do
        let a ← Arguments.ofCall items keywords dicts
        let b ← Arguments.ofCall items' keywords' dicts'
        a.merge b) _ _ _ :=
      .merge (Arguments.works_ofCall E s items keywords dicts) fun t =>
        Arguments.works_ofCall E t items' keywords' dicts'
    exact merged.bind_alike roomy within (given.append given') (Arguments.works_ofCall E s ..)
  · have left : Builds E s (do let x ← a.merge b; x.merge c) _ _ _ :=
      .merge (.merge (a.builds E s) fun t => b.builds E t) fun t => c.builds E t
    have right : Builds E s (do let y ← b.merge c; a.merge y) _ _ _ :=
      .merge (a.builds E s) fun t => .merge (b.builds E t) fun t => c.builds E t
    simp only [← List.append_assoc] at right
    exact left.bind_alike roomy within ((given.append given').append given'') right
  · have left : Builds E s (({} : Arguments).merge a) _ _ _ :=
      .merge (Arguments.builds E s {}) fun t => a.builds E t
    exact left.bind_alike roomy within given (a.builds E s)
  · have left : Builds E s (a.merge {}) _ _ _ :=
      .merge (a.builds E s) fun t => Arguments.builds E t {}
    simp only [Arguments.items, Option.toList, List.map_nil, List.append_nil] at left
    exact left.bind_alike roomy within given (a.builds E s)

/-- A list of one element in the second cell, its end in the third one. -/
def singleStore : Store :=
  { heap := ⟨#[.ofValue (.bool true), .ofValue (.list (.cons ⟨0⟩ ⟨2⟩)), .ofValue (.list .nil)]⟩ }

/-- How many elements there are in the first cell. -/
def countFirst : List Ref → Script Nat
  | [] => pure 0
  | r :: _ => do (← forceList r).length 4

theorem looks_countFirst (G : Set Ref) : Looks G countFirst := by
  intro B _ rs rs' cells
  cases cells with
  | nil => exact .pure rfl
  | cons first _ =>
    refine (alike_forceList first).bind fun l l' lists => ?_
    refine LazyList.alike_walk ?_ (.inl rfl) lists rfl
    rintro n _ r r' rfl _
    exact .pure (.yield rfl)

/-- A rest parameter that takes all positionals. -/
def allSignature : Signature Default := { positional := { rest := some "all" } }

theorem within_singleStore : singleStore.Within .loaded {r | r.index < 3} where
  heap := by
    rintro ⟨i⟩ (less : i < 3)
    match i, less with
    | 0, _ => exact ⟨_, rfl, .forced (.bool true)⟩
    | 1, _ =>
      exact ⟨_, rfl, .forced (.list (.cons ⟨rfl, show 0 < 3 by omega⟩ ⟨rfl, show 2 < 3 by omega⟩))⟩
    | 2, _ => exact ⟨_, rfl, .forced (.list .nil)⟩
  pool := by simp [singleStore]
  rallies := by simp [singleStore]

/-- Three elements are counted whichever way the two lists and the element between them are given.
    -/
theorem merged_bundles_bind_alike_of_single :
    (1 < 2 ∧ singleStore.Within .loaded {r | r.index < 3}) ∧
    ∃ t t', (do
          let a ← Arguments.ofCall [(⟨1⟩, true)] [] []
          let b ← Arguments.ofCall [(⟨0⟩, false), (⟨1⟩, true)] [] []
          a.merge b >>= fun c => allSignature.bind c >>= countFirst).Leaves { bound := 2 }
            singleStore
        {} (.ok 3) t {} ∧
      (Arguments.ofCall [(⟨1⟩, true), (⟨0⟩, false), (⟨1⟩, true)] [] [] >>= fun c =>
        allSignature.bind c >>= countFirst).Leaves { bound := 2 } singleStore {} (.ok 3) t' {} := by
  refine ⟨⟨by omega, within_singleStore⟩, ?_⟩
  have merged : ∃ t, (do
      let a ← Arguments.ofCall [(⟨1⟩, true)] [] []
      let b ← Arguments.ofCall [(⟨0⟩, false), (⟨1⟩, true)] [] []
      a.merge b >>= fun c => allSignature.bind c >>= countFirst).Leaves { bound := 2 } singleStore
        {} (.ok 3) t {} := ⟨_, 150, rfl⟩
  obtain ⟨t, leaves⟩ := merged
  have lists : t.heap.KeepsLists {⟨1⟩} := by
    rintro _ rfl v yields
    have known : singleStore.heap.Yields ⟨1⟩ (.list (.cons ⟨0⟩ ⟨2⟩)) := ⟨_, .refl, rfl⟩
    have before := Runner.Leaves.before leaves trivial
    rw [Heap.yields_unique yields (before.yields known)]
    exact .list _
  have given (items : List (Ref × Bool)) (known : ∀ p ∈ items, p.1.index < 3)
      (lists : ∀ p ∈ items, p.2 = true → p.1 = ⟨1⟩) :
      Given {r | r.index < 3} {⟨1⟩} items [] [] := ⟨known, lists, by simp, by simp⟩
  obtain ⟨t', leaves'⟩ :=
    ((merged_bundles_bind_alike (show 1 < 2 by omega) within_singleStore).1 _ _ _ _ _ _
      (given [(⟨1⟩, true)] (by simp) (by simp))
      (given [(⟨0⟩, false), (⟨1⟩, true)] (by simp) (by simp))).1 allSignature countFirst
      ⟨⟨rfl, .nil, rfl⟩, rfl, .nil, rfl⟩ (looks_countFirst _) _ t _ _ leaves lists
  exact ⟨t, t', leaves, leaves'⟩

end
end CallByNeed
