import CallByNeed.Proofs.Inlining.Kin
import CallByNeed.Proofs.Order.Explained

/- What a cell means, its kin mean: the work of cells, told again by the work of their kin. Where one
   side takes cells that it shares, the other one makes them anew, so what the other side means takes
   some more cells and any number of steps. Only calls and branches differ: a call of a function makes
   its bindings once on one side and wherever they are named on the other one, and a branch that was
   chosen names them still, or has them in their place. -/
namespace CallByNeed

/-- With the cells of `a`, the aim means the like of a value of `g`. -/
structure Heap.Retells (bound : Nat) (g g' : Heap) (aim : Aim) (u : Value) (spared : Ref → Prop)
    (a : Heap) : Prop where
  grows : g'.Grows a
  kept : g'.Kept a spared
  means : ∃ n v, a.Means bound n aim v ∧ u.Kin (g.kin a) v

/-- What cells mean in less than `n` steps, their kin mean. -/
def Heap.RetoldBelow (bound n : Nat) (g : Heap) : Prop :=
  ∀ j < n, ∀ (g' : Heap) (r r' : Ref) (u : Value), g.Means bound j (.cell r) u →
    (g.kin g').cells r r' → ∃ a, Heap.Retells bound g g' (.cell r') u (fun _ => True) a

section
variable {g g' a b : Heap} {bound i j n : Nat} {aim aim' : Aim} {u v v' : Value} {r r' : Ref}
variable {spared wider : Ref → Prop} {held : Held}

namespace Heap.Retells

/-- What some steps change is spared later on. -/
theorem after (told : Retells bound g a aim u wider b) (grows : g'.Grows a)
    (kept : g'.Kept a spared) (wide : ∀ q, spared q → g'.state? q = some .vacant → wider q)
    (means : ∀ n v, b.Means bound n aim v → ∃ m, b.Means bound m aim' v) :
    Retells bound g g' aim' u spared b := by
  obtain ⟨n, v, meant, kin⟩ := told.means
  obtain ⟨m, meant⟩ := means n v meant
  exact ⟨grows.trans told.grows, kept.trans told.kept wide, m, v, meant, kin⟩

theorem weaken (told : Retells bound g g' aim u wider a) (narrow : ∀ q, spared q → wider q) :
    Retells bound g g' aim u spared a :=
  ⟨told.grows, told.kept.weaken narrow, told.means⟩

/-- Nothing has to be made. -/
theorem now (means : g'.Means bound n aim v) (kin : u.Kin (g.kin g') v) :
    Retells bound g g' aim u spared g' :=
  ⟨g'.grows_refl, g'.kept_refl _, n, v, means, kin⟩

end Heap.Retells

theorem Value.kin_fault {B : Bond} {e e' : Fault} (cause : e.cause = e'.cause) :
    (Value.error e).Kin B (.error e') :=
  ⟨trivial, trivial, .error ⟨cause, trivial⟩⟩

/-- A blind script does not tell a function from what it tells. -/
theorem Script.Blind.next_inlined {α : Type} {how : Demand} {next : Value → Script α}
    (blind : (Script.demand how r next).Blind) (v : Value) : next v.inlined = next v := by
  rw [← (blind v.inlined).1, Value.bare_inlined, (blind v).1]

/-- The handles are filled, so all that was held is known. -/
theorem Held.Holds.tied {handle handle' target target' : Ref} {made : List (Ref × Ref)}
    (mine : Held.Holds (g.kin g') g g' (.knot handle handle' made))
    (pair : (target, target') ∈ made) (state : g.state? handle = some (.redirect target))
    (state' : g'.state? handle' = some (.redirect target')) :
    ∀ p ∈ (handle, handle') :: made, (g.kin g').cells p.1 p.2 := by
  refine Heap.kin_of_pairs fun p mem => ?_
  cases mem with
  | head => exact ⟨_, _, .redirect state, .redirect state', .redirect (.inr (.tail _ pair))⟩
  | tail _ mem =>
    obtain ⟨v, v', forced, forced', values⟩ := mine p mem
    have kin := values.kin
    exact ⟨_, _, .forced forced kin.left, .forced forced' kin.right, .made (.forced kin.values)⟩

/-- Two cells are made, and the scripts go on alike. -/
theorem Script.AllocLasts.kin {α β : Type} {post : Bond → α → β → Prop} {next : Ref → Script α}
    {next' : Ref → Script β} {c c' : Cell}
    (each : Script.AllocLasts post (g.kin g') next next' held c c') (grows : g'.Grows a)
    (mine : held.Holds (g.kin g') g g') (state : g.state? r = some c.state)
    (state' : a.state? r' = some c'.state) :
    ∃ held' : Held, held'.handle = held.handle ∧ held'.Holds (g.kin a) g a ∧
      Script.LastsTo post (g.kin a) held' (next r) (next' r') := by
  have bonds := Heap.kin_mono g.grows_refl grows
  cases each with
  | made states rest =>
    have cells := Heap.kin_of_like state state' (states.mono bonds)
    exact ⟨.nothing, rfl, Held.holds_nothing, rest _ bonds r r' cells⟩
  | action bodies parameters rest =>
    have actions := Heap.kin_of_effects state state'
      (.made (bodies.mono bonds) (parameters.mono bonds))
    exact ⟨.nothing, rfl, Held.holds_nothing, rest _ bonds r r' actions⟩
  | @hold handle handle' made _ _ values rest =>
    have tied := values.mono (Bond.add_mono bonds (List.Subset.refl _))
    exact ⟨.knot handle handle' ((r, r') :: made), rfl,
      (mine.mono g.grows_refl grows bonds).hold state state' tied, (rest r r').mono bonds⟩

/-- A script that looks into no function is followed step by step; it goes on with what its
    counterpart has come to. -/
theorem retold_script (below : Heap.RetoldBelow bound n g) {α β : Type}
    {post : Bond → α → β → Prop} {s : Script α} {s' : Script β} {f : α → Script Outcome}
    {f' : β → Script Outcome} (lasts : Script.LastsTo post (g.kin g') held s s')
    (blind : s.Blind) (blind' : s'.Blind) (mine : held.Holds (g.kin g') g g')
    (opened : held.Open g') (means : g.Means bound j (.body (s >>= f)) u) (le : j ≤ n)
    (rest : ∀ a x y i, g'.Grows a → i ≤ j → post (g.kin a) x y →
      g.Means bound i (.body (f x)) u →
      ∃ b, Heap.Retells bound g a (.body (f' y)) u (fun _ => True) b) :
    ∃ a, Heap.Retells bound g g' (.body (s' >>= f')) u held.Spares a := by
  change g.Means bound j (.body (s.bind f)) u at means
  change ∃ a, Heap.Retells bound g g' (.body (s'.bind f')) u held.Spares a
  induction s generalizing held s' g' j with
  | done x =>
    obtain ⟨y, rfl, results⟩ := lasts.of_done
    obtain ⟨a, told⟩ := rest g' x y j g'.grows_refl (Nat.le_refl j) results means
    exact ⟨a, told.weaken fun _ _ => trivial⟩
  | raise e =>
    obtain ⟨e', rfl, cause⟩ := lasts.of_raise
    cases means with
    | fault cause' => exact ⟨g', .now (.fault rfl) (Value.kin_fault (cause'.symm.trans cause))⟩
  | panic p => cases means
  | stall => cases means
  | ask q next => cases means
  | demand how r next ih =>
    obtain ⟨rfl, r', next', rfl, cells, later⟩ := lasts.of_demand
    cases means with
    | @demand k m _ _ _ v w _ first reply others =>
      obtain ⟨a, told⟩ := below k (by omega) g' r r' v first cells
      obtain ⟨k', v', heard, kin⟩ := told.means
      obtain ⟨w', reply'⟩ := Demand.pure_reply none v'
      have replies := kin.reply reply reply'
      have bonds := Heap.kin_mono g.grows_refl told.grows
      have lasts' := later _ bonds _ _ replies.values
      rw [blind.next_inlined, blind'.next_inlined] at lasts'
      obtain ⟨b, told'⟩ := ih w lasts' (blind w).2 (blind' w').2
        (mine.mono g.grows_refl told.grows bonds) (opened.kept rfl told.kept) (by omega)
        (fun c x y i grows le => rest c x y i (told.grows.trans grows) (by omega)) others
      exact ⟨b, told'.after told.grows (told.kept.weaken fun _ _ => trivial)
        (fun _ spares _ => spares) fun m v means =>
          ⟨_, .demand (heard.mono told'.grows) reply' means⟩⟩
  | act action next ih =>
    cases action with
    | alloc c =>
      cases means with
      | @alloc k r _ _ _ state full others =>
        have nonempty : c ≠ .vacant := by
          rintro rfl
          exact full rfl
        obtain ⟨c', next', rfl, full', idle, each⟩ := lasts.of_alloc nonempty
        have grows := g'.grows_alloc c'
        have kept := g'.kept_alloc idle
        have state' := g'.state?_new c'
        obtain ⟨held', handle, mine', lasts'⟩ := each.kin grows mine state state'
        obtain ⟨b, told⟩ := ih r lasts' (blind r) (blind' _) mine'
          (opened.kept handle (kept _)) (by omega)
          (fun c x y i wider le => rest c x y i (grows.trans wider) (by omega)) others
        refine ⟨b, told.after grows (kept _) (fun q spares _ => ?_) fun m v means =>
          ⟨_, .alloc (told.grows _ _ state' full') full' means⟩⟩
        rw [Held.Spares, handle]
        exact spares
      | @vacant k _ _ r others =>
        obtain ⟨rfl, next', rfl, later⟩ := lasts.of_vacant
        have idle : Cell.vacant.state ≠ .forcing := by simp [Cell.vacant]
        have grows := g'.grows_alloc .vacant
        let r' := (g'.alloc .vacant).1
        obtain ⟨b, told⟩ := ih r
          ((later r r').mono (Heap.kin_mono g.grows_refl grows)) (blind r) (blind' _)
          Held.holds_knot (Held.open_new g' r) (by omega)
          (fun c x y i wider le => rest c x y i (grows.trans wider) (by omega)) others
        refine ⟨b, told.after grows (g'.kept_alloc idle _) (fun q _ vacant same => ?_)
          fun m v means => ⟨_, .vacant r' means⟩⟩
        exact Heap.ne_of_vacant vacant .vacant (Option.some.inj same).symm
    | fill handle target =>
      cases means with
      | fill state others =>
        obtain ⟨handle', target', made, next', rfl, rfl, pair, later⟩ := lasts.of_fill
        have vacant : g'.state? handle' = some .vacant := opened handle' rfl
        have grows := Heap.grows_fill vacant (.redirect target')
        have state' := Heap.state?_setState_self vacant (.redirect target')
        have bonds := Heap.kin_mono g.grows_refl grows
        have known := (mine.mono g.grows_refl grows bonds).tied pair state state'
        have kept : g'.Kept (g'.setState handle' (.redirect target'))
            (Held.knot handle handle' made).Spares := by
          refine Heap.kept_fill vacant target' ?_
          rintro q spares rfl
          exact spares rfl
        obtain ⟨b, told⟩ := ih true (later _ bonds known) (blind true) (blind' true)
          Held.holds_nothing Held.open_nothing (by omega)
          (fun c x y i wider le => rest c x y i (grows.trans wider) (by omega)) others
        exact ⟨b, told.after grows kept (fun _ _ _ same => by cases same) fun m v means =>
          ⟨_, .fill (told.grows _ _ state' (by simp)) means⟩⟩
    | trace label =>
      cases means with
      | trace others =>
        obtain ⟨next', rfl, lasts'⟩ := lasts.of_trace
        obtain ⟨b, told⟩ := ih () lasts' (blind ()) (blind' ()) mine opened (by omega)
          (fun c x y i grows le => rest c x y i grows (by omega)) others
        exact ⟨b, told.after g'.grows_refl (g'.kept_refl _) (fun _ spares _ => spares)
          fun m v means => ⟨_, .trace means⟩⟩
    | submit job =>
      cases means with
      | submit others =>
        obtain ⟨job', next', rfl, lasts'⟩ := lasts.of_submit
        obtain ⟨b, told⟩ := ih () lasts' (blind ()) (blind' ()) mine opened (by omega)
          (fun c x y i grows le => rest c x y i grows (by omega)) others
        exact ⟨b, told.after g'.grows_refl (g'.kept_refl _) (fun _ spares _ => spares)
          fun m v means => ⟨_, .submit means⟩⟩
    | openRally rs => exact absurd lasts Script.LastsTo.not_openRally
    | pollRally id => exact absurd lasts Script.LastsTo.not_pollRally
    | listRally id i => exact absurd lasts Script.LastsTo.not_listRally

/-- A blind script that holds nothing yet. -/
theorem retold_blind (below : Heap.RetoldBelow bound n g) {α β : Type}
    {post : Bond → α → β → Prop} {s : Script α} {s' : Script β} {f : α → Script Outcome}
    {f' : β → Script Outcome} (lasts : Script.LastsTo post (g.kin g') .nothing s s')
    (blind : s.Blind) (blind' : s'.Blind) (means : g.Means bound j (.body (s >>= f)) u)
    (le : j ≤ n)
    (rest : ∀ a x y i, g'.Grows a → i ≤ j → post (g.kin a) x y →
      g.Means bound i (.body (f x)) u →
      ∃ b, Heap.Retells bound g a (.body (f' y)) u (fun _ => True) b) :
    ∃ a, Heap.Retells bound g g' (.body (s' >>= f')) u (fun _ => True) a := by
  obtain ⟨a, told⟩ := retold_script below lasts blind blind' Held.holds_nothing Held.open_nothing
    means le rest
  refine ⟨a, told.weaken fun q _ => ?_⟩
  rintro ⟨⟩

end

section
variable {g g' a : Heap} {bound i j n : Nat} {u v v' : Value} {r r' : Ref}

/-! ### Blind work -/

theorem Body.blind_run {isEffect : Bool} {arity : Nat} {B : Bond} {b b' : Body}
    (like : BodyLike .quiet B isEffect arity b b') (pure : isEffect = false)
    (plain : ∀ es e, b ≠ .code es e) (bound : Nat) (cells : List Ref) :
    (b.run bound cells).Blind := by
  cases like with
  | @builtin b permitted =>
    refine Builtin.blind_run ?_ bound cells
    rcases permitted with hosted | effect | quiet
    · exact hosted.elim
    · rw [pure] at effect
      cases effect
    · exact quiet
  | code => exact absurd rfl (plain _ _)
  | parameter i =>
    simp only [run]
    split <;> trivial
  | parameters =>
    simp only [run]
    grind

/-- A call looks into nothing but a function. -/
theorem Value.blind_call (bound : Nat) (a : Arguments) (other : ∀ f, v ≠ .function f) :
    (v.call bound a).Blind := by
  cases v with
  | function f => exact absurd rfl (other f)
  | native f => cases f <;> grind [call]
  | list l =>
    simp only [call]
    grind
  | dict d =>
    simp only [call]
    grind
  | _ => trivial

/-- Blind scripts that come to outcomes. -/
theorem retold_settled (below : Heap.RetoldBelow bound n g) {s s' : Script Outcome}
    (like : ∀ C, g.kin g' ≤ C → ScriptLike .quiet C (Settled .quiet C) .nothing s s')
    (blind : s.Blind) (blind' : s'.Blind) (means : g.Means bound j (.body s) u) (le : j ≤ n) :
    ∃ a, Heap.Retells bound g g' (.body s') u (fun _ => True) a := by
  have lasts : Script.LastsTo (OutcomeLike .quiet) (g.kin g') .nothing s s' := like
  rw [← bind_pure s] at means
  rw [← bind_pure s']
  refine retold_blind below lasts blind blind' means le fun a x y i grows less outcomes means => ?_
  cases outcomes with
  | value values =>
    cases means with
    | value resembles =>
      exact ⟨a, .now (.value (.same _)) (values.kin.resembling resembles (.same _))⟩
  | tail tails =>
    cases means with
    | @tail m _ _ means =>
      obtain ⟨b, told⟩ := below m (by omega) a _ _ u means tails
      exact ⟨b, told.after a.grows_refl (a.kept_refl _) (fun _ _ _ => trivial)
        fun m v means => ⟨_, .tail means⟩⟩

/-! ### Code -/

/-- Code of one meaning comes to kin, whatever its locals stand for. -/
theorem retold_interpret (below : Heap.RetoldBelow bound n g) {σ σ' : List Expr}
    {ls ls' : List Ref} {e e' : Expr} (locals : g.EmbodiesAll σ ls) (locals' : g'.EmbodiesAll σ' ls')
    (within : e.InScope ls.length) (within' : e'.InScope ls'.length)
    (like : ExprLike .quiet (g.kin g') 0 (e.subst σ) (e'.subst σ'))
    (means : g.Means bound j (.body (e.interpret ls >>= fun r => pure (.tail r))) u) (le : j ≤ n) :
    ∃ a, Heap.Retells bound g g' (.body (e'.interpret ls' >>= fun r => pure (.tail r))) u
      (fun _ => True) a := by
  obtain ⟨r, k, less, mints, means⟩ := means.of_makesOnly (Expr.makesOnly_interpret within)
  cases means with
  | @tail m _ _ means =>
    obtain ⟨a, r', grows, kept, mints'⟩ :=
      Heap.mints_of_makesOnly (Expr.makesOnly_interpret within') g'
    have made := Heap.embodies_of_interpret locals within mints
    have made' := Heap.embodies_of_interpret (locals'.mono grows) within' mints'
    have kin := (like.mono (Heap.kin_mono g.grows_refl grows)).kin made made'
    obtain ⟨b, told⟩ := below m (by omega) a r r' u means kin
    exact ⟨b, told.after grows kept (fun _ _ _ => trivial) fun m v means =>
      (mints'.mono told.grows).means (.tail means)⟩

/-- A body without bindings tells what it tells with them. -/
theorem retold_code (below : Heap.RetoldBelow bound n g) {es es' : List Expr} {e e' : Expr}
    {ps ps' : List Ref} {arity : Nat} (count : ps.length = arity)
    (within : (Body.code es e).InScope arity) (within' : (Body.code es' e').InScope arity)
    (like : ExprLike .quiet (g.kin g') arity (Expr.inlined arity es e) (Expr.inlined arity es' e'))
    (parameters : RefsLike (g.kin g') ps ps')
    (means : g.Means bound j (.body ((Body.code es e).run bound ps)) u) (le : j ≤ n) :
    ∃ a, Heap.Retells bound g g' (.body ((Body.code es' e').run bound ps')) u
      (fun _ => True) a := by
  subst count
  have count : ps.length = ps'.length := parameters.length_eq
  have cells : List.Forall₂ (ExprLike .quiet (g.kin g') 0) (ps.map .cell) (ps'.map .cell) := by
    rw [List.forall₂_map_left_iff, List.forall₂_map_right_iff]
    exact parameters.imp fun _ _ => .cell
  have results := like.subst Manner.quiet_tidy cells (by simp)
  rw [Expr.inlined_subst (by simp) within.1 within.2,
    Expr.inlined_subst (by simp [count]) within'.1 within'.2] at results
  simp only [Body.run] at means ⊢
  have only := Expr.makesOnly_bindLocals within.1
  have only' := Expr.makesOnly_bindLocals (count ▸ within'.1)
  obtain ⟨ls, k, less, mints, means⟩ := means.of_makesOnly only
  obtain ⟨a, ls', grows, kept, mints'⟩ := Heap.mints_of_makesOnly only' g'
  have locals := Heap.embodies_of_bindLocals (g.embodiesAll_cells ps) within.1 mints
  have locals' := Heap.embodies_of_bindLocals (a.embodiesAll_cells ps') (count ▸ within'.1) mints'
  have length : ls.length = ps.length + es.length := by simp [← locals.length_eq]
  have length' : ls'.length = ps.length + es'.length := by simp [← locals'.length_eq, count]
  obtain ⟨b, told⟩ := retold_interpret below locals locals' (length ▸ within.2)
    (length' ▸ within'.2) (results.mono (Heap.kin_mono g.grows_refl grows)) means (by omega)
  exact ⟨b, told.after grows kept (fun _ _ _ => trivial) fun m v means =>
    (mints'.mono told.grows).means means⟩

theorem retold_body (below : Heap.RetoldBelow bound n g) {b b' : Body} {ps ps' : List Ref}
    {arity : Nat} (count : ps.length = arity) (within : b.InScope arity)
    (within' : b'.InScope arity)
    (like : BodyLike .quiet (g.kin g') false arity (b.inlined arity) (b'.inlined arity))
    (parameters : RefsLike (g.kin g') ps ps')
    (means : g.Means bound j (.body (b.run bound ps)) u) (le : j ≤ n) :
    ∃ a, Heap.Retells bound g g' (.body (b'.run bound ps')) u (fun _ => True) a := by
  by_cases code : ∃ es e, b = .code es e
  · obtain ⟨es, e, rfl⟩ := code
    cases b' with
    | code es' e' =>
      cases like with
      | code _ results =>
        exact retold_code below count within within' results parameters means le
    | _ => cases like
  · have plain : ∀ es e, b ≠ .code es e := fun es e same => code ⟨es, e, same⟩
    have plain' : ∀ es e, b' ≠ .code es e := by
      rintro es e rfl
      cases b <;> first | exact plain _ _ rfl | cases like
    have same : b.inlined arity = b := by
      cases b <;> first | rfl | exact absurd rfl (plain _ _)
    have same' : b'.inlined arity = b' := by
      cases b' <;> first | rfl | exact absurd rfl (plain' _ _)
    rw [same, same', ← count] at like
    have length : ps.length = ps'.length := parameters.length_eq
    exact retold_settled below
      (fun C wider => (like.mono wider).like_run (by simp) (.inl rfl) (parameters.mono wider))
      (Body.blind_run like rfl plain bound ps) (Body.blind_run like.flip rfl plain' bound ps')
      means le

/-! ### Calls and suspensions -/

/-- The same effect is made on both sides. -/
theorem retold_effect {b b' : Body} {ps ps' : List Ref} {arity : Nat} (count : ps.length = arity)
    (within : b.InScope arity) (within' : b'.InScope arity)
    (like : BodyLike .quiet (g.kin g') true arity (b.inlined arity) (b'.inlined arity))
    (parameters : RefsLike (g.kin g') ps ps')
    (means :
      g.Means bound j (.body do answer (.effect (← alloc (.ofSuspension (.action b ps))))) u) :
    ∃ a, Heap.Retells bound g g'
      (.body do answer (.effect (← alloc (.ofSuspension (.action b' ps'))))) u
      (fun _ => True) a := by
  have count' : ps'.length = arity := parameters.length_eq.symm.trans count
  obtain ⟨r, k, _, mints, means⟩ := means.of_makesOnly (Script.makesOnly_suspend _)
  obtain ⟨a, r', grows, kept, mints'⟩ :=
    Heap.mints_of_makesOnly (Script.makesOnly_suspend (.action b' ps')) g'
  have tells : g.Tells r _ :=
    .action (Heap.state_of_mints_alloc mints) (count.symm ▸ within)
  have tells' : a.Tells r' _ :=
    .action (Heap.state_of_mints_alloc mints') (count'.symm ▸ within')
  have bonds := Heap.kin_mono g.grows_refl grows
  have effects : (g.kin a).actions r r' := by
    refine Heap.kin_of_told_effects tells tells' (.made ?_ (parameters.mono bonds))
    rw [count, count']
    exact like.mono bonds
  cases means with
  | value resembles =>
    have kin : (Value.effect r).Kin (g.kin a) (.effect r') := ⟨trivial, trivial, .effect effects⟩
    have told : Heap.Retells bound g a (.body (answer (.effect r'))) u (fun _ => True) a :=
      .now (.value (.same _)) (kin.resembling resembles (.same _))
    exact ⟨a, told.after grows kept (fun _ _ _ => trivial) fun m v means => mints'.means means⟩

theorem retold_function (below : Heap.RetoldBelow bound n g) {f f' : Function}
    (kin : (Value.function f).Kin (g.kin g') (.function f')) {x y : Arguments}
    (arguments : ArgumentsLike (g.kin g') x y)
    (means : g.Means bound j (.body ((Value.function f).call bound x)) u) (le : j ≤ n) :
    ∃ a, Heap.Retells bound g g' (.body ((Value.function f').call bound y)) u
      (fun _ => True) a := by
  obtain ⟨within, within', values⟩ := kin
  cases values with
  | function functions =>
    obtain ⟨_, signature, body, isEffect⟩ := functions
    have isEffect : f.isEffect = f'.isEffect := isEffect
    have arity : f.signature.arity = f'.signature.arity := signature.arity_eq
    have lasts : Script.LastsTo
        (fun C ps ps' => RefsLike C ps ps' ∧ ps.length = f.signature.arity) (g.kin g') .nothing
        (f.signature.bind x) (f'.signature.bind y) :=
      Alike.lastsTo fun C wider =>
        (signature.imp fun _ _ => DefaultLike.mono wider).alike_bind (arguments.mono wider)
    simp only [Value.call] at means ⊢
    refine retold_blind below lasts (f.signature.blind_bind x) (f'.signature.blind_bind y) means le
      fun a ps ps' i grows less likes means => ?_
    obtain ⟨parameters, count⟩ := likes
    have bodies : BodyLike .quiet (g.kin a) f.isEffect f.signature.arity
        (f.body.inlined f.signature.arity) (f'.body.inlined f.signature.arity) := by
      have body := body.mono (Heap.kin_mono g.grows_refl grows)
      simp only [Function.inlined, ← arity] at body
      exact body
    cases effect : f.isEffect with
    | true =>
      rw [effect] at bodies
      rw [effect, if_pos rfl] at means
      rw [← isEffect, effect, if_pos rfl]
      exact retold_effect count within (arity ▸ within') bodies parameters means
    | false =>
      rw [effect, if_neg (by simp)] at means
      rw [← isEffect, effect, if_neg (by simp)]
      rw [effect] at bodies
      exact retold_body below count within (arity ▸ within') bodies parameters means (by omega)

theorem retold_call (below : Heap.RetoldBelow bound n g) (kin : v.Kin (g.kin g') v')
    {x y : Arguments} (arguments : ArgumentsLike (g.kin g') x y)
    (means : g.Means bound j (.body (v.call bound x)) u) (le : j ≤ n) :
    ∃ a, Heap.Retells bound g g' (.body (v'.call bound y)) u (fun _ => True) a := by
  by_cases function : ∃ f, v = .function f
  · obtain ⟨f, rfl⟩ := function
    cases v' with
    | function f' => exact retold_function below kin arguments means le
    | _ => cases kin.values
  · have other : ∀ f, v ≠ .function f := fun f same => function ⟨f, same⟩
    have values := kin.values
    have other' : ∀ f, v' ≠ .function f := by
      rintro f rfl
      cases v <;> first | exact other _ rfl | cases values
    have same : v.inlined = v := by cases v <;> first | rfl | exact absurd rfl (other _)
    have same' : v'.inlined = v' := by cases v' <;> first | rfl | exact absurd rfl (other' _)
    rw [same, same'] at values
    exact retold_settled below
      (fun C wider => (values.mono wider).like_call (.inl rfl) (arguments.mono wider))
      (Value.blind_call bound x other) (Value.blind_call bound y other') means le

/-! ### Branches -/

namespace Branch

theorem substCases_eq_map (σ : List Expr) (cs : List CaseExpr) :
    Expr.substCases σ cs = cs.map fun c => ⟨c.pattern, c.result.subst σ⟩ := by
  induction cs with
  | nil => rfl
  | cons c cs ih =>
    obtain ⟨pattern, result⟩ := c
    simp [Expr.substCases, ih]

theorem find_closed (σ : List Expr) (key : Key) (cs : List CaseExpr) :
    find key (Expr.substCases σ cs) = (find key cs).map (Expr.subst σ) := by
  have tables : table (Expr.substCases σ cs) = table cs := by
    simp [table, substCases_eq_map, Function.comp_def]
  unfold find
  rw [tables]
  cases (table cs).get? key with
  | none => rfl
  | some i =>
    simp only [Option.bind_some, substCases_eq_map, List.getElem?_map]
    cases cs[i]? <;> rfl

/-- Whichever expression is chosen, it is chosen without locals, too. -/
theorem select_closed (σ : List Expr) (b : Branch) (key : Except Fault Key) :
    (∃ e, b.select key = .done e ∧ (b.closed σ).select key = .done (e.subst σ)) ∨
      ∃ f, b.select key = .raise f ∧ (b.closed σ).select key = .raise f := by
  obtain ⟨cs, d, ls⟩ := b
  have default : (∃ e, d = some e ∧ Expr.substOption σ d = some (e.subst σ)) ∨
      (d = none ∧ Expr.substOption σ d = none) := by
    cases d with
    | some e => exact .inl ⟨e, rfl, rfl⟩
    | none => exact .inr ⟨rfl, rfl⟩
  unfold select
  cases key with
  | ok key =>
    simp only [closed, pure_bind, find_closed]
    cases find key cs with
    | some e => exact .inl ⟨e, rfl, rfl⟩
    | none =>
      rcases default with ⟨e, rfl, closed⟩ | ⟨rfl, closed⟩
      · exact .inl ⟨e, rfl, by rw [closed]; rfl⟩
      · exact .inr ⟨_, rfl, by rw [closed]; rfl⟩
  | error f =>
    by_cases incomparable : f.cause.isIncomparable
    · simp only [closed, incomparable, if_true, pure_bind]
      rcases default with ⟨e, rfl, closed⟩ | ⟨rfl, closed⟩
      · exact .inl ⟨e, rfl, by rw [closed]; rfl⟩
      · exact .inr ⟨_, rfl, by rw [closed]; rfl⟩
    · simp only [incomparable]
      exact .inr ⟨f, rfl, rfl⟩

theorem blind_select (b : Branch) (key : Except Fault Key) : (b.select key).Blind := by
  rcases b.select_closed [] key with ⟨e, same, _⟩ | ⟨f, same, _⟩ <;> rw [same] <;> trivial

theorem alike_select_closed {M : Manner} {B : Bond} {b b' : Branch} {σ σ' : List Expr}
    (fits : b.Fits) (fits' : b'.Fits) (like : BranchLike M B (b.closed σ) (b'.closed σ'))
    {key key' : Except Fault Key} (keys : ResultLike M Eq key key') :
    Alike M B (fun e e' => e.InScope b.locals.length ∧ e'.InScope b'.locals.length ∧
        ExprLike M B 0 (e.subst σ) (e'.subst σ'))
      (b.select key) (b'.select key') := by
  have alike := alike_select like keys
  rcases b.select_closed σ key with ⟨e, same, closed⟩ | ⟨f, same, closed⟩ <;>
    rcases b'.select_closed σ' key' with ⟨e', same', closed'⟩ | ⟨f', same', closed'⟩ <;>
    rw [closed, closed'] at alike
  · rw [same, same']
    cases alike with
    | done results =>
      cases results.2 with
      | ok chosen =>
        exact .done ⟨inScope_of_select fits same, inScope_of_select fits' same', chosen⟩
  · cases alike
  · cases alike
  · rw [same, same']
    cases alike with
    | raise results =>
      cases results.2 with
      | error faults => exact .raise faults

end Branch

theorem retold_branch (below : Heap.RetoldBelow bound n g) {b b' : Branch} {σ σ' : List Expr}
    (locals : g.EmbodiesAll σ b.locals) (locals' : g'.EmbodiesAll σ' b'.locals) (fits : b.Fits)
    (fits' : b'.Fits) (like : BranchLike .quiet (g.kin g') (b.closed σ) (b'.closed σ'))
    (matched : (g.kin g').cells r r')
    (means : g.Means bound j (.body ((Suspension.branch b r).script bound)) u) (le : j ≤ n) :
    ∃ a, Heap.Retells bound g g' (.body ((Suspension.branch b' r').script bound)) u
      (fun _ => True) a := by
  let choose (b : Branch) (r : Ref) : Script Expr := do
    let v ← force r
    b.select (← (Key.ofValue bound v).attempt)
  have split (b : Branch) (r : Ref) : (Suspension.branch b r).script bound =
      choose b r >>= fun e => e.interpret b.locals >>= fun r => pure (.tail r) := by
    simp only [Suspension.script, choose, bind_assoc]
  have blind (b : Branch) (r : Ref) : (choose b r).Blind := by
    refine Script.blind_force r (fun v => by rw [Key.ofValue_bare]) fun v => ?_
    exact (Key.blind_ofValue bound v).attempt.bind b.blind_select
  have lasts : Script.LastsTo
      (fun C e e' => e.InScope b.locals.length ∧ e'.InScope b'.locals.length ∧
        ExprLike .quiet C 0 (e.subst σ) (e'.subst σ')) (g.kin g') .nothing
      (choose b r) (choose b' r') :=
    Alike.lastsTo fun C wider =>
      (Alike.force (wider.1 _ _ matched)).bind fun v v' values =>
        (Key.alike_ofValue (.inl rfl) values).attempt.bind fun key key' keys =>
          Branch.alike_select_closed fits fits' (like.mono wider) keys
  rw [split] at means ⊢
  refine retold_blind below lasts (blind b r) (blind b' r') means le
    fun a e e' i grows less chosen means => ?_
  obtain ⟨within, within', results⟩ := chosen
  exact retold_interpret below locals (locals'.mono grows) within within' results means (by omega)

/-! ### Tasks -/

/-- The work of a cell is told again. -/
theorem Heap.Retells.pending {w : Work} (right : g'.state? r = some (.pending w))
    (told : Heap.Retells bound g g' (.body (w.task.script bound)) u (fun _ => True) a) :
    Heap.Retells bound g g' (.cell r) u (fun _ => True) a :=
  told.after g'.grows_refl (g'.kept_refl _) (fun _ _ _ => trivial)
    fun _ _ means => ⟨_, .pending (told.grows _ _ right (by simp)) means⟩

theorem retold_suspension (below : Heap.RetoldBelow bound n g) {s s' : Suspension}
    (plain : (Task.resume s).Plain) (like : SuspensionLike .quiet (g.kin g') s s')
    (means : g.Means bound j (.body (s.script bound)) u) (le : j ≤ n) :
    ∃ a, Heap.Retells bound g g' (.body (s'.script bound)) u (fun _ => True) a := by
  have blind : (s.script bound).Blind ∧ (s'.script bound).Blind := by
    cases like with
    | branch => exact plain.elim
    | concat tails rests =>
      simp only [Suspension.script]
      grind
    | entries entries =>
      simp only [Suspension.script]
      grind
    | action hosted => exact hosted.elim
    | rally hosted => exact hosted.elim
    | traced targets => exact ⟨fun _ => trivial, fun _ => trivial⟩
  exact retold_settled below (fun C wider => (like.mono wider).like_script (.inl rfl)) blind.1
    blind.2 means le

/-- A call first demands its callee, whose fault is passed on. -/
theorem Task.script_call (bound : Nat) (r : Ref) (x : Arguments) : ∃ next : Value → Script Outcome,
    (Task.call r x).script bound = .demand .pure r next ∧ (∀ e, next (.error e) = .raise e) ∧
      ∀ v, (∀ e, v ≠ .error e) → next v = v.call bound x := by
  refine ⟨_, rfl, fun e => rfl, fun v sound => ?_⟩
  cases v with
  | error e => exact absurd rfl (sound e)
  | _ => rfl

theorem retold_application (below : Heap.RetoldBelow bound n g) {x y : Arguments}
    (functions : (g.kin g').cells r r') (arguments : ArgumentsLike (g.kin g') x y)
    (means : g.Means bound j (.body ((Task.call r x).script bound)) u) (le : j ≤ n) :
    ∃ a, Heap.Retells bound g g' (.body ((Task.call r' y).script bound)) u (fun _ => True) a := by
  cases means with
  | @demand k m _ _ _ v w _ first reply others =>
    obtain ⟨a, told⟩ := below k (by omega) g' r r' v first functions
    obtain ⟨k', v', heard, kin⟩ := told.means
    obtain ⟨w', reply'⟩ := Demand.pure_reply none v'
    have replies := kin.reply reply reply'
    have grown := arguments.mono (Heap.kin_mono g.grows_refl told.grows)
    obtain ⟨next, script, faults, calls⟩ := Task.script_call bound r' y
    have called : ∃ b, Heap.Retells bound g a (.body (next w')) u (fun _ => True) b := by
      have values := replies.values
      cases w with
      | error e =>
        cases w' with
        | error e' =>
          cases values with
          | error same =>
            cases others with
            | fault cause =>
              rw [faults]
              have kin := Value.kin_fault (B := g.kin a) (cause.symm.trans same.cause)
              exact ⟨a, .now (.fault rfl) kin⟩
        | _ => cases values
      | _ =>
        have sound : ∀ e, w' ≠ .error e := by
          rintro e rfl
          cases values
        rw [calls w' sound]
        exact retold_call below replies grown others (by omega)
    obtain ⟨b, told'⟩ := called
    rw [script]
    exact ⟨b, told'.after told.grows told.kept (fun _ _ _ => trivial) fun m v means =>
      ⟨_, .demand (heard.mono told'.grows) reply' means⟩⟩

/-- Whatever a cell means, its kin mean, with some more cells. -/
theorem retold (bound : Nat) (g : Heap) (n : Nat) : Heap.RetoldBelow bound n g := by
  induction n with
  | zero => exact fun j less => absurd less (Nat.not_lt_zero j)
  | succ n below =>
    intro j less g' r r' u means kin
    cases Heap.kindred kin with
    | forced left right kin =>
      cases means with
      | forced state resembles =>
        cases left.symm.trans state
        exact ⟨g', .now (.forced right (.same _)) (kin.resembling resembles (.same _))⟩
      | redirect state => simp [left] at state
      | pending state => simp [left] at state
    | redirect left right targets =>
      cases means with
      | forced state => simp [left] at state
      | pending state => simp [left] at state
      | @redirect m _ _ _ state rest =>
        cases left.symm.trans state
        obtain ⟨a, told⟩ := below m (by omega) g' _ _ u rest targets
        exact ⟨a, told.after g'.grows_refl (g'.kept_refl _) (fun _ _ _ => trivial)
          fun n v means => ⟨_, .redirect (told.grows _ _ right (by simp)) means⟩⟩
    | call left right functions arguments =>
      cases means with
      | forced state => simp [left] at state
      | redirect state => simp [left] at state
      | pending state rest =>
        cases left.symm.trans state
        obtain ⟨a, told⟩ := retold_application below functions arguments rest (by omega)
        exact ⟨a, .pending right told⟩
    | suspension left right plain suspensions =>
      cases means with
      | forced state => simp [left] at state
      | redirect state => simp [left] at state
      | pending state rest =>
        cases left.symm.trans state
        obtain ⟨a, told⟩ := retold_suspension below plain suspensions rest (by omega)
        exact ⟨a, .pending right told⟩
    | branch left right locals locals' fits fits' branches matched =>
      cases means with
      | forced state => simp [left] at state
      | redirect state => simp [left] at state
      | pending state rest =>
        cases left.symm.trans state
        obtain ⟨a, told⟩ :=
          retold_branch below locals locals' fits fits' branches matched rest (by omega)
        exact ⟨a, .pending right told⟩

end
end CallByNeed
