import CallByNeed.Proofs.Concatenation.Drawing
import CallByNeed.Proofs.Purity
import CallByNeed.Proofs.Reading.Endings
import CallByNeed.Proofs.Writing.Plans

/- Writing is all or nothing. Whatever fails before the text and its sink are known, nothing has been
   written, created or emptied; and if nothing fails, one sink has received the text and no other
   stream or file has changed. -/
namespace CallByNeed

/-- The runner is safe among others, and so is the store. Only a bold one performs effects. -/
structure Runner.Calm {α : Type} (bold : Prop) (T : Terms α) (G : Ken) (others : List Ref)
    (s : Store) (w : Runner α) : Prop where
  store : s.Sealed G
  safe : ∃ mine, w.Sealed bold T G s.heap mine ∧ s.heap.Holds mine
  apart : (others ++ (w.owned ++ [])).Nodup
  forcing : s.heap.Forcing (others ++ (w.owned ++ []))

section
variable {α : Type} {bold : Prop} {T : Terms α} {G : Ken} {E : Engine} {others : List Ref}
variable {w w' : Runner α} {s s' t : Store} {world world' : World} {o : Except Fault α}

theorem Runner.Calm.step (quiet : T.quiet) (calm : w.Calm bold T G others s)
    (step : w.Advance E s w' s') : ∃ K, G ≤ K ∧ w'.Calm bold T K others s' := by
  obtain ⟨sealed, ⟨mine, runner, holds⟩, apart, forcing⟩ := calm
  have own : w.owned.Nodup := by
    simp only [List.append_nil, List.nodup_append] at apart
    exact apart.2.1
  have takes : s.heap.Forcing w.owned := fun r mem => forcing r (by simp [mem])
  obtain ⟨K, mine', turned, runner'⟩ := step.sealed quiet takes own sealed runner holds
  obtain ⟨handed, served⟩ := turned.served
  refine ⟨K, turned.grows, turned.sealed, ⟨mine', runner', ?_⟩, served.apart apart forcing,
    served.forcing_all apart forcing⟩
  have before : s.heap.Holds ([] ++ (mine ++ [])) := by simpa using holds
  simpa using turned.passes.holds_amid before

/-- A runner that is not bold asks for no more than to read. -/
theorem Runner.Calm.ask (quiet : T.quiet) (calm : w.Calm bold T G others s) {q : Request}
    {next : q.Answer → Runner α} (asks : w.step E s = .ask q next s') (world : World) :
    (¬ bold → world.Intact (World.answer q world).2) ∧
      (next (World.answer q world).1).Calm bold T G others s' := by
  obtain ⟨sealed, ⟨mine, runner, holds⟩, apart, forcing⟩ := calm
  obtain ⟨rfl, request, answered⟩ := Runner.sealed_of_ask quiet asks runner
  have reads (meek : ¬ bold) : q.Reads := request.resolve_right fun loud => meek loud.1
  obtain ⟨runner', owned⟩ := answered (World.answer q world).1
  exact ⟨fun meek => World.intact_of_reads (reads meek) world, sealed, ⟨mine, runner', holds⟩, owned ▸ apart,
    owned ▸ forcing⟩

theorem Runner.Calm.leaves (quiet : T.quiet) (calm : w.Calm bold T G others s)
    (leaves : w.Leaves E s world o t world') : (¬ bold → world.Intact world') ∧
      ∃ K, G ≤ K ∧ (Runner.ready (Script.ended o)).Calm bold T K others t := by
  refine Runner.Leaves.induct (motive := fun w s world => ∀ G, w.Calm bold T G others s →
    (¬ bold → world.Intact world') ∧
      ∃ K, G ≤ K ∧ (Runner.ready (Script.ended o)).Calm bold T K others t) ?_ ?_ ?_ leaves G calm
  · exact fun G calm => ⟨fun _ => World.intact_refl _, G, G.le_refl, calm⟩
  · intro w w₁ s s₁ _ step _ ih G calm
    obtain ⟨K, grows, calm₁⟩ := calm.step quiet step
    obtain ⟨intact, L, wider, ended⟩ := ih K calm₁
    exact ⟨intact, L, Ken.le_trans grows wider, ended⟩
  · intro w s s₁ world q next asks ih G calm
    obtain ⟨now, calm₁⟩ := calm.ask quiet asks world
    obtain ⟨intact, rest⟩ := ih G calm₁
    exact ⟨fun meek => (now meek).trans (intact meek), rest⟩

/-- A quiet script in a sealed store leaves it sealed, and what it comes to mentions known cells. -/
theorem Script.Sealed.leaves {m : Script α} (script : m.Sealed T G .nothing) (quiet : T.quiet)
    (sealed : s.Sealed G) (apart : others.Nodup) (forcing : s.heap.Forcing others)
    (leaves : m.Leaves E s world o t world') :
    world.Intact world' ∧ t.heap.Forcing others ∧
      ∃ K held, G ≤ K ∧ t.Sealed K ∧ (Script.ended o).Sealed T K held := by
  have calm : (Runner.ready m).Calm False T G others s :=
    ⟨sealed, ⟨_, .ready Held.known_nothing script, ⟨List.nodup_nil, nofun⟩⟩,
      by simpa [Runner.owned] using apart, by simpa [Runner.owned] using forcing⟩
  obtain ⟨intact, K, grows, ended, ⟨mine, runner, _⟩, _, still⟩ := calm.leaves quiet leaves
  refine ⟨intact not_false, fun r mem => still r (by simp [mem]), K, ?_⟩
  generalize same : Runner.ready (Script.ended o) = w at runner
  cases runner with
  | ready _ scripts =>
    cases same
    exact ⟨_, grows, ended, scripts⟩
  | performs => cases o <;> cases same
  | forcing => cases same

end

/-! ### What a sink receives -/

namespace World

/-- One sink has received a text. A file holds nothing else. -/
inductive Receives (w w' : World) (text : String) : Sink → Prop
  | stdout (appends : w'.stdout = w.stdout ++ text) (stderr : w'.stderr = w.stderr)
      (files : w'.files = w.files) : Receives w w' text .stdout
  | stderr (stdout : w'.stdout = w.stdout) (appends : w'.stderr = w.stderr ++ text)
      (files : w'.files = w.files) : Receives w w' text .stderr
  | file {path name : String} {mode : Nat} (place : w.place path = .file name)
      (stdout : w'.stdout = w.stdout) (stderr : w'.stderr = w.stderr)
      (holds : ∃ f, w'.file? name = some f ∧ f.content = text.toUTF8)
      (others : ∀ other, other ≠ name → w'.file? other = w.file? other) :
      Receives w w' text (.file path mode)

section
variable {w w₁ w' : World} {text : String} {sink : Sink}

theorem Intact.file? (intact : w.Intact w') (name : String) : w'.file? name = w.file? name := by
  rw [World.file?, World.file?, intact.files]

theorem Intact.place (intact : w.Intact w') (path : String) : w'.place path = w.place path := by
  simp only [World.place, intact.file?]

/-- What is refused has changed nothing. -/
theorem write_of_error {e : FileError} (refused : (w.write text sink).1 = .error e) :
    (w.write text sink).2 = w := by
  cases sink with
  | stdout | stderr => cases refused
  | file path mode =>
    simp only [write] at refused ⊢
    split at refused
    · rfl
    · rfl
    · cases refused

theorem file?_store (w : World) (name : String) (mode : Nat) (content : ByteArray) :
    ∃ f, (w.store name mode content).file? name = some f ∧ f.content = content := by
  unfold store
  cases found : w.file? name with
  | none =>
    refine ⟨{ name, mode := mode % 0o10000, content }, ?_, rfl⟩
    have absent : w.files.find? (fun f => f.name == name) = none := found
    simp [World.file?, List.find?_append, absent]
  | some f =>
    have named : (f.name == name) = true :=
      List.find?_some (p := fun f : File => f.name == name) found
    refine ⟨{ f with content }, ?_, rfl⟩
    simp only [Option.isSome_some, ↓reduceIte, World.file?, List.find?_map]
    rw [show (fun f : File => f.name == name) ∘
        (fun f => if f.name == name then { f with content } else f) = fun f => f.name == name from
      funext fun f => by
        simp only [Function.comp]
        split <;> rfl]
    rw [show w.files.find? (fun f => f.name == name) = some f from found]
    simp only [Option.map_some, if_pos named]

theorem file?_store_ne (w : World) {other name : String} (ne : other ≠ name) (mode : Nat)
    (content : ByteArray) : (w.store name mode content).file? other = w.file? other := by
  unfold store
  split
  · simp only [World.file?, List.find?_map]
    rw [show (fun f : File => f.name == other) ∘
        (fun f => if f.name == name then { f with content } else f) = fun f => f.name == other from
      funext fun f => by
        simp only [Function.comp]
        split <;> rfl]
    cases found : w.files.find? (fun f => f.name == other) with
    | none => rfl
    | some f =>
      have named : (f.name == other) = true :=
        List.find?_some (p := fun f : File => f.name == other) found
      rw [beq_iff_eq] at named
      simp [named, ne]
  · simp [World.file?, List.find?_append, ne.symm]

theorem receives_of_write (written : (w.write text sink).1 = .ok ()) :
    w.Receives (w.write text sink).2 text sink := by
  cases sink with
  | stdout => exact .stdout rfl rfl rfl
  | stderr => exact .stderr rfl rfl rfl
  | file path mode =>
    simp only [write] at written ⊢
    split at written
    · cases written
    · cases written
    · next name found =>
      have stored : ∀ content, (w.store name mode content).stdout = w.stdout ∧
          (w.store name mode content).stderr = w.stderr := by
        intro content
        unfold store
        split <;> exact ⟨rfl, rfl⟩
      exact .file found (stored _).1 (stored _).2 (w.file?_store name mode _) fun other ne =>
        w.file?_store_ne ne mode _

end
end World

/-- One sink has received the text of the arguments, of which these parameters tell all. -/
def Heap.Delivers (bound : Nat) (h : Heap) (parameters : List Ref) (w w' : World) : Prop :=
  ∃ arguments separator ending file mode sink text,
    parameters = [arguments, separator, ending, file, mode] ∧ h.Directs file mode sink ∧
    h.Composes bound arguments separator ending text ∧ w.Receives w' text sink

section
variable {bound : Nat} {h h' : Heap} {parameters : List Ref} {w w₁ w' : World}

theorem Heap.HasText.mono (before : h.Before h') {r : Ref} {text : String}
    (has : h.HasText bound r text) : h'.HasText bound r text :=
  has.imp fun _ found => ⟨before.replies found.1, found.2.before before⟩

theorem Heap.Directs.mono (before : h.Before h') {file mode : Ref} {sink : Sink}
    (directs : h.Directs file mode sink) : h'.Directs file mode sink := by
  cases directs with
  | stdout replies one => exact .stdout (before.replies replies) one
  | stderr replies two => exact .stderr (before.replies replies) two
  | file replies modes => exact .file (before.replies replies) (before.replies modes)

theorem Heap.Composes.mono (before : h.Before h') {arguments separator ending : Ref} {text : String}
    (composes : h.Composes bound arguments separator ending text) :
    h'.Composes bound arguments separator ending text := by
  obtain ⟨rs, visited, texts, between, last, shows, has, separators, ends, rfl⟩ := composes
  exact ⟨rs, visited, texts, between, last, shows.mono before, has.imp fun _ _ => .mono before,
    before.replies separators, before.replies ends, rfl⟩

theorem Heap.Delivers.mono (before : h.Before h') (delivers : h.Delivers bound parameters w w') :
    h'.Delivers bound parameters w w' := by
  obtain ⟨arguments, separator, ending, file, mode, sink, text, same, directs, composes,
    receives⟩ := delivers
  exact ⟨arguments, separator, ending, file, mode, sink, text, same, directs.mono before,
    composes.mono before, receives⟩

theorem World.Receives.after {text : String} {sink : Sink} (intact : w.Intact w₁)
    (receives : w₁.Receives w' text sink) : w.Receives w' text sink := by
  cases receives with
  | stdout appends stderr files =>
    exact .stdout (by rw [appends, intact.stdout]) (stderr.trans intact.stderr)
      (files.trans intact.files)
  | stderr stdout appends files =>
    exact .stderr (stdout.trans intact.stdout) (by rw [appends, intact.stderr])
      (files.trans intact.files)
  | file place stdout stderr holds others =>
    exact .file ((intact.place _).symm.trans place) (stdout.trans intact.stdout)
      (stderr.trans intact.stderr) holds fun other ne =>
        (others other ne).trans (intact.file? other)

theorem Heap.Delivers.after (intact : w.Intact w₁) (delivers : h.Delivers bound parameters w₁ w') :
    h.Delivers bound parameters w w' := by
  obtain ⟨arguments, separator, ending, file, mode, sink, text, same, directs, composes,
    receives⟩ := delivers
  exact ⟨arguments, separator, ending, file, mode, sink, text, same, directs, composes,
    receives.after intact⟩

end

/-! ### The body of the effect -/

section
variable {E : Engine} {G : Ken} {s t : Store} {w w' : World} {others : List Ref}
variable {arguments separator ending file mode : Ref}

theorem Builtin.sealed_planOf (known : ∀ p ∈ [arguments, separator, ending, file, mode], p ∈ G.cells)
    (bound : Nat) : (planOf bound arguments separator ending file mode).Sealed
      (.own (fun _ => True) fun _ => Eq) G .nothing := by
  refine ⟨(tame_planOf bound arguments separator ending file mode).safe fun _ _ => trivial,
    fun K grows => ?_⟩
  have cells : ∀ p ∈ [arguments, separator, ending, file, mode], K.bond.cells p p :=
    fun p mem => ⟨rfl, grows.1 (known p mem)⟩
  exact alike_planOf (.inl rfl) (cells _ (by simp)) (cells _ (by simp)) (cells _ (by simp))
    (cells _ (by simp)) (cells _ (by simp))

/-- The one request is refused, or it is granted and one sink has received the text. -/
theorem Builtin.of_leaves_send {sink : Sink} {text : String} {o : Except Fault Outcome}
    (leaves : (send (sink, text)).Leaves E s w o t w') :
    t = s ∧ ((∃ e, o = .error e ∧ w' = w) ∨
      (o = .ok (.value (.list .nil)) ∧ w.Receives w' text sink)) := by
  rw [send, Script.leaves_ask_iff] at leaves
  cases written : (w.write text sink).1 with
  | error e =>
    simp only [World.answer, written, Script.leaves_fail_iff] at leaves
    obtain ⟨rfl, rfl, rfl⟩ := leaves
    exact ⟨rfl, .inl ⟨_, rfl, World.write_of_error written⟩⟩
  | ok _ =>
    simp only [World.answer, written, answer, Script.leaves_pure_iff] at leaves
    obtain ⟨rfl, rfl, rfl⟩ := leaves
    exact ⟨rfl, .inr ⟨rfl, World.receives_of_write written⟩⟩

/-- All that may fail before the request is over by then. -/
theorem Builtin.of_leaves_writeTo (sealed : s.Sealed G)
    (known : ∀ p ∈ [arguments, separator, ending, file, mode], p ∈ G.cells)
    (apart : others.Nodup) (forcing : s.heap.Forcing others) {o : Except Fault Outcome}
    (leaves : (writeTo E.bound arguments separator ending file mode).Leaves E s w o t w') :
    t.heap.Forcing others ∧ ((∃ e, o = .error e ∧ w.Intact w') ∨
      (o = .ok (.value (.list .nil)) ∧
        t.heap.Delivers E.bound [arguments, separator, ending, file, mode] w w')) := by
  rw [writeTo_eq, Script.leaves_bind_iff] at leaves
  have plan := sealed_planOf known E.bound
  rcases leaves with ⟨⟨sink, text⟩, s₁, w₁, planned, sent⟩ | ⟨e, failed, rfl⟩
  · obtain ⟨intact, still, -⟩ := plan.leaves trivial sealed apart forcing planned
    obtain ⟨directs, composes⟩ := composes_of_reads
      ((isReader_planOf _ _ _ _ _ _).reads_of_leaves planned).2
    obtain ⟨rfl, ⟨e, rfl, rfl⟩ | ⟨rfl, receives⟩⟩ := of_leaves_send sent
    · exact ⟨still, .inl ⟨e, rfl, intact⟩⟩
    · exact ⟨still, .inr ⟨rfl, _, _, _, _, _, sink, text, rfl, directs, composes,
        receives.after intact⟩⟩
  · obtain ⟨intact, still, -⟩ := plan.leaves trivial sealed apart forcing failed
    exact ⟨still, .inl ⟨e, rfl, intact⟩⟩

/-- The action of an effect is run for somebody who has been shown it. -/
theorem Store.Sealed.parameters_of_pending {a : Ref} {site : Option Location} {body : Body}
    {cells : List Ref} (sealed : s.Sealed G) (known : a ∈ G.actions) (pending : s.heap.state? a =
      some (.pending { task := .resume (.action body cells), site })) : ∀ p ∈ cells, p ∈ G.cells := by
  intro p mem
  have state := sealed.heap.of_state (.inr known) pending
  cases state.known with
  | pending works =>
    obtain ⟨task, _⟩ := works
    cases task with
    | resume suspensions =>
      cases suspensions with
      | action hosted bodies parameters => exact (List.forall₂_same.1 parameters p mem).2

theorem Heap.Sealed.writes_of_pending {a : Ref} {site : Option Location} {cells : List Ref}
    (sealed : s.Sealed G) (known : a ∈ G.actions) (pending : s.heap.state? a =
      some (.pending { task := .resume (.action (.builtin .write) cells), site })) :
    (∀ p ∈ cells, p ∈ G.cells) ∧ ∃ arguments separator ending file mode,
      cells = [arguments, separator, ending, file, mode] := by
  have fits : cells.length = 5 := (sealed.heap.fits _ _ pending).1.symm
  refine ⟨sealed.parameters_of_pending known pending, ?_⟩
  match cells, fits with
  | [arguments, separator, ending, file, mode], _ => exact ⟨_, _, _, _, _, rfl⟩

/-- Whoever runs the action of a writing effect is answered a fault, and nothing has changed, or the
    empty list, and one sink has received the text. -/
theorem Runner.Leaves.of_writing {α : Type} {next : Value → Script α} {a : Ref}
    {site : Option Location} {cells : List Ref} {o : Except Fault α} (sealed : s.Sealed G)
    (known : a ∈ G.actions) (pending : s.heap.state? a =
      some (.pending { task := .resume (.action (.builtin .write) cells), site }))
    (leaves : (Runner.forcing .pure a next (.enter a) []).Leaves E s w o t w') :
    ∃ u t₁ w₁, (next u).Leaves E t₁ w₁ o t w' ∧ ((∃ e, u = .error e ∧ w.Intact w₁) ∨
      (u = .list .nil ∧ t₁.heap.Delivers E.bound cells w w₁)) := by
  obtain ⟨cells_known, arguments, separator, ending, file, mode, rfl⟩ :=
    Heap.Sealed.writes_of_pending sealed known pending
  have taken : (s.start a).Sealed (G.withCells {a}) :=
    sealed.with_heap (G.le_withCells _)
      (sealed.heap.setState pending trivial .forcing (by simp))
  obtain ⟨x, s₁, w₁, body, rest⟩ := leaves.of_pending pending
  obtain ⟨still, ⟨e, rfl, intact⟩ | ⟨rfl, delivers⟩⟩ := Builtin.of_leaves_writeTo
    taken (fun p mem => .inl (cells_known p mem)) (List.nodup_singleton a)
    (fun q mem => List.mem_singleton.1 mem ▸ Heap.state?_setState_self pending _) body
  · exact ⟨_, _, _, Runner.Leaves.of_within_raise rest, .inl ⟨_, rfl, intact⟩⟩
  · refine ⟨_, _, _, Runner.Leaves.of_within_value (u := .list .nil) (fun _ => rfl) (by simp) rest,
      .inr ⟨rfl, delivers.mono ?_⟩⟩
    exact Heap.before_publish (still a (List.mem_singleton_self a)) _

end

/-! ### The call -/

namespace Builtin
variable {E : Engine} {s t : Store} {w w' : World} {f : Ref} {arguments : Arguments}

/-- A call of a builtin with an effect binds its arguments and makes an effect of them. -/
theorem of_leaves_deferred {b : Builtin} (deferred : b.isEffect = true)
    (function : s.heap.Yields f (.function b.function)) {o : Except Fault Outcome}
    (leaves : ((Task.call f arguments).script E.bound).Leaves E s w o t w') :
    (∃ e, o = .error e ∧ (b.signature.bind arguments).Leaves E s w (.error e) t w') ∨
    ∃ cells s₁ w₁ a, (b.signature.bind arguments).Leaves E s w (.ok cells) s₁ w₁ ∧
      o = .ok (.value (.effect a)) ∧ s₁.heap.Enlarges t.heap ∧ w' = w₁ ∧
      t.heap.state? a =
        some (.pending { task := .resume (.action (.builtin b) cells), site := none }) := by
  have forced : (force f).Comes E s (.ok (.function b.function)) s :=
    .demand (Runner.returns_of_yields function) rfl .done
  have call := forced.leaves_bind_iff.1 leaves
  simp only [Value.call, Builtin.function, deferred, if_true] at call
  rcases Script.leaves_bind_iff.1 call with ⟨cells, s₁, w₁, binds, rest⟩ | ⟨e, binds, rfl⟩
  · obtain ⟨a, t', made, larger, pending⟩ :=
      Script.comes_alloc E s₁ (.ofSuspension (.action (.builtin b) cells))
    have answered := (made.leaves_bind_iff (f := fun a => answer (.effect a))).1 rest
    obtain ⟨rfl, rfl, rfl⟩ := Script.leaves_pure_iff.1 answered
    exact .inr ⟨cells, s₁, _, a, binds, rfl, larger, rfl, pending⟩
  · exact .inl ⟨e, rfl, binds⟩

end Builtin

section
variable {G : Ken} {E : Engine} {s t : Store} {w w' : World} {r f : Ref} {arguments : Arguments}
variable {site : Option Location} {v : Value}

/-- Whoever runs such a call only reads, and the effect that has been made is known. -/
theorem Store.Sealed.defers {b : Builtin} (deferred : b.isEffect = true) (sealed : s.Sealed G)
    (known : r ∈ G.cells)
    (call : s.heap.state? r = some (.pending { task := .call f arguments, site }))
    (function : s.heap.Yields f (.function b.function)) {o : Except Fault Outcome}
    (leaves : ((Task.call f arguments).script E.bound).Leaves E (s.start r) w o t w') :
    w.Intact w' ∧ t.heap.state? r = some .forcing ∧
    ((∃ e, o = .error e ∧ (b.signature.bind arguments).Leaves E (s.start r) w (.error e) t w') ∨
    ∃ cells s₁ a K, (b.signature.bind arguments).Leaves E (s.start r) w (.ok cells) s₁ w' ∧
      o = .ok (.value (.effect a)) ∧ s₁.heap.Enlarges t.heap ∧
      (t.publish r (.effect a)).Sealed K ∧ a ∈ K.actions ∧ (t.publish r (.effect a)).heap.state? a =
        some (.pending { task := .resume (.action (.builtin b) cells), site := none })) := by
  have state := sealed.heap.of_state (.inl known) call
  have taken : (s.start r).Sealed G :=
    sealed.with_heap G.le_refl (sealed.heap.setState_cell known trivial .forcing (by simp))
  have script : ((Task.call f arguments).script E.bound).Sealed (.cell True) G .nothing := by
    cases state.known with
    | pending works =>
      exact Work.sealed_script (w := ⟨.call f arguments, site⟩) (sealed.heap.fits _ _ call)
        (fun _ => state.calm known _ rfl) works E.bound
  obtain ⟨intact, still, K, held, grows, sealed₁, ended⟩ := script.leaves trivial
    taken (List.nodup_singleton r)
    (fun q mem => List.mem_singleton.1 mem ▸ Heap.state?_setState_self call _) leaves
  have running : t.heap.state? r = some .forcing := still r (List.mem_singleton_self r)
  refine ⟨intact, running, ?_⟩
  rcases Builtin.of_leaves_deferred deferred ((Store.keeps_start call).before.yields function) leaves with
    fails | ⟨cells, s₁, _, a, binds, rfl, larger, rfl, pending⟩
  · exact .inl fails
  · obtain ⟨fits, values⟩ := Script.Sealed.answer ended
    have apart : a ≠ r := by
      rintro rfl
      rw [running] at pending
      cases pending
    refine .inr ⟨cells, s₁, a, K, binds, rfl, larger, ?_, action_mem_of_like values,
      (Heap.state?_setState_ne apart _).trans pending⟩
    exact sealed₁.with_heap K.le_refl
      (sealed₁.heap.setState_cell (grows.1 known) fits (.forced values) (by simp))

/-- Writing is all or nothing. Who performs the effect of a call of `write` is answered a fault, and
    then nothing has been written, created or emptied; or the empty list, and then one sink has
    received the text that the bound parameters tell. -/
theorem write_is_all_or_nothing (sealed : s.Sealed G) (known : r ∈ G.cells)
    (call : s.heap.state? r = some (.pending { task := .call f arguments, site }))
    (function : s.heap.Yields f (.function Builtin.write.function))
    (leaves : (perform r).Leaves E s w (.ok v) t w') :
    ((∃ e, v = .error e) → w.Intact w') ∧
    ((∀ e, v ≠ .error e) → v = .list .nil ∧ ∃ parameters s₁ w₁,
      (Builtin.write.signature.bind arguments).Leaves E (s.start r) w (.ok parameters) s₁ w₁ ∧
        t.heap.Delivers E.bound parameters w w') := by
  obtain ⟨x, s₁, w₁, body, rest⟩ :=
    (Runner.Leaves.after leaves .demand).of_pending call
  obtain ⟨intact, -, ⟨e, rfl, -⟩ | ⟨cells, s₂, a, K, binds, rfl, -, told, shown, waits⟩⟩ :=
    sealed.defers rfl known call function body
  · obtain ⟨same, -, rfl⟩ := Script.leaves_pure_iff.1 (Runner.Leaves.of_within_raise rest)
    cases same
    exact ⟨fun _ => intact, fun sound => absurd rfl (sound _)⟩
  · obtain ⟨u, t₁, w₂, last, outcome⟩ :=
      Runner.Leaves.of_writing told shown waits (Runner.Leaves.of_within_effect rest)
    obtain ⟨same, rfl, rfl⟩ := Script.leaves_pure_iff.1 last
    cases same
    rcases outcome with ⟨e, rfl, untouched⟩ | ⟨rfl, delivers⟩
    · exact ⟨fun _ => intact.trans untouched, fun sound => absurd rfl (sound e)⟩
    · exact ⟨nofun, fun _ => ⟨rfl, cells, s₂, _, binds, delivers.after intact⟩⟩

end

/-- A note that goes to a file. -/
def note : Program where
  outputs := [{
    value := .call (.global "write")
      [⟨.literal (.string "hello"), false⟩, ⟨.literal (.string "there"), false⟩]
      [⟨"end", .literal (.string "!")⟩, ⟨"file", .literal (.string "out")⟩] [] none }]

/-- There is an older note, and another file. -/
def desk : World where
  files := [⟨"out", 0o600, "old".toUTF8⟩, ⟨"kept", 0o600, "kept".toUTF8⟩]

set_option maxRecDepth 4000 in
/-- The file holds the note and nothing else. -/
theorem write_is_all_or_nothing_of_note : ∃ m h r t w', note.load {} = .ok (m, h) ∧
    m.outputs.map Output.cell = [r] ∧ ({ heap := h } : Store).Sealed h.ken ∧
    (perform r).Leaves { bound := 4 } { heap := h } desk (.ok (.list .nil)) t w' ∧
    w'.files.map File.content = ["hello there!".toUTF8, "kept".toUTF8] ∧
    ∃ arguments parameters s₁ w₁, (Builtin.write.signature.bind arguments).Leaves { bound := 4 }
        (Store.start { heap := h } r) desk (.ok parameters) s₁ w₁ ∧
      t.heap.Delivers 4 parameters desk w' := by
  have loads : ∃ m h, note.load {} = .ok (m, h) := ⟨_, _, rfl⟩
  obtain ⟨m, h, loads⟩ := loads
  obtain ⟨r, t, w', output, known, ⟨f, arguments, site, call, function⟩, leaves, files⟩ : ∃ r t w',
      m.outputs.map Output.cell = [r] ∧ r ∈ h.ken.cells ∧
      (∃ f arguments site, h.state? r = some (.pending { task := .call f arguments, site }) ∧
        h.Yields f (.function Builtin.write.function)) ∧
      (perform r).Leaves { bound := 4 } { heap := h } desk (.ok (.list .nil)) t w' ∧
      w'.files.map File.content = ["hello there!".toUTF8, "kept".toUTF8] := by
    cases loads
    exact ⟨_, _, _, rfl, ⟨_, rfl⟩, ⟨_, _, _, rfl, _, .refl, rfl⟩, ⟨50, rfl⟩, rfl⟩
  have sealed := Program.sealed_of_load loads
  have wrote := write_is_all_or_nothing sealed known call function leaves
  obtain ⟨-, parameters, s₁, w₁, binds, delivers⟩ := wrote.2 nofun
  exact ⟨m, h, r, t, w', loads, output, sealed, leaves, files, _, parameters, s₁, w₁, binds,
    delivers⟩

end CallByNeed
