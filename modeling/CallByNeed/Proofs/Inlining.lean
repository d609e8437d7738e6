import CallByNeed.Proofs.Inlining.Linked
import CallByNeed.Proofs.Inlining.Loading
import CallByNeed.Proofs.Order

/- Bindings only share. Functions of a program that neither reads nor rallies may lose their
   bindings and have them instead wherever these were named, in the cases and defaults of switches
   too; then work is done again that was done once, and nothing else changes. -/
namespace CallByNeed

/-- Bonded cells of related stores come to an end on both sides or on none. Their values are alike
    but for the sites that faults have passed and the bindings of functions; effects that they make
    are of one function and of bonded parameters. With the parts of values and effects it goes on so,
    whatever is forced on one side only. -/
structure IsTransparent (R : Bond → Store → Store → Prop) : Prop where
  ends : ∀ {B s s' r r'}, R B s s' → B.cells r r' → (s.Ends r ↔ s'.Ends r')
  values : ∀ {B s s' r r' v v' t t'}, R B s s' → B.cells r r' → s.Forces r v t →
    s'.Forces r' v' t' → ∃ C, B ≤ C ∧ v.Kin C v' ∧ R C t t'
  effects : ∀ {B s s' r r'}, R B s s' → B.actions r r' →
    ∃ b b' ps ps' C, s.heap.Offers r b ps ∧ s'.heap.Offers r' b' ps' ∧ B ≤ C ∧
      BodyLike .quiet C true ps.length (b.inlined ps.length) (b'.inlined ps.length) ∧
        RefsLike C ps ps' ∧ R C s s'
  left : ∀ {B s s' r r' v t}, R B s s' → B.cells r r' → s.Forces r v t → R B t s'
  right : ∀ {B s s' r r' v' t'}, R B s s' → B.cells r r' → s'.Forces r' v' t' → R B s t'

/-- Nothing that is forced, on whichever side, shows where bindings have been. -/
def Store.Interchanges (B : Bond) (s s' : Store) : Prop := ∃ R, IsTransparent R ∧ R B s s'

theorem isTransparent_linked : IsTransparent Store.Linked where
  ends := Store.Linked.ends
  values := Store.Linked.values
  effects := Store.Linked.effects
  left := Store.Linked.left
  right := Store.Linked.right

/-- A loaded heap is linked with the one whose functions have lost their bindings. -/
theorem Heap.Inlines.linked {h h' : Heap} (inlines : h.Inlines h')
    (idle : ∀ r, h.state? r ≠ some .forcing)
    (loaded : ∀ r ∈ h.domain, ∃ c, h.state? r = some c ∧ c.Loaded .quiet h.bond) :
    Store.Linked h.bond { heap := h } { heap := h' } := by
  have idle' := inlines.idle idle
  have twins : h.bond ≤ h.twins h := Heap.bond_le_twins loaded
  have twins' : h'.bond ≤ h'.twins h' := Heap.bond_le_twins (inlines.loaded loaded)
  rw [inlines.bond_eq] at twins'
  refine ⟨0, h, h, h', h', Heap.backs_self idle, Heap.backs_self idle', idle, idle', ?_, ?_⟩
  · rintro r _ ⟨rfl, known⟩
    have kin := (inlines.bond_le_kin loaded).1 r r ⟨rfl, known⟩
    exact ⟨r, ⟨r, twins.1 r r ⟨rfl, known⟩, kin⟩, twins'.1 r r ⟨rfl, known⟩⟩
  · exact fun r r' never => never.elim

/-- Functions of a program that neither reads nor rallies may lose their bindings, whichever
    functions they are. The program loads as before, with the same outputs and definitions, and
    nothing that is forced shows the difference. -/
theorem bindings_only_share {p : Program} {m : Module} {h : Heap} (reads : ¬ p.Uses .read)
    (rallies : ¬ p.Uses .rally) (chosen : String → Bool) (loads : p.load {} = .ok (m, h)) :
    ∃ h' B, (p.inlined chosen).load {} = .ok (m, h') ∧ (∀ o ∈ m.outputs, B.cells o.cell o.cell) ∧
      (∀ d ∈ m.definitions, B.cells d.2 d.2) ∧
        Store.Interchanges B { heap := h } { heap := h' } := by
  have permits := Program.permits_quiet reads rallies
  have loaded := Program.loaded_of_load id permits loads
  obtain ⟨h', loads', inlines⟩ := Program.inlined_of_load chosen loads
  refine ⟨h', h.bond, loads', fun o mem => ⟨rfl, loaded.outputs o mem⟩,
    fun d mem => ⟨rfl, loaded.definitions d mem⟩, _, isTransparent_linked, ?_⟩
  exact inlines.linked loaded.idle (Program.effectless_of_load permits loads)

/-- A value that has no like but itself is the value on both sides. -/
theorem Store.Interchanges.forces {B : Bond} {s s' t : Store} {r r' : Ref} {v : Value}
    (interchanges : Store.Interchanges B s s') (cells : B.cells r r') (forces : s.Forces r v t)
    (alone : ∀ C u, v.Kin C u → u = v) : ∃ t', s'.Forces r' v t' := by
  obtain ⟨R, transparent, related⟩ := interchanges
  obtain ⟨u, t', forces'⟩ := (transparent.ends related cells).1 ⟨v, t, forces⟩
  obtain ⟨C, _, kin, _⟩ := transparent.values related cells forces forces'
  rw [alone C u kin] at forces'
  exact ⟨t', forces'⟩

/-- A function whose second binding names the first one twice. A case of its switch answers the
    second binding, the default answers the first one. -/
def pickingProgram : Program where
  definitions := [
    .function "pick" (.plain ["x"])
      [.call (.global "typeOf") [⟨.local 0, false⟩] [] [] none,
        .call (.global "=") [⟨.local 1, false⟩, ⟨.local 1, false⟩] [] [] none]
      (.switch (.local 0) [⟨.literal (.bool true), .local 2⟩] (some (.local 1)))]
  outputs := [
    { value := .call (.global "pick") [⟨.literal (.bool true), false⟩] [] [] none },
    { value := .call (.global "pick") [⟨.literal (.bool false), false⟩] [] [] none }]

/-- Without its bindings the function works out the type twice, and answers the same. -/
theorem bindings_only_share_of_picking :
    ∃ m h h' B, pickingProgram.load {} = .ok (m, h) ∧
      (pickingProgram.inlined fun _ => true).load {} = .ok (m, h') ∧
      m.outputs.map Output.cell = [⟨3⟩, ⟨5⟩] ∧
      Store.Interchanges B { heap := h } { heap := h' } ∧
      (∃ t t', ({ heap := h } : Store).Forces ⟨3⟩ (.bool true) t ∧
        ({ heap := h' } : Store).Forces ⟨3⟩ (.bool true) t') ∧
      ∃ t t', ({ heap := h } : Store).Forces ⟨5⟩ (.string "bool") t ∧
        ({ heap := h' } : Store).Forces ⟨5⟩ (.string "bool") t' := by
  have loads : ∃ m h, pickingProgram.load {} = .ok (m, h) := ⟨_, _, rfl⟩
  obtain ⟨m, h, loads⟩ := loads
  have uses : ∀ b, pickingProgram.Uses b → b = .typeOf ∨ b = .equal := by
    rintro b ⟨name, mem, free, named⟩
    have names : pickingProgram.globals = ["typeOf", "=", "pick", "pick"] := rfl
    simp only [names, List.mem_cons, List.not_mem_nil, or_false] at mem
    rcases mem with rfl | rfl | rfl | rfl
    · exact .inl (by cases named; rfl)
    · exact .inr (by cases named; rfl)
    · exact absurd free (by decide)
    · exact absurd free (by decide)
  obtain ⟨h', B, loads', outputs, _, interchanges⟩ := bindings_only_share
    (fun reads => by cases uses _ reads <;> contradiction)
    (fun rallies => by cases uses _ rallies <;> contradiction) (fun _ => true) loads
  have listed : m.outputs.map Output.cell = [⟨3⟩, ⟨5⟩] := by
    cases loads
    rfl
  have first : ∃ t, ({ heap := h } : Store).Forces ⟨3⟩ (.bool true) t := by
    cases loads
    exact ⟨_, 3, 60, rfl⟩
  have second : ∃ t, ({ heap := h } : Store).Forces ⟨5⟩ (.string "bool") t := by
    cases loads
    exact ⟨_, 3, 60, rfl⟩
  have bonded : ∀ r ∈ m.outputs.map Output.cell, B.cells r r := by
    intro r mem
    obtain ⟨o, listed, rfl⟩ := List.mem_map.1 mem
    exact outputs o listed
  obtain ⟨t, first⟩ := first
  obtain ⟨u, second⟩ := second
  have bool : ∀ C v, (Value.bool true).Kin C v → v = .bool true := by
    intro C v kin
    have values := kin.values
    cases v with
    | bool b =>
      cases values
      rfl
    | _ => cases values
  have string : ∀ C v, (Value.string "bool").Kin C v → v = .string "bool" := by
    intro C v kin
    have values := kin.values
    cases v with
    | string s =>
      cases values
      rfl
    | _ => cases values
  obtain ⟨t', first'⟩ := interchanges.forces (bonded ⟨3⟩ (by simp [listed])) first bool
  obtain ⟨u', second'⟩ := interchanges.forces (bonded ⟨5⟩ (by simp [listed])) second string
  exact ⟨m, h, h', B, loads, loads', listed, interchanges, ⟨t, t', first, first'⟩, u, u', second,
    second'⟩

end CallByNeed
