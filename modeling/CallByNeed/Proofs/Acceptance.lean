import CallByNeed.Proofs.Loading.Checking

/- Loading accepts the well-formed programs and no others, and whatever it reports of another
   program is wrong with it. -/
namespace CallByNeed
namespace Program

theorem tests_load (p : Program) (heap : Heap) : Tests p.WellFormed p.Defect (p.load heap) := by
  unfold load
  have known := (handled_of_allocHandles p.names heap).namedBy
  generalize (allocHandles p.names : StateM Heap Handles).run heap = made at known
  obtain ⟨handles, allocated⟩ := made
  dsimp only at known ⊢
  refine (Tests.bind tests_checkNames fun distinct _ =>
    Tests.bind (tests_checkAliases distinct) fun _ _ =>
    Tests.bind (tests_definitions known) fun _ _ => (tests_outputs known).map _).imp ?_
  rintro ⟨distinct, acyclic, definitions, outputs⟩
  refine ⟨distinct, acyclic, ?_⟩
  intro scope whole part holds inside
  cases holds with
  | definition mem holds => exact definitions _ mem _ _ holds _ inside
  | output mem => exact outputs _ mem _ inside

/-- A program is loaded if and only if it is well formed. An error of loading reports a defect that
    the program has. -/
theorem load_accepts_wellFormed (p : Program) (heap : Heap) :
    ((∃ m h, p.load heap = .ok (m, h)) ↔ p.WellFormed) ∧
      ∀ e, p.load heap = .error e → p.Defect e := by
  have tests := tests_load p heap
  cases loaded : p.load heap with
  | ok result =>
    obtain ⟨m, h⟩ := result
    rw [loaded] at tests
    exact ⟨⟨fun _ => tests, fun _ => ⟨m, h, rfl⟩⟩, fun e failed => by cases failed⟩
  | error e =>
    rw [loaded] at tests
    refine ⟨⟨?_, fun good => absurd good (Defect.not_wellFormed tests)⟩, ?_⟩
    · rintro ⟨m, h, accepted⟩
      cases accepted
    · rintro _ ⟨⟩
      exact tests

end Program
end CallByNeed
