import CallByNeed.Proofs.Concatenation
import CallByNeed.Proofs.Reading.Endings

/- What a call whose function takes one argument and the rest has been given. The rest is a list that
   is there, or one that is merged with a spread list, and shows what the spread list shows. -/
namespace CallByNeed

/-- So much is known of the positional arguments. -/
def Arguments.Shows (h : Heap) (arguments : Arguments) (x : Extent Ref) : Prop :=
  match arguments.spread with
  | none => x = .ofList arguments.positionals
  | some list => ∃ y visited, h.Shows list y visited ∧
      x = (Extent.ofList arguments.positionals).append y

namespace Extent
variable {ι : Type}

theorem eq_of_ofList_within {is : List ι} {x : Extent ι} (within : (ofList is).Within x) :
    x = ofList is := by
  induction is generalizing x with
  | nil => cases within; rfl
  | cons i is ih =>
    cases within with
    | cons rest => rw [ih rest, ofList]

theorem within_of_agrees {is : List ι} {x : Extent ι} (agrees : x.Agrees (ofList is)) :
    x.Within (ofList is) := by
  rcases agrees with within | within
  · exact within
  · rw [eq_of_ofList_within within]
    exact .refl _

/-- Nothing more is to be known of a list that fails. -/
theorem eq_of_failed_within {is : List ι} {e : Fault} {x : Extent ι}
    (within : ((ofList is).append (.failed e)).Within x) : x = (ofList is).append (.failed e) := by
  induction is generalizing x with
  | nil => cases within; rfl
  | cons i is ih =>
    cases within with
    | cons rest => rw [ih rest, ofList, append]

theorem failed_ne_ofList (is js : List ι) (e : Fault) : (ofList is).append (.failed e) ≠ ofList js := by
  induction is generalizing js with
  | nil => cases js <;> nofun
  | cons i is ih =>
    cases js with
    | nil => nofun
    | cons j js =>
      simp only [ofList, append, ne_eq, cons.injEq, not_and]
      exact fun _ => ih js

theorem ofList_append (is js : List ι) : ofList (is ++ js) = (ofList is).append (ofList js) := by
  induction is with
  | nil => rfl
  | cons i is ih => simp only [List.cons_append, ofList, append, ih]

theorem through?_none (x : Extent ι) : x.through? none = x := by
  cases x <;> rfl

end Extent

section
variable {bound : Nat} {g h : Heap} {rest : Ref} {others : List Ref} {spread : Option Ref}
variable {x : Extent Ref} {visited : List Ref} {l : LazyList}

/-- A list that was made forced shows its elements. -/
theorem Heap.Whole.within (whole : g.Whole l others) (before : g.Before h)
    (list : h.Listed rest (.ok l)) (shows : h.Shows rest x visited) : x.Within (.ofList others) := by
  induction whole generalizing rest x visited with
  | nil =>
    have agrees : x.Agrees (Extent.ofList []) := shows.agrees (.nil list)
    exact Extent.within_of_agrees agrees
  | cons known _ ih =>
    cases shows with
    | unknown => exact .unknown
    | nil list' => cases list.unique list'
    | failed list' => cases list.unique list'
    | cons list' shows =>
      cases list.unique list'
      exact .cons (ih ⟨_, Heap.replies_of_forced before known nofun, rfl⟩ shows)

/-- Arguments that are there show no more than they are. -/
theorem Arguments.Shows.within {arguments : Arguments} {list : Ref} (shows : arguments.Shows h x)
    (spread : arguments.spread = some list) (listed : h.Listed list (.ok l))
    (whole : h.Whole l others) : x.Within (.ofList (arguments.positionals ++ others)) := by
  simp only [Arguments.Shows, spread] at shows
  obtain ⟨y, visited, shows, rfl⟩ := shows
  rw [Extent.ofList_append]
  exact (Extent.Within.refl _).append (whole.within h.before_refl listed shows)

/-- What the rest is made of stays as it is while nobody forces it. -/
theorem Heap.Supplied.later {g' : Heap} (supplied : g.Supplied others spread rest)
    (stays : ∀ q c, c ≠ .forcing → g.state? q = some c → g'.state? q = some c) :
    g'.Supplied others spread rest := by
  have wholly {l : LazyList} {rs : List Ref} (whole : g.Whole l rs) : g'.Whole l rs := by
    induction whole with
    | nil => exact .nil
    | cons known _ ih => exact .cons (stays _ _ nofun known) ih
  cases supplied with
  | known known whole => exact .known (stays _ _ nofun known) (wholly whole)
  | merged waits function known whole =>
    exact .merged (stays _ _ nofun waits) (stays _ _ nofun function) (stays _ _ nofun known)
      (wholly whole)

theorem Arguments.Shows.mono {arguments : Arguments} {h' : Heap} (before : h.Before h')
    (shows : arguments.Shows h x) : arguments.Shows h' x := by
  unfold Arguments.Shows at shows ⊢
  split at shows
  · exact shows
  · obtain ⟨y, visited, shows, rfl⟩ := shows
    exact ⟨y, visited, shows.mono before, rfl⟩

/-- What is seen of the rest is known of the arguments that it was made of. -/
theorem Heap.Supplied.shows (kept : g.Recounts bound h) (supplied : g.Supplied others spread rest)
    (shows : h.Shows rest x visited) : ∃ y,
      Arguments.Shows h { positionals := others, spread } y ∧ x.Within y := by
  have before := kept.origin.before
  cases supplied with
  | known known whole =>
    have listed := Heap.replies_of_forced before known nofun
    exact ⟨_, rfl, whole.within before ⟨_, listed, rfl⟩ shows⟩
  | @merged _ f first list _ waits function known whole =>
    have listed := Heap.replies_of_forced before known nofun
    have merges := kept.merges waits ⟨f, .refl, before.forced function⟩
      fun u replies => ⟨.ok _, replies.unique listed⟩
    obtain ⟨xs, each, rfl⟩ := merges.parts rfl x visited shows
    obtain _ | ⟨⟨_, first_shows⟩, _ | ⟨⟨visited', list_shows⟩, _ | _⟩⟩ := each
    refine ⟨_, ⟨_, visited', list_shows, rfl⟩, ?_⟩
    simp only [Extent.through?_none, Extent.ofList, Extent.join, Extent.append_nil]
    exact (whole.within before ⟨_, listed, rfl⟩ first_shows).append (.refl _)

end

/-! ### Runs keep account -/

section
variable {α : Type} {E : Engine} {s t : Store} {w w' : World}

/-- A runner that is run alone is the run of a crew. -/
theorem Runner.Leaves.crew {r : Runner Unit} {o : Except Fault Unit}
    (leaves : r.Leaves E s w o t w') : ∀ (f : Forcer) (x : Recorded), f.runner = r → x.store = s →
      ∃ x', Crew.Runs (Forcer.turn E) ([f], x, w) ([], x', w') ∧ x'.store = t := by
  refine Runner.Leaves.induct (motive := fun r s w => ∀ (f : Forcer) (x : Recorded), f.runner = r →
    x.store = s → ∃ x', Crew.Runs (Forcer.turn E) ([f], x, w) ([], x', w') ∧ x'.store = t)
    ?_ ?_ ?_ leaves
  · intro f x runner store
    have ends : f.turn E x = .goOn [] (f.record E x t) := by
      cases o <;> simp only [Forcer.turn, runner, store] <;> rfl
    exact ⟨_, .single (.goOn [] [] w' ends), f.store_record E x t⟩
  · intro r r₁ s s₁ w step _ ih f x runner store
    have goesOn : f.turn E x = .goOn [f.after r₁] (f.record E x s₁) := by
      simp only [Forcer.turn, runner, store, Runner.step_of_advance step]
    obtain ⟨x', runs, same⟩ := ih (f.after r₁) _ (f.runner_after r₁) (f.store_record E x s₁)
    exact ⟨x', .head (.goOn [] [] w goesOn) runs, same⟩
  · intro r s s₁ w q next step ih f x runner store
    have asks : f.turn E x = .ask q (fun a => [f.after (next a)]) (f.record E x s₁) := by
      simp only [Forcer.turn, runner, store, step]
    obtain ⟨x', runs, same⟩ := ih (f.after _) _ (f.runner_after _) (f.store_record E x s₁)
    exact ⟨x', .head (.ask [] [] w asks) runs, same⟩

/-- Whoever runs alone keeps account of all work. -/
theorem Script.Leaves.recounts {m : Script α} {o : Except Fault α} (leaves : m.Leaves E s w o t w') :
    ∃ g, s.heap.Extends g ∧ g.Recounts E.bound t.heap := by
  have ends : (m.attempt >>= fun _ => pure () : Script Unit).Leaves E s w (.ok ()) t w' :=
    (Script.leaves_attempt_iff.2 ⟨o, leaves, rfl⟩).bind Script.leaves_pure
  obtain ⟨x, runs, same⟩ := Runner.Leaves.crew ends (.start _) { store := s } rfl rfl
  obtain ⟨g, extends', kept⟩ := Forcer.recounts_of_runs E [_] s runs
  exact ⟨g, extends', same ▸ kept⟩

end

/-! ### Binding -/

section
variable {E : Engine} {s t : Store} {w w' : World} {name more : String}

theorem Signature.comes_plain (E : Engine) (s : Store) (name more : String) (first : Ref)
    (others : List Ref) (spread : Option Ref) : ∃ rest t,
    ((Signature.plain [name] (some more)).bind { positionals := first :: others, spread }).Comes E s
        (.ok [first, rest]) t ∧
      s.heap.Enlarges t.heap ∧ t.heap.Supplied others spread rest := by
  obtain ⟨rest, t, binds, larger, supplied⟩ :=
    Arguments.comes_restPositionals E s { positionals := others, spread }
  refine ⟨rest, t, ?_, larger, supplied⟩
  rw [Signature.bind_plain]
  exact binds.bind .done

/-- Where no argument is explicit, the first one is the head of the spread list. -/
theorem Signature.bind_plain_spread (name more : String) (list : Ref) :
    (Signature.plain [name] (some more)).bind { spread := some list } = (do
      match ← forceList list with
      | .nil => fail .missingPositional
      | .cons head tail =>
        (Signature.plain [name] (some more)).bind { positionals := [head], spread := some tail }) := by
  simp only [Signature.bind, Signature.plain, Binding.bindNamed, List.foldlM_cons,
    Binding.findPositional, Arguments.nextPositional, bind_assoc, Bool.false_eq_true, if_false]
  congr 1
  funext l
  cases l <;> rfl

/-- The first argument is bound, and all others are behind it; or none is there, or there is no list. -/
theorem Signature.of_leaves_plain {arguments : Arguments} (bare : arguments.keywords = [])
    (bare' : arguments.dicts = []) {o : Except Fault (List Ref)}
    (leaves : ((Signature.plain [name] (some more)).bind arguments).Leaves E s w o t w') :
    (∃ e, o = .error e) ∧ (arguments.Shows t.heap .nil ∨ ∃ e, arguments.Shows t.heap (.failed e)) ∨
    ∃ first rest others spread, o = .ok [first, rest] ∧ t.heap.Supplied others spread rest ∧
      ∀ h x, t.heap.Before h → Arguments.Shows h { positionals := others, spread } x →
        arguments.Shows h (.cons first x) := by
  obtain ⟨positionals, spread, keywords, dicts⟩ := arguments
  cases bare
  cases bare'
  cases positionals with
  | cons first others =>
    obtain ⟨rest, t', binds, -, supplied⟩ := comes_plain E s name more first others spread
    obtain ⟨rfl, rfl, rfl⟩ := binds.leaves_iff.1 leaves
    refine .inr ⟨first, rest, others, spread, rfl, supplied, fun h x _ shows => ?_⟩
    cases spread with
    | none => exact congrArg (Extent.cons first) shows
    | some list =>
      obtain ⟨y, visited, shows, rfl⟩ := shows
      exact ⟨y, visited, shows, rfl⟩
  | nil =>
    cases spread with
    | none => exact .inl ⟨⟨_, (Script.leaves_fail_iff.1 leaves).1⟩, .inl rfl⟩
    | some list =>
      rw [bind_plain_spread] at leaves
      rcases Script.leaves_bind_iff.1 leaves with ⟨l, s₁, w₁, fetches, leaves⟩ | ⟨e, faulty, rfl⟩
      · obtain ⟨-, listed⟩ := fetches.before_forceList
        cases l with
        | nil =>
          obtain ⟨rfl, rfl, -⟩ := Script.leaves_fail_iff.1 leaves
          exact .inl ⟨⟨_, rfl⟩, .inl ⟨_, _, .nil listed, rfl⟩⟩
        | cons head tail =>
          obtain ⟨rest, t', binds, larger, supplied⟩ := comes_plain E s₁ name more head [] (some tail)
          obtain ⟨rfl, rfl, rfl⟩ := binds.leaves_iff.1 leaves
          refine .inr ⟨head, rest, [], some tail, rfl, supplied, fun h x later shows => ?_⟩
          obtain ⟨y, visited, shows, rfl⟩ := shows
          exact ⟨_, _, .cons (listed.mono (larger.before.trans later)) shows, rfl⟩
      · exact .inl ⟨⟨e, rfl⟩, .inr ⟨e, _, _, .failed faulty.before_forceList.2, rfl⟩⟩

end
end CallByNeed
