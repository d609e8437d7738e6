import CallByNeed.Proofs.Loading.Permuted

/- The check of aliases. Whatever the order in which it visits them, it finds a cycle exactly if there
   is one, and reports a name on it. Without a cycle every name leads to a definition that is no alias,
   in no more steps than there are aliases, and the handle of the name redirects along them. -/
namespace CallByNeed
open Relation (TransGen)

/-- As many steps as the number says lead from the first to the second. -/
inductive Route {α : Type} (step : α → α → Prop) : Nat → α → α → Prop
  | here {a : α} : Route step 0 a a
  | on {n : Nat} {a b c : α} (first : step a b) (rest : Route step n b c) : Route step (n + 1) a c

namespace Program

section
variable {p : Program} {order : List (String × String)} {name target : String} {n : Nat}

theorem nodup_keys_aliases (distinct : p.names.Nodup) :
    ((aliases p.definitions).map Prod.fst).Nodup := by
  have keys : ((aliases p.definitions).map Prod.fst).Sublist p.names := by
    unfold aliases
    dsimp only
    generalize p.definitions.map Definition.name = known
    unfold names
    induction p.definitions with
    | nil => exact .slnil
    | cons d rest ih =>
      rw [List.filterMap_cons, List.map_cons]
      split
      · exact ih.cons _
      · next pair made =>
        have key : pair.1 = d.name := by
          split at made
          · split at made
            · cases made
              rfl
            · cases made
          · cases made
        rw [List.map_cons, key]
        exact ih.cons_cons _
  exact distinct.sublist keys

/-- In whatever order its keys are visited, the table says the same. -/
theorem hops_of_perm (distinct : p.names.Nodup) (visits : order.Perm (aliases p.definitions)) :
    Hops order = p.Alias := by
  have keys := nodup_keys_aliases distinct
  have same (name target : String) :
      Hops order name target ↔ Hops (aliases p.definitions) name target := by
    constructor
    · exact fun hop => lookup_of_mem keys (visits.mem_iff.1 (mem_of_lookup hop))
    · intro hop
      refine lookup_of_mem ?_ (visits.mem_iff.2 (mem_of_lookup hop))
      exact (visits.map Prod.fst).nodup_iff.2 keys
  funext name target
  exact propext ((same name target).trans (hops_aliases_iff distinct))

/-- A walk that ends at no alias has followed that many aliases, or fewer. -/
theorem route_of_follow (stop : order.lookup (follow order n name) = none) :
    ∃ hops ≤ n, Route (Hops order) hops name (follow order n name) := by
  induction n generalizing name with
  | zero => exact ⟨0, Nat.le_refl 0, .here⟩
  | succ n ih =>
    simp only [follow] at stop ⊢
    cases found : order.lookup name with
    | none => exact ⟨0, Nat.zero_le _, .here⟩
    | some next =>
      simp only [found] at stop
      obtain ⟨hops, bound, route⟩ := ih stop
      exact ⟨hops + 1, Nat.succ_le_succ bound, .on found route⟩

theorem route_of_checkAliases (ok : checkAliases order = .ok ()) (name : String) :
    ∃ hops ≤ order.length, ∃ target, Route (Hops order) hops name target ∧
      ∀ next, ¬ Hops order target next := by
  obtain ⟨hops, bound, route⟩ := route_of_follow (stop_of_checkAliases ok name)
  refine ⟨hops, bound, _, route, fun next hop => ?_⟩
  rw [Hops, stop_of_checkAliases ok name] at hop
  cases hop

theorem defined_of_route {hops : Nat} (defined : name ∈ p.names)
    (route : Route p.Alias hops name target) : target ∈ p.names := by
  induction route with
  | here => exact defined
  | on first _ ih => exact ih first.2

end

/-! ### The handles of names -/

section
variable {p : Program} {m : Module} {h : Heap} {name target : String}

theorem redirects_of_alias (loads : p.load {} = .ok (m, h)) (hop : p.Alias name target) {r : Ref}
    (found : m.definitions.lookup name = some r) :
    ∃ t, m.definitions.lookup target = some t ∧ h.Redirects r t := by
  classical
  obtain ⟨_, _, cells, _, _, _, steps, rfl⟩ := loads_of_load loads
  have handle : m.definitions.lookup name = some _ := steps.lookup hop.1
  rw [handle] at found
  cases found
  obtain ⟨_, _, u, _, _, ok, built, redirect, _⟩ := steps.standsFor hop.1
  obtain ⟨d, mem, rfl⟩ := List.mem_map.1 hop.2
  obtain ⟨t, named⟩ : ∃ t, m.definitions.lookup d.name = some t := ⟨_, steps.lookup mem⟩
  simp only [Definition.resolve, Node.resolve, named] at ok
  cases ok
  cases built
  exact ⟨_, named, redirect⟩

theorem redirects_of_route (loads : p.load {} = .ok (m, h)) {hops : Nat}
    (route : Route p.Alias hops name target) {r : Ref}
    (found : m.definitions.lookup name = some r) :
    ∃ t, m.definitions.lookup target = some t ∧ Route h.Redirects hops r t := by
  induction route generalizing r with
  | here => exact ⟨r, found, .here⟩
  | on hop _ ih =>
    obtain ⟨s, found', redirect⟩ := redirects_of_alias loads hop found
    obtain ⟨t, named, route⟩ := ih found'
    exact ⟨t, named, .on redirect route⟩

theorem handle_of_load (loads : p.load {} = .ok (m, h)) (defined : name ∈ p.names) :
    ∃ r, m.definitions.lookup name = some r := by
  classical
  obtain ⟨_, _, _, _, _, _, steps, _⟩ := loads_of_load loads
  obtain ⟨d, mem, rfl⟩ := List.mem_map.1 defined
  exact ⟨_, steps.lookup mem⟩

/-- What is no alias has a cell of its own, which redirects nowhere. -/
theorem firm_of_not_alias (loads : p.load {} = .ok (m, h)) (defined : name ∈ p.names)
    (last : ∀ next, ¬ p.Alias name next) {r : Ref} (found : m.definitions.lookup name = some r) :
    ∃ t, h.Redirects r t ∧ ∀ u, ¬ h.Redirects t u := by
  classical
  have loaded : Loaded .loaded m h := loaded_of_load not_false (fun _ _ => .inl trivial) loads
  obtain ⟨meanings, _, cells, h₀, h₁, h₂, steps, rfl⟩ := loads_of_load loads
  obtain ⟨d, mem, rfl⟩ := List.mem_map.1 defined
  have named := steps.lookup mem
  rw [named] at found
  cases found
  have self : Bond.all.Joins m.definitions m.definitions := Bond.Ties.joins fun _ _ => trivial
  obtain ⟨t, _, _, pair, _⟩ := (steps.blocks self fun _ => steps.meaning).each d mem
  refine ⟨t, (steps.filled_handle mem pair).1, fun u further => ?_⟩
  have run : (meanings.mapM build : StateM Heap (List Ref)).run h₀ = (cells, h₁) := by
    have built := builds_mapM builds_build meanings h₀
    rw [steps.built] at built
    exact (Option.some.inj built).symm
  obtain ⟨_, _, apart⟩ :=
    built_of_meanings not_false steps.handled (allows_loaded _ _) steps.resolved run
  have filled := mem_zip_join steps.nodup (steps.handle.2 d mem).1 pair
  have zipped : (⟨blockStart (fun _ => 1) p.definitions d⟩, t) ∈
      (m.definitions.map Prod.snd).zip cells := by
    rw [List.zip_map_left]
    exact List.mem_map.2 ⟨_, filled, rfl⟩
  obtain ⟨name, target, mine, theirs, hop⟩ :=
    alias_of_cell steps.handled steps.distinct steps.resolved apart zipped (loaded.handles _ _ further)
  have same := List.inj_on_of_nodup_map steps.handled.nodup mine (mem_of_lookup named) rfl
  cases same
  exact last target ((hops_aliases_iff steps.distinct).1 hop)

end

/-- For every list of definitions with different names and every order in which the table of their
    aliases is visited: the check fails if and only if aliases lead from some name back to it, and
    reports such a name. If it passes, aliases lead from every name to a definition that is no alias,
    in no more steps than there are aliases; in a heap that the program is loaded to, as many
    redirects lead from the handle of the one to the handle of the other, and one more to a cell
    that redirects no further. -/
theorem checkAliases_finds_cycles {p : Program} (distinct : p.names.Nodup)
    {order : List (String × String)} (visits : order.Perm (aliases p.definitions)) :
    ((∃ name, checkAliases order = .error (.circularDefinition name)) ↔
      ∃ name, TransGen p.Alias name name) ∧
    (∀ e, checkAliases order = .error e →
      ∃ name, e = .circularDefinition name ∧ TransGen p.Alias name name) ∧
    (checkAliases order = .ok () → ∀ name ∈ p.names, ∃ hops ≤ order.length, ∃ target ∈ p.names,
      Route p.Alias hops name target ∧ (∀ next, ¬ p.Alias target next) ∧
      ∀ m h, p.load {} = .ok (m, h) → ∃ r t last, m.definitions.lookup name = some r ∧
        m.definitions.lookup target = some t ∧ Route h.Redirects hops r t ∧
        h.Redirects t last ∧ ∀ q, ¬ h.Redirects last q) := by
  have same := hops_of_perm distinct visits
  have cycle {e : LoadError} (failed : checkAliases order = .error e) :
      ∃ name, e = .circularDefinition name ∧ TransGen p.Alias name name := by
    rw [← same]
    exact cycle_of_checkAliases failed
  refine ⟨⟨?_, ?_⟩, fun e => cycle, ?_⟩
  · rintro ⟨name, failed⟩
    obtain ⟨name, _, round⟩ := cycle failed
    exact ⟨name, round⟩
  · rintro ⟨name, round⟩
    cases checked : checkAliases order with
    | error e =>
      obtain ⟨name, rfl, _⟩ := cycle checked
      exact ⟨name, rfl⟩
    | ok _ =>
      rw [← same] at round
      exact absurd round (acyclic_of_checkAliases checked name)
  · intro ok name defined
    obtain ⟨hops, bound, target, route, last⟩ := route_of_checkAliases ok name
    rw [same] at route last
    refine ⟨hops, bound, target, defined_of_route defined route, route, last, fun m h loads => ?_⟩
    obtain ⟨r, found⟩ := handle_of_load loads defined
    obtain ⟨t, named, redirects⟩ := redirects_of_route loads route found
    obtain ⟨u, redirect, firm⟩ :=
      firm_of_not_alias loads (defined_of_route defined route) last named
    exact ⟨r, t, u, found, named, redirects, redirect, firm⟩

/-- As many aliases as there can be before the definition they lead to; and a path into a cycle. -/
def chainProgram (last : Node) : Program where
  definitions := [
    .variable "a" (.global "b"),
    .variable "b" (.global "c"),
    .variable "c" last]

/-- Visited from its end, the chain passes; when it leads back into itself, a name on the cycle is
    reported, whichever alias is first. -/
theorem checkAliases_finds_cycles_of_chain :
    (∃ hops ≤ 2, ∃ target, Route (chainProgram (.literal (.bool true))).Alias hops "a" target ∧
      ∀ next, ¬ (chainProgram (.literal (.bool true))).Alias target next) ∧
    (∃ name, TransGen (chainProgram (.global "b")).Alias name name) ∧
    checkAliases [("c", "b"), ("a", "b"), ("b", "c")] = .error (.circularDefinition "b") := by
  have fromEnd : [("b", "c"), ("a", "b")].Perm
      (aliases (chainProgram (.literal (.bool true))).definitions) := by decide
  have around : [("c", "b"), ("a", "b"), ("b", "c")].Perm
      (aliases (chainProgram (.global "b")).definitions) := by decide
  have chain := checkAliases_finds_cycles (p := chainProgram (.literal (.bool true))) (by decide)
    fromEnd
  have loop := checkAliases_finds_cycles (p := chainProgram (.global "b")) (by decide) around
  have passes : checkAliases [("b", "c"), ("a", "b")] = .ok () := by decide
  have fails : checkAliases [("c", "b"), ("a", "b"), ("b", "c")] =
      .error (.circularDefinition "b") := by decide
  obtain ⟨hops, bound, target, _, route, last, _⟩ := chain.2.2 passes "a" (by decide)
  exact ⟨⟨hops, bound, target, route, last⟩, loop.1.1 ⟨_, fails⟩, fails⟩

end Program
end CallByNeed
