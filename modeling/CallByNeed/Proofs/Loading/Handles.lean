import CallByNeed.Program.Load
import CallByNeed.Proofs.Heap.Moves
import Mathlib.Data.Finset.Card
import Mathlib.Data.List.Nodup
import Mathlib.Order.Nat

/- The handles of a program: made vacant, one for each definition, and filled last. The check of
   aliases gives every name a finite number of aliases to follow: their table is a graph with at most
   one way out of each name, and whoever is still at an alias after as many steps as there are
   aliases has been somewhere twice, and goes round for good. -/
namespace CallByNeed

theorem mem_of_lookup {β : Type} {name : String} {b : β} {l : List (String × β)}
    (found : l.lookup name = some b) : (name, b) ∈ l := by
  obtain ⟨before, after, rfl, _⟩ := List.lookup_eq_some_iff.1 found
  simp

namespace Program

theorem nodup_of_checkNames {before names : List String} (ok : checkNames before names = .ok ()) :
    names.Nodup ∧ ∀ name ∈ names, name ∉ before := by
  induction names generalizing before with
  | nil => exact ⟨.nil, by simp⟩
  | cons name rest ih =>
    simp only [checkNames] at ok
    split at ok
    · cases ok
    · next new =>
      obtain ⟨nodup, apart⟩ := ih ok
      have unseen : name ∉ before := by simpa using new
      refine ⟨List.nodup_cons.2 ⟨fun again => apart name again (List.mem_cons_self ..), nodup⟩, ?_⟩
      intro other mem
      rcases List.mem_cons.1 mem with rfl | later
      · exact unseen
      · exact fun earlier => apart other later (List.mem_cons_of_mem _ earlier)

/-- Some number of steps leads from the name to one that is no alias. -/
def Ends (aliases : List (String × String)) (name : String) : Prop :=
  ∃ steps, aliases.lookup (follow aliases steps name) = none

/-- Whoever has come to a name that is no alias stays there. -/
theorem follow_of_none {aliases : List (String × String)} {name : String}
    (stop : aliases.lookup name = none) (n : Nat) : follow aliases n name = name := by
  cases n with
  | zero => rfl
  | succ n => simp only [follow, stop]

/-- If the check passes, as many steps as there are aliases lead out of them. -/
theorem stop_of_checkAliases {aliases : List (String × String)}
    (ok : checkAliases aliases = .ok ()) (name : String) :
    aliases.lookup (follow aliases aliases.length name) = none := by
  cases found : aliases.lookup name with
  | none => rw [follow_of_none found, found]
  | some target =>
    unfold checkAliases at ok
    dsimp only at ok
    split at ok
    · cases ok
    · next none_left =>
      have out := List.find?_eq_none.1 none_left _
        (List.mem_map_of_mem (mem_of_lookup found))
      exact Option.not_isSome_iff_eq_none.1 out

theorem ends_of_checkAliases {aliases : List (String × String)}
    (ok : checkAliases aliases = .ok ()) (name : String) : Ends aliases name :=
  ⟨aliases.length, stop_of_checkAliases ok name⟩

open Classical in
/-- How many aliases lead away from a name. -/
noncomputable def aliasRank (aliases : List (String × String)) (name : String) : Nat :=
  if ends : Ends aliases name then Nat.find ends else 0

theorem aliasRank_lt {aliases : List (String × String)} {name target : String}
    (found : aliases.lookup name = some target) (ends : Ends aliases name) :
    aliasRank aliases target < aliasRank aliases name := by
  classical
  have spec := Nat.find_spec ends
  have rank : aliasRank aliases name = Nat.find ends := by simp [aliasRank, ends]
  cases steps : Nat.find ends with
  | zero =>
    rw [steps] at spec
    simp [follow, found] at spec
  | succ fewer =>
    rw [steps] at spec
    simp only [follow, found] at spec
    have ends' : Ends aliases target := ⟨fewer, spec⟩
    have least : aliasRank aliases target ≤ fewer := by
      simp only [aliasRank, ends', ↓reduceDIte]
      exact Nat.find_min' ends' spec
    rw [rank, steps]
    omega

theorem lookup_filterMap {names : List String} {definitions : List Definition}
    {name target : String} (nodup : (definitions.map Definition.name).Nodup)
    (defined : Definition.variable name (.global target) ∈ definitions)
    (known : target ∈ names) :
    (definitions.filterMap fun d =>
      match d with
      | .variable name (.global target) => if names.contains target then some (name, target) else none
      | _ => none).lookup name = some target := by
  induction definitions with
  | nil => cases defined
  | cons d definitions ih =>
    rw [List.map_cons, List.nodup_cons] at nodup
    rcases List.mem_cons.1 defined with rfl | later
    · have taken : names.contains target = true := by simpa using known
      rw [List.filterMap_cons]
      simp only [taken, ↓reduceIte, List.lookup_cons, BEq.rfl]
    · have other : d.name ≠ name := by
        intro same
        exact nodup.1 (same ▸ List.mem_map.2 ⟨_, later, rfl⟩)
      rw [List.filterMap_cons]
      split
      · exact ih nodup.2 later
      · next pair made =>
        have key : pair.1 = d.name := by
          split at made
          · split at made
            · cases made
              rfl
            · cases made
          · cases made
        obtain ⟨key', value⟩ := pair
        rw [List.lookup_cons, ih nodup.2 later]
        have apart : (name == key') = false := by
          simp only at key
          simpa [key] using Ne.symm other
        rw [apart]

/-- An alias is found under its name. -/
theorem lookup_aliases {definitions : List Definition} {name target : String}
    (nodup : (definitions.map Definition.name).Nodup)
    (defined : Definition.variable name (.global target) ∈ definitions)
    (known : target ∈ definitions.map Definition.name) :
    (aliases definitions).lookup name = some target :=
  lookup_filterMap nodup defined known

/-- What making the handles does. -/
structure Handled (names : List String) (h : Heap) (handles : Handles) (h' : Heap) : Prop where
  names : handles.map Prod.fst = names
  nodup : (handles.map Prod.snd).Nodup
  fresh : ∀ r ∈ handles.map Prod.snd, h.state? r = none
  vacant : ∀ r ∈ handles.map Prod.snd, h'.state? r = some .vacant
  others : ∀ r, r ∉ handles.map Prod.snd → h'.state? r = h.state? r

theorem handled_of_allocHandles (names : List String) (h : Heap) :
    Handled names h ((allocHandles names : StateM Heap Handles).run h).1
      ((allocHandles names : StateM Heap Handles).run h).2 := by
  induction names generalizing h with
  | nil =>
    have run : (allocHandles [] : StateM Heap Handles).run h = ([], h) := rfl
    rw [run]
    exact ⟨rfl, .nil, by simp, by simp, fun _ _ => rfl⟩
  | cons name names ih =>
    let r := (h.alloc .vacant).1
    obtain ⟨names_eq, nodup, fresh, vacant, others⟩ := ih (h.alloc .vacant).2
    have run : (allocHandles (name :: names) : StateM Heap Handles).run h =
        ((name, r) :: ((allocHandles names : StateM Heap Handles).run (h.alloc .vacant).2).1,
          ((allocHandles names : StateM Heap Handles).run (h.alloc .vacant).2).2) := by
      unfold allocHandles
      rw [List.mapM_cons]
      rfl
    have new : (h.alloc .vacant).2.state? r = some .vacant := by
      rw [Heap.state?_alloc, if_pos rfl]
      rfl
    rw [run]
    have apart : r ∉ ((allocHandles names : StateM Heap Handles).run
        (h.alloc .vacant).2).1.map Prod.snd := by
      intro again
      have unknown := fresh r again
      rw [new] at unknown
      cases unknown
    constructor
    case names => simp [names_eq]
    case nodup => exact List.nodup_cons.2 ⟨apart, nodup⟩
    case fresh =>
      intro q mem
      rcases List.mem_cons.1 mem with rfl | later
      · exact h.state?_size
      · have unknown := fresh q later
        rw [Heap.state?_alloc] at unknown
        split at unknown
        · cases unknown
        · exact unknown
    case vacant =>
      intro q mem
      rcases List.mem_cons.1 mem with rfl | later
      · exact (others r apart).trans new
      · exact vacant q later
    case others =>
      intro q outside
      simp only [List.map_cons, List.mem_cons, not_or] at outside
      rw [others q outside.2, Heap.state?_alloc, if_neg outside.1]

/-- Filling distinct vacant handles. -/
theorem state?_fillAll {handles targets : List Ref} {h : Heap} (nodup : handles.Nodup)
    (count : handles.length = targets.length) (vacant : ∀ r ∈ handles, h.state? r = some .vacant) :
    (∀ p ∈ handles.zip targets, (fillAll handles targets h).state? p.1 = some (.redirect p.2)) ∧
      ∀ r ∉ handles, (fillAll handles targets h).state? r = h.state? r := by
  induction handles generalizing targets h with
  | nil => exact ⟨by simp, fun r _ => by simp [fillAll]⟩
  | cons handle handles ih =>
    cases targets with
    | nil => simp at count
    | cons target targets =>
      have first : h.state? handle = some .vacant := vacant handle (List.mem_cons_self ..)
      have filled : (h.fill handle target).2 = h.setState handle (.redirect target) := by
        simp [Heap.fill, first]
      obtain ⟨apart, nodup⟩ := List.nodup_cons.1 nodup
      have still : ∀ r ∈ handles, (h.setState handle (.redirect target)).state? r = some .vacant := by
        intro r mem
        have other : r ≠ handle := by
          rintro rfl
          exact apart mem
        rw [Heap.state?_setState_ne other]
        exact vacant r (List.mem_cons_of_mem _ mem)
      obtain ⟨redirects, others⟩ := ih nodup (by simpa using count) still
      simp only [fillAll, filled]
      constructor
      · intro p mem
        rcases List.mem_cons.1 mem with rfl | later
        · rw [others handle apart]
          exact Heap.state?_setState_self first _
        · exact redirects p later
      · intro r outside
        simp only [List.mem_cons, not_or] at outside
        obtain ⟨other, outside⟩ := outside
        rw [others r outside, Heap.state?_setState_ne other]

/-! ### Cycles of aliases -/

open Relation (ReflTransGen TransGen)

/-- One alias leads from the first name to the second. -/
def Hops (aliases : List (String × String)) (name target : String) : Prop :=
  aliases.lookup name = some target

section
variable {aliases : List (String × String)} {name target : String} {m n : Nat}

theorem follow_add (m n : Nat) (name : String) :
    follow aliases (m + n) name = follow aliases n (follow aliases m name) := by
  induction m generalizing name with
  | zero => rw [Nat.zero_add, follow]
  | succ m ih =>
    rw [Nat.add_right_comm]
    simp only [follow]
    cases found : aliases.lookup name with
    | some target => exact ih target
    | none =>
      cases n with
      | zero => rfl
      | succ n => simp only [follow, found]

theorem hops_follow (found : (aliases.lookup (follow aliases n name)).isSome) :
    Hops aliases (follow aliases n name) (follow aliases (n + 1) name) := by
  obtain ⟨target, hop⟩ := Option.isSome_iff_exists.1 found
  rw [Hops, follow_add n 1 name]
  simp only [follow, hop]

/-- Whoever is at an alias has passed aliases only. -/
theorem isSome_of_follow (found : (aliases.lookup (follow aliases n name)).isSome) (before : m ≤ n) :
    (aliases.lookup (follow aliases m name)).isSome := by
  cases stop : aliases.lookup (follow aliases m name) with
  | some target => rfl
  | none =>
    obtain ⟨more, rfl⟩ := Nat.exists_eq_add_of_le before
    rw [follow_add, follow_of_none stop, stop] at found
    cases found

/-- Some name comes twice among those that as many steps as there are aliases pass. -/
theorem exists_follow_eq (found : (aliases.lookup (follow aliases aliases.length name)).isSome) :
    ∃ i j, i < j ∧ j ≤ aliases.length ∧ follow aliases i name = follow aliases j name := by
  have keys : ∀ i ∈ Finset.range (aliases.length + 1),
      follow aliases i name ∈ (aliases.map Prod.fst).toFinset := by
    intro i member
    have bound := Nat.le_of_lt_succ (Finset.mem_range.1 member)
    obtain ⟨target, hop⟩ := Option.isSome_iff_exists.1 (isSome_of_follow found bound)
    exact List.mem_toFinset.2 (List.mem_map.2 ⟨_, mem_of_lookup hop, rfl⟩)
  have fewer : (aliases.map Prod.fst).toFinset.card < (Finset.range (aliases.length + 1)).card := by
    have most := List.toFinset_card_le (aliases.map Prod.fst)
    rw [List.length_map] at most
    rw [Finset.card_range]
    omega
  obtain ⟨i, i_member, j, j_member, apart, same⟩ :=
    Finset.exists_ne_map_eq_of_card_lt_of_maps_to fewer keys
  have i_bound := Nat.le_of_lt_succ (Finset.mem_range.1 i_member)
  have j_bound := Nat.le_of_lt_succ (Finset.mem_range.1 j_member)
  rcases Nat.lt_or_gt_of_ne apart with less | more
  · exact ⟨i, j, less, j_bound, same⟩
  · exact ⟨j, i, more, i_bound, same.symm⟩

/-- Once round, the walk goes on in the same way. -/
theorem follow_period {i j : Nat} (order : i < j) (same : follow aliases i name = follow aliases j name)
    (after : i ≤ n) : follow aliases (n + (j - i)) name = follow aliases n name := by
  obtain ⟨k, rfl⟩ := Nat.exists_eq_add_of_le after
  have parts : i + k + (j - i) = j + k := by omega
  rw [parts, follow_add j, ← same, ← follow_add]

theorem hops_of_follow (always : ∀ m, (aliases.lookup (follow aliases m name)).isSome) (more : 0 < n) :
    TransGen (Hops aliases) (follow aliases m name) (follow aliases (m + n) name) := by
  obtain ⟨n, rfl⟩ := Nat.exists_eq_succ_of_ne_zero (Nat.pos_iff_ne_zero.1 more)
  induction n with
  | zero => exact .single (hops_follow (always m))
  | succ n ih => exact .tail (ih n.succ_pos) (hops_follow (always (m + (n + 1))))

/-- A walk that does not leave the aliases in time has ended on a cycle. -/
theorem cycle_of_follow (found : (aliases.lookup (follow aliases aliases.length name)).isSome) :
    TransGen (Hops aliases) (follow aliases aliases.length name)
      (follow aliases aliases.length name) := by
  obtain ⟨i, j, order, bound, same⟩ := exists_follow_eq found
  have round (k : Nat) :
      follow aliases (aliases.length + k * (j - i)) name = follow aliases aliases.length name := by
    induction k with
    | zero => rw [Nat.zero_mul, Nat.add_zero]
    | succ k ih =>
      rw [Nat.succ_mul, ← Nat.add_assoc, follow_period order same (by omega), ih]
  have always (m : Nat) : (aliases.lookup (follow aliases m name)).isSome := by
    refine isSome_of_follow (n := aliases.length + m * (j - i)) (by rw [round]; exact found) ?_
    have period : 1 ≤ j - i := by omega
    have enough := Nat.le_mul_of_pos_right m period
    omega
  have way := hops_of_follow (m := aliases.length) always (Nat.sub_pos_of_lt order)
  rwa [follow_period order same (by omega)] at way

/-- A table that is rejected has a cycle through the name that is reported. -/
theorem cycle_of_checkAliases {e : LoadError} (failed : checkAliases aliases = .error e) :
    ∃ name, e = .circularDefinition name ∧ TransGen (Hops aliases) name name := by
  unfold checkAliases at failed
  dsimp only at failed
  split at failed
  · next name reported =>
    cases failed
    obtain ⟨start, _, rfl⟩ := List.mem_map.1 (List.mem_of_find?_eq_some reported)
    exact ⟨_, rfl, cycle_of_follow (by simpa using List.find?_some reported)⟩
  · cases failed

theorem aliasRank_lt_of_hops (ok : checkAliases aliases = .ok ())
    (path : TransGen (Hops aliases) name target) :
    aliasRank aliases target < aliasRank aliases name := by
  induction path with
  | single hop => exact aliasRank_lt hop (ends_of_checkAliases ok _)
  | tail _ hop ih => exact Nat.lt_trans (aliasRank_lt hop (ends_of_checkAliases ok _)) ih

/-- A table that passes has no cycle. -/
theorem acyclic_of_checkAliases (ok : checkAliases aliases = .ok ()) (name : String) :
    ¬ TransGen (Hops aliases) name name :=
  fun cycle => Nat.lt_irrefl _ (aliasRank_lt_of_hops ok cycle)

end
end Program
end CallByNeed
