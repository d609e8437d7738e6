import CallByNeed.Json.Shape
import Mathlib.Data.List.Perm.Basic
import Mathlib.Data.List.Forall2

/- How a structure is rendered, whatever its fields are: as an object with its fields in any order,
   among others, or as an array of its fields in their order. Fields may be left out if they have
   their defaults, in an array only those at its end. However it is rendered, its fields are read as
   they are. -/
namespace CallByNeed
namespace Json

/-- A field of a structure, and what its values are. -/
structure Field where
  name : String
  shows : Json → Prop
  /-- Whether it may be left out. -/
  optional : Prop

/-- The fields of an object that are known, in their order. -/
inductive Given : List Field → List (Option String × Json) → Prop
  | nil : Given [] []
  | write {f : Field} {fs : List Field} {x : Json} {gs : List (Option String × Json)}
      (shows : f.shows x) (rest : Given fs gs) : Given (f :: fs) ((some f.name, x) :: gs)
  | leave {f : Field} {fs : List Field} {gs : List (Option String × Json)} (may : f.optional)
      (rest : Given fs gs) : Given (f :: fs) gs

/-- The elements of an array. -/
inductive Listed : List Field → List Json → Prop
  | ended {fs : List Field} (may : ∀ f ∈ fs, f.optional) : Listed fs []
  | write {f : Field} {fs : List Field} {x : Json} {xs : List Json} (shows : f.shows x)
      (rest : Listed fs xs) : Listed (f :: fs) (x :: xs)

inductive IsStructure (fields : List Field) : Json → Prop
  | object {given : List (Option String × Json)} {others : List (String × Json)}
      {all : List (Option String × Json)} (known : Given fields given)
      (unknown : ∀ other ∈ others, ∀ f ∈ fields, other.1 ≠ f.name)
      (any_order : all.Perm (given ++ others.map fun other => (some other.1, other.2))) :
      IsStructure fields (.object all)
  | array {xs : List Json} (listed : Listed fields xs) : IsStructure fields (.array xs)

/-- The tag is a field like any other, and the first one. -/
def IsTagged (tag kind : String) (fields : List Field) : Json → Prop :=
  IsStructure ({ name := tag, shows x := x = .string (some kind), optional := False } :: fields)

/-- What is found of a field in a structure. -/
inductive Field.Found (depth : Nat) (f : Field) : Option Json → Prop
  | written {x : Json} (shows : f.shows x) (usable : x.isUsable depth = true) :
      Found depth f (some x)
  | omitted (may : f.optional) : Found depth f none

section
variable {fields : List Field} {depth : Nat} {x : Json}

/-! ### What is usable -/

theorem areUsable_iff {xs : List Json} :
    areUsable depth xs = true ↔ ∀ x ∈ xs, x.isUsable depth = true := by
  induction xs with
  | nil => simp [areUsable]
  | cons x xs ih => simp [areUsable, ih]

theorem fieldsAreUsable_iff {fs : List (Option String × Json)} :
    fieldsAreUsable depth fs = true ↔ ∀ f ∈ fs, f.1.isSome = true ∧ f.2.isUsable depth = true := by
  induction fs with
  | nil => simp [fieldsAreUsable]
  | cons f fs ih => simp [fieldsAreUsable, ih]

theorem isUsable_array {xs : List Json} (usable : (Json.array xs).isUsable depth = true) :
    ∃ n, depth = n + 1 ∧ ∀ x ∈ xs, x.isUsable n = true := by
  cases depth with
  | zero => simp [isUsable] at usable
  | succ n => exact ⟨n, rfl, areUsable_iff.1 (by simpa only [isUsable] using usable)⟩

theorem isUsable_object {fs : List (Option String × Json)}
    (usable : (Json.object fs).isUsable depth = true) :
    ∃ n, depth = n + 1 ∧ ∀ f ∈ fs, f.1.isSome = true ∧ f.2.isUsable n = true := by
  cases depth with
  | zero => simp [isUsable] at usable
  | succ n => exact ⟨n, rfl, fieldsAreUsable_iff.1 (by simpa only [isUsable] using usable)⟩

/-! ### Fields of objects -/

theorem Given.mem_names {given : List (Option String × Json)} (known : Given fields given)
    {g : Option String × Json} (mem : g ∈ given) : ∃ f ∈ fields, g.1 = some f.name := by
  induction known with
  | nil => cases mem
  | write shows _ ih =>
    rcases List.mem_cons.1 mem with rfl | mem
    · exact ⟨_, List.mem_cons_self, rfl⟩
    · obtain ⟨f, among, same⟩ := ih mem
      exact ⟨f, List.mem_cons_of_mem _ among, same⟩
  | leave _ _ ih =>
    obtain ⟨f, among, same⟩ := ih mem
    exact ⟨f, List.mem_cons_of_mem _ among, same⟩

theorem filter_name_eq_nil {name : String} {fs : List (Option String × Json)}
    (none_such : ∀ f ∈ fs, f.1 ≠ some name) : (fs.filter fun f => f.1 == some name) = [] :=
  List.filter_eq_nil_iff.2 fun f mem => by simpa using none_such f mem

/-- A field is written once, or it may be left out. -/
theorem Given.once {given : List (Option String × Json)} (known : Given fields given)
    (distinct : (fields.map Field.name).Nodup) {f : Field} (mem : f ∈ fields) :
    (∃ x, (given.filter fun g => g.1 == some f.name) = [(some f.name, x)] ∧ f.shows x) ∨
      (given.filter fun g => g.1 == some f.name) = [] ∧ f.optional := by
  have none_of {fs : List Field} {gs : List (Option String × Json)} {f : Field}
      (rest : Given fs gs) (fresh : f.name ∉ fs.map Field.name) :
      (gs.filter fun g => g.1 == some f.name) = [] := by
    refine filter_name_eq_nil fun g among same => ?_
    obtain ⟨f', mem', name⟩ := rest.mem_names among
    have same : f.name = f'.name := Option.some.inj (same.symm.trans name)
    exact fresh (same ▸ List.mem_map_of_mem mem')
  induction known with
  | nil => cases mem
  | @write f' fs x gs shows rest ih =>
    obtain ⟨fresh, distinct⟩ := List.nodup_cons.1 distinct
    rcases List.mem_cons.1 mem with rfl | mem
    · refine .inl ⟨x, ?_, shows⟩
      rw [List.filter_cons_of_pos (by simp), none_of rest fresh]
    · have other : f'.name ≠ f.name := fun same => fresh (same ▸ List.mem_map_of_mem mem)
      rw [List.filter_cons_of_neg (by simpa using other)]
      exact ih distinct mem
  | leave may rest ih =>
    obtain ⟨fresh, distinct⟩ := List.nodup_cons.1 distinct
    rcases List.mem_cons.1 mem with rfl | mem
    · exact .inr ⟨none_of rest fresh, may⟩
    · exact ih distinct mem

/-- Each known field is found, wherever it stands. -/
theorem Given.found {given : List (Option String × Json)} {others : List (String × Json)}
    {all : List (Option String × Json)} (known : Given fields given)
    (distinct : (fields.map Field.name).Nodup)
    (unknown : ∀ other ∈ others, ∀ f ∈ fields, other.1 ≠ f.name)
    (any_order : all.Perm (given ++ others.map fun other => (some other.1, other.2)))
    (usable : ∀ g ∈ all, g.2.isUsable depth = true) {f : Field} (mem : f ∈ fields) :
    ∃ o, field? f.name all = .ok o ∧ f.Found depth o := by
  have perm := any_order.filter fun g => g.1 == some f.name
  have no_other : ((others.map fun other => (some other.1, other.2)).filter
      fun g : Option String × Json => g.1 == some f.name) = [] := by
    refine filter_name_eq_nil fun g among same => ?_
    obtain ⟨other, mem', rfl⟩ := List.mem_map.1 among
    exact unknown other mem' f mem (Option.some.inj same)
  rw [List.filter_append, no_other, List.append_nil] at perm
  unfold field?
  rcases known.once distinct mem with ⟨x, once, shows⟩ | ⟨none_such, may⟩
  · rw [once] at perm
    have found := List.perm_singleton.1 perm
    have mem' : (some f.name, x) ∈ all := List.mem_of_mem_filter (found ▸ List.mem_singleton_self _)
    rw [found]
    exact ⟨_, rfl, .written shows (usable _ mem')⟩
  · rw [none_such] at perm
    rw [List.perm_nil.1 perm]
    exact ⟨_, rfl, .omitted may⟩

/-- The elements of an array are fields, and those that are missing may be. -/
theorem Listed.found {xs : List Json} (listed : Listed fields xs)
    (usable : ∀ x ∈ xs, x.isUsable depth = true) :
    xs.length ≤ fields.length ∧ List.Forall₂ (Field.Found depth) fields
      (xs.map some ++ List.replicate (fields.length - xs.length) none) := by
  induction listed with
  | @ended fs may =>
    refine ⟨Nat.zero_le _, ?_⟩
    simp only [List.map_nil, List.nil_append, List.length_nil, Nat.sub_zero]
    induction fs with
    | nil => exact .nil
    | cons f fs ih =>
      have others := ih fun g mem => may g (List.mem_cons_of_mem _ mem)
      exact .cons (.omitted (may f List.mem_cons_self)) others
  | write shows _ ih =>
    obtain ⟨fits, found⟩ := ih fun y mem => usable y (List.mem_cons_of_mem _ mem)
    simp only [List.length_cons, List.map_cons, List.cons_append, Nat.add_sub_add_right]
    exact ⟨Nat.succ_le_succ fits, .cons (.written shows (usable _ List.mem_cons_self)) found⟩

/-- The fields of a structure are found by their names. -/
theorem IsStructure.found (is : IsStructure fields x) (distinct : (fields.map Field.name).Nodup)
    (usable : x.isUsable depth = true) (surplus : Flaw) :
    ∃ n os, depth = n + 1 ∧ fieldsOf (fields.map Field.name) surplus x = .ok os ∧
      List.Forall₂ (Field.Found n) fields os := by
  cases is with
  | @object given others all known unknown any_order =>
    obtain ⟨n, rfl, each⟩ := isUsable_object usable
    have named : (all.any fun f => f.1.isNone) = false := by
      simp only [List.any_eq_false, Bool.not_eq_true, Option.isNone_eq_false_iff]
      exact fun f mem => (each f mem).1
    have finds {f : Field} (mem : f ∈ fields) :=
      known.found distinct unknown any_order (fun g mem => (each g mem).2) mem
    obtain ⟨os, read, found⟩ : ∃ os,
        (fields.map Field.name).mapM (fun name => field? name all) = .ok os ∧
          List.Forall₂ (Field.Found n) fields os := by
      clear known distinct unknown
      induction fields with
      | nil => exact ⟨[], rfl, .nil⟩
      | cons f fs ih =>
        obtain ⟨o, first, found⟩ := finds List.mem_cons_self
        obtain ⟨os, rest, others⟩ := ih fun mem => finds (List.mem_cons_of_mem _ mem)
        refine ⟨o :: os, ?_, .cons found others⟩
        rw [List.map_cons, List.mapM_cons, first, rest]
        rfl
    refine ⟨n, os, rfl, ?_, found⟩
    rw [fieldsOf, named]
    exact read
  | @array xs listed =>
    obtain ⟨n, rfl, each⟩ := isUsable_array usable
    obtain ⟨fits, found⟩ := listed.found each
    refine ⟨n, _, rfl, ?_, found⟩
    rw [fieldsOf, List.length_map, if_neg (Nat.not_lt.2 fits)]
    rfl

/-- The tag is found, and the other fields are left. -/
theorem IsTagged.untag {tag kind : String} (is : IsTagged tag kind fields x)
    (distinct : (tag :: fields.map Field.name).Nodup) (usable : x.isUsable depth = true) :
    ∃ y, Json.untag tag x = .ok (.string (some kind), y) ∧ IsStructure fields y ∧
      y.isUsable depth = true := by
  obtain ⟨fresh, _⟩ := List.nodup_cons.1 distinct
  cases is with
  | @object given others all known unknown any_order =>
    obtain ⟨n, rfl, each⟩ := isUsable_object usable
    obtain ⟨o, read, found⟩ := known.found distinct unknown any_order (fun g mem => (each g mem).2)
      List.mem_cons_self
    cases found with
    | omitted may => exact may.elim
    | written shows =>
      cases shows
      refine ⟨.object (all.filter fun f => f.1 != some tag), ?_, ?_, ?_⟩
      · simp only [Json.untag, read]
        rfl
      · cases known with
        | leave may => exact may.elim
        | @write _ _ _ gs _ rest =>
          refine .object rest (fun other mem f mem' =>
            unknown other mem f (List.mem_cons_of_mem _ mem')) ?_
          have perm := any_order.filter fun f => f.1 != some tag
          have known_stay : (gs.filter fun f => f.1 != some tag) = gs := by
            refine List.filter_eq_self.2 fun g mem => ?_
            obtain ⟨f, among, same⟩ := rest.mem_names mem
            simpa [same] using fun name : f.name = tag => fresh (name ▸ List.mem_map_of_mem among)
          have others_stay : ((others.map fun other => (some other.1, other.2)).filter
              fun f : Option String × Json => f.1 != some tag) =
                others.map fun other => (some other.1, other.2) := by
            refine List.filter_eq_self.2 fun g mem => ?_
            obtain ⟨other, among, rfl⟩ := List.mem_map.1 mem
            simpa using unknown other among _ List.mem_cons_self
          rwa [List.cons_append, List.filter_cons_of_neg (by simp), List.filter_append, known_stay,
            others_stay] at perm
      · simp only [isUsable]
        exact fieldsAreUsable_iff.2 fun f mem => each f (List.mem_of_mem_filter mem)
  | @array xs listed =>
    obtain ⟨n, rfl, each⟩ := isUsable_array usable
    cases listed with
    | ended may => exact (may _ List.mem_cons_self).elim
    | @write _ _ _ ys shows rest =>
      cases shows
      refine ⟨.array ys, rfl, .array rest, ?_⟩
      simpa only [isUsable] using areUsable_iff.2 fun y mem => each y (List.mem_cons_of_mem _ mem)

/-- A tagged structure is told by its tag, and then its fields are found. -/
theorem IsTagged.opens {tag kind : String} (is : IsTagged tag kind fields x)
    (distinct : (tag :: fields.map Field.name).Nodup) (usable : x.isUsable depth = true) :
    ∃ n y os, depth = n + 1 ∧ Json.untag tag x = .ok (.string (some kind), y) ∧
      fieldsOf (fields.map Field.name) .mismatched y = .ok os ∧
      List.Forall₂ (Field.Found n) fields os := by
  obtain ⟨y, untagged, is, usable⟩ := is.untag distinct usable
  obtain ⟨n, os, deep, read, found⟩ := is.found (List.nodup_cons.1 distinct).2 usable .mismatched
  exact ⟨n, y, os, deep, untagged, read, found⟩

end
end Json
end CallByNeed
