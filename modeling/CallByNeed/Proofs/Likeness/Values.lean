import CallByNeed.Proofs.Keys.Order
import CallByNeed.Proofs.Likeness.Collections
import CallByNeed.Value.Comparison
import CallByNeed.Value.Text

/- Likeness of what looks into values: keys, order, equality and text. Like values give equal keys,
   equal answers and equal texts, since only their cells and call sites differ. -/
namespace CallByNeed

section
variable {M : Manner} {B : Bond} {bound bound' : Nat}

namespace Key

theorem alike_ofEntries {f f' : Value → Script Key}
    (each : ∀ v v', ValueLike M B v v' → Alike M B Eq (f v) (f' v')) {es es' : List (Key × Ref)}
    (entries : EntriesLike B.cells es es') :
    Alike M B Eq (ofEntries f es) (ofEntries f' es') := by
  induction entries with
  | nil => exact .pure rfl
  | @cons e e' _ _ first _ ih =>
    obtain ⟨k, r⟩ := e
    obtain ⟨k', r'⟩ := e'
    obtain ⟨rfl, cells⟩ := first
    refine (Alike.force cells).bind fun v v' values => ?_
    refine (each v v' values).bind ?_
    rintro x _ rfl
    refine ih.bind ?_
    rintro rest _ rfl
    exact .pure rfl

theorem alike_ofValue (bounds : M.Bounds bound bound') {v v' : Value}
    (values : ValueLike M B v v') : Alike M B Eq (ofValue bound v) (ofValue bound' v') := by
  induction bound generalizing bound' v v' with
  | zero =>
    refine .exhausted bounds ?_
    rintro rfl
    rfl
  | succ bound ih =>
    obtain ⟨less, rfl, lower⟩ := bounds.succ
    cases values with
    | bool b => exact .pure rfl
    | number x => exact .pure rfl
    | string s => exact .pure rfl
    | list lists =>
      refine (LazyList.alike_walk (L := Eq) ?_ lower lists rfl).bind ?_
      · rintro keys _ r r' rfl cells
        refine (Alike.force cells).bind fun v v' values => ?_
        refine (ih lower values).bind ?_
        rintro key _ rfl
        exact .pure (.yield rfl)
      · rintro keys _ rfl
        exact .pure rfl
    | dict dicts =>
      refine (alike_ofEntries (fun v v' values => ih lower values) dicts).bind ?_
      rintro entries _ rfl
      exact .pure rfl
    | function functions => exact .fail _
    | native natives => exact .fail _
    | error faults => exact .raise faults
    | effect actions => exact .fail _

mutual
theorem alike_toValue : ∀ k : Key,
    Alike M B (ValueLike M B) (k.toValue : Script Value) k.toValue
  | .bool b => .pure (.bool b)
  | .number x => .pure (.number x)
  | .string s => .pure (.string s)
  | .list keys => by
    simp only [toValue]
    refine (alike_toElements keys).bind fun rs rs' cells => ?_
    exact (LazyList.alike_ofRefs cells).bind fun l l' lists => .pure (.list lists)
  | .dict entries => by
    simp only [toValue]
    exact (alike_toEntries entries).bind fun es es' likes => .pure (.dict (Dict.like_ofList likes))

theorem alike_toElements : ∀ keys : List Key,
    Alike M B (RefsLike B) (toElements keys : Script (List Ref)) (toElements keys)
  | [] => by
    simp only [toElements]
    exact .pure .nil
  | k :: ks => by
    simp only [toElements]
    refine (alike_toValue k).bind fun v v' values => ?_
    refine (Alike.allocValue values).bind fun r r' cells => ?_
    exact (alike_toElements ks).bind fun rs rs' others => .pure (.cons cells others)

theorem alike_toEntries : ∀ es : List (Key × Key),
    Alike M B (EntriesLike B.cells) (toEntries es : Script (List (Key × Ref))) (toEntries es)
  | [] => by
    simp only [toEntries]
    exact .pure .nil
  | (k, x) :: es => by
    simp only [toEntries]
    refine (alike_toValue x).bind fun v v' values => ?_
    refine (Alike.allocValue values).bind fun r r' cells => ?_
    exact (alike_toEntries es).bind fun rs rs' others => .pure (.cons ⟨rfl, cells⟩ others)
end

end Key

namespace Dict

theorem alike_listEntries {es es' : List (Key × Ref)} (entries : EntriesLike B.cells es es') :
    Alike M B (LazyListLike B) (listEntries es) (listEntries es') := by
  cases entries with
  | nil => exact .pure .nil
  | @cons e e' _ _ first others =>
    obtain ⟨k, r⟩ := e
    obtain ⟨k', r'⟩ := e'
    obtain ⟨rfl, cells⟩ := first
    rw [listEntries_cons, listEntries_cons]
    refine (Key.alike_toValue k).bind fun v v' values => ?_
    refine (Alike.allocValue values).bind fun key key' keys => ?_
    refine (LazyList.alike_ofRefs (.cons keys (.cons cells .nil))).bind fun l l' lists => ?_
    refine (Alike.allocValue (.list lists)).bind fun pair pair' pairs => ?_
    exact (Alike.suspend (.entries others)).bind fun s s' rests => .pure (.cons pairs rests)

theorem alike_toLazyList {d d' : Dict Ref} (dicts : DictLike B.cells d d') :
    Alike M B (LazyListLike B) d.toLazyList d'.toLazyList :=
  alike_listEntries dicts

end Dict

namespace Value

theorem alike_compareEntries {f f' : Value → Value → Script Ordering}
    (each : ∀ v v' u u', ValueLike M B v v' → ValueLike M B u u' →
      Alike M B Eq (f v u) (f' v' u'))
    {es es' : List (Key × Ref)} (lefts : EntriesLike B.cells es es') {gs gs' : List (Key × Ref)}
    (rights : EntriesLike B.cells gs gs') :
    Alike M B Eq (compareEntries f es gs) (compareEntries f' es' gs') := by
  induction lefts generalizing gs gs' with
  | nil => cases rights <;> exact .pure rfl
  | @cons e e' _ _ first _ ih =>
    cases rights with
    | nil => exact .pure rfl
    | @cons g g' _ _ second others =>
      obtain ⟨k, x⟩ := e
      obtain ⟨k', x'⟩ := e'
      obtain ⟨l, y⟩ := g
      obtain ⟨l', y'⟩ := g'
      obtain ⟨rfl, left⟩ := first
      obtain ⟨rfl, right⟩ := second
      simp only [compareEntries]
      split
      · refine (Alike.force left).bind fun v v' values => ?_
        refine (Alike.force right).bind fun u u' values' => ?_
        refine (each v v' u u' values values').bind ?_
        rintro o _ rfl
        cases o with
        | eq => exact ih others
        | lt => exact .pure rfl
        | gt => exact .pure rfl
      · exact .pure rfl

theorem alike_compare (bounds : M.Bounds bound bound') {v v' : Value}
    (lefts : ValueLike M B v v') {u u' : Value} (rights : ValueLike M B u u') :
    Alike M B Eq (compare bound v u) (compare bound' v' u') := by
  induction bound generalizing bound' v v' u u' with
  | zero =>
    refine .exhausted bounds ?_
    rintro rfl
    rfl
  | succ bound ih =>
    obtain ⟨less, rfl, lower⟩ := bounds.succ
    cases lefts with
    | error faults => exact .raise faults
    | list lists =>
      cases rights with
      | error faults => exact .raise faults
      | list lists' =>
        refine LazyList.alike_walkPairs ?_ id lower lists lists'
        intro x x' y y' left right
        refine (Alike.force left).bind fun v v' values => ?_
        refine (Alike.force right).bind fun u u' values' => ?_
        refine (ih lower values values').bind ?_
        rintro o _ rfl
        cases o <;> exact .pure rfl
      | _ => exact .fail _
    | dict dicts =>
      cases rights with
      | error faults => exact .raise faults
      | dict dicts' =>
        exact alike_compareEntries (fun _ _ _ _ left right => ih lower left right) dicts dicts'
      | _ => exact .fail _
    | _ =>
      cases rights with
      | error faults => exact .raise faults
      | _ => first | exact .pure rfl | exact .fail _

theorem alike_equalEntries {f f' : Value → Value → Script Bool}
    (each : ∀ v v' u u', ValueLike M B v v' → ValueLike M B u u' →
      Alike M B Eq (f v u) (f' v' u'))
    {es es' : List (Key × Ref)} (lefts : EntriesLike B.cells es es') {gs gs' : List (Key × Ref)}
    (rights : EntriesLike B.cells gs gs') :
    Alike M B Eq (equalEntries f es gs) (equalEntries f' es' gs') := by
  induction lefts generalizing gs gs' with
  | nil => cases rights <;> exact .pure rfl
  | @cons e e' _ _ first _ ih =>
    cases rights with
    | nil => exact .pure rfl
    | @cons g g' _ _ second others =>
      obtain ⟨k, x⟩ := e
      obtain ⟨k', x'⟩ := e'
      obtain ⟨l, y⟩ := g
      obtain ⟨l', y'⟩ := g'
      obtain ⟨rfl, left⟩ := first
      obtain ⟨rfl, right⟩ := second
      simp only [equalEntries]
      split
      · refine (Alike.force left).bind fun v v' values => ?_
        refine (Alike.force right).bind fun u u' values' => ?_
        refine (each v v' u u' values values').bind ?_
        rintro same _ rfl
        cases same with
        | true => exact ih others
        | false => exact .pure rfl
      · exact .pure rfl

theorem alike_equal (bounds : M.Bounds bound bound') {v v' : Value}
    (lefts : ValueLike M B v v') {u u' : Value} (rights : ValueLike M B u u') :
    Alike M B Eq (equal bound v u) (equal bound' v' u') := by
  induction bound generalizing bound' v v' u u' with
  | zero =>
    refine .exhausted bounds ?_
    rintro rfl
    rfl
  | succ bound ih =>
    obtain ⟨less, rfl, lower⟩ := bounds.succ
    cases lefts with
    | error faults => exact .raise faults
    | list lists =>
      cases rights with
      | error faults => exact .raise faults
      | list lists' =>
        refine LazyList.alike_walkPairs ?_ _ lower lists lists'
        intro x x' y y' left right
        refine (Alike.force left).bind fun v v' values => ?_
        refine (Alike.force right).bind fun u u' values' => ?_
        refine (ih lower values values').bind ?_
        rintro same _ rfl
        cases same <;> exact .pure rfl
      | _ => first | exact .pure rfl | exact .fail _
    | dict dicts =>
      cases rights with
      | error faults => exact .raise faults
      | dict dicts' =>
        simp only [equal, Dict.size_eq dicts, Dict.size_eq dicts']
        split
        · exact alike_equalEntries (fun _ _ _ _ left right => ih lower left right) dicts dicts'
        · exact .pure rfl
      | _ => first | exact .pure rfl | exact .fail _
    | _ =>
      cases rights with
      | error faults => exact .raise faults
      | _ => first | exact .pure rfl | exact .fail _

theorem alike_dumpWith {f f' : Value → Script String} {v v' : Value}
    (values : ValueLike M B v v') (texts : Alike M B Eq (f v) (f' v')) :
    Alike M B Eq (dumpWith f v) (dumpWith f' v') := by
  cases values with
  | string s => exact .pure rfl
  | function functions =>
    simp only [dumpWith, functions.name]
    exact .pure rfl
  | native natives => cases natives <;> exact .pure rfl
  | error faults => exact .raise faults
  | effect actions => exact .pure rfl
  | _ => exact texts

theorem alike_dumpEntries {f f' : Value → Script String}
    (each : ∀ v v', ValueLike M B v v' → Alike M B Eq (f v) (f' v')) {es es' : List (Key × Ref)}
    (entries : EntriesLike B.cells es es') :
    Alike M B Eq (dumpEntries f es) (dumpEntries f' es') := by
  induction entries with
  | nil => exact .pure rfl
  | @cons e e' _ _ first _ ih =>
    obtain ⟨k, r⟩ := e
    obtain ⟨k', r'⟩ := e'
    obtain ⟨rfl, cells⟩ := first
    refine (Alike.force cells).bind fun v v' values => ?_
    refine (each v v' values).bind ?_
    rintro x _ rfl
    refine ih.bind ?_
    rintro rest _ rfl
    exact .pure rfl

theorem alike_text (bounds : M.Bounds bound bound') {v v' : Value}
    (values : ValueLike M B v v') : Alike M B Eq (text bound v) (text bound' v') := by
  induction bound generalizing bound' v v' with
  | zero =>
    refine .exhausted bounds ?_
    rintro rfl
    rfl
  | succ bound ih =>
    obtain ⟨less, rfl, lower⟩ := bounds.succ
    cases values with
    | bool b => exact .pure rfl
    | number x => exact .pure rfl
    | string s => exact .pure rfl
    | list lists =>
      refine (LazyList.alike_walk (L := Eq) ?_ lower lists rfl).bind ?_
      · rintro parts _ r r' rfl cells
        refine (Alike.force cells).bind fun v v' values => ?_
        refine (alike_dumpWith values (ih lower values)).bind ?_
        rintro part _ rfl
        exact .pure (.yield rfl)
      · rintro parts _ rfl
        exact .pure rfl
    | dict dicts =>
      refine (alike_dumpEntries ?_ dicts).bind ?_
      · intro v v' values
        exact alike_dumpWith values (ih lower values)
      · rintro parts _ rfl
        exact .pure rfl
    | function functions => exact .fail _
    | native natives => exact .fail _
    | error faults => exact .raise faults
    | effect actions => exact .fail _

theorem alike_dump (bounds : M.Bounds bound bound') {v v' : Value}
    (values : ValueLike M B v v') : Alike M B Eq (dump bound v) (dump bound' v') :=
  alike_dumpWith values (alike_text bounds values)

end Value

theorem LazyList.alike_includes (bounds : M.Bounds bound bound') {l l' : LazyList}
    (lists : LazyListLike B l l') {v v' : Value} (values : ValueLike M B v v') :
    Alike M B Eq (l.includes bound v) (l'.includes bound' v') := by
  refine alike_walk ?_ bounds lists rfl
  rintro b _ r r' rfl cells
  refine (Alike.force cells).bind fun u u' elements => ?_
  refine (Value.alike_equal bounds elements values).bind ?_
  rintro same _ rfl
  cases same with
  | true => exact .pure (.done rfl)
  | false => exact .pure (.yield rfl)

end
end CallByNeed
