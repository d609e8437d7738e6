import CallByNeed.Proofs.Keys.Order
import Mathlib.Data.List.Forall2

/- The order on keys is linear up to their equality: the kinds follow one another, lists and entry
   sequences compare where they first differ, strings as their bytes do. -/
namespace CallByNeed

/-! ### First differences -/

/-- After the same elements one sequence has ended and the other has not, or has the lesser element. -/
inductive Precedes {α : Type} (same less : α → α → Prop) : List α → List α → Prop
  | shorter {front front' rest : List α} {b : α} :
      List.Forall₂ same front front' → Precedes same less front (front' ++ b :: rest)
  | smaller {front front' rest rest' : List α} {a b : α} :
      List.Forall₂ same front front' → less a b →
      Precedes same less (front ++ a :: rest) (front' ++ b :: rest')

section
variable {α : Type} {same less : α → α → Prop} {a b : α} {as bs : List α}

theorem Precedes.cons (equal : same a b) (rest : Precedes same less as bs) :
    Precedes same less (a :: as) (b :: bs) := by
  cases rest with
  | shorter fronts => exact .shorter (fronts.cons equal)
  | smaller fronts lt => exact .smaller (fronts.cons equal) lt

/-- Elements that are the same on both sides put off the comparison. -/
theorem compareLex_append {cmp : α → α → Ordering} (equal : ∀ {a b}, cmp a b = .eq ↔ same a b)
    {front front' : List α} (fronts : List.Forall₂ same front front') :
    List.compareLex cmp (front ++ as) (front' ++ bs) = List.compareLex cmp as bs := by
  induction fronts with
  | nil => rfl
  | cons first _ ih =>
    rw [List.cons_append, List.cons_append, List.compareLex_cons_cons, equal.2 first]
    exact ih

theorem compareLex_eq_lt_iff {cmp : α → α → Ordering} (equal : ∀ {a b}, cmp a b = .eq ↔ same a b)
    (lt : ∀ {a b}, cmp a b = .lt ↔ less a b) :
    List.compareLex cmp as bs = .lt ↔ Precedes same less as bs := by
  constructor
  · intro first
    induction as generalizing bs with
    | nil =>
      cases bs with
      | nil => cases first
      | cons b bs => exact .shorter .nil
    | cons a as ih =>
      cases bs with
      | nil => cases first
      | cons b bs =>
        rw [List.compareLex_cons_cons, Ordering.then_eq_lt] at first
        rcases first with smaller | ⟨same, rest⟩
        · exact .smaller .nil (lt.1 smaller)
        · exact (ih rest).cons (equal.1 same)
  · intro first
    cases first with
    | shorter fronts =>
      rw [← List.append_nil as, compareLex_append equal fronts]
      rfl
    | smaller fronts smaller =>
      rw [compareLex_append equal fronts, List.compareLex_cons_cons, lt.2 smaller]
      rfl

end

/-! ### Bytes of strings -/

section
variable {m n : Nat} {bs bs' : List UInt8}

theorem cons_byte_lt (small : m < 256) (small' : n < 256) (le : m ≤ n) (rest : m = n → bs < bs') :
    UInt8.ofNat m :: bs < UInt8.ofNat n :: bs' := by
  rcases Nat.lt_or_eq_of_le le with less | same
  · exact List.cons_lt_cons_iff.2 (.inl ((UInt8.ofNat_lt_iff_lt small small').2 less))
  · exact List.cons_lt_cons_iff.2 (.inr ⟨congrArg UInt8.ofNat same, rest same⟩)

/-- The lesser of two characters has the lesser bytes, whatever follows. -/
theorem utf8EncodeChar_lt {c d : Char} (less : c < d) (bs bs' : List UInt8) :
    String.utf8EncodeChar c ++ bs < String.utf8EncodeChar d ++ bs' := by
  have less : c.val.toNat < d.val.toNat := less
  have scalar : d.val.toNat < 0x110000 := by
    have valid := d.valid
    simp only [UInt32.isValidChar, Nat.isValidChar] at valid
    omega
  unfold String.utf8EncodeChar
  generalize c.val.toNat = m at *
  generalize d.val.toNat = n at *
  -- Fewer bytes go with smaller first bytes; among as many, the digits to base 64 decide.
  simp only
  repeat' split
  all_goals
    first
    | omega
    | simp only [List.cons_append]
      repeat'
        first
        | refine cons_byte_lt (by omega) (by omega) (by omega) fun _ => ?_
        | omega

theorem flatMap_utf8EncodeChar_lt {cs ds : List Char} (less : cs < ds) :
    cs.flatMap String.utf8EncodeChar < ds.flatMap String.utf8EncodeChar := by
  induction cs generalizing ds with
  | nil =>
    cases ds with
    | nil => exact absurd less (List.lt_irrefl _)
    | cons d ds =>
      obtain ⟨b, bs, bytes⟩ := List.exists_cons_of_ne_nil (String.utf8EncodeChar_ne_nil (c := d))
      rw [List.flatMap_cons, bytes]
      exact List.nil_lt_cons ..
  | cons c cs ih =>
    cases ds with
    | nil => exact absurd less (List.not_lt_nil _)
    | cons d ds =>
      rw [List.flatMap_cons, List.flatMap_cons]
      rcases List.cons_lt_cons_iff.1 less with first | ⟨rfl, rest⟩
      · exact utf8EncodeChar_lt first ..
      · exact List.append_left_lt (ih rest)

theorem utf8_bytes (s : String) : s.toUTF8.data.toList = s.toList.flatMap String.utf8EncodeChar := by
  conv => lhs; rw [← String.ofList_toList (s := s)]
  rw [String.toUTF8_eq_toByteArray, String.toByteArray_ofList, List.utf8Encode,
    List.data_toByteArray]

theorem string_lt_iff_bytes {s t : String} :
    s < t ↔ s.toUTF8.data.toList < t.toUTF8.data.toList := by
  have up : ∀ {s t : String}, s < t → s.toUTF8.data.toList < t.toUTF8.data.toList := by
    intro s t less
    rw [utf8_bytes, utf8_bytes]
    exact flatMap_utf8EncodeChar_lt (String.lt_iff.1 less)
  refine ⟨up, fun less => ?_⟩
  rcases Std.lt_trichotomy s t with first | rfl | second
  · exact first
  · exact absurd less (List.lt_irrefl _)
  · exact absurd less (List.lt_asymm (up second))

end

/-! ### Keys -/

namespace Key

def Less (k l : Key) : Prop := k.compare l = .lt

/-- Equality of entries is that of both parts; keys decide their order before values do. -/
def SameEntry (e f : Key × Key) : Prop := e.1.same f.1 ∧ e.2.same f.2

def LessEntry (e f : Key × Key) : Prop := e.1.Less f.1 ∨ e.1.same f.1 ∧ e.2.Less f.2

theorem compareLists_eq_compareLex (as bs : List Key) :
    compareLists as bs = List.compareLex compare as bs := by
  induction as generalizing bs with
  | nil => cases bs <;> rfl
  | cons a as ih =>
    cases bs with
    | nil => rfl
    | cons b bs => rw [compareLists, ih, List.compareLex_cons_cons]

def compareEntry (e f : Key × Key) : Ordering := (e.1.compare f.1).then (e.2.compare f.2)

theorem compareEntries_eq_compareLex (es fs : List (Key × Key)) :
    compareEntries es fs = List.compareLex compareEntry es fs := by
  induction es generalizing fs with
  | nil => cases fs <;> rfl
  | cons e es ih =>
    cases fs with
    | nil => rfl
    | cons f fs =>
      rw [compareEntries, ih, List.compareLex_cons_cons]
      rfl

theorem less_list_iff {as bs : List Key} :
    (list as).Less (list bs) ↔ Precedes (fun a b => a.same b) Less as bs := by
  rw [Less, compare, compareLists_eq_compareLex]
  exact compareLex_eq_lt_iff compare_eq_iff_same Iff.rfl

theorem less_dict_iff {es fs : List (Key × Key)} :
    (dict es).Less (dict fs) ↔ Precedes SameEntry LessEntry es fs := by
  rw [Less, compare, compareEntries_eq_compareLex]
  refine compareLex_eq_lt_iff ?_ ?_
  · intro e f
    rw [compareEntry, Ordering.then_eq_eq, compare_eq_iff_same, compare_eq_iff_same, SameEntry]
  · intro e f
    rw [compareEntry, Ordering.then_eq_lt, compare_eq_iff_same, LessEntry, Less, Less]

theorem less_string_iff {s t : String} :
    (string s).Less (string t) ↔ s.toUTF8.data.toList < t.toUTF8.data.toList := by
  rw [← string_lt_iff_bytes, Less, compare]
  exact compareOfLessAndEq_eq_lt

end Key

namespace Number
variable {x y : Number}

theorem rank_of_isZero (zero : x.isZero) : x.rank = 0 := by
  have magnitude : x.magnitude = 0 := by simpa [isZero] using zero
  simp [rank, isNaN, magnitude, infiniteMagnitude]

theorem rank_le (y : Number) (ordinary : ¬ y.isNaN) : y.rank ≤ infiniteMagnitude := by
  have magnitude : y.magnitude ≤ infiniteMagnitude := by simpa [isNaN] using ordinary
  rw [rank, if_neg ordinary]
  split <;> omega

/-- A NaN comes after all numbers but another NaN. -/
theorem compare_of_isNaN (nan : x.isNaN) : x.compare y = if y.isNaN then .eq else .gt := by
  have greatest : x.rank = infiniteMagnitude + 1 := if_pos nan
  unfold compare
  split
  · next nan' =>
    rw [greatest, show y.rank = infiniteMagnitude + 1 from if_pos nan']
    exact Int.compare_eq_eq.2 rfl
  · next ordinary =>
    have below : y.rank ≤ infiniteMagnitude := y.rank_le ordinary
    exact Int.compare_eq_gt.2 (by omega)

theorem compare_of_isZero (zero : x.isZero) (zero' : y.isZero) : x.compare y = .eq := by
  unfold compare
  rw [rank_of_isZero zero, rank_of_isZero zero']
  rfl

end Number

/-- What a linear order promises of any three keys, and what it compares first. -/
structure Key.Linear (a b c : Key) : Prop where
  /-- Exactly one of the three. -/
  trichotomy : (a.Less b ∧ ¬ a.same b ∧ ¬ b.Less a) ∨ (¬ a.Less b ∧ a.same b ∧ ¬ b.Less a) ∨
    (¬ a.Less b ∧ ¬ a.same b ∧ b.Less a)
  equal : a.compare b = .eq ↔ a.same b
  reverse : b.compare a = (a.compare b).swap
  trans : a.Less b → b.Less c → a.Less c
  /-- Keys that are the same compare the same. -/
  congr : a.same b → a.compare c = b.compare c
  kinds : a.rank < b.rank → a.Less b
  lists : ∀ as bs, a = .list as → b = .list bs →
    (a.Less b ↔ Precedes (fun k l => k.same l) Less as bs)
  dicts : ∀ es fs, a = .dict es → b = .dict fs → (a.Less b ↔ Precedes SameEntry LessEntry es fs)
  strings : ∀ s t, a = .string s → b = .string t →
    (a.Less b ↔ s.toUTF8.data.toList < t.toUTF8.data.toList)
  nan : ∀ x y, a = .number x → b = .number y → x.isNaN →
    a.compare b = if y.isNaN then .eq else .gt
  zeros : ∀ x y, a = .number x → b = .number y → x.isZero → y.isZero → a.same b

theorem keys_linearly_ordered (a b c : Key) : a.Linear b c where
  trichotomy := by
    rw [Key.Less, Key.Less, Key.compare_swap b a, ← Key.compare_eq_iff_same]
    cases a.compare b <;> simp
  equal := Key.compare_eq_iff_same
  reverse := Key.compare_swap b a
  trans := Std.TransCmp.lt_trans
  congr same := Std.TransCmp.congr_left (Key.compare_eq_iff_same.2 same)
  kinds := Key.compare_of_rank_lt
  lists := by
    rintro as bs rfl rfl
    exact Key.less_list_iff
  dicts := by
    rintro es fs rfl rfl
    exact Key.less_dict_iff
  strings := by
    rintro s t rfl rfl
    exact Key.less_string_iff
  nan := by
    rintro x y rfl rfl nan
    exact Number.compare_of_isNaN nan
  zeros := by
    rintro x y rfl rfl zero zero'
    exact Key.compare_eq_iff_same.1 (Number.compare_of_isZero zero zero')

end CallByNeed
