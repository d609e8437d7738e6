import CallByNeed.Proofs.Decoding.Texts
import Mathlib.Data.Nat.Digits.Lemmas

/- One text for each value: no blanks, and characters are escaped only where they must be. -/
namespace CallByNeed
namespace Json

namespace Numeral

/-- Digits as they may be written: none of them missing before the point, and no zero before
    another one. -/
def IsProper (n : Numeral) : Prop :=
  n.whole ≠ [] ∧ (n.whole.head? = some 0 → n.whole.length = 1) ∧ ∀ d ∈ n.whole ++ n.fraction, d < 10

instance (n : Numeral) : Decidable n.IsProper := by
  unfold IsProper
  infer_instance

/-- The decimal digits of a number, the first one first. -/
def natDigits (k : Nat) : List Nat := if k = 0 then [0] else (Nat.digits 10 k).reverse

def ofNat (k : Nat) : Numeral := { isNegative := false, whole := natDigits k }

end Numeral

/-! ### Texts -/

def writeDigits (ds : List Nat) : List Char := ds.map Nat.digitChar

def writeExponent : Option Int → List Char
  | none => []
  | some (.ofNat k) => 'e' :: writeDigits (Numeral.natDigits k)
  | some (.negSucc k) => 'e' :: '-' :: writeDigits (Numeral.natDigits (k + 1))

def writeFraction : List Nat → List Char
  | [] => []
  | d :: ds => '.' :: writeDigits (d :: ds)

def Numeral.write (n : Numeral) : List Char :=
  let digits := writeDigits n.whole ++ (writeFraction n.fraction ++ writeExponent n.exponent)
  if n.isNegative then '-' :: digits else digits

def writeChar : Char → List Char
  | '"' => ['\\', '"']
  | '\\' => ['\\', '\\']
  | '\x08' => ['\\', 'b']
  | '\x0c' => ['\\', 'f']
  | '\n' => ['\\', 'n']
  | '\r' => ['\\', 'r']
  | '\t' => ['\\', 't']
  | c =>
    if c.toNat < 0x20 then
      ['\\', 'u', '0', '0', (c.toNat / 16).digitChar, (c.toNat % 16).digitChar]
    else [c]

def writeString (s : String) : List Char := '"' :: (s.toList.flatMap writeChar ++ ['"'])

mutual
def write : Json → List Char
  | .null => ['n', 'u', 'l', 'l']
  | .bool true => ['t', 'r', 'u', 'e']
  | .bool false => ['f', 'a', 'l', 's', 'e']
  | .number n => n.write
  | .string s => writeString (s.getD "")
  | .array xs => '[' :: (writeElements xs ++ [']'])
  | .object fs => '\x7b' :: (writeFields fs ++ ['\x7d'])

def writeElements : List Json → List Char
  | [] => []
  | [x] => x.write
  | x :: xs => x.write ++ ',' :: writeElements xs

def writeFields : List (Option String × Json) → List Char
  | [] => []
  | [(name, x)] => writeString (name.getD "") ++ ':' :: x.write
  | (name, x) :: fs => writeString (name.getD "") ++ ':' :: (x.write ++ ',' :: writeFields fs)
end

mutual
/-- Whether the value has a text: its strings are texts, and its numerals can be written. -/
def IsWritable : Json → Prop
  | .null | .bool _ => True
  | .number n => n.IsProper
  | .string s => s.isSome = true
  | .array xs => AreWritable xs
  | .object fs => FieldsAreWritable fs

def AreWritable : List Json → Prop
  | [] => True
  | x :: xs => x.IsWritable ∧ AreWritable xs

def FieldsAreWritable : List (Option String × Json) → Prop
  | [] => True
  | (name, x) :: fs => name.isSome = true ∧ x.IsWritable ∧ FieldsAreWritable fs
end

/-! ### Numerals -/

theorem digitValue_digitChar {d : Nat} (digit : d < 10) :
    d.digitChar.isDigit = true ∧ digitValue d.digitChar = d := by
  revert d
  decide

theorem digitsText_writeDigits {ds : List Nat} (some_digit : ds ≠ []) (digits : ∀ d ∈ ds, d < 10) :
    DigitsText ds (writeDigits ds) := by
  induction ds with
  | nil => exact absurd rfl some_digit
  | cons d ds ih =>
    obtain ⟨is_digit, same⟩ := digitValue_digitChar (digits d List.mem_cons_self)
    have others := fun some_digit =>
      ih some_digit fun e mem => digits e (List.mem_cons_of_mem _ mem)
    cases ds with
    | nil =>
      have text := DigitsText.last is_digit
      rwa [same] at text
    | cons e ds =>
      have text := DigitsText.more is_digit (others (List.cons_ne_nil _ _))
      rwa [same] at text

section
variable (k : Nat)

theorem natDigits_digits : ∀ d ∈ Numeral.natDigits k, d < 10 := by
  unfold Numeral.natDigits
  split
  · simp
  · exact fun d mem => Nat.digits_lt_base (by decide) (List.mem_reverse.1 mem)

theorem natDigits_ne_nil : Numeral.natDigits k ≠ [] := by
  unfold Numeral.natDigits
  split
  · exact List.cons_ne_nil _ _
  · next positive => simpa [Nat.digits_eq_nil_iff_eq_zero] using positive

/-- Only the number zero starts with a zero. -/
theorem natDigits_head :
    (Numeral.natDigits k).head? = some 0 → (Numeral.natDigits k).length = 1 := by
  unfold Numeral.natDigits
  split
  · exact fun _ => rfl
  · next positive =>
    intro zero
    rw [List.head?_reverse,
      List.getLast?_eq_some_getLast (Nat.digits_ne_nil_iff_ne_zero.2 positive)] at zero
    exact absurd (Option.some.inj zero) (Nat.getLast_digit_ne_zero 10 positive)

theorem digitsValue_natDigits : digitsValue (Numeral.natDigits k) = k := by
  unfold Numeral.natDigits
  split
  · next zero => exact zero.symm
  · rw [digitsValue, List.foldl_reverse]
    calc (Nat.digits 10 k).foldr (fun d value => value * 10 + d) 0
        = (Nat.digits 10 k).foldr (fun d value => d + 10 * value) 0 := by
          simp only [Nat.add_comm, Nat.mul_comm]
      _ = Nat.ofDigits 10 (Nat.digits 10 k) := (Nat.ofDigits_eq_foldr ..).symm
      _ = k := Nat.ofDigits_digits 10 k

theorem digitsText_natDigits :
    DigitsText (Numeral.natDigits k) (writeDigits (Numeral.natDigits k)) :=
  digitsText_writeDigits (natDigits_ne_nil k) (natDigits_digits k)

theorem Numeral.ofNat_isProper : (ofNat k).IsProper :=
  ⟨natDigits_ne_nil k, natDigits_head k, by simpa [ofNat] using natDigits_digits k⟩

theorem Numeral.toNat?_ofNat {k : Nat} (fits : k ≤ maxSignificand) : (ofNat k).toNat? = some k := by
  have same := digitsValue_natDigits k
  unfold digitsValue at same
  simp [toNat?, ofNat, same, fits]

end

theorem exponentText_writeExponent (e : Option Int) : ExponentText e (writeExponent e) := by
  match e with
  | none => exact .absent
  | some (.ofNat k) =>
    have text := ExponentText.plain (.inl rfl) (digitsText_natDigits k)
    rwa [digitsValue_natDigits] at text
  | some (.negSucc k) =>
    have text := ExponentText.minus (.inl rfl) (digitsText_natDigits (k + 1))
    rwa [digitsValue_natDigits] at text

theorem Numeral.IsProper.writes {n : Numeral} (proper : n.IsProper) : NumeralText n n.write := by
  obtain ⟨isNegative, whole, fraction, exponent⟩ := n
  obtain ⟨some_digit, alone, digits⟩ := proper
  have wholes := digitsText_writeDigits some_digit
    fun d mem => digits d (List.mem_append_left _ mem)
  have fractional : FractionText fraction (writeFraction fraction) := by
    cases fraction with
    | nil => exact .absent
    | cons d ds =>
      exact .point <| digitsText_writeDigits (List.cons_ne_nil _ _)
        fun e mem => digits e (List.mem_append_right _ mem)
  have unsigned : UnsignedText ⟨isNegative, whole, fraction, exponent⟩ _ :=
    .intro wholes alone fractional (exponentText_writeExponent exponent)
  cases isNegative with
  | false => exact .plain rfl unsigned
  | true => exact .minus rfl unsigned

/-! ### Strings -/

theorem hexValue_digitChar {d : Nat} (digit : d < 16) : hexValue? d.digitChar = some d := by
  revert d
  decide

theorem charText_writeChar (c : Char) : CharText c (writeChar c) := by
  unfold writeChar
  split
  case h_8 no_quote no_escape _ _ _ _ _ =>
    split
    · next control =>
      have zero : hexValue? '0' = some 0 := rfl
      have unit := UnitText.intro zero zero (hexValue_digitChar (by omega : c.toNat / 16 < 16))
        (hexValue_digitChar (by omega : c.toNat % 16 < 16))
      have value : ((0 * 16 + 0) * 16 + c.toNat / 16) * 16 + c.toNat % 16 = c.toNat := by omega
      rw [value] at unit
      have text := CharText.unit unit (by simp [isHighSurrogate]; omega)
        (by simp [isLowSurrogate]; omega)
      rwa [Char.ofNat_toNat] at text
    · next printable => exact .plain (by omega) no_quote no_escape
  all_goals exact .escape rfl

theorem stringText_writeString (s : String) : StringText s (writeString s) := by
  refine .intro ?_
  induction s.toList with
  | nil => exact .nil
  | cons c cs ih => exact .cons (charText_writeChar c) ih

/-! ### Values -/

theorem blanks_nil : Blanks [] := nofun

mutual

/-- The text of a value writes it. -/
theorem IsWritable.writes : ∀ x : Json, x.IsWritable → x.Writes x.write
  | .null, _ => .null
  | .bool true, _ => .yes
  | .bool false, _ => .no
  | .number _, writable => .number (Numeral.IsProper.writes writable)
  | .string (some s), _ => .string (stringText_writeString s)
  | .array [], _ => .emptyArray blanks_nil
  | .array (x :: xs), writable =>
    .array (AreWritable.writes (x :: xs) (List.cons_ne_nil _ _) writable)
  | .object [], _ => .emptyObject blanks_nil
  | .object (f :: fs), writable =>
    .object (FieldsAreWritable.writes (f :: fs) (List.cons_ne_nil _ _) writable)

theorem AreWritable.writes : ∀ xs : List Json, xs ≠ [] → AreWritable xs →
    ElementsText xs (writeElements xs)
  | [x], _, writable => by
    have text := ElementsText.last blanks_nil (IsWritable.writes x writable.1) blanks_nil
    rwa [List.nil_append, List.append_nil] at text
  | x :: y :: ys, _, writable =>
    .more blanks_nil (IsWritable.writes x writable.1) blanks_nil
      (AreWritable.writes (y :: ys) (List.cons_ne_nil _ _) writable.2)

theorem FieldsAreWritable.writes : ∀ fs : List (Option String × Json), fs ≠ [] →
    FieldsAreWritable fs → FieldsText fs (writeFields fs)
  | [(some name, x)], _, writable => by
    have text := FieldsText.last blanks_nil (stringText_writeString name) blanks_nil blanks_nil
      (IsWritable.writes x writable.2.1) blanks_nil
    rwa [List.append_nil] at text
  | (some name, x) :: g :: gs, _, writable =>
    .more blanks_nil (stringText_writeString name) blanks_nil blanks_nil
      (IsWritable.writes x writable.2.1) blanks_nil
      (FieldsAreWritable.writes (g :: gs) (List.cons_ne_nil _ _) writable.2.2)

end

theorem IsWritable.isWrittenBy {x : Json} (writable : x.IsWritable) :
    x.IsWrittenBy (String.ofList x.write) :=
  ⟨[], x.write, [], blanks_nil, writable.writes, blanks_nil, by simp⟩

end Json
end CallByNeed
