import CallByNeed.Json

/- The texts that write a JSON value. Blanks may stand around every value, name and mark, a
   character of a string may be written in several ways, and so may a power of ten. Whatever writes
   a value is read as that value. -/
namespace CallByNeed
namespace Json

/-! ### What writes a value -/

def Blanks (cs : List Char) : Prop := ∀ c ∈ cs, isBlank c = true

/-- A digit at least. -/
inductive DigitsText : List Nat → List Char → Prop
  | last {c : Char} (digit : c.isDigit = true) : DigitsText [digitValue c] [c]
  | more {c : Char} {ds : List Nat} {cs : List Char} (digit : c.isDigit = true)
      (rest : DigitsText ds cs) : DigitsText (digitValue c :: ds) (c :: cs)

inductive FractionText : List Nat → List Char → Prop
  | absent : FractionText [] []
  | point {ds : List Nat} {cs : List Char} (digits : DigitsText ds cs) :
      FractionText ds ('.' :: cs)

/-- The number that digits make up. -/
def digitsValue (ds : List Nat) : Nat := ds.foldl (fun value d => value * 10 + d) 0

inductive ExponentText : Option Int → List Char → Prop
  | absent : ExponentText none []
  | plain {e : Char} {ds : List Nat} {cs : List Char} (mark : e = 'e' ∨ e = 'E')
      (digits : DigitsText ds cs) : ExponentText (some (digitsValue ds)) (e :: cs)
  | plus {e : Char} {ds : List Nat} {cs : List Char} (mark : e = 'e' ∨ e = 'E')
      (digits : DigitsText ds cs) : ExponentText (some (digitsValue ds)) (e :: '+' :: cs)
  | minus {e : Char} {ds : List Nat} {cs : List Char} (mark : e = 'e' ∨ e = 'E')
      (digits : DigitsText ds cs) : ExponentText (some (-(digitsValue ds : Int))) (e :: '-' :: cs)

/-- Digits, of which the first one is no zero unless it stands alone, and what may follow them. -/
inductive UnsignedText : Numeral → List Char → Prop
  | intro {isNegative : Bool} {whole fraction : List Nat} {exponent : Option Int}
      {ws fs es : List Char} (digits : DigitsText whole ws)
      (alone : whole.head? = some 0 → whole.length = 1) (fractional : FractionText fraction fs)
      (power : ExponentText exponent es) :
      UnsignedText { isNegative, whole, fraction, exponent } (ws ++ (fs ++ es))

inductive NumeralText : Numeral → List Char → Prop
  | plain {n : Numeral} {cs : List Char} (sign : n.isNegative = false)
      (digits : UnsignedText n cs) : NumeralText n cs
  | minus {n : Numeral} {cs : List Char} (sign : n.isNegative = true)
      (digits : UnsignedText n cs) : NumeralText n ('-' :: cs)

/-- Four hexadecimal digits. -/
inductive UnitText : Nat → List Char → Prop
  | intro {a b c d : Char} {x y z w : Nat} (first : hexValue? a = some x)
      (second : hexValue? b = some y) (third : hexValue? c = some z)
      (fourth : hexValue? d = some w) :
      UnitText (((x * 16 + y) * 16 + z) * 16 + w) [a, b, c, d]

/-- The ways to write a character: as it is, by an escape of its own, or by the number of its code
    unit or of both halves of its surrogate pair. -/
inductive CharText : Char → List Char → Prop
  | plain {c : Char} (printable : 0x20 ≤ c.toNat) (no_quote : c ≠ '"') (no_escape : c ≠ '\\') :
      CharText c [c]
  | escape {e c : Char} (known : escapedChar? e = some c) : CharText c ['\\', e]
  | unit {u : Nat} {cs : List Char} (digits : UnitText u cs) (no_high : isHighSurrogate u = false)
      (no_low : isLowSurrogate u = false) : CharText (Char.ofNat u) ('\\' :: 'u' :: cs)
  | pair {u v : Nat} {cs cs' : List Char} (digits : UnitText u cs) (digits' : UnitText v cs')
      (high : isHighSurrogate u = true) (low : isLowSurrogate v = true) :
      CharText (Char.ofNat ((u - 0xD800) * 0x400 + (v - 0xDC00) + 0x10000))
        ('\\' :: 'u' :: (cs ++ '\\' :: 'u' :: cs'))

/-- What stands between the quotes. -/
inductive CharsText : List Char → List Char → Prop
  | nil : CharsText [] []
  | cons {c : Char} {cs chars ts : List Char} (first : CharText c cs) (rest : CharsText chars ts) :
      CharsText (c :: chars) (cs ++ ts)

inductive StringText : String → List Char → Prop
  | intro {s : String} {cs : List Char} (chars : CharsText s.toList cs) :
      StringText s ('"' :: (cs ++ ['"']))

mutual
inductive Writes : Json → List Char → Prop
  | null : Writes .null ['n', 'u', 'l', 'l']
  | yes : Writes (.bool true) ['t', 'r', 'u', 'e']
  | no : Writes (.bool false) ['f', 'a', 'l', 's', 'e']
  | number {n : Numeral} {cs : List Char} (numeral : NumeralText n cs) : Writes (.number n) cs
  | string {s : String} {cs : List Char} (text : StringText s cs) : Writes (.string (some s)) cs
  | emptyArray {bs : List Char} (blanks : Blanks bs) : Writes (.array []) ('[' :: (bs ++ [']']))
  | array {xs : List Json} {cs : List Char} (elements : ElementsText xs cs) :
      Writes (.array xs) ('[' :: (cs ++ [']']))
  | emptyObject {bs : List Char} (blanks : Blanks bs) :
      Writes (.object []) ('\x7b' :: (bs ++ ['\x7d']))
  | object {fs : List (Option String × Json)} {cs : List Char} (fields : FieldsText fs cs) :
      Writes (.object fs) ('\x7b' :: (cs ++ ['\x7d']))

/-- Elements with a comma between them. -/
inductive ElementsText : List Json → List Char → Prop
  | last {x : Json} {before cs after : List Char} (blanks : Blanks before) (value : Writes x cs)
      (blanks' : Blanks after) : ElementsText [x] (before ++ (cs ++ after))
  | more {x : Json} {xs : List Json} {before cs after ts : List Char} (blanks : Blanks before)
      (value : Writes x cs) (blanks' : Blanks after) (rest : ElementsText xs ts) :
      ElementsText (x :: xs) (before ++ (cs ++ (after ++ ',' :: ts)))

inductive FieldsText : List (Option String × Json) → List Char → Prop
  | last {name : String} {x : Json} {before ns between between' cs after : List Char}
      (blanks : Blanks before) (named : StringText name ns) (blanks₁ : Blanks between)
      (blanks₂ : Blanks between') (value : Writes x cs) (blanks' : Blanks after) :
      FieldsText [(some name, x)]
        (before ++ (ns ++ (between ++ ':' :: (between' ++ (cs ++ after)))))
  | more {name : String} {x : Json} {fs : List (Option String × Json)}
      {before ns between between' cs after ts : List Char} (blanks : Blanks before)
      (named : StringText name ns) (blanks₁ : Blanks between) (blanks₂ : Blanks between')
      (value : Writes x cs) (blanks' : Blanks after) (rest : FieldsText fs ts) :
      FieldsText ((some name, x) :: fs)
        (before ++ (ns ++ (between ++ ':' :: (between' ++ (cs ++ (after ++ ',' :: ts))))))
end

/-- The text writes the value and nothing else. -/
def IsWrittenBy (x : Json) (text : String) : Prop :=
  ∃ before cs after, Blanks before ∧ x.Writes cs ∧ Blanks after ∧
    text.toList = before ++ (cs ++ after)

theorem ok_bind {α β : Type} (a : α) (f : α → Except Flaw β) : (Except.ok a >>= f) = f a := rfl

theorem ok_bind_of {α β : Type} {x : Except Flaw α} {a : α} {f : α → Except Flaw β} {b : β}
    (first : x = .ok a) (rest : f a = .ok b) : (x >>= f) = .ok b := by
  rw [first, ok_bind, rest]

/-! ### Numerals -/

/-- A numeral ends here. -/
def Ends (rest : List Char) : Prop :=
  ∀ c, rest.head? = some c → c.isDigit = false ∧ c ≠ '.' ∧ c ≠ 'e' ∧ c ≠ 'E'

section
variable {cs rest : List Char} {ds : List Nat}

theorem DigitsText.readDigits (digits : DigitsText ds cs)
    (ends : ∀ c, rest.head? = some c → c.isDigit = false) :
    Json.readDigits (cs ++ rest) = (ds, rest) := by
  have stops : rest.takeWhile Char.isDigit = [] ∧ rest.dropWhile Char.isDigit = rest := by
    cases rest with
    | nil => exact ⟨rfl, rfl⟩
    | cons c rest => simp [ends c rfl]
  induction digits with
  | last digit => simp [Json.readDigits, digit, stops]
  | more digit _ ih =>
    simp only [Json.readDigits, Prod.mk.injEq] at ih ⊢
    simp [digit, ih]

theorem DigitsText.readDigits1 (digits : DigitsText ds cs)
    (ends : ∀ c, rest.head? = some c → c.isDigit = false) :
    Json.readDigits1 (cs ++ rest) = .ok (ds, rest) := by
  simp only [Json.readDigits1, digits.readDigits ends]
  cases digits <;> rfl

theorem DigitsText.head (digits : DigitsText ds cs) :
    ∃ c ts, cs = c :: ts ∧ c.isDigit = true := by
  cases digits with
  | last digit => exact ⟨_, _, rfl, digit⟩
  | more digit _ => exact ⟨_, _, rfl, digit⟩

theorem ExponentText.readExponent {e : Option Int} (power : ExponentText e cs) (ends : Ends rest) :
    Json.readExponent (cs ++ rest) = .ok (e, rest) := by
  have stops : ∀ c, rest.head? = some c → c.isDigit = false := fun c is => (ends c is).1
  cases power with
  | absent =>
    simp only [Json.readExponent, List.nil_append]
    split
    all_goals
      first | rfl | exact absurd rfl (ends _ rfl).2.2.1 | exact absurd rfl (ends _ rfl).2.2.2
  | plain mark digits =>
    obtain ⟨c, ts, rfl, digit⟩ := digits.head
    have read := digits.readDigits1 stops
    have no_minus : c ≠ '-' := by rintro rfl; cases digit
    have no_plus : c ≠ '+' := by rintro rfl; cases digit
    rcases mark with rfl | rfl
    all_goals
      simp only [Json.readExponent, List.cons_append] at read ⊢
      split <;> simp_all <;> rfl
  | plus mark digits =>
    have read := digits.readDigits1 stops
    rcases mark with rfl | rfl <;> simp [Json.readExponent, read, digitsValue] <;> rfl
  | minus mark digits =>
    have read := digits.readDigits1 stops
    rcases mark with rfl | rfl <;> simp [Json.readExponent, read, digitsValue] <;> rfl

theorem FractionText.ends {e : Option Int} {es : List Char} (power : ExponentText e es)
    (ends : Ends rest) :
    ∀ c, (es ++ rest).head? = some c → c.isDigit = false ∧ c ≠ '.' := by
  intro c is
  cases power with
  | absent => exact ⟨(ends c is).1, (ends c is).2.1⟩
  | plain mark | plus mark | minus mark =>
    cases is
    rcases mark with rfl | rfl <;> exact ⟨rfl, by decide⟩

theorem UnsignedText.readNumeral {n : Numeral} (text : UnsignedText n cs) (ends : Ends rest) :
    Json.readNumeral n.isNegative (cs ++ rest) = .ok (n, rest) := by
  obtain @⟨_, whole, fraction, exponent, ws, fs, es, digits, alone, fractional, power⟩ := text
  have after := FractionText.ends power ends
  have exponents := power.readExponent ends
  have refuses : ¬(whole.head? = some 0 ∧ 1 < whole.length) :=
    fun ⟨zero, long⟩ => absurd (alone zero) (by omega)
  simp only [List.append_assoc, Json.readNumeral]
  cases fractional with
  | absent =>
    have wholes := digits.readDigits1 fun c is => (after c is).1
    simp only [List.nil_append, wholes, ok_bind, if_neg refuses]
    split
    · next point => exact absurd rfl (after '.' (by rw [point]; rfl)).2
    · simp only [pure_bind, exponents, ok_bind]
      rfl
  | @point _ cs digits' =>
    have wholes : Json.readDigits1 (ws ++ '.' :: (cs ++ (es ++ rest))) = _ :=
      digits.readDigits1 fun c is => by
        cases is
        rfl
    have fractions := digits'.readDigits1 fun c is => (after c is).1
    simp only [List.cons_append, wholes, ok_bind, if_neg refuses, fractions, exponents]
    rfl

theorem UnsignedText.head {n : Numeral} (text : UnsignedText n cs) :
    ∃ c ts, cs = c :: ts ∧ c.isDigit = true := by
  obtain ⟨digits, _, _, _⟩ := text
  obtain ⟨c, ts, rfl, digit⟩ := digits.head
  exact ⟨c, _, rfl, digit⟩

/-! ### Strings -/

theorem UnitText.readUnit {u : Nat} (text : UnitText u cs) :
    Json.readUnit (cs ++ rest) = .ok (u, rest) := by
  obtain ⟨first, second, third, fourth⟩ := text
  simp [Json.readUnit, first, second, third, fourth]

/-- A character is read, whatever writes it. -/
theorem CharText.readString {c : Char} {text : List Char} {fuel : Nat} (char : CharText c cs) :
    Json.readString (fuel + 1) (some text) (cs ++ rest) =
      Json.readString fuel (some (c :: text)) rest := by
  cases char with
  | plain printable no_quote no_escape =>
    have shown : ¬c.toNat < 0x20 := Nat.not_lt.2 printable
    simp only [List.cons_append, List.nil_append, Json.readString, Option.map_some]
    split
    case h_6 same =>
      cases same
      exact if_neg shown
    all_goals simp_all
  | @escape e _ known =>
    have no_unit : e ≠ 'u' := by
      rintro rfl
      cases known
    simp only [List.cons_append, List.nil_append, Json.readString, Option.map_some]
    split <;> simp_all
  | unit digits no_high no_low =>
    simp only [List.cons_append, Json.readString, Option.map_some, digits.readUnit, ok_bind,
      no_high, no_low, Bool.false_eq_true, if_false]
  | pair digits digits' high low =>
    simp only [List.cons_append, List.append_assoc, Json.readString, Option.map_some,
      digits.readUnit, digits'.readUnit, ok_bind, high, low, if_true]

theorem CharsText.readString {chars text : List Char} {fuel : Nat} (string : CharsText chars cs)
    (enough : cs.length < fuel) :
    Json.readString fuel (some text) (cs ++ '"' :: rest) =
      .ok (some (String.ofList (text.reverse ++ chars)), rest) := by
  induction string generalizing text fuel with
  | nil =>
    obtain ⟨fuel, rfl⟩ := Nat.exists_eq_add_of_lt enough
    simp [Json.readString]
  | @cons c cs chars ts first _ ih =>
    have some_text : cs ≠ [] := by cases first <;> exact List.cons_ne_nil _ _
    have longer := List.length_pos_iff.2 some_text
    rw [List.length_append] at enough
    obtain ⟨fuel, rfl⟩ := Nat.exists_eq_add_of_lt enough
    rw [List.append_assoc, first.readString, ih (by omega)]
    simp

theorem StringText.readText {s : String} (string : StringText s cs) (rest : List Char) :
    ∃ ts, cs = '"' :: ts ∧ Json.readText (ts ++ rest) = .ok (some s, rest) := by
  obtain @⟨cs, chars⟩ := string
  refine ⟨_, rfl, ?_⟩
  rw [List.append_assoc, Json.readText]
  have enough : cs.length < (cs ++ ('"' :: rest)).length + 1 := by
    rw [List.length_append]
    omega
  exact (chars.readString enough).trans (by simp)

/-! ### Values -/

theorem skipBlanks_of_blanks {bs : List Char} (blanks : Blanks bs)
    (visible : ∀ c, rest.head? = some c → isBlank c = false) : skipBlanks (bs ++ rest) = rest := by
  have stops : rest.dropWhile isBlank = rest := by
    cases rest with
    | nil => rfl
    | cons c rest => simp [visible c rfl]
  induction bs with
  | nil => exact stops
  | cons b bs ih =>
    have first := blanks b List.mem_cons_self
    have others : Blanks bs := fun c mem => blanks c (List.mem_cons_of_mem _ mem)
    simp only [skipBlanks, List.cons_append, List.dropWhile_cons, first, if_true] at ih ⊢
    exact ih others

theorem skipBlanks_skipBlanks (cs : List Char) : skipBlanks (skipBlanks cs) = skipBlanks cs := by
  induction cs with
  | nil => rfl
  | cons c cs ih =>
    by_cases blank : isBlank c = true <;> simp_all [skipBlanks]

theorem readValue_skipBlanks (fuel : Nat) (cs : List Char) :
    readValue fuel (skipBlanks cs) = readValue fuel cs := by
  cases fuel with
  | zero => rfl
  | succ fuel => simp only [readValue, skipBlanks_skipBlanks]

theorem readElements_skipBlanks (fuel : Nat) (read : List Json) (cs : List Char) :
    readElements fuel read (skipBlanks cs) = readElements fuel read cs := by
  cases fuel with
  | zero => rfl
  | succ fuel => simp only [readElements, readValue_skipBlanks]

theorem readFields_skipBlanks (fuel : Nat) (read : List (Option String × Json)) (cs : List Char) :
    readFields fuel read (skipBlanks cs) = readFields fuel read cs := by
  cases fuel with
  | zero => rfl
  | succ fuel => simp only [readFields, skipBlanks_skipBlanks]

/-- The first character of a value is no blank and does not close an array. -/
theorem Writes.head {x : Json} (writes : x.Writes cs) :
    ∃ c ts, cs = c :: ts ∧ isBlank c = false ∧ c ≠ ']' := by
  have of_digit {c : Char} (digit : c.isDigit = true) : isBlank c = false ∧ c ≠ ']' := by
    refine ⟨Bool.eq_false_iff.2 fun blank => ?_, fun same => ?_⟩
    · simp only [isBlank, Bool.or_eq_true, beq_iff_eq] at blank
      rcases blank with ((rfl | rfl) | rfl) | rfl <;> cases digit
    · cases same
      cases digit
  cases writes with
  | number numeral =>
    cases numeral with
    | plain _ digits =>
      obtain ⟨c, ts, rfl, digit⟩ := digits.head
      exact ⟨c, ts, rfl, of_digit digit⟩
    | minus => exact ⟨_, _, rfl, rfl, by decide⟩
  | string text =>
    cases text
    exact ⟨_, _, rfl, rfl, by decide⟩
  | _ => exact ⟨_, _, rfl, rfl, by decide⟩

theorem skipBlanks_of_writes {x : Json} {bs : List Char} (blanks : Blanks bs)
    (writes : x.Writes cs) (rest : List Char) : skipBlanks (bs ++ (cs ++ rest)) = cs ++ rest := by
  obtain ⟨c, ts, rfl, visible, _⟩ := writes.head
  refine skipBlanks_of_blanks blanks fun c is => ?_
  cases is
  exact visible

/-- A mark is no blank. -/
theorem skipBlanks_of_mark {bs : List Char} (blanks : Blanks bs) {c : Char}
    (mark : isBlank c = false) (rest : List Char) : skipBlanks (bs ++ c :: rest) = c :: rest :=
  skipBlanks_of_blanks blanks fun d is => by
    cases is
    exact mark

theorem ElementsText.sees {xs : List Json} (elements : ElementsText xs cs) (rest : List Char) :
    ∃ c ts, skipBlanks (cs ++ rest) = c :: ts ∧ c ≠ ']' := by
  cases elements with
  | last blanks value | more blanks value =>
    obtain ⟨c, ts, rfl, _, no_end⟩ := value.head
    simp only [List.append_assoc]
    exact ⟨c, _, skipBlanks_of_writes blanks value _, no_end⟩

theorem FieldsText.sees {fs : List (Option String × Json)} (fields : FieldsText fs cs)
    (rest : List Char) :
    ∃ ts, skipBlanks (cs ++ rest) = '"' :: ts := by
  cases fields with
  | last blanks named | more blanks named =>
    cases named
    simp only [List.append_assoc, List.cons_append]
    exact ⟨_, skipBlanks_of_mark blanks rfl _⟩

/-- Whatever stands after a value ends a numeral. -/
theorem ends_of_blanks {bs : List Char} (blanks : Blanks bs) (ends : Ends rest) :
    Ends (bs ++ rest) := by
  cases bs with
  | nil => exact ends
  | cons b bs =>
    intro c is
    cases is
    have blank := blanks b List.mem_cons_self
    simp only [isBlank, Bool.or_eq_true, beq_iff_eq] at blank
    rcases blank with ((rfl | rfl) | rfl) | rfl <;> exact ⟨rfl, by decide, by decide, by decide⟩

theorem ends_of_mark {c : Char} (mark : c = ',' ∨ c = ']' ∨ c = '\x7d') (rest : List Char) :
    Ends (c :: rest) := by
  intro d is
  cases is
  rcases mark with rfl | rfl | rfl <;> exact ⟨rfl, by decide, by decide, by decide⟩

/-- An unsigned numeral is told by its first digit. -/
theorem readValue_of_digit {c : Char} {cs : List Char} (digit : c.isDigit = true) (fuel : Nat)
    (sees : skipBlanks rest = c :: cs) : readValue (fuel + 1) rest = (do
      let (n, rest) ← readNumeral false (c :: cs)
      pure (.number n, rest)) := by
  simp only [readValue, sees]
  split <;> simp_all <;> rename_i same <;> cases same.1 <;> cases digit

end

theorem readElements_last {x : Json} {rest cs after : List Char} {fuel : Nat} {read : List Json}
    (value : Json.readValue fuel cs = .ok (x, after ++ ']' :: rest)) (blanks : Blanks after) :
    Json.readElements (fuel + 1) read cs = .ok (.array (read.reverse ++ [x]), rest) := by
  simp only [Json.readElements, value, ok_bind, skipBlanks_of_mark blanks (c := ']') rfl,
    List.reverse_cons]
  rfl

theorem readElements_more {x : Json} {rest cs after : List Char} {fuel : Nat} {read : List Json}
    (value : Json.readValue fuel cs = .ok (x, after ++ ',' :: rest)) (blanks : Blanks after) :
    Json.readElements (fuel + 1) read cs = Json.readElements fuel (x :: read) rest := by
  simp only [Json.readElements, value, ok_bind, skipBlanks_of_mark blanks (c := ',') rfl]

/-- A name and what follows the colon. -/
theorem readFields_named {name : String} {bs ns between cs : List Char} {fuel : Nat}
    {read : List (Option String × Json)} (blanks : Blanks bs) (named : StringText name ns)
    (blanks' : Blanks between) :
    Json.readFields (fuel + 1) read (bs ++ (ns ++ (between ++ ':' :: cs))) = (do
      let (value, rest) ← Json.readValue fuel cs
      match skipBlanks rest with
      | ',' :: rest => Json.readFields fuel ((some name, value) :: read) rest
      | '\x7d' :: rest => pure (.object ((some name, value) :: read).reverse, rest)
      | [] => .error .truncated
      | _ :: _ => .error .malformed) := by
  obtain ⟨ts, rfl, text⟩ := named.readText (between ++ ':' :: cs)
  have sees := skipBlanks_of_mark blanks (c := '"') rfl (ts ++ (between ++ ':' :: cs))
  rw [List.cons_append]
  simp only [Json.readFields, sees, text, ok_bind, skipBlanks_of_mark blanks' (c := ':') rfl]
  -- The two matches on what follows are alike, but need not be the same one.
  all_goals rfl

mutual

/-- Whatever writes a value is read as that value, behind blanks. -/
theorem Writes.readValue {x : Json} {bs cs rest : List Char} (fuel : Nat) :
    x.Writes cs → Blanks bs → Ends rest → 2 * cs.length ≤ fuel →
      Json.readValue fuel (bs ++ (cs ++ rest)) = .ok (x, rest) := by
  intro writes blanks ends enough
  have sees := skipBlanks_of_writes blanks writes rest
  obtain ⟨_, _, long, _⟩ := writes.head
  obtain ⟨fuel, rfl⟩ : ∃ n, fuel = n + 1 :=
    ⟨fuel - 1, by rw [long, List.length_cons] at enough; omega⟩
  match writes with
  | .null | .yes | .no =>
    simp only [Json.readValue, sees]
    rfl
  | .number (.plain sign digits) =>
    obtain ⟨c, ts, rfl, digit⟩ := digits.head
    have read := digits.readNumeral ends
    rw [sign] at read
    rw [readValue_of_digit digit fuel sees]
    exact congrArg (· >>= _) read
  | .number (.minus sign digits) =>
    have read := digits.readNumeral ends
    rw [sign] at read
    simp only [Json.readValue, sees]
    exact congrArg (· >>= _) read
  | .string text =>
    obtain ⟨ts, rfl, read⟩ := text.readText rest
    simp only [Json.readValue, sees]
    exact congrArg (· >>= _) read
  | .emptyArray inner =>
    have closes := skipBlanks_of_mark inner (c := ']') rfl rest
    rw [Json.readValue, sees]
    simp only [List.cons_append, List.append_assoc, List.nil_append, closes]
  | .array elements =>
    simp only [List.length_cons, List.length_append, List.length_nil] at enough
    obtain ⟨c, ts, first, no_end⟩ := elements.sees (']' :: rest)
    have read := elements.readElements fuel [] rest (by omega)
    rw [← readElements_skipBlanks, first] at read
    rw [Json.readValue, sees]
    simp only [List.cons_append, List.append_assoc, List.nil_append, first]
    split
    · next same => exact absurd (List.cons.inj same).1 no_end
    · exact read
  | .emptyObject inner =>
    have closes := skipBlanks_of_mark inner (c := '\x7d') rfl rest
    rw [Json.readValue, sees]
    simp only [List.cons_append, List.append_assoc, List.nil_append, closes]
  | .object fields =>
    simp only [List.length_cons, List.length_append, List.length_nil] at enough
    obtain ⟨ts, first⟩ := fields.sees ('\x7d' :: rest)
    have read := fields.readFields fuel [] rest (by omega)
    rw [← readFields_skipBlanks, first] at read
    rw [Json.readValue, sees]
    simp only [List.cons_append, List.append_assoc, List.nil_append, first]
    exact read

theorem ElementsText.readElements {xs : List Json} {cs : List Char} (fuel : Nat)
    (read : List Json) (rest : List Char) : ElementsText xs cs → 2 * cs.length + 1 ≤ fuel →
      Json.readElements fuel read (cs ++ ']' :: rest) =
        .ok (.array (read.reverse ++ xs), rest) := by
  intro elements enough
  obtain ⟨fuel, rfl⟩ : ∃ n, fuel = n + 1 := ⟨fuel - 1, by omega⟩
  match elements with
  | .last blanks value blanks' =>
    simp only [List.length_append] at enough
    have ends := ends_of_blanks blanks' (ends_of_mark (.inr (.inl rfl)) rest)
    have first := value.readValue fuel blanks ends (by omega)
    rw [List.append_assoc, List.append_assoc]
    exact readElements_last first blanks'
  | @ElementsText.more _ _ _ _ _ ts blanks value blanks' others =>
    simp only [List.length_append, List.length_cons] at enough
    have ends := ends_of_blanks blanks' (ends_of_mark (.inl rfl) (ts ++ ']' :: rest))
    have first := value.readValue fuel blanks ends (by omega)
    rw [List.append_assoc, List.append_assoc, List.append_assoc]
    refine (readElements_more first blanks').trans ?_
    rw [others.readElements _ _ _ (by omega), List.reverse_cons, List.append_assoc]
    rfl

theorem FieldsText.readFields {fs : List (Option String × Json)} {cs : List Char} (fuel : Nat)
    (read : List (Option String × Json)) (rest : List Char) :
    FieldsText fs cs → 2 * cs.length + 1 ≤ fuel →
      Json.readFields fuel read (cs ++ '\x7d' :: rest) =
        .ok (.object (read.reverse ++ fs), rest) := by
  intro fields enough
  obtain ⟨fuel, rfl⟩ : ∃ n, fuel = n + 1 := ⟨fuel - 1, by omega⟩
  match fields with
  | .last blanks named blanks₁ blanks₂ value blanks' =>
    simp only [List.length_append, List.length_cons] at enough
    have ends := ends_of_blanks blanks' (ends_of_mark (.inr (.inr rfl)) rest)
    have first := value.readValue fuel blanks₂ ends (by omega)
    simp only [List.append_assoc, List.cons_append]
    rw [readFields_named blanks named blanks₁, first, ok_bind]
    simp only [skipBlanks_of_mark blanks' (c := '\x7d') rfl, List.reverse_cons]
    rfl
  | @FieldsText.more _ _ _ _ _ _ _ _ _ ts blanks named blanks₁ blanks₂ value blanks' others =>
    simp only [List.length_append, List.length_cons] at enough
    have ends := ends_of_blanks blanks' (ends_of_mark (.inl rfl) (ts ++ '\x7d' :: rest))
    have first := value.readValue fuel blanks₂ ends (by omega)
    simp only [List.append_assoc, List.cons_append]
    rw [readFields_named blanks named blanks₁, first, ok_bind]
    simp only [skipBlanks_of_mark blanks' (c := ',') rfl]
    rw [others.readFields _ _ _ (by omega), List.reverse_cons, List.append_assoc]
    rfl

end

/-- A text is read as the value that it writes. -/
theorem IsWrittenBy.parse {x : Json} {text : String} (written : x.IsWrittenBy text) :
    Json.parse text = .ok x := by
  obtain ⟨before, cs, after, blanks, writes, blanks', same⟩ := written
  have ends : Ends after := by
    have none_left : Ends [] := nofun
    rw [← List.append_nil after]
    exact ends_of_blanks blanks' none_left
  have all : skipBlanks after = [] := by
    rw [← List.append_nil after]
    exact skipBlanks_of_blanks blanks' nofun
  have read := writes.readValue (2 * text.toList.length + 2) blanks ends
    (by rw [same]; simp only [List.length_append]; omega)
  rw [← same] at read
  simp only [Json.parse, read, ok_bind, all]
  rfl

end Json
end CallByNeed
