import CallByNeed.Number.OfDecimal

/- JSON texts. Reading keeps what a later use has to judge: numerals as digits, repeated fields in
   order, and strings whose escapes name half a surrogate pair. -/
namespace CallByNeed

namespace Json

/-- Why a text is not what it should be. -/
inductive Flaw where
  /-- The text ends too early. -/
  | truncated
  | malformed
  /-- Well-formed, but of the wrong shape. -/
  | mismatched
  deriving DecidableEq, Repr

/-- A number as it is written: digits before and after the point, and a power of ten. -/
structure Numeral where
  isNegative : Bool
  whole : List Nat
  fraction : List Nat := []
  exponent : Option Int := none
  deriving DecidableEq, Repr

end Json

inductive Json where
  | null
  | bool (b : Bool)
  | number (n : Json.Numeral)
  /-- None if the escapes do not make up a text. -/
  | string (s : Option String)
  | array (elements : List Json)
  | object (fields : List (Option String × Json))

namespace Json

namespace Numeral

def maxSignificand : Nat := 0xFFFFFFFFFFFFFFFF

/-- Takes digits while they fit a significand of 64 bits; the others are left. -/
def takeDigits (significand : Nat) : List Nat → Nat × List Nat
  | [] => (significand, [])
  | d :: ds =>
    let next := significand * 10 + d
    if next ≤ maxSignificand then takeDigits next ds else (significand, d :: ds)

/-- Significand and power of ten. Digits that do not fit only count for the power. -/
def parts (n : Numeral) : Nat × Int :=
  let (significand, left) := takeDigits 0 n.whole
  let (significand, dropped) := takeDigits significand n.fraction
  (significand, (n.exponent.getD 0) + left.length - (n.fraction.length - dropped.length : Nat))

/-- None when it is out of range. -/
def toNumber? (n : Numeral) : Option Number :=
  Number.ofDecimal? n.isNegative n.parts.1 n.parts.2

/-- The value of a plain numeral without sign, point and exponent, up to 64 bits. -/
def toNat? (n : Numeral) : Option Nat :=
  if n.isNegative || !n.fraction.isEmpty || n.exponent.isSome then none
  else
    let value := n.whole.foldl (fun value d => value * 10 + d) 0
    if value ≤ maxSignificand then some value else none

end Numeral

/- Reading. Each function answers what it read and the characters after it. -/

abbrev Read (α : Type) := List Char → Except Flaw (α × List Char)

def isBlank (c : Char) : Bool := c == ' ' || c == '\n' || c == '\t' || c == '\r'

def skipBlanks (cs : List Char) : List Char := cs.dropWhile isBlank

def digitValue (c : Char) : Nat := c.toNat - '0'.toNat

def readDigits (cs : List Char) : List Nat × List Char :=
  ((cs.takeWhile Char.isDigit).map digitValue, cs.dropWhile Char.isDigit)

/-- At least one digit. -/
def readDigits1 : Read (List Nat) := fun cs =>
  match readDigits cs with
  | ([], []) => .error .truncated
  | ([], _ :: _) => .error .malformed
  | (digits, rest) => .ok (digits, rest)

def readExponent (cs : List Char) : Except Flaw (Option Int × List Char) := do
  let power (negative : Bool) (cs : List Char) : Except Flaw (Option Int × List Char) := do
    let (digits, rest) ← readDigits1 cs
    let e : Int := (digits.foldl (fun value d => value * 10 + d) 0 : Nat)
    pure (some (if negative then -e else e), rest)
  match cs with
  | 'e' :: '-' :: rest | 'E' :: '-' :: rest => power true rest
  | 'e' :: '+' :: rest | 'E' :: '+' :: rest => power false rest
  | 'e' :: rest | 'E' :: rest => power false rest
  | rest => pure (none, rest)

/-- No zero before another digit; digits on both sides of a point. -/
def readNumeral (isNegative : Bool) : Read Numeral := fun cs => do
  let (whole, rest) ← readDigits1 cs
  if whole.head? = some 0 ∧ 1 < whole.length then .error .malformed
  else
    let (fraction, rest) ← match rest with
      | '.' :: rest => readDigits1 rest
      | rest => pure ([], rest)
    let (exponent, rest) ← readExponent rest
    pure ({ isNegative, whole, fraction, exponent }, rest)

def hexValue? (c : Char) : Option Nat :=
  if c.isDigit then some (c.toNat - '0'.toNat)
  else if 'a' ≤ c ∧ c ≤ 'f' then some (c.toNat - 'a'.toNat + 10)
  else if 'A' ≤ c ∧ c ≤ 'F' then some (c.toNat - 'A'.toNat + 10)
  else none

/-- Four hexadecimal digits. -/
def readUnit : Read Nat
  | a :: b :: c :: d :: rest =>
    match hexValue? a, hexValue? b, hexValue? c, hexValue? d with
    | some a, some b, some c, some d => .ok (((a * 16 + b) * 16 + c) * 16 + d, rest)
    | _, _, _, _ => .error .malformed
  | cs => .error (if (String.ofList cs).utf8ByteSize < 4 then .truncated else .malformed)

def isHighSurrogate (u : Nat) : Bool := 0xD800 ≤ u && u < 0xDC00

def isLowSurrogate (u : Nat) : Bool := 0xDC00 ≤ u && u < 0xE000

def escapedChar? : Char → Option Char
  | '"' => some '"'
  | '\\' => some '\\'
  | '/' => some '/'
  | 'b' => some '\x08'
  | 'f' => some '\x0c'
  | 'n' => some '\n'
  | 'r' => some '\r'
  | 't' => some '\t'
  | _ => none

/-- The rest of a string after its opening quote. `text` holds the characters so far, the last one
    first. The fuel is at least the number of characters. -/
def readString : Nat → Option (List Char) → Read (Option String)
  | 0, _, _ => .error .truncated
  | fuel + 1, text, cs =>
    let push (c : Char) : Option (List Char) := text.map (c :: ·)
    match cs with
    | [] => .error .truncated
    | '"' :: rest => .ok (text.map fun cs => String.ofList cs.reverse, rest)
    | '\\' :: 'u' :: rest => do
      let (unit, rest) ← readUnit rest
      if isHighSurrogate unit then
        match rest with
        | '\\' :: 'u' :: low =>
          let (unit', after) ← readUnit low
          if isLowSurrogate unit' then
            let c := Char.ofNat ((unit - 0xD800) * 0x400 + (unit' - 0xDC00) + 0x10000)
            readString fuel (push c) after
          else readString fuel none rest
        | rest => readString fuel none rest
      else if isLowSurrogate unit then readString fuel none rest
      else readString fuel (push (Char.ofNat unit)) rest
    | ['\\'] => .error .truncated
    | '\\' :: c :: rest =>
      match escapedChar? c with
      | some c => readString fuel (push c) rest
      | none => .error .malformed
    | c :: rest => if c.toNat < 0x20 then .error .malformed else readString fuel (push c) rest

def readText : Read (Option String) := fun cs => readString (cs.length + 1) (some []) cs

/-- The rest of a word of which the first character has been seen. -/
def readWord (value : Json) : List Char → Read Json
  | [], cs => .ok (value, cs)
  | _ :: _, [] => .error .truncated
  | w :: ws, c :: cs => if c = w then readWord value ws cs else .error .malformed

mutual
/-- A value after blanks. The fuel bounds nesting and length together. -/
def readValue : Nat → Read Json
  | 0, _ => .error .truncated
  | fuel + 1, cs =>
    match skipBlanks cs with
    | [] => .error .truncated
    | '"' :: rest => do
      let (s, rest) ← readText rest
      pure (.string s, rest)
    | '[' :: rest =>
      match skipBlanks rest with
      | ']' :: rest => .ok (.array [], rest)
      | rest => readElements fuel [] rest
    | '\x7b' :: rest =>
      match skipBlanks rest with
      | '\x7d' :: rest => .ok (.object [], rest)
      | rest => readFields fuel [] rest
    | 'n' :: rest => readWord .null ['u', 'l', 'l'] rest
    | 't' :: rest => readWord (.bool true) ['r', 'u', 'e'] rest
    | 'f' :: rest => readWord (.bool false) ['a', 'l', 's', 'e'] rest
    | '-' :: rest => do
      let (n, rest) ← readNumeral true rest
      pure (.number n, rest)
    | c :: rest =>
      if c.isDigit then do
        let (n, rest) ← readNumeral false (c :: rest)
        pure (.number n, rest)
      else .error .malformed

/-- The elements from one on; `read` holds those before it, the last one first. -/
def readElements : Nat → List Json → Read Json
  | 0, _, _ => .error .truncated
  | fuel + 1, read, cs => do
    let (element, rest) ← readValue fuel cs
    match skipBlanks rest with
    | ',' :: rest => readElements fuel (element :: read) rest
    | ']' :: rest => pure (.array (element :: read).reverse, rest)
    | [] => .error .truncated
    | _ :: _ => .error .malformed

def readFields : Nat → List (Option String × Json) → Read Json
  | 0, _, _ => .error .truncated
  | fuel + 1, read, cs =>
    match skipBlanks cs with
    | '"' :: rest => do
      let (name, rest) ← readText rest
      match skipBlanks rest with
      | ':' :: rest =>
        let (value, rest) ← readValue fuel rest
        match skipBlanks rest with
        | ',' :: rest => readFields fuel ((name, value) :: read) rest
        | '\x7d' :: rest => pure (.object ((name, value) :: read).reverse, rest)
        | [] => .error .truncated
        | _ :: _ => .error .malformed
      | [] => .error .truncated
      | _ :: _ => .error .malformed
    | [] => .error .truncated
    | _ :: _ => .error .malformed
end

/-- Reads a text that holds one value and nothing else. -/
def parse (text : String) : Except Flaw Json := do
  let cs := text.toList
  let (value, rest) ← readValue (2 * cs.length + 2) cs
  if (skipBlanks rest).isEmpty then pure value else .error .malformed

mutual
/-- Whether a value can be used: it nests at most `depth` deep, its strings are texts and its
    numbers are in range. -/
def isUsable (depth : Nat) : Json → Bool
  | .null | .bool _ => true
  | .number n => n.toNumber?.isSome
  | .string s => s.isSome
  | .array elements =>
    match depth with
    | 0 => false
    | depth + 1 => areUsable depth elements
  | .object fields =>
    match depth with
    | 0 => false
    | depth + 1 => fieldsAreUsable depth fields

def areUsable (depth : Nat) : List Json → Bool
  | [] => true
  | x :: xs => isUsable depth x && areUsable depth xs

def fieldsAreUsable (depth : Nat) : List (Option String × Json) → Bool
  | [] => true
  | (name, x) :: rest => name.isSome && isUsable depth x && fieldsAreUsable depth rest
end

end Json
end CallByNeed
