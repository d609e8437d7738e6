import CallByNeed.Proofs.Dumping.Numbers
import CallByNeed.Proofs.Comparison
import CallByNeed.Proofs.Reading.Runs
import CallByNeed.Proofs.Writing.Plans

/- Dumped values can be told apart by their texts. Parts of lists and dictionaries are separated by
   spaces only, so the text of a key is read from the front: it ends where a space or a bracket
   comes, unless it opens a quotation or a bracket itself. -/
namespace CallByNeed

/-! ### Texts next to each other -/

/-- Where one kind of characters ends and another kind follows, there is one way to split. -/
theorem split_unique {p : Char → Prop} {u v r s : List Char} (left : ∀ c ∈ u, p c)
    (right : ∀ c ∈ v, p c) (ends : ∀ c ∈ r.head?, ¬ p c) (ends' : ∀ c ∈ s.head?, ¬ p c)
    (same : u ++ r = v ++ s) : u = v ∧ r = s := by
  induction u generalizing v with
  | nil =>
    cases v with
    | nil => exact ⟨rfl, same⟩
    | cons d v =>
      rw [List.nil_append] at same
      subst same
      exact absurd (right d (List.mem_cons_self ..)) (ends d rfl)
  | cons c u ih =>
    cases v with
    | nil =>
      rw [List.nil_append] at same
      subst same
      exact absurd (left c (List.mem_cons_self ..)) (ends' c rfl)
    | cons d v =>
      rw [List.cons_append, List.cons_append, List.cons.injEq] at same
      rw [List.forall_mem_cons] at left right
      obtain ⟨rfl, rest⟩ := ih left.2 right.2 same.2
      exact ⟨by rw [same.1], rest⟩

namespace Text

theorem digitChar_injective {m n : Nat} (low : m < 16) (low' : n < 16)
    (same : Nat.digitChar m = Nat.digitChar n) : m = n := by
  have each : ∀ m n : Fin 16, Nat.digitChar m = Nat.digitChar n → m = n := by decide
  exact congrArg Fin.val (each ⟨m, low⟩ ⟨n, low'⟩ same)

theorem toDigits_injective {m n : Nat} (same : Nat.toDigits 16 m = Nat.toDigits 16 n) : m = n := by
  induction m using Nat.strongRecOn generalizing n with
  | ind m ih =>
    rw [Nat.toDigits_eq_if (by decide), Nat.toDigits_eq_if (n := n) (by decide)] at same
    split at same <;> split at same
    · next low low' => exact digitChar_injective low low' (List.singleton_inj.1 same)
    · have lengths := congrArg List.length same
      have some := Nat.length_toDigits_pos (b := 16) (n := n / 16)
      simp only [List.length_append, List.length_singleton] at lengths
      omega
    · have lengths := congrArg List.length same
      have some := Nat.length_toDigits_pos (b := 16) (n := m / 16)
      simp only [List.length_append, List.length_singleton] at lengths
      omega
    · obtain ⟨before, last⟩ := List.append_inj' same rfl
      have quotients := ih (m / 16) (by omega) before
      have remainders := digitChar_injective (Nat.mod_lt _ (by decide)) (Nat.mod_lt _ (by decide))
        (List.singleton_inj.1 last)
      omega

/-- Characters that have an escape of their own, with what stands for them in it. -/
def escapes : List (Char × Char) :=
  [('"', '"'), ('\\', '\\'), ('\n', 'n'), ('\r', 'r'), ('\t', 't'), ('\x00', '0')]

theorem escapes_injective : ∀ e ∈ escapes, ∀ f ∈ escapes, e.2 = f.2 → e.1 = f.1 := by decide

theorem escapes_ne_u : ∀ e ∈ escapes, e.2 ≠ 'u' := by decide

/-- How a character is written between quotes. -/
inductive Escape : Char → List Char → Prop
  | plain {c : Char} (quote : c ≠ '"') (escape : c ≠ '\\') : Escape c [c]
  | named {c x : Char} (mem : (c, x) ∈ escapes) : Escape c ['\\', x]
  | numbered {c : Char} : Escape c ('\\' :: 'u' :: '\x7b' :: (Nat.toDigits 16 c.toNat ++ ['\x7d']))

theorem escape_escapeChar (c : Char) : Escape c (escapeChar c) := by
  unfold escapeChar
  split
  iterate 6 exact .named (by decide)
  · next quote escape _ _ _ _ =>
    split
    · exact .numbered
    · exact .plain quote escape

/-- The brace that closes a number is no digit of it. -/
theorem ne_brace_of_mem_toDigits {n : Nat} {c : Char} (mem : c ∈ Nat.toDigits 16 n) : c ≠ '\x7d' := by
  have each : ∀ m : Fin 16, Nat.digitChar m ≠ '\x7d' := by decide
  induction n using Nat.strongRecOn with
  | ind n ih =>
    rw [Nat.toDigits_eq_if (by decide)] at mem
    split at mem
    · next low =>
      rw [List.mem_singleton.1 mem]
      exact each ⟨n, low⟩
    · rcases List.mem_append.1 mem with before | last
      · exact ih (n / 16) (by omega) before
      · rw [List.mem_singleton.1 last]
        exact each ⟨n % 16, Nat.mod_lt _ (by decide)⟩

/-- No written character is the start of another one. -/
theorem Escape.cancel {c d : Char} {u v r s : List Char} (left : Escape c u) (right : Escape d v)
    (same : u ++ r = v ++ s) : c = d ∧ r = s := by
  cases left with
  | plain quote escape =>
    cases right with
    | plain => exact List.cons.inj same
    | named | numbered => exact absurd (List.cons.inj same).1 escape
  | named mem =>
    cases right with
    | plain quote escape => exact absurd (List.cons.inj same).1.symm escape
    | named mem' =>
      obtain ⟨second, rest⟩ := List.cons.inj (List.cons.inj same).2
      exact ⟨escapes_injective _ mem _ mem' second, rest⟩
    | numbered => exact absurd (List.cons.inj (List.cons.inj same).2).1 (escapes_ne_u _ mem)
  | numbered =>
    cases right with
    | plain quote escape => exact absurd (List.cons.inj same).1.symm escape
    | named mem => exact absurd (List.cons.inj (List.cons.inj same).2).1.symm (escapes_ne_u _ mem)
    | numbered =>
      simp only [List.cons_append, List.append_assoc, List.cons.injEq, true_and] at same
      have ends (r : List Char) : ∀ c ∈ ([('\x7d')] ++ r).head?, ¬ c ≠ '\x7d' := by simp
      obtain ⟨digits, rest⟩ := split_unique (fun _ => ne_brace_of_mem_toDigits)
        (fun _ => ne_brace_of_mem_toDigits) (ends r) (ends s) same
      exact ⟨Char.toNat_inj.1 (toDigits_injective digits), (List.cons.inj rest).2⟩

theorem Escape.head {c : Char} {u r : List Char} (escape : Escape c u) (quoted : List Char) :
    u ++ r ≠ '"' :: quoted := by
  rintro same
  cases escape with
  | plain quote => exact quote (List.cons.inj same).1
  | named | numbered => exact absurd (List.cons.inj same).1 (by decide)

/-- A quotation ends at its closing quote. -/
theorem quoteChars_cancel {cs ds r s : List Char} (same : quoteChars cs ++ r = quoteChars ds ++ s) :
    cs = ds ∧ r = s := by
  simp only [quoteChars, List.cons_append, List.append_assoc, List.cons.injEq, true_and] at same
  induction cs generalizing ds with
  | nil =>
    cases ds with
    | nil => exact ⟨rfl, (List.cons.inj same).2⟩
    | cons d ds =>
      rw [List.flatMap_cons, List.append_assoc] at same
      exact absurd same.symm ((escape_escapeChar d).head _)
  | cons c cs ih =>
    rw [List.flatMap_cons, List.append_assoc] at same
    cases ds with
    | nil => exact absurd same ((escape_escapeChar c).head _)
    | cons d ds =>
      rw [List.flatMap_cons, List.append_assoc] at same
      obtain ⟨rfl, others⟩ := (escape_escapeChar c).cancel (escape_escapeChar d) same
      obtain ⟨rfl, rest⟩ := ih others
      exact ⟨rfl, rest⟩

end Text

/-! ### Texts of keys -/

namespace Key

/-- The text is over, or something comes that ends every part. -/
def Ends (r : List Char) : Prop := ∀ c ∈ r.head?, c = ' ' ∨ c = ']' ∨ c = '\x7d'

/-- Characters of numbers and truth values. -/
inductive PlainChar : Char → Prop
  | numeral {c : Char} (numeral : Number.NumeralChar c) : PlainChar c
  | letter {c : Char} (mem : c ∈ "truefalse".toList) : PlainChar c

theorem PlainChar.ne {c : Char} (plain : PlainChar c) : c ∉ [' ', ']', '\x7d', '"', '[', '\x7b'] := by
  intro special
  cases plain with
  | numeral numeral =>
    cases numeral with
    | digit digit => fin_cases special <;> exact absurd digit (by decide)
    | other mem => fin_cases special <;> exact absurd mem (by decide)
  | letter mem => fin_cases special <;> exact absurd mem (by decide)

theorem Ends.not_plain {r : List Char} (ends : Ends r) : ∀ c ∈ r.head?, ¬ PlainChar c := by
  intro c head plain
  rcases ends c head with rfl | rfl | rfl <;> exact plain.ne (by decide)

/-- Each part with a space before it. -/
def spaced (parts : List String) : List Char := parts.flatMap fun part => ' ' :: part.toList

theorem toList_intercalate (part : String) (parts : List String) :
    (" ".intercalate (part :: parts)).toList = part.toList ++ spaced parts := by
  induction parts generalizing part with
  | nil => simp [spaced]
  | cons next parts ih =>
    rw [String.intercalate_cons_cons, String.toList_append, String.toList_append, ih]
    simp [spaced]

theorem ends_spaced (parts : List String) {c : Char} (close : c = ']' ∨ c = '\x7d') (r : List Char) :
    Ends (spaced parts ++ c :: r) := by
  intro d head
  cases parts with
  | nil =>
    cases head
    exact .inr close
  | cons part parts =>
    cases head
    exact .inl rfl

/-- What the text of a key starts with tells its kind, but for numbers and truth values. -/
def Opens : Key → Char → Prop
  | .bool _, c | .number _, c => PlainChar c
  | .string _, c => c = '"'
  | .list _, c => c = '['
  | .dict _, c => c = '\x7b'

theorem plain_of_bool (b : Bool) : ∀ c ∈ (Key.bool b).dump.toList, PlainChar c := by
  intro c mem
  refine .letter ?_
  cases b <;> fin_cases mem <;> decide

theorem plain_of_number (x : Number) : ∀ c ∈ (Key.number x).dump.toList, PlainChar c :=
  fun c mem => .numeral ((Number.chars_of_text x).2 c mem)

theorem opens_dump (k : Key) : ∃ c cs, k.dump.toList = c :: cs ∧ k.Opens c := by
  cases k with
  | bool b =>
    have plain := plain_of_bool b
    cases b <;> exact ⟨_, _, rfl, plain _ (List.mem_cons_self ..)⟩
  | number x =>
    obtain ⟨c, cs, text⟩ := List.exists_cons_of_ne_nil (Number.chars_of_text x).1
    exact ⟨c, cs, text, plain_of_number x c (by rw [dump, text]; exact List.mem_cons_self ..)⟩
  | string s => exact ⟨_, _, String.toList_ofList, rfl⟩
  | list ks => exact ⟨'[', _, by simp [dump]; rfl, rfl⟩
  | dict es => exact ⟨'\x7b', _, by simp [dump]; rfl, rfl⟩

theorem Opens.not_close {k : Key} {c : Char} (opens : k.Opens c) : c ≠ ']' ∧ c ≠ '\x7d' := by
  cases k with
  | bool | number => constructor <;> rintro rfl <;> exact PlainChar.ne opens (by decide)
  | string | list | dict =>
    cases opens
    decide

/-- Texts of two keys start alike only if both keys are open to it. -/
theorem opens_of_dump {k l : Key} {r s : List Char}
    (same : k.dump.toList ++ r = l.dump.toList ++ s) : ∃ c, k.Opens c ∧ l.Opens c := by
  obtain ⟨c, cs, text, opens⟩ := opens_dump k
  obtain ⟨d, ds, text', opens'⟩ := opens_dump l
  rw [text, text'] at same
  obtain ⟨rfl, _⟩ := List.cons.inj same
  exact ⟨c, opens, opens'⟩

theorem bool_dump_ne_text (b : Bool) (x : Number) : (Key.bool b).dump ≠ x.text := by
  intro same
  have numeral := (Number.chars_of_text x).2
  rw [← same] at numeral
  have letter : ∀ c, c = 'l' ∨ c = 't' → ¬ Number.NumeralChar c := by
    rintro c (rfl | rfl) (digit | mem)
    · exact absurd digit (by decide)
    · exact absurd mem (by decide)
    · exact absurd digit (by decide)
    · exact absurd mem (by decide)
  cases b with
  | false => exact letter 'l' (.inl rfl) (numeral 'l' (by decide))
  | true => exact letter 't' (.inr rfl) (numeral 't' (by decide))

theorem dumpAll_eq_map (ks : List Key) : dumpAll ks = ks.map dump := by
  induction ks with
  | nil => rfl
  | cons k ks ih => rw [dumpAll, ih, List.map_cons]

theorem exists_dump_of_mem_dumpEntries {es : List (Key × Key)} {part : String}
    (mem : part ∈ dumpEntries es) : ∃ k : Key, part = k.dump := by
  induction es with
  | nil => cases mem
  | cons e es ih =>
    obtain ⟨k, x⟩ := e
    rw [dumpEntries] at mem
    rcases List.mem_cons.1 mem with rfl | mem
    · exact ⟨k, rfl⟩
    · rcases List.mem_cons.1 mem with rfl | later
      · exact ⟨x, rfl⟩
      · exact ih later

/-- Between brackets, too, each part may be given a space before it. -/
theorem spaced_of_intercalate {parts parts' : List String} {close : Char} {r s : List Char}
    (brackets : close = ']' ∨ close = '\x7d') (dumped : ∀ part ∈ parts, ∃ k : Key, part = k.dump)
    (dumped' : ∀ part ∈ parts', ∃ k : Key, part = k.dump)
    (same : (" ".intercalate parts).toList ++ close :: r =
      (" ".intercalate parts').toList ++ close :: s) :
    spaced parts ++ close :: r = spaced parts' ++ close :: s := by
  have opened (k : Key) (u v : List Char) : k.dump.toList ++ u ≠ close :: v := by
    obtain ⟨c, cs, text, opens⟩ := opens_dump k
    rw [text]
    intro same
    obtain ⟨rfl, _⟩ := List.cons.inj same
    rcases brackets with rfl | rfl
    · exact opens.not_close.1 rfl
    · exact opens.not_close.2 rfl
  cases parts with
  | nil =>
    cases parts' with
    | nil => exact same
    | cons part' parts' =>
      obtain ⟨k, rfl⟩ := dumped' _ (List.mem_cons_self ..)
      rw [toList_intercalate, List.append_assoc] at same
      exact absurd same.symm (opened k _ _)
  | cons part parts =>
    cases parts' with
    | nil =>
      obtain ⟨k, rfl⟩ := dumped _ (List.mem_cons_self ..)
      rw [toList_intercalate, List.append_assoc] at same
      exact absurd same (opened k _ _)
    | cons part' parts' =>
      rw [toList_intercalate, toList_intercalate] at same
      simp only [spaced, List.flatMap_cons, List.cons_append, List.cons.injEq, true_and] at same ⊢
      exact same

/-- Texts of numbers and truth values end where no such character comes. -/
theorem same_of_plain {k l : Key} {r s : List Char} (left : ∀ c ∈ k.dump.toList, PlainChar c)
    (right : ∀ c ∈ l.dump.toList, PlainChar c) (ends : Ends r) (ends' : Ends s)
    (same : k.dump.toList ++ r = l.dump.toList ++ s) : k.dump = l.dump ∧ r = s := by
  obtain ⟨texts, rest⟩ := split_unique left right ends.not_plain ends'.not_plain same
  exact ⟨String.toList_inj.1 texts, rest⟩

mutual
/-- The text of a key says which key it is and where it ends, whatever comes behind it. -/
theorem same_of_dump : ∀ {k l : Key} {r s : List Char}, Ends r → Ends s →
    k.dump.toList ++ r = l.dump.toList ++ s → k.same l = true ∧ r = s
  | .bool a, l, r, s, ends, ends' => by
    intro same
    cases l with
    | bool b =>
      obtain ⟨texts, rest⟩ := same_of_plain (plain_of_bool a) (plain_of_bool b) ends ends' same
      refine ⟨?_, rest⟩
      cases a <;> cases b <;> first | rfl | exact absurd texts (by decide)
    | number y =>
      obtain ⟨texts, _⟩ := same_of_plain (plain_of_bool a) (plain_of_number y) ends ends' same
      exact absurd texts (bool_dump_ne_text a y)
    | _ =>
      obtain ⟨c, plain, rfl⟩ := opens_of_dump same
      exact absurd (by decide) (PlainChar.ne plain)
  | .number x, l, r, s, ends, ends' => by
    intro same
    cases l with
    | bool b =>
      obtain ⟨texts, _⟩ := same_of_plain (plain_of_number x) (plain_of_bool b) ends ends' same
      exact absurd texts.symm (bool_dump_ne_text b x)
    | number y =>
      obtain ⟨texts, rest⟩ := same_of_plain (plain_of_number x) (plain_of_number y) ends ends' same
      exact ⟨Number.same_of_text texts, rest⟩
    | _ =>
      obtain ⟨c, plain, rfl⟩ := opens_of_dump same
      exact absurd (by decide) (PlainChar.ne plain)
  | .string a, l, r, s, ends, ends' => by
    intro same
    cases l with
    | string b =>
      simp only [dump, Text.quote, String.toList_ofList] at same
      obtain ⟨chars, rest⟩ := Text.quoteChars_cancel same
      exact ⟨beq_iff_eq.2 (String.toList_inj.1 chars), rest⟩
    | bool | number =>
      obtain ⟨c, rfl, plain⟩ := opens_of_dump same
      exact absurd (by decide) (PlainChar.ne plain)
    | list | dict =>
      obtain ⟨c, rfl, other⟩ := opens_of_dump same
      simp [Opens] at other
  | .list ks, l, r, s, ends, ends' => by
    intro same
    cases l with
    | list ls =>
      have inner : (" ".intercalate (dumpAll ks)).toList ++ ']' :: r =
          (" ".intercalate (dumpAll ls)).toList ++ ']' :: s := by
        simpa [dump] using same
      have dumped (ks : List Key) : ∀ part ∈ dumpAll ks, ∃ k : Key, part = k.dump := by
        intro part mem
        rw [dumpAll_eq_map] at mem
        obtain ⟨k, _, rfl⟩ := List.mem_map.1 mem
        exact ⟨k, rfl⟩
      exact sameLists_of_dumpAll (spaced_of_intercalate (.inl rfl) (dumped ks) (dumped ls) inner)
    | bool | number =>
      obtain ⟨c, rfl, plain⟩ := opens_of_dump same
      exact absurd (by decide) (PlainChar.ne plain)
    | string | dict =>
      obtain ⟨c, rfl, other⟩ := opens_of_dump same
      simp [Opens] at other
  | .dict es, l, r, s, ends, ends' => by
    intro same
    cases l with
    | dict fs =>
      have inner : (" ".intercalate (dumpEntries es)).toList ++ '\x7d' :: r =
          (" ".intercalate (dumpEntries fs)).toList ++ '\x7d' :: s := by
        simpa [dump] using same
      exact sameEntries_of_dumpEntries (spaced_of_intercalate (.inr rfl)
        (fun _ => exists_dump_of_mem_dumpEntries) (fun _ => exists_dump_of_mem_dumpEntries) inner)
    | bool | number =>
      obtain ⟨c, rfl, plain⟩ := opens_of_dump same
      exact absurd (by decide) (PlainChar.ne plain)
    | string | list =>
      obtain ⟨c, rfl, other⟩ := opens_of_dump same
      simp [Opens] at other

theorem sameLists_of_dumpAll : ∀ {ks ls : List Key} {r s : List Char},
    spaced (dumpAll ks) ++ ']' :: r = spaced (dumpAll ls) ++ ']' :: s →
      sameLists ks ls = true ∧ r = s
  | [], [], _, _, same => ⟨rfl, (List.cons.inj same).2⟩
  | [], _ :: _, _, _, same => absurd (List.cons.inj same).1 (by decide)
  | _ :: _, [], _, _, same => absurd (List.cons.inj same).1 (by decide)
  | k :: ks, l :: ls, r, s, same => by
    simp only [dumpAll, spaced, List.flatMap_cons, List.cons_append, List.append_assoc,
      List.cons.injEq, true_and] at same
    obtain ⟨first, rest⟩ :=
      same_of_dump (ends_spaced _ (.inl rfl) r) (ends_spaced _ (.inl rfl) s) same
    obtain ⟨others, rest⟩ := sameLists_of_dumpAll rest
    exact ⟨by rw [sameLists, first, others]; rfl, rest⟩

theorem sameEntries_of_dumpEntries : ∀ {es fs : List (Key × Key)} {r s : List Char},
    spaced (dumpEntries es) ++ '\x7d' :: r = spaced (dumpEntries fs) ++ '\x7d' :: s →
      sameEntries es fs = true ∧ r = s
  | [], [], _, _, same => ⟨rfl, (List.cons.inj same).2⟩
  | [], _ :: _, _, _, same => absurd (List.cons.inj same).1 (by decide)
  | _ :: _, [], _, _, same => absurd (List.cons.inj same).1 (by decide)
  | (k, x) :: es, (l, y) :: fs, r, s, same => by
    simp only [dumpEntries, spaced, List.flatMap_cons, List.cons_append, List.append_assoc,
      List.cons.injEq, true_and] at same
    have space (r : List Char) : Ends (' ' :: r) := fun _ head => .inl (Option.some.inj head).symm
    obtain ⟨keys, values⟩ := same_of_dump (space _) (space _) same
    obtain ⟨values, rest⟩ := same_of_dump (ends_spaced _ (.inr rfl) r)
      (ends_spaced _ (.inr rfl) s) (List.cons.inj values).2
    obtain ⟨others, rest⟩ := sameEntries_of_dumpEntries rest
    exact ⟨by rw [sameEntries, keys, values, others]; rfl, rest⟩
end

end Key

/-! ### Texts of values -/

section
variable {h : Heap}

mutual
/-- To dump a tree is to dump its key. -/
theorem Heap.Tree.reads_dump : ∀ {v : Value} {k : Key}, h.Tree v k → ∀ {n : Nat}, k.size ≤ n →
    (v.dump n).Reads h (.ok k.dump)
  | _, k, _, 0, enough => absurd enough (Nat.not_le.2 k.size_pos)
  | _, _, .bool b, n + 1, _ => .done
  | _, _, .number x, n + 1, _ => .done
  | _, _, .string s, n + 1, _ => .done
  | _, _, @Tree.list _ l ks elements, n + 1, enough => by
    have enough := Nat.le_of_succ_le_succ enough
    have long := Nat.lt_of_lt_of_le (Key.length_lt_sizes ks) enough
    refine (elements.reads_dump enough long []).bind ?_
    rw [List.append_nil, List.reverse_reverse]
    exact .done
  | _, _, .dict entries, n + 1, enough =>
    (entries.reads_dump (Nat.le_of_succ_le_succ enough)).bind .done

theorem Heap.Trees.reads_dump : ∀ {l : LazyList} {ks : List Key}, h.Trees l ks →
    ∀ {n bound : Nat}, Key.sizes ks ≤ n → ks.length < bound → ∀ parts : List String,
      (l.walk (fun parts r => do
        let part ← Value.dumpWith (Value.text n) (← force r)
        pure (.yield (part :: parts))) bound parts).Reads h
          (.ok ((Key.dumpAll ks).reverse ++ parts))
  | _, _, _, _, 0, _, long, _ => absurd long (Nat.not_lt_zero _)
  | _, _, .nil, _, bound + 1, _, _, parts => .done
  | _, _, @Trees.cons _ _ _ _ k _ ks yields tree known elements, n, bound + 1, enough, long,
      parts => by
    simp only [Key.sizes] at enough
    simp only [List.length_cons] at long
    have part := tree.reads_dump (n := n) (by omega)
    have others := elements.reads_dump (n := n) (Nat.le_trans (by omega) enough)
      (Nat.lt_of_succ_lt_succ long) (k.dump :: parts)
    rw [Key.dumpAll, List.reverse_cons, List.append_assoc]
    have visit := (Script.reads_force yields tree.isOrdered).bind (f := fun v => do
      let part ← Value.dumpWith (Value.text n) v
      pure (ForInStep.yield (part :: parts))) (part.bind .done)
    exact visit.bind ((Script.reads_forceList known).bind others)

theorem Heap.Entries.reads_dump : ∀ {rs : List (Key × Ref)} {es : List (Key × Key)},
    h.Entries rs es → ∀ {n : Nat}, Key.entrySizes es ≤ n →
      (Value.dumpEntries (Value.dumpWith (Value.text n)) rs).Reads h (.ok (Key.dumpEntries es))
  | _, _, .nil, _, _ => .done
  | _, _, .cons yields tree entries, n, enough => by
    simp only [Key.entrySizes] at enough
    have part := tree.reads_dump (n := n) (by omega)
    have others := entries.reads_dump (n := n) (by omega)
    exact (Script.reads_force yields tree.isOrdered).bind (part.bind (others.bind .done))
end

/-- Whenever a tree has been dumped, the text was that of its key. -/
theorem Heap.Tree.dump_of_leaves {v : Value} {k : Key} (tree : h.Tree v k) {bound : Nat} {E : Engine}
    {s s' : Store} {w w' : World} {o : Except Fault String}
    (ran : (v.dump bound).Leaves E s w o s' w') (before : s'.heap.Before h) : o = .ok k.dump := by
  have reader : (v.dump bound).IsReader := Value.isReader_dumpWith (Value.isReader_text bound) v
  have reads := (reader.reads_of_leaves ran).2.before before
  have more := reads.of_alike (Value.alike_dump (.inr ⟨trivial, Nat.le_max_left bound k.size⟩)
    (Value.like_refl Manner.exact_admits v))
  exact more.unique (tree.reads_dump (Nat.le_max_right bound k.size))

end

/-- If two values have keys and dumps of them come to one text, the values are equal: with a large
    enough bound the comparison comes to true in any store in which the keys have been made, and any
    comparison that has come to an end on the way there has come to true. Dumps themselves come to
    the texts of the keys. -/
theorem dump_is_unambiguous {a b : Value} {k l : Key} {m n : Nat} {E E' : Engine}
    {s s' t t' : Store} {w w' u u' : World}
    (left : (Key.ofValue m a).Leaves E s w (.ok k) s' w')
    (right : (Key.ofValue n b).Leaves E' t u (.ok l) t' u') {x : Store}
    (left_made : s'.heap.Before x.heap) (right_made : t'.heap.Before x.heap) :
    (∀ (F : Engine) (world : World) (bound : Nat), k.size ≤ bound → l.size ≤ bound →
      (a.dump bound).Leaves F x world (.ok k.dump) x world ∧
      (b.dump bound).Leaves F x world (.ok l.dump) x world) ∧
    ∀ {F F' : Engine} {y y' z z' : Store} {v v' q q' : World} {bound bound' : Nat} {text : String},
      (a.dump bound).Leaves F y v (.ok text) y' v' → y'.heap.Before x.heap →
      (b.dump bound').Leaves F' z q (.ok text) z' q' → z'.heap.Before x.heap →
      (∀ (G : Engine) (world : World) (bound : Nat), k.size ≤ bound →
        (Value.equal bound a b).Leaves G x world (.ok true) x world) ∧
      ∀ {G : Engine} {y y' : Store} {v v' : World} {bound : Nat} {e : Except Fault Bool},
        (Value.equal bound a b).Leaves G y v e y' v' → y'.heap.Before x.heap → e = .ok true := by
  have left := (Key.tree_of_leaves left).before left_made
  have right := (Key.tree_of_leaves right).before right_made
  constructor
  · intro F world bound enough enough'
    exact ⟨(left.reads_dump enough).leaves, (right.reads_dump enough').leaves⟩
  · intro F F' y y' z z' v v' q q' bound bound' text dumped before dumped' before'
    have text_left := left.dump_of_leaves dumped before
    have text_right := right.dump_of_leaves dumped' before'
    have texts : k.dump.toList ++ [] = l.dump.toList ++ [] := by
      rw [← Except.ok.inj text_left, ← Except.ok.inj text_right]
    have ended : Key.Ends [] := fun c head => by cases head
    have same : k.same l = true := (Key.same_of_dump ended ended texts).1
    rw [← same]
    constructor
    · exact fun G world bound enough => (left.reads_equal right enough).leaves
    · exact fun ran before => left.equal_of_leaves right ran before

/-- Two lists of a NaN and a text with a quote in it; the NaN have different bits. -/
def dumpedStore : Store where
  heap := { cells := #[.ofValue (.number .nan), .ofValue (.number ⟨0x7FF8000000000001⟩),
    .ofValue (.list (.cons ⟨3⟩ ⟨4⟩)), .ofValue (.string "] \""), .ofValue (.list .nil)] }

/-- Both lists are dumped to one text, and they are equal. -/
theorem dump_is_unambiguous_of_nan :
    let a : Value := .list (.cons ⟨0⟩ ⟨2⟩)
    let b : Value := .list (.cons ⟨1⟩ ⟨2⟩)
    let k : Key := .list [.number .nan, .string "] \""]
    let l : Key := .list [.number ⟨0x7FF8000000000001⟩, .string "] \""]
    (Key.ofValue 4 a).Leaves { bound := 4 } dumpedStore {} (.ok k) dumpedStore {} ∧
      (Key.ofValue 4 b).Leaves { bound := 4 } dumpedStore {} (.ok l) dumpedStore {} ∧
      (a.dump 6).Leaves { bound := 6 } dumpedStore {} (.ok k.dump) dumpedStore {} ∧
      (b.dump 6).Leaves { bound := 6 } dumpedStore {} (.ok k.dump) dumpedStore {} ∧
      (Value.equal 6 a b).Leaves { bound := 6 } dumpedStore {} (.ok true) dumpedStore {} := by
  intro a b k l
  have left : (Key.ofValue 4 a).Leaves { bound := 4 } dumpedStore {} (.ok k) dumpedStore {} :=
    ⟨30, rfl⟩
  have right : (Key.ofValue 4 b).Leaves { bound := 4 } dumpedStore {} (.ok l) dumpedStore {} :=
    ⟨30, rfl⟩
  have unambiguous := dump_is_unambiguous left right (Heap.before_refl _) (Heap.before_refl _)
  have text : l.dump = k.dump := by
    have nan (x : Number) (number : x.isNaN = true) : x.text = "NaN" := if_pos number
    simp only [k, l, Key.dump, Key.dumpAll, nan .nan (by decide),
      nan ⟨0x7FF8000000000001⟩ (by decide)]
  obtain ⟨dumped, dumped'⟩ := unambiguous.1 { bound := 6 } {} 6 (by decide) (by decide)
  rw [text] at dumped'
  obtain ⟨equal, _⟩ := unambiguous.2 dumped (Heap.before_refl _) dumped' (Heap.before_refl _)
  exact ⟨left, right, dumped, dumped', equal { bound := 6 } {} 6 (by decide)⟩

end CallByNeed
