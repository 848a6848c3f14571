import Daybook.Proofs.Numeric.Shortest
import Daybook.Toml.Reader
import Daybook.Toml.Writer

/-!
# Numbers that are written and read

A whole number and a number with a point are read back from the tokens that are written for
them: such a token is no time and no date, and it is an integer only if it has no point.
-/

namespace Daybook.Toml

open Numeric

variable {c : Char} {cs ds token whole places rest : List Char} {n : ℕ} {negative : Bool}

/-- A text does not go on with a character of a token. -/
def EndsToken (rest : List Char) : Prop := ∀ c ∈ rest.head?, isTokenChar c = false

/-- The characters of a number that is written: digits and a point, after a minus sign or not. -/
structure IsNumeral (token : List Char) : Prop where
  chars : ∀ c ∈ token, c.isDigit = true ∨ c = '.' ∨ c = '-'
  sign : '-' ∉ token.tail

/-- Digits are characters of tokens. -/
theorem isTokenChar_of_isDigit (h : c.isDigit = true) : isTokenChar c = true := by
  simp [isTokenChar, Char.isAlphanum, h]

/-- All characters of a numeral are characters of tokens. -/
theorem IsNumeral.isTokenChar (h : IsNumeral token) (hc : c ∈ token) : isTokenChar c = true := by
  rcases h.chars c hc with hdigit | rfl | rfl
  · exact isTokenChar_of_isDigit hdigit
  · rfl
  · rfl

/-- The characters of a kind at the front of a text are divided from the rest. -/
theorem split_front {p : Char → Bool} (h : ∀ c ∈ cs, p c = true)
    (hrest : ∀ c ∈ rest.head?, p c = false) :
    (cs ++ rest).takeWhile p = cs ∧ (cs ++ rest).dropWhile p = rest := by
  have hnone : rest.takeWhile p = [] ∧ rest.dropWhile p = rest := by
    cases rest with
    | nil => exact ⟨rfl, rfl⟩
    | cons c rest =>
      have hc := hrest c rfl
      exact ⟨List.takeWhile_cons_of_neg (by simp [hc]), List.dropWhile_cons_of_neg (by simp [hc])⟩
  rw [List.takeWhile_append_of_pos h, List.dropWhile_append_of_pos h, hnone.1, hnone.2]
  exact ⟨List.append_nil cs, rfl⟩

/-- A numeral has no colons, and is no time. -/
theorem IsNumeral.isTime (h : IsNumeral token) : isTime token = false := by
  unfold Toml.isTime
  rw [Option.getD_eq_iff]
  refine .inr ⟨?_, rfl⟩
  cases hhour : readDigits? 2 token with
  | none => rfl
  | some found =>
    obtain ⟨hour, cs⟩ := found
    obtain ⟨ds, rfl, -⟩ := of_readDigits? hhour
    cases hmark : Text.readMark? ':' cs with
    | none => simp [hmark]
    | some rest =>
      obtain rfl := Text.of_readMark? hmark
      have hcolon := h.chars ':' (by simp)
      simp at hcolon

/-- A numeral has no hyphen between digits, and is no date. -/
theorem IsNumeral.readDate? (h : IsNumeral token) : readDate? token = none := by
  unfold Toml.readDate?
  cases hyear : readDigits? 4 token with
  | none => rfl
  | some found =>
    obtain ⟨year, cs⟩ := found
    obtain ⟨ds, rfl, hlength, -⟩ := of_readDigits? hyear
    cases hmark : Text.readMark? '-' cs with
    | none => simp [hmark]
    | some rest =>
      obtain rfl := Text.of_readMark? hmark
      obtain ⟨d, ds, rfl⟩ := List.exists_cons_of_length_eq_add_one hlength
      exact absurd (by simp) h.sign

/-- A numeral is read as an integer or else as a number with a point. -/
theorem IsNumeral.readToken? (h : IsNumeral token) (hrest : EndsToken rest) :
    readToken? (token ++ rest) = match readInteger? token with
      | some n => some (.integer n, rest)
      | none => (readFloat? token).map fun x => (.float x, rest) := by
  obtain ⟨htoken, hafter⟩ := split_front (fun c => h.isTokenChar) hrest
  have hword : ∀ word : List Char, 't' ∈ word ∨ 'f' ∈ word → (token == word) = false := by
    rintro word hword
    rw [beq_eq_false_iff_ne]
    rintro rfl
    rcases hword with hc | hc
    · simpa using h.chars 't' hc
    · simpa using h.chars 'f' hc
  unfold Toml.readToken?
  dsimp only
  rw [htoken, hafter, hword _ (by simp), hword _ (by simp), h.isTime, h.readDate?]
  rfl

/-- Digits without underscores between them are left as they are. -/
theorem ungroup?_digits (h : ∀ c ∈ cs, c.isDigit = true) (hne : cs ≠ []) :
    ungroup? Char.isDigit cs = some cs := by
  induction cs with
  | nil => exact absurd rfl hne
  | cons c cs ih =>
    obtain ⟨hc, hcs⟩ := List.forall_mem_cons.mp h
    cases cs with
    | nil => simp [ungroup?, hc]
    | cons d cs =>
      have hd : d ≠ '_' := by
        rintro rfl
        simpa using hcs '_' List.mem_cons_self
      rw [ungroup?, if_pos hc, ih hcs (by simp)]
      · rfl
      · simp
      · simpa using hd

/-- Other characters than digits and underscores belong to no integer. -/
theorem ungroup?_eq_none (hc : c ∈ cs) (hdigit : c.isDigit = false) (hmark : c ≠ '_') :
    ungroup? Char.isDigit cs = none := by
  fun_induction ungroup? Char.isDigit cs with
  | case1 => cases hc
  | case2 d hd =>
    obtain rfl := List.mem_singleton.mp hc
    simp [hdigit] at hd
  | case3 => rfl
  | case4 d cs hd ih =>
    rcases List.mem_cons.mp hc with rfl | hc
    · simp [hdigit] at hd
    · rw [ih (List.mem_of_ne_of_mem hmark hc)]
      rfl
  | case5 => rfl
  | case6 d cs _ _ hd ih =>
    rcases List.mem_cons.mp hc with rfl | hc
    · simp [hdigit] at hd
    · rw [ih hc]
      rfl
  | case7 => rfl

/-- Digits are read as a whole number if no zero leads them. -/
theorem readWhole?_digits (h : ∀ c ∈ cs, c.isDigit = true) (hne : cs ≠ [])
    (hleading : cs.head? = some '0' → cs.length = 1) : readWhole? cs = some cs := by
  unfold readWhole?
  rw [ungroup?_digits h hne]
  by_cases hzero : cs.head? = some '0'
  · simp [hleading hzero]
  · simp [hzero]

/-- Where there is no sign, the number is not negative. -/
theorem readSign_of_ne (hplus : cs.head? ≠ some '+') (hminus : cs.head? ≠ some '-') :
    Score.readSign cs = (false, cs) := by
  unfold Score.readSign
  split
  · exact absurd rfl hminus
  · exact absurd rfl hplus
  · rfl

/-- The sign before a number is read off. -/
theorem readSign_append (negative : Bool) (h : ∀ c ∈ cs.head?, c.isDigit = true) :
    Score.readSign ((if negative then ['-'] else []) ++ cs) = (negative, cs) := by
  cases negative with
  | true => rfl
  | false =>
    refine readSign_of_ne (fun hsign => ?_) fun hsign => ?_
    · simpa using h _ hsign
    · simpa using h _ hsign

/-- The digits of a number are a numeral. -/
theorem isNumeral_digits (n : ℕ) : IsNumeral (digits n) := by
  refine ⟨fun c hc => .inl (isDigit_of_mem_digits hc), fun hc => ?_⟩
  simpa using isDigit_of_mem_digits (List.mem_of_mem_tail hc)

/-- A token is read as an integer in base ten unless it begins with a zero and a letter. -/
theorem IsNumeral.readInteger? (h : IsNumeral token) :
    readInteger? token = (let (negative, cs) := Score.readSign token
      (readWhole? cs).bind fun ds => checked? negative (ofDigits ds)) := by
  have hletter : ∀ c ∈ ['x', 'o', 'b'], ∀ cs, token ≠ '0' :: c :: cs := by
    rintro c hc cs rfl
    have hchars := h.chars c (by simp)
    simp only [List.mem_cons, List.not_mem_nil, or_false] at hc
    rcases hc with rfl | rfl | rfl <;> simp at hchars
  rw [Toml.readInteger?]
  · rfl
  · exact hletter 'x' (by simp)
  · exact hletter 'o' (by simp)
  · exact hletter 'b' (by simp)

/-- A number of 64 bits is read back from its digits. -/
theorem readToken?_digits (h : n < 2 ^ 63) (hrest : EndsToken rest) :
    readToken? (digits n ++ rest) = some (.integer n, rest) := by
  have hdigits : ∀ c ∈ digits n, c.isDigit = true := fun c => isDigit_of_mem_digits
  have hsign : Score.readSign (digits n) = (false, digits n) :=
    readSign_append false fun c hc => hdigits c (List.mem_of_mem_head? hc)
  have hwhole : readWhole? (digits n) = some (digits n) := by
    refine readWhole?_digits hdigits (digits_ne_nil n) fun hzero => ?_
    by_cases hn : n = 0
    · rw [hn]
      rfl
    · exact absurd hzero (head?_digits_ne_zero hn)
  have hchecked : checked? false n = some (n : ℤ) := if_pos h
  rw [(isNumeral_digits n).readToken? hrest, (isNumeral_digits n).readInteger?, hsign]
  dsimp only
  rw [hwhole, Option.bind_some, ofDigits_digits, hchecked]

variable {decimal : Decimal} {mantissa : ℕ} {exponent : ℤ}

/-- The token of a number with a point. -/
def pointed (negative : Bool) (whole places : List Char) : List Char :=
  (if negative then ['-'] else []) ++ (whole ++ '.' :: places)

/-- A decimal with a point has digits on both sides of it. -/
theorem isDigit_of_isPointed (h : decimal.IsPointed whole places) :
    (∀ c ∈ whole, c.isDigit = true) ∧ ∀ c ∈ places, c.isDigit = true :=
  ⟨fun c hc => h.isDigit c (List.mem_append_left _ hc),
    fun c hc => h.isDigit c (List.mem_append_right _ hc)⟩

/-- Its characters are digits and the point. -/
theorem isDigit_or_point (h : decimal.IsPointed whole places)
    (hc : c ∈ whole ++ '.' :: places) : c.isDigit = true ∨ c = '.' := by
  obtain ⟨hwhole, hplaces⟩ := isDigit_of_isPointed h
  simp only [List.mem_append, List.mem_cons] at hc
  rcases hc with hc | rfl | hc
  · exact .inl (hwhole c hc)
  · exact .inr rfl
  · exact .inl (hplaces c hc)

/-- A decimal with a point and a sign is a numeral. -/
theorem isNumeral_pointed (h : decimal.IsPointed whole places) :
    IsNumeral (pointed negative whole places) := by
  have hminus : '-' ∉ whole ++ '.' :: places := fun hc => by simpa using isDigit_or_point h hc
  have hchars : ∀ c ∈ whole ++ '.' :: places, c.isDigit = true ∨ c = '.' ∨ c = '-' :=
    fun c hc => (isDigit_or_point h hc).imp_right .inl
  cases negative with
  | true =>
    refine ⟨fun c hc => ?_, hminus⟩
    rcases List.mem_cons.mp hc with rfl | hc
    · exact .inr (.inr rfl)
    · exact hchars c hc
  | false => exact ⟨hchars, fun hc => hminus (List.mem_of_mem_tail hc)⟩

/-- The sign of a decimal is read off before its digits and its point. -/
theorem readSign_pointed (h : decimal.IsPointed whole places) :
    Score.readSign (pointed negative whole places) = (negative, whole ++ '.' :: places) := by
  refine readSign_append negative fun c hc => (isDigit_of_isPointed h).1 c ?_
  rw [List.head?_append_of_ne_nil _ h.whole_ne] at hc
  exact List.mem_of_mem_head? hc

/-- A number with a point is no integer. -/
theorem readInteger?_pointed (h : decimal.IsPointed whole places) :
    readInteger? (pointed negative whole places) = none := by
  have hwhole : readWhole? (whole ++ '.' :: places) = none := by
    unfold readWhole?
    rw [ungroup?_eq_none (c := '.') (by simp) rfl (by decide)]
    rfl
  rw [(isNumeral_pointed h).readInteger?, readSign_pointed h]
  dsimp only
  rw [hwhole]
  rfl

/-- The point divides the digits. -/
theorem split_at_point (h : decimal.IsPointed whole places) :
    (whole ++ '.' :: places).takeWhile (· != '.') = whole ∧
      (whole ++ '.' :: places).dropWhile (· != '.') = '.' :: places := by
  have hdigits : ∀ c ∈ whole, (c != '.') = true := by
    intro c hc
    rw [bne_iff_ne]
    rintro rfl
    simpa using (isDigit_of_isPointed h).1 '.' hc
  exact split_front hdigits (by rintro c ⟨⟩; rfl)

/-- No exponent is written. -/
theorem split_at_exponent (h : decimal.IsPointed whole places) :
    (whole ++ '.' :: places).takeWhile (fun c => !(c == 'e' || c == 'E')) =
        whole ++ '.' :: places ∧
      (whole ++ '.' :: places).dropWhile (fun c => !(c == 'e' || c == 'E')) = [] := by
  have hletter : ∀ c ∈ whole ++ '.' :: places, (!(c == 'e' || c == 'E')) = true := by
    intro c hc
    by_contra hexponent
    simp only [Bool.not_eq_true', Bool.not_eq_false, Bool.or_eq_true, beq_iff_eq] at hexponent
    rcases hexponent with rfl | rfl <;> simpa using isDigit_or_point h hc
  exact ⟨List.takeWhile_eq_self_iff.mpr hletter, List.dropWhile_eq_nil_iff.mpr hletter⟩

/-- A number with a point is read from its digits and the number of its places. -/
theorem readFloat?_pointed (h : decimal.IsPointed whole places) :
    readFloat? (pointed negative whole places) =
      (let x := BinaryFormat.double.ofDecimal negative (ofDigits (whole ++ places))
          (0 - places.length)
        if x = .infinite false then none else some x) := by
  obtain ⟨hwhole, hplaces⟩ := isDigit_of_isPointed h
  have hword : ∀ word : List Char, 'n' ∈ word → (whole ++ '.' :: places == word) = false := by
    rintro word hn
    rw [beq_eq_false_iff_ne]
    rintro rfl
    simpa using isDigit_or_point h hn
  unfold readFloat?
  rw [readSign_pointed h]
  dsimp only
  rw [hword _ (by simp), hword _ (by simp), (split_at_exponent h).1, (split_at_exponent h).2,
    (split_at_point h).1, (split_at_point h).2, readWhole?_digits hwhole h.whole_ne h.leading]
  simp only [Bool.false_eq_true, if_false, Option.bind_eq_bind, Option.bind_some,
    ungroup?_digits hplaces h.places_ne, List.isEmpty_eq_false_iff.mpr h.places_ne]

/-- The shortest decimal of a number has no zeros at its end, and that of zero has no exponent. -/
theorem shortest_exponent (mantissa : ℕ) (exponent : ℤ)
    (h : (BinaryFormat.double.shortest .up mantissa exponent).value = 0) :
    (BinaryFormat.double.shortest .up mantissa exponent).exponent = 0 := by
  unfold BinaryFormat.shortest at h ⊢
  split
  · rfl
  · rename_i hmantissa
    rw [if_neg hmantissa] at h
    exact Decimal.reduce_exponent h

/-- The digits and the places of the shortest decimal are rounded to the number. -/
theorem ofDecimal_shortest
    (h : (mantissa = 0 ∧ exponent = 0) ∨ BinaryFormat.double.IsNormal mantissa exponent)
    (hpointed : (BinaryFormat.double.shortest .up mantissa exponent).IsPointed whole places) :
    BinaryFormat.double.ofDecimal negative (ofDigits (whole ++ places)) (0 - places.length) =
      .finite negative mantissa exponent := by
  have hrat : (⟨ofDigits (whole ++ places), 0 - places.length⟩ : Decimal).toRat =
      (BinaryFormat.double.shortest .up mantissa exponent).toRat := by
    rw [← hpointed.value, Decimal.toRat, zero_sub]
  rcases h with ⟨rfl, rfl⟩ | h
  · have hzero : ofDigits (whole ++ places) = 0 := by
      simpa [Decimal.toRat, BinaryFormat.shortest, zpow_ne_zero] using hrat
    rw [hzero]
    rfl
  · exact BinaryFormat.ofDecimal_eq h (hrat ▸ BinaryFormat.isNear_shortest h.pos)

/-- A number is written with a point in the digits of its shortest decimal. -/
theorem writeFloat_eq_pointed (negative : Bool) (mantissa : ℕ) (exponent : ℤ) :
    ∃ whole places,
      (BinaryFormat.double.shortest .up mantissa exponent).IsPointed whole places ∧
        writeFloat (.finite negative mantissa exponent) = pointed negative whole places := by
  obtain ⟨whole, places, hpointed, htext⟩ :=
    Decimal.exists_isPointed (shortest_exponent mantissa exponent)
  refine ⟨whole, places, hpointed, ?_⟩
  unfold writeFloat pointed
  dsimp only
  rw [List.append_assoc, htext]

/-- A number of 64 bits is read back from its shortest decimal form. -/
theorem readToken?_writeFloat
    (h : (mantissa = 0 ∧ exponent = 0) ∨ BinaryFormat.double.IsNormal mantissa exponent)
    (hrest : EndsToken rest) :
    readToken? (writeFloat (.finite negative mantissa exponent) ++ rest) =
      some (.float (.finite negative mantissa exponent), rest) := by
  obtain ⟨whole, places, hpointed, htext⟩ := writeFloat_eq_pointed negative mantissa exponent
  rw [htext, (isNumeral_pointed hpointed).readToken? hrest, readInteger?_pointed hpointed,
    readFloat?_pointed hpointed]
  dsimp only
  rw [ofDecimal_shortest h hpointed, if_neg (by simp)]
  rfl

/-- The truth values are written with characters of tokens. -/
theorem isTokenChar_boolean (b : Bool) :
    ∀ c ∈ (if b then "true".toList else "false".toList), isTokenChar c = true := by
  cases b with
  | true => exact List.all_eq_true.mp rfl
  | false => exact List.all_eq_true.mp rfl

/-- A truth value is read back where the token ends. -/
theorem readToken?_boolean (b : Bool) (hrest : EndsToken rest) :
    readToken? ((if b then "true".toList else "false".toList) ++ rest) =
      some (.boolean b, rest) := by
  cases b with
  | true =>
    obtain ⟨htoken, hafter⟩ := split_front (isTokenChar_boolean true) hrest
    unfold readToken?
    rw [htoken, hafter]
    rfl
  | false =>
    obtain ⟨htoken, hafter⟩ := split_front (isTokenChar_boolean false) hrest
    unfold readToken?
    rw [htoken, hafter]
    rfl

end Daybook.Toml
