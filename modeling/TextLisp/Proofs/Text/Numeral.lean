import Mathlib.Data.List.TakeWhile
import TextLisp.Numeral
import TextLisp.Proofs.Text.Longest
import TextLisp.Text.Form

namespace TextLisp

open Text

namespace Numeral

def digits : Language Char :=
  {word | word ≠ [] ∧ ∀ c ∈ word, c.isDigit = true}

def fractions : Language Char :=
  oneOf ['.'] * digits

def exponents : Language Char :=
  oneOf ['e', 'E'] * ((1 + oneOf ['+', '-']) * digits)

def magnitudes : Language Char :=
  digits * ((1 + fractions) * (1 + exponents))

def numerals : Language Char :=
  (1 + oneOf [' ']) * ((1 + oneOf ['-']) * magnitudes)

variable {c : Char}

theorem begins_digits (h : Begins c digits) : c.isDigit = true := by
  obtain ⟨tail, -, hdigits⟩ := h
  exact hdigits c List.mem_cons_self

theorem nil_notMem_digits : [] ∉ digits :=
  fun h => h.1 rfl

theorem begins_fractions (h : Begins c fractions) : c = '.' := by
  obtain hpoint | ⟨⟨x, -, hnil⟩, -⟩ := h.of_mul
  · exact List.mem_singleton.mp (begins_oneOf_iff.mp hpoint)
  · cases hnil

theorem begins_exponents (h : Begins c exponents) : c = 'e' ∨ c = 'E' := by
  obtain hmark | ⟨⟨x, -, hnil⟩, -⟩ := h.of_mul
  · simpa using begins_oneOf_iff.mp hmark
  · cases hnil

theorem begins_magnitudes (h : Begins c magnitudes) : c.isDigit = true := by
  obtain hdigit | ⟨hnil, -⟩ := h.of_mul
  · exact begins_digits hdigit
  · exact absurd hnil nil_notMem_digits

/-- Digits go on with digits only. -/
theorem apart_digits {B : Language Char} (h : ∀ c, Begins c B → c.isDigit = false) :
    Apart digits B := by
  intro word c tail _ hmore hbegins
  have hdigit : c.isDigit = true := hmore.2 c (List.mem_append_right word List.mem_cons_self)
  rw [h c hbegins] at hdigit
  cases hdigit

theorem apart_digits_exponents : Apart digits (1 + exponents) := by
  apply apart_digits
  intro c hc
  obtain rfl | rfl := begins_exponents hc.of_optional <;> rfl

theorem apart_digits_fractions : Apart digits ((1 + fractions) * (1 + exponents)) := by
  apply apart_digits
  intro c hc
  obtain hfraction | ⟨-, hexponent⟩ := hc.of_mul
  · rw [begins_fractions hfraction.of_optional]
    rfl
  · obtain rfl | rfl := begins_exponents hexponent.of_optional <;> rfl

theorem apart_fractions_exponents : Apart (1 + fractions) (1 + exponents) := by
  apply (apart_digits_exponents.oneOf_mul ['.']).optional
  intro c hpoint hmark
  obtain rfl := begins_fractions hpoint
  obtain h | h := begins_exponents hmark.of_optional <;> cases h

theorem apart_sign_digits : Apart (1 + oneOf ['+', '-']) digits := by
  apply (apart_oneOf _ _).optional
  intro c hsign hdigit
  have hmem : c ∈ ['+', '-'] := begins_oneOf_iff.mp hsign
  have hdigit' := begins_digits hdigit
  simp only [List.mem_cons, List.not_mem_nil, or_false] at hmem
  obtain rfl | rfl := hmem <;> cases hdigit'

theorem apart_minus_magnitudes : Apart (1 + oneOf ['-']) magnitudes := by
  apply (apart_oneOf _ _).optional
  intro c hminus hdigit
  obtain rfl := List.mem_singleton.mp (begins_oneOf_iff.mp hminus)
  cases begins_magnitudes hdigit

theorem apart_space_signed : Apart (1 + oneOf [' ']) ((1 + oneOf ['-']) * magnitudes) := by
  apply (apart_oneOf _ _).optional
  intro c hspace hsigned
  obtain rfl := List.mem_singleton.mp (begins_oneOf_iff.mp hspace)
  obtain hminus | ⟨-, hdigit⟩ := hsigned.of_mul
  · cases List.mem_singleton.mp (begins_oneOf_iff.mp hminus.of_optional)
  · cases begins_magnitudes hdigit

theorem reads_digits (cs : List Char) : Reads digits cs ((digits? cs).map Prod.snd) := by
  have hsplit : cs.takeWhile Char.isDigit ++ cs.dropWhile Char.isDigit = cs :=
    List.takeWhile_append_dropWhile
  have hlongest (other : List Char) (hstart : other <+: cs) (hmem : other ∈ digits) :
      other.length ≤ (cs.takeWhile Char.isDigit).length := by
    obtain ⟨rest, rfl⟩ := hstart
    rw [List.takeWhile_append_of_pos hmem.2, List.length_append]
    exact Nat.le_add_right _ _
  unfold digits?
  split
  next htake =>
    rw [htake] at hlongest
    apply Reads.nothing
    intro other hstart hmem
    exact hmem.1 (List.eq_nil_of_length_eq_zero (Nat.le_zero.mp (hlongest other hstart hmem)))
  next d ds htake =>
    refine .longest hsplit ⟨?_, ?_⟩ hlongest
    · rw [htake]
      exact List.cons_ne_nil d ds
    · exact fun c hc => List.mem_takeWhile_imp hc

theorem reads_readFraction (cs : List Char) :
    Reads (1 + fractions) cs (some (readFraction cs).2) := by
  unfold readFraction
  split
  next rest =>
    have hread : Reads fractions ('.' :: rest) ((digits? rest).map Prod.snd) :=
      (reads_oneOf_of_mem List.mem_cons_self rest).mul (reads_digits rest) (apart_oneOf _ _)
    cases hdigits : digits? rest with
    | none =>
      rw [hdigits] at hread
      exact hread.optional
    | some split =>
      rw [hdigits] at hread
      exact hread.optional
  next hpoint =>
    have hnone : Reads (oneOf ['.']) cs none :=
      reads_oneOf_of_ne (List.forall_mem_singleton.mpr hpoint)
    exact (hnone.mul_of_none digits).optional

theorem reads_readSign (cs : List Char) :
    Reads (1 + oneOf ['+', '-']) cs (some (readSign cs).2) := by
  unfold readSign
  split
  next rest => exact (reads_oneOf_of_mem (by simp) rest).optional
  next rest => exact (reads_oneOf_of_mem (by simp) rest).optional
  next hminus hplus =>
    have hnone : Reads (oneOf ['+', '-']) cs none :=
      reads_oneOf_of_ne
        (List.forall_mem_cons.mpr ⟨hplus, List.forall_mem_singleton.mpr hminus⟩)
    exact hnone.optional

theorem reads_readExponent (cs : List Char) :
    Reads (1 + exponents) cs (some (readExponent cs).2) := by
  unfold readExponent
  split
  next c rest =>
    split
    next hmark =>
      have hmem : c ∈ ['e', 'E'] := by simpa using hmark
      have hbehind : Reads ((1 + oneOf ['+', '-']) * digits) rest
          ((digits? (readSign rest).2).map Prod.snd) :=
        (reads_readSign rest).mul (reads_digits _) apart_sign_digits
      have hread : Reads exponents (c :: rest) ((digits? (readSign rest).2).map Prod.snd) :=
        (reads_oneOf_of_mem hmem rest).mul hbehind (apart_oneOf _ _)
      cases hdigits : digits? (readSign rest).2 with
      | none =>
        rw [hdigits] at hread
        exact hread.optional
      | some split =>
        rw [hdigits] at hread
        exact hread.optional
    next hother =>
      have hnone : Reads (oneOf ['e', 'E']) (c :: rest) none := by
        apply reads_oneOf_of_ne
        rintro x hx rest' ⟨⟩
        exact hother (by simpa using hx)
      exact (hnone.mul_of_none _).optional
  next =>
    have hnone : Reads (oneOf ['e', 'E']) [] none :=
      reads_oneOf_of_ne fun c _ rest h => List.cons_ne_nil c rest h.symm
    exact (hnone.mul_of_none _).optional

theorem reads_dropSpace (cs : List Char) : Reads (1 + oneOf [' ']) cs (some (dropSpace cs)) := by
  unfold dropSpace
  split
  next rest => exact (reads_oneOf_of_mem List.mem_cons_self rest).optional
  next hspace => exact (reads_oneOf_of_ne (List.forall_mem_singleton.mpr hspace)).optional

theorem reads_readMinus (cs : List Char) :
    Reads (1 + oneOf ['-']) cs (some (readMinus cs).2) := by
  unfold readMinus
  split
  next rest => exact (reads_oneOf_of_mem List.mem_cons_self rest).optional
  next hminus => exact (reads_oneOf_of_ne (List.forall_mem_singleton.mpr hminus)).optional

/-- Greedily, part for part, the longest numeral is read. -/
theorem reads_read? (cs : List Char) : Reads numerals cs ((read? cs).map Prod.snd) := by
  have hmagnitude (cs : List Char) : Reads magnitudes cs ((digits? cs).map fun split =>
      (readExponent (readFraction split.2).2).2) := by
    have hdigits := reads_digits cs
    cases hsplit : digits? cs with
    | none =>
      rw [hsplit] at hdigits
      exact hdigits.mul_of_none _
    | some split =>
      rw [hsplit] at hdigits
      have hbehind := (reads_readFraction split.2).mul (reads_readExponent _)
        apart_fractions_exponents
      exact hdigits.mul hbehind apart_digits_fractions
  have hsigned := (reads_readMinus (dropSpace cs)).mul (hmagnitude _) apart_minus_magnitudes
  have hread := (reads_dropSpace cs).mul hsigned apart_space_signed
  unfold read?
  dsimp only
  cases hdigits : digits? (readMinus (dropSpace cs)).2 with
  | none =>
    rw [hdigits] at hread
    exact hread
  | some split =>
    rw [hdigits] at hread
    exact hread

/-- A magnitude begins with a digit. -/
theorem exists_digit_of_mem_magnitudes {word : List Char} (h : word ∈ magnitudes) :
    ∃ c tail, word = c :: tail ∧ c.isDigit = true := by
  cases word with
  | nil =>
    obtain ⟨ds, hds, behind, -, hnil⟩ := Language.mem_mul.mp h
    exact absurd (List.append_eq_nil_iff.mp hnil).1 hds.1
  | cons c tail => exact ⟨c, tail, rfl, begins_magnitudes ⟨tail, h⟩⟩

theorem dropSpace_of_isDigit (h : c.isDigit = true) (cs : List Char) :
    dropSpace (c :: cs) = c :: cs := by
  unfold dropSpace
  split
  next hblank =>
    obtain ⟨rfl, -⟩ := List.cons.inj hblank
    cases h
  · rfl

theorem readMinus_of_isDigit (h : c.isDigit = true) (cs : List Char) :
    readMinus (c :: cs) = (false, c :: cs) := by
  unfold readMinus
  split
  next hsign =>
    obtain ⟨rfl, -⟩ := List.cons.inj hsign
    cases h
  · rfl

/-- In front of a digit, a minus is all that it changes. -/
theorem read?_minus (h : c.isDigit = true) (cs : List Char) :
    ∃ n rest, read? (c :: cs) = some (n, rest) ∧ n.negative = false ∧
      read? ('-' :: c :: cs) = some (⟨true, n.integer, n.fraction, n.exponent⟩, rest) := by
  have hdigits : digits? (c :: cs) =
      some (c :: cs.takeWhile Char.isDigit, cs.dropWhile Char.isDigit) := by
    rw [digits?, List.takeWhile_cons_of_pos h, List.dropWhile_cons_of_pos h]
  let fraction := readFraction (cs.dropWhile Char.isDigit)
  let exponent := readExponent fraction.2
  refine ⟨⟨false, c :: cs.takeWhile Char.isDigit, fraction.1, exponent.1⟩, exponent.2, ?_, rfl, ?_⟩
  · rw [read?, dropSpace_of_isDigit h, readMinus_of_isDigit h]
    dsimp only
    rw [hdigits]
  · have hsigned : readMinus (dropSpace ('-' :: c :: cs)) = (true, c :: cs) := rfl
    rw [read?, hsigned]
    dsimp only
    rw [hdigits]

end Numeral

theorem reads_parseNumber (text : String) :
    Reads Numeral.numerals text.toList ((parseNumber text).map fun split => split.2.toList) := by
  have hread := Numeral.reads_read? text.toList
  unfold parseNumber
  cases hsplit : Numeral.read? text.toList with
  | none =>
    rw [hsplit] at hread
    exact hread
  | some split =>
    rw [hsplit] at hread
    simpa using hread

theorem parseNumberExact_eq_some_iff (text : String) (x : Float) :
    parseNumberExact text = some x ↔ parseNumber text = some (x, "") := by
  unfold parseNumberExact parseNumber
  rcases Numeral.read? text.toList with _ | ⟨n, _ | ⟨c, rest⟩⟩
  · simp
  · simp
  · simp

/-- An atom that is a numeral begins like one. -/
theorem looksNumeric_of_mem_numerals {text : String} (hatom : isAtom text = true)
    (h : text.toList ∈ Numeral.numerals) : looksNumeric text = true := by
  obtain ⟨space, hspace, signed, hsigned, hwhole⟩ := Language.mem_mul.mp h
  obtain ⟨minus, hminus, word, hword, rfl⟩ := Language.mem_mul.mp hsigned
  obtain ⟨c, tail, rfl, hdigit⟩ := Numeral.exists_digit_of_mem_magnitudes hword
  obtain rfl : space = [] := by
    obtain hnil | ⟨x, hx, rfl⟩ := hspace
    · exact hnil
    · obtain rfl := List.mem_singleton.mp hx
      rw [isAtom, ← hwhole] at hatom
      exact absurd hatom (by simp [isAtomChar, isBlank])
  unfold looksNumeric
  rw [← hwhole]
  obtain rfl | ⟨x, hx, rfl⟩ := hminus
  · simp only [List.nil_append]
    split
    next heq =>
      obtain ⟨rfl, -⟩ := List.cons.inj heq
      cases hdigit
    next heq =>
      obtain ⟨rfl, -⟩ := List.cons.inj heq
      rw [hdigit, Bool.true_or]
    next heq => cases heq
  · obtain rfl := List.mem_singleton.mp hx
    change (c.isDigit || c == '.') = true
    rw [hdigit, Bool.true_or]

/-- Reading a number off a text fails exactly when no numeral stands at its front, and otherwise
takes the longest one that does and leaves the rest. A text is one number exactly when it is a
numeral, and then with the value that is read off it. In front of a text that begins with a digit,
a minus negates the value and leaves the same rest. An atom that is one number looks numeric. -/
theorem longest_numeral_is_read (text : String) :
    (parseNumber text = none ↔ ∀ part, part <+: text.toList → part ∉ Numeral.numerals) ∧
    (∀ x rest, parseNumber text = some (x, rest) →
      ∃ part ∈ Numeral.numerals, part ++ rest.toList = text.toList ∧
        ∀ other, other <+: text.toList → other ∈ Numeral.numerals →
          other.length ≤ part.length) ∧
    ((∃ x, parseNumberExact text = some x) ↔ text.toList ∈ Numeral.numerals) ∧
    (∀ x, parseNumberExact text = some x ↔ parseNumber text = some (x, "")) ∧
    (∀ c cs, text.toList = c :: cs → c.isDigit = true →
      ∃ x rest, parseNumber text = some (x, rest) ∧
        parseNumber ("-" ++ text) = some (-x, rest)) ∧
    ∀ x, isAtom text = true → parseNumberExact text = some x → looksNumeric text = true := by
  have hreads := reads_parseNumber text
  have hexact : (∃ x, parseNumberExact text = some x) ↔ text.toList ∈ Numeral.numerals := by
    rw [hreads.mem_iff]
    simp only [parseNumberExact_eq_some_iff, Option.map_eq_some_iff, String.toList_eq_nil_iff]
    constructor
    · rintro ⟨x, hx⟩
      exact ⟨(x, ""), hx, rfl⟩
    · rintro ⟨⟨x, rest⟩, hx, rfl⟩
      exact ⟨x, hx⟩
  refine ⟨?_, ?_, hexact, parseNumberExact_eq_some_iff text, ?_, ?_⟩
  · cases hparse : parseNumber text with
    | none =>
      rw [hparse] at hreads
      cases hreads with
      | nothing hnone => exact iff_of_true rfl hnone
    | some split =>
      rw [hparse] at hreads
      cases hreads with
      | @longest part _ hsplit hmem _ =>
        refine iff_of_false (Option.some_ne_none split) ?_
        exact fun hnone => hnone part ⟨_, hsplit⟩ hmem
  · intro x rest hparse
    rw [hparse] at hreads
    cases hreads with
    | @longest part _ hsplit hmem hlongest => exact ⟨part, hmem, hsplit, hlongest⟩
  · intro c cs htext hdigit
    obtain ⟨n, rest, hread, hpositive, hnegated⟩ := Numeral.read?_minus hdigit cs
    refine ⟨n.value, String.ofList rest, ?_, ?_⟩
    · rw [parseNumber, htext, hread]
      rfl
    · have hminus : ("-" ++ text).toList = '-' :: c :: cs := by
        rw [String.toList_append, htext]
        rfl
      have hvalue : n.value = n.magnitude := by simp [Numeral.value, hpositive]
      rw [parseNumber, hminus, hnegated, hvalue]
      rfl
  · exact fun x hatom hx => looksNumeric_of_mem_numerals hatom (hexact.mp ⟨x, hx⟩)

/-- An exponent without digits is no part of the numeral in front of it, with a minus or without. -/
theorem exponent_without_digits_is_left :
    (∃ x, parseNumber "3.25e+" = some (x, "e+") ∧ parseNumber "-3.25e+" = some (-x, "e+")) ∧
      "3.25e+".toList ∉ Numeral.numerals ∧ "-3.25".toList ∈ Numeral.numerals ∧
      looksNumeric "-3.25" = true := by
  have hsplit : Numeral.read? "3.25e+".toList =
      some (⟨false, ['3'], some ['2', '5'], none⟩, ['e', '+']) := by decide
  have hwhole : Numeral.read? "-3.25".toList =
      some (⟨true, ['3'], some ['2', '5'], none⟩, []) := by decide
  have hparse : parseNumber "3.25e+" =
      some (Numeral.value ⟨false, ['3'], some ['2', '5'], none⟩, "e+") := by
    rw [parseNumber, hsplit]
    rfl
  have hnumber : parseNumberExact "-3.25" =
      some (Numeral.value ⟨true, ['3'], some ['2', '5'], none⟩) := by
    rw [parseNumberExact, hwhole]
  obtain ⟨-, -, hmem, hexact, hminus, -⟩ := longest_numeral_is_read "3.25e+"
  obtain ⟨-, -, hmem', -, -, hlooks⟩ := longest_numeral_is_read "-3.25"
  refine ⟨?_, ?_, hmem'.mp ⟨_, hnumber⟩, hlooks _ (by decide) hnumber⟩
  · obtain ⟨x, rest, hread, hnegated⟩ := hminus '3' ".25e+".toList rfl rfl
    rw [hparse] at hread
    obtain ⟨rfl, rfl⟩ := Prod.mk.inj (Option.some.inj hread)
    exact ⟨_, hparse, hnegated⟩
  · intro hnumeral
    obtain ⟨x, hx⟩ := hmem.mpr hnumeral
    rw [hexact, hparse] at hx
    exact absurd (Prod.mk.inj (Option.some.inj hx)).2 (by decide)

end TextLisp
