import TextLisp.Proofs.Number.Exact
import TextLisp.Proofs.Text.Numeral

namespace TextLisp

open Double

namespace Numeral

theorem read?_digits {ds : List Char} (h : ds ∈ digits) :
    read? ds = some (⟨false, ds, none, none⟩, []) := by
  obtain ⟨hne, hall⟩ := h
  obtain ⟨c, cs, rfl⟩ := List.exists_cons_of_ne_nil hne
  have hc : c.isDigit = true := hall c List.mem_cons_self
  have hdigits : digits? (c :: cs) = some (c :: cs, []) := by
    rw [digits?, List.takeWhile_eq_self_iff.mpr hall, List.dropWhile_eq_nil_iff.mpr hall]
  rw [read?, dropSpace_of_isDigit hc, readMinus_of_isDigit hc]
  dsimp only
  rw [hdigits]
  rfl

theorem read?_minus_digits {ds : List Char} (h : ds ∈ digits) :
    read? ('-' :: ds) = some (⟨true, ds, none, none⟩, []) := by
  obtain ⟨c, cs, rfl⟩ := List.exists_cons_of_ne_nil h.1
  obtain ⟨n, rest, hplain, -, hminus⟩ := read?_minus (h.2 c List.mem_cons_self) cs
  obtain ⟨rfl, rfl⟩ := Prod.mk.inj (Option.some.inj (hplain.symm.trans (read?_digits h)))
  exact hminus

theorem le_ofDigitChars (ds : List Char) (init : ℕ) : init ≤ Nat.ofDigitChars 10 ds init := by
  rw [Nat.ofDigitChars_eq_ofDigitChars_zero]
  have hscale : init ≤ 10 ^ ds.length * init := Nat.le_mul_of_pos_left init (by positivity)
  omega

/-- The digits so far are no more than the whole numeral, so each of the steps is exact when the
numeral is at most 2^53. -/
theorem isNat_foldl (ds : List Char) {x : Float} {init : ℕ} (hx : IsNat x init)
    (h : Nat.ofDigitChars 10 ds init ≤ 2 ^ 53) :
    IsNat (ds.foldl (fun total c => total * 10 + digitValue c) x)
      (Nat.ofDigitChars 10 ds init) := by
  induction ds generalizing x init with
  | nil => rwa [Nat.ofDigitChars_nil]
  | cons c ds ih =>
    rw [Nat.ofDigitChars_cons] at h ⊢
    have hstep := (le_ofDigitChars ds _).trans h
    have hten : IsNat 10 10 := isNat_ofNat (by decide)
    have hdigit : IsNat (digitValue c) (c.toNat - '0'.toNat) := isNat_ofNat (by omega)
    have htotal := (hx.mul hten (by omega)).add hdigit (by omega)
    rw [Nat.mul_comm init 10] at htotal
    exact ih htotal h

/-- Folding digits never rounds as long as the number that they say is not above 2^53. -/
theorem accumulate_eq_ofNat {ds : List Char} (h : Nat.ofDigitChars 10 ds 0 ≤ 2 ^ 53) :
    accumulate ds = Float.ofNat (Nat.ofDigitChars 10 ds 0) :=
  (isNat_foldl ds (isNat_ofNat (Nat.zero_le _)) h).eq (isNat_ofNat h)

end Numeral

/-- A text of decimal digits that says a number up to 2^53 is read as the double that is this number,
whatever zeros it begins with, and with a minus in front it is read as its negation. -/
theorem integer_numeral_is_exact {text : String} (hne : text ≠ "")
    (hdigits : ∀ c ∈ text.toList, c.isDigit = true)
    (h : Nat.ofDigitChars 10 text.toList 0 ≤ 2 ^ 53) :
    let n := Nat.ofDigitChars 10 text.toList 0
    parseNumberExact text = some (Float.ofNat n) ∧ value? (Float.ofNat n) = some (n : ℚ) ∧
    parseNumberExact ("-" ++ text) = some (-Float.ofNat n) ∧
      value? (-Float.ofNat n) = some (-n : ℚ) := by
  intro n
  have hmem : text.toList ∈ Numeral.digits := ⟨by simpa using hne, hdigits⟩
  have hread := Numeral.accumulate_eq_ofNat h
  have hnat : IsNat (Float.ofNat n) n := isNat_ofNat h
  refine ⟨?_, hnat.value?_eq, ?_, hnat.value?_neg⟩
  · rw [parseNumberExact, Numeral.read?_digits hmem]
    exact congrArg some hread
  · have hminus : ("-" ++ text).toList = '-' :: text.toList := by simp
    rw [parseNumberExact, hminus, Numeral.read?_minus_digits hmem]
    exact congrArg (fun x => some (-x)) hread

/-- Zeros in front do not matter, also right at the limit. -/
theorem limit_is_read_exactly :
    parseNumberExact "009007199254740992" = some (Float.ofNat (2 ^ 53)) ∧
      parseNumberExact "-009007199254740992" = some (-Float.ofNat (2 ^ 53)) := by
  have hne : "009007199254740992" ≠ "" := by decide
  have hdigits : ∀ c ∈ "009007199254740992".toList, c.isDigit = true := by simp
  have hvalue : Nat.ofDigitChars 10 "009007199254740992".toList 0 = 2 ^ 53 := by decide
  obtain ⟨hplain, -, hminus, -⟩ := integer_numeral_is_exact hne hdigits hvalue.le
  rw [hvalue] at hplain hminus
  exact ⟨hplain, hminus⟩

end TextLisp
