import Mathlib.Computability.Language

/-! Longest beginnings. A reader that takes the longest beginning in one language, and then the
longest in another one from there on, has taken the longest in their product, as long as no word of
the first goes on with what the second begins with. -/
namespace TextLisp.Text

/-- How reading a language off the front of a text ends: the longest beginning in the language is
taken and the rest is left, or no beginning is in the language. -/
inductive Reads (L : Language Char) (cs : List Char) : Option (List Char) → Prop
  | longest {part rest : List Char} (hsplit : part ++ rest = cs) (hmem : part ∈ L)
      (hlongest : ∀ other, other <+: cs → other ∈ L → other.length ≤ part.length) :
      Reads L cs (some rest)
  | nothing (hnone : ∀ other, other <+: cs → other ∉ L) : Reads L cs none

def Begins (c : Char) (L : Language Char) : Prop :=
  ∃ tail, c :: tail ∈ L

/-- Where a word of the first language goes on within that language, it goes on with a character
that begins no word of the second one. -/
def Apart (A B : Language Char) : Prop :=
  ∀ word c tail, word ∈ A → word ++ c :: tail ∈ A → ¬ Begins c B

def oneOf (chars : List Char) : Language Char :=
  {word | ∃ c ∈ chars, word = [c]}

variable {A B L : Language Char} {chars cs rest : List Char} {rest? : Option (List Char)} {c : Char}

theorem begins_oneOf_iff : Begins c (oneOf chars) ↔ c ∈ chars := by
  constructor
  · rintro ⟨tail, x, hx, heq⟩
    obtain ⟨rfl, -⟩ := List.cons.inj heq
    exact hx
  · exact fun hmem => ⟨[], c, hmem, rfl⟩

theorem Begins.of_optional (h : Begins c (1 + L)) : Begins c L := by
  obtain ⟨tail, hnil | hmem⟩ := h
  · cases hnil
  · exact ⟨tail, hmem⟩

theorem Begins.of_mul (h : Begins c (A * B)) : Begins c A ∨ [] ∈ A ∧ Begins c B := by
  obtain ⟨tail, hmem⟩ := h
  obtain ⟨a, ha, b, hb, heq⟩ := Language.mem_mul.mp hmem
  cases a with
  | nil => exact Or.inr ⟨ha, tail, heq ▸ hb⟩
  | cons x a =>
    obtain ⟨rfl, -⟩ := List.cons.inj heq
    exact Or.inl ⟨a, ha⟩

theorem apart_oneOf (chars : List Char) (B : Language Char) : Apart (oneOf chars) B := by
  rintro word c tail ⟨x, -, rfl⟩ ⟨y, -, heq⟩
  cases heq

/-- What may be left out goes on with its first character too. -/
theorem Apart.optional (h : Apart A B) (hbegins : ∀ c, Begins c A → ¬ Begins c B) :
    Apart (1 + A) B := by
  rintro word c tail (rfl | hword) (hnil | hmem)
  · cases hnil
  · exact hbegins c ⟨tail, hmem⟩
  · cases List.append_ne_nil_of_right_ne_nil word (List.cons_ne_nil c tail) hnil
  · exact h word c tail hword hmem

/-- Behind a single character a word goes on as the words behind that character do. -/
theorem Apart.oneOf_mul (h : Apart A B) (chars : List Char) : Apart (oneOf chars * A) B := by
  intro word c tail hword hmore
  obtain ⟨_, ⟨x, -, rfl⟩, a, ha, rfl⟩ := Language.mem_mul.mp hword
  obtain ⟨_, ⟨y, -, rfl⟩, a', ha', heq⟩ := Language.mem_mul.mp hmore
  obtain ⟨-, rfl⟩ := List.cons.inj heq
  exact h a c tail ha ha'

theorem reads_oneOf_of_mem (h : c ∈ chars) (cs : List Char) :
    Reads (oneOf chars) (c :: cs) (some cs) := by
  have hsplit : [c] ++ cs = c :: cs := rfl
  refine .longest hsplit ⟨c, h, rfl⟩ ?_
  rintro other - ⟨x, -, rfl⟩
  exact Nat.le_refl 1

theorem reads_oneOf_of_ne (h : ∀ c ∈ chars, ∀ rest, cs ≠ c :: rest) :
    Reads (oneOf chars) cs none := by
  apply Reads.nothing
  rintro other ⟨rest, rfl⟩ ⟨c, hc, rfl⟩
  exact h c hc rest rfl

namespace Reads

theorem optional (h : Reads L cs rest?) : Reads (1 + L) cs (some (rest?.getD cs)) := by
  cases h with
  | @longest part rest hsplit hmem hlongest =>
    refine .longest hsplit (Or.inr hmem) ?_
    rintro other hother (rfl | hmem)
    · exact Nat.zero_le _
    · exact hlongest other hother hmem
  | nothing hnone =>
    have hsplit : [] ++ cs = cs := rfl
    refine .longest hsplit (Or.inl rfl) ?_
    rintro other hother (rfl | hmem)
    · exact Nat.le_refl 0
    · exact absurd hmem (hnone other hother)

theorem mul_of_none (h : Reads A cs none) (B : Language Char) : Reads (A * B) cs none := by
  cases h with
  | nothing hnone =>
    apply Reads.nothing
    intro other hother hmem
    obtain ⟨a, ha, b, -, rfl⟩ := Language.mem_mul.mp hmem
    exact hnone a ((List.prefix_append a b).trans hother) ha

/-- Greedy reading, one part after the other, is reading the longest. -/
theorem mul (h : Reads A cs (some rest)) (h' : Reads B rest rest?) (hapart : Apart A B) :
    Reads (A * B) cs rest? := by
  obtain @⟨part, _, rfl, hpart, hlongest⟩ := h
  -- Another beginning in the product has the same first part, or a shorter one, and then there is
  -- no second part to it, since the first one goes on.
  have hother (a b : List Char) (ha : a ∈ A) (hb : b ∈ B) (hstart : a ++ b <+: part ++ rest) :
      a = part ∧ b <+: rest ∨ b = [] ∧ a.length ≤ part.length := by
    have hbefore : a <+: part ++ rest := (List.prefix_append a b).trans hstart
    have hle := hlongest a hbefore ha
    obtain ⟨more, rfl⟩ := List.prefix_of_prefix_length_le hbefore (List.prefix_append part rest) hle
    cases more with
    | nil =>
      rw [List.append_nil] at hstart ⊢
      exact Or.inl ⟨rfl, (List.prefix_append_right_inj a).mp hstart⟩
    | cons c more =>
      refine Or.inr ⟨?_, hle⟩
      rw [List.append_assoc, List.prefix_append_right_inj] at hstart
      cases b with
      | nil => rfl
      | cons x b =>
        obtain ⟨rfl, -⟩ := List.cons_prefix_cons.mp hstart
        exact absurd ⟨b, hb⟩ (hapart a x more ha hpart)
  cases h' with
  | @longest part' rest' hsplit hmem hlongest' =>
    have hwhole : part ++ part' ++ rest' = part ++ rest := by
      rw [List.append_assoc, hsplit]
    refine .longest hwhole (Language.append_mem_mul hpart hmem) ?_
    intro other hstart hmem
    obtain ⟨a, ha, b, hb, rfl⟩ := Language.mem_mul.mp hmem
    rw [List.length_append, List.length_append]
    obtain ⟨rfl, hb'⟩ | ⟨rfl, hle⟩ := hother a b ha hb hstart
    · exact Nat.add_le_add_left (hlongest' b hb' hb) _
    · exact Nat.add_le_add hle (Nat.zero_le _)
  | nothing hnone =>
    apply Reads.nothing
    intro other hstart hmem
    obtain ⟨a, ha, b, hb, rfl⟩ := Language.mem_mul.mp hmem
    obtain ⟨rfl, hb'⟩ | ⟨rfl, -⟩ := hother a b ha hb hstart
    · exact hnone b hb' hb
    · exact hnone [] List.nil_prefix hb

/-- The whole text is in the language when nothing is left of it. -/
theorem mem_iff (h : Reads L cs rest?) : cs ∈ L ↔ rest? = some [] := by
  cases h with
  | @longest part rest hsplit hmem hlongest =>
    rw [Option.some.injEq]
    constructor
    · intro hwhole
      have hle := hlongest cs List.prefix_rfl hwhole
      rw [← hsplit, List.length_append] at hle
      exact List.eq_nil_of_length_eq_zero (by omega)
    · rintro rfl
      rw [← hsplit, List.append_nil]
      exact hmem
  | nothing hnone =>
    exact iff_of_false (hnone cs List.prefix_rfl) (Option.some_ne_none []).symm

end Reads

end TextLisp.Text
