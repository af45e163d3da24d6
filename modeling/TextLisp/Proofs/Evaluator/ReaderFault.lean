import Mathlib
import TextLisp.Proofs.Evaluator.Discipline
import TextLisp.Session

namespace TextLisp

open Text

/-- Atoms that stand for nothing and forms that do not split are refused before anything else
happens. -/
theorem evaluate_of_not_isExpression (host : Host) (remaining depth : Nat) (env : Environment)
    {text : String} (h : ¬ IsExpression text) (s : Store) :
    ∃ e, evaluate host (remaining + 1) depth env text s =
        ⟨.error e, s, [.evaluate depth (trim text)]⟩ ∧
      (trim text = "" ∧ e = .noInterpretation "" ∨
        trim text ≠ "" ∧ ∃ fault, e = .invalidSubform fault) := by
  rw [evaluate_succ]
  by_cases hbracketed : isBracketed (trim text) = true
  · have hne : trim text ≠ "" := by
      intro hempty
      rw [hempty] at hbracketed
      cases hbracketed
    rw [if_pos hbracketed]
    unfold evaluateForm
    rw [splitForm_trim]
    cases hsplit : splitForm text with
    | ok siblings => exact absurd (Or.inr ⟨siblings, hsplit⟩) h
    | error e =>
      have hfault := yields_splitForm text
      rw [hsplit] at hfault
      cases hfault with
      | error hfault => exact ⟨e, rfl, Or.inr ⟨hne, hfault⟩⟩
  · have hatom : isAtom (trim text) = false := Bool.eq_false_iff.mpr fun hatom => h (Or.inl hatom)
    rw [if_neg hbracketed]
    dsimp only
    rw [evaluateAtom_apply]
    unfold atomValue
    by_cases hempty : trim text = ""
    · rw [if_pos (beq_iff_eq.mpr hempty)]
      exact ⟨_, rfl, Or.inl ⟨hempty, rfl⟩⟩
    · have hbeq : ¬ (trim text == "") = true := fun hbeq => hempty (beq_iff_eq.mp hbeq)
      have hnot : (!isAtom (trim text)) = true := by rw [hatom]; rfl
      rw [if_neg hbeq, if_pos hnot]
      exact ⟨_, rfl, Or.inr ⟨hempty, _, rfl⟩⟩

def reading : Discipline where
  accepts := IsExpression
  admits
    | .primitive p => ∃ operation, p.operation = .builtin operation
    | .closure c => c.IsReadable
  allows e := ∀ fault, e ≠ .invalidSubform fault

theorem isKept_reading (host : Host) : reading.IsKept host := by
  have hordinary (e : Error) (he : e.IsOrdinary) : reading.allows e := by
    rintro fault rfl
    exact he
  constructor
  case ordinary => exact hordinary
  case word =>
    intro text htext hbracketed hatom _
    rw [(isExpression_iff_of_not_isBracketed hbracketed).mp htext] at hatom
    cases hatom
  case form =>
    intro text htext hbracketed
    obtain ⟨siblings, hsiblings⟩ := (isExpression_iff_of_isBracketed hbracketed).mp htext
    rw [splitForm_trim, hsiblings]
    -- Slices that the bracket matcher cuts out are atoms or balanced forms.
    exact .ok fun sibling hmem => (sibling_of_splitForm hsiblings hmem).2
  case quoted =>
    intro text htext
    obtain ⟨tree, htree⟩ := Tree.exists_read htext
    rw [Tree.datum_eq_map_read, htree]
    exact .ok trivial
  case parameters =>
    intro params body hparams hbody
    have hsiblings (hbracketed : isBracketed params = true) :
        Yields reading.allows (fun _ => True) (splitForm params) := by
      have htrim := isBracketed_trim hbracketed
      obtain ⟨siblings, hsiblings⟩ := (isExpression_iff_of_isBracketed htrim).mp hparams
      rw [hsiblings]
      exact .ok trivial
    exact (yields_parameterNames_of_isOrdinary hordinary hsiblings).mono (fun _ he => he)
      fun names hnames _ _ => ⟨hbody, names, hnames⟩
  case closure =>
    -- What was known of the texts when the closure was made is known of them at the call.
    rintro c ⟨hbody, names, hnames⟩
    rw [hnames]
    exact ⟨hbody, .ok trivial⟩
  case primitive =>
    intro p args hbuiltin hargs
    exact (yields_apply_of_builtin host hbuiltin hargs).mono hordinary fun _ hv => hv

theorem within_reading_initial : Store.initial.Within reading.admits :=
  Store.within_ofGlobals (Table.within_initialGlobals fun operation => ⟨operation, rfl⟩)

theorem obeys_reading (host : Host) (limit : Nat) {line : String} (h : IsExpression line) :
    reading.Obeys (Value.Within reading.admits) (evaluateLine host limit line) := by
  have hexhausted : reading.allows (.depthExceeded limit) := by
    intro fault he
    cases he
  have hlimit : 0 + limit = limit := by omega
  exact Discipline.obeys_evaluate (isKept_reading host) hlimit hexhausted Environment.empty h

/-- Lines keep what closures are made of, also those that are no expressions: these change
nothing. -/
theorem within_reading_evaluateLine (host : Host) (limit : Nat) (line : String) {s : Store}
    (h : s.Within reading.admits) :
    (evaluateLine host limit line s).store.Within reading.admits := by
  by_cases hline : IsExpression line
  · exact (obeys_reading host limit hline s h).1
  -- What is no expression is refused at once, with or without a fault of the reader.
  · cases limit with
    | zero => exact h
    | succ limit =>
      obtain ⟨e, houtcome, -⟩ :=
        evaluate_of_not_isExpression host limit 0 Environment.empty hline s
      unfold evaluateLine
      rw [houtcome]
      exact h

theorem within_reading_after (host : Host) (lines : List (String × Nat)) {s : Store}
    (h : s.Within reading.admits) :
    (s.after host (lines.map fun line => .evaluate line.1 line.2)).Within reading.admits := by
  induction lines generalizing s with
  | nil => exact h
  | cons line lines ih => exact ih (within_reading_evaluateLine host line.2 line.1 h)

/-- No part of an expression has a fault. -/
theorem result_ne_of_isExpression (host : Host) (limit : Nat) {line : String}
    (h : IsExpression line) {s : Store} (hs : s.Within reading.admits) (fault : ReadFault) :
    (evaluateLine host limit line s).result ≠ .error (.invalidSubform fault) := by
  intro hresult
  have hyields := (obeys_reading host limit h s hs).2
  rw [hresult] at hyields
  cases hyields with
  | error he => exact he fault rfl

theorem exists_fault_iff (host : Host) (remaining : Nat) (line : String) {s : Store}
    (hs : s.Within reading.admits) :
    (∃ fault, (evaluateLine host (remaining + 1) line s).result = .error (.invalidSubform fault)) ↔
      trim line ≠ "" ∧ ¬ IsExpression line := by
  by_cases hline : IsExpression line
  · have hfree := result_ne_of_isExpression host (remaining + 1) hline hs
    constructor
    · rintro ⟨fault, hresult⟩
      exact absurd hresult (hfree fault)
    · rintro ⟨-, hfaulty⟩
      exact absurd hline hfaulty
  · obtain ⟨e, houtcome, hfault⟩ :=
      evaluate_of_not_isExpression host remaining 0 Environment.empty hline s
    rw [evaluateLine, houtcome]
    constructor
    · rintro ⟨fault, hresult⟩
      obtain rfl := Except.error.inj hresult
      obtain ⟨-, he⟩ | ⟨hne, -⟩ := hfault
      · cases he
      · exact ⟨hne, hline⟩
    · rintro ⟨hne, -⟩
      obtain ⟨hempty, -⟩ | ⟨-, fault, rfl⟩ := hfault
      · exact absurd hempty hne
      · exact ⟨fault, rfl⟩

/-- After any lines, a line has a fault of the reader when its outermost text has one, and only
then. Such a line does nothing but record that its evaluation begins. -/
theorem reader_faults_are_outermost (host : Host) (lines : List (String × Nat)) (line : String)
    {limit : Nat} (hlimit : 1 ≤ limit) :
    let s := Store.initial.after host (lines.map fun line => .evaluate line.1 line.2)
    let o := evaluateLine host limit line s
    ((∃ fault, o.result = .error (.invalidSubform fault)) ↔
      trim line ≠ "" ∧
        (isBracketed (trim line) = true ∧ (∃ e, splitForm (trim line) = .error e) ∨
          isBracketed (trim line) = false ∧ isAtom (trim line) = false)) ∧
    ∀ fault, o.result = .error (.invalidSubform fault) →
      o.store = s ∧ o.log = [.evaluate 0 (trim line)] := by
  intro s o
  have hs : s.Within reading.admits := within_reading_after host lines within_reading_initial
  obtain ⟨remaining, rfl⟩ := Nat.exists_eq_add_of_le' hlimit
  have hiff := exists_fault_iff host remaining line hs
  constructor
  · rw [← not_isExpression_iff]
    exact hiff
  · intro fault hresult
    obtain ⟨-, hline⟩ := hiff.mp ⟨fault, hresult⟩
    obtain ⟨e, houtcome, -⟩ :=
      evaluate_of_not_isExpression host remaining 0 Environment.empty hline s
    have ho : o = ⟨.error e, s, [.evaluate 0 (trim line)]⟩ := houtcome
    rw [ho]
    exact ⟨rfl, rfl⟩

/-- A line that does not end, after one that made a closure. -/
theorem unclosed_line_is_faulty :
    let host : Host := fun _ _ => .ok .nil
    let s := Store.initial.after host [.evaluate "(define f (lambda (x) x))" 320]
    ∃ fault, (evaluateLine host 1 "(f (quote a)" s).result = .error (.invalidSubform fault) := by
  intro host s
  have hlimit : 1 ≤ 1 := Nat.le_refl 1
  obtain ⟨hiff, -⟩ := reader_faults_are_outermost host
    [("(define f (lambda (x) x))", 320)] "(f (quote a)" hlimit
  have htrim : trim "(f (quote a)" = "(f (quote a)" := by cbv
  have hne : trim "(f (quote a)" ≠ "" := by
    rw [htrim]
    decide
  have hsplit : splitForm (trim "(f (quote a)") =
      .error (.invalidSubform (.unclosed "f (quote a)")) := by cbv
  exact hiff.mpr ⟨hne, Or.inl ⟨by cbv, _, hsplit⟩⟩

end TextLisp
