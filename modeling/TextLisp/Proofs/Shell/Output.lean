import TextLisp.Proofs.Evaluator.Line
import TextLisp.Proofs.Shell.Turns

namespace TextLisp.Shell

theorem line_ne_empty (content : String) : line content ≠ "" := by
  intro hempty
  have hlength := congrArg String.length hempty
  simp [line] at hlength

/-- What is printed for a result is one line, or nothing for the unspecified mark. -/
theorem outcomeText_of_yields {r : Except Error Value}
    (h : Yields Error.QuotesLines Value.IsLine r) :
    (outcomeText r = "" ↔ r = .ok .unspecified) ∧
    (r ≠ .ok .unspecified → ∃ content, outcomeText r = line content ∧ Text.IsLine content) := by
  have hprints {content : String} (hr : r ≠ .ok .unspecified) (hline : outcomeText r = line content)
      (hcontent : Text.IsLine content) : (outcomeText r = "" ↔ r = .ok .unspecified) ∧
        (r ≠ .ok .unspecified →
          ∃ content, outcomeText r = line content ∧ Text.IsLine content) := by
    refine ⟨iff_of_false ?_ hr, fun _ => ⟨content, hline, hcontent⟩⟩
    rw [hline]
    exact line_ne_empty content
  cases h with
  | @ok value hvalue =>
    cases hv : value.isUnspecified with
    | true =>
      cases value with
      | unspecified => exact ⟨iff_of_true rfl rfl, fun hne => absurd rfl hne⟩
      | _ => cases hv
    | false =>
      refine hprints ?_ (if_neg (Bool.eq_false_iff.mp hv)) hvalue.render
      rintro ⟨⟩
      cases hv
  | @error e he =>
    have hne : (Except.error e : Except Error Value) ≠ .ok .unspecified := by
      intro heq
      cases heq
    cases hsyntax : e.isSyntax with
    | true => exact hprints hne (if_pos hsyntax) he.message
    | false =>
      exact hprints hne (if_neg (Bool.eq_false_iff.mp hsyntax))
        (Text.isLine_append.mpr ⟨by decide, he.message⟩)

/-- Every turn begins with a store of lines, and prints the result of its line. -/
theorem of_mem_fileTurns {texts : List String} (h : ∀ text ∈ texts, Text.IsLine text) {s : Store}
    (hs : lines.Holds s) {turn : Turn} (hmem : turn ∈ fileTurns s texts) :
    lines.Holds turn.store ∧ Text.IsLine turn.text ∧
      turn.printed = outcomeText
        (TextLisp.evaluateLine host defaultLimit turn.text turn.store).result := by
  induction texts generalizing s with
  | nil => cases hmem
  | cons text rest ih =>
    obtain ⟨htext, hrest⟩ := List.forall_mem_cons.mp h
    rw [fileTurns, evaluateLine_eq] at hmem
    obtain rfl | hmem := List.mem_cons.mp hmem
    · refine ⟨hs, htext, ?_⟩
      dsimp only
    · exact ih hrest (keeps_lines_evaluateLine host defaultLimit htext s hs).1 hmem

/-- Lines without newlines are answered line by line, from the initial store on: the unspecified
mark prints nothing, and every other result prints a text with one newline, at its end. -/
theorem every_result_is_one_line {texts : List String} (h : ∀ text ∈ texts, '\n' ∉ text.toList) :
    let turns := fileTurns Store.initial texts
    turns.map Turn.text = texts ∧
    ∀ turn ∈ turns,
      let result := (TextLisp.evaluateLine host defaultLimit turn.text turn.store).result
      (turn.printed = "" ↔ result = .ok .unspecified) ∧
      (result ≠ .ok .unspecified →
        ∃ content, turn.printed = content ++ "\n" ∧ '\n' ∉ content.toList) := by
  intro turns
  refine ⟨map_text_fileTurns Store.initial texts, ?_⟩
  intro turn hmem result
  obtain ⟨hstore, htext, hprinted⟩ := of_mem_fileTurns h holds_lines_initial hmem
  have hyields : Yields Error.QuotesLines Value.IsLine result :=
    (keeps_lines_evaluateLine host defaultLimit htext turn.store hstore).2
  rw [hprinted]
  exact outcomeText_of_yields hyields

/-- A name that nothing binds is reported as unbound. -/
theorem evaluate_unbound (limit : Nat) {name : String} {s : Store} (hatom : Text.isAtom name = true)
    (hlookup : Environment.empty.lookup s name = none) (hnumeral : parseNumberExact name = none)
    (hnumeric : looksNumeric name = false) :
    (TextLisp.evaluateLine host (limit + 1) name s).result = .error (.unboundVariable name) := by
  have htrim : Text.trim name = name := Text.trim_of_isAtom hatom
  have hvalue : atomValue .empty s name = .error (.unboundVariable name) := by
    rw [atomValue_of_unbound hatom hlookup, hnumeral]
    exact if_neg (Bool.eq_false_iff.mp hnumeric)
  have htrimmed : Text.isAtom (Text.trim name) = true := by rwa [htrim]
  rw [TextLisp.evaluateLine, evaluate_atom htrimmed, htrim, hvalue]

/-- A line that is an unbound name is answered with that name. -/
theorem printed_unbound {name : String} {s : Store} (hatom : Text.isAtom name = true)
    (hlookup : Environment.empty.lookup s name = none) (hnumeral : parseNumberExact name = none)
    (hnumeric : looksNumeric name = false) :
    (evaluateLine s name).1 = line ("unbound variable: " ++ name) := by
  obtain ⟨limit, hlimit⟩ : ∃ limit, defaultLimit = limit + 1 := ⟨_, rfl⟩
  rw [evaluateLine_eq, hlimit, evaluate_unbound limit hatom hlookup hnumeral hnumeric]
  rfl

/-- A closure is stored, which prints nothing, and shown on the next line. -/
theorem stored_closure_is_shown_in_one_line :
    let texts := ["(define f (lambda (x) x))", "f", "b"]
    let turns := fileTurns Store.initial texts
    turns.map Turn.printed = ["", "#<lambda (x)>\n", "unbound variable: b\n"] ∧
    ∀ turn ∈ turns,
      let result := (TextLisp.evaluateLine host defaultLimit turn.text turn.store).result
      (turn.printed = "" ↔ result = .ok .unspecified) ∧
      (result ≠ .ok .unspecified →
        ∃ content, turn.printed = content ++ "\n" ∧ '\n' ∉ content.toList) := by
  intro texts turns
  have htexts : ∀ text ∈ texts, '\n' ∉ text.toList := by decide
  refine ⟨?_, (every_result_is_one_line htexts).2⟩
  obtain ⟨limit, hlimit⟩ : ∃ limit, defaultLimit = limit + 1 + 1 := ⟨_, rfl⟩
  let f : Value := .procedure (.closure ⟨0, "(x)", "x", .empty⟩)
  let s : Store := { Store.initial with nextClosure := 1 }
  let s' := s.put .globals "f" f
  have hdefine : evaluateLine Store.initial "(define f (lambda (x) x))" = ("", s') := by
    have hform : Text.splitForm "(define f (lambda (x) x))" =
        .ok ["define", "f", "(lambda (x) x)"] := by cbv
    have hlambda (s : Store) : evaluate host (limit + 1) 1 .empty "(lambda (x) x)" s =
        ⟨.ok (.procedure (.closure ⟨s.nextClosure, "(x)", "x", .empty⟩)),
          { s with nextClosure := s.nextClosure + 1 },
          [.evaluate 1 "(lambda (x) x)", .lambda "(x)" 0]⟩ := by cbv
    have hnew : Store.initial.globals.contains "f" = false := rfl
    rw [evaluateLine_eq, hlimit, TextLisp.evaluateLine,
      evaluate_definition host (limit + 1) 0 .empty hform (by cbv) hnew,
      Run.bind_of_ok (hlambda Store.initial), bindGlobal_apply]
    rfl
  have hshown : evaluateLine s' "f" = ("#<lambda (x)>\n", s') := by
    have hatom : Text.isAtom (Text.trim "f") = true := by cbv
    have htrim : Text.trim "f" = "f" := by cbv
    have hlookup : Environment.empty.lookup s' "f" = some f := rfl
    have hvalue : atomValue .empty s' "f" = .ok f :=
      atomValue_of_lookup (by cbv) hlookup (by simp [f])
    rw [evaluateLine_eq, hlimit, TextLisp.evaluateLine, evaluate_atom hatom, htrim, hvalue]
    rfl
  have hunbound : (evaluateLine s' "b").1 = "unbound variable: b\n" := by
    have hlookup : Environment.empty.lookup s' "b" = none := rfl
    exact printed_unbound (by cbv) hlookup (by cbv) (by cbv)
  simp [turns, texts, fileTurns, hdefine, hshown, hunbound]

end TextLisp.Shell
