import TextLisp.Proofs.Shell.Lines
import TextLisp.Proofs.Shell.Output

namespace TextLisp.Shell

def beforeEnd (texts : List String) : List String :=
  texts.takeWhile fun text => !endsSession (Text.trim text)

def expressions (texts : List String) : List String :=
  (beforeEnd texts).filter fun text => !asksToShow (Text.trim text)

def backspace : Char := '\x08'

/-- What a reader hands on of the lines that are typed, and how the session ends then. Behind a
request to leave nothing is read. -/
def LineReader.handOn (reader : LineReader) : List String → List String × Interruption
  | [] => ([], .closed)
  | text :: rest =>
    match reader.receive (line text) with
    | .error interruption => ([], interruption)
    | .ok given =>
      if endsSession (Text.trim given) then ([given], .closed)
      else (given :: (reader.handOn rest).1, (reader.handOn rest).2)

/-- The reader takes no key in a line without backspaces. It hands such a line on, if need be
without the carriage return at its end. -/
def LineReader.IsPlain (reader : LineReader) : Prop :=
  ∀ text : String, '\n' ∉ text.toList → backspace ∉ text.toList →
    reader.receive (line text) = .ok (dropReturn text)

theorem isPlain_plain : LineReader.plain.IsPlain := by
  intro text _ _
  have hraw : (line text).toList = text.toList ++ ['\n'] := by simp [line]
  change (if (line text).toList.getLast? = some '\n' then _ else _) = _
  rw [hraw, if_pos List.getLast?_concat, List.dropLast_concat, String.ofList_toList]

def entered (given : List String) : List String :=
  (given.map Text.trim).filter (· != "")

def turnsOf (reader : LineReader) (typed : List String) : List Turn :=
  sessionTurns Store.initial (entered (reader.handOn typed).1)

def evaluations (reader : LineReader) (typed : List String) : List Turn :=
  (turnsOf reader typed).filter fun turn => !asksToShow turn.text

/-- A session on the lines `typed` does what a file of the expressions among the lines `given`
does. Both succeed without errors. What the session prints is what the file prints, with the
banner, the farewell and what requests have shown. -/
structure AgreesWithFile (reader : LineReader) (typed given : List String) : Prop where
  session (read : String → Except ReadFailure String) :
    Invocation.session.answer (block typed) read reader =
      ⟨banner ++ printed (turnsOf reader typed) ++ farewell, "", 0⟩
  file (path input : String) (read : String → Except ReadFailure String)
    (h : read path = .ok (block (expressions given))) :
    (Invocation.file path).answer input read reader = ⟨printed (evaluations reader typed), "", 0⟩
  shown : ∀ turn ∈ turnsOf reader typed, (turn.text = ":help" → turn.printed = help) ∧
    (turn.text = ":env" → turn.printed = listing turn.store.globals)
  same : evaluations reader typed =
    fileTurns Store.initial (fileLines (block (expressions given)))
  cut : (turnsOf reader typed).map Turn.text = entered (beforeEnd given)

section

variable {reader : LineReader} {s : Store} {raw given : String}

theorem takeLine_of_error {interruption : Interruption}
    (h : reader.receive raw = .error interruption) :
    takeLine reader s raw = .over interruption.answer := by
  rw [takeLine, h]

theorem takeLine_of_blank (h : reader.receive raw = .ok given) (hblank : Text.trim given = "") :
    takeLine reader s raw = .next "" s := by
  rw [takeLine, h]
  exact if_pos hblank

theorem takeLine_of_text (h : reader.receive raw = .ok given) (htext : Text.trim given ≠ "") :
    takeLine reader s raw =
      match respond s (Text.trim given) with
      | (printed, none) => .over (.success printed)
      | (printed, some s') => .next printed s' := by
  rw [takeLine, h]
  exact if_neg htext

theorem entered_cons_of_blank (hblank : Text.trim given = "") (rest : List String) :
    entered (given :: rest) = entered rest := by
  simp [entered, hblank]

theorem entered_cons_of_text (htext : Text.trim given ≠ "") (rest : List String) :
    entered (given :: rest) = Text.trim given :: entered rest := by
  simp [entered, htext]

end

theorem after_append (shown more : String) (answer : Answer) :
    answer.after (shown ++ more) = (answer.after more).after shown := by
  rw [Answer.after, Answer.after, Answer.after, String.append_assoc]

@[simp]
theorem after_empty (answer : Answer) : answer.after "" = answer := by
  rw [Answer.after, String.empty_append]

theorem sessionTurns_of_respond {s s' : Store} {text shown : String}
    (h : respond s text = (shown, some s')) (rest : List String) :
    sessionTurns s (text :: rest) = ⟨s, text, shown⟩ :: sessionTurns s' rest := by
  rw [sessionTurns, h]

/-- A session prints its turns, and ends as the reader has it end. -/
theorem converse_eq (reader : LineReader) (s : Store) (typed : List String) :
    converse reader s (typed.map line) =
      (reader.handOn typed).2.answer.after
        (printed (sessionTurns s (entered (reader.handOn typed).1))) := by
  induction typed generalizing s with
  | nil => exact (after_empty _).symm
  | cons text rest ih =>
    cases hreceive : reader.receive (line text) with
    | error interruption =>
      rw [List.map_cons, converse, takeLine_of_error hreceive, LineReader.handOn, hreceive]
      exact (after_empty _).symm
    | ok given =>
      rw [List.map_cons, LineReader.handOn, hreceive]
      dsimp only
      cases hends : endsSession (Text.trim given) with
      | true =>
        have htext : Text.trim given ≠ "" := by
          intro hblank
          rw [hblank] at hends
          cases hends
        rw [converse, takeLine_of_text hreceive htext, respond_of_endsSession hends, if_pos rfl,
          entered_cons_of_text htext, sessionTurns_of_endsSession s (entered []) hends]
        exact (after_empty _).symm
      | false =>
        rw [if_neg Bool.false_ne_true]
        by_cases hblank : Text.trim given = ""
        · rw [converse, takeLine_of_blank hreceive hblank, entered_cons_of_blank hblank, ← ih]
          exact after_empty _
        · obtain ⟨shown, s', hrespond⟩ := exists_respond hends s
          rw [converse, takeLine_of_text hreceive hblank, hrespond, entered_cons_of_text hblank,
            sessionTurns_of_respond hrespond, printed, after_append, ← ih]

/-- A session that has its reader prints its turns after the banner, also when it is interrupted. -/
theorem answer_session {reader : LineReader} (havailable : reader.unavailable = none)
    {typed : List String} (h : ∀ text ∈ typed, Text.IsLine text)
    (read : String → Except ReadFailure String) :
    Invocation.session.answer (block typed) read reader =
      (reader.handOn typed).2.answer.after (banner ++ printed (turnsOf reader typed)) := by
  rw [Invocation.answer, answerSession, havailable, inputLines_block h, converse_eq, after_append]
  rfl

/-- Of lines without backspaces a plain reader hands on all up to the request to leave, and they are
the same once trimmed. -/
theorem handOn_of_isPlain {reader : LineReader} (hplain : reader.IsPlain) {typed : List String}
    (hlines : ∀ text ∈ typed, '\n' ∉ text.toList)
    (hbackspace : ∀ text ∈ typed, backspace ∉ text.toList) :
    (reader.handOn typed).2 = .closed ∧
      ((reader.handOn typed).1.map Text.trim).takeWhile (fun text => !endsSession text) =
        (typed.map Text.trim).takeWhile fun text => !endsSession text := by
  induction typed with
  | nil => exact ⟨rfl, rfl⟩
  | cons text rest ih =>
    obtain ⟨hline, hlines⟩ := List.forall_mem_cons.mp hlines
    obtain ⟨hback, hbackspace⟩ := List.forall_mem_cons.mp hbackspace
    obtain ⟨hclosed, hsame⟩ := ih hlines hbackspace
    rw [LineReader.handOn, hplain text hline hback]
    dsimp only
    rw [trim_dropReturn]
    cases hends : endsSession (Text.trim text) with
    | true => simp [hends, trim_dropReturn]
    | false => simp [hends, trim_dropReturn, hclosed, hsame]

/-- An empty line does not end a session. -/
theorem takeWhile_filter_blank (texts : List String) :
    ((texts.filter (· != "")).takeWhile fun text => !endsSession text) =
      (texts.takeWhile fun text => !endsSession text).filter (· != "") := by
  have hgoesOn (text : String) : (!(text != "") || !endsSession text) = !endsSession text := by
    by_cases htext : text = ""
    · rw [htext]
      rfl
    · rw [bne_iff_ne.mpr htext, Bool.not_true, Bool.false_or]
  simp only [List.takeWhile_filter, hgoesOn]

section

variable {reader : LineReader} {typed given : List String}

/-- Of the lines before the end that are not blank, those that do not ask to be shown something
are the lines of the file. -/
theorem fileLines_expressions (h : ∀ text ∈ given, Text.IsLine text) :
    fileLines (block (expressions given)) =
      (entered (beforeEnd given)).filter fun text => !asksToShow text := by
  have hexpressions : ∀ text ∈ expressions given, Text.IsLine text := by
    intro text hmem
    exact h text ((List.takeWhile_prefix _).subset (List.mem_filter.mp hmem).1)
  have hshown : (expressions given).map Text.trim =
      ((beforeEnd given).map Text.trim).filter fun text => !asksToShow text := by
    rw [List.filter_map]
    rfl
  rw [fileLines_block hexpressions, hshown, entered, List.filter_comm]

theorem takeWhile_entered (given : List String) :
    ((entered given).takeWhile fun text => !endsSession text) =
      ((given.map Text.trim).takeWhile fun text => !endsSession text).filter (· != "") := by
  rw [entered, takeWhile_filter_blank]

/-- It is enough that the reader is not interrupted and hands on the given lines, up to their
trimming and the end. -/
theorem agreesWithFile (havailable : reader.unavailable = none)
    (htyped : ∀ text ∈ typed, Text.IsLine text) (hgiven : ∀ text ∈ given, Text.IsLine text)
    (hclosed : (reader.handOn typed).2 = .closed)
    (hsame : ((reader.handOn typed).1.map Text.trim).takeWhile (fun text => !endsSession text) =
      (given.map Text.trim).takeWhile fun text => !endsSession text) :
    AgreesWithFile reader typed given := by
  have hbefore : ((entered (reader.handOn typed).1).takeWhile fun text => !endsSession text) =
      entered (beforeEnd given) := by
    rw [takeWhile_entered, hsame, List.takeWhile_map]
    rfl
  have hevaluations : evaluations reader typed =
      fileTurns Store.initial (fileLines (block (expressions given))) := by
    rw [evaluations, turnsOf, filter_sessionTurns, hbefore, fileLines_expressions hgiven]
  refine ⟨?session, ?file, ?shown, hevaluations, ?cut⟩
  case session =>
    intro read
    rw [answer_session havailable htyped, hclosed]
    rfl
  case file =>
    intro path input read h
    rw [Invocation.answer, h, answerFile, printLines_eq_printed, ← hevaluations]
    rfl
  case shown =>
    intro turn hmem
    have hprinted := printed_of_mem_sessionTurns hmem
    constructor
    · intro htext
      rw [hprinted, htext]
      rfl
    · intro htext
      rw [hprinted, htext]
      rfl
  case cut => rw [turnsOf, map_text_sessionTurns, hbefore]

end

/-- A session does what a file does with the lines that its reader hands on, as long as nothing
interrupts it. A reader that takes no key but the backspace hands on lines without backspaces so
that the session does what a file does with the lines themselves. -/
theorem session_agrees_with_file {reader : LineReader} (havailable : reader.unavailable = none)
    {typed : List String} (h : ∀ text ∈ typed, '\n' ∉ text.toList) :
    (∀ given, reader.handOn typed = (given, .closed) → (∀ text ∈ given, '\n' ∉ text.toList) →
      AgreesWithFile reader typed given) ∧
    (reader.IsPlain → (∀ text ∈ typed, backspace ∉ text.toList) →
      AgreesWithFile reader typed typed) := by
  constructor
  · intro given hhanded hgiven
    have hclosed := congrArg Prod.snd hhanded
    have hsame := congrArg (fun handed : List String × Interruption =>
      (handed.1.map Text.trim).takeWhile fun text => !endsSession text) hhanded
    exact agreesWithFile havailable h hgiven hclosed hsame
  · intro hplain hbackspace
    obtain ⟨hclosed, hsame⟩ := handOn_of_isPlain hplain h hbackspace
    exact agreesWithFile havailable h h hclosed hsame

/-- A session ends on the request to leave, and shows the bindings before. -/
theorem session_shows_and_leaves :
    let texts := ["(define a 1)", " :env \r", "a", ":quit", "b"]
    let handed := ["(define a 1)", " :env ", "a", ":quit"]
    AgreesWithFile .plain texts handed ∧ AgreesWithFile .plain texts texts := by
  intro texts handed
  have hlines : ∀ text ∈ texts, '\n' ∉ text.toList := by decide
  have hbackspace : ∀ text ∈ texts, backspace ∉ text.toList := by decide
  have hhanded : LineReader.plain.handOn texts = (handed, .closed) := by decide
  have hhandedLines : ∀ text ∈ handed, '\n' ∉ text.toList := by decide
  obtain ⟨hhands, hplain⟩ := @session_agrees_with_file .plain rfl texts hlines
  exact ⟨hhands handed hhanded hhandedLines, hplain isPlain_plain hbackspace⟩

/-- A reader that takes back what is typed before a backspace parts a session from a file, which
keeps both characters. -/
theorem backspace_parts_session_from_file :
    let texts := ["x\x08"]
    let reader : LineReader := ⟨none, fun raw =>
      if backspace ∈ raw.toList then .ok "" else LineReader.plain.receive raw⟩
    let read := fun _ => .ok (block (expressions texts))
    let session := Invocation.session.answer (block texts) read reader
    let file := (Invocation.file "x").answer "" read reader
    reader.IsPlain ∧ session.output = banner ++ farewell ∧
      file.output = line "unbound variable: x\x08" ∧
      session.output ≠ banner ++ file.output ++ farewell ∧ ¬ AgreesWithFile reader texts texts := by
  intro texts reader read session file
  have hlines : ∀ text ∈ texts, '\n' ∉ text.toList := by decide
  have hhanded : reader.handOn texts = ([""], .closed) := by decide
  have hturns : turnsOf reader texts = [] := by
    rw [turnsOf, hhanded]
    rfl
  have hplain : reader.IsPlain := by
    intro text hline hback
    have hraw : backspace ∉ (line text).toList := by
      have hnewline : backspace ∉ ['\n'] := by decide
      rw [line, String.toList_append]
      exact fun hmem => (List.mem_append.mp hmem).elim hback hnewline
    exact (if_neg hraw).trans (isPlain_plain text hline hback)
  have hsession : session.output = banner ++ farewell := by
    change (Invocation.session.answer (block texts) read reader).output = _
    rw [answer_session rfl hlines, hturns, hhanded]
    rfl
  have hfile : file.output = line "unbound variable: x\x08" := by
    have hfileLines : fileLines (block (expressions texts)) = texts := by cbv
    have hlookup : Environment.empty.lookup Store.initial "x\x08" = none := rfl
    have hprinted := printed_unbound (by cbv) hlookup (by cbv) (by cbv)
    change printLines Store.initial (fileLines (block (expressions texts))) = _
    rw [hfileLines, printLines]
    change (evaluateLine Store.initial "x\x08").1 ++ "" = _
    rw [hprinted, String.append_empty]
    rfl
  refine ⟨hplain, hsession, hfile, ?_, ?_⟩
  · rw [hsession, hfile]
    intro heq
    have hlength := congrArg String.length heq
    simp only [String.length_append] at hlength
    apply line_ne_empty "unbound variable: x\x08"
    rw [← String.length_eq_zero_iff]
    omega
  · intro hagrees
    have hanswer := hagrees.file "x" "" read rfl
    rw [evaluations, hturns] at hanswer
    have hempty : file.output = "" := congrArg Answer.output hanswer
    rw [hfile] at hempty
    exact line_ne_empty _ hempty

end TextLisp.Shell
