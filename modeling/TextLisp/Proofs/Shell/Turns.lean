import TextLisp.Shell.Basic

namespace TextLisp.Shell

/-- A line, with the store that it meets and what is printed for it. -/
structure Turn where
  store : Store
  text : String
  printed : String

def fileTurns (s : Store) : List String → List Turn
  | [] => []
  | text :: rest =>
    let (printed, s') := evaluateLine s text
    ⟨s, text, printed⟩ :: fileTurns s' rest

def sessionTurns (s : Store) : List String → List Turn
  | [] => []
  | text :: rest =>
    match respond s text with
    | (_, none) => []
    | (printed, some s') => ⟨s, text, printed⟩ :: sessionTurns s' rest

def printed : List Turn → String
  | [] => ""
  | turn :: turns => turn.printed ++ printed turns

def endsSession (text : String) : Bool :=
  text == ":quit" || text == ":exit"

def asksToShow (text : String) : Bool :=
  text == ":help" || text == ":env"

theorem evaluateLine_eq (s : Store) (text : String) :
    evaluateLine s text =
      (outcomeText (TextLisp.evaluateLine host defaultLimit text s).result,
        (TextLisp.evaluateLine host defaultLimit text s).store) := by
  unfold evaluateLine
  rfl

/-- A file prints its turns. -/
theorem printLines_eq_printed (s : Store) (texts : List String) :
    printLines s texts = printed (fileTurns s texts) := by
  induction texts generalizing s with
  | nil => rfl
  | cons text rest ih =>
    rw [printLines, fileTurns, printed, ← ih]

theorem map_text_fileTurns (s : Store) (texts : List String) :
    (fileTurns s texts).map Turn.text = texts := by
  induction texts generalizing s with
  | nil => rfl
  | cons text rest ih => exact congrArg (text :: ·) (ih _)

/-- A request to leave prints the farewell and leaves no store. -/
theorem respond_of_endsSession {text : String} (h : endsSession text = true) (s : Store) :
    respond s text = (farewell, none) := by
  rw [endsSession, Bool.or_eq_true, beq_iff_eq, beq_iff_eq] at h
  obtain rfl | rfl := h <;> rfl

theorem respond_of_asksToShow {text : String} (h : asksToShow text = true) (s : Store) :
    ∃ shown, respond s text = (shown, some s) := by
  rw [asksToShow, Bool.or_eq_true, beq_iff_eq, beq_iff_eq] at h
  obtain rfl | rfl := h
  · exact ⟨help, rfl⟩
  · exact ⟨listing s.globals, rfl⟩

theorem respond_of_expression {text : String} (hends : endsSession text = false)
    (hshow : asksToShow text = false) (s : Store) :
    respond s text = ((evaluateLine s text).1, some (evaluateLine s text).2) := by
  obtain ⟨hhelp, hlisting⟩ := Bool.or_eq_false_iff.mp hshow
  have hrequest : Request.ofLine text = .evaluate text := by
    rw [Request.ofLine, hhelp, hlisting]
    exact if_neg (Bool.eq_false_iff.mp hends)
  rw [respond, hrequest]

theorem exists_respond {text : String} (h : endsSession text = false) (s : Store) :
    ∃ shown s', respond s text = (shown, some s') := by
  cases hshow : asksToShow text with
  | true =>
    obtain ⟨shown, hshown⟩ := respond_of_asksToShow hshow s
    exact ⟨shown, s, hshown⟩
  | false => exact ⟨_, _, respond_of_expression h hshow s⟩

section

variable {text : String} (s : Store) (rest : List String)

theorem sessionTurns_of_endsSession (h : endsSession text = true) :
    sessionTurns s (text :: rest) = [] := by
  rw [sessionTurns, respond_of_endsSession h]

theorem sessionTurns_of_asksToShow (h : asksToShow text = true) :
    ∃ shown, sessionTurns s (text :: rest) = ⟨s, text, shown⟩ :: sessionTurns s rest := by
  obtain ⟨shown, hshown⟩ := respond_of_asksToShow h s
  exact ⟨shown, by rw [sessionTurns, hshown]⟩

theorem sessionTurns_of_expression (hends : endsSession text = false)
    (hshow : asksToShow text = false) :
    sessionTurns s (text :: rest) =
      ⟨s, text, (evaluateLine s text).1⟩ :: sessionTurns (evaluateLine s text).2 rest := by
  rw [sessionTurns, respond_of_expression hends hshow]

end

/-- Every turn prints the response to its line. -/
theorem printed_of_mem_sessionTurns {s : Store} {texts : List String} {turn : Turn}
    (h : turn ∈ sessionTurns s texts) : turn.printed = (respond turn.store turn.text).1 := by
  fun_induction sessionTurns s texts with
  | case1 => cases h
  | case2 => cases h
  | case3 s text rest shown s' hrespond ih =>
    obtain rfl | h := List.mem_cons.mp h
    · exact (congrArg Prod.fst hrespond).symm
    · exact ih h

/-- A session takes its lines up to the first request to leave it. -/
theorem map_text_sessionTurns (s : Store) (texts : List String) :
    (sessionTurns s texts).map Turn.text = texts.takeWhile fun text => !endsSession text := by
  induction texts generalizing s with
  | nil => rfl
  | cons text rest ih =>
    cases hends : endsSession text with
    | true =>
      rw [sessionTurns_of_endsSession s rest hends, List.takeWhile_cons_of_neg (by simp [hends])]
      rfl
    | false =>
      rw [List.takeWhile_cons_of_pos (by simp [hends])]
      cases hshow : asksToShow text with
      | true =>
        obtain ⟨shown, hturns⟩ := sessionTurns_of_asksToShow s rest hshow
        rw [hturns, List.map_cons, ih]
      | false => rw [sessionTurns_of_expression s rest hends hshow, List.map_cons, ih]

/-- Without the turns that show something, a session is the evaluation of the other lines. -/
theorem filter_sessionTurns (s : Store) (texts : List String) :
    ((sessionTurns s texts).filter fun turn => !asksToShow turn.text) =
      fileTurns s ((texts.takeWhile fun text => !endsSession text).filter
        fun text => !asksToShow text) := by
  induction texts generalizing s with
  | nil => rfl
  | cons text rest ih =>
    cases hends : endsSession text with
    | true =>
      rw [sessionTurns_of_endsSession s rest hends, List.takeWhile_cons_of_neg (by simp [hends])]
      rfl
    | false =>
      rw [List.takeWhile_cons_of_pos (by simp [hends])]
      cases hshow : asksToShow text with
      | true =>
        -- The store is left as it is, so the other lines go on from where a file would be.
        obtain ⟨shown, hturns⟩ := sessionTurns_of_asksToShow s rest hshow
        rw [hturns, List.filter_cons_of_neg (by simp [hshow]),
          List.filter_cons_of_neg (by simp [hshow]), ih]
      | false =>
        rw [sessionTurns_of_expression s rest hends hshow, List.filter_cons_of_pos (by simp [hshow]),
          List.filter_cons_of_pos (by simp [hshow]), ih, fileTurns]

end TextLisp.Shell
