import TextLisp.Proofs.Evaluator.Discipline

namespace TextLisp

def Error.CountsTruly : Error → Prop
  | .arityMismatch arity got => ¬ arity.Accepts got
  | _ => True

/-- The procedures of the embedding program report arities truly. -/
def Host.CountsTruly (host : Host) : Prop :=
  ∀ name args e, host name args = .error e → e.CountsTruly

def counting : Invariant where
  text _ := True
  value _ := True
  error := Error.CountsTruly

theorem yields_apply_of_countsTruly {host : Host} (hhost : host.CountsTruly)
    (operation : Operation) (args : List Value) :
    Yields Error.CountsTruly (fun _ => True) (operation.apply host args) := by
  cases operation with
  | builtin operation =>
    have hclosed : IsClosedUnderLists (fun _ : Value => True) Error.CountsTruly :=
      ⟨fun _ => trivial, fun _ => trivial, fun _ => iff_of_true trivial fun _ _ => trivial,
        fun _ _ hrefuses => hrefuses, fun _ _ _ _ => trivial⟩
    exact operation.yields_apply hclosed fun _ _ => trivial
  | host name =>
    change Yields _ _ (host name args)
    cases hresult : host name args with
    | ok value => exact .ok trivial
    | error e => exact .error (hhost name args e hresult)

theorem isInductive_counting {host : Host} (hhost : host.CountsTruly) :
    counting.IsInductive host := by
  have hfault (e : Error) (he : ∃ fault, e = .invalidSubform fault) : e.CountsTruly := by
    obtain ⟨fault, rfl⟩ := he
    exact trivial
  have hparameters (params : String) :
      Yields Error.CountsTruly (fun _ => True) (parameterNames params) := by
    have hnames : Yields Error.CountsTruly (fun names => parameterNames params = .ok names)
        (parameterNames params) := by
      apply yields_parameterNames trivial
      intro _
      exact (yields_splitForm params).mono hfault fun _ _ _ _ => ⟨trivial, trivial⟩
    exact hnames.mono (fun _ he => he) fun _ _ => trivial
  constructor
  case form =>
    intro text _ _
    exact (yields_splitForm _).mono hfault fun _ _ _ _ => trivial
  case atom =>
    intro env s text hs _ _
    exact yields_atomValue hs env (fun _ => trivial) trivial (fun _ _ => trivial)
      fun _ _ => trivial
  case quoted =>
    intro text _
    exact (yields_datum text).mono hfault fun _ _ => trivial
  case parameters =>
    intro params body _ _
    exact (hparameters params).mono (fun _ he => he) fun _ _ _ _ => trivial
  case closure =>
    intro c _
    exact ⟨trivial, hparameters c.params⟩
  case primitive =>
    intro p args _ _
    exact yields_apply_of_countsTruly hhost p.operation args
  case arityMismatch => exact fun _ _ hrefuses => hrefuses
  all_goals
    intros
    exact trivial

/-- A call fails with an arity that does not accept the number of arguments, if it fails with one. -/
theorem not_accepts_of_applyClosure {host : Host} (hhost : host.CountsTruly) {remaining depth : Nat}
    {env : Environment} {c : Closure} {args : List Value} {s : Store} {arity : Arity} {got : Nat}
    (h : (applyClosure (evaluate host remaining depth) env c args s).result =
      .error (.arityMismatch arity got)) : ¬ arity.Accepts got := by
  have hI := isInductive_counting hhost
  have hevaluate (env : Environment) (text : String) (_ : counting.text text) :
      counting.Keeps counting.value (evaluate host remaining depth env text) :=
    Invariant.keeps_evaluate hI rfl trivial env trivial
  have hkeeps : counting.Keeps counting.value (applyClosure (evaluate host remaining depth) env c args) :=
    Invariant.keeps_applyClosure hI hevaluate env trivial fun _ _ => trivial
  have hyields := (hkeeps s fun _ _ _ _ => trivial).2
  rw [h] at hyields
  cases hyields with
  | error hrefuses => exact hrefuses

end TextLisp
