import TextLisp.Builtin
import TextLisp.Environment

namespace TextLisp

/-- One record of the log. -/
inductive Record where
  /-- An evaluation begins, this deep. -/
  | evaluate (depth : Nat) (text : String)
  /-- A global name is about to be bound to a value with this text. -/
  | define (name shown : String)
  /-- A binding is about to be overwritten by a value with this text. -/
  | assign (name shown : String)
  /-- A closure is made over so many frames. -/
  | lambda (params : String) (frames : Nat)
  /-- A closure is applied to so many arguments. -/
  | apply (params : String) (count : Nat) (body : String)
  deriving DecidableEq, Repr

namespace Record

def level : Record → String
  | evaluate _ _ => "TRACE"
  | _ => "DEBUG"

def message : Record → String
  | evaluate depth text => "evaluate[" ++ toString depth ++ "]: " ++ text
  | define name shown => "define " ++ name ++ " = " ++ shown
  | assign name shown => "set! " ++ name ++ " = " ++ shown
  | lambda params frames => "lambda " ++ params ++ " over " ++ toString frames ++ " frame(s)"
  | apply params count body =>
    "apply #<lambda " ++ params ++ "> to " ++ toString count ++ " argument(s): " ++ body

def render (r : Record) : String :=
  r.level ++ " " ++ r.message

end Record

/-- How a computation ends: a result or the error that ended it, the store as it was left, and the
records in the order in which they were made. Changes made before an error stay. -/
structure Outcome (α : Type) (β : Type := String) where
  result : Except Error α
  store : Store β
  log : List Record

def RunOver (β : Type) (α : Type) : Type :=
  Store β → Outcome α β

abbrev Run : Type → Type :=
  RunOver String

namespace Run

variable {β : Type}

protected def pure {α : Type} (a : α) : RunOver β α :=
  fun s => ⟨.ok a, s, []⟩

protected def bind {α γ : Type} (x : RunOver β α) (f : α → RunOver β γ) : RunOver β γ :=
  fun s =>
    match x s with
    | ⟨.ok a, s₁, log₁⟩ =>
      match f a s₁ with
      | ⟨result, s₂, log₂⟩ => ⟨result, s₂, log₁ ++ log₂⟩
    | ⟨.error e, s₁, log₁⟩ => ⟨.error e, s₁, log₁⟩

instance : Monad (RunOver β) where
  pure := Run.pure
  bind := Run.bind

/-- What follows a success begins with the store that it has left, and its records come after. -/
theorem bind_of_ok {α γ : Type} {x : RunOver β α} {f : α → RunOver β γ} {s s₁ : Store β} {a : α}
    {log : List Record} (h : x s = ⟨.ok a, s₁, log⟩) :
    (x >>= f) s = ⟨(f a s₁).result, (f a s₁).store, log ++ (f a s₁).log⟩ := by
  change Run.bind x f s = _
  rw [Run.bind, h]

/-- Nothing follows a failure. -/
theorem bind_of_error {α γ : Type} {x : RunOver β α} {f : α → RunOver β γ} {s s₁ : Store β}
    {e : Error} {log : List Record} (h : x s = ⟨.error e, s₁, log⟩) :
    (x >>= f) s = ⟨.error e, s₁, log⟩ := by
  change Run.bind x f s = _
  rw [Run.bind, h]

theorem pure_bind {α γ : Type} (a : α) (f : α → RunOver β γ) : Run.pure a >>= f = f a :=
  rfl

theorem bind_pure {α : Type} (x : RunOver β α) : x >>= Run.pure = x := by
  funext s
  rcases h : x s with ⟨e | a, s₁, log⟩
  · exact bind_of_error h
  · rw [bind_of_ok h]
    simp only [Run.pure, List.append_nil]

theorem bind_assoc {α γ δ : Type} (x : RunOver β α) (f : α → RunOver β γ) (g : γ → RunOver β δ) :
    x >>= f >>= g = x >>= fun a => f a >>= g := by
  funext s
  rcases h : x s with ⟨e | a, s₁, log₁⟩
  · rw [bind_of_error (bind_of_error h), bind_of_error h]
  · rw [bind_of_ok h]
    rcases h' : f a s₁ with ⟨e | b, s₂, log₂⟩
    · rw [bind_of_error h', bind_of_error (f := g) (by rw [bind_of_ok h, h'])]
    · rw [bind_of_ok h', bind_of_ok (f := g) (by rw [bind_of_ok h, h']), List.append_assoc]

instance : LawfulMonad (RunOver β) :=
  LawfulMonad.mk' (RunOver β) (fun x => bind_pure x) pure_bind bind_assoc

def fail {α : Type} (e : Error) : RunOver β α :=
  fun s => ⟨.error e, s, []⟩

def record (r : Record) : RunOver β Unit :=
  fun s => ⟨.ok (), s, [r]⟩

def store : RunOver β (Store β) :=
  fun s => ⟨.ok s, s, []⟩

def ofExcept {α : Type} : Except Error α → RunOver β α
  | .ok a => Run.pure a
  | .error e => fail e

def update (f : Store β → Except Error (Store β)) : RunOver β Unit :=
  fun s =>
    match f s with
    | .ok s' => ⟨.ok (), s', []⟩
    | .error e => ⟨.error e, s, []⟩

def extend (env : Environment) (bindings : List (String × Value β)) : RunOver β Environment :=
  fun s => ⟨.ok (env.push s.frames.size), s.addFrame (Table.ofList bindings), []⟩

def newClosure (params : String) (body : β) (env : Environment) : RunOver β (Value β) :=
  fun s => ⟨.ok (.procedure (.closure ⟨s.nextClosure, params, body, env⟩)),
    { s with nextClosure := s.nextClosure + 1 }, []⟩

section

variable {α : Type}

@[simp]
theorem fail_apply (e : Error) (s : Store β) : (fail e : RunOver β α) s = ⟨.error e, s, []⟩ :=
  rfl

@[simp]
theorem record_apply (r : Record) (s : Store β) :
    (record r : RunOver β Unit) s = ⟨.ok (), s, [r]⟩ :=
  rfl

@[simp]
theorem store_apply (s : Store β) : (store : RunOver β (Store β)) s = ⟨.ok s, s, []⟩ :=
  rfl

@[simp]
theorem pure_apply (a : α) (s : Store β) : (pure a : RunOver β α) s = ⟨.ok a, s, []⟩ :=
  rfl

@[simp]
theorem ofExcept_apply (r : Except Error α) (s : Store β) : ofExcept r s = ⟨r, s, []⟩ := by
  cases r <;> rfl

end

end Run

end TextLisp
