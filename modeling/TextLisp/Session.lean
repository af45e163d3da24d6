import TextLisp.Evaluator

namespace TextLisp

inductive Command where
  | evaluate (line : String) (limit : Nat)
  | define (name : String) (value : Value)
  | set (name : String) (value : Value)
  | addAlias (name target : String)
  | register (name : String) (arity : Arity) (operation : Operation)

/-- Carries out a command. Commands other than lines produce the unspecified mark, as binding forms
do. -/
def Command.perform (host : Host) : Command → Run Value
  | .evaluate line limit => evaluateLine host limit line
  | .define name value => do
    Run.update fun s => s.define name value
    return .unspecified
  | .set name value => do
    Run.update fun s => s.assign .globals name value
    return .unspecified
  | .addAlias name target => do
    Run.update fun s => s.define name (.aliasTo target)
    return .unspecified
  | .register name arity operation => do
    Run.update fun s => s.define name (.procedure (.primitive ⟨name, arity, operation⟩))
    return .unspecified

/-- The store after a list of commands. A command that fails leaves what it has changed so far. -/
def Store.after (host : Host) (s : Store) (commands : List Command) : Store :=
  commands.foldl (fun s command => (command.perform host s).store) s

def Store.initial : Store :=
  Store.ofGlobals initialGlobals

end TextLisp
