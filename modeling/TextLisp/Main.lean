import TextLisp.Shell.Basic

namespace TextLisp.Shell

def readContent (path : String) : IO (Except ReadFailure String) := do
  try
    match String.fromUTF8? (← IO.FS.readBinFile path) with
    | some content => return .ok content
    | none => return .error .notText
  catch e =>
    match e with
    | .noFileOrDirectory _ _ _ => return .error .missing
    | .inappropriateType _ _ _ => return .error .directory
    | e => return .error (.other (toString e))

def Answer.write (answer : Answer) : IO UInt32 := do
  IO.print answer.output
  IO.eprint answer.errors
  return answer.code

/-- Answers the lines of the input as they come. -/
partial def talk (reader : LineReader) (s : Store) : IO UInt32 := do
  let raw ← (← IO.getStdin).getLine
  if raw == "" then Interruption.closed.answer.write
  else
    match takeLine reader s raw with
    | .over answer => answer.write
    | .next printed s' =>
      IO.print printed
      talk reader s'

end TextLisp.Shell

open TextLisp.Shell in
def main (args : List String) : IO UInt32 := do
  match Invocation.ofArgs args with
  | .session =>
    IO.print banner
    talk .plain TextLisp.Store.initial
  | invocation =>
    let content ← match invocation with
      | .file path => readContent path
      | _ => pure (.error .missing)
    (invocation.answer "" fun _ => content).write
