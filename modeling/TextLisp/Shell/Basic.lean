import TextLisp.Session
import TextLisp.Shell.Listing

namespace TextLisp.Shell

def host : Host :=
  fun name _ => .error (.unboundVariable name)

/-- Why a line reader hands on no line. What the surroundings report of a panic is printed where it
happens, and its message is not always known. -/
inductive Interruption where
  | closed
  | failed (reason : String)
  | panicked (report : String) (message : Option String)
  deriving DecidableEq, Repr

/-- A line reader may be unavailable, for a reason. It is given a line with the newline that ends
it. -/
structure LineReader where
  unavailable : Option String
  receive : String → Except Interruption String

def dropReturn (text : String) : String :=
  if text.toList.getLast? = some '\r' then String.ofList text.toList.dropLast else text

def LineReader.plain : LineReader where
  unavailable := none
  receive raw :=
    if raw.toList.getLast? = some '\n' then .ok (dropReturn (String.ofList raw.toList.dropLast))
    else .ok raw

/-- What is printed for the result of a line. Faults of the language stand alone, others are
announced as errors, and the unspecified mark prints nothing. -/
def outcomeText : Except Error Value → String
  | .ok value => if value.isUnspecified then "" else line value.render
  | .error e => if e.isSyntax then line e.message else line ("Error: " ++ e.message)

/-- Evaluates a line. Gives what it prints and the store it leaves. -/
def evaluateLine (s : Store) (text : String) : String × Store :=
  let outcome := TextLisp.evaluateLine host defaultLimit text s
  (outcomeText outcome.result, outcome.store)

def splitLines : List Char → List (List Char)
  | [] => [[]]
  | c :: cs =>
    if c = '\n' then [] :: splitLines cs
    else
      match splitLines cs with
      | [] => [[c]]
      | piece :: pieces => (c :: piece) :: pieces

/-- The lines of a file, trimmed. Those that are blank are left out. -/
def fileLines (text : String) : List String :=
  ((splitLines text.toList).map fun cs => String.ofList (Text.trimChars cs)).filter (· != "")

/-- Pieces with the newlines between them put back. An empty last piece is no line. -/
def endLines : List (List Char) → List String
  | [] => []
  | [last] => if last.isEmpty then [] else [String.ofList last]
  | piece :: pieces => line (String.ofList piece) :: endLines pieces

def inputLines (text : String) : List String :=
  endLines (splitLines text.toList)

def printLines (s : Store) : List String → String
  | [] => ""
  | text :: rest =>
    let (printed, s') := evaluateLine s text
    printed ++ printLines s' rest

inductive Request where
  | help | listing | quit
  | evaluate (text : String)

def Request.ofLine (text : String) : Request :=
  if text == ":help" then .help
  else if text == ":env" then .listing
  else if text == ":quit" || text == ":exit" then .quit
  else .evaluate text

def respond (s : Store) (text : String) : String × Option Store :=
  match Request.ofLine text with
  | .help => (help, some s)
  | .listing => (listing s.globals, some s)
  | .quit => (farewell, none)
  | .evaluate text =>
    let (printed, s') := evaluateLine s text
    (printed, some s')

inductive ReadFailure where
  | missing | directory | notText
  | other (reason : String)
  deriving DecidableEq, Repr

def ReadFailure.message : ReadFailure → String
  | .missing => "No such file or directory (os error 2)"
  | .directory => "Is a directory (os error 21)"
  | .notText => "stream did not contain valid UTF-8"
  | .other reason => reason

inductive Invocation where
  | session | usage | misuse
  | file (path : String)
  deriving DecidableEq, Repr

def Invocation.ofArgs : List String → Invocation
  | [] => .session
  | [arg] => if arg == "-h" || arg == "--help" then .usage else .file arg
  | _ => .misuse

structure Answer where
  output : String
  errors : String
  code : UInt32
  deriving DecidableEq, Repr

def Answer.success (output : String) : Answer :=
  ⟨output, "", 0⟩

def Answer.failure (message : String) : Answer :=
  ⟨"", line ("Error: " ++ message), 2⟩

def answerFile (path : String) : Except ReadFailure String → Answer
  | .ok content => .success (printLines Store.initial (fileLines content))
  | .error failure => .failure ("cannot read " ++ path ++ ": " ++ failure.message)

def Interruption.answer : Interruption → Answer
  | .closed => .success farewell
  | .failed reason => .failure ("reading input failed: " ++ reason)
  | .panicked report message =>
    ⟨"", report ++ line "The interpreter encountered an unexpected error and must exit." ++
      line ("Error: " ++ message.getD "Unknown panic occurred"), 1⟩

inductive Step where
  | over (answer : Answer)
  | next (printed : String) (s : Store)

def takeLine (reader : LineReader) (s : Store) (raw : String) : Step :=
  match reader.receive raw with
  | .error interruption => .over interruption.answer
  | .ok received =>
    let text := Text.trim received
    if text = "" then .next "" s
    else
      match respond s text with
      | (printed, none) => .over (.success printed)
      | (printed, some s') => .next printed s'

def Answer.after (printed : String) (answer : Answer) : Answer :=
  { answer with output := printed ++ answer.output }

/-- The answer of a session that has these lines before it. The end of the input ends it. -/
def converse (reader : LineReader) (s : Store) : List String → Answer
  | [] => Interruption.closed.answer
  | raw :: rest =>
    match takeLine reader s raw with
    | .over answer => answer
    | .next printed s' => (converse reader s' rest).after printed

/-- The answer of a whole session. The banner is printed before the reader is set up. -/
def answerSession (reader : LineReader) (input : String) : Answer :=
  match reader.unavailable with
  | some reason => (Answer.failure ("could not initialize line editor: " ++ reason)).after banner
  | none => (converse reader Store.initial (inputLines input)).after banner

/-- The answer to too many arguments. The usage follows after an empty line. -/
def answerMisuse : Answer :=
  ⟨"", "Error: expected at most one FILE argument\n\n" ++ usage, 2⟩

def Invocation.answer (input : String) (read : String → Except ReadFailure String)
    (invocation : Invocation) (reader : LineReader := .plain) : Answer :=
  match invocation with
  | .session => answerSession reader input
  | .usage => .success Shell.usage
  | .misuse => answerMisuse
  | .file path => answerFile path (read path)

end TextLisp.Shell
