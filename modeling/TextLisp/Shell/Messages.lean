namespace TextLisp.Shell

def line (text : String) : String :=
  text ++ "\n"

def block (texts : List String) : String :=
  String.join (texts.map line)

def usage : String :=
  block
    ["Usage: minilisp [FILE]",
      "",
      "Evaluates each non-empty line of FILE in order, printing every result.",
      "Without FILE, starts an interactive session.",
      "",
      "Options:",
      "  -h, --help    Show this message",
      "",
      "Set RUST_LOG=debug (or trace) to log evaluation steps to stderr."]

def banner : String :=
  block
    ["minilisp - a minimal S-expression evaluator",
      "Enter expressions like: (define square (lambda (x) (* x x)))",
      "Type :help for more commands, or Ctrl+D to exit.",
      ""]

def farewell : String :=
  line "Goodbye!"

def help : String :=
  block
    ["Commands:",
      "  :help      - Show this help message",
      "  :env       - Show global bindings",
      "  :quit      - Exit the interpreter",
      "  :exit      - Exit the interpreter",
      "  Ctrl+C/D   - Exit the interpreter",
      "",
      "Special forms:",
      "  (define name expr)      bind a new global name",
      "  (set! name expr)        overwrite the nearest existing binding",
      "  (if test then else)     evaluate one branch",
      "  (quote expr)            expr as data",
      "  (lambda (params) body)  make a procedure",
      "",
      "Values: numbers (42, -1.5, 2e3), #t, #f, nil, lists via quote or list",
      "Primitives: + - * / < <= > >= = abs expt max min car cdr cons list",
      "            equal? not null? pi",
      "",
      "Examples:",
      "  (define square (lambda (x) (* x x)))",
      "  (square 5)",
      "  ((lambda (x y) (+ x y)) 3 4)",
      "  (car (quote (1 2 3)))",
      ""]

end TextLisp.Shell
