import SignalLang.Compiler
import SignalLang.Text.Blank

/-!
# Interactive sessions

A session collects statements and compiles the whole program after each one. A statement is kept only if
the program with it still compiles. Entries that start with a colon are commands.
-/

namespace SignalLang

/-- The statements entered so far, and the phase to print. -/
structure Session where
  options : Options
  phase : Phase
  lines : List String := []
  storage : Storage := {}

/-- What an entry leads to. -/
inductive Reply where
  /-- A text to print, which may be empty. -/
  | say (text : String)
  | quit
  /-- The compiler broke down, sometimes with words for it. -/
  | fault (message : Option String)
deriving DecidableEq, Repr

namespace Session

/-- The name of the source that is compiled. -/
def sourceName : String := "repl.ns"

/-- The text of lines, each ended. -/
def programText (lines : List String) : String := "\n".intercalate lines ++ "\n"

/-- The program so far. -/
def source (s : Session) : String := programText s.lines

/-- The help text. -/
def help : String :=
  "Statements are added to the program when it still compiles.\n" ++
  "Commands:\n" ++
  "  :phase <name>  Print a different phase (ast, vague, resolved, trivial, llvmir)\n" ++
  "  :show          Print the accumulated source\n" ++
  "  :undo          Drop the last statement\n" ++
  "  :reset         Start over\n" ++
  "  :quit          Exit\n"

/-- Changes the phase. -/
def changePhase (s : Session) : (args : List String) → Reply × Session
  | [name] =>
    match Phase.ofName? name with
    | some phase => (.say "", { s with phase := phase })
    | none => (.say (Phase.unknownMessage name), s)
  | _ => (.say "usage: :phase <name>", s)

/-- A command with its arguments. -/
def command (s : Session) (name : String) (args : List String) : Reply × Session :=
  match name with
  | ":quit" | ":q" => (.quit, s)
  | ":help" => (.say help, s)
  | ":show" => (.say s.source, s)
  | ":reset" => (.say "", { s with lines := [] })
  | ":undo" => (.say "", { s with lines := s.lines.dropLast })
  | ":phase" => s.changePhase args
  | _ => (.say s!"unknown command {name} (try :help)", s)

/-- Compiles lines up to the phase of the session. -/
def dump (s : Session) (lines : List String) : Except CompileError String × Compiler :=
  let c := (Compiler.new s.options s.storage).addSource sourceName (programText lines)
  (Compiler.dump sourceName s.phase).run c

/-- Compiles the program with one more line, and keeps the line if that succeeds. -/
def extend (s : Session) (line : String) : Reply × Session :=
  match s.dump (s.lines ++ [line]) with
  | (.ok text, _) => (.say text, { s with lines := s.lines ++ [line] })
  | (.error (.fault m), _) => (.fault m, s)
  | (.error e, c) => (.say (e.render c.library), s)

/-- Takes one entry. -/
def eval (s : Session) (entry : String) : Reply × Session :=
  let entry := Text.trim entry
  if entry.startsWith ":" then
    match Text.words entry with
    | name :: args => s.command name args
    | [] => (.say "", s)
  else if entry.isEmpty then (.say "", s)
  else s.extend entry

/-- Whether an entry has braces that are not closed, so that more lines belong to it. -/
def isIncomplete (entry : String) : Bool := entry.toList.count '\x7b' > entry.toList.count '\x7d'

end Session

end SignalLang
