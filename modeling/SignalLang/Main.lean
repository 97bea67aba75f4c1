import SignalLang.Cli.Files
import SignalLang.Session

/-!
# The program

Reads the files a command line asks for, runs it, and prints what it said.
-/

namespace SignalLang.Cli

/-- Reads a file that may not exist. -/
def readFile? (path : String) : IO (Option String) := do
  try
    return some (← IO.FS.readFile path)
  catch _ => return none

/-- Adds the files among the paths that exist and are not known yet. -/
def gather (known : Storage) : List String → IO Storage
  | [] => return known
  | path :: rest => do
    match known.read path with
    | .ok _ => gather known rest
    | .error _ =>
      match ← readFile? path with
      | some text => gather (known.put (cleanPath path) text) rest
      | none => gather known rest

/-- Adds every file a job may ask for, until no more are found. -/
partial def gatherAll (j : Job) (known : Storage) : IO Storage := do
  let more ← gather known (j.wantedPaths known)
  if more.files.length = known.files.length then return known else gatherAll j more

/-- Adds the directory that the output of a job goes to, if it exists. -/
def gatherDirectory (j : Job) (known : Storage) : IO Storage := do
  let dir := Storage.parentOf (cleanPath j.output)
  try
    let _ ← IO.FS.readFile dir
    return known
  catch
    | .noFileOrDirectory .. => return known
    | _ => return { known with directories := dir :: known.directories }

/-- The milliseconds a job takes up to a phase. -/
def millisTo (j : Job) (storage : Storage) (p : Phase) : IO Nat := do
  let start ← IO.monoMsNow
  let _ ← IO.lazyPure fun _ => { j with phase := p, output := "" }.run storage fun _ => ""
  return (← IO.monoMsNow) - start

/-- The milliseconds of each phase up to that of a job: what it takes longer than the one before. -/
def phaseMillis (j : Job) (storage : Storage) : IO (Phase → String) := do
  let rec measure : List Phase → (spent : Nat) → (Phase → String) → IO (Phase → String)
    | [], _, acc => return acc
    | p :: rest, spent, acc => do
      let total ← millisTo j storage p
      let acc := fun q => if q = p then toString (total - spent) else acc q
      if p = j.phase then return acc else measure rest total acc
  measure Phase.all 0 fun _ => "0"

/-- Prints what a run said and writes what it changed. -/
def report (before : Storage) (r : Result) : IO UInt32 := do
  for (path, text) in r.storage.files do
    if before.read path |>.toOption.all (· ≠ text) then IO.FS.writeFile path text
  IO.print r.stdout
  IO.eprint r.stderr
  return r.code.toUInt32

/-- Reads an entry: more lines while its braces are open. -/
partial def readEntry (input : IO.FS.Stream) (entry : String) : IO (Option String) := do
  IO.print (if entry.isEmpty then "ns> " else "... ")
  (← IO.getStdout).flush
  let line ← input.getLine
  if line.isEmpty then return none
  let entry := entry ++ line
  if Session.isIncomplete entry then readEntry input entry else return some entry

/-- Takes entries until the session ends. -/
partial def converse (input : IO.FS.Stream) (s : Session) : IO UInt32 := do
  match ← readEntry input "" with
  | none => IO.println ""; return 0
  | some entry =>
    match s.eval entry with
    | (.quit, _) => return 0
    | (.fault m, _) => IO.eprintln (m.getD ""); return 2
    | (.say text, s) =>
      unless text.isEmpty do
        IO.println (String.ofList (text.toList.reverse.dropWhile (· = '\n')).reverse)
      converse input s

/-- Runs a command line. -/
def runIO (args : List String) : IO UInt32 := do
  let known ← gather {} (namedPaths args)
  match plan args known with
  | .finished r => report known r
  | .interactive options phase =>
    IO.eprintln s!"nodespeak {version}, printing {phase.text}. Type :help for commands."
    converse (← IO.getStdin) { options := options, phase := phase }
  | .compile job => do
    let storage ← gatherDirectory job (← gatherAll job known)
    let millis ← if job.perf then phaseMillis job storage else pure fun _ => "0"
    match job.run storage millis with
    | .ok r => report storage r
    | .error m => IO.eprintln (m.getD ""); return 2

end SignalLang.Cli

/-- The entry point. -/
def main (args : List String) : IO UInt32 := SignalLang.Cli.runIO args
