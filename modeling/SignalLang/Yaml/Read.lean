import SignalLang.Text.Blank
import SignalLang.Yaml.Basic

/-!
# Reading YAML

A reader for documents that are laid out by indentation: mappings, sequences, plain scalars, scalars in
single and double quotes, blocks introduced by `|` and `>`, and flow collections.

The reader works on the lines that are left. The part of a line behind `- ` is read as a line of its own,
indented to where that part stands.
-/

namespace SignalLang.Yaml

/-- A line without its end; the last one of a text may have none. -/
structure Line where
  number : Nat
  chars : List Char
  ended : Bool := true

/-- Why a text is no document. `start` is the line on which the part in question starts, and `line` the one
on which the reader stopped. -/
inductive ReadError where
  /-- There is nothing but blanks and comments. -/
  | nothing
  /-- The characters do not make up a scalar or a key. -/
  | unreadable (start line : Nat) (problem : String)
  /-- What comes next does not belong to the collection that it stands in. -/
  | misplaced (start line : Nat) (problem : String)
deriving DecidableEq, Repr

/-- The line an error speaks of: where the part starts, unless that is the first line, which is never named. -/
def namedLine (start line : Nat) : Option Nat :=
  if start > 1 then some start else if line > 1 then some line else none

/-- The words for an error. A misplaced part is named by the line before it. -/
def ReadError.message : ReadError → String
  | .nothing => "EOF"
  | .unreadable start line problem =>
    "yaml: " ++ (namedLine start line).elim "" (fun n => s!"line {n}: ") ++ problem
  | .misplaced start line problem =>
    "yaml: " ++ (namedLine start line).elim "" (fun n => s!"line {n - 1}: ") ++ problem

/-- The lines of a text, numbered from one. -/
def linesOf (s : String) : List Line :=
  let pieces := s.splitOn "\n"
  let line (p : String) (i : Nat) : Line :=
    let cs := p.toList
    ⟨i + 1, if cs.getLast? = some '\r' then cs.dropLast else cs, i + 1 < pieces.length⟩
  (pieces.zipIdx.map fun (p, i) => line p i).filter fun l => l.ended || !l.chars.isEmpty

namespace Line

/-- The number of leading spaces. -/
def indent (l : Line) : Nat := (l.chars.takeWhile (· = ' ')).length

/-- The characters behind the leading spaces. -/
def content (l : Line) : List Char := l.chars.dropWhile (· = ' ')

/-- Whether a line has no content of its own. -/
def isEmpty (l : Line) : Bool :=
  match l.chars.dropWhile Text.isBlank with
  | [] => true
  | c :: _ => c = '#'

/-- Whether a line has nothing but spaces. -/
def isBlank (l : Line) : Bool := l.content.isEmpty

/-- Whether a line starts an item of a sequence. -/
def isItem (l : Line) : Bool :=
  match l.content with
  | ['-'] => true
  | '-' :: c :: _ => Text.isBlank c
  | _ => false

end Line

/-- Drops lines without content. -/
def skipEmpty : List Line → List Line
  | [] => []
  | l :: ls => if l.isEmpty then skipEmpty ls else l :: ls

/-- Removes blanks from the end. -/
def trimEnd (cs : List Char) : List Char := (cs.reverse.dropWhile Text.isBlank).reverse

/-- Cuts a comment off, which starts at a `#` behind a blank. -/
def cutComment : (afterBlank : Bool) → List Char → List Char
  | _, [] => []
  | afterBlank, c :: cs => if afterBlank && c = '#' then [] else c :: cutComment (Text.isBlank c) cs

/-- The text of a plain scalar on one line. -/
def plainPart (cs : List Char) : List Char := trimEnd (cutComment true cs)

/-- Splits a line at the colon behind a plain key. -/
def splitPlainKey : List Char → Option (List Char × List Char)
  | [] => none
  | ':' :: rest =>
    match rest with
    | [] => some ([], [])
    | c :: _ =>
      if Text.isBlank c then some ([], rest) else (splitPlainKey rest).map fun (k, r) => (':' :: k, r)
  | c :: rest =>
    if Text.isBlank c && rest.head? = some '#' then none
    else (splitPlainKey rest).map fun (k, r) => (c :: k, r)

/-- The character of an escape of one letter. -/
def simpleEscape? : Char → Option Char
  | '0' => some (Char.ofNat 0)
  | 'a' => some (Char.ofNat 7)
  | 'b' => some (Char.ofNat 8)
  | 't' | '\t' => some '\t'
  | 'n' => some '\n'
  | 'v' => some (Char.ofNat 11)
  | 'f' => some (Char.ofNat 12)
  | 'r' => some '\r'
  | 'e' => some (Char.ofNat 27)
  | ' ' => some ' '
  | '"' => some '"'
  | '/' => some '/'
  | '\\' => some '\\'
  | 'N' => some (Char.ofNat 0x85)
  | '_' => some (Char.ofNat 0xA0)
  | 'L' => some (Char.ofNat 0x2028)
  | 'P' => some (Char.ofNat 0x2029)
  | _ => none

/-- The number of digits of an escape that writes a code. -/
def codeLength? : Char → Option Nat
  | 'x' => some 2
  | 'u' => some 4
  | 'U' => some 8
  | _ => none

/-- Why a quoted scalar cannot be read. -/
inductive QuoteFault where
  | unclosed
  | unknownEscape
  | notHexadecimal
  | noCharacter
deriving DecidableEq, Repr

/-- The words for a fault. -/
def QuoteFault.text : QuoteFault → String
  | .unclosed => "found unexpected end of stream"
  | .unknownEscape => "found unknown escape character"
  | .notHexadecimal => "did not find expected hexdecimal number"
  | .noCharacter => "found invalid Unicode character escape code"

/-- The character with a code that was written in an escape. -/
def coded (digits : List Char) : Except QuoteFault Char :=
  match Text.hexNumber? digits with
  | none => .error .notHexadecimal
  | some code => if code.isValidChar then .ok (Char.ofNat code) else .error .noCharacter

/-- What a quoted scalar says up to its closing quote, and what follows. -/
def quotedEnd (double : Bool) (cs : List Char) : Except QuoteFault (List Char × List Char) :=
  match cs with
  | [] => .error .unclosed
  | c :: rest =>
    if double then
      if c = '"' then .ok ([], rest)
      else if c = '\\' then
        match rest with
        | [] => .error .unclosed
        | e :: more =>
          match codeLength? e, simpleEscape? e with
          | some n, _ =>
            if more.length < n then .error .notHexadecimal
            else do
              let ch ← coded (more.take n)
              let (value, after) ← quotedEnd double (more.drop n)
              return (ch :: value, after)
          | none, some ch => do
            let (value, after) ← quotedEnd double more
            return (ch :: value, after)
          | none, none => .error .unknownEscape
      else do
        let (value, after) ← quotedEnd double rest
        return (c :: value, after)
    else if c = '\'' then
      match rest with
      | d :: more =>
        if d = '\'' then do
          let (value, after) ← quotedEnd double more
          return ('\'' :: value, after)
        else .ok ([], rest)
      | [] => .ok ([], [])
    else do
      let (value, after) ← quotedEnd double rest
      return (c :: value, after)
termination_by cs.length
decreasing_by all_goals (simp only [List.length_cons, List.length_drop]; omega)

/-- The line on which a text ends whose last line is the given one. -/
def Line.stop (l : Line) : Nat := if l.ended then l.number + 1 else l.number

/-- The front of a quoted scalar together with its next line: a line end folds into a space, blank lines into
line ends, and an escaped line end into nothing. -/
def joinQuoted (double : Bool) (front : List Char) (l : Line) : List Char :=
  let more := l.chars.dropWhile Text.isBlank
  if double && (front.reverse.takeWhile (· = '\\')).length % 2 = 1 then front.dropLast ++ more
  else
    let kept := if front.getLast? = some '\n' then front else trimEnd front
    if l.isBlank then kept ++ ['\n']
    else if kept.getLast? = some '\n' then kept ++ more
    else kept ++ ' ' :: more

/-- A quoted scalar that may go on over several lines: what it says, what follows on its last line, that line,
and the lines that are left. Its front was read up to the end of the line `current`. -/
def quotedOver (start : Nat) (double : Bool) (front : List Char) (current : Line) (lines : List Line) :
    Except ReadError (List Char × List Char × Line × List Line) :=
  match quotedEnd double front, lines with
  | .ok (value, after), _ => .ok (value, after, current, lines)
  | .error .unclosed, l :: ls => quotedOver start double (joinQuoted double front l) l ls
  | .error .unclosed, [] => .error (.unreadable start current.stop QuoteFault.unclosed.text)
  | .error fault, _ => .error (.unreadable start current.number fault.text)

/-- The key at the front of a line, and what follows its colon. -/
def keyOf? (cs : List Char) : Option (String × List Char) :=
  match cs with
  | [] => none
  | q :: rest =>
    if q = '"' ∨ q = '\'' then do
      let (value, after) ← (quotedEnd (q = '"') rest).toOption
      match after.dropWhile Text.isBlank with
      | ':' :: tail =>
        if tail.head?.all Text.isBlank then some (String.ofList value, tail) else none
      | _ => none
    else if q = '[' ∨ q = '\x7b' ∨ q = '#' ∨ q = '|' ∨ q = '>' then none
    else do
      let (key, tail) ← splitPlainKey cs
      if key.isEmpty then none else some (String.ofList (trimEnd key), tail)

/-! ### Blocks of text -/

/-- What becomes of the line ends at the end of a block. -/
inductive Chomp where
  | clip
  | strip
  | keep
deriving DecidableEq, Repr

/-- The header of a block behind its mark: how to treat its end, and its indentation if it is given. -/
def blockHeader (cs : List Char) : Chomp × Option Nat :=
  let marks := cs.takeWhile (!Text.isBlank ·)
  let chomp := if marks.contains '-' then .strip else if marks.contains '+' then .keep else .clip
  (chomp, (marks.find? Char.isDigit).map fun c => c.toNat - '0'.toNat)

/-- The lines of a block: those indented at least so far, and the blank ones between them. -/
def blockLines (indent : Nat) : List Line → List Line × List Line
  | [] => ([], [])
  | l :: ls =>
    if l.isBlank || l.indent ≥ indent then
      let (block, rest) := blockLines indent ls
      (l :: block, rest)
    else ([], l :: ls)

/-- The text of a line inside a block. -/
def blockText (indent : Nat) (l : Line) : List Char := l.chars.drop indent

/-- Joins the lines of a folded block. -/
def foldLines : List (List Char) → List Char
  | [] => []
  | [l] => l
  | l :: next :: rest =>
    let tail := foldLines (next :: rest)
    let isFlush (cs : List Char) : Bool := cs.head?.any (!Text.isBlank ·)
    if l.isEmpty then '\n' :: tail
    else if isFlush l && isFlush next then l ++ ' ' :: tail
    else if isFlush l && next.isEmpty then l ++ tail
    else l ++ '\n' :: tail

/-- Reads a block. `parent` is the indentation it must exceed, from one. -/
def readBlock (folded : Bool) (header : List Char) (parent : Nat) (lines : List Line) :
    String × List Line :=
  let (chomp, given) := blockHeader header
  let first := lines.find? (!·.isBlank)
  let indent := match given with
    | some n => parent + n - 1 + (if parent = 0 then 1 else 0)
    | none => first.elim parent fun l => max l.indent parent
  let (block, rest) := blockLines indent lines
  let trailing := (block.reverse.takeWhile (·.isBlank)).reverse
  let body := block.take (block.length - trailing.length)
  let texts := body.map (blockText indent)
  let text := if folded then foldLines texts else ['\n'].intercalate texts
  let lastEnd := if body.getLast?.any (·.ended) then ['\n'] else []
  let ending := match chomp with
    | .strip => []
    | .clip => lastEnd
    | .keep => lastEnd ++ (trailing.filter (·.ended)).map fun _ => '\n'
  (String.ofList (text ++ ending), rest)

/-! ### Flow collections -/

/-- Whether a character ends an item inside brackets. -/
def endsItem (c : Char) : Bool := c = ',' || c = '[' || c = ']' || c = '\x7b' || c = '\x7d'

/-- The plain text of an item inside brackets. A colon ends it where no other part of the item follows. -/
def flowPlain : List Char → List Char × List Char
  | [] => ([], [])
  | c :: rest =>
    if endsItem c || c = ':' && rest.head?.all (fun d => Text.isBlank d || endsItem d) then ([], c :: rest)
    else
      let (more, after) := flowPlain rest
      (c :: more, after)

mutual

/-- A value inside brackets. -/
def flowNode (line : Nat) : (fuel : Nat) → List Char → Option (Node × List Char)
  | 0, _ => none
  | fuel + 1, cs =>
    match cs.dropWhile Text.isBlank with
    | '[' :: rest => do
      let (items, after) ← flowItems line fuel rest
      return (.sequence line items, after)
    | '\x7b' :: rest => do
      let (entries, after) ← flowEntries line fuel rest
      return (.mapping line entries, after)
    | '"' :: rest => do
      let (value, after) ← (quotedEnd true rest).toOption
      return (.scalar line (String.ofList value) false, after)
    | '\'' :: rest => do
      let (value, after) ← (quotedEnd false rest).toOption
      return (.scalar line (String.ofList value) false, after)
    | cs =>
      let (value, after) := flowPlain cs
      some (.scalar line (String.ofList (trimEnd value)) true, after)

/-- The items up to the closing bracket. -/
def flowItems (line : Nat) : (fuel : Nat) → List Char → Option (List Node × List Char)
  | 0, _ => none
  | fuel + 1, cs =>
    match cs.dropWhile Text.isBlank with
    | ']' :: after => some ([], after)
    | cs => do
      let (item, after) ← flowNode line fuel cs
      match after.dropWhile Text.isBlank with
      | ',' :: rest =>
        let (items, after) ← flowItems line fuel rest
        return (item :: items, after)
      | ']' :: after => return ([item], after)
      | _ => none

/-- The entries up to the closing brace. -/
def flowEntries (line : Nat) : (fuel : Nat) → List Char →
    Option (List ((Nat × String) × Node) × List Char)
  | 0, _ => none
  | fuel + 1, cs =>
    match cs.dropWhile Text.isBlank with
    | '\x7d' :: after => some ([], after)
    | cs => do
      let (key, after) ← flowNode line fuel cs
      let name ← match key with
        | .scalar _ value _ => some value
        | _ => none
      let (value, after) ← match after.dropWhile Text.isBlank with
        | ':' :: rest => flowNode line fuel rest
        | rest => some (.absent line, rest)
      match after.dropWhile Text.isBlank with
      | ',' :: rest =>
        let (entries, after) ← flowEntries line fuel rest
        return (((line, name), value) :: entries, after)
      | '\x7d' :: after => return ([((line, name), value)], after)
      | _ => none

end

/-! ### Documents -/

/-- The end of a plain scalar that goes on over the lines indented at least so far. A line end folds into a
space, and the blank lines behind it, of which there have been `blanks`, into line ends. -/
def plainOver (parent : Nat) (blanks : Nat) : List Line → Except ReadError (List Char × List Line)
  | [] => .ok ([], [])
  | l :: ls =>
    if l.isBlank then plainOver parent (blanks + 1) ls
    else if l.isEmpty || l.indent < parent then .ok ([], l :: ls)
    else if (splitPlainKey l.content).isSome then
      .error (.unreadable l.number l.number "mapping values are not allowed in this context")
    else do
      let (more, rest) ← plainOver parent 0 ls
      let glue := if blanks = 0 then [' '] else List.replicate blanks '\n'
      return (glue ++ plainPart l.content ++ more, rest)

/-- A flow collection that may go on over several lines, with what follows on its last line, that line, and the
lines that are left. -/
def flowOver (start : Nat) (front : List Char) (current : Line) (lines : List Line) :
    Except ReadError (Node × List Char × Line × List Line) :=
  match flowNode start (2 * front.length + 2) front, lines with
  | some (node, after), _ => .ok (node, after, current, lines)
  | none, l :: ls => flowOver start (front ++ ' ' :: l.content) l ls
  | none, [] =>
    let close := if front.head? = some '[' then ']' else '\x7d'
    .error (.misplaced start current.stop ("did not find expected ',' or '" ++ String.singleton close ++ "'"))

/-- The lines that are left behind a scalar or collection that ends inside a line: what follows there, unless it
is a comment, counts as a line of its own. -/
def leftover (parent : Nat) (after : List Char) (current : Line) (lines : List Line) : List Line :=
  let rest : Line := { current with chars := List.replicate parent ' ' ++ after.dropWhile Text.isBlank }
  if rest.isEmpty then lines else rest :: lines

/-- A scalar or flow collection that starts at the given characters of a line. `parent` is the least
indentation of the lines that can belong to it. -/
def readInline (l : Line) (parent : Nat) (cs : List Char) (lines : List Line) :
    Except ReadError (Node × List Line) :=
  match cs with
  | [] => .ok (.absent l.number, lines)
  | c :: more =>
    if c = '|' ∨ c = '>' then
      let (value, rest) := readBlock (c = '>') more parent lines
      .ok (.scalar l.number value false, rest)
    else if c = '"' ∨ c = '\'' then do
      let (value, after, current, rest) ← quotedOver l.number (c = '"') more l lines
      return (.scalar l.number (String.ofList value) false, leftover parent after current rest)
    else if c = '[' ∨ c = '\x7b' then do
      let (node, after, current, rest) ← flowOver l.number cs l lines
      return (node, leftover parent after current rest)
    else if (splitPlainKey cs).isSome then
      .error (.unreadable l.number l.number "mapping values are not allowed in this context")
    else do
      let (tail, rest) ← plainOver parent 0 lines
      return (.scalar l.number (String.ofList (plainPart cs ++ tail)) true, rest)

/-- A line that starts at the part behind `- `. -/
def itemLine (l : Line) : Line :=
  { l with chars := List.replicate (l.indent + 1) ' ' ++ l.content.drop 1 }

mutual

/-- The node that starts on the next line with content, if that line is indented at least so far; otherwise
nothing. `line` is where it would have started. -/
def readNode (line : Nat) (parent : Nat) : (fuel : Nat) → List Line → Except ReadError (Node × List Line)
  | 0, lines => .ok (.absent line, lines)
  | fuel + 1, lines =>
    match skipEmpty lines with
    | [] => .ok (.absent line, [])
    | l :: ls =>
      if l.indent < parent then .ok (.absent line, l :: ls)
      else if l.isItem then do
        let (items, rest) ← readItems l.number l.indent true fuel (l :: ls)
        return (.sequence l.number items, rest)
      else
        match keyOf? l.content with
        | some _ => do
          let (entries, rest) ← readEntries l.number l.indent fuel (l :: ls)
          return (.mapping l.number entries, rest)
        | none => readInline l parent l.content ls
termination_by structural fuel => fuel

/-- The items of a sequence that starts on the line `start`. One that is indented on its own has to go on up to
a line that is indented less. -/
def readItems (start indent : Nat) (own : Bool) : (fuel : Nat) → List Line →
    Except ReadError (List Node × List Line)
  | 0, lines => .ok ([], lines)
  | fuel + 1, lines =>
    match skipEmpty lines with
    | [] => .ok ([], [])
    | l :: ls =>
      if l.indent = indent && l.isItem then do
        let inner := itemLine l
        let following := if inner.isEmpty then ls else inner :: ls
        let (item, rest) ← readNode l.number (indent + 1) fuel following
        let (items, rest) ← readItems start indent own fuel rest
        return (item :: items, rest)
      else if own && l.indent ≥ indent then
        .error (.misplaced start l.number "did not find expected '-' indicator")
      else .ok ([], l :: ls)
termination_by structural fuel => fuel

/-- The entries of a mapping that starts on the line `start`. A sequence may stand at the indentation of its
key. -/
def readEntries (start indent : Nat) : (fuel : Nat) → List Line →
    Except ReadError (List ((Nat × String) × Node) × List Line)
  | 0, lines => .ok ([], lines)
  | fuel + 1, lines =>
    match skipEmpty lines with
    | [] => .ok ([], [])
    | l :: ls =>
      if l.indent < indent then .ok ([], l :: ls)
      else if l.indent > indent || l.isItem then
        .error (.misplaced start l.number "did not find expected key")
      else
        match keyOf? l.content with
        | none => .error (.unreadable l.number l.number "could not find expected ':'")
        | some (key, tail) => do
          let value := tail.dropWhile Text.isBlank
          let (node, rest) ←
            if value.isEmpty || value.head? = some '#' then
              match skipEmpty ls with
              | next :: more =>
                if next.indent = indent && next.isItem then do
                  let (items, rest) ← readItems next.number indent false fuel (next :: more)
                  pure (Node.sequence next.number items, rest)
                else readNode l.number (indent + 1) fuel (next :: more)
              | [] => pure (Node.absent l.number, [])
            else readInline l (indent + 1) value ls
          let (entries, rest) ← readEntries start indent fuel rest
          return (((l.number, key), node) :: entries, rest)
termination_by structural fuel => fuel

end

/-- Whether a line marks the start of a document. -/
def isStart (l : Line) : Bool := trimEnd l.chars = ['-', '-', '-']

/-- Whether a line marks the end of a document, be it by the start of another. -/
def isEnd (l : Line) : Bool := isStart l || trimEnd l.chars = ['.', '.', '.']

/-- Reads the lines of a document. Where it has none, it would have started on the line `line`. -/
def readDocument (line : Nat) (lines : List Line) (fuel : Nat) : Except ReadError Node := do
  let (node, rest) ← readNode line 0 fuel lines
  match skipEmpty rest with
  | [] => return node
  | extra :: _ => throw (.misplaced 1 extra.number "did not find expected <document start>")

/-- Reads the first document of a text. -/
def read (s : String) : Except ReadError Node :=
  match skipEmpty (linesOf s) with
  | [] => .error .nothing
  | l :: ls =>
    let lines := if isStart l then ls else l :: ls
    readDocument l.number (lines.takeWhile (!isEnd ·)) (2 * s.length + 2)

end SignalLang.Yaml
