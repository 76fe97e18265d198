/-
  Diagnostics: the dropped lines of an evaluation, then its warnings, each with
  the line it is about and an arrow to what is said of it.

  The places of lines are counted in bytes, those of a drawing in characters:
  `Text.charOffset?` converts them.  A drawing breaks a document at more
  characters than an evaluation does (`Shown.isBreak`), so what is one line of
  the notebook may be drawn as several.  One drawn line is underlined, with an
  arrow from its middle; several have a bracket at their side, with an arrow from
  the last.
-/
import Notebook.Evaluation
import Notebook.Text.Width

namespace Notebook

/-! ## Places in characters -/

/-- Adds to `count` the number of characters that take up the first `bytes` bytes
    of a text; none if these stop within a character or after the end. -/
def Text.countChars? (count bytes : Nat) (t : Text) : Option Nat :=
  match bytes, t with
  | 0, _ => some count
  | _ + 1, [] => none
  | bytes, c :: rest =>
    if c.utf8Size ≤ bytes then countChars? (count + 1) (bytes - c.utf8Size) rest else none

/-- The place of a byte in characters, unless it is within a character or after
    the end. -/
def Text.charOffset? (t : Text) (bytes : Nat) : Option Nat := countChars? 0 bytes t

/-- The place of a byte in characters; the end of the text if there is none. -/
def Text.charOffset (t : Text) (bytes : Nat) : Nat := (charOffset? t bytes).getD t.length

/-! ## Drawn lines -/

/-- A line as it is drawn: its number from one, the number of characters before
    it, and its text with the characters that end it. -/
structure Shown where
  number : Nat
  offset : Nat
  text : Text
  deriving Repr

namespace Shown

/-- The characters that a drawing breaks lines at. -/
def isBreak (c : Char) : Bool :=
  c == '\r' || c == '\n' || c == '\x0b' || c == '\x0c' || c == '\u0085' || c == '\u2028' ||
    c == '\u2029'

/-- Adds the line whose characters are `taken` in reverse. -/
def add (done : Array Shown) (taken : Text) : Array Shown :=
  let offset := match done.back? with
    | some last => last.offset + last.text.length
    | none => 0
  done.push ⟨done.size + 1, offset, taken.reverse⟩

/-- The lines `done`, then those of the rest of a document, the first of which
    has the characters `taken` already, in reverse. -/
def collect (done : Array Shown) (taken : Text) : Text → Array Shown
  | [] => if taken.isEmpty then done else add done taken
  | '\r' :: '\n' :: rest => collect (add done ('\n' :: '\r' :: taken)) [] rest
  | c :: rest =>
    if isBreak c then collect (add done (c :: taken)) [] rest else collect done (c :: taken) rest

/-- The characters of a line without the blanks at its end. -/
def visible (s : Shown) : Text := Text.trimEnd s.text

/-- The columns of the character at index `i`: a tab reaches to the next multiple
    of four, and any other blank takes one column. -/
def columnsAt (i : Nat) (c : Char) : Nat :=
  if c = '\t' then 4 - i % 4 else if Text.isBlank c then 1 else Text.columns c

/-- The columns of the first `count` characters of a line; one for each that is
    not visible. -/
def columns (s : Shown) (count : Nat) : List Nat :=
  let widths := s.visible.zipIdx.map fun (c, i) => columnsAt i c
  widths.take count ++ List.replicate (count - widths.length) 1

/-- A line as it is drawn, blanks as spaces. -/
def drawing (s : Shown) : Text :=
  s.visible.zipIdx.flatMap fun (c, i) =>
    if Text.isBlank c then List.replicate (columnsAt i c) ' ' else [c]

end Shown

/-- The drawn lines of a document. -/
def Text.shown (document : Text) : List Shown := (Shown.collect #[] [] document).toList

/-! ## Diagnostics -/

/-- How bad a diagnostic is. -/
inductive Severity where
  | error
  | warning
  deriving DecidableEq, Repr

/-- The word a diagnostic starts with. -/
def Severity.word : Severity → Text
  | error => "Error"
  | warning => "Warning"

/-- Something to say about a line. -/
structure Diagnostic where
  severity : Severity
  span : Span
  message : Text
  /-- What the arrow points to. -/
  label : Text
  deriving Repr

namespace Diagnostic

/-- The diagnostic for a dropped line. -/
def ofOutcome? (o : Outcome) : Option Diagnostic :=
  match o.status with
  | .dropped name? fault =>
    let label : Text := match name? with
      | some name => "'" ++ name ++ "' is not bound"
      | none => "ignored"
    some ⟨.error, o.line.span, fault.message, label⟩
  | .skipped | .defined .. | .derived .. => none

/-- The diagnostic for a literal read as zero. -/
def ofFallback (f : Fallback) : Diagnostic := ⟨.warning, f.span, f.message, "read as 0"⟩

/-- The range of characters a diagnostic is about. -/
def range (document : Text) (d : Diagnostic) : Nat × Nat :=
  (Text.charOffset document d.span.start, Text.charOffset document d.span.stop)

/-! ## Drawing -/

/-- So many spaces. -/
def spaces (n : Nat) : Text := List.replicate n ' '

/-- The margin of a drawn line, with its number in `width` figures. -/
def numbered (width number : Nat) : Text :=
  let ds := Decimal.figures number
  ' ' :: spaces (width - ds.length) ++ ds ++ " │ "

/-- The margin of a row between drawn lines. -/
def margin (width : Nat) : Text := spaces (width + 2) ++ "│ "

/-- The underline below `count` characters, marked at the character `mark`. -/
def underline (count mark : Nat) (widths : List Nat) : Text :=
  widths.zipIdx.flatMap fun (w, i) =>
    if i = mark then List.replicate (min w 1) '┬' ++ List.replicate (w - 1) '─'
    else List.replicate w (if i < count then '─' else ' ')

/-- The arrow from the character `mark` to the right. -/
def arrow (mark : Nat) (widths : List Nat) : Text :=
  widths.zipIdx.flatMap fun (w, i) =>
    if i = mark then List.replicate (min w 1) '╰' ++ List.replicate (w - 1) '─'
    else List.replicate w (if i < mark then ' ' else '─')

/-- One drawn line, `count` characters of which are marked. -/
def drawOne (width count : Nat) (label : Text) (s : Shown) : List Text :=
  let widths := s.columns (count + 2)
  let mark := count / 2
  [numbered width s.number ++ s.drawing,
    margin width ++ underline count mark widths,
    margin width ++ arrow mark widths ++ " " ++ label]

/-- Several drawn lines: the first, a gap if there are more than two, the last. -/
def drawMany (width : Nat) (label : Text) (first : Shown) (gap : Bool) (last : Shown) :
    List Text :=
  let columns := (last.columns (last.text.length + 2)).foldl (· + ·) 0
  [numbered width first.number ++ "╭─▶ " ++ first.drawing] ++
    (if gap then [spaces (width + 2) ++ "┆ ┆   "] else []) ++
    [numbered width last.number ++ "├─▶ " ++ last.drawing,
      margin width ++ "│   " ++ spaces columns,
      margin width ++ "╰───" ++ List.replicate columns '─' ++ " " ++ label]

/-- The drawn lines that characters `start` to `stop` are on, of which there is
    at least one character. -/
def shownBetween (lines : List Shown) (start stop : Nat) : List Shown :=
  lines.filter fun s => start < s.offset + s.text.length && s.offset < stop

/-- The lines of a diagnostic about a document, which is drawn as `shown`. -/
def lines (source document : Text) (shown : List Shown) (d : Diagnostic) : List Text :=
  let (start, stop) := d.range document
  let head := d.severity.word ++ ": line " ++ Decimal.figures d.span.line ++ ": " ++ d.message
  match shownBetween shown start stop with
  | [] => [head]
  | first :: rest =>
    let last := rest.getLastD first
    let width := (Decimal.figures last.number).length
    let body := if rest.isEmpty then drawOne width (stop - start) d.label first
      else drawMany width d.label first (1 < rest.length) last
    [head, spaces (width + 2) ++ "╭─[" ++ source ++ ":" ++ Decimal.figures first.number ++ ":1]",
      spaces (width + 2) ++ "│"] ++ body ++ [List.replicate (width + 2) '─' ++ "╯"]

end Diagnostic

/-- All there is to say about an evaluation: first the dropped lines, then the
    warnings. -/
def Evaluation.diagnostics (e : Evaluation) : List Diagnostic :=
  e.outcomes.toList.filterMap Diagnostic.ofOutcome? ++
    e.fallbacks.toList.map Diagnostic.ofFallback

/-- The diagnostics of an evaluation of a document, as they are printed; `source`
    names the document. -/
def Evaluation.report (source document : Text) (e : Evaluation) : Text :=
  let shown := Text.shown document
  e.diagnostics.flatMap fun d =>
    (d.lines source document shown).flatMap fun line => line ++ ['\n']

end Notebook
