/-
  The arguments of a program: switches and operands.

  A switch has a long form after two dashes and perhaps a letter after one.
  Letters may be written together.  The value of a switch is attached, after an
  equals sign or directly after its letter, or is the next argument if that does
  not start with a dash.  A lone dash is an operand, and all that follows two
  lone dashes are operands (`Arguments.read`).
-/
import Notebook.Numeral

namespace Notebook

/-- A switch of the program. -/
inductive Switch where
  | verbose
  | help
  | version
  | grammar
  | maxDepth
  | raw
  | json
  | force
  | file
  | host
  | port
  deriving DecidableEq, Repr

namespace Switch

/-- The long form of a switch. -/
def long : Switch → Text
  | verbose => "verbose"
  | help => "help"
  | version => "version"
  | grammar => "grammar"
  | maxDepth => "max-depth"
  | raw => "raw"
  | json => "json"
  | force => "force"
  | file => "file"
  | host => "host"
  | port => "port"

/-- The letter of a switch, if it has one. -/
def letter? : Switch → Option Char
  | verbose => some 'v'
  | help => some 'h'
  | version => some 'V'
  | grammar => some 'g'
  | raw => some 'r'
  | force | file => some 'f'
  | port => some 'p'
  | maxDepth | json | host => none

/-- Whether a switch has a value. -/
def takesValue : Switch → Bool
  | grammar | maxDepth | file | host | port => true
  | verbose | help | version | raw | json | force => false

end Switch

/-- Why a program stops at its arguments. -/
inductive Stop where
  /-- They ask for help. -/
  | help
  /-- They ask for the version. -/
  | version
  /-- They are not understood. -/
  | misuse
  deriving DecidableEq, Repr

/-- A switch with its value, or an operand. -/
inductive Argument where
  | switch (s : Switch) (value : Option Text)
  | operand (t : Text)
  deriving DecidableEq, Repr

namespace Arguments

/-! ## Reading -/

/-- A switch without value; help and the version stop the reading. -/
def bare : Switch → Except Stop Argument
  | .help => .error .help
  | .version => .error .version
  | s => .ok (.switch s none)

/-- A switch whose value is the next argument. -/
def detached (s : Switch) : Option Text → Except Stop Argument
  | some value =>
    if value = ['-'] ∨ value.head? ≠ some '-' then .ok (.switch s (some value))
    else .error .misuse
  | none => .error .misuse

/-- Reads letters written together, given the next argument: the switches, and
    whether that argument is the value of the last. -/
def readLetters (allowed : List Switch) (next : Option Text) :
    Text → Except Stop (List Argument × Bool)
  | [] => .ok ([], false)
  | c :: rest =>
    match allowed.find? fun s => s.letter? == some c with
    | none => .error .misuse
    | some s =>
      if s.takesValue then
        match rest with
        | [] => (detached s next).map fun a => ([a], true)
        | '=' :: value => .ok ([.switch s (some value)], false)
        | value => .ok ([.switch s (some value)], false)
      else do
        let first ← bare s
        let (more, taken) ← readLetters allowed next rest
        .ok (first :: more, taken)

/-- Reads a switch in its long form, with its value if that is attached. -/
def readLong (allowed : List Switch) (next : Option Text) (t : Text) :
    Except Stop (List Argument × Bool) :=
  let (name, value?) : Text × Option Text := match Text.cutAt? '=' t with
    | some (name, value) => (name, some value)
    | none => (t, none)
  match allowed.find? fun s => s.long == name with
  | none => .error .misuse
  | some s =>
    match s.takesValue, value? with
    | true, some value => .ok ([.switch s (some value)], false)
    | true, none => (detached s next).map fun a => ([a], true)
    | false, some _ => .error .misuse
    | false, none => (bare s).map fun a => ([a], false)

/-- Reads one argument, given the next. -/
def readOne (allowed : List Switch) (next : Option Text) :
    Text → Except Stop (List Argument × Bool)
  | '-' :: '-' :: t => readLong allowed next t
  | '-' :: c :: letters => readLetters allowed next (c :: letters)
  | t => .ok ([.operand t], false)

/-- Reads arguments of which these switches are allowed. -/
def read (allowed : List Switch) : List Text → Except Stop (List Argument)
  | [] => .ok []
  | t :: rest =>
    if t = ['-', '-'] then .ok (rest.map .operand)
    else do
      let (first, taken) ← readOne allowed rest.head? t
      let more ← read allowed (if taken then rest.tail else rest)
      .ok (first ++ more)
termination_by arguments => arguments.length
decreasing_by
  simp only [List.length_cons]
  split
  · simp only [List.length_tail]
    omega
  · omega

/-- Reads switches without values up to the first operand: that, and the
    arguments after it. -/
def readWord (allowed : List Switch) : List Text → Except Stop (Text × List Text)
  | [] => .error .misuse
  | t :: rest =>
    if t = ['-', '-'] then .error .misuse
    else do
      match ← readOne allowed none t with
      | ([.operand word], _) => .ok (word, rest)
      | _ => readWord allowed rest

/-! ## What was read -/

/-- The operands. -/
def operands (arguments : List Argument) : List Text :=
  arguments.filterMap fun
    | .operand t => some t
    | .switch .. => none

/-- The values that a switch was given with, one for each time. -/
def values (s : Switch) (arguments : List Argument) : List (Option Text) :=
  arguments.filterMap fun
    | .switch s' value => if s' = s then some value else none
    | .operand _ => none

/-- Whether a switch was given, which may be once. -/
def isGiven (s : Switch) (arguments : List Argument) : Except Stop Bool :=
  match values s arguments with
  | [] => .ok false
  | [_] => .ok true
  | _ => .error .misuse

/-- The value of a switch, which may be given once, if `read?` can read it. -/
def value? {α : Type} (s : Switch) (read? : Text → Option α) (arguments : List Argument) :
    Except Stop (Option α) :=
  match values s arguments with
  | [] => .ok none
  | [some t] =>
    match read? t with
    | some a => .ok (some a)
    | none => .error .misuse
  | _ => .error .misuse

/-- Reads the path of a file, which has to be something. -/
def path? (t : Text) : Option Text := if t.isEmpty then none else some t

/-- Reads a whole number that is not above `most`, with at most one sign, which is
    a minus only before zero and only if `signed`. -/
def natural? (most : Nat) (signed : Bool) (t : Text) : Option Nat :=
  let (negative, figures) := Numeral.takeSign t
  let n := Numeral.natural figures
  if !figures.isEmpty && figures.all Text.isFigure && n ≤ most &&
      (!negative || (signed && n == 0)) then some n
  else none

end Arguments

end Notebook
