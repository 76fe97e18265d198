/-
  The settings of an evaluation: which grammar the formulas follow, and how large
  a document and how deep a formula may be.
-/
import Notebook.Text

namespace Notebook

/-! ## Grammars -/

/-- How the text of a formula is read. -/
inductive Grammar where
  /-- The text is cut at operators in a fixed order.  Notebooks rely on it, so it
      is the default. -/
  | legacy
  /-- The usual precedence, with brackets, signs and powers. -/
  | standard
  deriving DecidableEq, Repr

namespace Grammar

/-- The word for a grammar. -/
def word : Grammar → Text
  | legacy => "legacy"
  | standard => "standard"

/-- The grammar that a word stands for. -/
def ofWord? (t : Text) : Option Grammar :=
  if t = legacy.word then some legacy
  else if t = standard.word then some standard
  else none

/-- A word as it is compared: without the blanks at its ends, in lower case. -/
def normalize (t : Text) : Text := (Text.trim t).map Char.toLower

/-- Reads a word for a grammar, in any case and between blanks. -/
def read? (t : Text) : Option Grammar := ofWord? (normalize t)

/-- What is said of a word that stands for no grammar. -/
def unknownMessage (t : Text) : Text :=
  "unknown grammar '" ++ normalize t ++ "', expected 'legacy' or 'standard'"

theorem ofWord?_word (g : Grammar) : ofWord? g.word = some g := by
  cases g <;> rfl

end Grammar

/-! ## Limits -/

/-- The largest document and the deepest formula that are evaluated. -/
structure Limits where
  maxBytes : Nat := 1048576
  maxDepth : Nat := 100
  deriving DecidableEq, Repr

/-- A document is larger than allowed. -/
structure Oversize where
  limit : Nat
  actual : Nat
  deriving DecidableEq, Repr

/-- What is said of a document that is too large. -/
def Oversize.message (o : Oversize) : Text :=
  "resource limit exceeded: max_document_bytes (limit " ++ s!"{o.limit}" ++ " bytes, actual " ++
    s!"{o.actual}" ++ " bytes)"

/-- Refuses a document that is larger than allowed. -/
def Limits.check (limits : Limits) (document : Text) : Except Oversize Unit :=
  let actual := Text.byteSize document
  if limits.maxBytes < actual then .error ⟨limits.maxBytes, actual⟩ else .ok ()

/-! ## Settings -/

/-- The settings of an evaluation. -/
structure Settings where
  grammar : Grammar := .legacy
  limits : Limits := {}
  deriving DecidableEq, Repr

end Notebook
