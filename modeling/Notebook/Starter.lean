/-
  The notebook that a new file starts with: two measurements that are typed in,
  and one derived from them.
-/
import Notebook.Text

namespace Notebook

/-- The lines of a new notebook. -/
def starterLines : List Text :=
  ["# Pendulum Experiment",
    "# Mass:",
    "m = 10.0 +/- 0.5",
    "",
    "# Length:",
    "L = 100.0 +/- 1.0",
    "",
    "# Calculate 'x' using the formula",
    "x = m * L"]

/-- The document of a new notebook. -/
def starter : Text := starterLines.flatMap fun line => line ++ ['\n']

end Notebook
