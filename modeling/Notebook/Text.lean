/-
  Texts, as a notebook is read and as its results are written: lists of
  characters.

  * `Text.trim` takes the blank characters off both ends; blank is the Unicode
    property White_Space (`Text.isBlank`), not only the ASCII part of it;
  * `Text.cutAt?` cuts a text at the first occurrence of a character, and what
    follows the cut is shorter than the text (`Text.length_lt_of_cutAt?`), the
    measure of every recursion that walks a text by cutting it;
  * `Text.byteSize` is the length of the UTF-8 form: the size of a document and
    the places of its lines are counted in bytes.
-/

namespace Notebook

/-- A text is the list of its characters. -/
abbrev Text := List Char

/-- A string literal stands for the text of its characters. -/
instance : Coe String Text := ⟨String.toList⟩

namespace Text

/-! ## Blanks -/

/-- The characters of the Unicode property White_Space. -/
def isBlank (c : Char) : Bool :=
  let n := c.toNat
  (9 ≤ n && n ≤ 13) || n == 0x20 || n == 0x85 || n == 0xA0 || n == 0x1680 ||
    (0x2000 ≤ n && n ≤ 0x200A) || n == 0x2028 || n == 0x2029 || n == 0x202F ||
    n == 0x205F || n == 0x3000

/-- What the core library calls white space is blank. -/
theorem isBlank_of_isWhitespace {c : Char} (h : c.isWhitespace = true) : isBlank c = true := by
  simp only [Char.isWhitespace, Bool.or_eq_true, decide_eq_true_eq] at h
  rcases h with ((h | h) | h) | h <;> subst h <;> decide

/-- A text without the blanks it starts with. -/
def trimStart (t : Text) : Text := t.dropWhile isBlank

/-- A text without the blanks it ends with. -/
def trimEnd (t : Text) : Text := (t.reverse.dropWhile isBlank).reverse

/-- A text without the blanks at either end. -/
def trim (t : Text) : Text := trimEnd (trimStart t)

/-! ## Cutting -/

/-- Cuts a text at the first `c`: what stands before it and what follows it,
    or nothing if `c` does not occur. -/
def cutAt? (c : Char) (t : Text) : Option (Text × Text) :=
  match t.dropWhile (· != c) with
  | [] => none
  | _ :: rest => some (t.takeWhile (· != c), rest)

theorem length_dropWhile_le (p : Char → Bool) (t : Text) : (t.dropWhile p).length ≤ t.length :=
  (List.dropWhile_suffix p).length_le

theorem length_trim_le (t : Text) : (trim t).length ≤ t.length := by
  have h := length_dropWhile_le isBlank (trimStart t).reverse
  have h' := length_dropWhile_le isBlank t
  simp only [trim, trimEnd, trimStart, List.length_reverse] at *
  omega

/-- Both pieces of a cut, and the character cut at, make up the text. -/
theorem append_of_cutAt? {c : Char} {t l r : Text} (h : cutAt? c t = some (l, r)) :
    l ++ c :: r = t := by
  unfold cutAt? at h
  split at h
  · simp at h
  · next d rest hd =>
    obtain ⟨rfl, rfl⟩ := by simpa using h
    have hc : d = c := by
      have := List.head_dropWhile_not (· != c) (l := t) (by simp [hd])
      simpa [hd] using this
    conv => rhs; rw [← List.takeWhile_append_dropWhile (p := (· != c)) (l := t), hd, hc]

theorem length_lt_of_cutAt? {c : Char} {t l r : Text} (h : cutAt? c t = some (l, r)) :
    l.length < t.length ∧ r.length < t.length := by
  have := congrArg List.length (append_of_cutAt? h)
  simp at this
  omega

/-! ## Size -/

/-- The number of bytes of the UTF-8 form. -/
def byteSize (t : Text) : Nat := t.foldl (fun n c => n + c.utf8Size) 0

/-- `byteSize` adds up over the characters. -/
theorem byteSize_cons (c : Char) (t : Text) : byteSize (c :: t) = c.utf8Size + byteSize t := by
  have h : ∀ (t : Text) (n : Nat),
      t.foldl (fun n c => n + c.utf8Size) n = n + t.foldl (fun n c => n + c.utf8Size) 0 := by
    intro t
    induction t with
    | nil => simp
    | cons d t ih =>
      intro n
      rw [List.foldl_cons, List.foldl_cons, ih, ih (0 + d.utf8Size)]
      omega
  rw [byteSize, List.foldl_cons, h, byteSize]
  omega

/-! ## Letters and digits -/

/-- The figures `0` to `9`. -/
def isFigure (c : Char) : Bool := '0' ≤ c && c ≤ '9'

/-- What a name may start with: an ASCII letter or `_`. -/
def isNameStart (c : Char) : Bool := ('a' ≤ c && c ≤ 'z') || ('A' ≤ c && c ≤ 'Z') || c == '_'

/-- What a name may go on with: also figures. -/
def isNameChar (c : Char) : Bool := isNameStart c || isFigure c

end Text

end Notebook
