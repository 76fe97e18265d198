/-
  The UTF-8 form of a text.

  The places of lines are byte offsets, so what stands at a place is a matter of the
  bytes of the document.

  * `Text.utf8`: the bytes of a text, as many as `Text.byteSize` says
    (`Text.length_utf8`);
  * `Text.slice`: the bytes between two offsets; those around a part of a text are the
    bytes of that part (`Text.slice_append`);
  * `Text.IsBoundary`: an offset that is not within a character;
  * `Text.mem_utf8_iff`: no byte of another character equals an ASCII character.
-/
import Mathlib.Data.List.Basic
import Notebook.Text

namespace Notebook.Text

/-- The bytes of the UTF-8 form. -/
def utf8 (t : Text) : List UInt8 := t.flatMap String.utf8EncodeChar

@[simp] theorem utf8_nil : utf8 [] = [] := rfl

theorem utf8_cons (c : Char) (t : Text) : utf8 (c :: t) = String.utf8EncodeChar c ++ utf8 t :=
  List.flatMap_cons

@[simp] theorem utf8_append (s t : Text) : utf8 (s ++ t) = utf8 s ++ utf8 t :=
  List.flatMap_append

@[simp] theorem length_utf8 (t : Text) : (utf8 t).length = byteSize t := by
  induction t with
  | nil => rfl
  | cons c t ih =>
    rw [utf8_cons, List.length_append, ih, byteSize_cons, String.length_utf8EncodeChar]

@[simp] theorem byteSize_nil : byteSize [] = 0 := rfl

@[simp] theorem byteSize_append (s t : Text) : byteSize (s ++ t) = byteSize s + byteSize t := by
  rw [← length_utf8, utf8_append, List.length_append, length_utf8, length_utf8]

theorem utf8_eq_nil_iff {t : Text} : utf8 t = [] ↔ t = [] := by
  refine ⟨fun h => ?_, fun h => h ▸ utf8_nil⟩
  cases t with
  | nil => rfl
  | cons c t =>
    have hlength := congrArg List.length h
    rw [length_utf8, byteSize_cons, List.length_nil] at hlength
    have := c.utf8Size_pos
    omega

/-! ## Offsets -/

/-- The bytes of a document from one offset up to another. -/
def slice (document : Text) (start stop : Nat) : List UInt8 :=
  ((utf8 document).take stop).drop start

theorem slice_append (before t after : Text) :
    slice (before ++ (t ++ after)) (byteSize before) (byteSize before + byteSize t) = utf8 t := by
  rw [slice, ← List.append_assoc, utf8_append, ← byteSize_append, ← length_utf8 (before ++ t),
    List.take_left, utf8_append, ← length_utf8 before, List.drop_left]

/-- A byte offset that is not within a character, nor after the end. -/
def IsBoundary (document : Text) (offset : Nat) : Prop :=
  ∃ before after, document = before ++ after ∧ byteSize before = offset

/-! ## ASCII characters -/

theorem toNat_ofNat_add {x n m : Nat} (hn : 0 < n) (hm : n + m ≤ 256) :
    (UInt8.ofNat (x % n + m)).toNat = x % n + m :=
  UInt8.toNat_ofNat_of_lt' (by have := Nat.mod_lt x hn; simp only [UInt8.size]; omega)

theorem le_toNat_of_mem_utf8EncodeChar {c : Char} (hc : 128 ≤ c.toNat) {b : UInt8}
    (hb : b ∈ String.utf8EncodeChar c) : 128 ≤ b.toNat := by
  have hval : ¬ c.val.toNat ≤ 0x7f := Nat.not_le.2 hc
  unfold String.utf8EncodeChar at hb
  rw [if_neg hval] at hb
  -- a first byte adds at least `0xc0`, any other `0x80`
  split_ifs at hb <;> simp only [List.mem_cons, List.not_mem_nil, or_false] at hb <;>
    rcases hb with rfl | rfl | rfl | rfl <;>
    rw [toNat_ofNat_add (by decide) (by decide)] <;> omega

/-- A byte of an ASCII character is that character and nothing else. -/
theorem mem_utf8EncodeChar_iff {c d : Char} (hd : d.toNat < 128) :
    UInt8.ofNat d.toNat ∈ String.utf8EncodeChar c ↔ d = c := by
  have hbyte : (UInt8.ofNat d.toNat).toNat = d.toNat :=
    UInt8.toNat_ofNat_of_lt' (by simp only [UInt8.size]; omega)
  by_cases hc : 128 ≤ c.toNat
  · have hne : d ≠ c := by
      rintro rfl
      omega
    refine iff_of_false (fun hmem => ?_) hne
    have := le_toNat_of_mem_utf8EncodeChar hc hmem
    omega
  · have hval : c.val.toNat ≤ 0x7f := by
      show c.toNat ≤ 127
      omega
    have hsingle : String.utf8EncodeChar c = [UInt8.ofNat c.toNat] := if_pos hval
    rw [hsingle, List.mem_singleton, ← Char.toNat_inj, ← UInt8.toNat_inj, hbyte,
      UInt8.toNat_ofNat_of_lt' (by simp only [UInt8.size]; omega)]

/-- **The byte of an ASCII character** is found in a text where that character is, and
    nowhere else. -/
theorem mem_utf8_iff {d : Char} (hd : d.toNat < 128) {t : Text} :
    UInt8.ofNat d.toNat ∈ utf8 t ↔ d ∈ t := by
  simp [utf8, List.mem_flatMap, mem_utf8EncodeChar_iff hd]

theorem head?_utf8_ne {d : Char} (hd : d.toNat < 128) {t : Text} (ht : t.head? ≠ some d) :
    (utf8 t).head? ≠ some (UInt8.ofNat d.toNat) := by
  cases t with
  | nil => simp
  | cons c t =>
    intro hhead
    have hne : String.utf8EncodeChar c ≠ [] := by
      rw [← List.length_pos_iff, String.length_utf8EncodeChar]
      exact c.utf8Size_pos
    rw [utf8_cons, List.head?_append_of_ne_nil _ hne] at hhead
    exact ht (by rw [(mem_utf8EncodeChar_iff hd).1 (List.mem_of_mem_head? hhead)]; rfl)

end Notebook.Text
