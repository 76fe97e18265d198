/-
  The numbers of the two grammars.

  There are three ways to read a number.  A literal is read as a numeral or as a word in
  any case; a bare number of the legacy grammar is a literal in which no letter stands
  but that of an exponent, or one of two words spelt exactly; and the standard grammar
  has a rule for numbers, which matches as much as it can and never goes back on it.
  All three find the same numbers.

  * `Numeral.Rule`, `Numeral.Rule.rest?`: rules, and what they leave of a text;
  * `Numeral.Rule.rest?_number`: the rule for numbers leaves what the scanner leaves;
  * `Numeral.readLetterless?_eq`: literals without letters are the bare numbers, whatever
    counts as a letter outside of ASCII;
  * `Numeral.readExact?_isSome_iff`: which texts are bare numbers;
  * `Numeral.read_alike`: all of it.
-/
import Notebook.Proofs.Spelling

namespace Notebook.Numeral

/-! ## Rules -/

/-- A rule of a parsing expression grammar.  It matches at the start of a text; what it has
    taken of the text it keeps, also where it would match more of it otherwise. -/
inductive Rule where
  /-- One character of a class. -/
  | char (p : Char → Bool)
  /-- All characters of a class that follow each other. -/
  | run (p : Char → Bool)
  | seq (first second : Rule)
  /-- The first of two rules that matches. -/
  | choice (first second : Rule)
  /-- A rule, or nothing where it does not match. -/
  | optional (rule : Rule)

namespace Rule

/-- What a rule leaves of a text, if it matches. -/
def rest? : Rule → Text → Option Text
  | char p, c :: t => if p c then some t else none
  | char _, [] => none
  | run p, t => some (t.dropWhile p)
  | seq first second, t => (first.rest? t).bind second.rest?
  | choice first second, t => (first.rest? t).or (second.rest? t)
  | optional rule, t => (rule.rest? t).or (some t)

/-- One figure or more. -/
def figures : Rule := seq (char Text.isFigure) (run Text.isFigure)

/-- A point. -/
def point : Rule := char (· == '.')

/-- Figures with or without a point after or among them, or a point and figures. -/
def mantissa : Rule :=
  choice (seq figures (optional (seq point (run Text.isFigure)))) (seq point figures)

/-- The letter of an exponent, possibly a sign, and figures. -/
def exponent : Rule :=
  seq (char fun c => c == 'e' || c == 'E')
    (seq (optional (char fun c => c == '+' || c == '-')) figures)

/-- The rule for numbers of the standard grammar. -/
def number : Rule := seq mantissa (optional exponent)

/-! ## The rule for numbers -/

theorem rest?_figures (t : Text) :
    figures.rest? t =
      if t.takeWhile Text.isFigure = [] then none else some (t.dropWhile Text.isFigure) := by
  cases t with
  | nil => rfl
  | cons c t =>
    rw [figures, rest?, rest?]
    cases hc : Text.isFigure c <;> simp [hc, rest?]

theorem rest?_sign (t : Text) :
    (optional (char fun c => c == '+' || c == '-')).rest? t = some (takeSign t).2 := by
  unfold takeSign
  split
  · rfl
  · rfl
  · next hminus hplus =>
    cases t with
    | nil => rfl
    | cons c t =>
      have hc : (c == '+' || c == '-') = false := by
        rw [Bool.or_eq_false_iff, beq_eq_false_iff_ne, beq_eq_false_iff_ne]
        exact ⟨fun h => hplus t (by rw [h]), fun h => hminus t (by rw [h])⟩
      simp [rest?, hc]

theorem rest?_exponent (t : Text) :
    (optional exponent).rest? t = some (scanExponent t).2 := by
  rw [rest?, exponent]
  cases t with
  | nil => rfl
  | cons c t =>
    rw [scanExponent]
    by_cases hc : c = 'e' ∨ c = 'E'
    · have hletter : (c == 'e' || c == 'E') = true := by simpa using hc
      rw [rest?, rest?, if_pos hletter, Option.bind_some, rest?, rest?_sign, Option.bind_some,
        rest?_figures, if_pos hc]
      dsimp only
      cases hfigures : (takeSign t).2.takeWhile Text.isFigure with
      | nil => rw [if_pos rfl, Option.none_or]
      | cons d ds => rw [if_neg (List.cons_ne_nil d ds), Option.some_or]
    · have hletter : (c == 'e' || c == 'E') = false := by simpa using hc
      rw [rest?, rest?, hletter, if_neg hc]
      rfl

theorem rest?_point_of_ne {t : Text} (h : ∀ rest, t ≠ '.' :: rest) : point.rest? t = none := by
  cases t with
  | nil => rfl
  | cons c t =>
    have hc : ¬ (c == '.') = true := fun hc => h t (by rw [eq_of_beq hc])
    exact if_neg hc

/-- The rule takes the figures before a point before it looks for the point. -/
theorem rest?_mantissa (t : Text) :
    mantissa.rest? t =
      if (scanFigures t).1 ++ (scanFigures t).2.1 = [] then none
      else some (scanFigures t).2.2 := by
  have happend := List.takeWhile_append_dropWhile (p := Text.isFigure) (l := t)
  rw [mantissa, rest?, rest?, rest?, rest?_figures, scanFigures]
  cases hwhole : t.takeWhile Text.isFigure with
  | nil =>
    rw [hwhole, List.nil_append] at happend
    rw [if_pos rfl, Option.bind_none, Option.none_or, happend]
    split
    · next rest => exact rest?_figures rest
    · next hpoint =>
      rw [rest?_point_of_ne hpoint]
      rfl
  | cons c w =>
    rw [if_neg (List.cons_ne_nil c w), Option.bind_some, rest?, rest?]
    split
    · next rest hrest =>
      rw [hrest]
      rfl
    · next hpoint =>
      rw [rest?_point_of_ne hpoint]
      rfl

/-- **The rule for numbers leaves what the scanner leaves**: it never takes figures, a point
    or a letter after which it does not match, and would have matched without them. -/
theorem rest?_number (t : Text) : number.rest? t = (scan? t).map Prod.snd := by
  rw [number, rest?, rest?_mantissa, scan?]
  dsimp only
  split
  · rfl
  · rw [Option.bind_some, rest?_exponent]
    rfl

theorem rest?_number_eq_nil_iff {t : Text} :
    number.rest? t = some [] ↔ ∃ n, Spelling n t := by
  rw [rest?_number, Option.map_eq_some_iff]
  constructor
  · rintro ⟨⟨n, rest⟩, hscan, rfl⟩
    obtain ⟨w, hw, ht⟩ := spelling_of_scan? hscan
    rw [List.append_nil] at ht
    exact ⟨n, ht ▸ hw⟩
  · rintro ⟨n, hn⟩
    have hscan := scan?_append hn Text.endsWord_nil
    rw [List.append_nil] at hscan
    exact ⟨(n, []), hscan, rfl⟩

end Rule

/-! ## Words for numbers -/

theorem eq_or_of_toLower {c d : Char} (h : c.toLower = d) : c = d ∨ c.toNat + 32 = d.toNat := by
  subst h
  unfold Char.toLower
  split
  · next hupper =>
    right
    have hle : c.toNat ≤ 90 := hupper.2
    show c.toNat + 32 = (c.val + 32).toNat
    rw [UInt32.toNat_add]
    show c.toNat + 32 = (c.toNat + 32) % 2 ^ 32
    omega
  · exact .inl rfl

/-- A word for a number starts with a letter that is in no exponent. -/
theorem head_of_literalWord? {u : Text} (h : (literalWord? u).isSome) :
    ∃ c rest, u = c :: rest ∧ Text.isWordChar c ∧ c.toNat < 128 ∧ c.isAlpha ∧ c ≠ 'e' ∧
      c ≠ 'E' := by
  have hlower : ∃ d rest, u.map Char.toLower = d :: rest ∧ (d = 'n' ∨ d = 'i') := by
    unfold literalWord? at h
    dsimp only at h
    split at h
    · next hnan => exact ⟨'n', ['a', 'n'], hnan, .inl rfl⟩
    · split at h
      · next hinf =>
        rcases hinf with hinf | hinf
        · exact ⟨'i', _, hinf, .inr rfl⟩
        · exact ⟨'i', _, hinf, .inr rfl⟩
      · cases h
  obtain ⟨d, rest, hmap, hd⟩ := hlower
  obtain ⟨c, u, rfl, hc, -⟩ := List.map_eq_cons_iff.1 hmap
  refine ⟨c, u, rfl, ?_⟩
  have hcases : c = 'n' ∨ c = 'N' ∨ c = 'i' ∨ c = 'I' := by
    rcases hd with rfl | rfl
    · rcases eq_or_of_toLower hc with rfl | hupper
      · exact .inl rfl
      · exact .inr (.inl (Char.toNat_inj.1 (Nat.add_right_cancel hupper)))
    · rcases eq_or_of_toLower hc with rfl | hupper
      · exact .inr (.inr (.inl rfl))
      · exact .inr (.inr (.inr (Char.toNat_inj.1 (Nat.add_right_cancel hupper))))
  rcases hcases with rfl | rfl | rfl | rfl <;> decide

theorem literalWord?_of_exactWord? {u : Text} (h : u = "NaN" ∨ u = "Infinity") :
    literalWord? u = exactWord? u := by
  rcases h with rfl | rfl <;> rfl

/-! ## Literals without letters -/

/-- `LetterClass isLetter`: the class agrees with the letters of ASCII, and may hold any
    characters outside of it.  The Unicode property Alphabetic does. -/
def LetterClass (isLetter : Char → Bool) : Prop :=
  ∀ c : Char, c.toNat < 128 → isLetter c = c.isAlpha

/-- Whether a text has a letter in it that is none of an exponent. -/
def hasLetter (isLetter : Char → Bool) (t : Text) : Bool :=
  t.any fun c => isLetter c && c != 'e' && c != 'E'

/-- Reads a bare number as a literal in which no letter stands but that of an exponent, or
    which is one of two words. -/
def readLetterless? (isLetter : Char → Bool) (t : Text) : Option Float :=
  if (takeSign t).2 = "NaN" ∨ (takeSign t).2 = "Infinity" then readLiteral? t
  else if hasLetter isLetter t then none
  else readLiteral? t

theorem not_isAlpha_of_isFigure {c : Char} (h : Text.isFigure c) :
    c.toNat < 128 ∧ c.isAlpha = false := by
  rw [Text.isFigure, Bool.and_eq_true, decide_eq_true_eq, decide_eq_true_eq] at h
  have hnine : c.toNat ≤ 57 := h.2
  refine ⟨by omega, Bool.eq_false_iff.2 fun halpha => ?_⟩
  rcases Bool.or_eq_true_iff.1 halpha with hletter | hletter
  · have hupper : 'A' ≤ c ∧ c ≤ 'Z' := of_decide_eq_true hletter
    have hge : 65 ≤ c.toNat := hupper.1
    omega
  · have hlower : 'a' ≤ c := of_decide_eq_true (Bool.and_eq_true_iff.1 hletter).1
    have hge : 97 ≤ c.toNat := hlower
    omega

section
variable {isLetter : Char → Bool} (hclass : LetterClass isLetter)
include hclass

theorem hasLetter_of_literalWord? {t u : Text} (hu : (literalWord? u).isSome)
    (hsub : ∀ c ∈ u, c ∈ t) : hasLetter isLetter t := by
  obtain ⟨c, rest, rfl, -, hascii, halpha, he, hE⟩ := head_of_literalWord? hu
  refine List.any_eq_true.2 ⟨c, hsub c List.mem_cons_self, ?_⟩
  simp [hclass c hascii, halpha, he, hE]

theorem hasLetter_of_numeralChars {t : Text} (ht : ∀ c ∈ t, isNumeralChar c) :
    hasLetter isLetter t = false := by
  refine List.any_eq_false.2 fun c hc => ?_
  have hchar := ht c hc
  simp only [isNumeralChar, Bool.or_eq_true, beq_iff_eq, or_assoc] at hchar
  have hother (hascii : c.toNat < 128) (halpha : c.isAlpha = false) : isLetter c = false :=
    (hclass c hascii).trans halpha
  rcases hchar with hfigure | rfl | rfl | rfl | rfl | rfl
  · obtain ⟨hascii, halpha⟩ := not_isAlpha_of_isFigure hfigure
    simp [hother hascii halpha]
  · simp [hother (by decide) (by decide)]
  · simp
  · simp
  · simp [hother (by decide) (by decide)]
  · simp [hother (by decide) (by decide)]

/-- **Literals without letters are the bare numbers**, whatever is a letter outside of
    ASCII. -/
theorem readLetterless?_eq (t : Text) : readLetterless? isLetter t = readExact? t := by
  obtain ⟨s, hs, ht⟩ := exists_sign t
  rw [readLetterless?, readExact?, readLiteral?, readSigned?, readSigned?]
  dsimp only
  split
  · next hword => rw [literalWord?_of_exactWord? hword]
  next hword =>
  obtain ⟨hnan, hinfinity⟩ := not_or.1 hword
  rw [exactWord?_eq_none hnan hinfinity, Option.none_or]
  split
  · next hletter =>
    cases hread : read? (takeSign t).2 with
    | none => rfl
    | some n =>
      have hspelling : Spelling n (takeSign t).2 := read?_eq_some_iff.1 hread
      have hchars : ∀ c ∈ t, isNumeralChar c := by
        rw [ht]
        refine List.forall_mem_append.2 ⟨fun c hc => ?_, isNumeralChar_of_mem_spelling hspelling⟩
        rcases mem_sign hs c hc with rfl | rfl <;> decide
      rw [hasLetter_of_numeralChars hclass hchars] at hletter
      cases hletter
  · next hletter =>
    have hnone : literalWord? (takeSign t).2 = none := by
      rw [← Option.not_isSome_iff_eq_none]
      refine fun hsome => hletter (hasLetter_of_literalWord? hclass hsome fun c hc => ?_)
      rw [ht]
      exact List.mem_append_right s hc
    rw [hnone, Option.none_or]

end

/-! ## Bare numbers -/

/-- `Bare t`: the text `t` is a bare number, that is, a numeral or one of two words after at
    most one sign. -/
def Bare (t : Text) : Prop :=
  ∃ s u negative, Sign s negative ∧ t = s ++ u ∧
    (u = "NaN" ∨ u = "Infinity" ∨ ∃ n, Spelling n u)

theorem takeSign_of_sign {s u : Text} {negative : Bool} (hs : Sign s negative)
    (hu : ∃ c rest, u = c :: rest ∧ Text.isWordChar c) : takeSign (s ++ u) = (negative, u) := by
  obtain ⟨c, rest, rfl, hc⟩ := hu
  cases hs with
  | none => exact takeSign_of_isWordChar hc rest
  | plus | minus => rfl

theorem head_of_spelling {n : Numeral} {u : Text} (h : Spelling n u) :
    ∃ c rest, u = c :: rest ∧ Text.isWordChar c := by
  obtain ⟨c, rest, hu, hc, -⟩ := Token.numeral_head h
  exact ⟨c, rest, hu, hc⟩

theorem literalWord?_of_spelling {n : Numeral} {u : Text} (h : Spelling n u) :
    literalWord? u = none := by
  have hclass : LetterClass Char.isAlpha := fun _ _ => rfl
  rw [← Option.not_isSome_iff_eq_none]
  intro hsome
  have hletter := hasLetter_of_literalWord? hclass hsome fun _ hc => hc
  rw [hasLetter_of_numeralChars hclass (isNumeralChar_of_mem_spelling h)] at hletter
  cases hletter

/-- A numeral is read as its value, as a bare number and as a literal. -/
theorem read_of_spelling {n : Numeral} {u : Text} (h : Spelling n u) :
    readExact? u = some n.value ∧ readLiteral? u = some n.value := by
  have hsign : takeSign u = (false, u) := takeSign_of_sign .none (head_of_spelling h)
  have hliteral := literalWord?_of_spelling h
  have hexact : exactWord? u = none := by
    refine exactWord?_eq_none ?_ ?_ <;> rintro rfl <;> cases hliteral
  rw [readExact?, readLiteral?, readSigned?, readSigned?, hsign]
  dsimp only
  rw [hexact, hliteral, read?_eq_some_iff.2 h]
  exact ⟨rfl, rfl⟩

/-- A word for a number that is none of the two bare numbers is read as a literal only. -/
theorem read_of_word {s u : Text} {negative : Bool} (hs : Sign s negative)
    (hu : (literalWord? u).isSome) (hnan : u ≠ "NaN") (hinfinity : u ≠ "Infinity") :
    (readLiteral? (s ++ u)).isSome ∧ readExact? (s ++ u) = none := by
  obtain ⟨c, rest, hcons, hc, -⟩ := head_of_literalWord? hu
  have hread : read? u = none := by
    refine Option.eq_none_iff_forall_ne_some.2 fun n hn => ?_
    rw [literalWord?_of_spelling (read?_eq_some_iff.1 hn)] at hu
    cases hu
  rw [readExact?, readLiteral?, readSigned?, readSigned?, takeSign_of_sign hs ⟨c, rest, hcons, hc⟩]
  dsimp only
  rw [exactWord?_eq_none hnan hinfinity, hread, Option.isSome_map, Option.isSome_or, hu]
  exact ⟨rfl, rfl⟩

/-- **Which texts are bare numbers.** -/
theorem readExact?_isSome_iff {t : Text} : (readExact? t).isSome ↔ Bare t := by
  constructor
  · intro hsome
    obtain ⟨x, hx⟩ := Option.isSome_iff_exists.1 hsome
    exact of_readExact? hx
  · rintro ⟨s, u, negative, hs, rfl, hu⟩
    have hword : ∃ c rest, u = c :: rest ∧ Text.isWordChar c := by
      rcases hu with rfl | rfl | ⟨n, hn⟩
      · exact ⟨'N', _, rfl, rfl⟩
      · exact ⟨'I', _, rfl, rfl⟩
      · exact head_of_spelling hn
    rw [readExact?, readSigned?, takeSign_of_sign hs hword]
    dsimp only
    rw [Option.isSome_map]
    rcases hu with rfl | rfl | ⟨n, hn⟩
    · rfl
    · rfl
    · rw [read?_eq_some_iff.2 hn, Option.map_some, Option.isSome_or, Option.isSome_some,
        Bool.or_true]

theorem bare_iff_of_unsigned {t : Text} (hplus : t.head? ≠ some '+') (hminus : t.head? ≠ some '-')
    (hnan : t ≠ "NaN") (hinfinity : t ≠ "Infinity") : Bare t ↔ ∃ n, Spelling n t := by
  constructor
  · rintro ⟨s, u, negative, hs, rfl, hu⟩
    cases hs with
    | none => exact (hu.resolve_left hnan).resolve_left hinfinity
    | plus => exact absurd rfl hplus
    | minus => exact absurd rfl hminus
  · exact fun h => ⟨[], t, false, .none, rfl, .inr (.inr h)⟩

/-- **Numbers are read alike.**  A text is a bare number if it is a numeral or one of two
    words, after at most one sign; these are the literals without letters, whatever is a
    letter outside of ASCII, so that other words for numbers stay names.  Without a sign and
    apart from the words, the bare numbers are the texts that the rule for numbers takes as
    a whole; these are numbers to the standard grammar too, and the same ones.  Whatever the
    rule takes of a text is a literal, for the number of the token. -/
theorem read_alike (t : Text) :
    ((readExact? t).isSome ↔ Bare t) ∧
    (∀ isLetter, LetterClass isLetter → readLetterless? isLetter t = readExact? t) ∧
    (∀ s u negative, Sign s negative → t = s ++ u → (literalWord? u).isSome →
      u ≠ "NaN" → u ≠ "Infinity" → (readLiteral? t).isSome ∧ readExact? t = none) ∧
    (t.head? ≠ some '+' → t.head? ≠ some '-' → t ≠ "NaN" → t ≠ "Infinity" →
      ((readExact? t).isSome ↔ Rule.number.rest? t = some [])) ∧
    (Rule.number.rest? t = some [] →
      ∃ x, readExact? t = some x ∧ Formula.ofText t = .ok (.number x)) ∧
    (∀ rest, Rule.number.rest? t = some rest →
      ∃ w n, t = w ++ rest ∧ scan? t = some (n, rest) ∧ readLiteral? w = some n.value) := by
  refine ⟨readExact?_isSome_iff, fun isLetter hclass => readLetterless?_eq hclass t, ?_, ?_, ?_, ?_⟩
  · rintro s u negative hs rfl hu hnan hinfinity
    exact read_of_word hs hu hnan hinfinity
  · intro hplus hminus hnan hinfinity
    rw [readExact?_isSome_iff, bare_iff_of_unsigned hplus hminus hnan hinfinity,
      Rule.rest?_number_eq_nil_iff]
  · intro hrest
    obtain ⟨n, hn⟩ := Rule.rest?_number_eq_nil_iff.1 hrest
    have hspelled : Token.Spelled [.number n] t := Token.Spelled.singleton (.number hn)
    exact ⟨n.value, (read_of_spelling hn).1,
      Formula.ofText_of_spelled hspelled (.sum (.product (.unary (.power (.number n)))))⟩
  · intro rest hrest
    rw [Rule.rest?_number, Option.map_eq_some_iff] at hrest
    obtain ⟨⟨n, rest⟩, hscan, rfl⟩ := hrest
    obtain ⟨w, hw, ht⟩ := spelling_of_scan? hscan
    exact ⟨w, n, ht, hscan, (read_of_spelling hw).2⟩

/-- A numeral with a point before its exponent. -/
theorem read_alike_point_and_exponent :
    LetterClass Char.isAlpha ∧
    readLetterless? Char.isAlpha "1.e5" = readExact? "1.e5" ∧
    ∃ x, readExact? "1.e5" = some x ∧ Formula.ofText "1.e5" = .ok (.number x) := by
  have hclass : LetterClass Char.isAlpha := fun _ _ => rfl
  have hrest : Rule.number.rest? "1.e5" = some [] := by decide
  obtain ⟨-, hletterless, -, -, hwhole, -⟩ := read_alike "1.e5"
  exact ⟨hclass, hletterless Char.isAlpha hclass, hwhole hrest⟩

end Notebook.Numeral
