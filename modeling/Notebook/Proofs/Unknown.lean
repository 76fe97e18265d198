/-
  Why a token is unknown.

  A line that is dropped for an unknown token names an operand of its formula.  The
  legacy grammar cuts a text at one operator at a time, and looks at what it has cut off
  before it cuts any further; but what it gives up at holds no operator any more, so it
  is a piece of the text that is cut at all of them.

  * `Cutting.atoms`: the pieces of a text that is cut at every operator;
  * `Cutting.meaning_eq_unknownToken`, `Formula.value_eq_unknownToken`: an unknown token
    is such a piece, or a name in the formula, and not bound;
  * `Grammar.LooksUp`: what a formula looks up, in either grammar;
  * `Evaluation.unknownToken_justified`: what a line was dropped for
    (`Status.unknownToken?`), in terms of the lines above it.
-/
import Notebook.Proofs.Reading

namespace Notebook

/-! ## The legacy grammar -/

namespace Cutting

/-- Whether a text is cut at a character. -/
def isOperator (c : Char) : Bool := searchOrder.any fun op => op.symbol == c

/-- The pieces of a text that is cut at every operator, without the blanks at their
    ends. -/
def atoms (t : Text) : List Text := (t.splitOnP isOperator).map Text.trim

theorem isOperator_iff {c : Char} : isOperator c ↔ ∃ op ∈ searchOrder, op.symbol = c := by
  simp [isOperator]

theorem isOperator_of_isBlank {c : Char} (h : Text.isBlank c) : isOperator c = false := by
  by_contra hop
  obtain ⟨op, -, rfl⟩ := isOperator_iff.1 (by simpa using hop)
  simp [isBlank_symbol op] at h

theorem atoms_of_forall {t : Text} (ht : ∀ c ∈ t, isOperator c = false) :
    atoms t = [Text.trim t] := by
  rw [atoms, List.splitOnP_eq_singleton ht]
  rfl

theorem atoms_append_cons {op : Operator} (hop : op ∈ searchOrder) (l r : Text) :
    atoms (l ++ op.symbol :: r) = atoms l ++ atoms r := by
  rw [atoms, List.splitOnP_append_cons l r (isOperator_iff.2 ⟨op, hop, rfl⟩), List.map_append]
  rfl

/-- Blanks at the ends of a text are at the ends of its first and last piece. -/
theorem atoms_append_blanks {g g' : Text} (hg : ∀ c ∈ g, Text.isBlank c)
    (hg' : ∀ c ∈ g', Text.isBlank c) (t : Text) : atoms (g ++ t ++ g') = atoms t := by
  have hop : ∀ {g : Text}, (∀ c ∈ g, Text.isBlank c) → ∀ c ∈ g, isOperator c = false :=
    fun hg c hc => isOperator_of_isBlank (hg c hc)
  -- only the first piece has the blanks `g` before it, what follows the first cut has none
  induction hn : t.length using Nat.strong_induction_on generalizing g t with
  | h n ih =>
    subst hn
    rcases Text.exists_first isOperator t with ht | ⟨run, d, rest, rfl, hrun, hd⟩
    · have hall : ∀ c ∈ g ++ t ++ g', isOperator c = false :=
        List.forall_mem_append.2 ⟨List.forall_mem_append.2 ⟨hop hg, ht⟩, hop hg'⟩
      rw [atoms_of_forall hall, atoms_of_forall ht, Text.trim_append hg hg']
    · have hgrun : ∀ c ∈ g ++ run, isOperator c = false :=
        List.forall_mem_append.2 ⟨hop hg, hrun⟩
      obtain ⟨op, hmem, rfl⟩ := isOperator_iff.1 hd
      have hlt : rest.length < (run ++ op.symbol :: rest).length := by
        rw [List.length_append, List.length_cons]
        omega
      have hrest : atoms (rest ++ g') = atoms rest := ih _ hlt (List.forall_mem_nil _) rest rfl
      have htrim : Text.trim (g ++ run) = Text.trim run := by
        simpa using Text.trim_append hg (List.forall_mem_nil _) run
      calc atoms (g ++ (run ++ op.symbol :: rest) ++ g')
          = atoms ((g ++ run) ++ op.symbol :: (rest ++ g')) := by simp
        _ = atoms (run ++ op.symbol :: rest) := by
          rw [atoms_append_cons hmem, atoms_append_cons hmem, atoms_of_forall hgrun,
            atoms_of_forall hrun, htrim, hrest]

theorem atoms_trim (t : Text) : atoms (Text.trim t) = atoms t := by
  obtain ⟨g, g', hg, hg', ht⟩ := Text.exists_trim t
  conv_rhs => rw [ht, atoms_append_blanks hg hg']

theorem atoms_of_halves? {t left right : Text} {op : Operator}
    (h : halves? (Text.trim t) = some (left, op, right)) :
    atoms t = atoms left ++ atoms right := by
  obtain ⟨op', hop, hcut⟩ := List.exists_of_findSome?_eq_some h
  obtain ⟨p, -, he⟩ := Option.map_eq_some_iff.1 hcut
  obtain ⟨-, rfl, -⟩ := by simpa using he
  obtain ⟨-, ht⟩ := Text.cutAt?_eq_some_iff.1 (cutAt?_of_halves? h)
  rw [← atoms_trim, ht, atoms_append_cons hop]

theorem atoms_of_operator? {t : Text} (h : operator? t = none) : atoms t = [Text.trim t] := by
  refine atoms_of_forall fun c hc => ?_
  by_contra hop
  obtain ⟨op, hmem, rfl⟩ := isOperator_iff.1 (by simpa using hop)
  simpa [hc] using List.find?_eq_none.1 h op hmem

/-- What a piece is: trimmed, without operators, and a part of the text. -/
theorem of_mem_atoms {t w : Text} (h : w ∈ atoms t) :
    Text.trim w = w ∧ (∀ op ∈ searchOrder, op.symbol ∉ w) ∧ w <:+: t := by
  obtain ⟨v, hv, rfl⟩ := List.mem_map.1 h
  obtain ⟨hop, l, r, rfl, -⟩ := Text.mem_splitOnP_iff.1 hv
  refine ⟨Text.trim_trim v, fun op hmem hw => ?_, ?_⟩
  · have hfalse := hop _ (Text.mem_of_mem_trim hw)
    rw [isOperator_iff.2 ⟨op, hmem, rfl⟩] at hfalse
    cases hfalse
  · exact (Text.trim_isInfix v).trans ⟨l, r, rfl⟩

/-- **An unknown token is a piece** of the text that is cut at every operator, and no
    operand: what the halves of a text give up at is a piece of one of them. -/
theorem meaning_eq_unknownToken {b : Bindings} {t token : Text}
    (h : meaning b t = .error (.unknownToken token)) :
    token ∈ atoms t ∧ operand? b token = none := by
  induction hn : t.length using Nat.strong_induction_on generalizing t with
  | h n ih =>
    subst hn
    obtain ⟨ho, ⟨hh, hfault⟩ | ⟨left, op, right, hh, h⟩⟩ := meaning_eq_error h
    · obtain rfl : token = Text.trim t := Fault.unknownToken.inj hfault
      have hop : operator? t = none := by rw [← operator?_trim, ← halves?_eq_none_iff, hh]
      exact ⟨by simp [atoms_of_operator? hop], ho⟩
    · obtain ⟨hl, hr⟩ := length_lt_of_halves? hh
      rw [atoms_of_halves? hh]
      rcases h with h | h
      · exact (ih _ hl h rfl).imp_left (List.mem_append_left _)
      · exact (ih _ hr h rfl).imp_left (List.mem_append_right _)

theorem evaluate_eq_unknownToken {b : Bindings} {limit : Nat} {t token : Text}
    (h : evaluate b limit t = .error (.unknownToken token)) :
    token ∈ atoms t ∧ operand? b token = none := by
  rcases @value_eq_or b limit limit t with ht | ht
  · rw [evaluate, ht] at h
    cases h
  · rw [evaluate, ht] at h
    exact meaning_eq_unknownToken h

theorem operand?_eq_none_iff {b : Bindings} {token : Text} :
    operand? b token = none ↔ b.get? token = none ∧ readExact? token = none := by
  simp [operand?]

end Cutting

/-! ## The standard grammar -/

theorem Token.infix_of_spelled {tokens : List Token} {t n : Text} (h : Spelled tokens t)
    (hn : name n ∈ tokens) : Text.isName n ∧ n <:+: t := by
  induction h with
  | nil => cases hn
  | @cons g w t token tokens hg hw ht ih =>
    rcases List.mem_cons.1 hn with rfl | hn
    · cases hw with
      | name hc hw => exact ⟨Text.isName_cons.2 ⟨hc, hw⟩, g, t, rfl⟩
    · exact (ih hn).imp_right fun h => h.trans (List.suffix_append (g ++ w) t).isInfix

namespace Formula

/-- **An unknown token is a name** in the formula, and not bound. -/
theorem value_eq_unknownToken {b : Bindings} {e : Formula} {token : Text}
    (h : e.value b = .error (.unknownToken token)) : token ∈ e.names ∧ b.get? token = none := by
  induction e with
  | number x => cases h
  | name n =>
    rw [value] at h
    cases hget : b.get? n with
    | some m =>
      rw [hget] at h
      cases h
    | none =>
      rw [hget] at h
      obtain rfl : n = token := Fault.unknownToken.inj (Except.error.inj h)
      exact ⟨List.mem_singleton_self n, hget⟩
  | negate inner ih => exact ih (value_negate_eq_error h)
  | binary left op right ihl ihr =>
    rcases value_binary_eq_error h with h | h | ⟨hfault, -⟩
    · exact (ihl h).imp_left (List.mem_append_left _)
    · exact (ihr h).imp_left (List.mem_append_right _)
    · cases hfault

theorem evaluate_eq_unknownToken {b : Bindings} {limit : Nat} {t token : Text}
    (h : evaluate b limit t = .error (.unknownToken token)) :
    Token.name token ∈ Token.ofText (Text.trim t) ∧ Text.isName token ∧
      token <:+: Text.trim t ∧ b.get? token = none := by
  rw [evaluate] at h
  cases ht : ofText t with
  | error fault =>
    rw [ht] at h
    cases h
  | ok e =>
    rw [ht] at h
    dsimp only at h
    split at h
    · cases h
    · obtain ⟨hname, hget⟩ := value_eq_unknownToken h
      have hd := derives_of_ofTokens ht
      have hmem := names_of_derives hd token hname
      have hspelled := Token.spelled_ofText (stray_notMem_of_derives hd)
      obtain ⟨hn, hinfix⟩ := Token.infix_of_spelled hspelled hmem
      exact ⟨hmem, hn, hinfix, hget⟩

end Formula

/-! ## Lines -/

/-- `grammar.LooksUp formula token`: where the formula has an operand, there is `token`,
    and it can only be a name. -/
def Grammar.LooksUp (grammar : Grammar) (formula token : Text) : Prop :=
  match grammar with
  | .legacy => token ∈ Cutting.atoms formula ∧ readExact? token = none
  | .standard => Token.name token ∈ Token.ofText (Text.trim formula) ∧ Text.isName token

theorem evaluateFormula_eq_unknownToken {settings : Settings} {b : Bindings} {t token : Text}
    (h : evaluateFormula settings b t = .error (.unknownToken token)) :
    b.get? token = none ∧ settings.grammar.LooksUp t token ∧ Text.trim token = token ∧
      (∀ op ∈ Cutting.searchOrder, op.symbol ∉ token) ∧ token <:+: t := by
  unfold evaluateFormula at h
  unfold Grammar.LooksUp
  cases hgrammar : settings.grammar with
  | legacy =>
    rw [hgrammar] at h
    obtain ⟨hmem, ho⟩ := Cutting.evaluate_eq_unknownToken h
    obtain ⟨hget, hread⟩ := Cutting.operand?_eq_none_iff.1 ho
    exact ⟨hget, ⟨hmem, hread⟩, Cutting.of_mem_atoms hmem⟩
  | standard =>
    rw [hgrammar] at h
    obtain ⟨hmem, hname, hinfix, hget⟩ := Formula.evaluate_eq_unknownToken h
    refine ⟨hget, ⟨hmem, hname⟩, Text.trim_of_isName hname, fun op _ hop => ?_,
      hinfix.trans (Text.trim_isInfix t)⟩
    have hchar := Text.isNameChar_of_isName hname _ hop
    rw [Cutting.isNameChar_symbol] at hchar
    cases hchar

/-- The token that a line was dropped for because it was unknown. -/
def Status.unknownToken? : Status → Option Text
  | dropped _ (.unknownToken token) => some token
  | skipped | defined .. | derived .. | dropped .. => none

/-- A line that is dropped for an unknown token is a derivation with a formula that looks
    it up. -/
theorem Entry.of_unknownToken? {entry : Entry} {settings : Settings} {b : Bindings}
    {token : Text} (h : (entry.status settings b).unknownToken? = some token) :
    ∃ name formula, entry = .derivation name formula ∧
      evaluateFormula settings b formula = .error (.unknownToken token) := by
  cases entry with
  | blank | definition | unrecognized => cases h
  | derivation name formula =>
    refine ⟨name, formula, rfl, ?_⟩
    rw [status] at h
    cases hvalue : evaluateFormula settings b formula with
    | ok m =>
      rw [hvalue] at h
      cases h
    | error fault =>
      rw [hvalue] at h
      cases fault with
      | unknownToken found =>
        obtain rfl : found = token := Option.some.inj h
        rfl
      | unrecognized | tooDeep | malformed | inexactExponent => cases h

namespace Evaluation

/-- **Every unknown token is justified.**  If a line is dropped for one, no line above it
    binds it, and the line derives a name by a formula that looks it up: in the legacy
    grammar it is a piece of the formula cut at every operator and no number, in the
    standard grammar a name among the tokens.  So it is trimmed, holds no operator, and
    occurs in the formula.  Hence no line of the legacy grammar is dropped for one if all
    pieces of its formula are numbers or bound above it. -/
theorem unknownToken_justified (settings : Settings) (document : Text) :
    ∀ above o below, (evaluate settings document).outcomes.toList = above ++ o :: below →
      (∀ token, o.status.unknownToken? = some token →
        (∀ o' ∈ above, ∀ m, o'.status.binding? ≠ some (token, m)) ∧
        Text.trim token = token ∧ (∀ op ∈ Cutting.searchOrder, op.symbol ∉ token) ∧
        ∃ name formula, Entry.ofText o.line.text = .derivation name formula ∧
          token <:+: formula ∧ settings.grammar.LooksUp formula token) ∧
      (settings.grammar = .legacy →
        ∀ name formula, Entry.ofText o.line.text = .derivation name formula →
          (∀ w ∈ Cutting.atoms formula, (readExact? w).isSome ∨
            ∃ o' ∈ above, ∃ m, o'.status.binding? = some (w, m)) →
          o.status.unknownToken? = none) := by
  intro above o below h
  rw [outcomes_evaluate] at h
  have hstatus := status_of_outcomesOf h
  constructor
  · intro token hunknown
    rw [hstatus] at hunknown
    obtain ⟨name, formula, hentry, hvalue⟩ := Entry.of_unknownToken? hunknown
    obtain ⟨hget, hlooks, htrim, hop, hinfix⟩ := evaluateFormula_eq_unknownToken hvalue
    exact ⟨(get?_history_eq_none_iff above token).1 hget, htrim, hop, name, formula, hentry,
      hinfix, hlooks⟩
  · intro hlegacy name formula hentry hatoms
    rw [Option.eq_none_iff_forall_not_mem]
    intro token hunknown
    rw [hstatus, hentry] at hunknown
    obtain ⟨_, _, hderivation, hvalue⟩ := Entry.of_unknownToken? hunknown
    obtain ⟨rfl, rfl⟩ := Entry.derivation.inj hderivation
    obtain ⟨hget, hlooks, -⟩ := evaluateFormula_eq_unknownToken hvalue
    rw [hlegacy] at hlooks
    obtain ⟨hmem, hread⟩ := hlooks
    rcases hatoms token hmem with hnumber | ⟨o', ho', m, hm⟩
    · simp [hread] at hnumber
    · exact (get?_history_eq_none_iff above token).1 hget o' ho' m hm

/-- A difference with an unknown name, and a product of a bound name and a number. -/
theorem unknownToken_of_difference :
    let e := evaluate {} "a = 1 +/- 0.1\nb = x - a * 2e-3\nc = a * 2"
    ∃ o₁ o₂ o₃, e.outcomes.toList = [o₁, o₂, o₃] ∧
      o₂.status.unknownToken? = some "x".toList ∧
      (∀ m, o₁.status.binding? ≠ some ("x".toList, m)) ∧
      Grammar.legacy.LooksUp "x - a * 2e-3" "x" ∧ o₃.status.unknownToken? = none := by
  intro e
  have hlength : e.outcomes.toList.length = 3 := by decide +kernel
  obtain ⟨o₁, o₂, o₃, h⟩ := List.length_eq_three.1 hlength
  have hentries : e.outcomes.toList.map (fun o => Entry.ofText o.line.text) =
      [.definition "a" ⟨"1"⟩ ⟨"0.1"⟩, .derivation "b" "x - a * 2e-3",
        .derivation "c" "a * 2"] := by decide +kernel
  have hbound : e.outcomes.toList.map (fun o => o.status.binding?.map Prod.fst) =
      [some "a".toList, none, some "c".toList] := by decide +kernel
  have hunknown : e.outcomes.toList.map (fun o => o.status.unknownToken?) =
      [none, some "x".toList, none] := by decide +kernel
  simp only [h, List.map_cons, List.map_nil, List.cons.injEq] at hentries hbound hunknown
  obtain ⟨-, hsecond, hthird, -⟩ := hentries
  obtain ⟨hjustified, -⟩ := unknownToken_justified {} _ [o₁] o₂ [o₃] h
  obtain ⟨habove, -, -, name, formula, hentry, -, hlooks⟩ := hjustified _ hunknown.2.1
  obtain ⟨-, rfl⟩ := Entry.derivation.inj (hsecond.symm.trans hentry)
  obtain ⟨-, hnever⟩ := unknownToken_justified {} _ [o₁, o₂] o₃ [] h
  refine ⟨o₁, o₂, o₃, h, hunknown.2.1, habove o₁ (by simp), hlooks, hnever rfl _ _ hthird ?_⟩
  have hatoms : Cutting.atoms "a * 2" = ["a", "2"] := by decide +kernel
  rw [hatoms]
  refine List.forall_mem_cons.2 ⟨.inr ⟨o₁, by simp, ?_⟩, List.forall_mem_singleton.2 (.inl ?_)⟩
  · obtain ⟨⟨name, m⟩, hm, rfl⟩ := Option.map_eq_some_iff.1 hbound.1
    exact ⟨m, hm⟩
  · decide +kernel

end Evaluation

end Notebook
