/-
  Formulas on which the two grammars agree.

  The grammars differ in what they make of several operators, of brackets and of
  signs.  A formula of one operand, or of two operands with one of the operators
  `+`, `-`, `*` and `/` between them, leaves nothing to differ about: it has the
  same value in both, or the same fault.

  * `Operand`: a name, or an unsigned number without a sign in its exponent;
  * `operandValue`: what an operand is worth on its own;
  * `Operand.readExact?_operation`: the legacy grammar takes no operation for a
    number; so it cuts the operation between its operands
    (`Cutting.evaluate_operation`);
  * `Operand.exists_leaf`: the standard grammar reads an operand as one token, and
    an operation as three (`Formula.evaluate_operation`);
  * `grammars_agree_on_one_operator`: the agreement.
-/
import Notebook.Proofs.Reading
import Notebook.Proofs.Spelling

namespace Notebook

/-! ## Operands -/

/-- An operand of either grammar.  The only sign a numeral can hold is that of its
    exponent, and the legacy grammar may cut it there. -/
inductive Operand : Text → Prop where
  | name {x} : Text.isName x → Operand x
  | number {n x} : Numeral.Spelling n x → '+' ∉ x → '-' ∉ x → Operand x

/-- The value of an operand: what the name is bound to, or the number. -/
def operandValue (b : Bindings) (x : Text) : Except Fault Measurement :=
  match Cutting.operand? b x with
  | some m => .ok m
  | none => .error (.unknownToken x)

theorem Operator.isWordChar_symbol (op : Operator) : Text.isWordChar op.symbol = false := by
  cases op <;> decide

theorem Operator.isGap_symbol (op : Operator) : Token.isGap op.symbol = false := by
  cases op <;> decide

theorem Numeral.not_spelling_of_isName {n : Numeral} {x : Text} (hx : Text.isName x)
    (rest : Text) : ¬ Spelling n (x ++ rest) := by
  intro h
  obtain ⟨c, w, hw, -, hc⟩ := Token.numeral_head h
  cases x with
  | nil => cases hx
  | cons d x =>
    obtain ⟨rfl, -⟩ := List.cons.inj hw
    simp [(Text.isName_cons.1 hx).1] at hc

theorem Numeral.not_isName_of_spelling {n : Numeral} {x : Text} (h : Spelling n x) :
    ¬ Text.isName x := fun hx =>
  not_spelling_of_isName hx [] (by rwa [List.append_nil])

namespace Operand

variable {x y : Text}

theorem isWordChar (hx : Operand x) : ∀ c ∈ x, Text.isWordChar c := by
  cases hx with
  | name hn => exact fun c hc => Text.isWordChar_of_isNameChar (Text.isNameChar_of_isName hn c hc)
  | number hn hplus hminus =>
    intro c hc
    rcases Numeral.mem_spelling hn c hc with h | rfl | rfl
    · exact h
    · exact absurd hc hplus
    · exact absurd hc hminus

theorem ne_nil (hx : Operand x) : x ≠ [] := by
  cases hx with
  | name hn => exact Text.ne_nil_of_isName hn
  | number hn =>
    obtain ⟨c, x, rfl, -⟩ := Token.numeral_head hn
    exact List.cons_ne_nil c x

theorem trim (hx : Operand x) : Text.trim x = x :=
  Text.trim_eq_self
    (fun c hc => Text.isBlank_of_isWordChar (hx.isWordChar c (List.mem_of_mem_head? hc)))
    (fun c hc => Text.isBlank_of_isWordChar (hx.isWordChar c (List.mem_of_getLast? hc)))

theorem symbol_notMem (hx : Operand x) (op : Operator) : op.symbol ∉ x := fun h => by
  simpa [op.isWordChar_symbol] using hx.isWordChar _ h

theorem trim_gaps (hx : Operand x) {g g' : Text} (hg : ∀ c ∈ g, Token.isGap c)
    (hg' : ∀ c ∈ g', Token.isGap c) : Text.trim (g ++ x ++ g') = x := by
  have hblank : ∀ {g : Text}, (∀ c ∈ g, Token.isGap c) → ∀ c ∈ g, Text.isBlank c := fun hg c hc =>
    Token.isBlank_of_isGap (hg c hc)
  rw [Text.trim_append (hblank hg) (hblank hg'), hx.trim]

/-! ## Operands that are read -/

theorem readExact?_append (hx : Operand x) (rest : Text) :
    readExact? (x ++ rest) =
      (exactWord? (x ++ rest)).or ((Numeral.read? (x ++ rest)).map Numeral.value) := by
  obtain ⟨c, x, rfl⟩ := List.exists_cons_of_ne_nil hx.ne_nil
  exact readExact?_of_isWordChar (hx.isWordChar c (by simp)) (x ++ rest)

/-- **An operation is no bare number**, whatever its operands are. -/
theorem readExact?_operation (hx : Operand x) {rest : Text} (hrest : Text.EndsWord rest)
    {op : Operator} (hop : op.symbol ∈ rest) : readExact? (x ++ rest) = none := by
  have hword : exactWord? (x ++ rest) = none := by
    have hmem : op.symbol ∈ x ++ rest := List.mem_append_right x hop
    refine exactWord?_eq_none (fun h => ?_) (fun h => ?_)
    all_goals
      rw [h] at hmem
      cases op <;> exact absurd hmem (by decide)
  have hread : Numeral.read? (x ++ rest) = none := by
    refine Option.eq_none_iff_forall_ne_some.2 fun n hn => ?_
    have hn := Numeral.read?_eq_some_iff.1 hn
    cases hx with
    | name hx => exact Numeral.not_spelling_of_isName hx rest hn
    | number hx =>
      -- one scan of the text would take all of it, and the left operand only
      have hwhole := Numeral.scan?_append hn Text.endsWord_nil
      rw [List.append_nil, Numeral.scan?_append hx hrest] at hwhole
      exact List.ne_nil_of_mem hop (Prod.mk.inj (Option.some.inj hwhole)).2
  rw [hx.readExact?_append, hword, hread]
  rfl

variable {b : Bindings}

theorem value_of_number (hb : b.Named) (hx : Operand x) {n : Numeral}
    (hn : Numeral.Spelling n x) : operandValue b x = .ok (.exact n.value) := by
  have hname := Numeral.not_isName_of_spelling hn
  have hword : exactWord? x = none :=
    exactWord?_eq_none (fun h => hname (h ▸ rfl)) (fun h => hname (h ▸ rfl))
  have hread := hx.readExact?_append []
  rw [List.append_nil, hword, Numeral.read?_eq_some_iff.2 hn] at hread
  rw [operandValue, hb.operand?_eq hname, hread]
  rfl

/-- The legacy grammar looks a name up before it takes it for a number; so it takes
    no bound name for one, and no unbound name but two. -/
theorem value_of_name (hn : Text.isName x) (hword : x = "NaN" ∨ x = "Infinity" → x ∈ b.names) :
    operandValue b x =
      match b.get? x with
      | some m => .ok m
      | none => .error (.unknownToken x) := by
  rw [operandValue, Cutting.operand?]
  cases hget : b.get? x with
  | some m => rfl
  | none =>
    have hnot : ¬ (x = "NaN" ∨ x = "Infinity") := fun h =>
      (b.get?_eq_none_iff x).1 hget (hword h)
    have hread := (Operand.name hn).readExact?_append []
    have hnumeral : Numeral.read? x = none :=
      Option.eq_none_iff_forall_ne_some.2 fun n h =>
        Numeral.not_isName_of_spelling (Numeral.read?_eq_some_iff.1 h) hn
    rw [List.append_nil, exactWord?_eq_none (fun h => hnot (.inl h)) (fun h => hnot (.inr h)),
      hnumeral] at hread
    rw [hread]
    rfl

/-- The standard grammar reads an operand as one token, and looks its name up or
    takes its number. -/
theorem exists_leaf (hb : b.Named) (hx : Operand x)
    (hword : x = "NaN" ∨ x = "Infinity" → x ∈ b.names) :
    ∃ token e, Token.Spelling token x ∧ Formula.Derives .primary [token] e ∧ e.depth = 1 ∧
      e.value b = operandValue b x := by
  cases hx with
  | @number n x hn hplus hminus =>
    exact ⟨.number n, .number n.value, .number hn, .number n, rfl,
      (value_of_number hb (.number hn hplus hminus) hn).symm⟩
  | name hn =>
    have hspelling : Token.Spelling (.name x) x := by
      cases x with
      | nil => cases hn
      | cons c x => exact .name (Text.isName_cons.1 hn).1 (Text.isName_cons.1 hn).2
    exact ⟨.name x, .name x, hspelling, .name x, rfl, (value_of_name hn hword).symm⟩

end Operand

/-! ## Operations -/

/-- An operator between two operands, with the gaps `g` and `g'` around it. -/
def operation (x g : Text) (op : Operator) (g' y : Text) : Text :=
  x ++ (g ++ op.symbol :: (g' ++ y))

/-- The value of an operation on two operands; the left one is looked at first. -/
def operationValue (b : Bindings) (x : Text) (op : Operator) (y : Text) :
    Except Fault Measurement := do
  let m ← operandValue b x
  let k ← operandValue b y
  return op.apply m k

section
variable {x y g g' : Text} {op : Operator} (hx : Operand x) (hy : Operand y)
  (hg : ∀ c ∈ g, Token.isGap c) (hg' : ∀ c ∈ g', Token.isGap c)

include hx hy hg hg'

theorem symbol_mem_operation {op' : Operator} :
    op'.symbol ∈ operation x g op g' y ↔ op' = op := by
  have hsymbol : op'.symbol = op.symbol ↔ op' = op :=
    ⟨Operator.symbol_injective, congrArg Operator.symbol⟩
  have hgap : ∀ {g : Text}, (∀ c ∈ g, Token.isGap c) → op'.symbol ∉ g := fun hg h => by
    simpa [op'.isGap_symbol] using hg _ h
  simp [operation, hx.symbol_notMem, hy.symbol_notMem, hgap hg, hgap hg', hsymbol]

omit hg hg' in
theorem trim_operation : Text.trim (operation x g op g' y) = operation x g op g' y := by
  have hblank : ∀ {z : Text}, Operand z → ∀ c ∈ z, Text.isBlank c = false := fun hz c hc =>
    Text.isBlank_of_isWordChar (hz.isWordChar c hc)
  refine Text.trim_eq_self (fun c hc => hblank hx c ?_) (fun c hc => hblank hy c ?_)
  · rw [operation, List.head?_append_of_ne_nil _ hx.ne_nil] at hc
    exact List.mem_of_mem_head? hc
  · have hlast : operation x g op g' y = (x ++ (g ++ op.symbol :: g')) ++ y := by
      simp [operation]
    rw [hlast, List.getLast?_append_of_ne_nil _ hy.ne_nil] at hc
    exact List.mem_of_getLast? hc

end

/-! ## The legacy grammar -/

namespace Cutting

variable {b : Bindings} {t x y g g' : Text} {op : Operator}

theorem meaning_of_operand (hx : Operand x) (ht : Text.trim t = x) :
    meaning b t = operandValue b x := by
  have hop : operator? x = none := by
    refine List.find?_eq_none.2 fun op _ => ?_
    simpa using hx.symbol_notMem op
  rw [meaning_eq, ht]
  cases ho : operand? b x with
  | some m => rw [operandValue, ho]
  | none => rw [halves?_eq_none_iff.2 hop, operandValue, ho]

theorem evaluate_operand (hx : Operand x) (ht : Text.trim t = x) (limit : Nat) :
    evaluate b limit t =
      if limit < 1 then .error (.tooDeep limit) else operandValue b x := by
  split
  · next h =>
    obtain rfl : limit = 0 := by omega
    rfl
  · next h =>
    have hcard : (operators t).card = 0 := by
      refine Finset.card_eq_zero.2 (Finset.eq_empty_of_forall_notMem fun op hop => ?_)
      have hmem := (Text.mem_trim (isBlank_symbol op)).2 (mem_operators.1 hop).2
      exact hx.symbol_notMem op (ht ▸ hmem)
    rw [evaluate, value_eq_meaning limit (by omega), meaning_of_operand hx ht]

theorem operand?_operation (hb : b.Named) (hx : Operand x) (hg : ∀ c ∈ g, Token.isGap c) :
    operand? b (operation x g op g' y) = none := by
  have hmem : op.symbol ∈ operation x g op g' y := by simp [operation]
  have hname : ¬ Text.isName (operation x g op g' y) := fun h => by
    have := Text.isWordChar_of_isNameChar (Text.isNameChar_of_isName h _ hmem)
    simp [op.isWordChar_symbol] at this
  have hend : Text.EndsWord (g ++ op.symbol :: (g' ++ y)) := by
    intro c hc
    cases g with
    | nil =>
      obtain rfl : op.symbol = c := Option.some.inj hc
      exact op.isWordChar_symbol
    | cons d g =>
      obtain rfl : d = c := Option.some.inj hc
      exact Token.isWordChar_of_isGap (hg d (by simp))
  have hsymbol : op.symbol ∈ g ++ op.symbol :: (g' ++ y) := by simp
  have hnumber := hx.readExact?_operation hend hsymbol
  rw [hb.operand?_eq hname, operation, hnumber]
  rfl

section
variable (hx : Operand x) (hy : Operand y) (hg : ∀ c ∈ g, Token.isGap c)
  (hg' : ∀ c ∈ g', Token.isGap c)
include hx hy hg hg'

theorem operator?_operation (hop : op ≠ .power) :
    operator? (operation x g op g' y) = some op :=
  operator?_of_unique hop fun _ => symbol_mem_operation hx hy hg hg'

theorem meaning_of_operation (hb : b.Named) (hop : op ≠ .power)
    (ht : Text.trim t = operation x g op g' y) : meaning b t = operationValue b x op y := by
  have htrim : Text.trim (operation x g op g' y) = operation x g op g' y := trim_operation hx hy
  have hend : Text.trimEnd (operation x g op g' y) = operation x g op g' y := by
    rw [← htrim]
    exact Text.trimEnd_trim _
  have hcut : Text.cutAt? op.symbol (operation x g op g' y) = some (x ++ g, g' ++ y) := by
    have hleft : op.symbol ∉ x ++ g := fun h => by
      rcases List.mem_append.1 h with h | h
      · exact hx.symbol_notMem op h
      · simpa [op.isGap_symbol] using hg _ h
    have := Text.cutAt?_append hleft (g' ++ y)
    rwa [List.append_assoc] at this
  have hl : meaning b (x ++ g) = operandValue b x :=
    meaning_of_operand hx (hx.trim_gaps (List.forall_mem_nil _) hg)
  have hr : meaning b (g' ++ y) = operandValue b y :=
    meaning_of_operand hy (by simpa using hy.trim_gaps hg' (List.forall_mem_nil _))
  rw [meaning_congr b (ht.trans htrim.symm),
    meaning_of_cut hend (by rw [htrim]; exact operand?_operation hb hx hg)
      (operator?_operation hx hy hg hg' hop) hcut, hl, hr]
  rfl

/-- **The legacy grammar cuts an operation between its operands.** -/
theorem evaluate_operation (hb : b.Named) (hop : op ≠ .power)
    (ht : Text.trim t = operation x g op g' y) (limit : Nat) :
    evaluate b limit t =
      if limit < 2 then .error (.tooDeep limit) else operationValue b x op y := by
  have ho : operand? b (Text.trim t) = none := ht ▸ operand?_operation hb hx hg
  have hop' : operator? (Text.trim t) = some op := ht ▸ operator?_operation hx hy hg hg' hop
  split
  · next h =>
    obtain rfl | rfl : limit = 0 ∨ limit = 1 := by omega
    · rfl
    · exact value_one_of_operator? 1 ho hop'
  · next h =>
    have hcard : (operators t).card ≤ 1 := card_operators_of_unique fun op' => by
      rw [← Text.mem_trim (isBlank_symbol op'), ht]
      exact symbol_mem_operation hx hy hg hg'
    rw [evaluate, value_eq_meaning limit (by omega),
      meaning_of_operation hx hy hg hg' hb hop ht]

end

end Cutting

/-! ## The standard grammar -/

namespace Formula

variable {b : Bindings} (hb : b.Named) {t x y g g' : Text} {op : Operator} (hx : Operand x)
  (hxw : x = "NaN" ∨ x = "Infinity" → x ∈ b.names)
include hb hx hxw

theorem evaluate_operand (ht : Text.trim t = x) (limit : Nat) :
    evaluate b limit t =
      if limit < 1 then .error (.tooDeep limit) else operandValue b x := by
  obtain ⟨token, e, hspelling, hd, hdepth, hvalue⟩ := hx.exists_leaf hb hxw
  have hspelled : Token.Spelled [token] x := by
    simpa using Token.spelled_cons hspelling (.nil (List.forall_mem_nil _))
  have hread : ofText t = .ok e :=
    ofText_eq_ok_iff.2 (ht ▸ ⟨_, hspelled, hd.mono (Nat.zero_le _)⟩)
  rw [evaluate, hread, ← hvalue]
  simp only [hdepth]

/-- **The standard grammar reads an operation as its operator and two leaves.** -/
theorem evaluate_operation (hy : Operand y) (hyw : y = "NaN" ∨ y = "Infinity" → y ∈ b.names)
    (hg : ∀ c ∈ g, Token.isGap c) (hg' : ∀ c ∈ g', Token.isGap c) (hop : op ≠ .power)
    (ht : Text.trim t = operation x g op g' y) (limit : Nat) :
    evaluate b limit t =
      if limit < 2 then .error (.tooDeep limit) else operationValue b x op y := by
  obtain ⟨token, e, hspelling, hd, hdepth, hvalue⟩ := hx.exists_leaf hb hxw
  obtain ⟨token', e', hspelling', hd', hdepth', hvalue'⟩ := hy.exists_leaf hb hyw
  have hspelled : Token.Spelled [token, .operator op, token'] (operation x g op g' y) := by
    have hright : Token.Spelled [token'] (g' ++ y ++ []) :=
      .cons hg' hspelling' (.nil (List.forall_mem_nil _))
    have hmiddle := Token.Spelled.cons hg (.operator op) hright
    simpa [operation] using Token.spelled_cons hspelling hmiddle
  have hderives : Derives .sum ([token] ++ .operator op :: [token']) (.binary e op e') := by
    have hany : ∀ {k : Phrase} {token e}, Derives .primary [token] e → Derives k [token] e :=
      fun h => h.mono (Nat.zero_le _)
    cases op with
    | power => contradiction
    | add => exact .sumOf (.inl rfl) (hany hd) (hany hd')
    | subtract => exact .sumOf (.inr rfl) (hany hd) (hany hd')
    | multiply => exact .sum (.productOf (.inl rfl) (hany hd) (hany hd'))
    | divide => exact .sum (.productOf (.inr rfl) (hany hd) (hany hd'))
  have hread : ofText t = .ok (.binary e op e') :=
    ofText_eq_ok_iff.2 (ht ▸ ⟨_, hspelled, hderives⟩)
  rw [evaluate, hread, operationValue, ← hvalue, ← hvalue', ← value_binary hop]
  simp [depth, hdepth, hdepth']

end Formula

/-! ## Both grammars -/

section
variable {b : Bindings} (hb : b.Named) (grammar : Grammar) (limits : Limits) {x y : Text}
  {op : Operator} {g₁ g₂ g₃ g₄ : Text} (hx : Operand x)
  (hxw : x = "NaN" ∨ x = "Infinity" → x ∈ b.names) (h₁ : ∀ c ∈ g₁, Token.isGap c)
  (h₂ : ∀ c ∈ g₂, Token.isGap c)
include hb hx hxw h₁ h₂

theorem evaluateFormula_operand :
    evaluateFormula { grammar, limits } b (g₁ ++ x ++ g₂) =
      if limits.maxDepth < 1 then .error (.tooDeep limits.maxDepth) else operandValue b x := by
  have ht : Text.trim (g₁ ++ x ++ g₂) = x := hx.trim_gaps h₁ h₂
  cases grammar with
  | legacy => exact Cutting.evaluate_operand hx ht limits.maxDepth
  | standard => exact Formula.evaluate_operand hb hx hxw ht limits.maxDepth

theorem evaluateFormula_operation (hy : Operand y)
    (hyw : y = "NaN" ∨ y = "Infinity" → y ∈ b.names) (hop : op ≠ .power)
    (h₃ : ∀ c ∈ g₃, Token.isGap c) (h₄ : ∀ c ∈ g₄, Token.isGap c) :
    evaluateFormula { grammar, limits } b (g₁ ++ x ++ g₂ ++ op.symbol :: g₃ ++ y ++ g₄) =
      if limits.maxDepth < 2 then .error (.tooDeep limits.maxDepth)
      else operationValue b x op y := by
  have ht : Text.trim (g₁ ++ x ++ g₂ ++ op.symbol :: g₃ ++ y ++ g₄) = operation x g₂ op g₃ y := by
    have hsplit : g₁ ++ x ++ g₂ ++ op.symbol :: g₃ ++ y ++ g₄ =
        g₁ ++ operation x g₂ op g₃ y ++ g₄ := by
      simp [operation]
    rw [hsplit, Text.trim_append (fun c hc => Token.isBlank_of_isGap (h₁ c hc))
      (fun c hc => Token.isBlank_of_isGap (h₄ c hc)), trim_operation hx hy]
  cases grammar with
  | legacy => exact Cutting.evaluate_operation hx hy h₂ h₃ hb hop ht limits.maxDepth
  | standard => exact Formula.evaluate_operation hb hx hxw hy hyw h₂ h₃ hop ht limits.maxDepth

end

/-- **The grammars agree on one operator.**  An operand, or two operands with one
    operator between them, and spaces and tabs anywhere around these parts, have
    one value or one fault in both grammars: the depth of the formula exceeds the
    limit, or else the first operand that is neither bound nor a number is unknown.
    A name that the legacy grammar takes for a number must be bound. -/
theorem grammars_agree_on_one_operator {b : Bindings} (hb : b.Named) (limits : Limits)
    {x y : Text} (hx : Operand x) (hy : Operand y)
    (hxw : x = "NaN" ∨ x = "Infinity" → x ∈ b.names)
    (hyw : y = "NaN" ∨ y = "Infinity" → y ∈ b.names) {op : Operator} (hop : op ≠ .power)
    {g₁ g₂ g₃ g₄ : Text} (h₁ : ∀ c ∈ g₁, Token.isGap c) (h₂ : ∀ c ∈ g₂, Token.isGap c)
    (h₃ : ∀ c ∈ g₃, Token.isGap c) (h₄ : ∀ c ∈ g₄, Token.isGap c) :
    (evaluateFormula { grammar := .legacy, limits } b (g₁ ++ x ++ g₂) =
        evaluateFormula { grammar := .standard, limits } b (g₁ ++ x ++ g₂)) ∧
      (evaluateFormula { grammar := .legacy, limits } b
          (g₁ ++ x ++ g₂ ++ op.symbol :: g₃ ++ y ++ g₄) =
        evaluateFormula { grammar := .standard, limits } b
          (g₁ ++ x ++ g₂ ++ op.symbol :: g₃ ++ y ++ g₄)) ∧
      ∀ grammar,
        (evaluateFormula { grammar, limits } b (g₁ ++ x ++ g₂) =
          if limits.maxDepth < 1 then .error (.tooDeep limits.maxDepth) else operandValue b x) ∧
        (evaluateFormula { grammar, limits } b (g₁ ++ x ++ g₂ ++ op.symbol :: g₃ ++ y ++ g₄) =
          if limits.maxDepth < 2 then .error (.tooDeep limits.maxDepth)
          else operationValue b x op y) := by
  have hone := fun grammar => evaluateFormula_operand hb grammar limits hx hxw h₁ h₂
  have htwo := fun grammar =>
    evaluateFormula_operation hb grammar limits hx hxw h₁ h₂ hy hyw hop h₃ h₄
  exact ⟨(hone .legacy).trans (hone .standard).symm, (htwo .legacy).trans (htwo .standard).symm,
    fun grammar => ⟨hone grammar, htwo grammar⟩⟩

/-- A name that is bound and a number with an exponent. -/
theorem grammars_agree_on_difference :
    (Bindings.empty.bind "a" (.exact 1)).Named ∧ Operand "a" ∧ Operand ".5e2" ∧
      (∀ x : Text, x = "a" ∨ x = ".5e2" →
        x = "NaN" ∨ x = "Infinity" → x ∈ (Bindings.empty.bind "a" (.exact 1)).names) ∧
      (∀ g : Text, g = "" ∨ g = " " ∨ g = "\t" → ∀ c ∈ g, Token.isGap c) ∧
      evaluateFormula { grammar := .legacy } (Bindings.empty.bind "a" (.exact 1)) "a -\t.5e2 " =
        evaluateFormula { grammar := .standard } (Bindings.empty.bind "a" (.exact 1))
          "a -\t.5e2 " ∧
      evaluateFormula { grammar := .legacy } (Bindings.empty.bind "a" (.exact 1)) "a -\t.5e2 " =
        operationValue (Bindings.empty.bind "a" (.exact 1)) "a" .subtract ".5e2" := by
  have hb : (Bindings.empty.bind "a" (.exact 1)).Named := Bindings.named_empty.bind (by decide) _
  have hx : Operand "a" := .name (by decide)
  have hread : Numeral.read? ".5e2" = some ⟨"5", 1⟩ := by decide
  have hy : Operand ".5e2" := .number (Numeral.read?_eq_some_iff.1 hread) (by decide) (by decide)
  have hw : ∀ x : Text, x = "a" ∨ x = ".5e2" →
      x = "NaN" ∨ x = "Infinity" → x ∈ (Bindings.empty.bind "a" (.exact 1)).names := by
    rintro x (rfl | rfl) <;> decide
  have hg : ∀ g : Text, g = "" ∨ g = " " ∨ g = "\t" → ∀ c ∈ g, Token.isGap c := by
    rintro g (rfl | rfl | rfl) <;> simp [Token.isGap]
  have hagree := grammars_agree_on_one_operator hb {} hx hy (hw _ (.inl rfl)) (hw _ (.inr rfl))
    (by decide : Operator.subtract ≠ .power) (hg "" (.inl rfl)) (hg " " (.inr (.inl rfl)))
    (hg "\t" (.inr (.inr rfl))) (hg " " (.inr (.inl rfl)))
  exact ⟨hb, hx, hy, hw, hg, hagree.2.1, (hagree.2.2 .legacy).2⟩

end Notebook
