/-
  The legacy grammar against its definition by halves.

  `Cutting.meaning` is the grammar as it is defined, without a limit: a text that
  is neither a bound name nor a number is cut in two at the first occurrence of
  the first operator in the search order, and both halves mean what they mean on
  their own.

  * `Cutting.chain` is what `Cutting.value` does with the pieces of a text; the
    pieces of a text that is cut at one operator mean what its halves mean
    (`Cutting.meaning_eq_chain`);
  * `Cutting.value_eq_or_of_le`, `Cutting.value_eq_or`: unless the levels run out, a
    value is the same with more of them, and it is the meaning;
  * `Cutting.value_eq_meaning`: they do not run out where they outnumber the
    operators that occur in the text;
  * `Cutting.evaluate_eq_meaning`: both, for the limit of the settings.
-/
import Mathlib.Data.Finset.Card
import Notebook.Formula.Cutting
import Notebook.Proofs.Text

namespace Notebook.Cutting

/-! ## The definition by halves -/

/-- The two halves of a text around the first occurrence of an operator, the
    first in the search order that occurs in it. -/
def halves? (token : Text) : Option (Text × Operator × Text) :=
  searchOrder.findSome? fun op =>
    (Text.cutAt? op.symbol token).map fun (left, right) => (left, op, right)

theorem cutAt?_of_halves? {token l r : Text} {op : Operator}
    (h : halves? token = some (l, op, r)) : Text.cutAt? op.symbol token = some (l, r) := by
  obtain ⟨op', -, h⟩ := List.exists_of_findSome?_eq_some h
  obtain ⟨⟨l', r'⟩, hcut, he⟩ := Option.map_eq_some_iff.1 h
  obtain ⟨rfl, rfl, rfl⟩ := by simpa using he
  exact hcut

theorem length_lt_of_halves? {t l r : Text} {op : Operator}
    (h : halves? (Text.trim t) = some (l, op, r)) : l.length < t.length ∧ r.length < t.length := by
  have hlt := Text.length_lt_of_cutAt? (cutAt?_of_halves? h)
  have hle := Text.length_trim_le t
  omega

/-- The meaning of a text in the legacy grammar, however deep it nests. -/
def meaning (bindings : Bindings) (t : Text) : Except Fault Measurement :=
  let token := Text.trim t
  match bindings.get? token, readExact? token, _h : halves? token with
  | some m, _, _ => .ok m
  | none, some x, _ => .ok (.exact x)
  | none, none, some (left, op, right) => do
    let a ← meaning bindings left
    let b ← meaning bindings right
    return op.apply a b
  | none, none, none => .error (.unknownToken token)
termination_by t.length
decreasing_by
  · exact (length_lt_of_halves? _h).1
  · exact (length_lt_of_halves? _h).2

variable (bindings : Bindings)

theorem meaning_eq (t : Text) :
    meaning bindings t =
      match operand? bindings (Text.trim t) with
      | some m => .ok m
      | none =>
        match halves? (Text.trim t) with
        | some (left, op, right) => do
          let a ← meaning bindings left
          let b ← meaning bindings right
          return op.apply a b
        | none => .error (.unknownToken (Text.trim t)) := by
  rw [meaning, operand?]
  cases bindings.get? (Text.trim t) with
  | some m => rfl
  | none =>
    cases readExact? (Text.trim t) with
    | some x => rfl
    | none => cases halves? (Text.trim t) <;> rfl

theorem meaning_congr {s t : Text} (h : Text.trim s = Text.trim t) :
    meaning bindings s = meaning bindings t := by
  rw [meaning_eq, meaning_eq, h]

/-! ## Operators -/

/-- The operators that occur in a text. -/
def operators (t : Text) : Finset Operator := {op ∈ searchOrder.toFinset | op.symbol ∈ t}

theorem mem_operators {op : Operator} {t : Text} :
    op ∈ operators t ↔ op ∈ searchOrder ∧ op.symbol ∈ t := by
  simp [operators]

theorem operators_mono {s t : Text} (h : s ⊆ t) : operators s ⊆ operators t := by
  intro op hop
  rw [mem_operators] at hop ⊢
  exact ⟨hop.1, h hop.2⟩

theorem isBlank_symbol (op : Operator) : Text.isBlank op.symbol = false := by
  cases op <;> rfl

theorem operator?_eq_some_iff {t : Text} {op : Operator} :
    operator? t = some op ↔
      op.symbol ∈ t ∧ ∃ before after, searchOrder = before ++ op :: after ∧
        ∀ op' ∈ before, op'.symbol ∉ t := by
  simp [operator?, List.find?_eq_some_iff_append]

theorem mem_operators_of_operator? {t : Text} {op : Operator} (h : operator? t = some op) :
    op ∈ operators t := by
  obtain ⟨hop, before, after, hs, -⟩ := operator?_eq_some_iff.1 h
  exact mem_operators.2 ⟨by simp [hs], hop⟩

theorem operator?_of_subset {s t : Text} {op : Operator} (h : operator? t = some op)
    (hst : s ⊆ t) (hop : op.symbol ∈ s) : operator? s = some op := by
  obtain ⟨-, before, after, hs, hb⟩ := operator?_eq_some_iff.1 h
  exact operator?_eq_some_iff.2 ⟨hop, before, after, hs, fun op' ho hm => hb op' ho (hst hm)⟩

theorem operator?_of_unique {t : Text} {op : Operator} (hne : op ≠ .power)
    (h : ∀ op' : Operator, op'.symbol ∈ t ↔ op' = op) : operator? t = some op := by
  cases op with
  | power => contradiction
  | add | subtract | multiply | divide => simp [operator?, searchOrder, h]

theorem card_operators_of_unique {t : Text} {op : Operator}
    (h : ∀ op' : Operator, op'.symbol ∈ t ↔ op' = op) : (operators t).card ≤ 1 := by
  refine Finset.card_le_one.2 fun op₁ h₁ op₂ h₂ => ?_
  rw [(h op₁).1 (mem_operators.1 h₁).2, (h op₂).1 (mem_operators.1 h₂).2]

theorem operator?_trim (t : Text) : operator? (Text.trim t) = operator? t := by
  unfold operator?
  congr 1
  funext op
  simp [Text.mem_trim (isBlank_symbol op)]

/-- The halves of a text are the pieces of its first cut. -/
theorem halves?_eq (token : Text) :
    halves? token = (operator? token).bind fun op =>
      (Text.cutAt? op.symbol token).map fun (left, right) => (left, op, right) := by
  unfold halves? operator?
  induction searchOrder with
  | nil => rfl
  | cons op ops ih =>
    rw [List.findSome?_cons, List.find?_cons, ih]
    cases hcut : Text.cutAt? op.symbol token with
    | none =>
      have hmem : op.symbol ∉ token := Text.cutAt?_eq_none_iff.1 hcut
      simp [hmem]
    | some p =>
      have hmem : op.symbol ∈ token := by
        by_contra hc
        simp [Text.cutAt?_eq_none_iff.2 hc] at hcut
      simp [hmem, hcut]

theorem halves?_eq_none_iff {token : Text} : halves? token = none ↔ operator? token = none := by
  rw [halves?_eq]
  cases h : operator? token with
  | none => simp
  | some op => simp [Text.cutAt?_eq_none_iff, (operator?_eq_some_iff.1 h).1]

/-! ## Chains -/

/-- The value of the pieces of a text: they are evaluated by `f` from left to
    right and combined from the right. -/
def chain (f : Text → Except Fault Measurement) (op : Operator) (pieces : List Text × Text) :
    Except Fault Measurement := do
  let operands ← pieces.1.mapM f
  let last ← f pieces.2
  return operands.foldr op.apply last

theorem value_succ (limit levels : Nat) (t : Text) :
    value bindings limit (levels + 1) t =
      match operand? bindings (Text.trim t) with
      | some m => .ok m
      | none =>
        match operator? (Text.trim t) with
        | some op => chain (value bindings limit levels) op (pieces bindings op (Text.trim t))
        | none => .error (.unknownToken (Text.trim t)) := by
  rw [value]
  cases operand? bindings (Text.trim t) with
  | some m => rfl
  | none => cases operator? (Text.trim t) <;> rfl

theorem chain_nil (f : Text → Except Fault Measurement) (op : Operator) (last : Text) :
    chain f op ([], last) = f last := by
  simp [chain]

theorem chain_cons (f : Text → Except Fault Measurement) (op : Operator) (left : Text)
    (lefts : List Text) (last : Text) :
    chain f op (left :: lefts, last) = do
      let a ← f left
      let b ← chain f op (lefts, last)
      return op.apply a b := by
  simp [chain]

variable {bindings} {op : Operator}

/-- A text that is cut at `op` means what `op` makes of the pieces of any cut at
    its first occurrence. -/
theorem meaning_of_cut {t left right : Text} (ht : Text.trimEnd t = t)
    (ho : operand? bindings (Text.trim t) = none) (hop : operator? t = some op)
    (hcut : Text.cutAt? op.symbol t = some (left, right)) :
    meaning bindings t = do
      let a ← meaning bindings left
      let b ← meaning bindings right
      return op.apply a b := by
  have hr : Text.trimEnd right = right := Text.trimEnd_of_cutAt? ht hcut
  have hh : halves? (Text.trim t) = some (Text.trimStart left, op, right) := by
    rw [halves?_eq, operator?_trim, hop, Option.bind_some,
      Text.cutAt?_trim (isBlank_symbol op) hcut, hr]
    rfl
  rw [← meaning_congr bindings (Text.trim_trimStart left), meaning_eq bindings t, ho, hh]

/-- **The pieces of a text mean what its halves mean.**  What is left after each
    cut is an operand, or is cut at the same operator again, or does not hold it
    any more; in all three cases it means what the right half means. -/
theorem meaning_eq_chain {t : Text} (ht : Text.trimEnd t = t)
    (ho : operand? bindings (Text.trim t) = none)
    (hop : op.symbol ∈ t → operator? t = some op) :
    meaning bindings t = chain (meaning bindings) op (pieces bindings op t) := by
  fun_induction pieces bindings op t with
  | case1 => rw [chain_nil]
  | case2 t left right hcut =>
    obtain ⟨-, rfl⟩ := Text.cutAt?_eq_some_iff.1 hcut
    rw [meaning_of_cut ht ho (hop (by simp)) hcut, chain_cons, chain_nil]
  | case3 t left right hcut hright more last hp ih =>
    have hr : Text.trimEnd right = right := Text.trimEnd_of_cutAt? ht hcut
    obtain ⟨-, rfl⟩ := Text.cutAt?_eq_some_iff.1 hcut
    rw [Text.trimStart_eq_trim hr] at hright
    have hsub : right ⊆ left ++ op.symbol :: right := by simp
    rw [meaning_of_cut ht ho (hop (by simp)) hcut, chain_cons,
      ih hr hright (operator?_of_subset (hop (by simp)) hsub), hp]

/-! ## Levels -/

theorem chain_congr {f g : Text → Except Fault Measurement} {lefts : List Text} {last : Text}
    (hl : ∀ left ∈ lefts, f left = g left) (hlast : f last = g last) :
    chain f op (lefts, last) = chain g op (lefts, last) := by
  induction lefts with
  | nil => rw [chain_nil, chain_nil, hlast]
  | cons left lefts ih =>
    rw [chain_cons, chain_cons, hl left (by simp), ih fun l h => hl l (by simp [h])]

/-- If each piece has its meaning or the fault `fault`, so has their chain: the
    pieces before the first one that fails have their meaning. -/
theorem chain_eq_or {f g : Text → Except Fault Measurement} {fault : Fault}
    (h : ∀ t, f t = .error fault ∨ f t = g t) (lefts : List Text) (last : Text) :
    chain f op (lefts, last) = .error fault ∨
      chain f op (lefts, last) = chain g op (lefts, last) := by
  induction lefts with
  | nil => rw [chain_nil, chain_nil]; exact h last
  | cons left lefts ih =>
    rw [chain_cons, chain_cons]
    rcases h left with hf | hf
    · left; rw [hf]; rfl
    rw [hf]
    cases g left with
    | error fault' => right; rfl
    | ok a =>
      rcases ih with hc | hc
      · left; rw [hc]; rfl
      · right; rw [hc]

/-- The fault of a text that ran out of levels apart, a value is the same with more
    levels. -/
theorem value_eq_or_of_le (limit limit' : Nat) {levels levels' : Nat} (h : levels ≤ levels')
    (t : Text) :
    value bindings limit levels t = .error (.tooDeep limit) ∨
      value bindings limit levels t = value bindings limit' levels' t := by
  induction levels generalizing levels' t with
  | zero => left; rfl
  | succ levels ih =>
    cases levels' with
    | zero => omega
    | succ levels' =>
      rw [value_succ, value_succ]
      cases operand? bindings (Text.trim t) with
      | some m => right; rfl
      | none =>
        cases operator? (Text.trim t) with
        | none => right; rfl
        | some op => exact chain_eq_or (ih (Nat.le_of_succ_le_succ h)) _ _

theorem value_one_of_operator? (limit : Nat) {t : Text}
    (ho : operand? bindings (Text.trim t) = none) (hop : operator? (Text.trim t) = some op) :
    value bindings limit 1 t = .error (.tooDeep limit) := by
  rw [value_succ, ho, hop]
  dsimp only
  obtain ⟨lefts, last⟩ := pieces bindings op (Text.trim t)
  cases lefts with
  | nil =>
    rw [chain_nil]
    rfl
  | cons left lefts =>
    rw [chain_cons]
    rfl

theorem mem_pieces {t left : Text} (h : left ∈ (pieces bindings op t).1) :
    left ⊆ t ∧ op.symbol ∉ left := by
  fun_induction pieces bindings op t with
  | case1 => simp at h
  | case2 t l r hcut =>
    obtain ⟨hl, rfl⟩ := Text.cutAt?_eq_some_iff.1 hcut
    obtain rfl : left = l := by simpa using h
    exact ⟨by simp, hl⟩
  | case3 t l r hcut hright more last hp ih =>
    obtain ⟨hl, rfl⟩ := Text.cutAt?_eq_some_iff.1 hcut
    rcases List.mem_cons.1 h with rfl | h
    · exact ⟨by simp, hl⟩
    · obtain ⟨hsub, hm⟩ := ih (by rwa [hp])
      exact ⟨List.Subset.trans hsub (by simp), hm⟩

/-- What is left after the last cut is an operand, or does not hold the operator
    any more. -/
theorem pieces_last (bindings : Bindings) (op : Operator) {t : Text} (ht : Text.trimEnd t = t) :
    (pieces bindings op t).2 ⊆ t ∧
      ((operand? bindings (Text.trim (pieces bindings op t).2)).isSome ∨
        op.symbol ∉ (pieces bindings op t).2) := by
  fun_induction pieces bindings op t with
  | case1 t hcut => exact ⟨List.Subset.refl t, Or.inr (Text.cutAt?_eq_none_iff.1 hcut)⟩
  | case2 t l r hcut m hm =>
    have hr : Text.trimEnd r = r := Text.trimEnd_of_cutAt? ht hcut
    obtain ⟨-, rfl⟩ := Text.cutAt?_eq_some_iff.1 hcut
    rw [Text.trimStart_eq_trim hr] at hm
    exact ⟨by simp, Or.inl (by simp [hm])⟩
  | case3 t l r hcut hright more last hp ih =>
    have hr : Text.trimEnd r = r := Text.trimEnd_of_cutAt? ht hcut
    obtain ⟨-, rfl⟩ := Text.cutAt?_eq_some_iff.1 hcut
    rw [hp] at ih
    obtain ⟨hsub, h⟩ := ih hr
    exact ⟨List.Subset.trans hsub (by simp), h⟩

theorem card_operators_lt {s t : Text} (hop : op ∈ operators t) (hst : s ⊆ t)
    (hs : op.symbol ∉ s) : (operators s).card < (operators t).card := by
  refine Finset.card_lt_card ⟨operators_mono hst, fun h => hs ?_⟩
  exact (mem_operators.1 (h hop)).2

/-- The levels do not run out where they outnumber the operators of a text: each
    level takes one operator away from all pieces but an operand. -/
theorem value_eq_meaning (limit : Nat) {levels : Nat} {t : Text}
    (h : (operators t).card < levels) :
    value bindings limit levels t = meaning bindings t := by
  induction levels generalizing t with
  | zero => omega
  | succ levels ih =>
    rw [value_succ]
    cases ho : operand? bindings (Text.trim t) with
    | some m => rw [meaning_eq, ho]
    | none =>
      cases hop : operator? (Text.trim t) with
      | none => rw [meaning_eq, ho, halves?_eq_none_iff.2 hop]
      | some op =>
        have hmem : op ∈ operators (Text.trim t) := mem_operators_of_operator? hop
        have hle : (operators (Text.trim t)).card ≤ levels :=
          (Finset.card_le_card (operators_mono fun _ => Text.mem_of_mem_trim)).trans (by omega)
        have hpiece : ∀ s ⊆ Text.trim t, op.symbol ∉ s →
            value bindings limit levels s = meaning bindings s := fun s hs hm =>
          ih ((card_operators_lt hmem hs hm).trans_le hle)
        rw [← Text.trim_trim] at ho
        rw [← meaning_congr bindings (Text.trim_trim t),
          meaning_eq_chain (Text.trimEnd_trim t) ho fun _ => hop]
        refine chain_congr (fun left hleft => ?_) ?_
        · obtain ⟨hsub, hm⟩ := mem_pieces hleft
          exact hpiece left hsub hm
        · obtain ⟨hsub, hlast | hm⟩ := pieces_last bindings op (Text.trimEnd_trim t)
          · -- an operand may hold the operator still, but it needs one level only
            obtain ⟨m, hm⟩ := Option.isSome_iff_exists.1 hlast
            have hpos : 0 < levels := (Finset.card_pos.2 ⟨op, hmem⟩).trans_le hle
            obtain ⟨n, rfl⟩ := Nat.exists_eq_add_one_of_ne_zero hpos.ne'
            rw [value_succ, meaning_eq, hm]
          · exact hpiece _ hsub hm

theorem meaning_ne_tooDeep (t : Text) (n : Nat) : meaning bindings t ≠ .error (.tooDeep n) := by
  induction h : t.length using Nat.strong_induction_on generalizing t with
  | h _ ih =>
    subst h
    rw [meaning_eq]
    cases operand? bindings (Text.trim t) with
    | some m => simp
    | none =>
      cases hh : halves? (Text.trim t) with
      | none => simp
      | some p =>
        obtain ⟨left, op, right⟩ := p
        have hlt := length_lt_of_halves? hh
        have hl := ih _ hlt.1 left rfl
        have hr := ih _ hlt.2 right rfl
        cases hml : meaning bindings left with
        | error fault => simpa [bind, Except.bind, hml] using hl
        | ok a =>
          cases hmr : meaning bindings right with
          | error fault => simpa [bind, Except.bind, hml, hmr] using hr
          | ok b => simp [bind, Except.bind, pure, Except.pure, hml, hmr]

theorem card_operators_le (t : Text) : (operators t).card ≤ 4 :=
  (Finset.card_filter_le _ _).trans (by decide)

theorem value_eq_or (limit levels : Nat) (t : Text) :
    value bindings limit levels t = .error (.tooDeep limit) ∨
      value bindings limit levels t = meaning bindings t := by
  have hcard := card_operators_le t
  -- five levels do for every text, and more do no harm
  have hmeaning : value bindings limit (max levels 5) t = meaning bindings t :=
    value_eq_meaning limit (by omega)
  rw [← hmeaning]
  exact value_eq_or_of_le limit limit (Nat.le_max_left levels 5) t

/-- **The legacy grammar is its definition by halves**, as long as the limit
    allows: a value is the meaning of the text, with the same fault if there is
    one, or the limit was exceeded.  A limit above the number of operators that
    occur in the text is never exceeded, so that 5 does for every text, and 2 for
    a chain of one operator of any length. -/
theorem evaluate_eq_meaning (bindings : Bindings) (limit : Nat) (t : Text) :
    (evaluate bindings limit t = .error (.tooDeep limit) ∨
        evaluate bindings limit t = meaning bindings t) ∧
      (1 + (operators t).card ≤ limit →
        evaluate bindings limit t = meaning bindings t ∧
          ∀ n, evaluate bindings limit t ≠ .error (.tooDeep n)) ∧
      (5 ≤ limit → ∀ n, evaluate bindings limit t ≠ .error (.tooDeep n)) ∧
      ((operators t).card ≤ 1 → 2 ≤ limit →
        ∀ n, evaluate bindings limit t ≠ .error (.tooDeep n)) := by
  have hmeaning : (operators t).card < limit →
      evaluate bindings limit t = meaning bindings t := fun h => value_eq_meaning limit h
  have hdepth : (operators t).card < limit →
      ∀ n, evaluate bindings limit t ≠ .error (.tooDeep n) := fun h n => by
    rw [hmeaning h]
    exact meaning_ne_tooDeep t n
  have hcard := card_operators_le t
  exact ⟨value_eq_or limit limit t, fun h => ⟨hmeaning (by omega), hdepth (by omega)⟩,
    fun h => hdepth (by omega), fun h h' => hdepth (by omega)⟩

/-- A chain of differences whose last piece holds the operator still. -/
theorem evaluate_difference_chain :
    (operators "c - a - 1e-3").card ≤ 1 ∧ 1 + (operators "c - a - 1e-3").card ≤ 2 ∧
      evaluate .empty 2 "c - a - 1e-3" = meaning .empty "c - a - 1e-3" ∧
      ∀ n, evaluate .empty 2 "c - a - 1e-3" ≠ .error (.tooDeep n) := by
  have hcard : (operators "c - a - 1e-3").card ≤ 1 := by decide
  obtain ⟨-, hmeaning, -, hdepth⟩ := evaluate_eq_meaning .empty 2 "c - a - 1e-3"
  exact ⟨hcard, by omega, (hmeaning (by omega)).1, hdepth hcard le_rfl⟩

end Notebook.Cutting
