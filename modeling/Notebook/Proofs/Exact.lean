/-
  Exact operands and exact results.

  Arithmetic on exact measurements is exact as long as its products and quotients are
  finite.  One that is not finite has an uncertainty that is not a number, zero times
  infinity; and an uncertainty that is not a number is handed on, but for an operand of
  a product or quotient whose value is zero.  A power is exact if its slope is finite.

  * `Binary64.ZeroUnless`: a double that is zero, unless it is not a number; what
    arithmetic makes of such doubles;
  * `Operator.spoils`, `Operator.lostIf_apply`: when one operation loses the uncertainty;
  * `Formula.isSpoiled`: when a formula over exact names does, with the slopes of its powers
    or without (`Formula.lostIf_value`, `Formula.isSpoiled_mono`, `Formula.isSpoiled_eq`);
  * `Formula.evaluate_exact`: all of it, for a text.
-/
import Notebook.Proofs.Display
import Notebook.Proofs.Value

namespace Notebook

namespace Binary64

open Float.Model (Format UnpackedFloat)
open Float.Model.UnpackedFloat

/-! ## Zero, or not a number -/

/-- `ZeroUnless p f`: the unpacked double `f` is a zero; but if `p`, it is not a number. -/
inductive ZeroUnless : Bool → UnpackedFloat → Prop
  | nan : ZeroUnless true .notANumber
  | zero (s : Sign) : ZeroUnless false (.zero s)

namespace ZeroUnless

variable {p q : Bool} {f g : UnpackedFloat}

theorem unpack_pack (h : ZeroUnless p f) : ZeroUnless p (unpack .binary64 (pack .binary64 f)) := by
  cases h with
  | nan => exact .nan
  | zero s => cases s <;> exact .zero _

theorem add (hf : ZeroUnless p f) (hg : ZeroUnless q g) :
    ZeroUnless (p || q) (f.add .binary64 g) := by
  cases hf with
  | nan => exact .nan
  | zero s =>
    cases hg with
    | nan => exact .nan
    | zero t =>
      rw [UnpackedFloat.add]
      split <;> exact .zero _

theorem scale (f : UnpackedFloat) (hg : ZeroUnless q g) :
    ZeroUnless (!f.isFinite || q) (f.mul .binary64 g) := by
  cases hg with
  | nan =>
    rw [Bool.or_true]
    cases f <;> exact .nan
  | zero t =>
    cases f with
    | notANumber | infinity s => exact .nan
    | zero s | finite s => exact .zero _

theorem mul (hf : ZeroUnless p f) (hg : ZeroUnless q g) :
    ZeroUnless (p || q) (f.mul .binary64 g) := by
  have h := scale f hg
  cases hf <;> exact h

theorem sqrt (hf : ZeroUnless p f) : ZeroUnless p (f.sqrt .binary64) := by
  cases hf with
  | nan => exact .nan
  | zero s => exact .zero s

theorem abs (hf : ZeroUnless p f) : ZeroUnless p f.abs := by
  cases hf with
  | nan => exact .nan
  | zero s => exact .zero _

theorem div (hf : ZeroUnless p f) (hg : ∀ s, g ≠ .zero s) :
    ZeroUnless (g.isNaN || p) (f.div .binary64 g) := by
  cases hf with
  | nan =>
    rw [Bool.or_true]
    exact .nan
  | zero s =>
    cases g with
    | notANumber => exact .nan
    | zero t => exact absurd rfl (hg t)
    | infinity t | finite t => exact .zero _

end ZeroUnless

end Binary64

/-! ## One operation -/

/-- `LostIf p x`: the double `x` is zero; but if `p`, it is not a number. -/
def LostIf (p : Bool) (x : Float) : Prop := Binary64.ZeroUnless p x.toModel.unpack

namespace LostIf

variable {x : Float}

theorem zero : LostIf false 0 := Binary64.ZeroUnless.zero .positive

theorem isNaN (h : LostIf true x) : x.isNaN := by
  rw [Binary64.isNaN_iff]
  generalize hf : x.toModel.unpack = f
  rw [LostIf, hf] at h
  cases h
  rfl

theorem beq_zero (h : LostIf false x) : x == 0 := by
  rw [Binary64.beq_zero_iff]
  generalize hf : x.toModel.unpack = f
  rw [LostIf, hf] at h
  cases h with
  | zero s => exact ⟨s, rfl⟩

theorem of_beq_zero (h : x == 0) : LostIf false x := by
  obtain ⟨s, hs⟩ := (Binary64.beq_zero_iff x).1 h
  rw [LostIf, hs]
  exact .zero s

end LostIf

namespace Measurement

variable {p q : Bool} {a b : Measurement}

theorem lostIf_quadrature {u w : Float} (hu : LostIf p u) (hw : LostIf q w) :
    LostIf (p || q) (quadrature u w) := by
  have huu : LostIf (p || p) (u * u) := (hu.mul hu).unpack_pack
  have hww : LostIf (q || q) (w * w) := (hw.mul hw).unpack_pack
  rw [Bool.or_self] at huu hww
  have hsum : LostIf (p || q) (u * u + w * w) := (huu.add hww).unpack_pack
  exact hsum.sqrt.unpack_pack

/-- A relative uncertainty is zero for a value of zero, also where the uncertainty is
    lost. -/
theorem lostIf_relative (h : LostIf p a.uncertainty) :
    LostIf (a.value.isNaN || p && a.value != 0) a.relative := by
  unfold relative
  cases hvalue : a.value != 0 with
  | true =>
    have hzero (s) : a.value.toModel.unpack ≠ .zero s := fun hs => by
      simp [(Binary64.beq_zero_iff _).2 ⟨s, hs⟩, bne] at hvalue
    rw [Bool.and_true, if_pos rfl]
    exact (h.div hzero).unpack_pack
  | false =>
    have hnan : a.value.isNaN = false := by
      obtain ⟨s, hs⟩ := (Binary64.beq_zero_iff a.value).1 (by simpa [bne] using hvalue)
      rw [← Bool.not_eq_true, Binary64.isNaN_iff, hs]
      nofun
    rw [hnan, Bool.and_false, if_neg Bool.false_ne_true]
    exact .zero

/-- The uncertainty of a product or quotient is lost if its value is not finite, and
    also if that of an operand is lost whose value is not zero. -/
theorem lostIf_ofRelative {value : Float} (ha : LostIf p a.uncertainty)
    (hb : LostIf q b.uncertainty)
    (hnan : a.value.isNaN ∨ b.value.isNaN → value.isFinite = false) :
    LostIf (!value.isFinite || (p && a.value != 0 || q && b.value != 0))
      (ofRelative value a b).uncertainty := by
  have hrelative := lostIf_quadrature (lostIf_relative ha) (lostIf_relative hb)
  have h : LostIf (!value.abs.isFinite || _) (ofRelative value a b).uncertainty :=
    (hrelative.scale value.abs.toModel.unpack).unpack_pack
  rw [Binary64.isFinite_abs] at h
  cases hfinite : value.isFinite with
  | false =>
    rw [hfinite] at h
    exact h
  | true =>
    have hnan : ¬ (a.value.isNaN ∨ b.value.isNaN) := fun hn => by simp [hnan hn] at hfinite
    rw [not_or, Bool.not_eq_true, Bool.not_eq_true] at hnan
    rwa [hfinite, hnan.1, hnan.2] at h

/-- The uncertainty of a power is lost if its slope is not finite, or that of the base is
    lost. -/
theorem lostIf_pow (k : Float) (ha : LostIf p a.uncertainty) :
    LostIf (!(k * Float.pow a.value (k - 1)).isFinite || p) (a.pow k).uncertainty := by
  have h : LostIf (!(k * Float.pow a.value (k - 1)).isFinite || p)
      (k * Float.pow a.value (k - 1) * a.uncertainty) := (ha.scale _).unpack_pack
  exact h.abs.unpack_pack

end Measurement

namespace Operator

/-- Whether an operation loses the uncertainty of its result, where `p` and `q` tell
    whether those of its operands are lost.  A product or quotient loses it if it is not
    finite itself, and not to an operand whose value is zero.  A power loses it if its slope
    is not finite, which counts if `slopes` does. -/
def spoils (slopes : Bool) (op : Operator) (a b : Measurement) (p q : Bool) : Bool :=
  match op with
  | add | subtract => p || q
  | multiply | divide =>
    !(op.apply a b).value.isFinite || (p && a.value != 0 || q && b.value != 0)
  | power => slopes && !(b.value * Float.pow a.value (b.value - 1)).isFinite || p

/-- Apart from slopes, what is lost was lost by an operand, or the operation is a product or
    quotient that is not finite. -/
theorem of_spoils {op : Operator} {a b : Measurement} {p q : Bool}
    (h : op.spoils false a b p q) :
    p ∨ q ∨ (op = multiply ∨ op = divide) ∧ (op.apply a b).value.isFinite = false := by
  cases op with
  | add | subtract =>
    rcases Bool.or_eq_true_iff.1 h with h | h
    · exact .inl h
    · exact .inr (.inl h)
  | multiply | divide =>
    simp only [spoils, Bool.or_eq_true, Bool.not_eq_true', Bool.and_eq_true] at h
    rcases h with h | ⟨h, -⟩ | ⟨h, -⟩
    · exact .inr (.inr ⟨by simp, h⟩)
    · exact .inl h
    · exact .inr (.inl h)
  | power => exact .inl h

/-- More is lost where more operands have lost it, and slopes count. -/
theorem spoils_mono {op : Operator} {a b : Measurement} {p p' q q' : Bool} (hp : p → p')
    (hq : q → q') (h : op.spoils false a b p q) : op.spoils true a b p' q' := by
  cases op with
  | add | subtract => exact Bool.or_eq_true_iff.2 ((Bool.or_eq_true_iff.1 h).imp hp hq)
  | multiply | divide =>
    simp only [spoils, Bool.or_eq_true, Bool.and_eq_true] at h ⊢
    exact h.imp_right fun h => h.imp (And.imp_left hp) (And.imp_left hq)
  | power => exact Bool.or_eq_true_iff.2 (.inr (hp h))

/-- **One operation.** -/
theorem lostIf_apply {op : Operator} {a b : Measurement} {p q : Bool}
    (ha : LostIf p a.uncertainty) (hb : LostIf q b.uncertainty) :
    LostIf (op.spoils true a b p q) (op.apply a b).uncertainty := by
  cases op with
  | add | subtract => exact Measurement.lostIf_quadrature ha hb
  | multiply => exact Measurement.lostIf_ofRelative ha hb Binary64.isFinite_mul_of_isNaN
  | divide => exact Measurement.lostIf_ofRelative ha hb Binary64.isFinite_div_of_isNaN
  | power => exact Measurement.lostIf_pow b.value ha

end Operator

/-! ## Formulas over exact names -/

/-- All names are bound to exact measurements. -/
def Bindings.IsExact (b : Bindings) : Prop := ∀ e ∈ b.entries, e.2.uncertainty == 0

namespace Formula

/-- A formula and all formulas in it. -/
def parts : Formula → List Formula
  | number x => [number x]
  | name n => [name n]
  | negate inner => negate inner :: inner.parts
  | binary left op right => binary left op right :: (left.parts ++ right.parts)

theorem mem_parts_self (e : Formula) : e ∈ e.parts := by
  cases e <;> exact List.mem_cons_self

/-- Every power in the formula has a finite slope. -/
def HasFiniteSlopes (b : Bindings) (e : Formula) : Prop :=
  ∀ base exponent, binary base .power exponent ∈ e.parts → ∀ x y,
    base.value b = .ok x → exponent.value b = .ok y →
    (y.value * Float.pow x.value (y.value - 1)).isFinite

/-- Some product or quotient in the formula is not finite. -/
def HasNonFinite (b : Bindings) (e : Formula) : Prop :=
  ∃ left op right m, binary left op right ∈ e.parts ∧ (op = .multiply ∨ op = .divide) ∧
    (binary left op right).value b = .ok m ∧ m.value.isFinite = false

/-- Whether a formula over exact names loses its uncertainty; `slopes` tells whether it can
    lose it to the slope of a power. -/
def isSpoiled (slopes : Bool) (b : Bindings) : Formula → Bool
  | number _ | name _ => false
  | negate inner => inner.isSpoiled slopes b
  | binary left op right =>
    match left.value b, right.value b with
    | .ok x, .ok y => op.spoils slopes x y (left.isSpoiled slopes b) (right.isSpoiled slopes b)
    | _, _ => false

variable {b : Bindings} {e e' : Formula} {m : Measurement}

theorem HasFiniteSlopes.mono (h : e.HasFiniteSlopes b) (hparts : e'.parts ⊆ e.parts) :
    e'.HasFiniteSlopes b :=
  fun base exponent hpart => h base exponent (hparts hpart)

theorem HasNonFinite.mono (h : e'.HasNonFinite b) (hparts : e'.parts ⊆ e.parts) :
    e.HasNonFinite b := by
  obtain ⟨left, op, right, m, hpart, hm⟩ := h
  exact ⟨left, op, right, m, hparts hpart, hm⟩

theorem parts_subset_negate (inner : Formula) : inner.parts ⊆ (negate inner).parts :=
  List.subset_cons_self _ _

theorem parts_subset_left (left right : Formula) (op : Operator) :
    left.parts ⊆ (binary left op right).parts :=
  List.subset_cons_of_subset _ (List.subset_append_left _ _)

theorem parts_subset_right (left right : Formula) (op : Operator) :
    right.parts ⊆ (binary left op right).parts :=
  List.subset_cons_of_subset _ (List.subset_append_right _ _)

/-- **A formula over exact names** has the uncertainty zero, or has lost it. -/
theorem lostIf_value (hb : b.IsExact) (h : e.value b = .ok m) :
    LostIf (e.isSpoiled true b) m.uncertainty := by
  induction e generalizing m with
  | number x =>
    obtain rfl : Measurement.exact x = m := Except.ok.inj h
    exact .zero
  | name n => exact .of_beq_zero (hb (n, m) (Bindings.mem_entries_of_get? (value_name_eq_ok h)))
  | negate inner ih =>
    obtain ⟨x, hx, rfl⟩ := value_negate_eq_ok h
    have hinner : LostIf (inner.isSpoiled true b) x.uncertainty := ih hx
    exact hinner
  | binary left op right ihl ihr =>
    obtain ⟨x, y, hx, hy, rfl, -⟩ := value_binary_eq_ok h
    rw [isSpoiled, hx, hy]
    exact Operator.lostIf_apply (ihl hx) (ihr hy)

theorem isSpoiled_mono (h : e.isSpoiled false b) : e.isSpoiled true b := by
  induction e with
  | number | name => cases h
  | negate inner ih => exact ih h
  | binary left op right ihl ihr =>
    rw [isSpoiled] at h ⊢
    split at h
    · exact Operator.spoils_mono ihl ihr h
    · cases h

theorem isSpoiled_eq (hslopes : e.HasFiniteSlopes b) :
    e.isSpoiled true b = e.isSpoiled false b := by
  induction e with
  | number | name => rfl
  | negate inner ih => exact ih (hslopes.mono (parts_subset_negate inner))
  | binary left op right ihl ihr =>
    have hl := ihl (hslopes.mono (parts_subset_left left right op))
    have hr := ihr (hslopes.mono (parts_subset_right left right op))
    rw [isSpoiled, isSpoiled, hl, hr]
    split
    · next x y hx hy =>
      cases op with
      | add | subtract | multiply | divide => rfl
      | power =>
        have hslope := hslopes left right (mem_parts_self _) x y hx hy
        rw [Operator.spoils, Operator.spoils, hslope, Bool.not_true, Bool.and_false,
          Bool.and_false]
    · rfl

/-- What is spoiled goes back to a product or quotient that is not finite, apart from
    slopes. -/
theorem hasNonFinite_of_isSpoiled (h : e.isSpoiled false b) : e.HasNonFinite b := by
  induction e with
  | number | name => cases h
  | negate inner ih => exact (ih h).mono (parts_subset_negate inner)
  | binary left op right ihl ihr =>
    rw [isSpoiled] at h
    split at h
    · next x y hx hy =>
      rcases Operator.of_spoils h with hl | hr | ⟨hop, hfinite⟩
      · exact (ihl hl).mono (parts_subset_left left right op)
      · exact (ihr hr).mono (parts_subset_right left right op)
      · refine ⟨left, op, right, _, mem_parts_self _, hop, ?_, hfinite⟩
        have hpower : op ≠ .power := by rcases hop with rfl | rfl <;> nofun
        rw [value_binary hpower, hx, hy]
        rfl
    · cases h

/-- **Exact names give exact results.**  A formula that is not spoiled has the uncertainty
    zero: its display does not end in ` ± NaN`, and it is accepted as an exponent.  One that
    is spoiled, by more than the slopes of its powers, has a product or quotient that is not
    finite, and an uncertainty that is not a number.  There is nothing between the two if all
    slopes are finite. -/
theorem evaluate_exact {limit : ℕ} {t : Text} (hb : b.IsExact) (ht : ofText t = .ok e)
    (h : evaluate b limit t = .ok m) :
    (e.isSpoiled true b = false → m.uncertainty == 0 ∧
      ¬ Measurement.plusMinus ++ ("NaN" : Text) <:+ m.display ∧
      ∀ b' base exponent x, base.value b' = .ok x → exponent.value b' = .ok m →
        (binary base .power exponent).value b' = .ok (x.pow m.value)) ∧
    (e.isSpoiled false b → m.uncertainty.isNaN ∧ e.HasNonFinite b) ∧
    (e.HasFiniteSlopes b → e.isSpoiled true b = e.isSpoiled false b) := by
  obtain ⟨e', he', -, hvalue⟩ := evaluate_eq_ok h
  obtain rfl : e = e' := Except.ok.inj (ht.symm.trans he')
  have hlost := lostIf_value hb hvalue
  refine ⟨fun hspoiled => ?_, fun hspoiled => ?_, isSpoiled_eq⟩
  · rw [hspoiled] at hlost
    have hzero : m.uncertainty == 0 := hlost.beq_zero
    refine ⟨hzero, Measurement.not_suffix_display hzero, fun b' base exponent x hx hm => ?_⟩
    have hexact : (m.uncertainty != 0) = false := by rw [bne, hzero, Bool.not_true]
    rw [value, hx, hm]
    simp only [bind, Except.bind, hexact]
    rfl
  · rw [isSpoiled_mono hspoiled] at hlost
    exact ⟨hlost.isNaN, hasNonFinite_of_isSpoiled hspoiled⟩

/-- A quotient of exact names, finite and not zero, and a quotient by zero, which the power
    after it does not make up for. -/
theorem evaluate_exact_quotient :
    let b := ((Bindings.empty.bind "a" (.exact 2)).bind "c" (.exact 3)).bind "d" (.exact 8)
    b.IsExact ∧
    (∃ m, evaluate b 100 "-(a * c) / (a - d) + a" = .ok m ∧ m.uncertainty == 0) ∧
    ∃ m, evaluate b 100 "c / (c / (a - a)) - a ^ c" = .ok m ∧ m.uncertainty.isNaN := by
  intro b
  have hb : b.IsExact := by
    show ∀ entry ∈ b.entries, (entry.2.uncertainty == 0) = true
    exact List.all_eq_true.1 (by decide +kernel)
  refine ⟨hb, ?_, ?_⟩
  · have ht : ofText "-(a * c) / (a - d) + a" =
        .ok (.binary (.binary (.negate (.binary (.name "a") .multiply (.name "c"))) .divide
          (.binary (.name "a") .subtract (.name "d"))) .add (.name "a")) := by cbv
    obtain ⟨m, hm⟩ : ∃ m, evaluate b 100 "-(a * c) / (a - d) + a" = .ok m := by
      rw [evaluate, ht]
      exact ⟨_, rfl⟩
    exact ⟨m, hm, ((evaluate_exact hb ht hm).1 (by decide +kernel)).1⟩
  · have ht : ofText "c / (c / (a - a)) - a ^ c" =
        .ok (.binary (.binary (.name "c") .divide (.binary (.name "c") .divide
          (.binary (.name "a") .subtract (.name "a")))) .subtract
          (.binary (.name "a") .power (.name "c"))) := by cbv
    obtain ⟨m, hm⟩ : ∃ m, evaluate b 100 "c / (c / (a - a)) - a ^ c" = .ok m := by
      rw [evaluate, ht]
      exact ⟨_, rfl⟩
    exact ⟨m, hm, ((evaluate_exact hb ht hm).2.1 (by decide +kernel)).1⟩

/-- The reciprocal of a quotient by zero is zero, with an uncertainty that is not a
    number. -/
theorem not_exact_of_reciprocal_of_infinite :
    ¬ ∀ (b : Bindings) (limit : ℕ) (t : Text) (m : Measurement), b.IsExact →
      evaluate b limit t = .ok m → m.value.isFinite → m.uncertainty == 0 := by
  intro h
  have heval : (evaluate .empty 100 "1 / (1 / 0)").toOption.any fun m =>
      m.value.isFinite && !(m.uncertainty == 0) := by decide +kernel
  cases hm : evaluate .empty 100 "1 / (1 / 0)" with
  | error fault =>
    rw [hm] at heval
    cases heval
  | ok m =>
    rw [hm] at heval
    have hm' : m.value.isFinite && !(m.uncertainty == 0) := heval
    rw [Bool.and_eq_true, Bool.not_eq_true'] at hm'
    have hzero := h .empty 100 "1 / (1 / 0)" m (List.forall_mem_nil _) hm hm'.1
    rw [hm'.2] at hzero
    cases hzero

end Formula

end Notebook
