/-
  Two neighbouring lines change places.

  Lines that do not concern each other may stand in either order: neither reads the
  name of the other, and they do not bind the same name.  Nothing in a notebook can
  tell the two orders apart but the order of the names itself.

  * `Entry.Independent`: two entries do not concern each other;
  * `Bindings.get?_bind_comm`, `Bindings.names_bind_comm`: two names are bound in either
    order, and what that does to their places;
  * `Bindings.ExchangedNames`: the names of two notebooks are the same but for the order of
    two neighbours;
  * `Evaluation.status_below`, `Evaluation.bind_exchange`: two lines in either order have
    the same outcomes and leave the same measurements;
  * `Evaluation.statusesOf_congr`: what follows sees measurements only, and not the order
    of the names;
  * `Evaluation.evaluate_exchange`: all of it, for a document.
-/
import Notebook.Proofs.Reading
import Notebook.Proofs.Session

namespace Notebook

/-- Two entries do not concern each other: they are not to bind the same name, and
    neither reads the name of the other. -/
structure Entry.Independent (x y : Entry) : Prop where
  name_ne : ∀ n ∈ x.name?, n ∉ y.name?
  name_notMem : ∀ n ∈ x.name?, n ∉ y.reads
  name_notMem' : ∀ n ∈ y.name?, n ∉ x.reads

theorem Entry.Independent.symm {x y : Entry} (h : x.Independent y) : y.Independent x :=
  ⟨fun n hy hx => h.name_ne n hx hy, h.name_notMem', h.name_notMem⟩

/-! ## Two bindings -/

namespace Bindings

theorem get?_bind_comm {n k : Text} (h : n ≠ k) (b : Bindings) (m m' : Measurement)
    (name : Text) :
    ((b.bind n m).bind k m').get? name = ((b.bind k m').bind n m).get? name := by
  simp only [get?_bind]
  by_cases hn : name = n
  · subst hn
    simp [h]
  · simp [hn]

/-- `ExchangedNames n k b b'`: the names bound are the same in the same order, but that the
    neighbours `n` and `k` have changed places. -/
def ExchangedNames (n k : Text) (b b' : Bindings) : Prop :=
  ∃ before after, b.names = before ++ n :: k :: after ∧ b'.names = before ++ k :: n :: after

/-- Two names that are new take neighbouring places; a name that is bound already keeps
    the place it has. -/
theorem names_bind_comm {n k : Text} (h : n ≠ k) (b : Bindings) (m m' : Measurement) :
    ((b.bind n m).bind k m').names = ((b.bind k m').bind n m).names ∨
      ExchangedNames n k ((b.bind n m).bind k m') ((b.bind k m').bind n m) := by
  simp only [ExchangedNames, names_bind]
  by_cases hn : n ∈ b.names
  · left
    by_cases hk : k ∈ b.names <;> simp [hn, hk]
  · by_cases hk : k ∈ b.names
    · left
      simp [hn, hk]
    · exact .inr ⟨b.names, [], by simp [hn, hk, h.symm], by simp [hn, hk, h]⟩

theorem names_bindAll_congr {b b' : Bindings} (h : ∀ n, n ∈ b.names ↔ n ∈ b'.names)
    (history : List (Text × Measurement)) :
    ∃ after, (b.bindAll history).names = b.names ++ after ∧
      (b'.bindAll history).names = b'.names ++ after := by
  refine ⟨_, names_bindAll_from b history, ?_⟩
  simp only [names_bindAll_from, h]

theorem names_bindAll_of_eq {b b' : Bindings} (h : b.names = b'.names)
    (history : List (Text × Measurement)) :
    (b.bindAll history).names = (b'.bindAll history).names := by
  rw [names_bindAll_from, names_bindAll_from, h]

theorem ExchangedNames.bindAll {n k : Text} {b b' : Bindings} (h : ExchangedNames n k b b')
    (history : List (Text × Measurement)) :
    ExchangedNames n k (b.bindAll history) (b'.bindAll history) := by
  obtain ⟨before, after, hb, hb'⟩ := h
  have hmem : ∀ name, name ∈ b.names ↔ name ∈ b'.names := fun name => by
    rw [hb, hb']
    exact ((List.Perm.swap k n after).append_left before).mem_iff
  obtain ⟨later, hl, hl'⟩ := names_bindAll_congr hmem history
  exact ⟨before, after ++ later, by simp [hl, hb], by simp [hl', hb']⟩

end Bindings

namespace Evaluation

/-! ## Two lines -/

section
variable {settings : Settings} {b : Bindings} {x y : Entry} (h : x.Independent y)
include h

theorem status_below (hb : b.Named) (hb' : ((x.status settings b).bind b).Named) :
    y.status settings ((x.status settings b).bind b) = y.status settings b :=
  Entry.status_congr hb' hb settings y fun w hw =>
    Bindings.get?_status_bind fun hn => h.name_notMem w (Option.mem_toList.1 hn) hw

/-- What two lines bind, in either order: the same measurements, in the same places or
    in neighbouring places that are exchanged. -/
theorem bind_exchange :
    let sx := x.status settings b
    let sy := y.status settings b
    (∀ name, (sy.bind (sx.bind b)).get? name = (sx.bind (sy.bind b)).get? name) ∧
      ((sy.bind (sx.bind b)).names = (sx.bind (sy.bind b)).names ∨
        ∃ n k, x.name? = some n ∧ y.name? = some k ∧
          Bindings.ExchangedNames n k (sy.bind (sx.bind b)) (sx.bind (sy.bind b))) := by
  intro sx sy
  unfold Status.bind
  cases hx : sx.binding? with
  | none => exact ⟨fun _ => rfl, .inl rfl⟩
  | some e =>
    cases hy : sy.binding? with
    | none => exact ⟨fun _ => rfl, .inl rfl⟩
    | some e' =>
      have hn : x.name? = some e.1 := Entry.name?_of_binding? hx
      have hk : y.name? = some e'.1 := Entry.name?_of_binding? hy
      have hne : e.1 ≠ e'.1 := fun heq => h.name_ne e.1 hn (heq ▸ hk)
      refine ⟨Bindings.get?_bind_comm hne b e.2 e'.2, ?_⟩
      refine (Bindings.names_bind_comm hne b e.2 e'.2).imp_right fun hs => ?_
      exact ⟨e.1, e'.1, hn, hk, hs⟩

end

/-! ## The lines below -/

/-- **What follows sees measurements only**: lines have the same outcomes below two
    notebooks whose names have the same measurements, in whatever order. -/
theorem statusesOf_congr (settings : Settings) {b b' : Bindings} (hb : b.Named) (hb' : b'.Named)
    (h : ∀ name, b.get? name = b'.get? name) (texts : List Text) :
    statusesOf settings b texts = statusesOf settings b' texts := by
  induction texts generalizing b b' with
  | nil => rfl
  | cons t texts ih =>
    have hs : (Entry.ofText t).status settings b = (Entry.ofText t).status settings b' :=
      Entry.status_congr hb hb' settings _ fun w _ => h w
    have hnamed := hb.status_bind settings t
    have hnamed' := hb'.status_bind settings t
    rw [← hs] at hnamed'
    rw [statusesOf, statusesOf, ← hs, ih hnamed hnamed' fun name => ?_]
    rw [status_bind, status_bind, Bindings.get?_bindAll_from, Bindings.get?_bindAll_from, h]

/-! ## A document -/

theorem get?_bindingsOf_congr (settings : Settings) {b b' : Bindings} (hb : b.Named)
    (hb' : b'.Named) (h : ∀ name, b.get? name = b'.get? name) (texts : List Text)
    (name : Text) :
    (bindingsOf settings b texts).get? name = (bindingsOf settings b' texts).get? name := by
  rw [bindingsOf, bindingsOf, Bindings.get?_bindAll_from, Bindings.get?_bindAll_from, h,
    statusesOf_congr settings hb hb' h]

/-- Two neighbouring lines that do not concern each other, and the lines below them. -/
theorem exchange (settings : Settings) {b : Bindings} (hb : b.Named) {x y : Text}
    (h : (Entry.ofText x).Independent (Entry.ofText y)) (below : List Text) :
    let after := bindingsOf settings b (x :: y :: below)
    let after' := bindingsOf settings b (y :: x :: below)
    (∃ sx sy low,
      statusesOf settings b (x :: y :: below) = sx :: sy :: low ∧
      statusesOf settings b (y :: x :: below) = sy :: sx :: low) ∧
    (∀ name, after.get? name = after'.get? name) ∧
    (after.names = after'.names ∨
      ∃ n k, (Entry.ofText x).name? = some n ∧ (Entry.ofText y).name? = some k ∧
        Bindings.ExchangedNames n k after after') := by
  have hx := hb.status_bind settings x
  have hy := hb.status_bind settings y
  have hxy := hx.status_bind settings y
  have hyx := hy.status_bind settings x
  have hsy := status_below h hb hx
  have hsx := status_below h.symm hb hy
  obtain ⟨hget, hnames⟩ := @bind_exchange settings b _ _ h
  rw [hsy] at hxy
  rw [hsx] at hyx
  have hlow := statusesOf_congr settings hxy hyx hget below
  simp only [statusesOf, bindingsOf_cons, hsx, hsy, hlow]
  refine ⟨⟨_, _, _, rfl, rfl⟩, get?_bindingsOf_congr settings hxy hyx hget below, ?_⟩
  simp only [bindingsOf, hlow]
  rcases hnames with hnames | ⟨n, k, hn, hk, hsame⟩
  · exact .inl (Bindings.names_bindAll_of_eq hnames _)
  · exact .inr ⟨n, k, hn, hk, hsame.bindAll _⟩

/-- **Neighbouring lines commute** if they do not concern each other.  In a document of
    lines that each end in a line feed, let two neighbours be exchanged that are not to
    bind the same name, and neither of which has the name of the other among the words of
    its formula.  Then their outcomes are exchanged, every other line has the outcome it
    had, and every name has the measurement it had.  The names stand in the same order,
    or all but the two of the lines, which are neighbours and change places. -/
theorem evaluate_exchange (settings : Settings) {above below : List Text} {x y : Text}
    (hwhole : ∀ t ∈ above ++ x :: y :: below, ∀ c ∈ t, ¬ Line.isEnding c)
    (h : (Entry.ofText x).Independent (Entry.ofText y)) :
    let e := evaluate settings (Document.ofLines (above ++ x :: y :: below))
    let e' := evaluate settings (Document.ofLines (above ++ y :: x :: below))
    (∃ top sx sy low, top.map Prod.fst = above ∧ low.map Prod.fst = below ∧
      e.outcomes.toList.map (fun o => (o.line.text, o.status)) =
        top ++ (x, sx) :: (y, sy) :: low ∧
      e'.outcomes.toList.map (fun o => (o.line.text, o.status)) =
        top ++ (y, sy) :: (x, sx) :: low) ∧
    (∀ name, e.bindings.get? name = e'.bindings.get? name) ∧
    (e.bindings.names = e'.bindings.names ∨
      ∃ n k, (Entry.ofText x).name? = some n ∧ (Entry.ofText y).name? = some k ∧
        Bindings.ExchangedNames n k e.bindings e'.bindings) := by
  intro e e'
  have hwhole' : ∀ t ∈ above ++ y :: x :: below, ∀ c ∈ t, ¬ Line.isEnding c := fun t ht =>
    hwhole t (((List.Perm.swap x y below).append_left above).mem_iff.1 ht)
  have hd : (Text.lines (Document.ofLines _)).map Line.text = _ := Text.map_text_lines hwhole
  have hd' : (Text.lines (Document.ofLines _)).map Line.text = _ := Text.map_text_lines hwhole'
  obtain ⟨⟨sx, sy, low, hs, hs'⟩, hnames⟩ :=
    exchange settings (Bindings.named_empty.bindingsOf settings above) h below
  have hlow : low.length = below.length := by
    have := congrArg List.length hs
    simpa using this.symm
  refine ⟨⟨above.zip (statusesOf settings .empty above), sx, sy, below.zip low,
    List.map_fst_zip (by simp), List.map_fst_zip hlow.ge, ?_, ?_⟩, ?_⟩
  · rw [map_text_status_evaluate settings hd, statusesOf_append, List.zip_append (by simp), hs]
    rfl
  · rw [map_text_status_evaluate settings hd', statusesOf_append, List.zip_append (by simp), hs']
    rfl
  · have hb := bindings_evaluate_of_texts settings hd
    have hb' := bindings_evaluate_of_texts settings hd'
    rw [bindingsOf_append] at hb hb'
    simpa only [e, e', hb, hb'] using hnames

/-- A derivation and a definition that a later line adds up: either may come first, and
    the names of the two change places. -/
theorem evaluate_exchange_neighbours :
    let above : List Text := ["a = 1 +/- 0.5"]
    let x : Text := "b = 2 * a"
    let y : Text := "c = 3 +/- 0.1"
    let below : List Text := ["d = b + c"]
    let e := evaluate {} (Document.ofLines (above ++ x :: y :: below))
    let e' := evaluate {} (Document.ofLines (above ++ y :: x :: below))
    (∀ t ∈ above ++ x :: y :: below, ∀ c ∈ t, ¬ Line.isEnding c) ∧
      (Entry.ofText x).Independent (Entry.ofText y) ∧
      (∀ name, e.bindings.get? name = e'.bindings.get? name) ∧
      e.bindings.names = ["a", "b", "c", "d"] ∧ e'.bindings.names = ["a", "c", "b", "d"] := by
  intro above x y below e e'
  have hwhole : ∀ t ∈ above ++ x :: y :: below, ∀ c ∈ t, ¬ Line.isEnding c := by
    simp [above, x, y, below, Line.isEnding]
  have hx : Entry.ofText x = .derivation "b" "2 * a" := by decide
  have hy : Entry.ofText y = .definition "c" ⟨"3"⟩ ⟨"0.1"⟩ := by decide
  have h : (Entry.ofText x).Independent (Entry.ofText y) := by
    rw [hx, hy]
    constructor <;> simp [Entry.name?, Entry.reads]
    decide
  obtain ⟨-, hget, -⟩ := evaluate_exchange {} hwhole h
  exact ⟨hwhole, h, hget, by decide +kernel, by decide +kernel⟩

end Evaluation

end Notebook
