import Mathlib.Algebra.BigOperators.Group.List.Basic
import Mathlib.Algebra.Order.Group.Nat
import Utterance.Engine.Tensor

/-!
# Rows of sequences

A sequence holds its rows one after the other, so row `r` takes up the places from `r * width` up to
`(r + 1) * width` of the data.  `Tensor.row?` is that part of the data if all of it is there.

## Key results

- `Dense.exists_row`: rows of a tensor whose data fill its dimensions
- `row?_append`: the rows of two sequences one after the other
- `joinSequences_rows`: joining, and the last row of what is joined
-/

namespace Utterance.Engine

variable {α : Type} {a b t : Tensor α} {m n r width : ℕ}

/-- The data fill the dimensions. -/
def Tensor.Dense (t : Tensor α) : Prop :=
  t.data.length = t.shape.prod

/-- A row of a sequence.  There is none beyond its length, nor where the data end before. -/
def Tensor.row? (t : Tensor α) (r : ℕ) : Option (List α) :=
  match t.shape with
  | [1, length, width] =>
    if r < length ∧ (r + 1) * width ≤ t.data.length then
      some ((t.data.drop (r * width)).take width)
    else none
  | _ => none

namespace Tensor

/-- The number of places of a `Dense` sequence. -/
theorem Dense.length_data (h : t.Dense) (hshape : t.shape = [1, n, width]) :
    t.data.length = n * width := by
  rw [Dense, hshape] at h
  simpa using h

/-- Every row of a `Dense` sequence is there in full. -/
theorem Dense.row?_eq (h : t.Dense) (hshape : t.shape = [1, n, width]) (hr : r < n) :
    t.row? r = some ((t.data.drop (r * width)).take width) := by
  have hend : (r + 1) * width ≤ t.data.length := by
    rw [h.length_data hshape]
    exact Nat.mul_le_mul_right width hr
  rw [row?, hshape]
  exact if_pos ⟨hr, hend⟩

/-- A row of a `Dense` sequence has the width of the sequence. -/
theorem Dense.exists_row (h : t.Dense) (hshape : t.shape = [1, n, width]) (hr : r < n) :
    ∃ row, t.row? r = some row ∧ row.length = width := by
  refine ⟨_, h.row?_eq hshape hr, ?_⟩
  have hend : r * width + width ≤ n * width := by
    rw [← Nat.succ_mul]
    exact Nat.mul_le_mul_right width hr
  rw [List.length_take, List.length_drop, h.length_data hshape]
  omega

section Append

variable (ha : a.Dense) (hb : b.Dense) (hashape : a.shape = [1, m, width])
  (hbshape : b.shape = [1, n, width])

include ha hb hashape hbshape

/-- The data of two sequences fill the sequence of both lengths: it is `Dense`. -/
theorem dense_append : Dense ⟨[1, m + n, width], a.data ++ b.data⟩ := by
  rw [Dense, List.length_append, ha.length_data hashape, hb.length_data hbshape]
  simp [Nat.add_mul]

/-- In `row?`, the rows of the first sequence are followed by those of the second. -/
theorem row?_append (hr : r < m + n) :
    Tensor.row? ⟨[1, m + n, width], a.data ++ b.data⟩ r =
      if r < m then a.row? r else b.row? (r - m) := by
  rw [(dense_append ha hb hashape hbshape).row?_eq rfl hr]
  have hlength := ha.length_data hashape
  -- a row lies in one of the two parts as a whole
  split
  · next hlt =>
    have hend : r * width + width ≤ a.data.length := by
      rw [hlength, ← Nat.succ_mul]
      exact Nat.mul_le_mul_right width hlt
    rw [ha.row?_eq hashape hlt, List.drop_append_of_le_length (by omega),
      List.take_append_of_le_length (by rw [List.length_drop]; omega)]
  · next hge =>
    have hstart : a.data.length ≤ r * width := by
      rw [hlength]
      exact Nat.mul_le_mul_right width (Nat.le_of_not_lt hge)
    rw [hb.row?_eq hbshape (by omega), List.drop_append, List.drop_eq_nil_of_le hstart,
      List.nil_append, hlength, ← Nat.sub_mul]

end Append

end Tensor

open Tensor

/-- `joinSequences` succeeds exactly on sequences of the same width, and what it answers then. -/
theorem joinSequences_eq_ok_iff {a b joined : Tensor Float32} :
    joinSequences a b = .ok joined ↔ ∃ m n width, a.shape = [1, m, width] ∧
      b.shape = [1, n, width] ∧ joined = ⟨[1, m + n, width], a.data ++ b.data⟩ := by
  rw [joinSequences]
  -- the two shapes decide, and the widths must agree
  constructor
  · intro h
    split at h
    · next m width n width' hashape hbshape =>
      split at h
      · next hwidth =>
        subst hwidth
        exact ⟨m, n, width, hashape, hbshape, (Except.ok.inj h).symm⟩
      · cases h
    · cases h
  · rintro ⟨m, n, width, hashape, hbshape, rfl⟩
    rw [hashape, hbshape]
    exact if_pos rfl

/-- `lastScores` answers the last row, all of which is there. -/
theorem lastScores_of_dense {t : Tensor Float32} (h : t.Dense) (hshape : t.shape = [1, n, width])
    (hn : 0 < n) : ∃ row, t.row? (n - 1) = some row ∧ row.length = width ∧
      lastScores t = .ok row := by
  obtain ⟨row, hrow, hlength⟩ := h.exists_row hshape (Nat.sub_one_lt_of_lt hn)
  refine ⟨row, hrow, hlength, ?_⟩
  rw [h.row?_eq hshape (Nat.sub_one_lt_of_lt hn)] at hrow
  obtain ⟨n, rfl⟩ := Nat.exists_eq_succ_of_ne_zero hn.ne'
  rw [lastScores, hshape]
  exact congrArg _ (Option.some.inj hrow)

/-- Tensors whose data fill their dimensions are joined exactly if they are sequences of the same
width.  The rows of the first are then followed by those of the second, and fill the dimensions
again.  The last scores of a sequence that is not empty are its last row, all of which is there; so
those of what is joined are those of the second sequence, if that is not empty. -/
theorem joinSequences_rows {a b : Tensor Float32} (ha : a.Dense) (hb : b.Dense) :
    ((∃ joined, joinSequences a b = .ok joined) ↔
      ∃ m n width, a.shape = [1, m, width] ∧ b.shape = [1, n, width]) ∧
    (∀ m n width, a.shape = [1, m, width] → b.shape = [1, n, width] →
      ∃ joined, joinSequences a b = .ok joined ∧ joined.shape = [1, m + n, width] ∧
        joined.data.length = (m + n) * width ∧
        (∀ r < m + n, joined.row? r = (if r < m then a.row? r else b.row? (r - m)) ∧
          ∃ row, joined.row? r = some row ∧ row.length = width) ∧
        (0 < n → lastScores joined = lastScores b)) ∧
    ∀ m width, a.shape = [1, m, width] → 0 < m →
      ∃ row, a.row? (m - 1) = some row ∧ row.length = width ∧ lastScores a = .ok row := by
  refine ⟨⟨?_, ?_⟩, fun m n width hashape hbshape => ?_,
    fun m width hashape hm => lastScores_of_dense ha hashape hm⟩
  · rintro ⟨joined, hjoined⟩
    obtain ⟨m, n, width, hashape, hbshape, -⟩ := joinSequences_eq_ok_iff.mp hjoined
    exact ⟨m, n, width, hashape, hbshape⟩
  · rintro ⟨m, n, width, hashape, hbshape⟩
    exact ⟨_, joinSequences_eq_ok_iff.mpr ⟨m, n, width, hashape, hbshape, rfl⟩⟩
  · have hdense := dense_append ha hb hashape hbshape
    refine ⟨_, joinSequences_eq_ok_iff.mpr ⟨m, n, width, hashape, hbshape, rfl⟩, rfl,
      hdense.length_data rfl, fun r hr => ⟨row?_append ha hb hashape hbshape hr,
        hdense.exists_row rfl hr⟩, fun hn => ?_⟩
    -- the last row of both together is one of the second sequence
    obtain ⟨row, hrow, -, hlast⟩ := lastScores_of_dense hdense rfl (by omega : 0 < m + n)
    obtain ⟨row', hrow', -, hlast'⟩ := lastScores_of_dense hb hbshape hn
    rw [row?_append ha hb hashape hbshape (by omega), if_neg (by omega),
      show m + n - 1 - m = n - 1 by omega, hrow'] at hrow
    rw [hlast, hlast', Option.some.inj hrow]

/-- A sequence of no rows and one of two rows. -/
theorem joinSequences_rows_empty :
    let a : Tensor Float32 := ⟨[1, 0, 2], []⟩
    let b : Tensor Float32 := ⟨[1, 2, 2], [1, 2, 3, 4]⟩
    a.Dense ∧ b.Dense ∧ ∃ joined, joinSequences a b = .ok joined ∧ joined.shape = [1, 2, 2] ∧
      joined.row? 1 = some [3, 4] ∧ lastScores joined = .ok [3, 4] ∧ lastScores b = .ok [3, 4] := by
  intro a b
  have ha : a.Dense := by
    unfold Tensor.Dense
    decide
  have hb : b.Dense := by
    unfold Tensor.Dense
    decide
  obtain ⟨joined, hjoined, hshape, -, hrows, hlast⟩ :=
    (joinSequences_rows ha hb).2.1 0 2 2 rfl rfl
  obtain ⟨row, hrow, -, hscores⟩ := (joinSequences_rows hb ha).2.2 2 2 rfl (by decide)
  have hb1 : b.row? 1 = some [3, 4] := rfl
  obtain rfl := Option.some.inj (hrow.symm.trans hb1)
  exact ⟨ha, hb, joined, hjoined, hshape, (hrows 1 (by decide)).1.trans hb1,
    (hlast (by decide)).trans hscores, hscores⟩

end Utterance.Engine
