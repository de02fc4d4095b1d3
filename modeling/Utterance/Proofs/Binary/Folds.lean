import Utterance.Proofs.Binary.Arithmetic

/-!
# Maxima and sums

`maximum` picks an upper bound from the list, the first of the largest values.  A sum of values
between 0 and 1 is finite however many there are, since it comes to rest at `2 ^ 24`, and no addend
is larger than the sum.
-/

namespace Utterance.Binary

/-! ## Maxima -/

/-- The running maximum of `foldl` is one of the values so far, and none of them is larger. -/
private theorem foldl_max (xs : List Float32) :
    ∀ top : Float32, top.isNaN = false → (∀ x ∈ xs, x.isNaN = false) →
      let result := xs.foldl (fun top x => if top < x then x else top) top
      (result = top ∨ result ∈ xs) ∧ count top ≤ count result ∧
        ∀ x ∈ xs, count x ≤ count result := by
  induction xs with
  -- the induction is for every start, since each step moves it
  | nil => exact fun top _ _ => ⟨.inl rfl, le_rfl, by simp⟩
  | cons y ys ih =>
    intro top htop hxs
    have hy : y.isNaN = false := hxs y List.mem_cons_self
    have hys : ∀ x ∈ ys, x.isNaN = false := fun x hx => hxs x (List.mem_cons_of_mem _ hx)
    simp only [List.foldl_cons, List.mem_cons, forall_eq_or_imp]
    split
    · next hlt =>
      obtain ⟨hmem, hle, hall⟩ := ih y hy hys
      exact ⟨.inr hmem, (lt_iff.mp hlt).2.2.le.trans hle, hle, hall⟩
    · next hge =>
      obtain ⟨hmem, hle, hall⟩ := ih top htop hys
      have hyle : count y ≤ count top := by
        by_contra h
        exact hge (lt_iff.mpr ⟨htop, hy, not_le.mp h⟩)
      exact ⟨hmem.imp_right .inr, hle, hyle.trans hle, hall⟩

/-- The `maximum` of some finite values is one of them and bounds all of them. -/
theorem maximum_spec {xs : List Float32} (hne : xs ≠ []) (h : ∀ x ∈ xs, x.isFinite = true) :
    maximum xs ∈ xs ∧ ∀ x ∈ xs, count x ≤ count (maximum xs) := by
  obtain ⟨hmem, -, hall⟩ := foldl_max xs negInfinity isNaN_negInfinity
    fun x hx => isNaN_of_isFinite (h x hx)
  refine ⟨hmem.resolve_left fun hbot => ?_, hall⟩
  -- a finite value is above the start of the fold
  obtain ⟨x, hx⟩ := List.exists_mem_of_ne_nil xs hne
  have hle := hall x hx
  have hlow := (isFinite_iff.mp (h x hx)).2.1
  rw [hbot, count_negInfinity] at hle
  omega

/-- The running maximum of `foldl` stays below what all values are below. -/
private theorem foldl_max_lt {x : Float32} (ys : List Float32) :
    ∀ top < x, (∀ y ∈ ys, y < x) → ys.foldl (fun top y => if top < y then y else top) top < x := by
  induction ys with
  | nil => exact fun _ htop _ => htop
  | cons y ys ih =>
    intro top htop hys
    obtain ⟨hy, hys⟩ := List.forall_mem_cons.mp hys
    rw [List.foldl_cons]
    split
    · exact ih y hy hys
    · exact ih top htop hys

/-- The running maximum of `foldl` stays at what no value is above. -/
private theorem foldl_max_eq_self {x : Float32} (ys : List Float32) (hys : ∀ y ∈ ys, ¬x < y) :
    ys.foldl (fun top y => if top < y then y else top) x = x := by
  induction ys with
  | nil => rfl
  | cons y ys ih =>
    obtain ⟨hy, hys⟩ := List.forall_mem_cons.mp hys
    rw [List.foldl_cons, if_neg hy, ih hys]

/-- Of the largest values `maximum` is the first. -/
theorem maximum_append_cons {before after : List Float32} {x : Float32} (hbot : negInfinity < x)
    (hbefore : ∀ y ∈ before, y < x) (hafter : ∀ y ∈ after, ¬x < y) :
    maximum (before ++ x :: after) = x := by
  have hlow := foldl_max_lt before negInfinity hbot hbefore
  rw [maximum, List.foldl_append, List.foldl_cons, if_pos hlow, foldl_max_eq_self after hafter]

/-! ## Sums -/

/-- `x + y` is no less than either of two values without a sign. -/
theorem add_of_nonneg {x y : Float32} (hx : 0 ≤ x) (hy : 0 ≤ y) :
    (x + y).isNaN = false ∧ count x ≤ count (x + y) ∧ count y ≤ count (x + y) := by
  obtain ⟨hxnan, hx0⟩ := nonneg_iff.mp hx
  obtain ⟨hynan, hy0⟩ := nonneg_iff.mp hy
  have hxle := (abs_le.mp (abs_count_le x)).2
  have hyle := (abs_le.mp (abs_count_le y)).2
  have hlimit := limit_pos
  -- a value that is neither negative nor finite is infinity
  have habove : ∀ {z : Float32}, z.isNaN = false → 0 ≤ count z →
      z.isFinite = true ∨ z = infinity := by
    intro z hz h0
    refine (eq_or_isFinite hz).resolve_left fun h => ?_
    rw [h, count_negInfinity] at h0
    omega
  have hbot : ∀ {z : Float32}, z.isNaN = false → 0 ≤ count z → negInfinity < z := by
    intro z hz h0
    rw [lt_iff, count_negInfinity]
    exact ⟨isNaN_negInfinity, hz, by omega⟩
  rcases habove hxnan hx0 with hxf | rfl
  · rcases habove hynan hy0 with hyf | rfl
    · obtain ⟨hnan, hcount⟩ := add_of_isFinite hxf hyf
      rw [hcount]
      refine ⟨hnan, le_nearest (grid_count x) ?_, le_nearest (grid_count y) ?_⟩
      · exact_mod_cast (by omega : count x ≤ count x + count y)
      · exact_mod_cast (by omega : count y ≤ count x + count y)
    · rw [add_infinity (hbot hxnan hx0), count_infinity]
      exact ⟨isNaN_infinity, hxle, le_rfl⟩
  · rw [infinity_add (hbot hynan hy0), count_infinity]
    exact ⟨isNaN_infinity, le_rfl, hyle⟩

/-- Where a sum of values up to 1 comes to rest: `plateau + 1` rounds back to it. -/
def plateau : Float32 :=
  .ofBits 0x4b800000

/-- `plateau` is finite. -/
theorem isFinite_plateau : plateau.isFinite = true := by decide

/-- One more step of 1 from `plateau` is rounded away. -/
theorem count_plateau_add_one : count (plateau + 1) = count plateau := by decide

/-- Adding a value up to 1 does not leave the range up to the `plateau`. -/
private theorem add_le_plateau {x w : Float32} (hx : 0 ≤ x ∧ x ≤ plateau) (hw : 0 ≤ w ∧ w ≤ 1) :
    0 ≤ x + w ∧ x + w ≤ plateau := by
  obtain ⟨hnan, hle, -⟩ := add_of_nonneg hx.1 hw.1
  obtain ⟨-, hx0⟩ := nonneg_iff.mp hx.1
  obtain ⟨-, hplateau, hx1⟩ := le_iff.mp hx.2
  obtain ⟨-, -, hw1⟩ := le_iff.mp hw.2
  -- below the plateau everything is finite
  have hxf := isFinite_of_count_le hx.1 hx1 isFinite_plateau
  have hwf := isFinite_of_count_le hw.1 hw1 isFinite_one
  refine ⟨nonneg_iff.mpr ⟨hnan, hx0.trans hle⟩, le_iff.mpr ⟨hnan, hplateau, ?_⟩⟩
  · -- rounding keeps the order, and one more step from the plateau leads nowhere
    rw [(add_of_isFinite hxf hwf).2, ← count_plateau_add_one,
      (add_of_isFinite isFinite_plateau isFinite_one).2]
    exact nearest_mono (add_le_add (by exact_mod_cast hx1) (by exact_mod_cast hw1))

/-- A running sum of values between 0 and 1 stays up to the `plateau` and above each addend. -/
private theorem foldl_add (ws : List Float32) :
    ∀ start : Float32, 0 ≤ start ∧ start ≤ plateau → (∀ w ∈ ws, 0 ≤ w ∧ w ≤ 1) →
      let total := ws.foldl (· + ·) start
      (0 ≤ total ∧ total ≤ plateau) ∧ count start ≤ count total ∧
        ∀ w ∈ ws, count w ≤ count total := by
  -- the sum so far is the start, and stays below the plateau
  induction ws with
  | nil => exact fun start hstart _ => ⟨hstart, le_rfl, by simp⟩
  | cons v vs ih =>
    intro start hstart hws
    have hv : 0 ≤ v ∧ v ≤ 1 := hws v List.mem_cons_self
    obtain ⟨hrange, hle, hall⟩ :=
      ih (start + v) (add_le_plateau hstart hv) fun w hw => hws w (List.mem_cons_of_mem _ hw)
    obtain ⟨-, hstartle, hvle⟩ := add_of_nonneg hstart.1 hv.1
    simp only [List.foldl_cons, List.mem_cons, forall_eq_or_imp]
    exact ⟨hrange, hstartle.trans hle, hvle.trans hle, hall⟩

/-- The `sum` of values between 0 and 1 is finite, and none of them is larger. -/
theorem sum_spec {ws : List Float32} (h : ∀ w ∈ ws, 0 ≤ w ∧ w ≤ 1) :
    (sum ws).isFinite = true ∧ count (sum ws) ≤ 2 ^ 173 ∧ ∀ w ∈ ws, count w ≤ count (sum ws) := by
  -- the sum starts at the negative zero, which is between 0 and the plateau
  obtain ⟨⟨h0, hplateau⟩, -, hall⟩ := foldl_add ws (.ofBits 0x80000000) (by decide) h
  have hle := (le_iff.mp hplateau).2.2
  have hcount : count plateau = 2 ^ 173 := by decide
  rw [sum, ← hcount]
  exact ⟨isFinite_of_count_le h0 hle isFinite_plateau, hle, hall⟩

/-- A running sum of values between 0 and 1 that starts with one of them is finite, by the
`plateau`. -/
theorem isFinite_foldl_add {w : Float32} {ws : List Float32}
    (h : ∀ v ∈ w :: ws, 0 ≤ v ∧ v ≤ 1) : (ws.foldl (· + ·) w).isFinite = true := by
  obtain ⟨⟨hw0, hw1⟩, hws⟩ := List.forall_mem_cons.mp h
  have hw : w ≤ plateau := by
    obtain ⟨hnan, -, hle⟩ := le_iff.mp hw1
    exact le_iff.mpr ⟨hnan, by decide, hle.trans (by decide)⟩
  obtain ⟨⟨h0, hplateau⟩, -⟩ := foldl_add ws w ⟨hw0, hw⟩ hws
  exact isFinite_of_count_le h0 (le_iff.mp hplateau).2.2 isFinite_plateau

end Utterance.Binary
