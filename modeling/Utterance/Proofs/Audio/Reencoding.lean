import Utterance.Proofs.Audio.RoundTrip

/-!
# Clips written and read over and over

Full scale has 32767 steps when a sample is written and 32768 when it is read, so a level loses up
to one step each time.  Up to half of full scale that is rounded away, and 32 steps further scaling
makes up for it by the way it rounds; from there on a level fades by one step with each pass.

## Key results

- `roundAway_rescaled`: what a level comes to when it is read and written again
- `level_reread`, `level_iterate_reread`: the level of a sample after one pass, and after some
- `words_eq_iff`: which samples have the same words
- `exists_resave_step`, `exists_resave`: one pass through a file, and some
- `resave_fades`: what becomes of a file
-/

namespace Utterance.Audio.Wav

open Binary

/-! ## Levels read and written again -/

/-- The level `v` after one pass: `settle` takes a level beyond 16416 one step towards it. -/
def settle (v : ℤ) : ℤ :=
  if 16416 < v then v - 1 else if v < -16416 then v + 1 else v

/-- What the level `v` comes to when `reread` reads it and `word` scales it again. -/
def rescaled (v : ℤ) : ℚ :=
  nearest .binary32 (32767 * (v / 32768) * 2 ^ 149) / 2 ^ 149

/-- `rescaled` is odd, as rounding to `binary32` is. -/
theorem rescaled_neg (v : ℤ) : rescaled (-v) = -rescaled v := by
  have hneg : (32767 * ((-v : ℤ) / 32768) * 2 ^ 149 : ℚ) = -(32767 * (v / 32768) * 2 ^ 149) := by
    push_cast
    ring
  rw [rescaled, rescaled, hneg, nearest_neg]
  push_cast
  ring

/-- `settle` is odd. -/
theorem settle_neg (v : ℤ) : settle (-v) = -settle v := by
  unfold settle
  split_ifs <;> omega

/-- Up to half of full scale, `rescaled v` is at most half a step below `v`, so rounding restores
it. -/
theorem roundAway_rescaled_of_quiet {v : ℤ} (h0 : 0 < v) (hquiet : v ≤ 16384) :
    roundAway (rescaled v) = v := by
  have hfew : (1 : ℚ) ≤ v := by exact_mod_cast h0
  have hmany : (v : ℚ) ≤ 16384 := by exact_mod_cast hquiet
  -- both ends of the half step are points of the grid, so rounding does not leave it
  have hbelow : Grid .binary32 ((2 * v - 1) * 2 ^ 148) :=
    grid_mul_two_pow (by rw [abs_le]; omega) (by decide)
  have habove : Grid .binary32 (v * 2 ^ 149) :=
    grid_mul_two_pow (by rw [abs_le]; omega) (by decide)
  have hlow : (v : ℚ) - 1 / 2 ≤ rescaled v := by
    have hle : (((2 * v - 1) * 2 ^ 148 : ℤ) : ℚ) ≤
        nearest .binary32 (32767 * (v / 32768) * 2 ^ 149) := by
      refine Int.cast_le.mpr (le_nearest hbelow ?_)
      push_cast
      linarith
    push_cast at hle
    rw [rescaled, le_div_iff₀ (by positivity)]
    linarith
  have hhigh : rescaled v ≤ v := by
    have hle : (nearest .binary32 (32767 * (v / 32768) * 2 ^ 149) : ℚ) ≤
        ((v * 2 ^ 149 : ℤ) : ℚ) := by
      refine Int.cast_le.mpr (nearest_le habove ?_)
      push_cast
      linarith
    push_cast at hle
    rwa [rescaled, div_le_iff₀ (by positivity)]
  exact roundAway_eq (by linarith) hlow (by linarith)

/-- Above half of full scale `rescaled v` is more than half a step below `v`.  There are 512 points
of the grid to a step here, and what is exact is `(v - 16384) / 64` points below the one in the
middle. -/
theorem rescaled_of_loud {v : ℤ} (hloud : 16384 < v) (hv : v ≤ 32767) :
    rescaled v = halfEven ((512 * v - 256 : ℤ) - (v - 16384) / 64) / 512 := by
  have hlow : (16385 : ℚ) ≤ v := by exact_mod_cast hloud
  have hhigh : (v : ℚ) ≤ 32767 := by exact_mod_cast hv
  have hpoints : (32767 * (v / 32768) * 2 ^ 149 / 2 ^ 140 : ℚ) =
      (512 * v - 256 : ℤ) - (v - 16384) / 64 := by
    push_cast
    ring
  have hceil : (2 : ℕ) ^ (140 + Float.Model.Format.binary32.mantissaBits) ≤ ceiling .binary32 := by
    exact_mod_cast two_pow_le_ceiling (k := 164) (by decide)
  -- what is rounded lies between `2 ^ 14` and `2 ^ 15`, where the grid has steps of `2 ^ 140`
  rw [rescaled, nearest_eq_halfEven (k := 140) ?above ?below hceil, hpoints]
  case above =>
    rw [show (140 + Float.Model.Format.binary32.mantissaBits - 1) = 163 from rfl]
    linarith
  case below =>
    rw [show (140 + Float.Model.Format.binary32.mantissaBits) = 164 from rfl]
    linarith
  push_cast
  ring

/-- So the step is lost, unless `halfEven` goes up to the point in the middle. -/
theorem roundAway_rescaled_of_loud {v : ℤ} (hloud : 16384 < v) (hv : v ≤ 32767) :
    roundAway (rescaled v) = if 16416 < v then v - 1 else v := by
  have hlow : (16385 : ℚ) ≤ v := by exact_mod_cast hloud
  have hhigh : (v : ℚ) ≤ 32767 := by exact_mod_cast hv
  rw [rescaled_of_loud hloud hv]
  split_ifs with hfar
  -- more than half a point below the middle: the point above is out of reach
  · have hfar' : (16417 : ℚ) ≤ v := by exact_mod_cast hfar
    have hlt : halfEven ((512 * v - 256 : ℤ) - (v - 16384) / 64) < 512 * v - 256 :=
      halfEven_sub_lt (by linarith)
    have hle : 512 * (v - 1) ≤ halfEven ((512 * v - 256 : ℤ) - (v - 16384) / 64) := by
      rw [← halfEven_intCast (512 * (v - 1))]
      refine halfEven_mono ?_
      push_cast
      linarith
    generalize halfEven ((512 * v - 256 : ℤ) - (v - 16384) / 64) = h at hlt hle ⊢
    have hlt' : (h : ℚ) < 512 * v - 256 := by exact_mod_cast hlt
    have hle' : (512 * (v - 1) : ℚ) ≤ h := by exact_mod_cast hle
    refine roundAway_eq (by linarith) ?_ ?_ <;> push_cast <;> linarith
  -- at most half a point below it: the middle is even, so a tie goes there as well
  · have hnear : (v : ℚ) ≤ 16416 := by exact_mod_cast not_lt.mp hfar
    rw [halfEven_even_sub (by omega) (by linarith) (by linarith)]
    refine roundAway_eq ?_ ?_ ?_ <;> push_cast <;> linarith

/-- What `roundAway` makes of `rescaled v` is `settle v`, for every level there is. -/
theorem roundAway_rescaled {v : ℤ} (hv : |v| ≤ 32767) : roundAway (rescaled v) = settle v := by
  -- by symmetry the level has no sign
  wlog h0 : 0 ≤ v generalizing v
  · have h := this (v := -v) (by rwa [abs_neg]) (by omega)
    rw [rescaled_neg, roundAway_neg, settle_neg] at h
    exact neg_inj.mp h
  rw [abs_of_nonneg h0] at hv
  obtain rfl | hpos := h0.eq_or_lt
  · norm_num [rescaled, roundAway, settle]
  obtain hquiet | hloud := le_or_gt v 16384
  · rw [roundAway_rescaled_of_quiet hpos hquiet, settle, if_neg (by omega), if_neg (by omega)]
  · rw [roundAway_rescaled_of_loud hloud hv, settle, if_neg (by omega : ¬v < -16416)]

/-- `clamp` leaves alone what `reread` answers: the samples that are read are in range. -/
theorem clamp_reread (x : Float32) : clamp (reread x) = reread x := by
  have hlevel : |(level x : ℚ)| ≤ 32767 := by exact_mod_cast abs_level_le x
  have hvalue : |value (reread x)| ≤ 1 := by
    rw [(value_reread x).2, abs_div, abs_of_pos (by norm_num : (0 : ℚ) < 32768),
      div_le_one₀ (by norm_num)]
    linarith
  have hcount : |(count (reread x) : ℚ)| ≤ 2 ^ 149 := by
    rw [count_eq_value, abs_mul, abs_of_pos (by positivity : (0 : ℚ) < 2 ^ 149)]
    exact mul_le_of_le_one_left (by positivity) hvalue
  exact clamp_of_abs_count_le (by exact_mod_cast hcount)

/-- What a pass does to the `level` of a sample. -/
theorem level_reread (x : Float32) : level (reread x) = settle (level x) := by
  obtain ⟨hfinite, hvalue⟩ := value_reread x
  have hnan := isNaN_of_isFinite hfinite
  have hscaled : value (clamp (reread x) * 32767) = rescaled (level x) := by
    rw [value, (count_scaled hnan).2, clamp_reread, hvalue, rescaled]
  rw [level, if_neg (Bool.eq_false_iff.mp hnan), hscaled, roundAway_rescaled (abs_level_le x)]

/-- The level `v` after `k` passes. -/
def faded (k : ℕ) (v : ℤ) : ℤ :=
  if 16416 < v then max (v - k) 16416 else if v < -16416 then min (v + k) (-16416) else v

/-- One more pass: `settle` after `faded k` is `faded (k + 1)`. -/
theorem settle_faded (k : ℕ) (v : ℤ) : settle (faded k v) = faded (k + 1) v := by
  unfold settle faded
  push_cast
  split_ifs <;> omega

/-- The `level` of a sample after `k` passes, by induction on them. -/
theorem level_iterate_reread (k : ℕ) (x : Float32) : level (reread^[k] x) = faded k (level x) := by
  induction k with
  | zero =>
    rw [Function.iterate_zero_apply, faded]
    push_cast
    split_ifs <;> omega
  | succ k ih => rw [Function.iterate_succ_apply', level_reread, ih, settle_faded]

/-- The next pass leaves a level alone exactly when `faded` has brought it to 16416 by then. -/
theorem faded_succ_eq_iff {k : ℕ} {v : ℤ} : faded (k + 1) v = faded k v ↔ |v| ≤ 16416 + k := by
  rw [abs_le]
  unfold faded
  push_cast
  split_ifs <;> omega

/-! ## Words -/

/-- The two bytes that `word` writes for a level. -/
def levelBytes (v : ℤ) : List UInt8 :=
  bytes16 (Int16.ofInt v).toUInt16

/-- `word` rounds a sample to its `level`, which 16 bits hold. -/
theorem word_eq (x : Float32) : word x = .ofInt (level x) := by
  rw [← toInt_word, Int16.ofInt_toInt]

/-- The bytes that `words` writes depend on the levels of the samples only. -/
theorem words_eq_flatMap (samples : List Float32) :
    words samples = (samples.map level).flatMap levelBytes := by
  simp only [words, word_eq, List.flatMap_map, levelBytes]

/-- `words` tells the levels of the samples, and nothing else. -/
theorem words_eq_iff {samples samples' : List Float32} :
    words samples = words samples' ↔ samples.map level = samples'.map level := by
  constructor
  · intro hwords
    have hlength : samples.length = samples'.length := by
      have hbytes := congrArg List.length hwords
      rw [length_words, length_words] at hbytes
      omega
    have hreread : samples.map reread = samples'.map reread := by
      refine Option.some.inj ?_
      rw [← readSamples_words 8000, ← readSamples_words 8000, hwords, hlength]
    -- the levels can be read off the samples that are read back
    have hscale (samples : List Float32) : (samples.map level).map (Int.cast : ℤ → ℚ) =
        (samples.map reread).map fun y => value y * 32768 := by
      rw [List.map_map, List.map_map]
      refine List.map_congr_left fun x _ => ?_
      rw [Function.comp_apply, Function.comp_apply, (value_reread x).2,
        div_mul_cancel₀ _ (by norm_num)]
    refine List.map_injective_iff.mpr (Int.cast_injective (α := ℚ)) ?_
    rw [hscale, hscale, hreread]
  · intro hlevels
    rw [words_eq_flatMap, words_eq_flatMap, hlevels]

/-! ## Passes -/

/-- A clip after `k` passes. -/
def passed (k : ℕ) (clip : Clip) : Clip :=
  ⟨clip.samples.map reread^[k], clip.rate⟩

/-- After no pass `passed` leaves the clip as it was. -/
theorem passed_zero (clip : Clip) : passed 0 clip = clip := by
  rw [passed, Function.iterate_zero, List.map_id]

/-- The pass that comes first can be split off `passed`. -/
theorem passed_succ (k : ℕ) (clip : Clip) : passed (k + 1) clip = passed k (passed 1 clip) := by
  rw [passed, passed, passed, List.map_map]
  rfl

/-- The levels of a clip after `k` passes. -/
theorem map_level_passed (k : ℕ) (clip : Clip) :
    (passed k clip).samples.map level = clip.samples.map fun x => faded k (level x) := by
  rw [passed, List.map_map]
  exact List.map_congr_left fun x _ => level_iterate_reread k x

/-- The `file` for a clip after `k` passes: the header stays, the levels fade. -/
theorem file_passed (k : ℕ) (clip : Clip) :
    file (passed k clip) = header (2 * clip.samples.length) clip.rate ++
      (clip.samples.map fun x => faded k (level x)).flatMap levelBytes := by
  rw [file, words_eq_flatMap, map_level_passed, passed, List.length_map]

/-- A pass leaves the `file` alone exactly when it leaves all levels alone. -/
theorem file_passed_succ_eq_iff {k : ℕ} {clip : Clip} :
    file (passed (k + 1) clip) = file (passed k clip) ↔
      ∀ x ∈ clip.samples, |level x| ≤ 16416 + k := by
  have hheader : header (2 * (passed (k + 1) clip).samples.length) (passed (k + 1) clip).rate =
      header (2 * (passed k clip).samples.length) (passed k clip).rate := by
    simp only [passed, List.length_map]
  rw [file, file, hheader, List.append_cancel_left_eq, words_eq_iff, map_level_passed,
    map_level_passed, List.map_inj_left]
  simp only [faded_succ_eq_iff]

/-- Saves a clip with `save` and takes what `load` answers as the next one, `k` times. -/
def resave (path : String) (accepts : UInt32 → Bool) :
    ℕ → Clip → Disk → Except SpeechFault Clip × Disk
  | 0, clip, disk => (.ok clip, disk)
  | k + 1, clip, disk =>
    match save clip path disk accepts with
    | (.error fault, disk) => (.error fault, disk)
    | (.ok (), disk) =>
      match load path disk with
      | .error fault => (.error fault, disk)
      | .ok clip => resave path accepts k clip disk

section Passes

variable {clip : Clip} {path : String} {disk : Disk} {accepts : UInt32 → Bool}
  (haccepts : accepts clip.rate = true) (hsize : 36 + 2 * clip.samples.length < 2 ^ 32)
  (hrate : 2 * clip.rate.toNat < 2 ^ 32) (hpath : path.endsWith "/" = false)

include haccepts hsize hrate hpath

/-- One pass of `resave`: the disk that it leaves holds the file, and can be written again. -/
theorem exists_resave_step (hwrite : ∃ created, disk.write path [] = .ok created) :
    ∃ next, (∃ created, next.write path [] = .ok created) ∧ next.read path = .ok (file clip) ∧
      ∀ k, resave path accepts (k + 1) clip disk = resave path accepts k (passed 1 clip) next := by
  obtain ⟨created, hcreate⟩ := hwrite
  obtain ⟨place, hlocate, hplace, -⟩ := Disk.write_eq_ok_iff.mp hcreate
  -- the disk can be written, so the file is there to be read, and the disk can be written again
  have hwritten : disk.write path (file clip) = .ok (disk.put place (.file (file clip))) :=
    Disk.write_eq_ok_iff.mpr ⟨place, hlocate, hplace, rfl⟩
  have hencode : encode clip accepts = .ok (file clip) := if_pos haccepts
  have hread := Disk.read_write hpath hwritten
  refine ⟨_, Disk.exists_write_write hpath hwritten [], hread, fun k => ?_⟩
  rw [resave, save_eq hencode hwritten]
  dsimp only
  rw [load_eq hread (decode_file hsize hrate)]
  rfl

/-- All passes of `resave` succeed, by induction on them: each one leaves a disk for the next. -/
theorem exists_resave (hwrite : ∃ created, disk.write path [] = .ok created) (k : ℕ) :
    ∃ last, resave path accepts (k + 1) clip disk = (.ok (passed (k + 1) clip), last) ∧
      last.read path = .ok (file (passed k clip)) := by
  -- the first pass leaves a clip to which the others apply
  induction k generalizing clip disk with
  | zero =>
    obtain ⟨next, -, hread, hstep⟩ := exists_resave_step haccepts hsize hrate hpath hwrite
    refine ⟨next, (hstep 0).trans rfl, ?_⟩
    rw [passed_zero, hread]
  | succ k ih =>
    obtain ⟨next, hnext, -, hstep⟩ := exists_resave_step haccepts hsize hrate hpath hwrite
    have hsize' : 36 + 2 * (passed 1 clip).samples.length < 2 ^ 32 := by
      rwa [passed, List.length_map]
    have haccepts' : accepts (passed 1 clip).rate = true := haccepts
    obtain ⟨last, hlast, hread⟩ := ih haccepts' hsize' hrate hnext
    rw [hstep, passed_succ (k + 1), passed_succ k clip]
    exact ⟨last, hlast, hread⟩

end Passes

/-- A clip that is saved to a file and loaded from it again by `resave`, over and over.  Each pass
succeeds and keeps the rate and the number of samples, so the header of the file stays as it is.  A
pass takes a level that is louder than 16416 by one step towards that, and leaves the others alone.
So it gives the same file exactly when no level is louder by then, and always after 16351 passes. -/
theorem resave_fades (clip : Clip) (path : String) (disk : Disk) (accepts : UInt32 → Bool)
    (haccepts : accepts clip.rate = true) (hsize : 36 + 2 * clip.samples.length < 2 ^ 32)
    (hrate : 2 * clip.rate.toNat < 2 ^ 32) (hpath : path.endsWith "/" = false)
    (hwrite : ∃ created, disk.write path [] = .ok created) (k : ℕ) :
    (∃ last, resave path accepts (k + 1) clip disk = (.ok (passed (k + 1) clip), last) ∧
      last.read path = .ok (file (passed k clip))) ∧
    file (passed k clip) = header (2 * clip.samples.length) clip.rate ++
      (clip.samples.map fun x => faded k (level x)).flatMap levelBytes ∧
    (file (passed (k + 1) clip) = file (passed k clip) ↔
      ∀ x ∈ clip.samples, |level x| ≤ 16416 + k) ∧
    (16351 ≤ k → file (passed (k + 1) clip) = file (passed k clip)) := by
  refine ⟨exists_resave haccepts hsize hrate hpath hwrite k, file_passed k clip,
    file_passed_succ_eq_iff, fun hk => file_passed_succ_eq_iff.mpr fun x _ => ?_⟩
  have hlevel := abs_level_le x
  omega

/-- `Disk.write` can create a file on the empty disk. -/
theorem exists_write_emptyDisk :
    ∃ created, (⟨[], []⟩ : Disk).write "a" [] = .ok created :=
  ⟨⟨[(["a"], .file [])], []⟩, by cbv⟩

/-- Full scale is the highest `level`. -/
theorem level_one : level 1 = 32767 := by decide +kernel

/-- A sample at full scale: the second file that `resave` writes is not the first one. -/
theorem resave_changes_file :
    ∃ once twice, once ≠ twice ∧
      (resave "a" writable 1 ⟨[1], 8000⟩ ⟨[], []⟩).2.read "a" = .ok once ∧
      (resave "a" writable 2 ⟨[1], 8000⟩ ⟨[], []⟩).2.read "a" = .ok twice := by
  have hpath : "a".endsWith "/" = false := by decide +kernel
  let clip : Clip := ⟨[1], 8000⟩
  have haccepts : writable clip.rate = true := by decide
  have hsize : 36 + 2 * clip.samples.length < 2 ^ 32 := by decide
  have hpasses := exists_resave haccepts hsize (by decide) hpath exists_write_emptyDisk
  obtain ⟨first, hfirst, honce⟩ := hpasses 0
  obtain ⟨second, hsecond, htwice⟩ := hpasses 1
  refine ⟨_, _, fun hsame => ?_, (congrArg (·.2.read "a") hfirst).trans honce,
    (congrArg (·.2.read "a") hsecond).trans htwice⟩
  -- the files are equal only if no level fades, and that of a full sample does
  have hlevel := file_passed_succ_eq_iff.mp hsame.symm 1 (List.mem_singleton_self 1)
  rw [level_one] at hlevel
  norm_num at hlevel

/-- The second of two passes of `resave` writes a sample at full scale one step below, and a sample
at half of it where it was. -/
theorem resave_fades_loud :
    (resave "a" writable 2 ⟨[1, -0.5], 8000⟩ ⟨[], []⟩).2.read "a" =
      .ok (header 4 8000 ++ [0xfe, 0x7f, 0x00, 0xc0]) := by
  have hpath : "a".endsWith "/" = false := by decide +kernel
  have hhalf : level (-0.5) = -16384 := by decide +kernel
  obtain ⟨⟨last, hlast, hread⟩, hfile, -⟩ := resave_fades ⟨[1, -0.5], 8000⟩ "a" ⟨[], []⟩ writable
    (by decide) (by decide) (by decide) hpath exists_write_emptyDisk 1
  refine (congrArg (·.2.read "a") hlast).trans (hread.trans ?_)
  rw [hfile]
  simp only [List.map_cons, List.map_nil, level_one, hhalf]
  rfl

end Utterance.Audio.Wav
