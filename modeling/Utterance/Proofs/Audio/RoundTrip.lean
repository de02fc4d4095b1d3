import Utterance.Audio.Wav.File
import Utterance.Proofs.Audio.Bytes
import Utterance.Proofs.Audio.Level
import Utterance.Proofs.Disk

/-!
# Clips written and read back

Reading a file that was written gives the rate and the samples, each at its level.

## Key results

- `value_reread`: what is read for a level
- `readHeader_header`: the header of a file that was written
- `decode_encode`: a clip written and read back
-/

namespace Utterance.Audio.Wav

open Binary

/-! ## Samples -/

/-- The format of files that `encode` writes. -/
def written (rate : UInt32) : SampleFormat where
  channels := 1
  rate := rate
  bits := 16
  width := 2
  isFloat := false

/-- What `sample` reads for a sample that was written. -/
def reread (x : Float32) : Float32 :=
  .ofInt (level x) / 32768

/-- `signed` reads the number of a word with a sign, whichever sign it has. -/
theorem signed_word (w : Int16) : signed 16 w.toUInt16.toNat = w.toInt := by
  have hcond := BitVec.toInt_eq_toNat_cond w.toBitVec
  have hlt := w.toUInt16.toNat_lt
  change w.toInt = if 2 * w.toUInt16.toNat < 2 ^ 16 then _ else _ at hcond
  rw [hcond, signed]
  change (if w.toUInt16.toNat < 32768 then _ else _) = _
  split_ifs <;> first | rfl | omega

/-- `sample` reads a word as the level over full scale. -/
theorem sample_word (rate : UInt32) (x : Float32) :
    sample (written rate) (bytes16 (word x).toUInt16) = some (reread x) := by
  rw [sample, ofBytes_bytes16]
  simp only [written, signed_word, toInt_word]
  rfl

/-- The literal `32768` is the integer. -/
theorem isInteger_fullSwing : IsInteger 32768 32768 where
  isNumber := by decide
  count := by decide

/-- The value of `reread` is exactly the level over full scale. -/
theorem value_reread (x : Float32) :
    (reread x).isFinite = true ∧ value (reread x) = level x / 32768 := by
  have hlevel := abs_level_le x
  have hinteger : IsInteger (.ofInt (level x)) (level x) := isInteger_ofInt (by omega)
  -- the quotient is rounded, if at all, from two finite integers
  obtain ⟨hnan, hcount⟩ := div_of_isFinite (hinteger.isFinite (by omega))
    (isInteger_fullSwing.isFinite (by decide)) (by rw [isInteger_fullSwing.count]; decide)
  -- full scale is a power of two, so the quotient is on the grid and nothing is rounded
  have hgrid : Grid .binary32 (level x * 2 ^ 134) := grid_mul_two_pow (by omega) (by decide)
  have hexact : count (reread x) = level x * 2 ^ 134 := by
    rw [reread, hcount, hinteger.count, isInteger_fullSwing.count, one_binary32,
      ← nearest_eq_self hgrid]
    congr 1
    push_cast
    ring
  have hvalue : value (reread x) = level x / 32768 := by
    rw [value, hexact]
    push_cast
    ring
  -- a level is no more than full scale, so the quotient is finite
  refine ⟨isFinite_of_abs_value_le hnan ?_, hvalue⟩
  have hsize : |(level x : ℚ)| ≤ 32767 := by exact_mod_cast hlevel
  rw [hvalue, abs_div, abs_of_pos (by norm_num : (0 : ℚ) < 32768), div_le_iff₀ (by norm_num)]
  linarith

/-- The bytes of some samples, two for the `word` of each. -/
def words (samples : List Float32) : List UInt8 :=
  samples.flatMap fun x => bytes16 (word x).toUInt16

/-- `words` goes sample by sample. -/
theorem words_cons (x : Float32) (samples : List Float32) :
    words (x :: samples) = bytes16 (word x).toUInt16 ++ words samples :=
  List.flatMap_cons

/-- In `words` a sample takes two bytes. -/
theorem length_words (samples : List Float32) : (words samples).length = 2 * samples.length := by
  induction samples with
  | nil => rfl
  | cons x samples ih =>
    rw [words_cons, List.length_append, ih, length_bytes16, List.length_cons]
    omega

/-- `readSamples` reads one sample for each word and then stops. -/
theorem readSamples_words (rate : UInt32) (samples : List Float32) :
    readSamples (written rate) samples.length (words samples) = some (samples.map reread) := by
  induction samples with
  | nil => rfl
  -- one word is taken off and the rest is read by the induction hypothesis
  | cons x samples ih =>
    rw [List.length_cons, words_cons, readSamples]
    simp only [take?_append (n := (written rate).width) (length_bytes16 _), sample_word, ih,
      Option.bind_eq_bind, Option.bind_some, List.map_cons]
    rfl

/-! ## The header -/

/-- A `guard` that holds is no obstacle. -/
theorem guard_bind {α : Type} {p : Prop} [Decidable p] (hp : p) (f : Unit → Option α) :
    (guard p : Option Unit).bind f = f () := by
  rw [guard, if_pos hp]
  rfl

/-- `readFormat` gets the format back from the chunk that describes it, if twice the rate fits into
32 bits. -/
theorem readFormat_written {rate : UInt32} (hrate : 2 * rate.toNat < 2 ^ 32) (rest : List UInt8) :
    readFormat 16 (bytes16 1 ++ (bytes16 1 ++ (bytes32 rate ++ (bytes32 (rate * 2) ++
        (bytes16 2 ++ (bytes16 16 ++ rest)))))) =
      some (written rate, rest) := by
  -- the byte rate is the rate of words of two bytes
  have hdouble : (rate * 2).toNat = 2 * rate.toNat := by
    simp only [UInt32.toNat_mul, UInt32.reduceToNat]
    omega
  simp only [readFormat, number?_bytes16, number?_bytes32, Option.bind_eq_bind, Option.bind_some,
    UInt16.reduceToNat, hdouble, UInt32.ofNat_toNat]
  -- the checks: channels, bits, block size, byte rate
  rw [guard_bind le_rfl, guard_bind Nat.one_pos, guard_bind (by decide),
    guard_bind trivial, guard_bind (by decide)]
  rfl

/-- A `header` takes 44 bytes. -/
theorem length_header (size : ℕ) (rate : UInt32) : (header size rate).length = 44 :=
  rfl

/-- `readChunks` goes through the chunks behind the first twelve bytes: the format, and then the
data. -/
theorem readChunks_written {rate : UInt32} (hrate : 2 * rate.toNat < 2 ^ 32) {size : UInt32}
    (fuel : ℕ) (rest : List UInt8) :
    readChunks (fuel + 2) none (tag "fmt " ++ (bytes32 16 ++ (bytes16 1 ++ (bytes16 1 ++
        (bytes32 rate ++ (bytes32 (rate * 2) ++ (bytes16 2 ++ (bytes16 16 ++
        (tag "data" ++ (bytes32 size ++ rest)))))))))) =
      some (written rate, size.toNat, rest) := by
  have htag : tag "data" ≠ tag "fmt " ∧ tag "data" ≠ tag "fact" := by decide
  -- the first chunk is the format, the second one the data
  rw [readChunks, take?_append (by rfl)]
  simp only [number?_bytes32, Option.bind_eq_bind, Option.bind_some, UInt32.reduceToNat,
    readFormat_written hrate, if_true]
  rw [readChunks, take?_append (by rfl)]
  simp only [number?_bytes32, Option.bind_eq_bind, Option.bind_some, if_neg htag.1, if_neg htag.2,
    if_true]
  rfl

/-- `readHeader` gets the format and the number of samples back from a `header`. -/
theorem readHeader_header {rate : UInt32} (hrate : 2 * rate.toNat < 2 ^ 32) {n : ℕ}
    (hsize : 2 * n < 2 ^ 32) (data : List UInt8) :
    readHeader (header (2 * n) rate ++ data) = some (written rate, n, data) := by
  have hsize' : (2 * n).toUInt32.toNat = 2 * n := by
    rw [UInt32.toNat_ofNat']
    omega
  simp only [header, List.append_assoc]
  rw [readHeader, take?_append (by rfl)]
  simp only [Option.bind_eq_bind, Option.bind_some]
  rw [guard_bind trivial, take?_append (length_bytes32 _)]
  simp only [Option.bind_some]
  rw [take?_append (by rfl)]
  simp only [Option.bind_some]
  -- the chunks are no shorter than the tag of the first one
  rw [guard_bind trivial, List.length_append, Nat.add_right_comm,
    show (tag "fmt ").length + 1 = 3 + 2 from rfl, Nat.add_right_comm, readChunks_written hrate,
    hsize']
  simp only [Option.bind_some, written, Nat.mul_div_cancel_left n Nat.two_pos]
  rw [guard_bind ⟨Nat.mul_comm n 2, Nat.mod_one n⟩]
  rfl

/-! ## Clips -/

/-- The bytes of a `Clip`: the `header`, and then the `words`. -/
def file (clip : Clip) : List UInt8 :=
  header (2 * clip.samples.length) clip.rate ++ words clip.samples

/-- A `file` has two bytes for each sample behind its header. -/
theorem length_file (clip : Clip) : (file clip).length = 44 + 2 * clip.samples.length := by
  rw [file, List.length_append, length_header, length_words]

/-- `decode` gets a clip back from its `file`, with every sample at its level. -/
theorem decode_file {clip : Clip} (hsize : 36 + 2 * clip.samples.length < 2 ^ 32)
    (hrate : 2 * clip.rate.toNat < 2 ^ 32) :
    decode (file clip) = .ok ⟨clip.samples.map reread, clip.rate⟩ := by
  rw [decode, file, readHeader_header hrate (by omega)]
  dsimp only
  rw [readSamples_words]
  rfl

/-- `save` puts the bytes of a clip where a file can be written. -/
theorem save_eq {clip : Clip} {path : String} {disk disk' : Disk} {accepts : UInt32 → Bool}
    {bytes : List UInt8} (hencode : encode clip accepts = .ok bytes)
    (hwrite : disk.write path bytes = .ok disk') :
    save clip path disk accepts = (.ok (), disk') := by
  obtain ⟨place, hlocate, hplace, -⟩ := Disk.write_eq_ok_iff.mp hwrite
  have hcreate : disk.write path [] = .ok (disk.put place (.file [])) :=
    Disk.write_eq_ok_iff.mpr ⟨place, hlocate, hplace, rfl⟩
  simp only [save, hcreate, hencode, hwrite]

/-- `load` reads a clip from the bytes of a file. -/
theorem load_eq {path : String} {disk : Disk} {bytes : List UInt8} {clip : Clip}
    (hread : disk.read path = .ok bytes) (hdecode : decode bytes = .ok clip) :
    load path disk = .ok clip := by
  simp only [load, hread, Except.toOption, Option.map_some, hdecode]

/-- A clip written and read back by `encode` and `decode`: whatever rates there is a header for, the
rate and the number of samples stay, and every sample is read at its level. -/
theorem decode_encode (clip : Clip) (accepts : UInt32 → Bool)
    (haccepts : accepts clip.rate = true) (hsize : 36 + 2 * clip.samples.length < 2 ^ 32)
    (hrate : 2 * clip.rate.toNat < 2 ^ 32) :
    (∃ bytes, encode clip accepts = .ok bytes ∧ bytes.length = 44 + 2 * clip.samples.length ∧
      decode bytes = .ok ⟨clip.samples.map reread, clip.rate⟩ ∧
      ∀ (path : String) (disk disk' : Disk), disk.write path bytes = .ok disk' →
        save clip path disk accepts = (.ok (), disk') ∧
        (path.endsWith "/" = false →
          load path disk' = .ok ⟨clip.samples.map reread, clip.rate⟩)) ∧
    ∀ x ∈ clip.samples, (reread x).isFinite = true ∧ value (reread x) = level x / 32768 ∧
      (x.isNaN = false → |value (reread x) - value (clamp x)| ≤ 1 / 16384) := by
  -- the two halves are about the file as a whole, and about one sample
  have hencode : encode clip accepts = .ok (file clip) := if_pos haccepts
  have hdecode := decode_file hsize hrate
  refine ⟨⟨file clip, hencode, length_file clip, hdecode, ?files⟩, ?levels⟩
  case files =>
    intro path disk disk' hwrite
    refine ⟨save_eq hencode hwrite, fun hpath => ?_⟩
    exact load_eq (Disk.read_write hpath hwrite) hdecode
  case levels =>
    intro x _
    obtain ⟨hfinite, hvalue⟩ := value_reread x
    refine ⟨hfinite, hvalue, fun hx => ?_⟩
    rw [hvalue]
    exact abs_level_sub_le hx

/-- `encode` and `decode` of a clip with a sample beyond full scale, one within and a silent one. -/
theorem decode_encode_loud :
    writable 8000 = true ∧ ∃ bytes, encode ⟨[2, -0.5, 0], 8000⟩ = .ok bytes ∧ bytes.length = 50 ∧
      decode bytes = .ok ⟨[2, -0.5, 0].map reread, 8000⟩ := by
  obtain ⟨⟨bytes, hencode, hlength, hdecode, -⟩, -⟩ :=
    decode_encode ⟨[2, -0.5, 0], 8000⟩ writable (by decide) (by decide) (by decide)
  exact ⟨by decide, bytes, hencode, hlength, hdecode⟩

end Utterance.Audio.Wav
