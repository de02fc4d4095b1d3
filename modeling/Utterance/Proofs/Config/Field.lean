import Utterance.Config.Field
import Utterance.Proofs.Toml.Document

/-!
# Fields read back

A field whose scalar was written gives the setting back, and a field that was left out leaves the
default.  So reading the fields of a section one after the other restores the settings that were
written.

## Key results

- `Kind.Keeps` and its instances for the kinds of values
- `Restores.of`: what reading one field does
- `Restores.readSection_eq`: what reading a section does
-/

namespace Utterance.Config

open Toml (Scalar Value keys)

/-! ## Kinds -/

namespace Kind

variable {α β : Type}

/-- The value `a` is read back from its scalar, if it has one and that can be written. -/
def Keeps (kind : Kind α) (a : α) : Prop :=
  ∀ scalar, kind.write a = some scalar → scalar.fits = true →
    scalar.Readable ∧ kind.read (.scalar scalar) = some a

/-- A `flag` is read back. -/
theorem Keeps.flag (b : Bool) : flag.Keeps b := by
  rintro _ ⟨⟩ -
  exact ⟨trivial, rfl⟩

/-- A `text` is read back. -/
theorem Keeps.text (s : String) : text.Keeps s := by
  rintro _ ⟨⟩ -
  exact ⟨trivial, rfl⟩

/-- A `natural` below its limit is read back. -/
theorem Keeps.natural {limit n : ℕ} (h : (Scalar.whole n).fits = true → n < limit) :
    (natural limit).Keeps n := by
  rintro _ ⟨⟩ hfits
  refine ⟨hfits, ?_⟩
  have hlt := h hfits
  exact if_pos ⟨by omega, by exact_mod_cast hlt⟩

/-- A number can be written if it has no more than 63 bits: `fits` says so. -/
theorem fits_whole_iff (n : ℕ) : (Scalar.whole n).fits = true ↔ n < 2 ^ 63 := by
  have hmin : Int64.minValue.toInt = -2 ^ 63 := by decide
  have hmax : Int64.maxValue.toInt = 2 ^ 63 - 1 := by decide
  simp only [Scalar.fits, Bool.and_eq_true, decide_eq_true_eq, hmin, hmax]
  omega

/-- A `size` is read back, since what can be written is within its limit. -/
theorem Keeps.size (n : ℕ) : size.Keeps n :=
  Keeps.natural fun h => ((fits_whole_iff n).mp h).trans (by decide)

/-- What goes `through` a kind is read back if that kind keeps it and the way back undoes the way
out. -/
theorem Keeps.through {kind : Kind α} {out : β → α} {into : α → β} {b : β}
    (h : kind.Keeps (out b)) (hinto : into (out b) = b) : (kind.through out into).Keeps b := by
  intro scalar hwrite hfits
  obtain ⟨hreadable, hread⟩ := h scalar hwrite hfits
  refine ⟨hreadable, ?_⟩
  show (kind.read (.scalar scalar)).map into = some b
  rw [hread, Option.map_some, hinto]

/-- A `word16` is read back. -/
theorem Keeps.word16 (n : UInt16) : word16.Keeps n :=
  (Keeps.natural fun _ => n.toNat_lt).through UInt16.ofNat_toNat

/-- A `word32` is read back. -/
theorem Keeps.word32 (n : UInt32) : word32.Keeps n :=
  (Keeps.natural fun _ => n.toNat_lt).through UInt32.ofNat_toNat

/-- A `word64` is read back. -/
theorem Keeps.word64 (n : UInt64) : word64.Keeps n :=
  (Keeps.natural fun _ => n.toNat_lt).through UInt64.ofNat_toNat

/-- A positive `single` is read back: it is written as the binary64 value of the same number. -/
theorem Keeps.single {x : Float32} (hfinite : x.isFinite = true) (hpos : 0 < x) :
    single.Keeps x := by
  rintro _ ⟨⟩ -
  obtain ⟨hnan, hcount⟩ := Binary.pos_iff.mp hpos
  have hstands := Binary.stands_widen hfinite
  have hvalue : 0 < Binary.value x := div_pos (Int.cast_pos.mpr hcount) (by positivity)
  have hbound : Binary.value x ≤ 2 ^ 255 :=
    (le_abs_self _).trans ((Binary.abs_value_le_two_pow x).trans
      (pow_le_pow_right₀ (by norm_num) (by decide)))
  exact ⟨⟨_, hstands, hvalue, hbound⟩,
    congrArg some (Binary.narrow_eq_of_stands hnan hcount.ne' hstands)⟩

/-- An `optional` value is read back if it is none or its kind keeps it. -/
theorem Keeps.optional {kind : Kind α} {a : Option α} (h : ∀ b ∈ a, kind.Keeps b) :
    kind.optional.Keeps a := by
  cases a with
  | none => nofun
  | some a =>
    intro scalar hwrite hfits
    obtain ⟨hreadable, hread⟩ := h a rfl scalar hwrite hfits
    refine ⟨hreadable, ?_⟩
    show (kind.read (.scalar scalar)).map some = some (some a)
    rw [hread, Option.map_some]

/-- The scalar for the value `a` can be written, if there is one. -/
def Fits (kind : Kind α) (a : α) : Prop :=
  ∀ scalar ∈ kind.write a, scalar.fits = true

/-- A `flag` can always be written. -/
@[simp] theorem fits_flag (b : Bool) : flag.Fits b :=
  fun _ hmem => Option.some.inj hmem ▸ rfl

/-- A `text` can always be written. -/
@[simp] theorem fits_text (s : String) : text.Fits s :=
  fun _ hmem => Option.some.inj hmem ▸ rfl

/-- A `single` can always be written. -/
@[simp] theorem fits_single (x : Float32) : single.Fits x :=
  fun _ hmem => Option.some.inj hmem ▸ rfl

/-- A `natural` can be written if it has no more than 63 bits. -/
theorem fits_natural (limit n : ℕ) : (natural limit).Fits n ↔ n < 2 ^ 63 :=
  ⟨fun h => (fits_whole_iff n).mp (h _ rfl),
    fun h _ hmem => Option.some.inj hmem ▸ (fits_whole_iff n).mpr h⟩

/-- A `size` can be written if it has no more than 63 bits. -/
@[simp] theorem fits_size {n : ℕ} : size.Fits n ↔ n < 2 ^ 63 :=
  fits_natural UInt64.size n

/-- A `word16` can be written if it has no more than 63 bits. -/
@[simp] theorem fits_word16 {n : UInt16} : word16.Fits n ↔ n.toNat < 2 ^ 63 :=
  fits_natural UInt16.size n.toNat

/-- A `word32` can be written if it has no more than 63 bits. -/
@[simp] theorem fits_word32 {n : UInt32} : word32.Fits n ↔ n.toNat < 2 ^ 63 :=
  fits_natural UInt32.size n.toNat

/-- A `word64` can be written if it has no more than 63 bits. -/
@[simp] theorem fits_word64 {n : UInt64} : word64.Fits n ↔ n.toNat < 2 ^ 63 :=
  fits_natural UInt64.size n.toNat

/-- An `optional` value can be written if it is none or its kind can write it. -/
@[simp] theorem fits_optional {kind : Kind α} {a : Option α} :
    kind.optional.Fits a ↔ ∀ b ∈ a, kind.Fits b := by
  cases a with
  | none => exact ⟨fun _ => nofun, fun _ => nofun⟩
  | some a =>
    exact ⟨fun h b hb => Option.some.inj hb ▸ h, fun h => h a rfl⟩

/-- Only `none` is left out, if the kind has a scalar for every value. -/
theorem none_eq_of_write {kind : Kind α} {a : Option α} (hwrite : ∀ b, kind.write b ≠ none)
    (h : kind.optional.write a = none) : none = a := by
  cases a with
  | none => rfl
  | some a => exact absurd h (hwrite a)

end Kind

/-! ## Fields -/

section Fields

variable {S α : Type} {fields : List (Field S)} {s t t' : S}

/-- The scalars of the settings `s` can be written. -/
def Fits (fields : List (Field S)) (s : S) : Prop :=
  ∀ field ∈ fields, ∀ scalar ∈ field.write s, scalar.fits = true

/-- Nothing has to be written for no fields. -/
@[simp] theorem fits_nil : Fits [] s :=
  nofun

/-- The settings can be written if the first field and the rest can. -/
@[simp] theorem fits_cons {name : String} {kind : Kind α} {part : S → α} {set : S → α → S} :
    Fits (Field.of name kind part set :: fields) s ↔ kind.Fits (part s) ∧ Fits fields s :=
  List.forall_mem_cons

/-- `Fits` in terms of what `writeFields` writes. -/
theorem fits_iff : Fits fields s ↔ ∀ entry ∈ writeFields fields s, entry.2.fits = true := by
  simp only [Fits, writeFields, List.mem_filterMap, Option.map_eq_some_iff, Option.mem_def]
  constructor
  · rintro h _ ⟨field, hfield, scalar, hwrite, rfl⟩
    exact h field hfield scalar hwrite
  · exact fun h field hfield scalar hwrite =>
      h (field.name, scalar) ⟨field, hfield, scalar, hwrite, rfl⟩

/-- Reading the fields that were written for `s` takes the settings from the first to the last of
the ones given.  A field that was not written is skipped, and any other one is taken over. -/
inductive Restores (s : S) : List (Field S) → S → S → Prop
  | nil (t : S) : Restores s [] t t
  | skip {field : Field S} {fields : List (Field S)} {t t' : S} (hwrite : field.write s = none)
      (hrest : Restores s fields t t') : Restores s (field :: fields) t t'
  | take {field : Field S} {fields : List (Field S)} {t u t' : S} {scalar : Scalar}
      (hwrite : field.write s = some scalar) (hreadable : scalar.Readable)
      (hread : field.read (.scalar scalar) t = some u) (hrest : Restores s fields u t') :
      Restores s (field :: fields) t t'

/-- A field whose kind keeps the part is restored, if it is left out only for the part there is: the
next step of a `Restores` derivation. -/
theorem Restores.of {name : String} {kind : Kind α} {part : S → α} {set : S → α → S}
    (hfits : Fits (Field.of name kind part set :: fields) s) (hkeeps : kind.Keeps (part s))
    (hset : ∀ t, set t (part t) = t) (hnone : kind.write (part s) = none → part t = part s)
    (hrest : Fits fields s → Restores s fields (set t (part s)) t') :
    Restores s (Field.of name kind part set :: fields) t t' := by
  obtain ⟨hfield, hfields⟩ := fits_cons.mp hfits
  replace hrest := hrest hfields
  -- a value that is not written must be the one that the target has already
  cases hwrite : kind.write (part s) with
  | none =>
    rw [← hnone hwrite, hset] at hrest
    exact .skip hwrite hrest
  | some scalar =>
    obtain ⟨hreadable, hread⟩ := hkeeps scalar hwrite (hfield scalar hwrite)
    refine .take hwrite hreadable ?_ hrest
    show (kind.read (.scalar scalar)).map (set t) = some (set t (part s))
    rw [hread, Option.map_some]

/-- `readFields` restores what was written, by induction on how the fields are restored. -/
theorem Restores.readFields_eq {find : ℕ → String → Option Value} (h : Restores s fields t t')
    (hfind : ∀ n, ∀ field ∈ fields, find n field.name = (field.write s).map .scalar)
    (position : ℕ) : readFields find position fields t = some t' := by
  induction h generalizing position with
  | nil t => rfl
  | skip hwrite hrest ih =>
    rw [readFields, hfind position _ List.mem_cons_self, hwrite]
    exact ih (fun n field hfield => hfind n field (List.mem_cons_of_mem _ hfield)) _
  | take hwrite hreadable hread hrest ih =>
    rw [readFields, hfind position _ List.mem_cons_self, hwrite]
    simp only [Option.map_some, hread, bind, Option.bind_some]
    exact ih (fun n field hfield => hfind n field (List.mem_cons_of_mem _ hfield)) _

/-- What `writeFields` writes can be read. -/
theorem Restores.readable (h : Restores s fields t t') :
    ∀ entry ∈ writeFields fields s, entry.2.Readable := by
  induction h with
  | nil t => nofun
  | skip hwrite hrest ih =>
    rw [writeFields, List.filterMap_cons, hwrite]
    exact ih
  | take hwrite hreadable hread hrest ih =>
    rw [writeFields, List.filterMap_cons, hwrite]
    exact List.forall_mem_cons.mpr ⟨hreadable, ih⟩

/-! ## Sections -/

/-- The names of the fields. -/
def names (fields : List (Field S)) : List String :=
  fields.map (·.name)

/-- What `writeFields` writes has the names of the fields, in their order. -/
theorem keys_writeFields_sublist (fields : List (Field S)) (s : S) :
    (keys (writeFields fields s)).Sublist (names fields) := by
  induction fields with
  | nil => exact .slnil
  | cons field fields ih =>
    rw [writeFields, List.filterMap_cons]
    cases field.write s with
    | none => exact ih.cons _
    | some scalar => exact ih.cons_cons _

/-- Restored fields make an `OrderlySection`, if their names can be its keys. -/
theorem Restores.orderly {name : String} (h : Restores s fields t t') (hname : Toml.Bare name)
    (hnames : (names fields).Nodup) (hbare : ∀ name ∈ names fields, Toml.Bare name) :
    Toml.OrderlySection (name, writeFields fields s) where
  bare_name := hname
  bare_key _ hentry := hbare _ ((keys_writeFields_sublist fields s).subset
    (List.mem_map_of_mem hentry))
  nodup_keys := (keys_writeFields_sublist fields s).nodup hnames
  readable := h.readable

/-- The entry that `writeFields` writes for a field is found under its name, since no other field
has it. -/
theorem lookup_writeFields {field : Field S} (hnames : (names fields).Nodup)
    (hfield : field ∈ fields) : (writeFields fields s).lookup field.name = field.write s := by
  -- the first field has the name, or it is another's and does not matter
  induction fields with
  | nil => cases hfield
  | cons first fields ih =>
    obtain ⟨hfirst, hnames⟩ := List.nodup_cons.mp hnames
    rw [writeFields, List.filterMap_cons]
    obtain rfl | hmem := List.mem_cons.mp hfield
    · cases hwrite : field.write s with
      | none =>
        exact Toml.lookup_eq_none fun h => hfirst ((keys_writeFields_sublist fields s).subset h)
      | some scalar => exact List.lookup_cons_self
    · have hne : field.name ≠ first.name := fun h =>
        hfirst (List.mem_map.mpr ⟨field, hmem, h⟩)
      cases first.write s with
      | none => exact ih hnames hmem
      | some scalar =>
        rw [Option.map_some, List.lookup_cons, beq_false_of_ne hne]
        exact ih hnames hmem

/-- Looking up a scalar among values is looking it up among scalars. -/
theorem lookup_map_scalar (entries : List (String × Scalar)) (name : String) :
    (entries.map fun (key, scalar) => (key, Value.scalar scalar)).lookup name =
      (entries.lookup name).map .scalar := by
  induction entries with
  | nil => rfl
  | cons entry entries ih =>
    rw [List.map_cons, List.lookup_cons, List.lookup_cons]
    split
    · rfl
    · exact ih

/-- `readSection` restores the settings that were written in the section. -/
theorem Restores.readSection_eq {entries : List (String × Value)} {name : String}
    (h : Restores s fields t t') (hnames : (names fields).Nodup)
    (hsection : entries.lookup name = some (.table ((writeFields fields s).map
      fun (key, scalar) => (key, .scalar scalar)))) :
    readSection entries name fields t = some t' := by
  rw [readSection, hsection]
  simp only [fieldsIn, bind, Option.bind_some]
  refine h.readFields_eq (fun n field hfield => ?_) 0
  rw [lookup_map_scalar, lookup_writeFields hnames hfield]

end Fields

end Utterance.Config
