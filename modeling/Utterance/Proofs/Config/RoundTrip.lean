import Utterance.Config.File
import Utterance.Proofs.Config.Field
import Utterance.Proofs.Disk
import Utterance.Proofs.Sampling.Settings
import Utterance.Proofs.Text.Utf8

/-!
# Configurations read back

A configuration that was saved is the one that is loaded, down to every setting.  What can keep it
from being saved is a number with more than 63 bits, and the disk.

## Key results

- `restores_sampling`, `restores_text`, `restores_model`, `restores_server`: the four sections
- `writable_iff_numbers`, `save_eq_ok_iff`: what can be written and what can be saved
- `ofToml_toToml`: a configuration is read back from its document
- `load_save`: a configuration is loaded from the file that it was saved to
-/

namespace Utterance.Config

variable {c : Config}

/-! ## Sections -/

/-- `Sampling.Settings` in range are restored: a positive penalty and `topP` are what `single`
keeps. -/
theorem restores_sampling {s : Sampling.Settings} (hvalid : s.Valid)
    (hfits : Fits samplingFields s) : Restores s samplingFields {} s := by
  obtain ⟨⟨htemperature, htemperature'⟩, ⟨htopP, htopP', -⟩, ⟨hpenalty, hpenalty'⟩, -⟩ :=
    s.valid_iff.mp hvalid
  have hpos : 0 < s.repetitionPenalty := by
    obtain ⟨-, hnan, hcount⟩ := Binary.le_iff.mp hpenalty'
    rw [Binary.count_one] at hcount
    exact Binary.pos_iff.mpr ⟨hnan, lt_of_lt_of_le (by positivity) hcount⟩
  -- one step for each field, in the order of `samplingFields`
  refine .of hfits (.single htemperature htemperature') (fun _ => rfl) nofun fun hfits => ?_
  refine .of hfits (.size _) (fun _ => rfl) nofun fun hfits => ?_
  refine .of hfits (.single htopP htopP') (fun _ => rfl) nofun fun hfits => ?_
  refine .of hfits (.single hpenalty hpos) (fun _ => rfl) nofun fun hfits => ?_
  refine .of hfits (.size _) (fun _ => rfl) nofun fun hfits => ?_
  refine .of hfits (.word32 _) (fun _ => rfl) nofun fun hfits => ?_
  refine .of hfits (.word32 _) (fun _ => rfl) nofun fun hfits => ?_
  refine .of hfits (.optional fun _ _ => .word64 _) (fun _ => rfl)
    (Kind.none_eq_of_write fun _ => Option.some_ne_none _) fun hfits => ?_
  exact .nil s

/-- `Text.Settings` are restored. -/
theorem restores_text {s : Text.Settings} (hfits : Fits textFields s) :
    Restores s textFields {} s := by
  refine .of hfits (.flag _) (fun _ => rfl) nofun fun hfits => ?_
  refine .of hfits (.flag _) (fun _ => rfl) nofun fun hfits => ?_
  refine .of hfits (.word32 _) (fun _ => rfl) nofun fun hfits => ?_
  refine .of hfits (.text _) (fun _ => rfl) nofun fun hfits => ?_
  exact .nil s

/-- `Engine.Settings` are restored, left-out paths included. -/
theorem restores_model {s : Engine.Settings} (hfits : Fits modelFields s) :
    Restores s modelFields {} s := by
  -- field by field, in the order in which they are declared
  refine .of hfits (.text _) (fun _ => rfl) nofun fun hfits => ?_
  refine .of hfits (.text _) (fun _ => rfl) nofun fun hfits => ?_
  refine .of hfits (.optional fun _ _ => .text _) (fun _ => rfl)
    (Kind.none_eq_of_write fun _ => Option.some_ne_none _) fun hfits => ?_
  refine .of hfits (.optional fun _ _ => .text _) (fun _ => rfl)
    (Kind.none_eq_of_write fun _ => Option.some_ne_none _) fun hfits => ?_
  refine .of hfits (.size _) (fun _ => rfl) nofun fun hfits => ?_
  refine .of hfits (.size _) (fun _ => rfl) nofun fun hfits => ?_
  refine .of hfits (.size _) (fun _ => rfl) nofun fun hfits => ?_
  refine .of hfits (.size _) (fun _ => rfl) nofun fun hfits => ?_
  refine .of hfits (.word32 _) (fun _ => rfl) nofun fun hfits => ?_
  refine .of hfits (.word32 _) (fun _ => rfl) nofun fun hfits => ?_
  exact .nil s

/-- `Http.Settings` are restored. -/
theorem restores_server {s : Http.Settings} (hfits : Fits serverFields s) :
    Restores s serverFields {} s := by
  refine .of hfits (.text _) (fun _ => rfl) nofun fun hfits => ?_
  refine .of hfits (.word16 _) (fun _ => rfl) nofun fun hfits => ?_
  exact .nil s

/-! ## Documents -/

/-- Every `Scalar` of the configuration can be written. -/
@[mk_iff] structure Writable (c : Config) : Prop where
  sampling : Fits samplingFields c.sampling
  text : Fits textFields c.text
  model : Fits modelFields c.model
  server : Fits serverFields c.server

/-- `toToml` writes a document exactly if every scalar of the configuration can be written. -/
theorem toToml_isSome_iff : c.toToml.isSome ↔ c.Writable := by
  rw [toToml, Toml.write_isSome_iff, writable_iff]
  simp only [sections, fits_iff, List.forall_mem_cons, List.not_mem_nil, false_implies,
    implies_true, and_true]

/-- The whole numbers of a `Config`, in the order of its fields. -/
def numbers (c : Config) : List ℕ :=
  [c.sampling.topK, c.sampling.maxSteps, c.sampling.startToken.toNat,
    c.sampling.stopToken.toNat] ++ c.sampling.seed.toList.map (·.toNat) ++
  [c.text.chunkSilence.toNat, c.model.threads, c.model.layers, c.model.heads, c.model.headSize,
    c.model.vocabulary.toNat, c.model.rate.toNat, c.server.port.toNat]

/-- Nothing but a number of more than 63 bits keeps a configuration from being `Writable`. -/
theorem writable_iff_numbers : c.Writable ↔ ∀ n ∈ c.numbers, n < 2 ^ 63 := by
  simp only [writable_iff, samplingFields, textFields, modelFields, serverFields, fits_cons,
    fits_nil, Kind.fits_single, Kind.fits_size, Kind.fits_word16, Kind.fits_word32,
    Kind.fits_word64, Kind.fits_text, Kind.fits_flag, Kind.fits_optional, numbers,
    List.forall_mem_append, List.forall_mem_cons, List.forall_mem_map, Option.mem_toList,
    Option.mem_def, List.not_mem_nil, false_implies, implies_true, true_and, and_true, and_assoc]

/-- The `sections` of a configuration in range can be written and read back. -/
theorem orderly_sections (hvalid : c.sampling.Valid) (h : c.Writable) :
    Toml.Orderly c.sections where
  nodup_names := (by decide : ["sampling", "text", "model", "server"].Nodup)
  orderly := by
    obtain ⟨hsampling, htext, hmodel, hserver⟩ := h
    simp only [sections, List.forall_mem_cons, List.not_mem_nil, false_implies, implies_true,
      and_true]
    refine ⟨(restores_sampling hvalid hsampling).orderly ?_ ?_ ?_,
      (restores_text htext).orderly ?_ ?_ ?_, (restores_model hmodel).orderly ?_ ?_ ?_,
      (restores_server hserver).orderly ?_ ?_ ?_⟩ <;> decide +kernel

/-- The table that the document of a `Config` holds, section by section. -/
def tables (c : Config) : List (String × Toml.Value) :=
  c.sections.map fun sect => (sect.1, .table (sect.2.map fun (key, s) => (key, .scalar s)))

/-- A configuration in range is what `ofTable` reads from its table. -/
theorem ofTable_tables (hvalid : c.sampling.Valid) (h : c.Writable) :
    ofTable c.tables = some c := by
  obtain ⟨hsampling, htext, hmodel, hserver⟩ := h
  -- every section is found under its name, and restores its part of the settings
  have hsampling := (restores_sampling hvalid hsampling).readSection_eq (by decide +kernel)
    (show c.tables.lookup "sampling" = _ from rfl)
  have htext := (restores_text htext).readSection_eq (by decide +kernel)
    (show c.tables.lookup "text" = _ from rfl)
  have hmodel := (restores_model hmodel).readSection_eq (by decide +kernel)
    (show c.tables.lookup "model" = _ from rfl)
  have hserver := (restores_server hserver).readSection_eq (by decide +kernel)
    (show c.tables.lookup "server" = _ from rfl)
  rw [ofTable, hsampling, htext, hmodel, hserver]
  rfl

/-- A configuration in range is read back from its document: `ofToml` undoes `toToml`. -/
theorem ofToml_toToml {document : String} (hvalid : c.sampling.Valid)
    (h : c.toToml = some document) : ofToml document = some c := by
  have hwritable := toToml_isSome_iff.mp (Option.isSome_of_eq_some h)
  have hread : Toml.read document = some c.tables :=
    Toml.read_write (orderly_sections hvalid hwritable) h
  rw [ofToml, hread, Option.bind_eq_bind, Option.bind_some, ofTable_tables hvalid hwritable]

/-! ## Files -/

/-- `load` gives only configurations in range. -/
theorem valid_of_load {path : String} {disk : Disk} (h : load path disk = .ok c) :
    c.sampling.Valid := by
  rw [load] at h
  -- three things may go wrong: the file, its syntax, and the check
  split at h
  · cases h
  · split at h
    · cases h
    · split at h
      · cases h
      · next hcheck =>
        rw [← Except.ok.inj h]
        exact hcheck

/-- When `save` succeeds it has made the directory and written the document. -/
theorem exists_of_save {path : String} {disk : Disk} (h : (save c path disk).1 = .ok ()) :
    ∃ parent document, disk.makeParent path = .ok parent ∧ c.toToml = some document ∧
      parent.write path (Text.encodeUtf8 document) = .ok (save c path disk).2 := by
  rw [save] at h ⊢
  -- each step of `save` that fails is the whole answer
  cases hparent : disk.makeParent path with
  | error fault =>
    rw [hparent] at h
    cases h
  | ok parent =>
    rw [hparent] at h
    dsimp only at h ⊢
    cases hdocument : c.toToml with
    | none =>
      rw [hdocument] at h
      cases h
    | some document =>
      rw [hdocument] at h
      dsimp only at h ⊢
      cases hwrite : parent.write path (Text.encodeUtf8 document) with
      | error fault =>
        rw [hwrite] at h
        cases h
      | ok written => exact ⟨parent, document, rfl, rfl, hwrite⟩

/-- `save` succeeds exactly if no number has more than 63 bits and the disk takes the file. -/
theorem save_eq_ok_iff {path : String} {disk : Disk} :
    (save c path disk).1 = .ok () ↔ (∀ n ∈ c.numbers, n < 2 ^ 63) ∧ disk.Takes path := by
  rw [← writable_iff_numbers, ← toToml_isSome_iff, Option.isSome_iff_exists]
  constructor
  · intro h
    obtain ⟨parent, document, hparent, hdocument, hwrite⟩ := exists_of_save h
    exact ⟨⟨document, hdocument⟩, (Disk.takes_iff _).mpr ⟨parent, _, hparent, hwrite⟩⟩
  · rintro ⟨⟨document, hdocument⟩, htakes⟩
    obtain ⟨parent, written, hparent, hwrite⟩ :=
      (Disk.takes_iff (Text.encodeUtf8 document)).mp htakes
    rw [save, hparent]
    simp only [hdocument, hwrite]

/-- A configuration in range is loaded from the file that `save` wrote.  If there were no directory
above the working directory, a file could be put there as `../`, from which nothing is read. -/
theorem load_of_save {path : String} {disk : Disk} (hdisk : disk.Rooted)
    (hvalid : c.sampling.Valid) (h : (save c path disk).1 = .ok ()) :
    load path (save c path disk).2 = .ok c := by
  obtain ⟨parent, document, hparent, hdocument, hwrite⟩ := exists_of_save h
  have hfile := Disk.endsWith_of_write (Disk.rooted_makeParent hdisk hparent) hwrite
  rw [load, Disk.readText, Disk.read_write hfile hwrite]
  simp only [bind, Except.bind, Text.decodeUtf8_encodeUtf8, ofToml_toToml hvalid hdocument]
  rw [show c.sampling.check = .ok () from hvalid]

/-- `save` succeeds exactly if the configuration has no number of more than 63 bits and the disk
takes the file.  One in range is then loaded from the file as it was, wherever the working directory
is one. Only configurations in range are ever loaded. -/
theorem load_save (c : Config) (path : String) (disk : Disk) :
    ((save c path disk).1 = .ok () ↔ (∀ n ∈ c.numbers, n < 2 ^ 63) ∧ disk.Takes path) ∧
    (disk.Rooted → c.sampling.Valid → (save c path disk).1 = .ok () →
      load path (save c path disk).2 = .ok c) ∧
    (load path disk = .ok c → c.sampling.Valid) :=
  ⟨save_eq_ok_iff, load_of_save, valid_of_load⟩

/-- `save` and `load` of settings with a seed and a text that has to be quoted, in a directory that
is yet to be made. -/
theorem load_save_greeting :
    let c : Config := { sampling := { seed := some 7 }, text := { greeting := "Say \"hi\"\n" } }
    let disk : Disk := ⟨[], []⟩
    let saved := save c "a/b" disk
    disk.Rooted ∧ c.sampling.Valid ∧ saved.1 = .ok () ∧ load "a/b" saved.2 = .ok c := by
  intro c disk saved
  have hrooted : disk.Rooted := Disk.reachable_root _
  have hnumbers : ∀ n ∈ c.numbers, n < 2 ^ 63 := by decide
  -- the directory `a` is missing and will be made
  have htakes : disk.Takes "a/b" :=
    ⟨⟨[(["a"], .directory)], []⟩, ["a", "b"], by cbv, by cbv, by decide⟩
  obtain ⟨hsaved, hload, -⟩ := load_save c "a/b" disk
  have hsave := hsaved.mpr ⟨hnumbers, htakes⟩
  have hvalid : c.sampling.Valid := by decide +kernel
  have hloaded := hload hrooted hvalid hsave
  exact ⟨hrooted, (load_save c "a/b" saved.2).2.2 hloaded, hsave, hloaded⟩

end Utterance.Config
