import Mathlib.Tactic.ByContra
import Utterance.Disk

/-!
# Files written and read back

Putting a file at a place leaves the way to it as it was.

## Key results

- `walk_put`: the way to a file after it was put
- `read_write`: the content of a file after it was written
- `exists_write_write`: a file that was written can be written again
- `endsWith_of_write`: the path of a file that was written does not end as that of a directory
- `rooted_makeParent`: the working directory stays where it is
-/

namespace Utterance.Disk

variable {d : Disk} {place target : Location} {node : Node}

/-- Removing a place from the list of nodes does not change what `lookup` finds at another one. -/
theorem lookup_filter_ne {p : Location} (hp : p ≠ place) (nodes : List (Location × Node)) :
    (nodes.filter (·.1 ≠ place)).lookup p = nodes.lookup p := by
  induction nodes with
  | nil => rfl
  | cons entry nodes ih =>
    obtain ⟨q, node⟩ := entry
    by_cases hq : q = place
    · subst hq
      rw [List.filter_cons_of_neg (by simp), ih, List.lookup_cons, beq_false_of_ne hp]
    · rw [List.filter_cons_of_pos (by simpa using hq), List.lookup_cons, List.lookup_cons, ih]

/-- What was `put` is found at its place. -/
theorem node?_put_self (hplace : place ≠ []) : (d.put place node).node? place = some node := by
  rw [node?, if_neg (by simpa using hplace), put, List.lookup_cons_self]

/-- `put` leaves every other place as it was. -/
theorem node?_put_of_ne {p : Location} (hp : p ≠ place) :
    (d.put place node).node? p = d.node? p := by
  rw [node?, node?, put, List.lookup_cons, beq_false_of_ne hp]
  dsimp only
  rw [lookup_filter_ne hp]

/-- A way through directories does not pass a place that is none: `put` keeps what `walk`
answers. -/
theorem walk_put {names : List String} (h : d.walk place names = .ok target)
    (htarget : d.node? target ≠ some .directory) :
    (d.put target node).walk place names = .ok target := by
  -- by induction on the names, since each step of the way starts at another place
  induction names generalizing place with
  | nil => exact h
  | cons name rest ih =>
    rw [walk] at h
    split at h
    · cases h
    · cases h
    · next hdirectory =>
      have hne : place ≠ target := by
        rintro rfl
        exact htarget hdirectory
      split at h
      · cases h
      · next hname =>
        rw [walk, node?_put_of_ne hne, hdirectory]
        dsimp only
        rw [if_neg hname]
        exact ih h

/-- When `write` succeeds, and what the disk is then. -/
theorem write_eq_ok_iff {path : String} {bytes : List UInt8} {d' : Disk} :
    d.write path bytes = .ok d' ↔ ∃ place, d.locateNew path = .ok place ∧
      d.node? place ≠ some .directory ∧ d.put place (.file bytes) = d' := by
  simp only [write, bind, Except.bind]
  cases d.locateNew path with
  | error fault => simp
  | ok place =>
    dsimp only
    split <;> simp_all

/-- `takeApart` reads off the end of a path whether it is that of a directory. -/
theorem closed_of_takeApart {path : String} {parts : Path} (h : d.takeApart path = .ok parts) :
    parts.closed = path.endsWith "/" := by
  rw [takeApart] at h
  split at h
  · cases h
  · split at h
    · cases h
    · split at h
      · cases h
      · rw [← Except.ok.inj h]

/-- There is room for a file at the path, once `makeParent` has made the directory for it. -/
def Takes (d : Disk) (path : String) : Prop :=
  ∃ parent place, d.makeParent path = .ok parent ∧ parent.locateNew path = .ok place ∧
    parent.node? place ≠ some .directory

/-- `Takes` in terms of `makeParent` and `write`: what the file holds does not matter. -/
theorem takes_iff {path : String} (bytes : List UInt8) : d.Takes path ↔
    ∃ parent d', d.makeParent path = .ok parent ∧ parent.write path bytes = .ok d' := by
  simp only [write_eq_ok_iff]
  constructor
  · rintro ⟨parent, place, hparent, hlocate, hplace⟩
    exact ⟨parent, _, hparent, place, hlocate, hplace, rfl⟩
  · rintro ⟨parent, _, hparent, place, hlocate, hplace, -⟩
    exact ⟨parent, place, hparent, hlocate, hplace⟩

/-- Where a path does not end as that of a directory, `locateNew` goes the way of `locate`. -/
theorem locateNew_eq_locate {path : String} (hpath : path.endsWith "/" = false) :
    d.locateNew path = d.locate path := by
  rw [locateNew, locate]
  cases hparts : d.takeApart path with
  | error fault => rfl
  | ok parts =>
    have hopen : parts.closed = false := (closed_of_takeApart hparts).trans hpath
    simp only [hopen, bind, Except.bind, Bool.false_and, Bool.false_eq_true, if_false]

/-- `locate` still finds a place that is no directory after `put` at it. -/
theorem locate_put {path : String} (h : d.locate path = .ok place)
    (hplace : d.node? place ≠ some .directory) : (d.put place node).locate path = .ok place := by
  -- the path is taken apart without a look at the files
  have hsame : (d.put place node).takeApart path = d.takeApart path := rfl
  rw [locate] at h ⊢
  rw [hsame]
  cases hparts : d.takeApart path with
  | error fault =>
    rw [hparts] at h
    cases h
  | ok parts =>
    rw [hparts] at h
    exact walk_put h hplace

section Written

variable {path : String} {bytes : List UInt8} {d' : Disk} (hpath : path.endsWith "/" = false)
  (h : d.write path bytes = .ok d')

include hpath h

/-- A file that `write` wrote is found where it was put. -/
theorem exists_place_of_write :
    ∃ place, d'.locate path = .ok place ∧ d'.node? place = some (.file bytes) := by
  obtain ⟨place, hlocate, hplace, rfl⟩ := write_eq_ok_iff.mp h
  have hne : place ≠ [] := by
    rintro rfl
    exact hplace rfl
  rw [locateNew_eq_locate hpath] at hlocate
  exact ⟨place, locate_put hlocate hplace, node?_put_self hne⟩

/-- What `write` puts in a file is what `read` reads from it. -/
theorem read_write : d'.read path = .ok bytes := by
  obtain ⟨place, hlocate, hnode⟩ := exists_place_of_write hpath h
  rw [read, hlocate]
  simp only [bind, Except.bind, hnode]

/-- A file that `write` wrote can be written again. -/
theorem exists_write_write (bytes' : List UInt8) : ∃ d'', d'.write path bytes' = .ok d'' := by
  obtain ⟨place, hlocate, hnode⟩ := exists_place_of_write hpath h
  refine ⟨_, write_eq_ok_iff.mpr ⟨place, (locateNew_eq_locate hpath).trans hlocate, ?_, rfl⟩⟩
  rw [hnode]
  nofun

end Written

/-! ## Paths of directories -/

/-- The place is a `.directory`, and so is every one above it. -/
def Reachable (d : Disk) (place : Location) : Prop :=
  ∀ above, above <+: place → d.node? above = some .directory

/-- The working directory is `Reachable`: it is a directory, as are those above it. -/
def Rooted (d : Disk) : Prop :=
  d.Reachable d.working

/-- The root is always a directory, and so `Reachable`. -/
theorem reachable_root (d : Disk) : d.Reachable [] := by
  intro above h
  rw [List.prefix_nil.mp h]
  rfl

/-- A `Reachable` place is a directory. -/
theorem Reachable.node? (h : d.Reachable place) : d.node? place = some .directory :=
  h place List.prefix_rfl

/-- The place above a `Reachable` one is `Reachable`. -/
theorem Reachable.dropLast (h : d.Reachable place) : d.Reachable place.dropLast :=
  fun above habove => h above (habove.trans (List.dropLast_prefix place))

/-- A directory below a `Reachable` place is `Reachable`. -/
theorem reachable_of_dropLast (h : d.Reachable place.dropLast)
    (hplace : d.node? place = some .directory) : d.Reachable place := by
  intro above habove
  obtain rfl | ⟨init, name, rfl⟩ := List.eq_nil_or_concat place
  · rwa [List.prefix_nil.mp habove]
  · rw [List.concat_eq_append] at *
    rw [List.dropLast_concat] at h
    obtain rfl | hinit := List.prefix_concat_iff.mp habove
    · exact hplace
    · exact h above hinit

/-- A `walk` through directories that ends with a point leads to a directory. -/
theorem reachable_of_walk {names : List String} (h : d.walk place names = .ok target)
    (habove : d.Reachable place.dropLast) (hplace : names = [] → d.Reachable place)
    (hlast : ∀ name ∈ names.getLast?, name = "." ∨ name = "..") : d.Reachable target := by
  induction names generalizing place with
  | nil =>
    obtain rfl := Except.ok.inj h
    exact hplace rfl
  | cons name rest ih =>
    rw [walk] at h
    split at h
    · cases h
    · cases h
    · next hdirectory =>
      have hhere := reachable_of_dropLast habove hdirectory
      split at h
      · cases h
      -- the name is entered: a point stays, two points go up, and any other goes down
      · refine ih h ?_ ?_ ?_
        · rw [enter]
          split
          · exact habove
          · split
            · exact habove.dropLast
            · rwa [List.dropLast_concat]
        · rintro rfl
          obtain rfl | rfl := hlast name rfl
          · exact hhere
          · exact hhere.dropLast
        · intro last hmem
          exact hlast last (by rw [List.getLast?_cons, Option.mem_def.mp hmem]; rfl)

/-- A path starts at the root or at the working directory, and both are `Reachable`. -/
theorem reachable_start {path : String} {parts : Path} (hrooted : d.Rooted)
    (h : d.takeApart path = .ok parts) : d.Reachable parts.start := by
  -- a path starts at the root or at the working directory
  rw [takeApart] at h
  split at h
  · cases h
  · split at h
    · cases h
    · split at h
      · cases h
      · rw [← Except.ok.inj h]
        dsimp only
        split
        · exact reachable_root d
        · exact hrooted

/-- `write` never succeeds where the path wants a directory. -/
theorem endsWith_of_write {path : String} {bytes : List UInt8} {d' : Disk} (hrooted : d.Rooted)
    (h : d.write path bytes = .ok d') : path.endsWith "/" = false := by
  obtain ⟨place, hlocate, hplace, -⟩ := write_eq_ok_iff.mp h
  by_contra hclosed
  rw [Bool.not_eq_false] at hclosed
  -- a path that ends with a slash leads to a directory, where nothing can be written
  refine hplace (Reachable.node? ?_)
  rw [locateNew] at hlocate
  cases hparts : d.takeApart path with
  | error fault =>
    rw [hparts] at hlocate
    cases hlocate
  | ok parts =>
    have hstart := reachable_start hrooted hparts
    have hpath := (closed_of_takeApart hparts).trans hclosed
    rw [hparts] at hlocate
    simp only [bind, Except.bind, hpath, Bool.true_and] at hlocate
    -- with a slash only a directory that exists is found
    split at hlocate
    · cases hwalk : d.walk parts.start (parts.names.dropLast ++ ["."]) <;>
        rw [hwalk] at hlocate <;> cases hlocate
    · next hnew =>
      refine reachable_of_walk hlocate hstart.dropLast (fun _ => hstart) fun name hname => ?_
      rw [Option.mem_def.mp hname] at hnew
      by_contra hother
      rw [not_or] at hother
      exact hnew (by simp [hother])

/-! ## What keeps the working directory -/

/-- `put` where there is no directory leaves all directories as they were. -/
theorem reachable_put (hplace : d.node? place ≠ some .directory) (htarget : d.Reachable target) :
    (d.put place node).Reachable target := by
  intro above habove
  have hdirectory := htarget above habove
  rwa [node?_put_of_ne]
  rintro rfl
  exact hplace hdirectory

/-- `makeDirectories` leaves the directories that there are as they were. -/
theorem reachable_makeDirectories {names : List String} {made : Bool} {d' : Disk}
    (h : d.makeDirectories place made names = .ok d') (htarget : d.Reachable target) :
    d'.Reachable target := by
  -- a directory is made only where there is nothing, so no other is lost
  induction names generalizing d place made with
  | nil =>
    obtain rfl := Except.ok.inj h
    exact htarget
  | cons name rest ih =>
    rw [makeDirectories] at h
    split at h
    · cases h
    · dsimp only at h
      split at h
      · next hnone =>
        refine ih h (reachable_put ?_ htarget)
        rw [hnone]
        nofun
      · exact ih h htarget
      · cases h

/-- `makeDirectories` does not change the working directory. -/
theorem working_makeDirectories {names : List String} {made : Bool} {d' : Disk}
    (h : d.makeDirectories place made names = .ok d') : d'.working = d.working := by
  -- only files and directories change
  induction names generalizing d place made with
  | nil => rw [Except.ok.inj h]
  | cons name rest ih =>
    rw [makeDirectories] at h
    split at h
    · cases h
    · dsimp only at h
      split at h
      · exact (ih h).trans rfl
      · exact ih h
      · cases h

/-- `makeParent` keeps the working directory. -/
theorem rooted_makeParent {path : String} {d' : Disk} (hrooted : d.Rooted)
    (h : d.makeParent path = .ok d') : d'.Rooted := by
  rw [makeParent] at h
  -- without a parent in the path there is nothing to make
  split at h
  · rwa [← Except.ok.inj h]
  · cases hparts : d.takeApart (parent path) with
    | error fault =>
      rw [hparts] at h
      cases h
    | ok parts =>
      rw [hparts] at h
      rw [Rooted, working_makeDirectories h]
      exact reachable_makeDirectories h hrooted

end Utterance.Disk
