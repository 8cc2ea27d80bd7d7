import MiniJava.Cli.Disk
import Mathlib.Data.List.Basic
/-!
# Files on a disk

Whether a text can be read, and whether one can be written, is told by where a path leads.  Writing
puts the text at one place, from where the same path yields it again, and leaves what is found at
all other places as it was.
-/

namespace MiniJava.Cli.Disk

variable {d : Disk} {path text : String} {place other directory : List String} {name : String}

/-! ## Where paths lead -/

def content? (d : Disk) (place : List String) : Option ByteArray :=
  (d.files.find? (·.1 == place)).map (·.2)

def Leads (d : Disk) (path : String) (place : List String) : Prop :=
  d.walk (namesOf path).1 (namesOf path).2 = .ok place

def Holds (d : Disk) (path text : String) : Prop :=
  ∃ place, d.Leads path place ∧ d.content? place = some text.toUTF8

/-- A file may be written to where a path leads: the path ends in a name, the directory that the
name is in is there, and there is no other directory of that name in it. -/
structure Admits (d : Disk) (path : String) (directory : List String) (name : String) : Prop where
  proper : name ≠ "" ∧ name ≠ "." ∧ name ≠ ".."
  named : ∃ above, (namesOf path).2 = above ++ [name] ∧
    d.walk (namesOf path).1 above = .ok directory
  inside : d.entry directory = .directory
  free : d.entry (directory ++ [name]) ≠ .directory

/-- What makes a place a directory, if there is no file: it lies outside, or files lie below it. -/
def Holding (d : Disk) (place : List String) : Prop :=
  isOutside place = true ∨ ∃ file ∈ d.files, place <+: file.1

/-- What is found at a place goes by its file, and by whether it is a directory. -/
theorem entry_cases (d : Disk) (place : List String) :
    (∃ content, d.content? place = some content ∧ d.entry place = .file content) ∨
      (d.content? place = none ∧ d.Holding place ∧ d.entry place = .directory) ∨
        (d.content? place = none ∧ ¬ d.Holding place ∧ d.entry place = .missing) := by
  have hholding : (isOutside place || d.files.any (place.isPrefixOf ·.1)) = true ↔
      d.Holding place := by
    simp [Holding]
  unfold entry content?
  cases d.files.find? (·.1 == place) with
  | some file => exact .inl ⟨file.2, rfl, rfl⟩
  | none =>
      right
      by_cases h : d.Holding place
      · exact .inl ⟨rfl, h, if_pos (hholding.2 h)⟩
      · exact .inr ⟨rfl, h, if_neg (mt hholding.1 h)⟩

theorem entry_eq_file_iff {content : ByteArray} :
    d.entry place = .file content ↔ d.content? place = some content := by
  rcases d.entry_cases place with ⟨found, h, he⟩ | ⟨h, -, he⟩ | ⟨h, -, he⟩ <;> simp [h, he]

theorem holding_of_directory (h : d.entry place = .directory) : d.Holding place := by
  rcases d.entry_cases place with ⟨found, -, he⟩ | ⟨-, hholding, -⟩ | ⟨-, -, he⟩
  · exact absurd (he.symm.trans h) nofun
  · exact hholding
  · exact absurd (he.symm.trans h) nofun

theorem entry_congr {d' : Disk} (hcontent : d'.content? place = d.content? place)
    (hholding : d'.Holding place ↔ d.Holding place) : d'.entry place = d.entry place := by
  rcases d.entry_cases place with ⟨found, h, he⟩ | ⟨h, hd, he⟩ | ⟨h, hd, he⟩ <;>
    rcases d'.entry_cases place with ⟨found', h', he'⟩ | ⟨h', hd', he'⟩ | ⟨h', hd', he'⟩ <;>
    simp_all

theorem walk_append (here : List String) (above names : List String) :
    d.walk here (above ++ names) =
      match d.walk here above with
      | .ok found => d.walk found names
      | .error e => .error e := by
  induction above generalizing here with
  | nil => rfl
  | cons name above ih =>
      rw [List.cons_append, walk, walk]
      cases d.entry here with
      | file => rfl
      | missing => rfl
      | directory =>
          dsimp only
          split
          · exact ih here
          · split
            · exact ih _
            · exact ih _

/-! ## Reading -/

theorem fromUTF8?_eq_some_iff {content : ByteArray} :
    String.fromUTF8? content = some text ↔ content = text.toUTF8 := by
  unfold String.fromUTF8?
  constructor
  · intro h
    split at h
    · obtain rfl := Option.some.inj h
      rfl
    · exact absurd h nofun
  · rintro rfl
    exact dif_pos text.isValidUTF8

theorem read_eq_ok_iff : d.read path = .ok text ↔ d.Holds path text := by
  unfold read Holds Leads
  dsimp only
  cases hwalk : d.walk (namesOf path).1 (namesOf path).2 with
  | error e => simp
  | ok found =>
      simp only [Except.ok.injEq, exists_eq_left', ← entry_eq_file_iff]
      cases d.entry found with
      | missing => simp
      | directory => simp
      | file content =>
          dsimp only
          rw [Entry.file.injEq, ← fromUTF8?_eq_some_iff]
          cases String.fromUTF8? content <;> simp

theorem read_eq_error (h : ¬ ∃ text, d.Holds path text) : ∃ cause, d.read path = .error cause := by
  cases hread : d.read path with
  | error cause => exact ⟨cause, rfl⟩
  | ok text => exact absurd ⟨text, read_eq_ok_iff.1 hread⟩ h

/-! ## Putting a file in its place -/

section

variable {content : ByteArray}

theorem content?_put_self : (d.put place content).content? place = some content := by
  have hothers : (d.files.filter (·.1 != place)).find? (·.1 == place) = none := by
    simp [List.find?_eq_none]
  rw [content?, put, List.find?_append, hothers]
  simp

theorem content?_put_of_ne (h : other ≠ place) :
    (d.put place content).content? other = d.content? other := by
  have hlast : [(place, content)].find? (·.1 == other) = none := by simp [h.symm]
  rw [content?, content?, put, List.find?_append, hlast, Option.or_none, List.find?_filter]
  congr 2
  funext file
  by_cases hfile : file.1 = other
  · simp [hfile, h]
  · simp [hfile]

theorem Holding.above {above : List String} (h : d.Holding directory) (ha : above <+: directory) :
    d.Holding above := by
  rcases h with hout | ⟨file, hfile, hbelow⟩
  · left
    simp only [isOutside, Bool.or_eq_true, beq_iff_eq, List.all_eq_true] at hout ⊢
    rcases hout with rfl | hdots
    · rcases List.prefix_cons_iff.1 ha with rfl | ⟨rest, rfl, hrest⟩
      · exact .inr (List.forall_mem_nil _)
      · exact .inl (by rw [List.prefix_nil.1 hrest])
    · exact .inr fun x hx => hdots x (ha.subset hx)
  · exact .inr ⟨file, hfile, ha.trans hbelow⟩

/-- Directories stay, and no new ones come up, where a file is put into one. -/
theorem holding_put_iff (inside : d.Holding directory) (h : other ≠ directory ++ [name]) :
    (d.put (directory ++ [name]) content).Holding other ↔ d.Holding other := by
  constructor
  · rintro (hout | ⟨file, hfile, hbelow⟩)
    · exact .inl hout
    · rw [put, List.mem_append, List.mem_singleton] at hfile
      rcases hfile with hfile | rfl
      · exact .inr ⟨file, List.mem_of_mem_filter hfile, hbelow⟩
      · rcases List.prefix_concat_iff.1 hbelow with hsame | habove
        · exact absurd hsame h
        · exact inside.above habove
  · rintro (hout | ⟨file, hfile, hbelow⟩)
    · exact .inl hout
    · right
      by_cases hplace : file.1 = directory ++ [name]
      · exact ⟨(directory ++ [name], content), by simp [put], hplace ▸ hbelow⟩
      · exact ⟨file, by simp [put, hfile, hplace], hbelow⟩

theorem entry_put_of_ne (inside : d.entry directory = .directory)
    (h : other ≠ directory ++ [name]) :
    (d.put (directory ++ [name]) content).entry other = d.entry other :=
  entry_congr (content?_put_of_ne h) (holding_put_iff (holding_of_directory inside) h)

/-- A file that is put where no directory is stands in no way. -/
theorem walk_put (inside : d.entry directory = .directory)
    (free : d.entry (directory ++ [name]) ≠ .directory) {here found : List String}
    {names : List String} (h : d.walk here names = .ok found) :
    (d.put (directory ++ [name]) content).walk here names = .ok found := by
  induction names generalizing here with
  | nil => exact h
  | cons next names ih =>
      rw [walk] at h ⊢
      cases hentry : d.entry here with
      | file => simp [hentry] at h
      | missing => simp [hentry] at h
      | directory =>
          have hne : here ≠ directory ++ [name] := by
            rintro rfl
            exact free hentry
          rw [entry_put_of_ne inside hne]
          rw [hentry] at h ⊢
          dsimp only at h ⊢
          split at h
          · next hstay =>
            rw [if_pos hstay]
            exact ih h
          · next hgo =>
            rw [if_neg hgo]
            split at h
            · next hup =>
              rw [if_pos hup]
              exact ih h
            · next hdown =>
              rw [if_neg hdown]
              exact ih h

/-- Where a text has been written, the same path yields it. -/
theorem Admits.holds_put (h : d.Admits path directory name) :
    (d.put (directory ++ [name]) text.toUTF8).Holds path text := by
  obtain ⟨above, hnames, hwalk⟩ := h.named
  obtain ⟨hempty, hdot, hdots⟩ := h.proper
  refine ⟨directory ++ [name], ?_, content?_put_self⟩
  have hne : directory ≠ directory ++ [name] := by simp
  rw [Leads, hnames, walk_append, walk_put h.inside h.free hwalk]
  dsimp only
  rw [walk, entry_put_of_ne h.inside hne, h.inside]
  dsimp only
  rw [if_neg (not_or.2 ⟨hempty, hdot⟩), if_neg hdots]
  rfl

end

/-! ## Writing -/

def destination (d : Disk) (path : String) : Except FileError (List String × String) :=
  let (start, names) := namesOf path
  let kept := withoutSlashes names
  match d.walk start kept.dropLast with
  | .error e => .error e
  | .ok directory =>
    match d.entry directory, kept.getLast? with
    | .file _, _ => .error .notDirectory
    | .missing, _ => .error .notFound
    | .directory, some name =>
      if kept ≠ names ∨ name = "." ∨ name = ".." then .error .isDirectory
      else
        match d.entry (directory ++ [name]) with
        | .directory => .error .isDirectory
        | _ => .ok (directory, name)
    | .directory, none => .error .isDirectory

theorem write_eq (d : Disk) (path text : String) :
    d.write path text =
      (d.destination path).map fun (directory, name) =>
        d.put (directory ++ [name]) text.toUTF8 := by
  unfold write destination
  dsimp only
  cases d.walk (namesOf path).1 (withoutSlashes (namesOf path).2).dropLast with
  | error e => rfl
  | ok directory =>
      dsimp only
      cases d.entry directory with
      | file => rfl
      | missing => rfl
      | directory =>
          cases (withoutSlashes (namesOf path).2).getLast? with
          | none => rfl
          | some name =>
              dsimp only
              split
              · rfl
              · cases d.entry (directory ++ [name]) <;> rfl

theorem withoutSlashes_concat {names : List String} (h : name ≠ "") :
    withoutSlashes (names ++ [name]) = names ++ [name] := by
  simp [withoutSlashes, h]

theorem ne_of_getLast?_withoutSlashes {names : List String}
    (h : (withoutSlashes names).getLast? = some name) : name ≠ "" := by
  have hhead := List.head?_dropWhile_not (· == "") names.reverse
  rw [withoutSlashes, List.getLast?_reverse] at h
  rw [h] at hhead
  simpa using hhead

theorem destination_eq_ok_iff :
    d.destination path = .ok (directory, name) ↔ d.Admits path directory name := by
  constructor
  · intro h
    unfold destination at h
    dsimp only at h
    split at h
    · exact absurd h nofun
    · next found hwalk =>
      split at h
      · exact absurd h nofun
      · exact absurd h nofun
      · next last hinside hlast =>
        split at h
        · exact absurd h nofun
        · next hproper =>
          simp only [not_or, ne_eq, not_not] at hproper
          obtain ⟨hkept, hdot, hdots⟩ := hproper
          split at h
          · exact absurd h nofun
          · next hfree =>
            obtain ⟨rfl, rfl⟩ := Prod.mk.inj (Except.ok.inj h)
            have hempty := ne_of_getLast?_withoutSlashes hlast
            rw [hkept] at hlast hwalk
            have hsplit := List.dropLast_append_getLast? _ (Option.mem_def.2 hlast)
            exact ⟨⟨hempty, hdot, hdots⟩, ⟨_, hsplit.symm, hwalk⟩, hinside, hfree⟩
      · exact absurd h nofun
  · intro h
    obtain ⟨above, hnames, hwalk⟩ := h.named
    obtain ⟨hempty, hdot, hdots⟩ := h.proper
    have hfree := h.free
    unfold destination
    dsimp only
    rw [hnames, withoutSlashes_concat hempty, List.dropLast_concat, hwalk]
    dsimp only
    rw [h.inside, List.getLast?_concat]
    dsimp only
    rw [if_neg (by simp [hdot, hdots])]
    cases hentry : d.entry (directory ++ [name]) with
    | directory => exact absurd hentry hfree
    | file => rfl
    | missing => rfl

theorem Admits.write_eq (h : d.Admits path directory name) (text : String) :
    d.write path text = .ok (d.put (directory ++ [name]) text.toUTF8) := by
  rw [Disk.write_eq, destination_eq_ok_iff.2 h]
  rfl

/-- Where no file may be written, that is so for every text. -/
theorem write_eq_error (h : ¬ ∃ directory name, d.Admits path directory name) :
    ∃ cause, ∀ text, d.write path text = .error cause := by
  cases hplace : d.destination path with
  | error cause =>
      refine ⟨cause, fun text => ?_⟩
      rw [write_eq, hplace]
      rfl
  | ok found => exact absurd ⟨found.1, found.2, destination_eq_ok_iff.1 hplace⟩ h

end MiniJava.Cli.Disk
