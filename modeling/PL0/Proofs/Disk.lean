import PL0.File.Disk
import PL0.Util.List
import PL0.Util.Monad

/-!
This module contains what writing a file does to a disk: the path leads to what was written, and
there is nothing new at any other place. Where the file is put depends on the directories only, and
its name there is the last one of the path.
-/

namespace PL0
namespace Disk

variable {disk : Disk} {place other next target : Place} {node : Node} {path name : String}
  {names above below : List String}

theorem lookup_filter_ne (entries : List (Place × Node)) (hne : other ≠ place) :
    (entries.filter (·.1 ≠ place)).lookup other = entries.lookup other := by
  induction entries with
  | nil => rfl
  | cons entry entries ih =>
    obtain ⟨here, node⟩ := entry
    by_cases hhere : here = place
    · have hother : (other == here) = false := beq_false_of_ne (hhere ▸ hne)
      rw [List.filter_cons_of_neg (by simpa using hhere), ih, List.lookup_cons, hother]
    · rw [List.filter_cons_of_pos (by simpa using hhere), List.lookup_cons, List.lookup_cons, ih]

theorem node?_put (hplace : place ≠ []) (other : Place) :
    (disk.put place node).node? other = if other = place then some node else disk.node? other := by
  unfold node? put
  by_cases hother : other = place
  · subst hother
    simp [hplace]
  · have hbeq : (other == place) = false := beq_false_of_ne hother
    simp only [List.lookup_cons, hbeq, lookup_filter_ne disk.entries hother, if_neg hother]

theorem enter_eq_ok_iff : disk.enter place = .ok () ↔ disk.node? place = some .directory := by
  unfold enter
  cases disk.node? place with
  | none => simp
  | some node => cases node <;> simp

theorem ne_nil_of_node? (h : disk.node? place ≠ some .directory) : place ≠ [] := by
  rintro rfl
  exact h rfl

inductive Leads (place : Place) (name : String) : Place → Prop where
  | stay (h : name = "" ∨ name = ".") : Leads place name place
  | up (h : name = "..") : Leads place name place.dropLast
  | down (hstay : ¬ (name = "" ∨ name = ".")) (hup : name ≠ "..") (h : checkName name = .ok ()) :
      Leads place name (place ++ [name])

theorem walk_cons_eq_ok_iff :
    disk.walk place (name :: names) = .ok target ↔
      disk.enter place = .ok () ∧ ∃ next, Leads place name next ∧
        disk.walk next names = .ok target := by
  rw [walk]
  constructor
  · intro h
    cases henter : disk.enter place with
    | error error =>
      rw [henter] at h
      cases h
    | ok =>
      rw [henter] at h
      refine ⟨rfl, ?_⟩
      dsimp only at h
      split at h
      · next hstay => exact ⟨place, .stay hstay, h⟩
      · next hstay =>
        split at h
        · next hup => exact ⟨place.dropLast, .up hup, h⟩
        · next hup =>
          split at h
          · cases h
          · next hname => exact ⟨place ++ [name], .down hstay hup hname, h⟩
  · rintro ⟨henter, next, hleads, h⟩
    rw [henter]
    cases hleads with
    | stay hstay => simpa only [if_pos hstay] using h
    | up hup =>
      subst hup
      exact h
    | down hstay hup hname => simpa only [if_neg hstay, if_neg hup, hname] using h

theorem walk_append (habove : disk.walk place above = .ok next)
    (hbelow : disk.walk next below = .ok target) :
    disk.walk place (above ++ below) = .ok target := by
  induction above generalizing place with
  | nil =>
    cases habove
    exact hbelow
  | cons name above ih =>
    obtain ⟨henter, child, hleads, hwalk⟩ := walk_cons_eq_ok_iff.1 habove
    exact walk_cons_eq_ok_iff.2 ⟨henter, child, hleads, ih hwalk⟩

theorem node?_put_file_eq_directory_iff (hplace : disk.node? place ≠ some .directory)
    (content : ByteArray) :
    (disk.put place (.file content)).node? other = some .directory ↔
      disk.node? other = some .directory := by
  rw [node?_put (ne_nil_of_node? hplace)]
  split
  · next hother => simp [hother, hplace]
  · rfl

theorem walk_put_file_iff (hplace : disk.node? place ≠ some .directory) (content : ByteArray) :
    (disk.put place (.file content)).walk other names = .ok target ↔
      disk.walk other names = .ok target := by
  -- The way leads through directories only, and so not through the place.
  induction names generalizing other with
  | nil => rfl
  | cons name names ih =>
    simp only [walk_cons_eq_ok_iff, enter_eq_ok_iff, node?_put_file_eq_directory_iff hplace, ih]

theorem eq_cons_of_dropWhile {backwards : List String}
    (h : backwards.dropWhile (· == "") = name :: above) (hlast : backwards.head? ≠ some "") :
    backwards = name :: above := by
  cases backwards with
  | nil => cases h
  | cons last rest =>
    have hne : ¬ (last == "") = true := by
      rw [beq_iff_eq]
      rintro rfl
      exact hlast rfl
    rwa [List.dropWhile_cons, if_neg hne] at h

theorem filePlace_eq_ok_iff :
    disk.filePlace path = .ok place ↔
      checkPath path = .ok () ∧ ∃ directory above name, Disk.names path = above ++ [name] ∧
        disk.walk (disk.start path) above = .ok directory ∧ disk.enter directory = .ok () ∧
          ¬ (name = "" ∨ name = ".") ∧ name ≠ ".." ∧ checkName name = .ok () ∧
            place = directory ++ [name] ∧ disk.node? place ≠ some .directory := by
  unfold filePlace
  constructor
  · intro h
    obtain ⟨_, hcheck, h⟩ := Except.exists_of_bind_eq_ok h
    refine ⟨hcheck, ?_⟩
    dsimp only at h
    split at h
    · cases h
    · next name above hnames =>
      obtain ⟨directory, hwalk, h⟩ := Except.exists_of_bind_eq_ok h
      obtain ⟨_, henter, h⟩ := Except.exists_of_bind_eq_ok h
      split at h
      · cases h
      · next hname =>
        simp only [not_or] at hname
        obtain ⟨hlast, hstay, hup⟩ := hname
        obtain ⟨_, hsize, h⟩ := Except.exists_of_bind_eq_ok h
        split at h
        · cases h
        · next hplace =>
          cases h
          have hbackwards := eq_cons_of_dropWhile hnames hlast
          have hempty : name ≠ "" := by
            rintro rfl
            rw [hbackwards] at hlast
            exact hlast rfl
          refine ⟨directory, above.reverse, name, ?_, hwalk, henter,
            not_or.2 ⟨hempty, hstay⟩, hup, hsize, rfl, hplace⟩
          rw [← List.reverse_reverse (Disk.names path), hbackwards, List.reverse_cons]
  · rintro ⟨hcheck, directory, above, name, hnames, hwalk, henter, hstay, hup, hsize, rfl, hplace⟩
    obtain ⟨hempty, hdot⟩ := not_or.1 hstay
    have hbackwards : (Disk.names path).reverse = name :: above.reverse := by
      rw [hnames, List.reverse_append, List.reverse_singleton, List.singleton_append]
    simp only [hcheck, hbackwards, List.dropWhile_cons, beq_iff_eq, hempty, if_false,
      List.reverse_reverse, hwalk, henter, hdot, hup, hsize, List.head?_cons, Option.some.injEq,
      or_self, bind, Except.bind]
    rfl

theorem walk_of_filePlace (h : disk.filePlace path = .ok place) :
    checkPath path = .ok () ∧ disk.walk (disk.start path) (Disk.names path) = .ok place ∧
      disk.node? place ≠ some .directory := by
  obtain ⟨hcheck, directory, above, name, hnames, hwalk, henter, hstay, hup, hsize, rfl, hplace⟩ :=
    filePlace_eq_ok_iff.1 h
  refine ⟨hcheck, ?_, hplace⟩
  rw [hnames]
  apply walk_append hwalk
  exact walk_cons_eq_ok_iff.2 ⟨henter, _, .down hstay hup hsize, rfl⟩

theorem filePlace_put_file_iff (hplace : disk.node? place ≠ some .directory) (content : ByteArray) :
    (disk.put place (.file content)).filePlace path = .ok target ↔
      disk.filePlace path = .ok target := by
  have hstart : (disk.put place (.file content)).start path = disk.start path := rfl
  simp only [filePlace_eq_ok_iff, hstart, walk_put_file_iff hplace, enter_eq_ok_iff, ne_eq,
    node?_put_file_eq_directory_iff hplace]

theorem read_eq_of_filePlace {content : ByteArray} (h : disk.filePlace path = .ok place)
    (hnode : disk.node? place = some (.file content)) : disk.read path = .ok content := by
  obtain ⟨hcheck, hwalk, _⟩ := walk_of_filePlace h
  unfold read
  rw [hcheck]
  change (disk.walk (disk.start path) (Disk.names path) >>= _) = _
  rw [hwalk]
  simp only [bind, Except.bind, hnode]
  rfl

theorem read_put (h : disk.filePlace path = .ok place) (content : ByteArray) :
    (disk.put place (.file content)).read path = .ok content := by
  obtain ⟨_, _, hplace⟩ := walk_of_filePlace h
  apply read_eq_of_filePlace ((filePlace_put_file_iff hplace content).2 h)
  rw [node?_put (ne_nil_of_node? hplace), if_pos rfl]

/-- The part of a path in front of its last name. -/
def IsDirectoryPart (directory : List Char) : Prop :=
  directory = [] ∨ ∃ above, directory = above ++ ['/']

theorem isDirectoryPart_dropWhile (backwards : List Char) :
    IsDirectoryPart (backwards.dropWhile (· ≠ '/')).reverse := by
  have hhead := List.head?_dropWhile_not (· ≠ '/') backwards
  cases hdirectory : backwards.dropWhile (· ≠ '/') with
  | nil => exact .inl rfl
  | cons c above =>
    rw [hdirectory] at hhead
    obtain rfl : c = '/' := by simpa using hhead
    exact .inr ⟨above.reverse, List.reverse_cons⟩

theorem getLast?_names {directory last : List Char} (hpath : path.toList = directory ++ last)
    (hdirectory : IsDirectoryPart directory) (hlast : '/' ∉ last) :
    (Disk.names path).getLast? = some (String.ofList last) := by
  rw [Disk.names, hpath]
  obtain rfl | ⟨above, rfl⟩ := hdirectory
  · rw [List.nil_append, List.splitOn_eq_singleton hlast]
    rfl
  · rw [List.append_assoc, List.singleton_append, List.splitOn_append_cons_self,
      List.splitOn_eq_singleton hlast]
    simp

theorem getLast?_of_filePlace (h : disk.filePlace path = .ok place) :
    place.getLast? = (Disk.names path).getLast? := by
  obtain ⟨_, directory, above, name, hnames, _, _, _, _, _, rfl, _⟩ := filePlace_eq_ok_iff.1 h
  rw [hnames, List.getLast?_concat, List.getLast?_concat]

end Disk
end PL0
