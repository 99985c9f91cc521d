import PL0.Proofs.Compilation
import PL0.Proofs.FailedRun

/-!
This module contains what is left on the disk by a run that succeeds: the code of the program in the
output file, and the dump in the file with the extension for it, if it is asked for. These are two
files unless the output file has that extension already. Then the dump is all that is left.
-/

namespace PL0

open StateM (run_bind_of_run)

theorem exists_withExtension (path : String) {extension : String}
    (hextension : '/' ∉ extension.toList) :
    ∃ directory name name', Disk.IsDirectoryPart directory ∧ '/' ∉ name ∧ '/' ∉ name' ∧
      path.toList = directory ++ name ∧
        (withExtension path extension).toList = directory ++ name' := by
  generalize hbackwards : path.toList.reverse = backwards
  have hslash := List.notMem_takeWhile_ne '/' backwards
  have hpart := Disk.isDirectoryPart_dropWhile backwards
  have hsplit := @List.takeWhile_append_dropWhile _ (· ≠ '/') backwards
  generalize hname : backwards.takeWhile (· ≠ '/') = name at *
  generalize backwards.dropWhile (· ≠ '/') = directory at *
  have hdrop : backwards.drop name.length = directory := by rw [← hsplit, List.drop_left]
  have hpath : path.toList = directory.reverse ++ name.reverse := by
    rw [← List.reverse_append, hsplit, ← hbackwards, List.reverse_reverse]
  suffices h : ∃ name', '/' ∉ name' ∧
      (withExtension path extension).toList = directory.reverse ++ name' by
    obtain ⟨name', hname', hresult⟩ := h
    exact ⟨_, _, name', hpart, by simpa using hslash, hname', hpath, hresult⟩
  have happended : ∃ name', '/' ∉ name' ∧
      (path ++ "." ++ extension).toList = directory.reverse ++ name' := by
    refine ⟨name.reverse ++ '.' :: extension.toList, ?_, ?_⟩
    · simp [hslash, hextension]
    · simp [hpath]
  unfold withExtension
  simp only [hbackwards, hname, hdrop]
  split
  · exact happended
  · exact happended
  · exact ⟨['.', '.'], by decide, String.toList_ofList⟩
  · have hkept : '/' ∉ name.dropWhile (· ≠ '.') := by
      intro hmem
      exact hslash ((List.dropWhile_sublist _).subset hmem)
    refine ⟨(name.dropWhile (· ≠ '.')).reverse ++ extension.toList, ?_, ?_⟩
    · simp only [List.mem_append, List.mem_reverse, not_or]
      exact ⟨hkept, hextension⟩
    · rw [String.toList_ofList, List.append_assoc]

theorem Disk.withExtension_eq_of_filePlace {disk : Disk} {path extension : String} {place : Place}
    (hextension : '/' ∉ extension.toList) (h : disk.filePlace path = .ok place)
    (h' : disk.filePlace (withExtension path extension) = .ok place) :
    withExtension path extension = path := by
  obtain ⟨directory, name, name', hdirectory, hname, hname', hpath, hpath'⟩ :=
    exists_withExtension path hextension
  have hlast := Disk.getLast?_of_filePlace h
  rw [Disk.getLast?_of_filePlace h', Disk.getLast?_names hpath hdirectory hname,
    Disk.getLast?_names hpath' hdirectory hname', Option.some.injEq, String.ofList_inj] at hlast
  apply String.toList_injective
  rw [hpath, hpath', hlast]

namespace Options

/-- The input file is read and compiled. -/
inductive Compiles (options : Options) (limits : Limits) (disk : Disk) (p : TargetProgram) :
    Prop where
  | intro {text : String} {tokens : List Token} (htext : disk.ReadsAs options.input (.ok text))
      (hrecords : Token.ofRecords text = .ok tokens)
      (hcompile : (compile tokens limits).result = .ok p)

/-- The disk when the dump is written, or not asked for. -/
inductive WritesDump (options : Options) (p : TargetProgram) (disk : Disk) : Disk → Prop where
  | unasked (hjson : options.json = false) : WritesDump options p disk disk
  | dump {place : Place} (hjson : options.json = true)
      (hplace : disk.filePlace (withExtension options.output "json") = .ok place) :
      WritesDump options p disk (disk.put place (.file p.dump.toUTF8))

end Options

variable {disk after : Disk} {options : Options} {limits : Limits} {p : TargetProgram}

theorem Disk.exists_readsAs (disk : Disk) (path : String) : ∃ result, disk.ReadsAs path result := by
  cases hread : disk.read path with
  | error cause => exact ⟨_, .unreadable hread⟩
  | ok content =>
    cases htext : String.fromUTF8? content with
    | none => exact ⟨_, .notText hread htext⟩
    | some text => exact ⟨_, .text hread htext⟩

theorem Disk.run_writeText_of_error {path : String} {cause : FileError}
    (h : disk.filePlace path = .error cause) (text : String) :
    (FileStore.writeText path text : StateM Disk _).run disk = (.error cause, disk) := by
  rw [run_writeText_eq, write, h]
  rfl

namespace Options

theorem exists_loads (options : Options) (disk : Disk) : ∃ result, options.Loads disk result := by
  cases hconfig : options.config with
  | none => exact ⟨_, .default hconfig⟩
  | some path =>
    obtain ⟨result, htext⟩ := disk.exists_readsAs path
    cases result with
    | error cause => exact ⟨_, .unreadable hconfig htext⟩
    | ok text =>
      cases hlimits : Limits.ofJson text with
      | error cause => exact ⟨_, .invalid hconfig htext hlimits⟩
      | ok limits => exact ⟨_, .limits hconfig htext hlimits⟩

theorem Compiles.run_compileInput (h : options.Compiles limits disk p) :
    ∃ events, (options.compileInput limits : StateM Disk _).run disk = ((.ok p, events), disk) := by
  obtain ⟨htext, hrecords, hcompile⟩ := h
  have hrun := Options.run_compileInput htext hrecords limits
  rw [hcompile] at hrun
  exact ⟨_, hrun⟩

theorem exists_run_compileInput (options : Options) (limits : Limits) (disk : Disk) :
    ∃ result events,
      (options.compileInput limits : StateM Disk _).run disk = ((result, events), disk) ∧
        ∀ p, result = .ok p → options.Compiles limits disk p := by
  obtain ⟨text, htext⟩ := disk.exists_readsAs options.input
  cases text with
  | error cause =>
    have hfails : options.Fails limits disk _ := .reading htext
    obtain ⟨events, hrun⟩ := hfails.run_compileInput
    exact ⟨_, events, hrun, by simp⟩
  | ok text =>
    cases hrecords : Token.ofRecords text with
    | error cause =>
      have hfails : options.Fails limits disk _ := .records htext hrecords
      obtain ⟨events, hrun⟩ := hfails.run_compileInput
      exact ⟨_, events, hrun, by simp⟩
    | ok tokens =>
      refine ⟨_, _, Options.run_compileInput htext hrecords limits, ?_⟩
      intro p hok
      cases hcompile : (compile tokens limits).result with
      | error cause =>
        rw [hcompile] at hok
        cases hok
      | ok q =>
        rw [hcompile] at hok
        cases hok
        exact .intro htext hrecords hcompile

theorem WritesDump.run_writeDump (h : options.WritesDump p disk after) :
    (options.writeDump p : StateM Disk _).run disk = (.ok (), after) := by
  unfold writeDump
  cases h with
  | unasked hjson =>
    rw [if_neg (by simp [hjson])]
    rfl
  | dump hjson hplace =>
    rw [if_pos hjson, run_bind_of_run (Disk.run_writeText hplace _)]
    rfl

theorem writesDump_of_run (h : (options.writeDump p : StateM Disk _).run disk = (.ok (), after)) :
    options.WritesDump p disk after := by
  unfold writeDump at h
  cases hjson : options.json with
  | false =>
    rw [if_neg (by simp [hjson])] at h
    cases h
    exact .unasked hjson
  | true =>
    rw [if_pos hjson] at h
    cases hplace : disk.filePlace (withExtension options.output "json") with
    | error cause =>
      rw [run_bind_of_run (Disk.run_writeText_of_error hplace _)] at h
      cases h
    | ok place =>
      rw [run_bind_of_run (Disk.run_writeText hplace _)] at h
      cases h
      exact .dump hjson hplace

/-- The code is written, and then the dump. -/
def WritesProgram (options : Options) (p : TargetProgram) (disk after : Disk) : Prop :=
  ∃ place, disk.filePlace options.output = .ok place ∧
    options.WritesDump p (disk.put place (.file p.codeText.toUTF8)) after

theorem run_writeResult_eq_ok_iff {result : Except RunError TargetProgram} :
    (options.writeResult result : StateM Disk _).run disk = (.ok p, after) ↔
      result = .ok p ∧ options.WritesProgram p disk after := by
  unfold writeResult
  constructor
  · intro h
    cases hplace : disk.filePlace options.output with
    | error cause =>
      cases result with
      | error | ok =>
        rw [run_bind_of_run (Disk.run_writeText_of_error hplace _)] at h
        cases h
    | ok place =>
      cases result with
      | error error =>
        rw [run_bind_of_run (Disk.run_writeText hplace _)] at h
        cases h
      | ok q =>
        rw [run_bind_of_run (Disk.run_writeText hplace _)] at h
        rcases hdump : (options.writeDump q : StateM Disk _).run
          (disk.put place (.file q.codeText.toUTF8)) with ⟨written, after'⟩
        dsimp only at h
        rw [run_bind_of_run hdump] at h
        cases written with
        | error error => cases h
        | ok =>
          cases h
          exact ⟨rfl, place, hplace, writesDump_of_run hdump⟩
  · rintro ⟨rfl, place, hplace, hdump⟩
    rw [run_bind_of_run (Disk.run_writeText hplace _)]
    dsimp only
    rw [run_bind_of_run hdump.run_writeDump]
    rfl

theorem run_of_compiles (hloads : options.Loads disk (.ok limits))
    (hcompiles : options.Compiles limits disk p) (hwrites : options.WritesProgram p disk after) :
    ∃ events, (options.run : StateM Disk _).run disk =
      (⟨.ok p, if options.listing then p.listing else "", events⟩, after) := by
  obtain ⟨events, hcompile⟩ := hcompiles.run_compileInput
  refine ⟨events, ?_⟩
  unfold run
  rw [run_bind_of_run hloads.run_readLimits]
  dsimp only
  rw [run_bind_of_run hcompile]
  dsimp only
  rw [run_bind_of_run (run_writeResult_eq_ok_iff.2 ⟨rfl, hwrites⟩)]
  rfl

/-- Whatever is written in the end, a run tells that the tokens are read, and then what the
compilation tells. -/
theorem events_of_run {text : String} {tokens : List Token}
    (hloads : options.Loads disk (.ok limits)) (htext : disk.ReadsAs options.input (.ok text))
    (hrecords : Token.ofRecords text = .ok tokens) :
    ((options.run : StateM Disk _).run disk).1.events =
      .loaded tokens.length options.input :: (compile tokens limits).events := by
  unfold run
  rw [run_bind_of_run hloads.run_readLimits]
  dsimp only
  rw [run_bind_of_run (Options.run_compileInput htext hrecords limits)]
  rcases hwrite : (options.writeResult ((compile tokens limits).result.mapError .compiling) :
    StateM Disk _).run disk with ⟨written, after⟩
  dsimp only
  rw [run_bind_of_run hwrite]
  cases written <;> rfl

theorem exists_of_run {outcome : Outcome}
    (hrun : (options.run : StateM Disk _).run disk = (outcome, after))
    (hok : outcome.result = .ok p) :
    (∃ limits, options.Loads disk (.ok limits) ∧ options.Compiles limits disk p) ∧
      options.WritesProgram p disk after ∧
        outcome.printed = if options.listing then p.listing else "" := by
  obtain ⟨loaded, hloads⟩ := options.exists_loads disk
  unfold run at hrun
  rw [run_bind_of_run hloads.run_readLimits] at hrun
  cases loaded with
  | error error =>
    cases hrun
    cases hok
  | ok limits =>
    obtain ⟨result, events, hcompile, hresult⟩ := options.exists_run_compileInput limits disk
    dsimp only at hrun
    rw [run_bind_of_run hcompile] at hrun
    rcases hwrite : (options.writeResult result : StateM Disk _).run disk with ⟨written, after'⟩
    dsimp only at hrun
    rw [run_bind_of_run hwrite] at hrun
    cases written with
    | error error =>
      cases hrun
      cases hok
    | ok q =>
      cases hrun
      cases hok
      obtain ⟨rfl, hwrites⟩ := run_writeResult_eq_ok_iff.1 hwrite
      exact ⟨⟨limits, hloads, hresult _ rfl⟩, hwrites, rfl⟩

theorem WritesProgram.exists_node? (h : options.WritesProgram p disk after) :
    ∃ place, disk.filePlace options.output = .ok place ∧
      after.filePlace options.output = .ok place ∧
      ((options.json = false ∧ ∀ other, after.node? other =
          if other = place then some (.file p.codeText.toUTF8) else disk.node? other) ∨
        (options.json = true ∧ ∃ dumpPlace,
          disk.filePlace (withExtension options.output "json") = .ok dumpPlace ∧
            after.filePlace (withExtension options.output "json") = .ok dumpPlace ∧
              ∀ other, after.node? other =
                if other = dumpPlace then some (.file p.dump.toUTF8)
                else if other = place then some (.file p.codeText.toUTF8)
                else disk.node? other)) := by
  obtain ⟨place, hplace, hdump⟩ := h
  obtain ⟨_, _, hnode⟩ := Disk.walk_of_filePlace hplace
  have hcode := (Disk.filePlace_put_file_iff hnode p.codeText.toUTF8).2 hplace
  refine ⟨place, hplace, ?_⟩
  cases hdump with
  | unasked hjson =>
    refine ⟨hcode, .inl ⟨hjson, ?_⟩⟩
    exact Disk.node?_put (Disk.ne_nil_of_node? hnode)
  | @dump dumpPlace hjson hdump =>
    obtain ⟨_, _, hnode'⟩ := Disk.walk_of_filePlace hdump
    refine ⟨(Disk.filePlace_put_file_iff hnode' _).2 hcode, .inr ⟨hjson, dumpPlace, ?_, ?_, ?_⟩⟩
    · exact (Disk.filePlace_put_file_iff hnode _).1 hdump
    · exact (Disk.filePlace_put_file_iff hnode' _).2 hdump
    · intro other
      rw [Disk.node?_put (Disk.ne_nil_of_node? hnode'), Disk.node?_put (Disk.ne_nil_of_node? hnode)]

theorem WritesProgram.read_output (h : options.WritesProgram p disk after) :
    after.read options.output =
      .ok (if options.json = true ∧ withExtension options.output "json" = options.output then p.dump
        else p.codeText).toUTF8 := by
  obtain ⟨place, hplace, hafter, ⟨hjson, hnode⟩ | ⟨hjson, dumpPlace, hdump, hdump', hnode⟩⟩ :=
    h.exists_node?
  · rw [if_neg (by simp [hjson])]
    apply Disk.read_eq_of_filePlace hafter
    rw [hnode, if_pos rfl]
  · by_cases hsame : dumpPlace = place
    · have hpath : withExtension options.output "json" = options.output := by
        apply Disk.withExtension_eq_of_filePlace (by decide) hplace
        rw [hdump, hsame]
      rw [if_pos ⟨hjson, hpath⟩]
      apply Disk.read_eq_of_filePlace hafter
      rw [hnode, if_pos hsame.symm]
    · have hpath : withExtension options.output "json" ≠ options.output := by
        intro hpath
        rw [hpath, hplace] at hdump
        cases hdump
        exact hsame rfl
      rw [if_neg (fun h => hpath h.2)]
      apply Disk.read_eq_of_filePlace hafter
      rw [hnode, if_neg (Ne.symm hsame), if_pos rfl]

theorem WritesProgram.read_dump (h : options.WritesProgram p disk after)
    (hjson : options.json = true) :
    after.read (withExtension options.output "json") = .ok p.dump.toUTF8 := by
  obtain ⟨place, _, _, ⟨hno, _⟩ | ⟨_, dumpPlace, _, hdump, hnode⟩⟩ := h.exists_node?
  · rw [hjson] at hno
    cases hno
  · apply Disk.read_eq_of_filePlace hdump
    rw [hnode, if_pos rfl]

theorem WritesProgram.exists_plain (h : options.WritesProgram p disk after) :
    ∃ plain,
      (∀ listing, WritesProgram { options with json := false, listing := listing } p disk plain) ∧
        ∀ other, (options.json = true →
          disk.filePlace (withExtension options.output "json") ≠ .ok other) →
            after.node? other = plain.node? other := by
  obtain ⟨place, hplace, hdump⟩ := h
  refine ⟨disk.put place (.file p.codeText.toUTF8), fun _ => ⟨place, hplace, .unasked rfl⟩, ?_⟩
  intro other hother
  cases hdump with
  | unasked => rfl
  | dump hjson hdump =>
    obtain ⟨_, _, hnode⟩ := Disk.walk_of_filePlace hplace
    obtain ⟨_, _, hnode'⟩ := Disk.walk_of_filePlace hdump
    rw [Disk.node?_put (Disk.ne_nil_of_node? hnode'), if_neg]
    rintro rfl
    exact hother hjson ((Disk.filePlace_put_file_iff hnode _).1 hdump)

theorem WritesProgram.node?_eq (h : options.WritesProgram p disk after) {other : Place}
    (hcode : disk.filePlace options.output ≠ .ok other)
    (hdump : options.json = true →
      disk.filePlace (withExtension options.output "json") ≠ .ok other) :
    after.node? other = disk.node? other := by
  obtain ⟨place, hplace, _, ⟨_, hnode⟩ | ⟨hjson, dumpPlace, hdumpPlace, _, hnode⟩⟩ := h.exists_node?
  · rw [hnode, if_neg]
    rintro rfl
    exact hcode hplace
  · rw [hnode, if_neg, if_neg]
    · rintro rfl
      exact hcode hplace
    · rintro rfl
      exact hdump hjson hdumpPlace

theorem exists_run_plain (hloads : options.Loads disk (.ok limits))
    (hcompiles : options.Compiles limits disk p) {listing : Bool} {plain : Disk}
    (hwrites : WritesProgram { options with json := false, listing := listing } p disk plain) :
    ∃ outcome, (run { options with json := false, listing := listing } : StateM Disk _).run disk =
      (outcome, plain) ∧ outcome.result = .ok p := by
  have hloads' : Loads { options with json := false, listing := listing } disk (.ok limits) := by
    cases hloads with
    | default hconfig => exact .default hconfig
    | limits hconfig htext hlimits => exact .limits hconfig htext hlimits
  obtain ⟨htext, hrecords, hcompile⟩ := hcompiles
  obtain ⟨events, hrun⟩ := run_of_compiles hloads' (.intro htext hrecords hcompile) hwrites
  exact ⟨_, hrun, rfl⟩

/--
A run that succeeds leaves the code of the compiled program in the output file, and with it the dump
in the file with the other extension, if it is asked for. No other place has changed. The code is
overwritten with the dump in just one case: the output file has that extension already. But for the
dump, the same is left on the disk when no dump is asked for, and with or without a listing.
-/
theorem artifact_of_success {outcome : Outcome}
    (hrun : (options.run : StateM Disk _).run disk = (outcome, after))
    (hok : outcome.result = .ok p) :
    (∃ limits, options.Loads disk (.ok limits) ∧ options.Compiles limits disk p) ∧
      after.read options.output =
        .ok (if options.json = true ∧ withExtension options.output "json" = options.output
          then p.dump else p.codeText).toUTF8 ∧
      p.codeText = String.join (p.code.map fun i =>
        toString i.op.code ++ " " ++ toString i.level.toInt ++ " " ++ toString i.modifier.toInt ++
          "\n") ∧
      p.dump ≠ p.codeText ∧
      (options.json = true →
        after.read (withExtension options.output "json") = .ok p.dump.toUTF8) ∧
      (∀ other, disk.filePlace options.output ≠ .ok other →
        (options.json = true →
          disk.filePlace (withExtension options.output "json") ≠ .ok other) →
            after.node? other = disk.node? other) ∧
      outcome.printed = (if options.listing then p.listing else "") ∧
      ∃ plain,
        (∀ listing, ∃ outcome',
          (run { options with json := false, listing := listing } : StateM Disk _).run disk =
            (outcome', plain) ∧ outcome'.result = .ok p) ∧
          plain.read options.output = .ok p.codeText.toUTF8 ∧
            ∀ other, (options.json = true →
              disk.filePlace (withExtension options.output "json") ≠ .ok other) →
                after.node? other = plain.node? other := by
  obtain ⟨⟨limits, hloads, hcompiles⟩, hwrites, hprinted⟩ := exists_of_run hrun hok
  obtain ⟨plain, hplain, hsame⟩ := hwrites.exists_plain
  refine ⟨⟨limits, hloads, hcompiles⟩, hwrites.read_output, p.codeText_eq_join,
    p.dump_ne_codeText, hwrites.read_dump, ?_, hprinted, plain, ?_, ?_, hsame⟩
  · intro other hcode hdump
    exact hwrites.node?_eq hcode hdump
  · intro listing
    exact exists_run_plain hloads hcompiles (hplain listing)
  · exact (hplain options.listing).read_output

/-- `write 7.` -/
def writeSeven : Program := ⟨⟨[], []⟩, .write (.single (.single (.number 7)))⟩

def writeSevenDisk : Disk :=
  Disk.empty.put ["home", "t.txt"] (.file "31 3 7 18".toUTF8)

theorem compiles_writeSeven {options : Options} (hinput : options.input = "t.txt") :
    options.Compiles {} writeSevenDisk writeSeven.target := by
  have htext : writeSevenDisk.ReadsAs options.input (.ok "31 3 7 18") := by
    rw [hinput]
    exact .text rfl rfl
  have hrecords : Token.ofRecords "31 3 7 18" = .ok writeSeven.spelling := rfl
  apply Compiles.intro htext hrecords
  apply compile_eq_ok_iff_program.2
  refine ⟨by decide, by decide, writeSeven, by decide, ?_, ?_, rfl⟩
  · exact ⟨by decide, by decide, by decide⟩
  · exact ⟨by decide, by decide⟩

theorem artifact_of_success_writeSeven :
    withExtension "elf.txt" "json" = "elf.json" ∧
      ∃ outcome after,
        (run { input := "t.txt", json := true, listing := true } : StateM Disk _).run
          writeSevenDisk = (outcome, after) ∧
        outcome.result = .ok writeSeven.target ∧ outcome.printed = writeSeven.target.listing ∧
        after.read "elf.txt" = .ok writeSeven.target.codeText.toUTF8 ∧
        after.read (withExtension "elf.txt" "json") = .ok writeSeven.target.dump.toUTF8 := by
  have hpath : withExtension "elf.txt" "json" = "elf.json" := by decide
  obtain ⟨after, hwrites⟩ : ∃ after, WritesProgram
      { input := "t.txt", json := true, listing := true } writeSeven.target writeSevenDisk after :=
    ⟨_, ["home", "elf.txt"], rfl, .dump rfl rfl⟩
  obtain ⟨events, hrun⟩ := run_of_compiles (.default rfl) (compiles_writeSeven rfl) hwrites
  obtain ⟨_, hcode, _, _, hdump, _, hprinted, _⟩ := artifact_of_success hrun rfl
  rw [if_neg (by simp [hpath])] at hcode
  exact ⟨hpath, _, _, hrun, rfl, hprinted, hcode, hdump rfl⟩

theorem no_code_of_sameExtension :
    ∃ outcome after,
      (run { input := "t.txt", output := "out.json", json := true } : StateM Disk _).run
        writeSevenDisk = (outcome, after) ∧ outcome.result = .ok writeSeven.target ∧
      after.read "out.json" = .ok writeSeven.target.dump.toUTF8 ∧
      after.read "out.json" ≠ .ok writeSeven.target.codeText.toUTF8 := by
  -- The output file has the extension of the dump.
  have hpath : withExtension "out.json" "json" = "out.json" := by decide
  obtain ⟨after, hwrites⟩ : ∃ after, WritesProgram
      { input := "t.txt", output := "out.json", json := true } writeSeven.target writeSevenDisk
      after :=
    ⟨_, ["home", "out.json"], rfl, .dump rfl rfl⟩
  obtain ⟨events, hrun⟩ := run_of_compiles (.default rfl) (compiles_writeSeven rfl) hwrites
  have hread := hwrites.read_dump rfl
  rw [hpath] at hread
  refine ⟨_, _, hrun, rfl, hread, ?_⟩
  rw [hread]
  intro hsame
  apply writeSeven.target.dump_ne_codeText
  exact String.toByteArray_inj.1 (Except.ok.inj hsame)

end Options
end PL0
