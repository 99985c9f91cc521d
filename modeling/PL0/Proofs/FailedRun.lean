import PL0.Proofs.CodeText
import PL0.Proofs.Disk

/-!
This module contains what is left on the disk by a run that fails. The output file holds the error,
whatever it held before, and nothing else has changed.
-/

namespace PL0

open StateM (run_bind_of_run)

/-- What comes of reading a file as text. -/
inductive Disk.ReadsAs (disk : Disk) (path : String) : Except FileError String → Prop where
  | text {content : ByteArray} {text : String} (hread : disk.read path = .ok content)
      (htext : String.fromUTF8? content = some text) : ReadsAs disk path (.ok text)
  | notText {content : ByteArray} (hread : disk.read path = .ok content)
      (htext : String.fromUTF8? content = none) : ReadsAs disk path (.error .notText)
  | unreadable {cause : FileError} (hread : disk.read path = .error cause) :
      ReadsAs disk path (.error cause)

namespace Options

/-- What comes of reading the limits of a run. -/
inductive Loads (options : Options) (disk : Disk) : Except RunError Limits → Prop where
  | default (hconfig : options.config = none) : Loads options disk (.ok {})
  | limits {path text : String} {limits : Limits} (hconfig : options.config = some path)
      (htext : disk.ReadsAs path (.ok text)) (hlimits : Limits.ofJson text = .ok limits) :
      Loads options disk (.ok limits)
  | invalid {path text : String} {cause : Limits.ReadError} (hconfig : options.config = some path)
      (htext : disk.ReadsAs path (.ok text)) (hlimits : Limits.ofJson text = .error cause) :
      Loads options disk (.error (.limits path cause))
  | unreadable {path : String} {cause : FileError} (hconfig : options.config = some path)
      (htext : disk.ReadsAs path (.error cause)) :
      Loads options disk (.error (.reading path cause))

/-- The errors on the way from the input file to the code. -/
inductive Fails (options : Options) (limits : Limits) (disk : Disk) : RunError → Prop where
  | reading {cause : FileError} (htext : disk.ReadsAs options.input (.error cause)) :
      Fails options limits disk (.reading options.input cause)
  | records {text : String} {cause : RecordError} (htext : disk.ReadsAs options.input (.ok text))
      (hrecords : Token.ofRecords text = .error cause) :
      Fails options limits disk (.records options.input cause)
  | compiling {text : String} {tokens : List Token} {cause : CompileError}
      (htext : disk.ReadsAs options.input (.ok text)) (hrecords : Token.ofRecords text = .ok tokens)
      (hcompile : (compile tokens limits).result = .error cause) :
      Fails options limits disk (.compiling cause)

end Options

variable {disk : Disk} {options : Options} {limits : Limits} {error : RunError} {path : String}

theorem Disk.ReadsAs.run_readText {result : Except FileError String}
    (h : disk.ReadsAs path result) :
    (FileStore.readText path : StateM Disk _).run disk = (result, disk) := by
  have hrun : (FileStore.read path : StateM Disk _).run disk = (disk.read path, disk) := rfl
  unfold FileStore.readText
  rw [run_bind_of_run hrun]
  cases h with
  | text hread htext =>
    simp only [hread, htext]
    rfl
  | notText hread htext =>
    simp only [hread, htext]
    rfl
  | unreadable hread =>
    simp only [hread]
    rfl

theorem Disk.run_writeText_eq (disk : Disk) (path text : String) :
    (FileStore.writeText path text : StateM Disk _).run disk =
      ((disk.write path text.toUTF8).map fun _ => (),
        (disk.write path text.toUTF8).toOption.getD disk) := by
  have hget : (get : StateM Disk Disk).run disk = (disk, disk) := rfl
  change ((get : StateM Disk Disk) >>= _).run disk = _
  rw [run_bind_of_run hget]
  cases disk.write path text.toUTF8 <;> rfl

theorem Disk.run_writeText {place : Place} (h : disk.filePlace path = .ok place) (text : String) :
    (FileStore.writeText path text : StateM Disk _).run disk =
      (.ok (), disk.put place (.file text.toUTF8)) := by
  rw [run_writeText_eq, write, h]
  rfl

namespace Options

theorem Loads.run_readLimits {result : Except RunError Limits} (h : options.Loads disk result) :
    (options.readLimits : StateM Disk _).run disk = (result, disk) := by
  unfold readLimits
  cases h with
  | default hconfig =>
    rw [hconfig]
    rfl
  | limits hconfig htext hlimits =>
    simp only [hconfig]
    rw [run_bind_of_run htext.run_readText]
    simp only [hlimits]
    rfl
  | invalid hconfig htext hlimits =>
    simp only [hconfig]
    rw [run_bind_of_run htext.run_readText]
    simp only [hlimits]
    rfl
  | unreadable hconfig htext =>
    simp only [hconfig]
    rw [run_bind_of_run htext.run_readText]
    rfl

theorem run_compileInput {text : String} {tokens : List Token}
    (htext : disk.ReadsAs options.input (.ok text)) (hrecords : Token.ofRecords text = .ok tokens)
    (limits : Limits) :
    (options.compileInput limits : StateM Disk _).run disk =
      (((compile tokens limits).result.mapError .compiling,
        .loaded tokens.length options.input :: (compile tokens limits).events), disk) := by
  unfold compileInput
  rw [run_bind_of_run htext.run_readText]
  simp only [hrecords]
  rfl

theorem Fails.run_compileInput (h : options.Fails limits disk error) :
    ∃ events, (options.compileInput limits : StateM Disk _).run disk =
      ((.error error, events), disk) := by
  cases h with
  | reading htext =>
    rw [compileInput, run_bind_of_run htext.run_readText]
    exact ⟨_, rfl⟩
  | records htext hrecords =>
    rw [compileInput, run_bind_of_run htext.run_readText]
    simp only [hrecords]
    exact ⟨_, rfl⟩
  | compiling htext hrecords hcompile =>
    have hrun := Options.run_compileInput htext hrecords limits
    rw [hcompile] at hrun
    exact ⟨_, hrun⟩

theorem run_writeResult {place : Place} (hplace : disk.filePlace options.output = .ok place)
    (error : RunError) :
    (options.writeResult (.error error) : StateM Disk _).run disk =
      (.error error, disk.put place (.file (errorText error.message).toUTF8)) := by
  unfold writeResult
  rw [run_bind_of_run (Disk.run_writeText hplace _)]
  rfl

theorem run_of_loads_error (h : options.Loads disk (.error error)) :
    (options.run : StateM Disk _).run disk = (⟨.error error, "", []⟩, disk) := by
  unfold run
  rw [run_bind_of_run h.run_readLimits]
  rfl

theorem run_of_fails {place : Place} (hloads : options.Loads disk (.ok limits))
    (hplace : disk.filePlace options.output = .ok place) (h : options.Fails limits disk error) :
    ∃ events, (options.run : StateM Disk _).run disk =
      (⟨.error error, "", events⟩, disk.put place (.file (errorText error.message).toUTF8)) := by
  obtain ⟨events, hcompile⟩ := h.run_compileInput
  refine ⟨events, ?_⟩
  unfold run
  rw [run_bind_of_run hloads.run_readLimits]
  dsimp only
  rw [run_bind_of_run hcompile]
  dsimp only
  rw [run_bind_of_run (run_writeResult hplace error)]
  rfl

/--
If the input cannot be read or compiled, the output file holds the message and nothing but it,
whatever it held before and be it the input itself, and no other place has changed. The message
cannot be taken for code. If the limits cannot be read, nothing changes at all.
-/
theorem no_code_of_failure (options : Options) (disk : Disk) :
    (∀ limits place error, options.Loads disk (.ok limits) →
      disk.filePlace options.output = .ok place → options.Fails limits disk error →
        ∃ events after,
          (options.run : StateM Disk _).run disk = (⟨.error error, "", events⟩, after) ∧
            after.read options.output = .ok (error.message ++ "\n").toUTF8 ∧
              (∀ other, after.node? other =
                if other = place then some (.file (error.message ++ "\n").toUTF8)
                else disk.node? other) ∧
                ¬ IsCodeText (error.message ++ "\n").toList) ∧
      (∀ error, options.Loads disk (.error error) →
        (options.run : StateM Disk _).run disk = (⟨.error error, "", []⟩, disk)) ∧
      (∀ program : TargetProgram, program.code ≠ [] → IsCodeText program.codeText.toList) := by
  refine ⟨?_, ?_, ?_⟩
  · intro limits place error hloads hplace hfails
    obtain ⟨_, _, hnode⟩ := Disk.walk_of_filePlace hplace
    obtain ⟨events, hrun⟩ := run_of_fails hloads hplace hfails
    refine ⟨events, _, hrun, ?_, ?_, ?_⟩
    · exact Disk.read_put hplace _
    · exact Disk.node?_put (Disk.ne_nil_of_node? hnode)
    · exact not_isCodeText_errorText error
  · intro error hloads
    exact run_of_loads_error hloads
  · intro program hcode
    exact program.isCodeText_codeText hcode

def staleProgram : TargetProgram := ⟨[⟨.jmp, 0, 3⟩, ⟨.sys, 0, 3⟩], []⟩

/-- The output file is also the input file, and holds code from before. -/
def staleDisk : Disk :=
  Disk.empty.put ["home", "elf.txt"] (.file staleProgram.codeText.toUTF8)

theorem no_code_of_staleDisk :
    IsCodeText staleProgram.codeText.toList ∧
      staleDisk.read "elf.txt" = .ok staleProgram.codeText.toUTF8 ∧
        ∃ events after,
          (run { input := "elf.txt" } : StateM Disk _).run staleDisk =
            (⟨.error (.records "elf.txt" (.unknownKind 2 0)), "", events⟩, after) ∧
          after.read "elf.txt" =
            .ok "Parsing token records in elf.txt: record 2: unknown token kind 0\n".toUTF8 := by
  obtain ⟨hfails, _, hcode⟩ := no_code_of_failure { input := "elf.txt" } staleDisk
  have hread : staleDisk.ReadsAs "elf.txt" (.ok staleProgram.codeText) := .text rfl rfl
  have hfailure : Fails { input := "elf.txt" } {} staleDisk
      (.records "elf.txt" (.unknownKind 2 0)) := .records hread rfl
  obtain ⟨events, after, hrun, hafter, _⟩ :=
    hfails {} ["home", "elf.txt"] _ (.default rfl) rfl hfailure
  refine ⟨hcode staleProgram (List.cons_ne_nil _ _), rfl, events, after, hrun, ?_⟩
  rw [hafter]
  rfl

end Options
end PL0
