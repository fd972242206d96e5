/-
# The feature library and its backup

The library is at `FWX_FEATURE_BIN_PATH`, an older one at `FWX_FEATURE_BACKUP_PATH`.
`fwx_feature_apply_candidate` copies the first over the second and then a candidate over the first;
`reload_feature` copies the second over the first when the first does not decrypt.  Any call of any
of these steps may fail.

What is copied is not looked at.  A library that no longer decrypts is still backed up, over the good
backup, and the candidate may then not arrive; and a library that only could not be read is
replaced by the backup, good or not.

* `copyFileAtomic_spec`: a copy arrives, or leaves everything but its temporary file as it was.
* `Spoils`: the calls that go wrong, in terms of the files and of the calls that fail.
* `libraryOk_step_iff`: **exactly when one call keeps the library.**
* `library_kept`: so does every run of the others.
-/
import Oaf.Lib.Runs
import Oaf.Update.Container

namespace Oaf

open CLib Runs

/-! ## 1. Files -/

/-- The files these functions touch. -/
inductive FeaturePath where
  | bin | backup | candidate | binTmp | backupTmp | binRestore
deriving DecidableEq

/-- What the paths hold. -/
abbrev FeatureFiles := FeaturePath → Option (List UInt8)

def FeatureFiles.set (d : FeatureFiles) (path : FeaturePath) (file : Option (List UInt8)) :
    FeatureFiles :=
  Function.update d path file

@[simp] theorem FeatureFiles.set_self (d : FeatureFiles) (path : FeaturePath)
    (file : Option (List UInt8)) : d.set path file path = file :=
  Function.update_self ..

@[simp] theorem FeatureFiles.set_of_ne (d : FeatureFiles) {path path' : FeaturePath}
    (file : Option (List UInt8)) (h : path' ≠ path) : d.set path file path' = d path' :=
  Function.update_of_ne h ..

/-- `unlink`, which may fail. -/
def unlinkFile (fails : Bool) (d : FeatureFiles) (path : FeaturePath) : FeatureFiles :=
  if fails then d else d.set path none

/-- Which calls of `copy_file_atomic` fail.  A failed `fwrite` has written some of the bytes. -/
structure CopyFaults where
  read : ReadFaults := {}
  fopen : Bool := false
  fwrite : Option Nat := none
  fflush : Bool := false
  fsync : Bool := false
  fclose : Bool := false
  chmod : Bool := false
  rename : Bool := false
  unlink : Bool := false

/-- `copy_file_atomic`; whether it returns 0. -/
def copyFileAtomic (faults : CopyFaults) (d : FeatureFiles) (source target temporary : FeaturePath) :
    FeatureFiles × Bool :=
  match readFile faults.read (FEATURE_HEADER_SIZE + FWX_FEATURE_MAX_SIZE) (d source) with
  | none => (d, false)
  | some data =>
    if faults.fopen then (unlinkFile faults.unlink d temporary, false)
    else
      match faults.fwrite with
      | some n => (unlinkFile faults.unlink (d.set temporary (some (data.take n))) temporary, false)
      | none =>
        let d := d.set temporary (some data)
        if faults.fflush ∨ faults.fsync ∨ faults.fclose ∨ faults.chmod ∨ faults.rename then
          (unlinkFile faults.unlink d temporary, false)
        else ((d.set temporary none).set target (some data), true)

/-! ## 2. `fwx_feature_validate_candidate` -/

def FWX_FEATURE_DATA_FORMAT : CStr := .lit "v4.0"

def FWX_FEATURE_VALIDATE_DECRYPT_FAILED : Int := -1
def FWX_FEATURE_VALIDATE_INFO_INVALID : Int := -2
def FWX_FEATURE_APPLY_BACKUP_FAILED : Int := -1
def FWX_FEATURE_APPLY_TARGET_FAILED : Int := -2

/-- `fwx_feature_next_line` on the text that is left: the line, which is `none` when it is too long,
and the text behind it. -/
def fwxFeatureNextLine (data : List UInt8) (lineSize : Nat) :
    Option (Option CStr × List UInt8) :=
  if data = [] then none
  else
    let raw := data.takeWhile (· != 10)
    let rest := (data.dropWhile (· != 10)).drop 1
    let line := if raw.getLast? = some 13 then raw.dropLast else raw
    if lineSize ≤ line.length then some (none, rest) else some (some (.ofBytes line), rest)

/-- `sscanf` with a word of at most `n` bytes behind `skip` bytes; without one the old value stays. -/
def scanWord (line : CStr) (skip n : Nat) (old : CStr) : CStr :=
  let word := (((line.bytes.drop skip).dropWhile isspace).takeWhile (fun c => !isspace c)).take n
  if word = [] then old else .ofBytes word

theorem fwxFeatureNextLine_lt {data rest : List UInt8} {n : Nat} {line : Option CStr}
    (h : fwxFeatureNextLine data n = some (line, rest)) : rest.length < data.length := by
  unfold fwxFeatureNextLine at h
  by_cases hnil : data = []
  · rw [if_pos hnil] at h
    cases h
  · have hpos := List.length_pos_of_ne_nil hnil
    have hdrop : (data.dropWhile (· != 10)).length ≤ data.length :=
      (List.dropWhile_suffix _).length_le
    have hrest : rest = (data.dropWhile (· != 10)).drop 1 := by
      rw [if_neg hnil] at h
      simp only at h
      split_ifs at h with _ _ _
      all_goals
        simp only [Option.some.injEq, Prod.mk.injEq] at h
        exact h.2.symm
    rw [hrest, List.length_drop]
    omega

/-- What a line says of the version and the format. -/
def scanInfoLine (line version format : CStr) : CStr × CStr :=
  if (ascii "#version ").isPrefixOf line.bytes then (scanWord line 9 63 version, format)
  else if (ascii "#format ").isPrefixOf line.bytes then (version, scanWord line 8 31 format)
  else (version, format)

/-- The loop that looks for the version and the format. -/
def readCandidateInfo (data : List UInt8) (version format : CStr) : CStr × CStr :=
  match _h : fwxFeatureNextLine data 1024 with
  | none => (version, format)
  | some (none, rest) => readCandidateInfo rest version format
  | some (some line, rest) =>
    let found := scanInfoLine line version format
    if found.1.strlen ≠ 0 ∧ found.2.strlen ≠ 0 then found
    else readCandidateInfo rest found.1 found.2
termination_by data.length
decreasing_by
  · exact fwxFeatureNextLine_lt _h
  · exact fwxFeatureNextLine_lt _h

theorem readCandidateInfo_line {data rest : List UInt8} {line : CStr}
    (h : fwxFeatureNextLine data 1024 = some (some line, rest)) (version format : CStr) :
    readCandidateInfo data version format =
      if (scanInfoLine line version format).1.strlen ≠ 0 ∧
        (scanInfoLine line version format).2.strlen ≠ 0 then scanInfoLine line version format
      else readCandidateInfo rest (scanInfoLine line version format).1
        (scanInfoLine line version format).2 := by
  rw [readCandidateInfo]
  split
  · rename_i hnone
    rw [h] at hnone
    cases hnone
  · rename_i hlong
    rw [h] at hlong
    cases hlong
  · rename_i hsome
    rw [h] at hsome
    cases hsome
    rfl

/-- `fwx_feature_validate_candidate`: the return value, the version and the format. -/
def fwxFeatureValidateCandidate (faults : DecryptFaults) (candidate : Option (List UInt8)) :
    Int × CStr × CStr :=
  let r := fwxFeatureDecryptFile faults candidate
  match r.data with
  | none => (FWX_FEATURE_VALIDATE_DECRYPT_FAILED, .empty, .empty)
  | some data =>
    let info := readCandidateInfo (data.take r.dataLen) .empty .empty
    if info.1.strlen ≠ 0 ∧ info.2 = FWX_FEATURE_DATA_FORMAT then (0, info)
    else (FWX_FEATURE_VALIDATE_INFO_INVALID, info)

/-! ## 3. `fwx_feature_process_candidate` and `reload_feature` -/

/-- Which calls of `fwx_feature_process_candidate` fail. -/
structure ProcessFaults where
  validate : DecryptFaults := {}
  access : Bool := false
  backup : CopyFaults := {}
  install : CopyFaults := {}
  unlink : Bool := false

/-- `fwx_feature_apply_candidate` behind the backup. -/
def applyTarget (faults : ProcessFaults) (d : FeatureFiles) : FeatureFiles × Int :=
  let installed := copyFileAtomic faults.install d .candidate .bin .binTmp
  if installed.2 then (unlinkFile faults.unlink installed.1 .candidate, 0)
  else (installed.1, FWX_FEATURE_APPLY_TARGET_FAILED)

/-- `fwx_feature_apply_candidate`. -/
def fwxFeatureApplyCandidate (faults : ProcessFaults) (d : FeatureFiles) : FeatureFiles × Int :=
  if (d .bin).isSome ∧ faults.access = false then
    let backedUp := copyFileAtomic faults.backup d .bin .backup .backupTmp
    if backedUp.2 then applyTarget faults backedUp.1
    else (backedUp.1, FWX_FEATURE_APPLY_BACKUP_FAILED)
  else applyTarget faults d

/-- `fwx_feature_process_candidate`: the files, the return value and the status code. -/
def fwxFeatureProcessCandidate (faults : ProcessFaults) (d : FeatureFiles) :
    FeatureFiles × Int × Int :=
  let valid := fwxFeatureValidateCandidate faults.validate (d .candidate)
  if valid.1 < 0 then (unlinkFile faults.unlink d .candidate, valid.1, 401)
  else
    let applied := fwxFeatureApplyCandidate faults d
    if applied.2 < 0 then (unlinkFile faults.unlink applied.1 .candidate, applied.2, 400)
    else (applied.1, 0, 200)

/-- `fwx_feature_restore_backup`. -/
def fwxFeatureRestoreBackup (faults : CopyFaults) (d : FeatureFiles) : FeatureFiles × Bool :=
  copyFileAtomic faults d .backup .bin .binRestore

/-- Which calls of `reload_feature` fail; `load` is the loading of the decrypted text. -/
structure ReloadFaults where
  first : DecryptFaults := {}
  restore : CopyFaults := {}
  second : DecryptFaults := {}
  load : Bool := false

/-- `reload_feature`: the files, and the return value. -/
def reloadFeature (faults : ReloadFaults) (d : FeatureFiles) : FeatureFiles × Int :=
  if (fwxFeatureDecryptFile faults.first (d .bin)).ret < 0 then
    let restored := fwxFeatureRestoreBackup faults.restore d
    if ¬ restored.2 then (restored.1, -1)
    else if (fwxFeatureDecryptFile faults.second (restored.1 .bin)).ret < 0 then (restored.1, -1)
    else (restored.1, if faults.load then -1 else 0)
  else (d, if faults.load then -1 else 0)

/-! ## 4. Calls -/

/-- A call, or a new candidate. -/
inductive LibraryCall where
  | store (candidate : Option (List UInt8))
  | process (faults : ProcessFaults)
  | reload (faults : ReloadFaults)

def libraryCall (d : FeatureFiles) : LibraryCall → FeatureFiles
  | .store candidate => d.set .candidate candidate
  | .process faults => (fwxFeatureProcessCandidate faults d).1
  | .reload faults => (reloadFeature faults d).1

def libraryStep (d : FeatureFiles) (call : LibraryCall) (d' : FeatureFiles) : Prop :=
  d' = libraryCall d call

/-- A container the decryption accepts. -/
def Accepted (file : Option (List UInt8)) : Prop := (fwxFeatureDecryptFile {} file).ret = 0

instance (file : Option (List UInt8)) : Decidable (Accepted file) := by
  unfold Accepted
  infer_instance

/-- **There is a library left.** -/
def LibraryOk (d : FeatureFiles) : Prop := Accepted (d .bin) ∨ Accepted (d .backup)

/-- No call fails. -/
structure ReadFaults.Clean (faults : ReadFaults) : Prop where
  fopen : faults.fopen = false
  fseekEnd : faults.fseekEnd = false
  ftell : faults.ftell = false
  fseekSet : faults.fseekSet = false
  malloc : faults.malloc = false
  fread : faults.fread = false

structure DecryptFaults.Clean (faults : DecryptFaults) : Prop where
  read : faults.read.Clean
  malloc : faults.malloc = false

structure CopyFaults.Clean (faults : CopyFaults) : Prop where
  read : faults.read.Clean
  fopen : faults.fopen = false
  fwrite : faults.fwrite = none
  fflush : faults.fflush = false
  fsync : faults.fsync = false
  fclose : faults.fclose = false
  chmod : faults.chmod = false
  rename : faults.rename = false

/-- A file that can be copied. -/
def Copyable (file : Option (List UInt8)) : Prop :=
  ∃ data, file = some data ∧ 0 < data.length ∧
    data.length ≤ FEATURE_HEADER_SIZE + FWX_FEATURE_MAX_SIZE

/-- **The calls that lose the library.**  A library that is there but no longer accepted is backed up
and its successor does not arrive; or an accepted library could not be read and something else
is restored over it. -/
def Spoils (d : FeatureFiles) : LibraryCall → Prop
  | .store _ => False
  | .process faults =>
    (fwxFeatureValidateCandidate faults.validate (d .candidate)).1 = 0 ∧
      ¬ Accepted (d .bin) ∧ Copyable (d .bin) ∧
      faults.access = false ∧ faults.backup.Clean ∧ ¬ faults.install.Clean
  | .reload faults =>
    Accepted (d .bin) ∧ ¬ faults.first.Clean ∧
      ¬ Accepted (d .backup) ∧ Copyable (d .backup) ∧ faults.restore.Clean

/-! ## 5. Reading and copying -/

theorem Copyable.readFile {file : Option (List UInt8)} (h : Copyable file) {faults : ReadFaults}
    (hf : faults.Clean) :
    readFile faults (FEATURE_HEADER_SIZE + FWX_FEATURE_MAX_SIZE) file = file := by
  obtain ⟨data, rfl, hpos, hmax⟩ := h
  have hsize : ¬ (data.length = 0 ∨ FEATURE_HEADER_SIZE + FWX_FEATURE_MAX_SIZE < data.length) := by
    omega
  simp only [Oaf.readFile, hf.fopen, hf.fseekEnd, hf.ftell, hf.fseekSet, hf.malloc, hf.fread,
    Bool.false_eq_true, false_or, or_false, if_neg hsize, if_false]

/-- A file is read as it is, and then it can be copied and nothing failed. -/
theorem readFile_some {faults : ReadFaults} {file : Option (List UInt8)} {data : List UInt8}
    (h : readFile faults (FEATURE_HEADER_SIZE + FWX_FEATURE_MAX_SIZE) file = some data) :
    file = some data ∧ Copyable file ∧ faults.Clean := by
  cases file with
  | none => cases h
  | some data' =>
    simp only [readFile] at h
    split_ifs at h with h1 h2 h3 h4
    cases h
    simp only [not_or, Bool.not_eq_true] at h1 h2 h3 h4
    exact ⟨rfl, ⟨data, rfl, by omega, by omega⟩,
      ⟨h1, h2.1, h2.2.1, h2.2.2.2.2, h3, h4⟩⟩

/-- **A copy arrives exactly when nothing fails**, and one that does not arrive leaves everything but
its temporary file as it was. -/
theorem copyFileAtomic_spec (faults : CopyFaults) (d : FeatureFiles)
    (source target temporary : FeaturePath) :
    ((copyFileAtomic faults d source target temporary).2 = true ↔
      Copyable (d source) ∧ faults.Clean) ∧
    ∀ path, path ≠ temporary → (copyFileAtomic faults d source target temporary).1 path =
      if (copyFileAtomic faults d source target temporary).2 ∧ path = target then d source
      else d path := by
  have hunlink : ∀ (d' : FeatureFiles) path, path ≠ temporary →
      unlinkFile faults.unlink d' temporary path = d' path := by
    intro d' path hp
    rw [unlinkFile]
    split
    · rfl
    · exact FeatureFiles.set_of_ne d' none hp
  unfold copyFileAtomic
  cases hr : readFile faults.read (FEATURE_HEADER_SIZE + FWX_FEATURE_MAX_SIZE) (d source) with
  | none =>
    refine ⟨⟨fun h => absurd h Bool.false_ne_true, fun h => ?_⟩, fun path _ => by simp⟩
    rw [h.1.readFile h.2.read] at hr
    obtain ⟨data, hd, _⟩ := h.1
    rw [hr] at hd
    cases hd
  | some data =>
    obtain ⟨hsource, hcopy, hclean⟩ := readFile_some hr
    simp only
    by_cases hopen : faults.fopen = true
    · rw [if_pos hopen]
      refine ⟨⟨fun h => absurd h Bool.false_ne_true, fun h => ?_⟩, fun path hp => ?_⟩
      · exact absurd (h.2.fopen.symm.trans hopen) Bool.false_ne_true
      · simpa using hunlink d path hp
    · rw [if_neg hopen]
      cases hwrite : faults.fwrite with
      | some n =>
        refine ⟨⟨fun h => absurd h Bool.false_ne_true, fun h => ?_⟩, fun path hp => ?_⟩
        · have hnone := h.2.fwrite
          rw [hwrite] at hnone
          cases hnone
        · simpa [hp] using hunlink (d.set temporary (some (data.take n))) path hp
      | none =>
        simp only
        by_cases hlate : faults.fflush ∨ faults.fsync ∨ faults.fclose ∨ faults.chmod ∨ faults.rename
        · rw [if_pos hlate]
          refine ⟨⟨fun h => absurd h Bool.false_ne_true, fun h => ?_⟩, fun path hp => ?_⟩
          · have hc := h.2
            simp [hc.fflush, hc.fsync, hc.fclose, hc.chmod, hc.rename] at hlate
          · simpa [hp] using hunlink (d.set temporary (some data)) path hp
        · rw [if_neg hlate]
          simp only [not_or, Bool.not_eq_true] at hlate hopen
          refine ⟨⟨fun _ => ⟨hcopy, ?_⟩, fun _ => rfl⟩, fun path hp => ?_⟩
          · exact ⟨hclean, hopen, hwrite, hlate.1, hlate.2.1, hlate.2.2.1, hlate.2.2.2.1,
              hlate.2.2.2.2⟩
          · by_cases ht : path = target
            · simp [ht, hsource]
            · simp [ht, hp]

theorem decryptFileData_ret (m : Bool) (data : List UInt8) :
    (decryptFileData m data).ret = 0 ↔ m = false ∧ (decryptFileData false data).ret = 0 := by
  cases m with
  | false => simp
  | true =>
    have hfailed : decryptFileData true data = .failed := by
      unfold decryptFileData
      simp only [if_true, ite_self]
    simp [hfailed, DecryptResult.failed]

theorem decryptFileData_cases (m : Bool) (data : List UInt8) :
    decryptFileData m data = .failed ∨ (decryptFileData m data).ret = 0 := by
  simp only [decryptFileData]
  repeat' split
  all_goals simp

/-- A container is accepted whenever nothing fails. -/
theorem fwxFeatureDecryptFile_ret (faults : DecryptFaults) (file : Option (List UInt8)) :
    (fwxFeatureDecryptFile faults file).ret = 0 ↔ Accepted file ∧ faults.Clean := by
  have hcases : ∀ (f : DecryptFaults), (fwxFeatureDecryptFile f file).ret = 0 ↔
      ∃ data, readFile f.read (FEATURE_HEADER_SIZE + FWX_FEATURE_MAX_SIZE) file = some data ∧
        f.malloc = false ∧ (decryptFileData false data).ret = 0 := by
    intro f
    unfold fwxFeatureDecryptFile
    cases readFile f.read (FEATURE_HEADER_SIZE + FWX_FEATURE_MAX_SIZE) file with
    | none => simp [DecryptResult.failed]
    | some data => simp [decryptFileData_ret f.malloc data]
  rw [Accepted, hcases faults, hcases {}]
  constructor
  · rintro ⟨data, hread, hmalloc, hret⟩
    obtain ⟨rfl, hcopy, hclean⟩ := readFile_some hread
    have hnone : ({} : ReadFaults).Clean := ⟨rfl, rfl, rfl, rfl, rfl, rfl⟩
    exact ⟨⟨data, hcopy.readFile hnone, rfl, hret⟩, hclean, hmalloc⟩
  · rintro ⟨⟨data, hread, _, hret⟩, hclean, hmalloc⟩
    obtain ⟨rfl, hcopy, _⟩ := readFile_some hread
    exact ⟨data, hcopy.readFile hclean, hmalloc, hret⟩

theorem fwxFeatureDecryptFile_cases (faults : DecryptFaults) (file : Option (List UInt8)) :
    fwxFeatureDecryptFile faults file = .failed ∨ (fwxFeatureDecryptFile faults file).ret = 0 := by
  unfold fwxFeatureDecryptFile
  cases readFile faults.read (FEATURE_HEADER_SIZE + FWX_FEATURE_MAX_SIZE) file with
  | none => exact Or.inl rfl
  | some data => exact decryptFileData_cases faults.malloc data

theorem fwxFeatureDecryptFile_neg (faults : DecryptFaults) (file : Option (List UInt8)) :
    (fwxFeatureDecryptFile faults file).ret < 0 ↔ ¬ (Accepted file ∧ faults.Clean) := by
  rw [← fwxFeatureDecryptFile_ret]
  rcases fwxFeatureDecryptFile_cases faults file with h | h
  · simp [h, DecryptResult.failed]
  · simp [h]

theorem Accepted.copyable {file : Option (List UInt8)} (h : Accepted file) : Copyable file := by
  unfold Accepted fwxFeatureDecryptFile at h
  cases hr : readFile ({} : DecryptFaults).read (FEATURE_HEADER_SIZE + FWX_FEATURE_MAX_SIZE) file with
  | none =>
    rw [hr] at h
    cases h
  | some data => exact (readFile_some hr).2.1

theorem validate_accepted {faults : DecryptFaults} {candidate : Option (List UInt8)}
    (h : (fwxFeatureValidateCandidate faults candidate).1 = 0) : Accepted candidate := by
  rcases fwxFeatureDecryptFile_cases faults candidate with hfail | hok
  · simp [fwxFeatureValidateCandidate, hfail, DecryptResult.failed,
      FWX_FEATURE_VALIDATE_DECRYPT_FAILED] at h
  · exact ((fwxFeatureDecryptFile_ret faults candidate).mp hok).1

theorem validate_neg_iff (faults : DecryptFaults) (candidate : Option (List UInt8)) :
    (fwxFeatureValidateCandidate faults candidate).1 < 0 ↔
      (fwxFeatureValidateCandidate faults candidate).1 ≠ 0 := by
  unfold fwxFeatureValidateCandidate
  simp only [FWX_FEATURE_VALIDATE_DECRYPT_FAILED, FWX_FEATURE_VALIDATE_INFO_INVALID]
  split
  · simp
  · split <;> simp

/-! ## 6. One call -/

theorem unlinkFile_of_ne (fails : Bool) (d : FeatureFiles) {path path' : FeaturePath}
    (h : path' ≠ path) : unlinkFile fails d path path' = d path' := by
  rw [unlinkFile]
  split
  · rfl
  · exact FeatureFiles.set_of_ne d none h

/-- The two files decide. -/
theorem libraryOk_congr {d d' : FeatureFiles} (hbin : d' .bin = d .bin)
    (hbackup : d' .backup = d .backup) : LibraryOk d' ↔ LibraryOk d := by
  rw [LibraryOk, LibraryOk, hbin, hbackup]

/-- An accepted candidate arrives, or the two files are as before. -/
theorem applyTarget_libraryOk (faults : ProcessFaults) {d : FeatureFiles}
    (hc : Accepted (d .candidate)) :
    LibraryOk (applyTarget faults d).1 ↔ faults.install.Clean ∨ LibraryOk d := by
  obtain ⟨hdone, hfiles⟩ := copyFileAtomic_spec faults.install d .candidate .bin .binTmp
  unfold applyTarget
  generalize copyFileAtomic faults.install d .candidate .bin .binTmp = installed at hdone hfiles ⊢
  obtain ⟨d', arrived⟩ := installed
  have hbin := hfiles .bin (by decide)
  have hbackup := hfiles .backup (by decide)
  cases arrived with
  | true =>
    rw [if_pos ⟨rfl, rfl⟩] at hbin
    refine ⟨fun _ => Or.inl (hdone.mp rfl).2, fun _ => Or.inl ?_⟩
    have hnow : unlinkFile faults.unlink d' .candidate .bin = d .candidate :=
      (unlinkFile_of_ne _ _ (by decide)).trans hbin
    show Accepted (unlinkFile faults.unlink d' .candidate .bin)
    rw [hnow]
    exact hc
  | false =>
    rw [if_neg (by simp)] at hbin hbackup
    have hdirty : ¬ faults.install.Clean := fun hclean =>
      Bool.false_ne_true (hdone.mpr ⟨hc.copyable, hclean⟩)
    simp only [Bool.false_eq_true, if_false, libraryOk_congr hbin hbackup, hdirty, false_or]

/-- **`fwx_feature_apply_candidate`** on an accepted candidate. -/
theorem apply_libraryOk (faults : ProcessFaults) {d : FeatureFiles} (hc : Accepted (d .candidate))
    (h : LibraryOk d) :
    LibraryOk (fwxFeatureApplyCandidate faults d).1 ↔
      ¬ (¬ Accepted (d .bin) ∧ Copyable (d .bin) ∧
        faults.access = false ∧ faults.backup.Clean ∧ ¬ faults.install.Clean) := by
  obtain ⟨hdone, hfiles⟩ := copyFileAtomic_spec faults.backup d .bin .backup .backupTmp
  unfold fwxFeatureApplyCandidate
  by_cases hgo : (d .bin).isSome ∧ faults.access = false
  · rw [if_pos hgo]
    generalize copyFileAtomic faults.backup d .bin .backup .backupTmp = backedUp at hdone hfiles ⊢
    obtain ⟨d', arrived⟩ := backedUp
    have hbin := hfiles .bin (by decide)
    have hbackup := hfiles .backup (by decide)
    cases arrived with
    | false =>
      rw [if_neg (by simp)] at hbin hbackup
      simp only [Bool.false_eq_true, if_false, libraryOk_congr hbin hbackup]
      exact ⟨fun _ hspoil => Bool.false_ne_true (hdone.mpr ⟨hspoil.2.1, hspoil.2.2.2.1⟩), fun _ => h⟩
    | true =>
      -- both files are now the library there was
      obtain ⟨hcopy, hclean⟩ := hdone.mp rfl
      have hcand := hfiles .candidate (by decide)
      rw [if_neg (by simp)] at hbin hcand
      rw [if_pos ⟨rfl, rfl⟩] at hbackup
      have hnow : LibraryOk d' ↔ Accepted (d .bin) := by
        simp only at hbin hbackup
        rw [LibraryOk, hbin, hbackup, or_self]
      have hcand' : Accepted (d' .candidate) := by
        simp only at hcand
        rwa [hcand]
      simp only [if_true, applyTarget_libraryOk faults hcand', hnow, hcopy, hgo.2, hclean, true_and]
      tauto
  · rw [if_neg hgo, applyTarget_libraryOk faults hc]
    refine ⟨fun _ hspoil => hgo ?_, fun _ => Or.inr h⟩
    obtain ⟨data, hdata, _⟩ := hspoil.2.1
    exact ⟨by simp [hdata], hspoil.2.2.1⟩

theorem process_libraryOk (faults : ProcessFaults) {d : FeatureFiles} (h : LibraryOk d) :
    LibraryOk (fwxFeatureProcessCandidate faults d).1 ↔ ¬ Spoils d (.process faults) := by
  unfold fwxFeatureProcessCandidate
  have hunlink : ∀ d' : FeatureFiles, LibraryOk (unlinkFile faults.unlink d' .candidate) ↔
      LibraryOk d' := fun d' =>
    libraryOk_congr (unlinkFile_of_ne _ _ (by decide)) (unlinkFile_of_ne _ _ (by decide))
  by_cases hvalid : (fwxFeatureValidateCandidate faults.validate (d .candidate)).1 < 0
  · rw [if_pos hvalid, hunlink]
    exact ⟨fun _ hspoil => (validate_neg_iff _ _).mp hvalid hspoil.1, fun _ => h⟩
  · rw [if_neg hvalid]
    have hzero : (fwxFeatureValidateCandidate faults.validate (d .candidate)).1 = 0 := by
      by_contra hne
      exact hvalid ((validate_neg_iff _ _).mpr hne)
    have happly := apply_libraryOk faults (validate_accepted hzero) h
    have hspoils : Spoils d (.process faults) ↔ ¬ Accepted (d .bin) ∧ Copyable (d .bin) ∧
        faults.access = false ∧ faults.backup.Clean ∧ ¬ faults.install.Clean := by
      rw [Spoils, hzero]
      simp
    rw [hspoils, ← happly]
    simp only
    split
    · exact hunlink _
    · rfl

theorem reload_libraryOk (faults : ReloadFaults) {d : FeatureFiles} (h : LibraryOk d) :
    LibraryOk (reloadFeature faults d).1 ↔ ¬ Spoils d (.reload faults) := by
  unfold reloadFeature fwxFeatureRestoreBackup
  obtain ⟨hdone, hfiles⟩ := copyFileAtomic_spec faults.restore d .backup .bin .binRestore
  by_cases hfirst : (fwxFeatureDecryptFile faults.first (d .bin)).ret < 0
  · rw [if_pos hfirst]
    rw [fwxFeatureDecryptFile_neg] at hfirst
    generalize copyFileAtomic faults.restore d .backup .bin .binRestore = restored at hdone hfiles ⊢
    obtain ⟨d', arrived⟩ := restored
    have hbin := hfiles .bin (by decide)
    have hbackup := hfiles .backup (by decide)
    have hstate : LibraryOk d' ↔ ¬ Spoils d (.reload faults) := by
      cases arrived with
      | true =>
        obtain ⟨hcopy, hclean⟩ := hdone.mp rfl
        rw [if_pos ⟨rfl, rfl⟩] at hbin
        rw [if_neg (by simp)] at hbackup
        simp only at hbin hbackup
        rw [LibraryOk, hbin, hbackup, or_self]
        unfold LibraryOk at h
        simp only [Spoils, hcopy, hclean, and_true]
        tauto
      | false =>
        rw [if_neg (by simp)] at hbin hbackup
        rw [libraryOk_congr hbin hbackup]
        exact ⟨fun _ hspoil => Bool.false_ne_true (hdone.mpr hspoil.2.2.2), fun _ => h⟩
    simp only
    split
    · exact hstate
    · split <;> exact hstate
  · rw [if_neg hfirst]
    rw [fwxFeatureDecryptFile_neg, not_not] at hfirst
    exact ⟨fun _ hspoil => hspoil.2.1 hfirst.2, fun _ => h⟩

/-- **Exactly when one call keeps the library.** -/
theorem libraryOk_step_iff {d : FeatureFiles} (call : LibraryCall) (h : LibraryOk d) :
    LibraryOk (libraryCall d call) ↔ ¬ Spoils d call := by
  cases call with
  | store candidate =>
    exact ⟨fun _ hspoil => hspoil, fun _ =>
      (libraryOk_congr (FeatureFiles.set_of_ne _ _ (by decide))
        (FeatureFiles.set_of_ne _ _ (by decide))).mpr h⟩
  | process faults => exact process_libraryOk faults h
  | reload faults => exact reload_libraryOk faults h

/-! ## 7. Runs -/

/-- **The library is never lost** in a run none of whose calls spoils it. -/
theorem library_kept {d d' : FeatureFiles} (h : LibraryOk d)
    (hrun : Reaches libraryStep (fun d call => ¬ Spoils d call) d d') : LibraryOk d' :=
  hrun.invariant (fun d call d' hok hcond (hstep : d' = libraryCall d call) =>
    hstep ▸ (libraryOk_step_iff call hok).mpr hcond) h

/-- A small library. -/
def sampleText : List UInt8 := ascii "#version 1\n#format v4.0"

def sampleLibrary : Option (List UInt8) := some (container sampleText 0)

theorem sampleLibrary_decrypted :
    fwxFeatureDecryptFile {} sampleLibrary = ⟨0, some (sampleText ++ [0]), sampleText.length⟩ :=
  decryptFile_container 0 (show 0 < sampleText.length by decide)
    (show sampleText.length ≤ FWX_FEATURE_MAX_SIZE by decide)

theorem sampleLibrary_accepted : Accepted sampleLibrary := by
  rw [Accepted, sampleLibrary_decrypted]

theorem sampleLibrary_valid : (fwxFeatureValidateCandidate {} sampleLibrary).1 = 0 := by
  have hfirst : fwxFeatureNextLine sampleText 1024 =
      some (some (.lit "#version 1"), ascii "#format v4.0") := by decide
  have hsecond : fwxFeatureNextLine (ascii "#format v4.0") 1024 =
      some (some (.lit "#format v4.0"), []) := by decide
  have hinfo : readCandidateInfo sampleText .empty .empty = (.lit "1", .lit "v4.0") := by
    rw [readCandidateInfo_line hfirst, if_neg (by decide), readCandidateInfo_line hsecond,
      if_pos (by decide)]
    decide
  simp only [fwxFeatureValidateCandidate, sampleLibrary_decrypted, List.take_left, hinfo]
  decide

/-- A good library, and a new one that does not arrive. -/
def goodFiles : FeatureFiles
  | .bin => sampleLibrary
  | .candidate => sampleLibrary
  | _ => none

theorem library_kept_good :
    LibraryOk (libraryCall goodFiles (.process { install := { rename := true } })) :=
  have hkeeps : ¬ Spoils goodFiles (.process { install := { rename := true } }) :=
    fun hspoil => hspoil.2.1 sampleLibrary_accepted
  library_kept (d := goodFiles) (Or.inl sampleLibrary_accepted) (Reaches.refl.tail hkeeps rfl)

/-- The library is damaged, its backup good, and the new one does not arrive. -/
def damagedFiles : FeatureFiles
  | .bin => some [0]
  | .backup => sampleLibrary
  | .candidate => sampleLibrary
  | _ => none

theorem library_lost :
    ¬ ∀ d d' : FeatureFiles, LibraryOk d → Reaches libraryStep Always d d' → LibraryOk d' := by
  intro hall
  let call : LibraryCall := .process { install := { rename := true } }
  have hstart : LibraryOk damagedFiles := Or.inr sampleLibrary_accepted
  have hdirty : ¬ ({ rename := true } : CopyFaults).Clean := fun h => by cases h.rename
  have hspoil : Spoils damagedFiles call :=
    ⟨sampleLibrary_valid, by decide, ⟨[0], rfl, by decide, by decide⟩, rfl,
      ⟨⟨rfl, rfl, rfl, rfl, rfl, rfl⟩, rfl, rfl, rfl, rfl, rfl, rfl, rfl⟩, hdirty⟩
  have hend := hall damagedFiles (libraryCall damagedFiles call) hstart
    (Reaches.refl.tail trivial rfl)
  exact (libraryOk_step_iff call hstart).mp hend hspoil

end Oaf
