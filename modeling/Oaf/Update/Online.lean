/-
# Online updates of the feature library

A call starts a worker thread, which downloads a package, checks and unpacks it, moves the library
in it to `FWX_FEATURE_CANDIDATE_PATH` and writes one byte to a pipe.  The main loop reads the pipe,
and processes the candidate (`fwx_feature_online.c`).  Every update uses the same paths, the same
status record and the same flag `online_worker_running`; the byte does not say which update it is
from.

A poll of the status gives an update up after `ONLINE_UPDATE_TIMEOUT` seconds: it reports it as
failed, clears the flag and removes the lock.  The worker is not told, and its transfer alone may
take `ONLINE_DOWNLOAD_TIMEOUT` seconds, which is longer.

The threads take turns at the steps below.  One step is what one thread does between two of its
accesses to what is shared: a section under `online_mutex`, a shell command, a change to a file.
Only the main loop runs calls and reads the pipe, and it finishes one before the next.  What the
system, `curl` and `tar` do in a step is an argument of it.

Updates are numbered as they are started.  The numbers, `ids`, `log` and the `sources` of files are
not in the program: they say which download a file came from, and what was reported of it.
-/
import Mathlib.Data.Finset.Insert
import Oaf.Lib.CText
import Oaf.Lib.KScan
import Oaf.Update.Library

namespace Oaf.Online

open CLib

/-! ## 1. The status -/

def ONLINE_UPDATE_TIMEOUT : Int := 180
def ONLINE_ARCHIVE_MAX : Nat := FWX_FEATURE_MAX_SIZE

inductive StatusState where
  | idle | running | success | failed
deriving DecidableEq

inductive StatusStage where
  | idle | downloading | extracting | validating | applying
deriving DecidableEq

/-- `online_status_t`, less the progress of the download and the time of the last change. -/
structure OnlineStatus where
  state : StatusState := .idle
  stage : StatusStage := .idle
  statusCode : Int := 0
  message : CStr := .empty
  id : CStr := .empty
  iconsSkipped : Bool := false
  startedAt : Int := 0
deriving DecidableEq

/-- `set_status`.  The start of an update that is already running stays, and so does the id. -/
def setStatus (now : Int) (state : StatusState) (stage : StatusStage) (code : Int) (message : CStr)
    (iconsSkipped : Bool) (status : OnlineStatus) : OnlineStatus :=
  { status with
    state, stage, message, iconsSkipped
    statusCode := code
    startedAt :=
      if state = .running then
        if status.state ≠ .running ∨ status.startedAt = 0 then now else status.startedAt
      else 0 }

/-- The seconds `status_data` counts, in an `int`. -/
def elapsed (now : Int) (status : OnlineStatus) : Int :=
  if status.state = .running ∧ 0 < status.startedAt then Kernel.toInt32 (now - status.startedAt)
  else 0

/-- `status_data` gives the update up. -/
def timesOut (now : Int) (status : OnlineStatus) : Bool :=
  ONLINE_UPDATE_TIMEOUT < elapsed now status

/-- What a call answers. -/
inductive Reply where
  | error (code : Int) (message : CStr)
  | status (status : OnlineStatus) (elapsed : Int)
deriving DecidableEq

/-! ## 2. The files -/

/-- A file, and the updates whose downloads its bytes are from. -/
structure OnlineFile where
  bytes : List UInt8 := []
  sources : Finset ℕ := ∅
deriving DecidableEq

/-- `ONLINE_WORK_DIR`.  The archive is an inode, as a worker that has it open writes on when the
name is gone.  `extract` is the directory `ONLINE_EXTRACT_DIR` with the `feature.bin` in it. -/
structure WorkDir where
  archive : Option ℕ := none
  extract : Option (Option OnlineFile) := none
  temp : Option OnlineFile := none

/-- The files: `node` are the inodes, the next new one is `nodes`; `sources` is for the candidate. -/
structure OnlineFiles where
  work : Option WorkDir := none
  node : ℕ → OnlineFile := fun _ => {}
  nodes : ℕ := 0
  feature : FeatureFiles := fun _ => none
  sources : Finset ℕ := ∅

/-- What an `rm -rf` leaves; it may fail, or be stopped. -/
structure Kept where
  archive : Bool := false
  extracted : Bool := false
  extract : Bool := false
  temp : Bool := false
  work : Bool := false

def WorkDir.removeExtract (kept : Kept) (d : WorkDir) : Option (Option OnlineFile) :=
  d.extract.bind fun file =>
    let file := if kept.extracted then file else none
    if kept.extract ∨ file.isSome then some file else none

/-- A directory stays with what is in it. -/
def WorkDir.remove (kept : Kept) (d : WorkDir) : Option WorkDir :=
  let archive := if kept.archive then d.archive else none
  let extract := d.removeExtract kept
  let temp := if kept.temp then d.temp else none
  if kept.work ∨ archive.isSome ∨ extract.isSome ∨ temp.isSome then some ⟨archive, extract, temp⟩
  else none

namespace OnlineFiles

def archive (f : OnlineFiles) : Option ℕ := f.work.bind WorkDir.archive

def extracted (f : OnlineFiles) : Option OnlineFile := f.work.bind fun d => d.extract.join

def temp (f : OnlineFiles) : Option OnlineFile := f.work.bind WorkDir.temp

/-- `cleanup_work_files`. -/
def cleanup (kept : Kept) (f : OnlineFiles) : OnlineFiles :=
  { f with work := f.work.bind (WorkDir.remove kept) }

/-- `mkdir` of the work directory. -/
def mkdirWork (f : OnlineFiles) : Option OnlineFiles :=
  if f.work.isSome then none else some { f with work := some {} }

/-- `fopen` of the archive for writing: the inode, emptied. -/
def fopenArchive (f : OnlineFiles) : Option (ℕ × OnlineFiles) :=
  f.work.map fun d =>
    let i := d.archive.getD f.nodes
    (i, { f with
      work := some { d with archive := some i }
      node := Function.update f.node i {}
      nodes := if d.archive.isSome then f.nodes else f.nodes + 1 })

/-- `file_write`: update `n` writes at its place in the inode. -/
def fwriteArchive (n i size : ℕ) (chunk : List UInt8) (f : OnlineFiles) : OnlineFiles :=
  let file := f.node i
  { f with
    node := Function.update f.node i {
      bytes := file.bytes.take size ++ List.replicate (size - file.bytes.length) 0 ++ chunk ++
        file.bytes.drop (size + chunk.length)
      sources := insert n file.sources } }

/-- `rm -rf ONLINE_EXTRACT_DIR`. -/
def removeExtract (kept : Kept) (f : OnlineFiles) : OnlineFiles :=
  { f with work := f.work.map fun d => { d with extract := d.removeExtract kept } }

/-- `mkdir` of the extract directory. -/
def mkdirExtract (f : OnlineFiles) : Option OnlineFiles :=
  f.work.bind fun d =>
    if d.extract.isSome then none else some { f with work := some { d with extract := some none } }

/-- `tar` on the archive, with the `feature.bin` it wrote; none when there is no archive or no
directory. -/
def untar (feature : Option (List UInt8)) (f : OnlineFiles) : Option OnlineFiles :=
  match f.work with
  | some { archive := some i, extract := some old, temp } =>
    let file := feature.map fun bytes => ⟨bytes, (f.node i).sources⟩
    some { f with work := some ⟨some i, some (file.or old), temp⟩ }
  | _ => none

/-- The extracted file is moved to `ONLINE_FEATURE_TEMP`, when it is not empty or too large; whether
it arrives.  What was there is removed first. -/
def moveTemp (fails : Bool) (f : OnlineFiles) : OnlineFiles × Bool :=
  match f.work with
  | some { archive, extract := some (some file), .. } =>
    if file.bytes.length = 0 ∨ FWX_FEATURE_MAX_SIZE + 24 < file.bytes.length then (f, false)
    else if fails then ({ f with work := some ⟨archive, some (some file), none⟩ }, false)
    else ({ f with work := some ⟨archive, some none, some file⟩ }, true)
  | _ => (f, false)

/-- That file is moved to `FWX_FEATURE_CANDIDATE_PATH`. -/
def moveCandidate (f : OnlineFiles) : Option OnlineFiles :=
  match f.work with
  | some { archive, extract, temp := some file } =>
    some { f with
      work := some ⟨archive, extract, none⟩
      feature := f.feature.set .candidate (some file.bytes)
      sources := file.sources }
  | _ => none

def unlinkCandidate (fails : Bool) (f : OnlineFiles) : OnlineFiles :=
  { f with feature := unlinkFile fails f.feature .candidate }

end OnlineFiles

/-! ### What these do to the files of an update -/

theorem WorkDir.removeExtract_sub {kept : Kept} {d : WorkDir} {file : OnlineFile}
    (h : d.removeExtract kept = some (some file)) : d.extract = some (some file) := by
  unfold removeExtract at h
  cases hd : d.extract with
  | none => simp [hd] at h
  | some old =>
    cases hk : kept.extracted <;> simp [hd, hk] at h
    exact congrArg some h.2

/-- What is left after a removal was there. -/
theorem WorkDir.remove_sub {kept : Kept} {d d' : WorkDir} (h : d.remove kept = some d') :
    (∀ j ∈ d'.archive, d.archive = some j) ∧
    (∀ file ∈ d'.extract.join, d.extract = some (some file)) ∧
    (∀ file ∈ d'.temp, d.temp = some file) := by
  obtain ⟨_, h⟩ := Option.ite_none_right_eq_some.mp h
  cases h
  exact ⟨fun j hj => (Option.ite_none_right_eq_some.mp hj).2,
    fun file hf => removeExtract_sub (Option.join_eq_some_iff.mp hf),
    fun file hf => (Option.ite_none_right_eq_some.mp hf).2⟩

namespace OnlineFiles

/-- What is left after a cleanup was there. -/
theorem cleanup_sub (kept : Kept) (f : OnlineFiles) :
    (∀ j ∈ (f.cleanup kept).archive, j ∈ f.archive) ∧
    (∀ file ∈ (f.cleanup kept).extracted, file ∈ f.extracted) ∧
    (∀ file ∈ (f.cleanup kept).temp, file ∈ f.temp) := by
  have hwork : ∀ d', (f.cleanup kept).work = some d' →
      ∃ d, f.work = some d ∧ d.remove kept = some d' := fun d' h =>
    Option.bind_eq_some_iff.mp h
  refine ⟨fun j hj => ?_, fun file hf => ?_, fun file hf => ?_⟩
  · obtain ⟨d', hd', hj⟩ := Option.bind_eq_some_iff.mp hj
    obtain ⟨d, hd, hrem⟩ := hwork d' hd'
    exact Option.bind_eq_some_iff.mpr ⟨d, hd, (WorkDir.remove_sub hrem).1 j hj⟩
  · obtain ⟨d', hd', hf⟩ := Option.bind_eq_some_iff.mp hf
    obtain ⟨d, hd, hrem⟩ := hwork d' hd'
    exact Option.bind_eq_some_iff.mpr
      ⟨d, hd, Option.join_eq_some_iff.mpr ((WorkDir.remove_sub hrem).2.1 file hf)⟩
  · obtain ⟨d', hd', hf⟩ := Option.bind_eq_some_iff.mp hf
    obtain ⟨d, hd, hrem⟩ := hwork d' hd'
    exact Option.bind_eq_some_iff.mpr ⟨d, hd, (WorkDir.remove_sub hrem).2.2 file hf⟩

theorem fopenArchive_spec {f files : OnlineFiles} {i : ℕ} (h : f.fopenArchive = some (i, files)) :
    (∀ j ∈ files.archive, j = i) ∧ files.node i = {} := by
  obtain ⟨d, hd, heq⟩ := Option.map_eq_some_iff.mp h
  cases heq
  exact ⟨fun j hj => (Option.some.inj hj).symm, Function.update_self ..⟩

theorem fwriteArchive_sources (n i size : ℕ) (chunk : List UInt8) (f : OnlineFiles) :
    ((f.fwriteArchive n i size chunk).node i).sources = insert n (f.node i).sources := by
  simp [fwriteArchive]

theorem mkdirExtract_spec {f files : OnlineFiles} (h : f.mkdirExtract = some files) :
    files.archive = f.archive ∧ files.node = f.node ∧ files.extracted = none := by
  obtain ⟨d, hd, h⟩ := Option.bind_eq_some_iff.mp h
  split_ifs at h
  cases h
  exact ⟨by simp [archive, hd], rfl, rfl⟩

theorem removeExtract_archive (kept : Kept) (f : OnlineFiles) :
    (f.removeExtract kept).archive = f.archive := by
  cases h : f.work <;> simp [archive, removeExtract, h]

/-- What is unpacked is from the archive, or was there. -/
theorem untar_spec {feature : Option (List UInt8)} {f files : OnlineFiles}
    (h : f.untar feature = some files) :
    ∀ file ∈ files.extracted,
      (∃ i ∈ f.archive, file.sources = (f.node i).sources) ∨ file ∈ f.extracted := by
  unfold untar at h
  split at h
  · rename_i i old temp hwork
    cases h
    intro file hfile
    cases feature with
    | none => exact Or.inr (by simpa [extracted, hwork] using hfile)
    | some bytes =>
      refine Or.inl ⟨i, by simp [archive, hwork], ?_⟩
      simp only [extracted, Option.map_some, Option.some_or, Option.bind_some, Option.join_some,
        Option.mem_def, Option.some.injEq] at hfile
      exact hfile ▸ rfl
  · cases h

theorem moveTemp_spec {fails : Bool} {f : OnlineFiles} (h : (f.moveTemp fails).2 = true) :
    ∀ file ∈ (f.moveTemp fails).1.temp, file ∈ f.extracted := by
  unfold moveTemp at h ⊢
  split at h
  · rename_i archive file temp hwork
    split_ifs at h ⊢
    intro moved hmoved
    simpa [OnlineFiles.temp, extracted, hwork] using hmoved
  · cases h

theorem moveCandidate_spec {f files : OnlineFiles} (h : f.moveCandidate = some files) :
    ∃ file ∈ f.temp, files.sources = file.sources := by
  unfold moveCandidate at h
  split at h
  · rename_i archive extract file hwork
    cases h
    exact ⟨file, by simp [temp, hwork], rfl⟩
  · cases h

end OnlineFiles

/-! ## 3. The threads -/

/-- `online_worker_t`, less what only goes into the URL. -/
structure OnlineUpdate where
  id : CStr
  expectedMd5 : CStr
deriving DecidableEq

/-- The steps of `worker_failed`; behind `stop` they are those of every end, behind `cleanup` those
of `release_upgrade_lock`. -/
inductive Ending where
  | fail (code : Int) (message : CStr)
  | stop | cleanup | unlock
deriving DecidableEq

/-- Where a worker is: what it does next. -/
inductive WorkerPc where
  | begin | clean | mkdir | fopen
  | download (inode size : ℕ)
  | remoteError | md5 | setExtracting | validate
  | removeExtract | mkdirExtract | untar | moveTemp | moveCandidate | icons
  | notify
  | unlink (code : Int) (message : CStr)
  | ending (e : Ending)
  | done
deriving DecidableEq

structure Worker where
  update : OnlineUpdate
  pc : WorkerPc
deriving DecidableEq

/-- Where the main loop is. -/
inductive MainPc where
  | idle
  | lock (u : OnlineUpdate) | stale (u : OnlineUpdate) | credentials (u : OnlineUpdate)
  | begin (u : OnlineUpdate) | setDownloading (u : OnlineUpdate) | create (u : OnlineUpdate)
  | statusData
  | setValidating | validate | setApplying | apply
  | icons (sources : Finset ℕ)
  | success (sources : Finset ℕ) (iconsSkipped : Bool)
  | ending (e : Ending) (reply : Option Reply)
deriving DecidableEq

/-- What was reported and done. -/
inductive Note where
  | failed (n : ℕ)
  | installed (sources : Finset ℕ)
  | success (id : CStr) (sources : Finset ℕ)
deriving DecidableEq

/-- The shared state and the threads.  `lock` is the time of the lock directory, `events` the bytes
in the pipe, `current` the number of the last update; the last note is first in `log`. -/
structure OnlineState where
  now : Int := 0
  status : OnlineStatus := {}
  running : Bool := false
  lock : Option Int := none
  events : ℕ := 0
  files : OnlineFiles := {}
  main : MainPc := .idle
  workers : ℕ → Option Worker := fun _ => none
  reply : Option Reply := none
  current : ℕ := 0
  ids : ℕ → CStr := fun _ => .empty
  log : List Note := []

/-- What the system does in a step: whether the call fails, whether what is looked at is refused,
what is left, arrives, is unpacked, and the error a server's answer has in it. -/
structure Outcome where
  fails : Bool := false
  refused : Bool := false
  kept : Kept := {}
  chunk : List UInt8 := []
  feature : Option (List UInt8) := none
  error : Option (Int × CStr) := none
  faults : ProcessFaults := {}

namespace OnlineState

/-- `set_status` of an update that goes on. -/
def report (stage : StatusStage) (s : OnlineState) : OnlineState :=
  { s with status := setStatus s.now .running stage 0 .empty false s.status }

/-- A step of an end, and the next. -/
def endingStep (o : Outcome) (s : OnlineState) : Ending → OnlineState × Option Ending
  | .fail code message =>
    ({ s with
      status := setStatus s.now .failed .idle code message false s.status
      log := .failed s.current :: s.log }, some .stop)
  | .stop => ({ s with running := false }, some .cleanup)
  | .cleanup => ({ s with files := s.files.cleanup o.kept }, some .unlock)
  | .unlock => ({ s with lock := none }, none)

end OnlineState

/-! ## 4. `online_update_worker` -/

/-- `worker_failed(401, …)` behind a package that is refused. -/
def invalidPackage : WorkerPc := .unlink 401 (.lit "invalid feature library package")

/-- `file_md5_hex` gives the text that was expected. -/
def md5Matches (md5 : List UInt8 → CStr) (expected : CStr) : Option OnlineFile → Bool
  | none => false
  | some file =>
    0 < file.bytes.length && file.bytes.length ≤ ONLINE_ARCHIVE_MAX && md5 file.bytes == expected

/-- A step of the worker of update `n`, and where it is then. -/
def workerStep (md5 : List UInt8 → CStr) (n : ℕ) (u : OnlineUpdate) (o : Outcome)
    (s : OnlineState) : WorkerPc → OnlineState × WorkerPc
  | .begin => (s.report .downloading, .clean)
  | .clean => ({ s with files := s.files.cleanup o.kept }, .mkdir)
  | .mkdir =>
    match s.files.mkdirWork, o.fails with
    | some files, false => ({ s with files }, .fopen)
    | _, _ => (s, .ending (.fail 400 (.lit "failed to prepare download directory")))
  | .fopen =>
    match s.files.fopenArchive, o.fails with
    | some (i, files), false =>
      -- the file is there also when `curl_easy_init` or `build_url` fails behind it
      ({ s with files }, if o.refused then .ending (.fail 400 (.lit "failed to initialize download"))
        else .download i 0)
    | _, _ => (s, .ending (.fail 400 (.lit "failed to initialize download")))
  | .download i size =>
    if o.chunk ≠ [] then
      if ONLINE_ARCHIVE_MAX < size + o.chunk.length then
        (s, .ending (.fail 402 (.lit "downloaded file is too large")))
      else
        ({ s with files := s.files.fwriteArchive n i size o.chunk },
          .download i (size + o.chunk.length))
    else if o.fails ∨ size = 0 then
      let error := o.error.getD (400, .lit "subscription request failed")
      (s, .ending (.fail error.1 error.2))
    else (s, .remoteError)
  | .remoteError =>
    match s.files.archive, o.error with
    | some _, some (code, message) => (s, .ending (.fail code message))
    | _, _ => (s, .md5)
  | .md5 =>
    if u.expectedMd5 = .empty then (s, .setExtracting)
    else if o.fails ∨ ¬ md5Matches md5 u.expectedMd5 (s.files.archive.map s.files.node) then
      (s, .ending (.fail 403 (.lit "feature library checksum verification failed")))
    else (s, .setExtracting)
  | .setExtracting => (s.report .extracting, .validate)
  | .validate =>
    if o.refused then
      match o.error with
      | some (code, message) => (s, if code ≠ 400 then .unlink code message else invalidPackage)
      | none => (s, invalidPackage)
    else (s, .removeExtract)
  | .removeExtract =>
    ({ s with files := s.files.removeExtract o.kept },
      if o.fails then invalidPackage else .mkdirExtract)
  | .mkdirExtract =>
    match s.files.mkdirExtract, o.fails with
    | some files, false => ({ s with files }, .untar)
    | _, _ => (s, invalidPackage)
  | .untar =>
    match s.files.untar o.feature with
    | some files => ({ s with files }, if o.fails then invalidPackage else .moveTemp)
    | none => (s, invalidPackage)
  | .moveTemp =>
    if o.refused then (s, invalidPackage)
    else
      let moved := s.files.moveTemp o.fails
      ({ s with files := moved.1 }, if moved.2 then .moveCandidate else invalidPackage)
  | .moveCandidate =>
    match s.files.moveCandidate, o.fails with
    | some files, false => ({ s with files }, .icons)
    | _, _ => (s, invalidPackage)
  | .icons => (s, if o.refused then invalidPackage else .notify)
  | .notify =>
    if o.fails then (s, .unlink 400 (.lit "failed to notify feature update"))
    else ({ s with events := s.events + 1 }, .done)
  | .unlink code message =>
    ({ s with files := s.files.unlinkCandidate o.fails }, .ending (.fail code message))
  | .ending e =>
    ((s.endingStep o e).1, ((s.endingStep o e).2.map WorkerPc.ending).getD .done)
  | .done => (s, .done)

/-! ## 5. The main loop -/

/-- The fields of a request that are looked at, as text; `md5` only when it is a string. -/
structure OnlineRequest where
  id : Option CStr
  md5 : Option CStr := none

def isalnum (c : UInt8) : Bool := isdigit c || (65 ≤ c && c ≤ 90) || (97 ≤ c && c ≤ 122)

def idValid (id : CStr) : Bool :=
  id.strlen != 0 && id.strlen ≤ 64 && id.bytes.all fun c => isalnum c || c == 45 || c == 95

def md5TextValid (md5 : CStr) : Bool := md5.strlen == 32 && md5.bytes.all isxdigit

namespace OnlineState

/-- A call answers and returns. -/
def answer (reply : Reply) (s : OnlineState) : OnlineState :=
  { s with reply := some reply, main := .idle }

/-- `fwx_api_start_feature_online_update` up to the lock; `online_ready` is set. -/
def start (req : OnlineRequest) (s : OnlineState) : OnlineState :=
  match req.id with
  | none => s.answer (.error 400 (.lit "file id is required"))
  | some id =>
    let md5 := req.md5.getD .empty
    if ¬ idValid id then s.answer (.error 400 (.lit "invalid file id"))
    else if md5 ≠ .empty ∧ ¬ md5TextValid md5 then
      s.answer (.error 400 (.lit "invalid feature library md5"))
    else if s.running then s.answer (.error 400 (.lit "feature update is already running"))
    else { s with main := .lock ⟨id, .ofBytes (md5.bytes.map tolower)⟩ }

/-- The next step of the main loop. -/
def mainStep (o : Outcome) (s : OnlineState) : OnlineState :=
  match s.main with
  | .idle => s
  -- `acquire_upgrade_lock`
  | .lock u =>
    match s.lock, o.fails with
    | none, false => { s with lock := some s.now, main := .credentials u }
    | none, true => s.answer (.error 400 (.lit "another feature update is running"))
    | some _, _ => { s with main := .stale u }
  | .stale u =>
    match s.lock with
    | none => s.answer (.error 400 (.lit "another feature update is running"))
    | some t =>
      if s.now - t < 600 then s.answer (.error 400 (.lit "another feature update is running"))
      else if o.fails then
        { s with lock := none }.answer (.error 400 (.lit "another feature update is running"))
      else { s with lock := some s.now, main := .credentials u }
  | .credentials u =>
    if o.fails then
      { s with main := .ending .cleanup (some (.error 400 (.lit "failed to start feature update"))) }
    else if o.refused then
      { s with
        main := .ending .cleanup (some (.error 400 (.lit "token or device information is invalid"))) }
    else { s with main := .begin u }
  | .begin u =>
    { s with
      running := true
      status := { s.status with id := u.id }
      current := s.current + 1
      ids := Function.update s.ids (s.current + 1) u.id
      main := .setDownloading u }
  | .setDownloading u => { s.report .downloading with main := .create u }
  | .create u =>
    -- `pthread_create`
    if o.fails then
      { s with main := .ending .stop (some (.error 400 (.lit "failed to start feature update"))) }
    else
      { s with
        workers := Function.update s.workers s.current (some ⟨u, .begin⟩)
        main := .statusData }
  | .statusData =>
    if timesOut s.now s.status then
      let status := setStatus s.now .failed .idle 408 (.lit "feature update timeout") false s.status
      { s with
        status
        running := false
        log := .failed s.current :: s.log
        main := .ending .cleanup (some (.status status (elapsed s.now s.status))) }
    else s.answer (.status s.status (elapsed s.now s.status))
  -- `online_pipe_handler`
  | .setValidating => { s.report .validating with main := .validate }
  | .validate =>
    if (fwxFeatureValidateCandidate o.faults.validate (s.files.feature .candidate)).1 < 0 then
      { s with
        files := s.files.unlinkCandidate o.faults.unlink
        main := .ending (.fail 401 (.lit "feature library format error")) none }
    else { s with main := .setApplying }
  | .setApplying => { s.report .applying with main := .apply }
  | .apply =>
    let applied := fwxFeatureApplyCandidate o.faults s.files.feature
    let files := { s.files with feature := applied.1 }
    if applied.2 < 0 then
      { s with
        files := files.unlinkCandidate o.faults.unlink
        main := .ending (.fail 400 (.lit "failed to apply feature library")) none }
    else
      { s with
        files
        log := .installed s.files.sources :: s.log
        main := .icons s.files.sources }
  | .icons sources => { s with main := .success sources o.refused }
  | .success sources iconsSkipped =>
    { s with
      status := setStatus s.now .success .idle 200 (.lit "feature library updated") iconsSkipped
        s.status
      log := .success s.status.id sources :: s.log
      main := .ending .stop none }
  | .ending e reply =>
    match s.endingStep o e with
    | (s, some e) => { s with main := .ending e reply }
    | (s, none) => { s with main := .idle, reply := reply.or s.reply }

theorem mainStep_apply (o : Outcome) {s : OnlineState} (h : s.main = .apply) :
    (s.mainStep o).files.feature =
      let applied := fwxFeatureApplyCandidate o.faults s.files.feature
      if applied.2 < 0 then unlinkFile o.faults.unlink applied.1 .candidate else applied.1 := by
  unfold mainStep
  rw [h]
  dsimp only
  split <;> rfl

/-- Left alone, the main loop does with the candidate what `fwx_feature_process_candidate` does. -/
theorem mainStep_process (o : Outcome) {s : OnlineState} (h : s.main = .validate) :
    (if (s.mainStep o).main = .setApplying then ((s.mainStep o).mainStep o).mainStep o
      else s.mainStep o).files.feature = (fwxFeatureProcessCandidate o.faults s.files.feature).1 := by
  unfold fwxFeatureProcessCandidate
  by_cases hvalid :
      (fwxFeatureValidateCandidate o.faults.validate (s.files.feature .candidate)).1 < 0
  · have hrefuse : s.mainStep o = { s with
        files := s.files.unlinkCandidate o.faults.unlink
        main := .ending (.fail 401 (.lit "feature library format error")) none } := by
      simp only [mainStep, h, if_pos hvalid]
    rw [if_pos hvalid, hrefuse, if_neg (by simp)]
    rfl
  · have hgo : s.mainStep o = { s with main := .setApplying } := by
      simp only [mainStep, h, if_neg hvalid]
    have hreport : { s with main := .setApplying }.mainStep o =
        { s.report .applying with main := .apply } := rfl
    rw [if_neg hvalid, hgo, if_pos rfl, hreport, mainStep_apply o rfl]
    dsimp only [report]
    split <;> rfl

end OnlineState

/-! ## 6. Runs -/

inductive OnlineEvent where
  | clock (now : Int)
  | start (req : OnlineRequest)
  | poll
  | wake
  | main (o : Outcome)
  | worker (n : ℕ) (o : Outcome)

/-- Time is set, a call or the pipe is taken up, or a thread goes on. -/
def onlineNext (md5 : List UInt8 → CStr) (s : OnlineState) : OnlineEvent → Option OnlineState
  | .clock now => some { s with now }
  | .start req => if s.main = .idle then some (s.start req) else none
  | .poll => if s.main = .idle then some { s with main := .statusData } else none
  | .wake =>
    if s.main = .idle ∧ 0 < s.events then some { s with events := 0, main := .setValidating }
    else none
  | .main o => if s.main = .idle then none else some (s.mainStep o)
  | .worker n o =>
    (s.workers n).map fun w =>
      let next := workerStep md5 n w.update o s w.pc
      { next.1 with
        workers := Function.update next.1.workers n (some { w with pc := next.2 }) }

def onlineStep (md5 : List UInt8 → CStr) (s : OnlineState) (e : OnlineEvent) (t : OnlineState) :
    Prop :=
  onlineNext md5 s e = some t

/-- The daemon has just started; the files and the lock may be left from before. -/
def onlineInit (now : Int) (lock : Option Int) (files : OnlineFiles) : OnlineState :=
  { now, lock, files }

end Oaf.Online
