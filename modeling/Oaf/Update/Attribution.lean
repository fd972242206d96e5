/-
# What an online update installs

An update that was reported as failed should install nothing later, and a success should be
reported under the id of the update whose package was installed.  Nothing in a candidate or a pipe
event says whose it is, so this rests on there being one update at a time.

* `Inv`: the flag `online_worker_running` has one holder at a time, which is the last update
  started: its worker up to `notify`, then the byte in the pipe, then the main loop.  What the holder
  has written, at the path it will read next, is its own.
* `update_attributed`: **in every run in which no poll gives up an update that is still at work,**
  what was failed is not installed, and a success is that of its own id.
* `timed_out_update_installed`: a poll that gives an update up lets a second one start, and the
  first is then installed as the second.

Nothing is said of what a run keeps of an update: `rm -rf` of a worker that is done may take away the
files of the next, when the lock is as old as `acquire_upgrade_lock` allows.
-/
import Oaf.Lib.Runs
import Oaf.Update.Online

namespace Oaf.Online

open CLib Runs

/-! ## 1. What is reported -/

/-- A later note against an earlier one: what failed is not installed. -/
def Note.Respects : Note → Note → Prop
  | .installed sources, .failed n => n ∉ sources
  | _, _ => True

/-- **Failed updates stay failed, and a success is that of the update of that id.** -/
structure Attributed (s : OnlineState) : Prop where
  failed : s.log.Pairwise Note.Respects
  success : ∀ id sources, .success id sources ∈ s.log →
    ∃ n, 0 < n ∧ n ≤ s.current ∧ s.ids n = id ∧ sources = {n}

/-! ## 2. The holder of the flag -/

/-- The flag is not cleared yet. -/
def Ending.owns : Ending → Bool
  | .fail _ _ | .stop => true
  | .cleanup | .unlock => false

/-- The worker is on its way to `notify`. -/
def WorkerPc.live : WorkerPc → Bool
  | .ending _ | .done => false
  | _ => true

def WorkerPc.owns : WorkerPc → Bool
  | .ending e => e.owns
  | .done => false
  | _ => true

/-- A call has found the flag clear and not set it yet. -/
def MainPc.preparing : MainPc → Bool
  | .lock _ | .stale _ | .credentials _ | .begin _ => true
  | _ => false

/-- The main loop is on its way to a worker, or to the installation. -/
def MainPc.live : MainPc → Bool
  | .setDownloading _ | .create _ | .setValidating | .validate | .setApplying | .apply => true
  | _ => false

def MainPc.owns : MainPc → Bool
  | .icons _ | .success _ _ => true
  | .ending e _ => e.owns
  | pc => pc.live

/-- A worker or a pipe event is still at work. -/
def Pending (s : OnlineState) : Prop :=
  (∃ n w, s.workers n = some w ∧ w.pc.owns = true) ∨ 0 < s.events

/-- An update can still be installed. -/
def Live (s : OnlineState) : Prop :=
  (∃ n w, s.workers n = some w ∧ w.pc.live = true) ∨ 0 < s.events ∨ s.main.live = true

/-- **No poll gives up an update that is still at work.** -/
def NoOverrun (s : OnlineState) (e : OnlineEvent) : Prop :=
  ∀ o, e = .main o → s.main = .statusData → timesOut s.now s.status = true → ¬ Pending s

theorem WorkerPc.owns_of_live {pc : WorkerPc} (h : pc.live = true) : pc.owns = true := by
  cases pc <;> first | rfl | cases h

theorem WorkerPc.not_live_of_idle {pc : WorkerPc} (h : pc.owns = false) : pc.live = false := by
  by_contra hlive
  rw [owns_of_live (by simpa using hlive)] at h
  cases h

theorem MainPc.owns_of_live {pc : MainPc} (h : pc.live = true) : pc.owns = true := by
  cases pc <;> first | rfl | cases h

theorem MainPc.idle_of_preparing {pc : MainPc} (h : pc.preparing = true) : pc.owns = false := by
  cases pc <;> first | rfl | cases h

/-! ## 3. The files of the holder -/

/-- What the worker of update `n` has written and will read. -/
def WorkerPc.Holds (n : ℕ) (f : OnlineFiles) : WorkerPc → Prop
  | .download i size =>
    (∀ j ∈ f.archive, j = i) ∧ (f.node i).sources ⊆ {n} ∧ (0 < size → n ∈ (f.node i).sources)
  | .remoteError | .md5 | .setExtracting | .validate | .removeExtract | .mkdirExtract =>
    ∀ j ∈ f.archive, (f.node j).sources = {n}
  | .untar => (∀ j ∈ f.archive, (f.node j).sources = {n}) ∧ f.extracted = none
  | .moveTemp => ∀ file ∈ f.extracted, file.sources = {n}
  | .moveCandidate => ∀ file ∈ f.temp, file.sources = {n}
  | .icons | .notify => f.sources = {n}
  | _ => True

/-- The main loop reads the candidate, or has. -/
def MainPc.Holds (n : ℕ) (candidate : Finset ℕ) : MainPc → Prop
  | .setValidating | .validate | .setApplying | .apply => candidate = {n}
  | .icons sources | .success sources _ => sources = {n}
  | _ => True

theorem WorkerPc.holds_of_idle {pc : WorkerPc} (h : pc.live = false) (n : ℕ) (f : OnlineFiles) :
    pc.Holds n f := by
  cases pc <;> trivial

theorem MainPc.holds_of_idle {pc : MainPc} (h : pc.owns = false) (n : ℕ) (candidate : Finset ℕ) :
    pc.Holds n candidate := by
  cases pc <;> trivial

/-- **Removing files takes nothing of what is written.** -/
theorem WorkerPc.Holds.cleanup {pc : WorkerPc} {n : ℕ} {f : OnlineFiles} (h : pc.Holds n f)
    (kept : Kept) : pc.Holds n (f.cleanup kept) := by
  obtain ⟨harchive, hextracted, htemp⟩ := f.cleanup_sub kept
  cases pc with
  | download i size => exact ⟨fun j hj => h.1 j (harchive j hj), h.2⟩
  | remoteError | md5 | setExtracting | validate | removeExtract | mkdirExtract =>
    exact fun j hj => h j (harchive j hj)
  | untar =>
    refine ⟨fun j hj => h.1 j (harchive j hj), Option.eq_none_iff_forall_ne_some.mpr ?_⟩
    intro file hf
    have hold : f.extracted = some file := hextracted file hf
    rw [h.2] at hold
    cases hold
  | moveTemp => exact fun file hf => h file (hextracted file hf)
  | moveCandidate => exact fun file hf => h file (htemp file hf)
  | icons | notify => exact h
  | _ => trivial

/-! ## 4. A step of a worker -/

/-- A step from `s` to `r` changes the status, but for the id, and the files, which are then those of
update `n` where its worker is. -/
structure GoesOn (n : ℕ) (s : OnlineState) (r : OnlineState × WorkerPc) : Prop where
  state : r.1 = { s with status := r.1.status, files := r.1.files }
  id : r.1.status.id = s.status.id
  holds : r.2.Holds n r.1.files

section Steps

variable (md5 : List UInt8 → CStr) {n : ℕ} (u : OnlineUpdate) (o : Outcome) {s : OnlineState}

/-- The archive is opened and is empty then. -/
theorem workerStep_fopen : GoesOn n s (workerStep md5 n u o s .fopen) := by
  dsimp only [workerStep]
  split
  · rename_i i files hopen _
    obtain ⟨harchive, hnode⟩ := OnlineFiles.fopenArchive_spec hopen
    refine ⟨rfl, rfl, ?_⟩
    split
    · trivial
    · exact ⟨harchive, by simp [hnode], fun h => absurd h (lt_irrefl 0)⟩
  · exact ⟨rfl, rfl, trivial⟩

/-- What arrives is written to it; behind the last piece there is something in it. -/
theorem workerStep_download {i size : ℕ} (h : (WorkerPc.download i size).Holds n s.files) :
    GoesOn n s (workerStep md5 n u o s (.download i size)) := by
  obtain ⟨harchive, hsub, hmem⟩ := h
  dsimp only [workerStep]
  split_ifs with hchunk hlarge hend
  · exact ⟨rfl, rfl, trivial⟩
  · have hsources := s.files.fwriteArchive_sources n i size o.chunk
    refine ⟨rfl, rfl, harchive, ?_, fun _ => ?_⟩
    · exact hsources ▸ Finset.insert_subset (Finset.mem_singleton_self n) hsub
    · exact hsources ▸ Finset.mem_insert_self ..
  · exact ⟨rfl, rfl, trivial⟩
  · refine ⟨rfl, rfl, fun j hj => ?_⟩
    rw [harchive j hj]
    have hpos : 0 < size := by omega
    exact hsub.antisymm (Finset.singleton_subset_iff.mpr (hmem hpos))

/-- A directory that could be made is empty. -/
theorem workerStep_mkdirExtract (h : WorkerPc.mkdirExtract.Holds n s.files) :
    GoesOn n s (workerStep md5 n u o s .mkdirExtract) := by
  dsimp only [workerStep]
  split
  · rename_i files hmkdir _
    obtain ⟨harchive, hnode, hnone⟩ := OnlineFiles.mkdirExtract_spec hmkdir
    refine ⟨rfl, rfl, fun j hj => ?_, hnone⟩
    rw [hnode]
    exact h j (harchive ▸ hj)
  · exact ⟨rfl, rfl, trivial⟩

/-- So what is in it behind `tar` is from the archive. -/
theorem workerStep_untar (h : WorkerPc.untar.Holds n s.files) :
    GoesOn n s (workerStep md5 n u o s .untar) := by
  dsimp only [workerStep]
  split
  · rename_i files huntar
    refine ⟨rfl, rfl, ?_⟩
    split
    · trivial
    · intro file hfile
      rcases OnlineFiles.untar_spec huntar file hfile with ⟨i, hi, hsources⟩ | hold
      · exact hsources.trans (h.1 i hi)
      · rw [h.2] at hold
        cases hold
  · exact ⟨rfl, rfl, trivial⟩

theorem workerStep_moveTemp (h : WorkerPc.moveTemp.Holds n s.files) :
    GoesOn n s (workerStep md5 n u o s .moveTemp) := by
  dsimp only [workerStep]
  split
  · exact ⟨rfl, rfl, trivial⟩
  · refine ⟨rfl, rfl, ?_⟩
    dsimp only
    split
    · rename_i hmoved
      exact fun file hfile => h file (OnlineFiles.moveTemp_spec hmoved file hfile)
    · trivial

theorem workerStep_moveCandidate (h : WorkerPc.moveCandidate.Holds n s.files) :
    GoesOn n s (workerStep md5 n u o s .moveCandidate) := by
  dsimp only [workerStep]
  split
  · rename_i files hmove _
    obtain ⟨file, hfile, hsources⟩ := OnlineFiles.moveCandidate_spec hmove
    exact ⟨rfl, rfl, hsources.trans (h file hfile)⟩
  · exact ⟨rfl, rfl, trivial⟩

/-- **A live worker only reports that the update goes on, and writes what it will read.** -/
theorem workerStep_live {pc : WorkerPc} (hlive : pc.live = true) (hne : pc ≠ .notify)
    (h : pc.Holds n s.files) : GoesOn n s (workerStep md5 n u o s pc) := by
  cases pc with
  | begin | setExtracting => exact ⟨rfl, rfl, h⟩
  | clean => exact ⟨rfl, rfl, trivial⟩
  | mkdir =>
    dsimp only [workerStep]
    split <;> exact ⟨rfl, rfl, trivial⟩
  | fopen => exact workerStep_fopen md5 u o
  | download i size => exact workerStep_download md5 u o h
  | remoteError =>
    dsimp only [workerStep]
    split
    · exact ⟨rfl, rfl, trivial⟩
    · exact ⟨rfl, rfl, h⟩
  | md5 =>
    dsimp only [workerStep]
    split_ifs
    · exact ⟨rfl, rfl, h⟩
    · exact ⟨rfl, rfl, trivial⟩
    · exact ⟨rfl, rfl, h⟩
  | validate =>
    dsimp only [workerStep]
    split
    · split
      · refine ⟨rfl, rfl, ?_⟩
        split <;> trivial
      · exact ⟨rfl, rfl, trivial⟩
    · exact ⟨rfl, rfl, h⟩
  | removeExtract =>
    refine ⟨rfl, rfl, ?_⟩
    dsimp only [workerStep]
    split
    · trivial
    · exact fun j hj => h j (by rwa [OnlineFiles.removeExtract_archive] at hj)
  | mkdirExtract => exact workerStep_mkdirExtract md5 u o h
  | untar => exact workerStep_untar md5 u o h
  | moveTemp => exact workerStep_moveTemp md5 u o h
  | moveCandidate => exact workerStep_moveCandidate md5 u o h
  | icons =>
    refine ⟨rfl, rfl, ?_⟩
    dsimp only [workerStep]
    split
    · trivial
    · exact h
  | unlink code message => exact ⟨rfl, rfl, trivial⟩
  | notify => exact absurd rfl hne
  | ending e => cases hlive
  | done => cases hlive

end Steps

/-! ## 5. The invariant -/

/-- One holder at a time, its files, and what was reported. -/
structure Inv (s : OnlineState) : Prop where
  worker : ∀ n w, s.workers n = some w → w.pc.owns = true →
    n = s.current ∧ s.running = true ∧ s.events = 0 ∧ s.main.owns = false
  main : s.main.owns = true → s.running = true ∧ s.events = 0
  event : 0 < s.events → s.running = true
  preparing : s.main.preparing = true → s.running = false
  id : s.status.id = s.ids s.current
  started : s.running = true → 0 < s.current
  failed_le : ∀ n, .failed n ∈ s.log → n ≤ s.current
  live : Live s → .failed s.current ∉ s.log
  workerFiles : ∀ n w, s.workers n = some w → w.pc.Holds n s.files
  eventFiles : 0 < s.events → s.files.sources = {s.current}
  mainFiles : s.main.Holds s.current s.files.sources
  attributed : Attributed s

namespace Inv

variable {s : OnlineState} {n : ℕ} {w : Worker}

theorem mainFiles_of (hi : Inv s) {pc : MainPc} (hpc : s.main = pc) :
    pc.Holds s.current s.files.sources :=
  hpc ▸ hi.mainFiles

/-- A failure is noted of the last update. -/
theorem failed_le_cons (hi : Inv s) : ∀ n, .failed n ∈ Note.failed s.current :: s.log →
    n ≤ s.current := by
  intro n hn
  rcases List.mem_cons.mp hn with h | h
  · exact (Note.failed.inj h).le
  · exact hi.failed_le n h

/-- A note of a failure takes back nothing. -/
theorem attributed_cons (hi : Inv s) : Attributed { s with log := .failed s.current :: s.log } :=
  ⟨List.pairwise_cons.mpr ⟨fun _ _ => trivial, hi.attributed.failed⟩,
    fun id sources h => hi.attributed.success id sources (by simpa using h)⟩

/-- While the main loop or a pipe event holds the flag, no worker does. -/
theorem workers_idle (hi : Inv s) (h : s.main.owns = true ∨ 0 < s.events ∨ s.running = false)
    (hw : s.workers n = some w) : w.pc.owns = false := by
  by_contra hown
  obtain ⟨-, hrun, hevents, hmain⟩ := hi.worker n w hw (by simpa using hown)
  rcases h with h | h | h
  · rw [hmain] at h
    cases h
  · omega
  · rw [hrun] at h
    cases h

theorem workers_hold (hi : Inv s) (h : s.main.owns = true ∨ 0 < s.events ∨ s.running = false)
    (hw : s.workers n = some w) (m : ℕ) (f : OnlineFiles) : w.pc.Holds m f :=
  WorkerPc.holds_of_idle (WorkerPc.not_live_of_idle (hi.workers_idle h hw)) m f

/-- What the thread table says after a worker went on. -/
theorem worker_update {workers : ℕ → Option Worker} {w' v : Worker} {m : ℕ}
    (h : Function.update workers n (some w') m = some v) :
    m = n ∧ v = w' ∨ m ≠ n ∧ workers m = some v := by
  rcases eq_or_ne m n with rfl | hm
  · rw [Function.update_self] at h
    exact Or.inl ⟨rfl, (Option.some.inj h).symm⟩
  · rw [Function.update_of_ne hm] at h
    exact Or.inr ⟨hm, h⟩

/-- When the worker of an update holds the flag, no other does. -/
theorem others_idle (hi : Inv s) (hw : s.workers n = some w) (hown : w.pc.owns = true) {m : ℕ}
    {v : Worker} (hm : m ≠ n) (hv : s.workers m = some v) : v.pc.owns = false := by
  by_contra hown'
  have h1 := (hi.worker n w hw hown).1
  have h2 := (hi.worker m v hv (by simpa using hown')).1
  exact hm (h2.trans h1.symm)

/-- **A live worker goes on** to where it has the files for it. -/
theorem advance (hi : Inv s) (hw : s.workers n = some w) (hlive : w.pc.live = true)
    {pc : WorkerPc} {status : OnlineStatus} (hid : status.id = s.status.id) {files : OnlineFiles}
    (hfiles : pc.Holds n files) :
    Inv { s with
      status, files, workers := Function.update s.workers n (some { w with pc }) } := by
  have hholds := WorkerPc.owns_of_live hlive
  obtain ⟨hn, hrun, hevents, hmain⟩ := hi.worker n w hw hholds
  refine { hi with
    worker := fun m v hv hown' => ?_
    id := hid.trans hi.id
    live := fun _ => hi.live (Or.inl ⟨n, w, hw, hlive⟩)
    workerFiles := fun m v hv => ?_
    eventFiles := fun h => absurd h (by simp [hevents])
    mainFiles := MainPc.holds_of_idle hmain _ _
    attributed := ⟨hi.attributed.failed, hi.attributed.success⟩ }
  · rcases worker_update hv with ⟨rfl, rfl⟩ | ⟨hm, hv⟩
    · exact ⟨hn, hrun, hevents, hmain⟩
    · exact hi.worker m v hv hown'
  · rcases worker_update hv with ⟨rfl, rfl⟩ | ⟨hm, hv⟩
    · exact hfiles
    · exact WorkerPc.holds_of_idle (WorkerPc.not_live_of_idle (hi.others_idle hw hholds hm hv)) m files

/-- **The worker hands over to the pipe.** -/
theorem hand_over (hi : Inv s) (hw : s.workers n = some w) (hpc : w.pc = .notify) :
    Inv { s with
      events := s.events + 1
      workers := Function.update s.workers n (some { w with pc := .done }) } := by
  have hholds : w.pc.owns = true := by rw [hpc]; rfl
  obtain ⟨hn, hrun, hevents, hmain⟩ := hi.worker n w hw hholds
  have hsources : w.pc.Holds n s.files := hi.workerFiles n w hw
  rw [hpc] at hsources
  refine { hi with
    worker := fun m v hv hown => ?_
    main := fun h => absurd h (by simp [hmain])
    event := fun _ => hrun
    live := fun _ => hi.live (Or.inl ⟨n, w, hw, by rw [hpc]; rfl⟩)
    workerFiles := fun m v hv => ?_
    eventFiles := fun _ => hn ▸ hsources
    attributed := ⟨hi.attributed.failed, hi.attributed.success⟩ }
  · rcases worker_update hv with ⟨rfl, rfl⟩ | ⟨hm, hv⟩
    · cases hown
    · rw [hi.others_idle hw hholds hm hv] at hown
      cases hown
  · rcases worker_update hv with ⟨rfl, rfl⟩ | ⟨hm, hv⟩
    · trivial
    · exact hi.workerFiles m v hv

/-- Behind a step to an end, nothing is live when the worker held the flag. -/
theorem not_live (hi : Inv s) (hw : s.workers n = some w) (hown : w.pc.owns = true)
    {t : OnlineState} {w' : Worker} (hworkers : t.workers = Function.update s.workers n (some w'))
    (hidle : w'.pc.live = false) (hevents : t.events = s.events) (hmain : t.main = s.main) :
    ¬ Live t := by
  obtain ⟨-, -, hzero, hquiet⟩ := hi.worker n w hw hown
  rintro (⟨m, v, hv, hlive⟩ | hpos | hlive)
  · rw [hworkers] at hv
    rcases worker_update hv with ⟨rfl, rfl⟩ | ⟨hm, hv⟩
    · rw [hidle] at hlive
      cases hlive
    · rw [WorkerPc.not_live_of_idle (hi.others_idle hw hown hm hv)] at hlive
      cases hlive
  · omega
  · rw [hmain] at hlive
    rw [MainPc.owns_of_live hlive] at hquiet
    cases hquiet

/-- **`worker_failed` reports the failure.** -/
theorem worker_fails (hi : Inv s) (hw : s.workers n = some w) (hown : w.pc.owns = true)
    {status : OnlineStatus} (hid : status.id = s.status.id) :
    Inv { s with
      status
      log := .failed s.current :: s.log
      workers := Function.update s.workers n (some { w with pc := .ending .stop }) } := by
  refine { hi with
    worker := fun m v hv hown' => ?_
    id := hid.trans hi.id
    failed_le := hi.failed_le_cons
    live := fun h => absurd h (hi.not_live hw hown rfl rfl rfl rfl)
    workerFiles := fun m v hv => ?_
    attributed := ⟨hi.attributed_cons.failed, hi.attributed_cons.success⟩ }
  · rcases worker_update hv with ⟨rfl, rfl⟩ | ⟨hm, hv⟩
    · exact hi.worker m w hw hown
    · exact hi.worker m v hv hown'
  · rcases worker_update hv with ⟨rfl, rfl⟩ | ⟨hm, hv⟩
    · trivial
    · exact hi.workerFiles m v hv

/-- **The worker clears the flag.** -/
theorem worker_stops (hi : Inv s) (hw : s.workers n = some w) (hown : w.pc.owns = true) :
    Inv { s with
      running := false
      workers := Function.update s.workers n (some { w with pc := .ending .cleanup }) } := by
  obtain ⟨-, -, hevents, hmain⟩ := hi.worker n w hw hown
  refine { hi with
    worker := fun m v hv hown' => ?_
    main := fun h => absurd h (by simp [hmain])
    event := fun h => absurd h (by simp [hevents])
    preparing := fun _ => rfl
    started := fun h => absurd h (by simp)
    live := fun h => absurd h (hi.not_live hw hown rfl rfl rfl rfl)
    workerFiles := fun m v hv => ?_
    attributed := ⟨hi.attributed.failed, hi.attributed.success⟩ }
  · rcases worker_update hv with ⟨rfl, rfl⟩ | ⟨hm, hv⟩
    · cases hown'
    · rw [hi.others_idle hw hown hm hv] at hown'
      cases hown'
  · rcases worker_update hv with ⟨rfl, rfl⟩ | ⟨hm, hv⟩
    · trivial
    · exact hi.workerFiles m v hv

/-- A worker that has cleared the flag only takes files and the lock away. -/
theorem worker_leaves (hi : Inv s) {pc : WorkerPc} (hpc : pc.owns = false) {lock : Option Int}
    {files : OnlineFiles} (hfiles : files = s.files ∨ ∃ kept, files = s.files.cleanup kept) :
    Inv { s with
      lock, files, workers := Function.update s.workers n (some { w with pc }) } := by
  have hsources : files.sources = s.files.sources := by
    rcases hfiles with rfl | ⟨kept, rfl⟩ <;> rfl
  have hidle := WorkerPc.not_live_of_idle hpc
  refine { hi with
    worker := fun m v hv hown => ?_
    live := fun h => hi.live ?_
    workerFiles := fun m v hv => ?_
    eventFiles := fun h => hsources.trans (hi.eventFiles h)
    mainFiles := hsources ▸ hi.mainFiles
    attributed := ⟨hi.attributed.failed, hi.attributed.success⟩ }
  · rcases worker_update hv with ⟨rfl, rfl⟩ | ⟨hm, hv⟩
    · rw [hpc] at hown
      cases hown
    · exact hi.worker m v hv hown
  · refine h.imp_left ?_
    rintro ⟨m, v, hv, hlive⟩
    rcases worker_update hv with ⟨rfl, rfl⟩ | ⟨hm, hv⟩
    · rw [hidle] at hlive
      cases hlive
    · exact ⟨m, v, hv, hlive⟩
  · rcases worker_update hv with ⟨rfl, rfl⟩ | ⟨-, hv'⟩
    · exact WorkerPc.holds_of_idle hidle _ _
    · have hold := hi.workerFiles m v hv'
      rcases hfiles with rfl | ⟨kept, rfl⟩
      · exact hold
      · exact hold.cleanup kept

/-- **A step of a worker keeps the invariant.** -/
theorem worker_step (md5 : List UInt8 → CStr) (hi : Inv s) (hw : s.workers n = some w)
    (o : Outcome) :
    Inv { (workerStep md5 n w.update o s w.pc).1 with
      workers := Function.update (workerStep md5 n w.update o s w.pc).1.workers n
        (some { w with pc := (workerStep md5 n w.update o s w.pc).2 }) } := by
  by_cases hlive : w.pc.live = true
  · by_cases hnotify : w.pc = .notify
    · rw [hnotify]
      dsimp only [workerStep]
      split
      · exact hi.advance hw hlive rfl trivial
      · exact hi.hand_over hw hnotify
    · have hgo := workerStep_live md5 w.update o hlive hnotify (hi.workerFiles n w hw)
      rw [hgo.state]
      exact hi.advance hw hlive hgo.id hgo.holds
  · cases hpc : w.pc with
    | ending e =>
      have howns : e.owns = true → w.pc.owns = true := fun h => by rw [hpc]; exact h
      cases e with
      | fail code message => exact hi.worker_fails hw (howns rfl) rfl
      | stop => exact hi.worker_stops hw (howns rfl)
      | cleanup => exact hi.worker_leaves rfl (Or.inr ⟨o.kept, rfl⟩)
      | unlock => exact hi.worker_leaves rfl (Or.inl rfl)
    | done => exact hi.worker_leaves rfl (Or.inl rfl)
    | _ => exact absurd (hpc ▸ rfl) hlive

/-! ### The main loop -/

/-- The main loop goes on without the flag. -/
theorem main_moves (hi : Inv s) {pc : MainPc} (hpc : pc.owns = false)
    (hprep : pc.preparing = true → s.running = false) (lock : Option Int) (reply : Option Reply) :
    Inv { s with lock, reply, main := pc } :=
  { hi with
    worker := fun m v hv hown =>
      have ⟨hn, hrun, hevents, _⟩ := hi.worker m v hv hown
      ⟨hn, hrun, hevents, hpc⟩
    main := fun h => absurd h (by simp [hpc])
    preparing := hprep
    live := fun h => hi.live (by
      rcases h with h | h | h
      · exact Or.inl h
      · exact Or.inr (Or.inl h)
      · rw [MainPc.owns_of_live h] at hpc
        cases hpc)
    mainFiles := MainPc.holds_of_idle hpc _ _
    attributed := ⟨hi.attributed.failed, hi.attributed.success⟩ }

/-- The main loop goes on with the flag, and notes something. -/
theorem main_goes (hi : Inv s) (hown : s.main.owns = true) (pc : MainPc) (status : OnlineStatus)
    (files : OnlineFiles) (log : List Note) (hpc : pc.owns = true) (hid : status.id = s.status.id)
    (hholds : pc.Holds s.current files.sources)
    (hle : ∀ n, .failed n ∈ log → n ≤ s.current)
    (hfresh : pc.live = true → .failed s.current ∉ log) (hattr : Attributed { s with log }) :
    Inv { s with status, files, log, main := pc } := by
  obtain ⟨hrun, hevents⟩ := hi.main hown
  refine { hi with
    worker := fun m v hv hown' => ?_
    main := fun _ => ⟨hrun, hevents⟩
    preparing := fun h => ?_
    id := hid.trans hi.id
    failed_le := hle
    live := fun h => hfresh ?_
    workerFiles := fun m v hv => hi.workers_hold (Or.inl hown) hv m files
    eventFiles := fun h => absurd h (by simp [hevents])
    mainFiles := hholds
    attributed := ⟨hattr.failed, hattr.success⟩ }
  · rw [hi.workers_idle (Or.inl hown) hv] at hown'
    cases hown'
  · rw [MainPc.idle_of_preparing h] at hpc
    cases hpc
  · rcases h with ⟨m, v, hv, hlive⟩ | h | h
    · rw [WorkerPc.not_live_of_idle (hi.workers_idle (Or.inl hown) hv)] at hlive
      cases hlive
    · exact absurd h (by simp [hevents])
    · exact h

/-- The same, with nothing to note. -/
theorem main_keeps (hi : Inv s) (hlive : s.main.live = true) (pc : MainPc) (status : OnlineStatus)
    (files : OnlineFiles) (hpc : pc.owns = true) (hid : status.id = s.status.id)
    (hholds : pc.Holds s.current files.sources) : Inv { s with status, files, main := pc } :=
  hi.main_goes (MainPc.owns_of_live hlive) pc status files s.log hpc hid hholds hi.failed_le
    (fun _ => hi.live (Or.inr (Or.inr hlive))) ⟨hi.attributed.failed, hi.attributed.success⟩

/-- **The installation** of what the holder of the flag has downloaded. -/
theorem main_installs (hi : Inv s) (hpc : s.main = .apply) (files : OnlineFiles) :
    Inv { s with
      files, log := .installed s.files.sources :: s.log, main := .icons s.files.sources } := by
  have hlive : s.main.live = true := by rw [hpc]; rfl
  have hfresh := hi.live (Or.inr (Or.inr hlive))
  have hsources : s.files.sources = {s.current} := hi.mainFiles_of hpc
  refine hi.main_goes (MainPc.owns_of_live hlive) (.icons s.files.sources) s.status files _ rfl rfl
    hsources ?_ (fun h => by cases h) ?_
  · exact fun n hn => hi.failed_le n (by simpa using hn)
  · refine ⟨List.pairwise_cons.mpr ⟨fun note hnote => ?_, hi.attributed.failed⟩,
      fun id sources h => hi.attributed.success id sources (by simpa using h)⟩
    cases note with
    | failed n =>
      intro hn
      rw [hsources, Finset.mem_singleton] at hn
      exact hfresh (hn ▸ hnote)
    | _ => trivial

/-- **The success** is reported under the id of that update. -/
theorem main_succeeds (hi : Inv s) {sources : Finset ℕ} {iconsSkipped : Bool}
    (hpc : s.main = .success sources iconsSkipped) (status : OnlineStatus)
    (hid : status.id = s.status.id) :
    Inv { s with
      status, log := .success s.status.id sources :: s.log, main := .ending .stop none } := by
  have hown : s.main.owns = true := by rw [hpc]; rfl
  have hsources : sources = {s.current} := hi.mainFiles_of hpc
  refine hi.main_goes hown (.ending .stop none) status s.files _ rfl hid trivial ?_
    (fun h => by cases h) ?_
  · exact fun n hn => hi.failed_le n (by simpa using hn)
  · refine ⟨List.pairwise_cons.mpr ⟨fun _ _ => trivial, hi.attributed.failed⟩, ?_⟩
    intro id sources' h
    rcases List.mem_cons.mp h with h | h
    · cases h
      exact ⟨s.current, hi.started (hi.main hown).1, le_rfl, hi.id.symm, hsources⟩
    · exact hi.attributed.success id sources' h

/-- `worker_failed` of the main loop. -/
theorem main_fails (hi : Inv s) {code : Int} {message : CStr} {reply : Option Reply}
    (hpc : s.main = .ending (.fail code message) reply) (status : OnlineStatus)
    (hid : status.id = s.status.id) :
    Inv { s with
      status, log := .failed s.current :: s.log, main := .ending .stop reply } := by
  have hown : s.main.owns = true := by rw [hpc]; rfl
  exact hi.main_goes hown (.ending .stop reply) status s.files _ rfl hid trivial hi.failed_le_cons
    (fun h => by cases h) hi.attributed_cons

/-- **The flag is set for a new update**, which is the current one from here on. -/
theorem main_begins (hi : Inv s) {u : OnlineUpdate} (hpc : s.main = .begin u) :
    Inv { s with
      running := true
      status := { s.status with id := u.id }
      current := s.current + 1
      ids := Function.update s.ids (s.current + 1) u.id
      main := .setDownloading u } := by
  have hrun : s.running = false := hi.preparing (by rw [hpc]; rfl)
  have hclear : s.main.owns = true ∨ 0 < s.events ∨ s.running = false := Or.inr (Or.inr hrun)
  have hevents : s.events = 0 := by
    by_contra hne
    rw [hi.event (by omega)] at hrun
    cases hrun
  refine { hi with
    worker := fun m v hv hown => ?_
    main := fun _ => ⟨rfl, hevents⟩
    event := fun _ => rfl
    preparing := fun h => by cases h
    id := by simp
    started := fun _ => Nat.succ_pos _
    failed_le := fun m hm => Nat.le_succ_of_le (hi.failed_le m hm)
    live := fun _ hm => absurd (hi.failed_le _ hm) (Nat.not_succ_le_self _)
    workerFiles := fun m v hv => hi.workers_hold hclear hv m _
    eventFiles := fun h => absurd h (by simp [hevents])
    mainFiles := trivial
    attributed := ⟨hi.attributed.failed, fun id sources h => ?_⟩ }
  · rw [hi.workers_idle hclear hv] at hown
    cases hown
  · obtain ⟨n, hpos, hn, hid, hsources⟩ := hi.attributed.success id sources h
    refine ⟨n, hpos, Nat.le_succ_of_le hn, ?_, hsources⟩
    simpa [Function.update_of_ne (show n ≠ s.current + 1 by omega)] using hid

/-- **The flag passes to the new worker.** -/
theorem main_creates (hi : Inv s) {u : OnlineUpdate} (hpc : s.main = .create u) :
    Inv { s with
      workers := Function.update s.workers s.current (some ⟨u, .begin⟩)
      main := .statusData } := by
  have hlive : s.main.live = true := by rw [hpc]; rfl
  have hown := MainPc.owns_of_live hlive
  obtain ⟨hrun, hevents⟩ := hi.main hown
  refine { hi with
    worker := fun m v hv hown' => ?_
    main := fun h => by cases h
    preparing := fun h => by cases h
    live := fun _ => hi.live (Or.inr (Or.inr hlive))
    workerFiles := fun m v hv => ?_
    mainFiles := trivial
    attributed := ⟨hi.attributed.failed, hi.attributed.success⟩ }
  · rcases worker_update hv with ⟨rfl, rfl⟩ | ⟨-, hv⟩
    · exact ⟨rfl, hrun, hevents, rfl⟩
    · rw [hi.workers_idle (Or.inl hown) hv] at hown'
      cases hown'
  · rcases worker_update hv with ⟨rfl, rfl⟩ | ⟨-, hv⟩
    · trivial
    · exact hi.workerFiles m v hv

/-- Nothing is at work: the flag can be cleared. -/
theorem cleared (hi : Inv s) (hidle : ∀ n w, s.workers n = some w → w.pc.owns = false)
    (hevents : s.events = 0) {pc : MainPc} (hpc : pc.owns = false) {status : OnlineStatus}
    (hid : status.id = s.status.id) {log : List Note} (hle : ∀ n, .failed n ∈ log → n ≤ s.current)
    (hattr : Attributed { s with log }) :
    Inv { s with status, running := false, log, main := pc } := by
  refine { hi with
    worker := fun m v hv hown => ?_
    main := fun h => absurd h (by simp [hpc])
    event := fun h => absurd h (by simp [hevents])
    preparing := fun _ => rfl
    id := hid.trans hi.id
    started := fun h => by cases h
    failed_le := hle
    live := fun h => ?_
    mainFiles := MainPc.holds_of_idle hpc _ _
    attributed := ⟨hattr.failed, hattr.success⟩ }
  · rw [hidle m v hv] at hown
    cases hown
  · rcases h with ⟨m, v, hv, hlive⟩ | h | h
    · rw [WorkerPc.not_live_of_idle (hidle m v hv)] at hlive
      cases hlive
    · exact absurd h (by simp [hevents])
    · rw [MainPc.owns_of_live h] at hpc
      cases hpc

/-- **A poll that gives up what is no longer at work.** -/
theorem main_times_out (hi : Inv s) (hidle : ¬ Pending s) (status : OnlineStatus)
    (hid : status.id = s.status.id) (reply : Option Reply) :
    Inv { s with
      status
      running := false
      log := .failed s.current :: s.log
      main := .ending .cleanup reply } := by
  refine hi.cleared (fun n w hw => ?_) ?_ rfl hid hi.failed_le_cons hi.attributed_cons
  · by_contra hown
    exact hidle (Or.inl ⟨n, w, hw, by simpa using hown⟩)
  · by_contra hevents
    exact hidle (Or.inr (Nat.pos_of_ne_zero hevents))

/-- The main loop clears the flag. -/
theorem main_stops (hi : Inv s) {reply : Option Reply} (hpc : s.main = .ending .stop reply) :
    Inv { s with running := false, main := .ending .cleanup reply } := by
  have hown : s.main.owns = true := by rw [hpc]; rfl
  exact hi.cleared (fun n w hw => hi.workers_idle (Or.inl hown) hw) (hi.main hown).2 rfl rfl
    hi.failed_le ⟨hi.attributed.failed, hi.attributed.success⟩

/-- The main loop takes the files away. -/
theorem main_cleans (hi : Inv s) (reply : Option Reply) (kept : Kept) :
    Inv { s with files := s.files.cleanup kept, main := .ending .unlock reply } :=
  have hmoved : Inv { s with main := .ending .unlock reply } :=
    hi.main_moves rfl (fun h => by cases h) s.lock s.reply
  { hmoved with
    workerFiles := fun m v hv => (hi.workerFiles m v hv).cleanup kept
    eventFiles := hi.eventFiles
    mainFiles := trivial
    attributed := ⟨hi.attributed.failed, hi.attributed.success⟩ }

/-- **A step of the main loop keeps the invariant**, when it gives up nothing that is at work. -/
theorem main_step (hi : Inv s) (o : Outcome)
    (hcond : s.main = .statusData → timesOut s.now s.status = true → ¬ Pending s) :
    Inv (s.mainStep o) := by
  unfold OnlineState.mainStep
  cases hpc : s.main with
  | idle => exact hi
  | lock u =>
    have hrun : s.running = false := hi.preparing (by rw [hpc]; rfl)
    dsimp only
    split <;> exact hi.main_moves rfl (fun _ => hrun) _ _
  | stale u =>
    have hrun : s.running = false := hi.preparing (by rw [hpc]; rfl)
    dsimp only
    split
    · exact hi.main_moves rfl (fun _ => hrun) _ _
    · split_ifs <;> exact hi.main_moves rfl (fun _ => hrun) _ _
  | credentials u =>
    have hrun : s.running = false := hi.preparing (by rw [hpc]; rfl)
    dsimp only
    split_ifs <;> exact hi.main_moves rfl (fun _ => hrun) _ _
  | begin u => exact hi.main_begins hpc
  | setDownloading u =>
    exact hi.main_keeps (by rw [hpc]; rfl) (.create u) (s.report .downloading).status s.files rfl rfl
      trivial
  | create u =>
    dsimp only
    split_ifs
    · exact hi.main_keeps (by rw [hpc]; rfl) (.ending .stop _) s.status s.files rfl rfl trivial
    · exact hi.main_creates hpc
  | statusData =>
    dsimp only
    split_ifs with htime
    · exact hi.main_times_out (hcond hpc htime) (setStatus s.now .failed .idle 408 _ false s.status)
        rfl _
    · exact hi.main_moves rfl (fun h => by cases h) _ _
  | setValidating =>
    have hholds := hi.mainFiles_of hpc
    exact hi.main_keeps (by rw [hpc]; rfl) .validate (s.report .validating).status s.files rfl rfl
      hholds
  | validate =>
    have hholds := hi.mainFiles_of hpc
    dsimp only
    split_ifs
    · exact hi.main_keeps (by rw [hpc]; rfl) (.ending (.fail 401 _) none) s.status
        (s.files.unlinkCandidate o.faults.unlink) rfl rfl trivial
    · exact hi.main_keeps (by rw [hpc]; rfl) .setApplying s.status s.files rfl rfl hholds
  | setApplying =>
    have hholds := hi.mainFiles_of hpc
    exact hi.main_keeps (by rw [hpc]; rfl) .apply (s.report .applying).status s.files rfl rfl hholds
  | apply =>
    dsimp only
    split_ifs
    · exact hi.main_keeps (by rw [hpc]; rfl) (.ending (.fail 400 _) none) s.status _ rfl rfl trivial
    · exact hi.main_installs hpc _
  | icons sources =>
    have hholds := hi.mainFiles_of hpc
    exact hi.main_goes (by rw [hpc]; rfl) (.success sources o.refused) s.status s.files s.log rfl rfl
      hholds hi.failed_le (fun h => by cases h) ⟨hi.attributed.failed, hi.attributed.success⟩
  | success sources iconsSkipped =>
    exact hi.main_succeeds hpc (setStatus s.now .success .idle 200 _ iconsSkipped s.status) rfl
  | ending e reply =>
    cases e with
    | fail code message =>
      exact hi.main_fails hpc (setStatus s.now .failed .idle code message false s.status) rfl
    | stop => exact hi.main_stops hpc
    | cleanup => exact hi.main_cleans reply o.kept
    | unlock => exact hi.main_moves rfl (fun h => by cases h) _ _

end Inv

/-! ## 6. Runs -/

theorem Inv.init (now : Int) (lock : Option Int) (files : OnlineFiles) :
    Inv (onlineInit now lock files) where
  worker := fun _ _ h => by cases h
  main := fun h => by cases h
  event := fun h => absurd h (lt_irrefl 0)
  preparing := fun h => by cases h
  id := rfl
  started := fun h => by cases h
  failed_le := fun _ h => by cases h
  live := fun _ h => by cases h
  workerFiles := fun _ _ h => by cases h
  eventFiles := fun h => absurd h (lt_irrefl 0)
  mainFiles := trivial
  attributed := ⟨List.Pairwise.nil, fun _ _ h => by cases h⟩

/-- A call is taken up. -/
theorem Inv.starts {s : OnlineState} (hi : Inv s) (req : OnlineRequest) : Inv (s.start req) := by
  unfold OnlineState.start
  split
  · exact hi.main_moves rfl (fun h => by cases h) _ _
  · dsimp only
    split_ifs with hid hmd5 hrun
    · exact hi.main_moves rfl (fun h => by cases h) _ _
    · exact hi.main_moves rfl (fun h => by cases h) _ _
    · exact hi.main_moves rfl (fun _ => by simpa using hrun) _ _
    · exact hi.main_moves rfl (fun h => by cases h) _ _

/-- **The pipe is read**: what held the flag was the event. -/
theorem Inv.wakes {s : OnlineState} (hi : Inv s) (hevents : 0 < s.events) :
    Inv { s with events := 0, main := .setValidating } := by
  have hrun := hi.event hevents
  have hpending : s.main.owns = true ∨ 0 < s.events ∨ s.running = false := Or.inr (Or.inl hevents)
  refine { hi with
    worker := fun m v hv hown => ?_
    main := fun _ => ⟨hrun, rfl⟩
    event := fun h => absurd h (lt_irrefl 0)
    preparing := fun h => by cases h
    live := fun _ => hi.live (Or.inr (Or.inl hevents))
    eventFiles := fun h => absurd h (lt_irrefl 0)
    mainFiles := hi.eventFiles hevents
    attributed := ⟨hi.attributed.failed, hi.attributed.success⟩ }
  rw [hi.workers_idle hpending hv] at hown
  cases hown

/-- **A step keeps the invariant**, when it gives up nothing that is at work. -/
theorem Inv.step (md5 : List UInt8 → CStr) {s t : OnlineState} {e : OnlineEvent} (hi : Inv s)
    (hcond : NoOverrun s e) (h : onlineStep md5 s e t) : Inv t := by
  unfold onlineStep onlineNext at h
  cases e with
  | clock now =>
    cases h
    exact { hi with attributed := ⟨hi.attributed.failed, hi.attributed.success⟩ }
  | start req =>
    obtain ⟨-, heq⟩ := Option.ite_none_right_eq_some.mp h
    cases heq
    exact hi.starts req
  | poll =>
    obtain ⟨-, heq⟩ := Option.ite_none_right_eq_some.mp h
    cases heq
    exact hi.main_moves rfl (fun h => by cases h) _ _
  | wake =>
    obtain ⟨⟨-, hevents⟩, heq⟩ := Option.ite_none_right_eq_some.mp h
    cases heq
    exact hi.wakes hevents
  | main o =>
    obtain ⟨-, heq⟩ := Option.ite_none_left_eq_some.mp h
    cases heq
    exact hi.main_step o (hcond o rfl)
  | worker n o =>
    obtain ⟨w, hw, rfl⟩ := Option.map_eq_some_iff.mp h
    exact hi.worker_step md5 hw o

/-- **No run in which nothing is given up that is still at work** installs what was reported as
failed, or reports a success for what another update downloaded. -/
theorem update_attributed (md5 : List UInt8 → CStr) {now : Int} {lock : Option Int}
    {files : OnlineFiles} {s : OnlineState}
    (hrun : Reaches (onlineStep md5) NoOverrun (onlineInit now lock files) s) : Attributed s :=
  (hrun.invariant (fun _ _ _ hi hcond hstep => hi.step md5 hcond hstep)
    (Inv.init now lock files)).attributed

/-! ## 7. Two runs -/

/-- A call that starts the worker of an update. -/
def callEvents (id : String) : List OnlineEvent :=
  .start { id := some (.lit id) } :: List.replicate 6 (.main {})

/-- That worker up to `notify`; its download takes until `now`. -/
def workerEvents (n : ℕ) (now : Int) : List OnlineEvent :=
  List.replicate 4 (.worker n {}) ++ [.worker n { chunk := [0] }, .clock now] ++
    List.replicate 7 (.worker n {}) ++ .worker n { feature := sampleLibrary } ::
    List.replicate 3 (.worker n {})

/-- The main loop reads the pipe and installs the candidate. -/
def handlerEvents : List OnlineEvent := .wake :: List.replicate 6 (.main {})

/-- The status is polled, and the update given up. -/
def pollEvents : List OnlineEvent := [.poll, .main {}, .main {}, .main {}]

/-- No update is given up. -/
def inTime (s : OnlineState) (_ : OnlineEvent) : Bool := !timesOut s.now s.status

theorem inTime_noOverrun (s : OnlineState) (e : OnlineEvent) (h : inTime s e = true) :
    NoOverrun s e := by
  intro _ _ _ htime
  rw [inTime, htime] at h
  cases h

theorem update_attributed_in_time : ∃ s : OnlineState,
    s.log = [.success (.lit "a") {1}, .installed {1}] ∧ Attributed s := by
  have hlog : (runIf inTime (onlineNext fun _ => .empty) (onlineInit 1000 none {})
      (callEvents "a" ++ workerEvents 1 1180 ++ [.worker 1 {}] ++ handlerEvents)).map (·.log) =
      some [.success (.lit "a") {1}, .installed {1}] := by decide +kernel
  obtain ⟨s, hs, hlog⟩ := Option.map_eq_some_iff.mp hlog
  exact ⟨s, hlog, update_attributed (fun _ => .empty) (Reaches.refl.of_runIf inTime_noOverrun hs)⟩

/-- The download takes 181 seconds, and the update is given up when its candidate is ready; another
one is started, and the main loop then reads the pipe: what failed is installed, as a success of the
other. -/
theorem timed_out_update_installed : ∃ s : OnlineState,
    Reaches (onlineStep fun _ => .empty) Always (onlineInit 1000 none {}) s ∧
      s.log = [.success (.lit "b") {1}, .installed {1}, .failed 1] ∧
      ¬ s.log.Pairwise Note.Respects ∧
      ¬ ∀ id sources, .success id sources ∈ s.log → ∃ n, s.ids n = id ∧ sources = {n} := by
  have hrun : (runIf (fun _ _ => true) (onlineNext fun _ => .empty) (onlineInit 1000 none {})
      (callEvents "a" ++ workerEvents 1 1181 ++ pollEvents ++ [.worker 1 {}] ++ callEvents "b" ++
        handlerEvents)).map (fun s => (s.log, s.ids 1)) =
      some ([.success (.lit "b") {1}, .installed {1}, .failed 1], .lit "a") := by decide +kernel
  obtain ⟨s, hs, hlast⟩ := Option.map_eq_some_iff.mp hrun
  obtain ⟨hlog, hid⟩ := Prod.mk.inj hlast
  refine ⟨s, Reaches.refl.of_runIf (fun _ _ _ => trivial) hs, hlog, fun hfailed => ?_,
    fun hsuccess => ?_⟩
  · rw [hlog] at hfailed
    have hrespects := (List.pairwise_cons.mp (List.pairwise_cons.mp hfailed).2).1 (.failed 1) (by simp)
    exact hrespects (Finset.mem_singleton_self 1)
  · obtain ⟨n, hn, hsources⟩ := hsuccess (.lit "b") {1} (by simp [hlog])
    rw [← Finset.singleton_injective hsources, hid] at hn
    exact absurd hn (by decide)

end Oaf.Online
