/-
# The hand-over of the whitelist

`fwxd` commits a new app-filter whitelist to UCI and then writes `1` to a state file.  Between its
rounds the manager reads the file; when it holds `1`, it loads the whitelist, applies it and writes
`0`.  The steps of any number of API calls come between those of the manager.

* `whitelist_handed_over`: as long as no reset wipes out the notice of a whitelist that was not
  loaded, the kernel has the committed whitelist whenever nothing is under way.
* `whitelist_lost`: a call that commits and writes `1` between the load and the reset is lost.
-/
import Oaf.Lib.Runs
import Oaf.Manager.Device

namespace Oaf

open CLib Prog Runs

/-! ## 1. The two processes -/

/-- Where the manager is: in its start, between rounds, or in a round that found a `1`. -/
inductive ManagerPhase
  | starting
  | startLoaded (macs : List CStr)
  | idle
  | raised
  | loaded (macs : List CStr)
  | applied (macs : List CStr)

/-- The whitelist committed to UCI, whether the state file holds `1`, the API calls between their
two steps, the manager, and the kernel. -/
structure Handover where
  uci : List CStr
  flag : Bool
  pending : Nat
  phase : ManagerPhase
  kernel : FilterKernel

inductive HandoverEvent
  | commit (sections : List CStr)
  | setStateFile
  | checkStateFile
  | load
  | apply
  | resetStateFile

/-- The steps.  All writes are carried out. -/
inductive HandoverStep : Handover → HandoverEvent → Handover → Prop
  | commit (s : Handover) (sections : List CStr) :
      HandoverStep s (.commit sections) { s with uci := sections, pending := s.pending + 1 }
  | setStateFile {s : Handover} {pending : Nat} : s.pending = pending + 1 →
      HandoverStep s .setStateFile { s with flag := true, pending := pending }
  | checkStateFile {s : Handover} : s.phase = .idle →
      HandoverStep s .checkStateFile { s with phase := if s.flag then .raised else .idle }
  | startLoad {s : Handover} : s.phase = .starting →
      HandoverStep s .load { s with phase := .startLoaded (loadAppfilterWhitelist s.uci) }
  | startApply {s : Handover} {macs : List CStr} {r : Bool} {k : FilterKernel} :
      s.phase = .startLoaded macs →
      Ends (DevStep .done) (applyAppfilterWhitelist macs) s.kernel r k →
      HandoverStep s .apply { s with phase := .idle, kernel := k }
  | load {s : Handover} : s.phase = .raised →
      HandoverStep s .load { s with phase := .loaded (loadAppfilterWhitelist s.uci) }
  | apply {s : Handover} {macs : List CStr} {r : Bool} {k : FilterKernel} :
      s.phase = .loaded macs →
      Ends (DevStep .done) (applyAppfilterWhitelist macs) s.kernel r k →
      HandoverStep s .apply { s with phase := .applied macs, kernel := k }
  | resetStateFile {s : Handover} {macs : List CStr} : s.phase = .applied macs →
      HandoverStep s .resetStateFile { s with flag := false, phase := .idle }

/-- **The condition.**  At a reset, an API call is still to write its `1`, or the whitelist that was
loaded has the addresses of the committed one; and what is applied can stand in a JSON string. -/
def HandoverOk (s : Handover) : HandoverEvent → Prop
  | .resetStateFile => ∀ macs, s.phase = .applied macs → 0 < s.pending ∨ macSet macs = macSet s.uci
  | .apply => ∀ macs, s.phase = .startLoaded macs ∨ s.phase = .loaded macs →
      macs.all jsonPlain = true
  | _ => True

/-- The whitelist in the kernel has the committed addresses. -/
def WhitelistCurrent (s : Handover) : Prop :=
  Represents s.kernel.config.gAppFilterWhitelist (macSet s.uci)

/-- Nothing is under way: the file does not hold `1`, no API call is between its two steps, and the
manager is between rounds. -/
def Quiet (s : Handover) : Prop := s.flag = false ∧ s.pending = 0 ∧ s.phase = .idle

/-! ## 2. One whitelist -/

theorem macSet_load (sections : List CStr) :
    macSet (loadAppfilterWhitelist sections) = macSet sections := by
  ext mac
  constructor
  · rintro ⟨text, hmem, hmac⟩
    exact ⟨text, List.mem_of_mem_filter hmem, hmac⟩
  · rintro ⟨text, hmem, hmac⟩
    refine ⟨text, List.mem_filter.mpr ⟨hmem, decide_eq_true ?_⟩, hmac⟩
    rintro rfl
    have hempty : macStrToBin (some CStr.empty) = none := by decide
    exact absurd (hempty.symm.trans hmac) (Option.some_ne_none mac).symm

/-- What `apply_appfilter_whitelist` leaves. -/
theorem wp_applyAppfilterWhitelist {k : FilterKernel} (hmem : k.kmem.AllOk) {macs : List CStr}
    (hread : macs.all jsonPlain = true) :
    wp (DevStep .done) (fun _ => True) (applyAppfilterWhitelist macs)
      (fun _ k' => k'.kmem.AllOk ∧ Represents k'.config.gAppFilterWhitelist (macSet macs)) k := by
  rw [applyAppfilterWhitelist, applyWhitelist, wp_bind]
  refine wp_write rfl rfl fun k1 h1 => ⟨trivial, ?_⟩
  have hmem1 := fwxConfigHandle_allOk hmem h1
  obtain rfl := Option.some.inj h1
  split
  · rename_i hnil
    subst hnil
    exact ⟨hmem1, represents_macSet_nil⟩
  · refine wp_write hread rfl fun k2 h2 => ⟨trivial, fwxConfigHandle_allOk hmem1 h2, ?_⟩
    obtain rfl := Option.some.inj h2
    exact represents_addMacList hmem1 macs

/-! ## 3. Runs -/

/-- What holds in each phase: the flag is up in a round that found it up; outside, the kernel is
current unless some notice is on its way. -/
def PhaseInv (s : Handover) : ManagerPhase → Prop
  | .starting => True
  | .startLoaded macs => s.flag = true ∨ 0 < s.pending ∨ macSet macs = macSet s.uci
  | .idle => s.flag = true ∨ 0 < s.pending ∨ WhitelistCurrent s
  | .raised | .loaded _ => s.flag = true
  | .applied macs => s.flag = true ∧ Represents s.kernel.config.gAppFilterWhitelist (macSet macs)

def HandoverInv (s : Handover) : Prop := s.kernel.kmem.AllOk ∧ PhaseInv s s.phase

/-- The steps of API calls leave the manager where it is, and a notice on its way. -/
theorem phaseInv_of_notice {s t : Handover} {phase : ManagerPhase} (h : PhaseInv s phase)
    (hkernel : t.kernel = s.kernel) (hflag : s.flag = true → t.flag = true)
    (hnotice : t.flag = true ∨ 0 < t.pending) : PhaseInv t phase := by
  cases phase with
  | starting => trivial
  | startLoaded macs => exact hnotice.imp id .inl
  | idle => exact hnotice.imp id .inl
  | raised => exact hflag h
  | loaded macs => exact hflag h
  | applied macs => exact ⟨hflag h.1, hkernel ▸ h.2⟩

theorem handoverStep_inv {s t : Handover} {e : HandoverEvent} (h : HandoverInv s)
    (hok : HandoverOk s e) (hstep : HandoverStep s e t) : HandoverInv t := by
  obtain ⟨hmem, hphase⟩ := h
  cases hstep with
  | commit sections =>
    exact ⟨hmem, phaseInv_of_notice hphase rfl id (.inr (Nat.succ_pos _))⟩
  | setStateFile hpending =>
    exact ⟨hmem, phaseInv_of_notice hphase rfl (fun _ => rfl) (.inl rfl)⟩
  | checkStateFile hidle =>
    refine ⟨hmem, ?_⟩
    rw [hidle] at hphase
    change PhaseInv _ (if s.flag = true then _ else _)
    split
    · rename_i hflag
      exact hflag
    · exact hphase
  | startLoad hstart => exact ⟨hmem, .inr (.inr (macSet_load s.uci))⟩
  | startApply hload hrun =>
    rename_i macs r k
    have hnew := hrun.wp (wp_applyAppfilterWhitelist hmem (hok macs (.inl hload)))
    refine ⟨hnew.1, ?_⟩
    rw [hload] at hphase
    refine hphase.imp id (.imp id fun hsame => ?_)
    rw [WhitelistCurrent, ← hsame]
    exact hnew.2
  | load hraised =>
    rw [hraised] at hphase
    exact ⟨hmem, hphase⟩
  | apply hload hrun =>
    rename_i macs r k
    have hnew := hrun.wp (wp_applyAppfilterWhitelist hmem (hok macs (.inr hload)))
    rw [hload] at hphase
    exact ⟨hnew.1, hphase, hnew.2⟩
  | resetStateFile happlied =>
    rename_i macs
    rw [happlied] at hphase
    refine ⟨hmem, .inr ((hok macs happlied).imp id fun hsame => ?_)⟩
    rw [WhitelistCurrent, ← hsame]
    exact hphase.2

/-- **The whitelist is handed over.**  In every run from the start of the manager whose resets wipe
out no notice, the kernel has the committed whitelist whenever nothing is under way. -/
theorem whitelist_handed_over {s t : Handover} (hmem : s.kernel.kmem.AllOk)
    (hstart : s.phase = .starting) (hrun : Reaches HandoverStep HandoverOk s t) (hquiet : Quiet t) :
    ∀ mac, fwxFindMacNode t.kernel.config.gAppFilterWhitelist mac = true ↔
      ∃ text ∈ t.uci, macStrToBin (some text) = some mac := by
  have hinit : HandoverInv s := ⟨hmem, by rw [hstart]; trivial⟩
  obtain ⟨-, hphase⟩ :=
    hrun.invariant (fun _ _ _ hs hok hstep => handoverStep_inv hs hok hstep) hinit
  obtain ⟨hflag, hpending, hidle⟩ := hquiet
  rw [hidle] at hphase
  rcases hphase with hf | hp | hcurrent
  · exact absurd (hflag.symm.trans hf) Bool.false_ne_true
  · exact absurd hpending hp.ne'
  · exact hcurrent

/-! ## 4. One address is committed -/

def guest : CStr := .lit "02:00:00:00:00:a7"

def noWhitelist : Handover where
  uci := []
  flag := false
  pending := 0
  phase := .starting
  kernel := { kmem := freeMemory }

/-- A whitelist in the kernel after it has been flushed, and the addresses added. -/
def whitelistApplied (k : FilterKernel) (macs : List CStr) : FilterKernel :=
  if macs = [] then fwxApiFlushAppFilterWhitelist k
  else fwxApiAddAppFilterWhitelist (fwxApiFlushAppFilterWhitelist k)
    { macList := some (macs.map some) }

theorem ends_whitelistApplied (k : FilterKernel) (macs : List CStr) :
    Ends (DevStep .done) (applyAppfilterWhitelist macs) k true (whitelistApplied k macs) := by
  rw [whitelistApplied]
  refine .ask (.done (fun _ => rfl) fun _ => rfl) ?_
  split
  · exact .ret _ _
  · exact .ask (.done (fun _ => rfl) fun _ => rfl) (.ret _ _)

/-- The manager has started with an empty whitelist. -/
def managerStarted : Handover :=
  { noWhitelist with phase := .idle, kernel := whitelistApplied noWhitelist.kernel [] }

theorem managerStarted_reached (cond : Handover → HandoverEvent → Prop)
    (hload : cond noWhitelist .load)
    (happly : cond { noWhitelist with phase := .startLoaded [] } .apply) :
    Reaches HandoverStep cond noWhitelist managerStarted :=
  (Reaches.refl.tail hload (.startLoad rfl)).tail happly
    (.startApply rfl (ends_whitelistApplied _ _))

/-- The address is committed, and the file holds `1`. -/
def guestCommitted : Handover := { managerStarted with uci := [guest], flag := true }

/-- A round has been made. -/
def guestApplied : Handover :=
  { guestCommitted with flag := false, kernel := whitelistApplied managerStarted.kernel [guest] }

theorem whitelist_handed_over_guest :
    fwxFindMacNode guestApplied.kernel.config.gAppFilterWhitelist guestMac = true := by
  have hstart : Reaches HandoverStep HandoverOk noWhitelist managerStarted := by
    refine managerStarted_reached HandoverOk trivial ?_
    rintro macs (h | h)
    · obtain rfl := ManagerPhase.startLoaded.inj h
      rfl
    · cases h
  have hcommit := (hstart.tail (e := HandoverEvent.commit [guest]) trivial (.commit _ _)).tail
    (e := HandoverEvent.setStateFile) trivial (.setStateFile rfl)
  have hload := (hcommit.tail (e := HandoverEvent.checkStateFile) trivial (.checkStateFile rfl)).tail
    (e := HandoverEvent.load) trivial (.load rfl)
  have hplain : HandoverOk { guestCommitted with phase := .loaded [guest] } .apply := by
    rintro macs (h | h)
    · cases h
    · obtain rfl := ManagerPhase.loaded.inj h
      decide
  have hreset : HandoverOk { guestApplied with flag := true, phase := .applied [guest] }
      .resetStateFile := by
    intro macs h
    obtain rfl := ManagerPhase.applied.inj h
    exact .inr rfl
  have hrun := (hload.tail hplain (.apply rfl (ends_whitelistApplied _ _))).tail hreset
    (u := guestApplied) (.resetStateFile rfl)
  rw [whitelist_handed_over (fun _ => rfl) rfl hrun ⟨rfl, rfl, rfl⟩ guestMac]
  exact ⟨guest, List.mem_singleton_self _, by decide⟩

/-- **A whitelist that is lost.**  The manager has found a `1` and applied the empty whitelist; an
API call commits an address and writes its `1`; the manager writes `0`. -/
theorem whitelist_lost : ∃ s : Handover, Reaches HandoverStep Always noWhitelist s ∧ Quiet s ∧
    (∃ text ∈ s.uci, macStrToBin (some text) = some guestMac) ∧
    fwxFindMacNode s.kernel.config.gAppFilterWhitelist guestMac = false := by
  have hstart := managerStarted_reached Always trivial trivial
  have hcommit := (hstart.tail (e := HandoverEvent.commit []) trivial (.commit _ _)).tail
    (e := HandoverEvent.setStateFile) trivial (.setStateFile rfl)
  have hload := (hcommit.tail (e := HandoverEvent.checkStateFile) trivial (.checkStateFile rfl)).tail
    (e := HandoverEvent.load) trivial (.load rfl)
  have happly := hload.tail (e := HandoverEvent.apply) trivial (.apply rfl (ends_whitelistApplied _ _))
  have hsecond := (happly.tail (e := HandoverEvent.commit [guest]) trivial (.commit _ _)).tail
    (e := HandoverEvent.setStateFile) trivial (.setStateFile rfl)
  have hrun := hsecond.tail (e := HandoverEvent.resetStateFile) trivial (.resetStateFile rfl)
  exact ⟨_, hrun, ⟨rfl, rfl, rfl⟩, ⟨guest, List.mem_singleton_self _, by decide⟩, by decide⟩

end Oaf
