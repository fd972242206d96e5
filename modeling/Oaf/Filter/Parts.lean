/-
# The parts of the configuration

The requests to `/dev/fwx` are about five things: the rules of either filter, its whitelist, and the whitelist
of the records.  Each request is about one of them, whatever it asks for.

* `fwxConfigHandle_without`: a request changes its own part only, but for the memory it takes and the time stamp
  of the app filter.
-/
import Oaf.Filter.Policy
import Oaf.Filter.MacLists

namespace Oaf

open CLib Chains

inductive FilterPart
  | appRules
  | appWhitelist
  | macRules
  | macWhitelist
  | recordWhitelist
deriving DecidableEq

/-- What a request is about. -/
def FilterCall.part : FilterCall → FilterPart
  | .addAppFilterRule _ | .modAppFilterRule _ | .delAppFilterRule _ | .flushAppFilterRule => .appRules
  | .addAppFilterWhitelist _ | .flushAppFilterWhitelist => .appWhitelist
  | .addMacFilterRule _ | .modMacFilterRule _ | .delMacFilterRule _ | .flushMacFilterRule => .macRules
  | .addMacFilterWhitelist _ | .delMacFilterWhitelist _ | .flushMacFilterWhitelist => .macWhitelist
  | .addRecordWhitelist _ | .delRecordWhitelist _ | .flushRecordWhitelist => .recordWhitelist

/-- The state without its memory and its time stamp. -/
def FilterKernel.lasting (k : FilterKernel) : FilterKernel :=
  { k with kmem := freeMemory, config := { k.config with gAppfilterUpdateJiffies := 0 } }

/-- The state without one part. -/
def FilterKernel.without (k : FilterKernel) : FilterPart → FilterKernel
  | .appRules => { k.lasting.setAppRules [] with gAppRuleCount := 0 }
  | .appWhitelist => { k.lasting with config := { k.lasting.config with gAppFilterWhitelist := fwxMacConfigInit } }
  | .macRules => { k.lasting.setMacRules [] with gMacRuleCount := 0 }
  | .macWhitelist => { k.lasting with config := { k.lasting.config with gMacFilterWhitelist := fwxMacConfigInit } }
  | .recordWhitelist => { k.lasting with gRecordWhitelist := fwxMacConfigInit }

variable {k k' : FilterKernel}

/-! ## 1. App-filter rules -/

theorem fwxAddAppFilterRule_without (k : FilterKernel) (ruleId : Int) :
    (fwxAddAppFilterRule k ruleId).without .appRules = k.without .appRules := by
  rw [fwxAddAppFilterRule]
  split
  · rfl
  split
  · rfl
  dsimp only
  split <;> rfl

theorem fwxApiModAppFilterRule_without (k : FilterKernel) (req : RuleRequest) :
    (fwxApiModAppFilterRule k req).without .appRules = k.without .appRules := by
  rw [fwxApiModAppFilterRule]
  split
  · rfl
  split <;> rfl

theorem fwxDelAppIdFromRule_without {ruleId appId : Int} (h : fwxDelAppIdFromRule k ruleId appId = some k') :
    k'.without .appRules = k.without .appRules := by
  rw [fwxDelAppIdFromRule] at h
  split at h
  · exact Option.some.inj h ▸ rfl
  split at h
  · exact absurd h (Option.some_ne_none _).symm
  split at h <;> exact Option.some.inj h ▸ rfl

theorem foldlM_delAppId_without {ruleId : Int} (appIds : List Nat) (k : FilterKernel)
    (h : appIds.foldlM (fun k (appId : Nat) => fwxDelAppIdFromRule k ruleId appId) k = some k') :
    k'.without .appRules = k.without .appRules := by
  induction appIds generalizing k with
  | nil => exact Option.some.inj h ▸ rfl
  | cons appId rest ih =>
    rw [List.foldlM_cons] at h
    obtain ⟨k1, h1, hrest⟩ := Option.bind_eq_some_iff.mp h
    exact (ih k1 hrest).trans (fwxDelAppIdFromRule_without h1)

theorem fwxApiDelAppFilterRule_without {req : RuleRequest} (h : fwxApiDelAppFilterRule k req = some k') :
    k'.without .appRules = k.without .appRules := by
  rw [fwxApiDelAppFilterRule] at h
  split at h
  · exact Option.some.inj h ▸ rfl
  split at h
  · rw [delAppIdTokenFromRule] at h
    split at h
    · exact fwxDelAppIdFromRule_without (k := k.stamp) h
    · exact foldlM_delAppId_without _ k.stamp h
  · obtain rfl := Option.some.inj h
    rw [fwxDelAppFilterRule]
    split <;> rfl

/-! ## 2. MAC-filter rules -/

theorem fwxAddMacFilterRule_without (k : FilterKernel) (ruleId mode : Int) :
    (fwxAddMacFilterRule k ruleId mode).without .macRules = k.without .macRules := by
  rw [fwxAddMacFilterRule]
  split
  · rfl
  split
  · rfl
  dsimp only
  split <;> rfl

theorem fwxApiModMacFilterRule_without (k : FilterKernel) (req : RuleRequest) :
    (fwxApiModMacFilterRule k req).without .macRules = k.without .macRules := by
  rw [fwxApiModMacFilterRule]
  split
  · rfl
  split <;> rfl

theorem fwxApiDelMacFilterRule_without (k : FilterKernel) (req : RuleRequest) :
    (fwxApiDelMacFilterRule k req).without .macRules = k.without .macRules := by
  rw [fwxApiDelMacFilterRule]
  split
  · rfl
  split
  · split
    · rw [fwxDelMacFromRule]
      split <;> rfl
    · rfl
  · rw [fwxDelMacFilterRule]
    split <;> rfl

/-! ## 3. Requests -/

/-- **A request changes its own part.** -/
theorem fwxConfigHandle_without {call : FilterCall} (h : fwxConfigHandle k call = some k') :
    k'.without call.part = k.without call.part := by
  cases call with
  | delAppFilterRule req => exact fwxApiDelAppFilterRule_without h
  | addAppFilterRule req =>
    obtain rfl := Option.some.inj h
    simp only [fwxApiAddAppFilterRule]
    split
    · rfl
    · exact fwxAddAppFilterRule_without k.stamp _
  | modAppFilterRule req =>
    obtain rfl := Option.some.inj h
    exact fwxApiModAppFilterRule_without k req
  | addAppFilterWhitelist req =>
    obtain rfl := Option.some.inj h
    simp only [fwxApiAddAppFilterWhitelist]
    split <;> rfl
  | addMacFilterRule req =>
    obtain rfl := Option.some.inj h
    simp only [fwxApiAddMacFilterRule]
    split
    · rfl
    · exact fwxAddMacFilterRule_without k _ _
  | modMacFilterRule req =>
    obtain rfl := Option.some.inj h
    exact fwxApiModMacFilterRule_without k req
  | delMacFilterRule req =>
    obtain rfl := Option.some.inj h
    exact fwxApiDelMacFilterRule_without k req
  | _ =>
    obtain rfl := Option.some.inj h
    rfl

end Oaf
