/-
# Writes that are carried out

What a program of the manager does when its writes are carried out by the kernel module.

* `wp_write`: one such write, in front of what comes after it.
* `fwxConfigHandle_allOk`: an allocator that never fails stays one.
* `represents_addMacList`: the addresses of some texts, as a list of the kernel.
-/
import Oaf.Filter.MacLists
import Oaf.Manager.Model

namespace Oaf

open CLib Prog

/-! ## 1. Writes -/

variable {k k' : FilterKernel} {P : FilterKernel → Prop} {Q : Bool → FilterKernel → Prop}

/-- A write that is carried out returns true. -/
theorem wp_write {w : DevWrite} (hread : w.readable = true) (hbelow : w.call.belowTop = true)
    (h : ∀ k', fwxConfigHandle k w.call = some k' → P k' ∧ Q true k') :
    wp (DevStep .done) P (request w) Q k := by
  rw [wp_request]
  rintro r k' ⟨hcall, hhandle⟩
  rw [hcall hread] at hhandle
  exact h k' (hhandle hbelow)

/-! ## 2. Memory -/

theorem addMacList_outcome (kmem : Kmem) (config : MacConfig) (macArray : List (Option CStr)) :
    (addMacList kmem config macArray).2.outcome = kmem.outcome := by
  induction macArray generalizing kmem config with
  | nil => rfl
  | cons macStr rest ih =>
    rw [addMacList]
    split
    · exact ih kmem config
    · rename_i mac _
      have hnode : (addMacNode kmem config mac).2.outcome = kmem.outcome :=
        (congrArg Kmem.outcome (addMacNode_snd kmem config mac)).trans rfl
      exact (ih _ _).trans hnode

theorem macAction_outcome (kmem : Kmem) (config : MacConfig) (req : RuleRequest) :
    (macAction kmem config req).2.outcome = kmem.outcome := by
  rw [macAction]
  split
  · rfl
  split
  · split
    · rfl
    · exact addMacList_outcome _ _ _
  split
  · split
    · rfl
    · exact addMacList_outcome _ _ _
  · rfl

theorem appAction_outcome (kmem : Kmem) (config : AppIdConfig) (req : RuleRequest) :
    (appAction kmem config req).2.outcome = kmem.outcome := by
  rw [appAction]
  split
  · rfl
  split
  · split
    · rfl
    · exact addAppIdList_outcome _ _ _
  split
  · split
    · rfl
    · exact addAppIdList_outcome _ _ _
  · rfl

theorem addWhitelist_outcome (kmem : Kmem) (config : MacConfig) (req : RuleRequest) :
    (addWhitelist kmem config req).2.outcome = kmem.outcome := by
  rw [addWhitelist]
  split
  · rfl
  · exact addMacList_outcome _ _ _

theorem fwxDelAppIdFromRule_kmem {ruleId appId : Int}
    (h : fwxDelAppIdFromRule k ruleId appId = some k') : k'.kmem = k.kmem := by
  rw [fwxDelAppIdFromRule] at h
  split at h
  · obtain rfl := Option.some.inj h
    rfl
  split at h
  · exact absurd h (Option.some_ne_none _).symm
  split at h <;>
  · obtain rfl := Option.some.inj h
    rfl

theorem fwxApiDelAppFilterRule_outcome {req : RuleRequest}
    (h : fwxApiDelAppFilterRule k req = some k') : k'.kmem.outcome = k.kmem.outcome := by
  have hfold : ∀ (ruleId : Int) (appIds : List Nat) (k : FilterKernel),
      appIds.foldlM (fun k (appId : Nat) => fwxDelAppIdFromRule k ruleId appId) k = some k' →
      k'.kmem = k.kmem := by
    intro ruleId appIds
    induction appIds with
    | nil =>
      intro k h
      obtain rfl := Option.some.inj h
      rfl
    | cons appId rest ih =>
      intro k h
      rw [List.foldlM_cons] at h
      obtain ⟨k1, h1, hrest⟩ := Option.bind_eq_some_iff.mp h
      exact (ih k1 hrest).trans (fwxDelAppIdFromRule_kmem h1)
  rw [fwxApiDelAppFilterRule] at h
  split at h
  · obtain rfl := Option.some.inj h
    rfl
  split at h
  · rw [delAppIdTokenFromRule] at h
    split at h
    · exact congrArg Kmem.outcome (fwxDelAppIdFromRule_kmem (k := k.stamp) h)
    · exact congrArg Kmem.outcome (hfold _ _ k.stamp h)
  · obtain rfl := Option.some.inj h
    rw [fwxDelAppFilterRule]
    split <;> rfl

theorem fwxConfigHandle_outcome {call : FilterCall} (h : fwxConfigHandle k call = some k') :
    k'.kmem.outcome = k.kmem.outcome := by
  cases call with
  | delAppFilterRule req => exact fwxApiDelAppFilterRule_outcome h
  | addAppFilterRule req =>
    obtain rfl := Option.some.inj h
    simp only [fwxApiAddAppFilterRule, fwxAddAppFilterRule]
    split
    · rfl
    split
    · rfl
    split
    · rfl
    split <;> rfl
  | modAppFilterRule req =>
    obtain rfl := Option.some.inj h
    simp only [fwxApiModAppFilterRule, modAppRule]
    split
    · rfl
    split
    · rfl
    · exact (appAction_outcome _ _ _).trans (macAction_outcome _ _ _)
  | addAppFilterWhitelist req =>
    obtain rfl := Option.some.inj h
    simp only [fwxApiAddAppFilterWhitelist]
    split
    · rfl
    · exact addMacList_outcome _ _ _
  | addMacFilterRule req =>
    obtain rfl := Option.some.inj h
    simp only [fwxApiAddMacFilterRule, fwxAddMacFilterRule]
    split
    · rfl
    split
    · rfl
    split
    · rfl
    split <;> rfl
  | modMacFilterRule req =>
    obtain rfl := Option.some.inj h
    simp only [fwxApiModMacFilterRule]
    split
    · rfl
    split
    · rfl
    · exact macAction_outcome _ _ _
  | delMacFilterRule req =>
    obtain rfl := Option.some.inj h
    simp only [fwxApiDelMacFilterRule, fwxDelMacFromRule, fwxDelMacFilterRule]
    split
    · rfl
    split
    · split
      · split <;> rfl
      · rfl
    · split <;> rfl
  | addMacFilterWhitelist req | addRecordWhitelist req =>
    obtain rfl := Option.some.inj h
    exact addWhitelist_outcome _ _ _
  | flushAppFilterRule | flushAppFilterWhitelist | flushMacFilterRule | flushMacFilterWhitelist |
      flushRecordWhitelist | delMacFilterWhitelist req | delRecordWhitelist req =>
    obtain rfl := Option.some.inj h
    rfl

/-- An allocator that never fails stays one. -/
theorem fwxConfigHandle_allOk {call : FilterCall} (hmem : k.kmem.AllOk)
    (h : fwxConfigHandle k call = some k') : k'.kmem.AllOk := by
  intro i
  rw [fwxConfigHandle_outcome h]
  exact hmem i

/-! ## 3. Lists of addresses -/

/-- The addresses that some texts stand for. -/
def macSet (macs : List CStr) : Set Mac := {mac | ∃ text ∈ macs, macStrToBin (some text) = some mac}

theorem mem_filterMap_macs {macs : List CStr} {mac : Mac} :
    mac ∈ (macs.map some).filterMap macStrToBin ↔ mac ∈ macSet macs := by
  rw [List.mem_filterMap]
  constructor
  · rintro ⟨macStr, hmem, hmac⟩
    obtain ⟨text, htext, rfl⟩ := List.mem_map.mp hmem
    exact ⟨text, htext, hmac⟩
  · rintro ⟨text, htext, hmac⟩
    exact ⟨some text, List.mem_map_of_mem htext, hmac⟩

/-- With memory, a list of texts is added with all its addresses. -/
theorem represents_addMacList {kmem : Kmem} (hmem : kmem.AllOk) (macs : List CStr) :
    Represents (addMacList kmem fwxMacConfigInit (macs.map some)).1 (macSet macs) := by
  intro mac
  rw [find_addMacList, ← mem_filterMap_macs]
  constructor
  · exact fun h => (h.resolve_left fun hinit => Bool.noConfusion hinit).mem
  · exact fun h => .inr (nodeGranted_of_allOk hmem h)

theorem represents_macSet_nil : Represents fwxMacConfigInit (macSet []) :=
  fun _ => ⟨fun h => Bool.noConfusion h, fun ⟨_, h, _⟩ => absurd h List.not_mem_nil⟩

end Oaf
