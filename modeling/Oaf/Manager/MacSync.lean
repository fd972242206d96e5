/-
# The effective MAC lists

`sync_effective_mac_rule` brings the MAC list of a kernel rule up to date: it empties the list and
sets it, unless the new list is the one stored by the last call that did so.  A write may fail and
then leaves the kernel as it was.

* `macs_synced`: a call that returns true has left the addresses of its list in the kernel, if a
  list that is taken for unchanged is not one that the kernel has lost.
* `macs_lost`: after a call whose clear was carried out and whose set failed, a call with the list
  that was stored before decides that nothing is to be done.
-/
import Mathlib.Data.Finset.Card
import Oaf.Lib.Runs
import Oaf.Manager.Device

namespace Oaf

open CLib Chains Prog Runs

/-! ## 1. Calls -/

structure SyncState where
  kernel : FilterKernel
  table : LuaTable MacRuleState

/-- A call of `sync_effective_mac_rule`, and what it returns. -/
structure SyncCall where
  ruleId : Int
  macList : List CStr
  result : Bool

/-- A write is carried out, or fails. -/
def writeOrFail (k : FilterKernel) (w : DevWrite) (r : Bool) (k' : FilterKernel) : Prop :=
  DevStep .done k w r k' ∨ DevStep .failed k w r k'

/-- One call, with a list without duplicates. -/
def SyncStep (s : SyncState) (call : SyncCall) (t : SyncState) : Prop :=
  call.macList.Nodup ∧
    Ends writeOrFail (syncEffectiveMacRule s.table call.ruleId call.macList) s.kernel
      (call.result, t.table) t.kernel

/-- **The condition.**  A list that is taken for unchanged has no address, or the kernel's list is
not empty; one that is written can stand in JSON strings. -/
def SyncOk (s : SyncState) (call : SyncCall) : Prop :=
  if needUpdate (s.table.lookup call.ruleId) call.macList then call.macList.all jsonPlain = true
  else macSet call.macList = ∅ ∨
    ∃ rule mac, fwxFindMacFilterRule s.kernel call.ruleId = some rule ∧
      fwxFindMacNode rule.macList mac = true

/-! ## 2. One list -/

variable {k k' : FilterKernel} {ruleId : Int} {macList : List CStr}

/-- A modification changes its rule and no other. -/
theorem find_modMacFilterRule {req : RuleRequest} (hid : req.ruleId = some ruleId)
    (h : fwxConfigHandle k (.modMacFilterRule req) = some k') (i : Int) :
    fwxFindMacFilterRule k' i =
      if i = ruleId then
        (fwxFindMacFilterRule k ruleId).map fun rule =>
          { rule with
            mode := (req.mode.map macFilterMode).getD rule.mode
            macList := (macAction k.kmem rule.macList req).1 }
      else fwxFindMacFilterRule k i := by
  obtain rfl := Option.some.inj h
  rw [fwxApiModMacFilterRule, hid]
  dsimp only
  cases hfind : fwxFindMacFilterRule k ruleId with
  | none =>
    by_cases hi : i = ruleId
    · rw [if_pos hi, hi, hfind]
      rfl
    · rw [if_neg hi]
  | some rule =>
    have hid' : rule.ruleId = ruleId := ruleId_of_find hfind
    have hfind' : lookup MacFilterRule.ruleId ruleId k.config.macFilterRuleList = some rule := hfind
    have hlookup := lookup_updateFirst (f := fun _ => { rule with
        mode := (req.mode.map macFilterMode).getD rule.mode
        macList := (macAction k.kmem rule.macList req).1 }) i
      (fun r (_ : MacFilterRule.ruleId r = ruleId) => hid') k.config.macFilterRuleList
    rw [hfind'] at hlookup
    exact hlookup

/-- What has become of the rules when the list of one of them has been written. -/
structure ListWritten (k k' : FilterKernel) (ruleId : Int) (P : MacConfig → Prop) : Prop where
  others : ∀ i, i ≠ ruleId → fwxFindMacFilterRule k' i = fwxFindMacFilterRule k i
  isSome : (fwxFindMacFilterRule k' ruleId).isSome = (fwxFindMacFilterRule k ruleId).isSome
  list : ∀ rule, fwxFindMacFilterRule k' ruleId = some rule → P rule.macList

theorem listWritten_mod {req : RuleRequest} {P : MacConfig → Prop} (hid : req.ruleId = some ruleId)
    (h : fwxConfigHandle k (.modMacFilterRule req) = some k')
    (hP : ∀ config, P (macAction k.kmem config req).1) : ListWritten k k' ruleId P := by
  have hfind := find_modMacFilterRule hid h
  refine ⟨fun i hi => by rw [hfind, if_neg hi], ?_, fun rule hrule => ?_⟩
  · rw [hfind, if_pos rfl, Option.isSome_map]
  · rw [hfind, if_pos rfl] at hrule
    obtain ⟨old, -, rfl⟩ := Option.map_eq_some_iff.mp hrule
    exact hP old.macList

theorem ListWritten.trans {k'' : FilterKernel} {P Q : MacConfig → Prop}
    (h1 : ListWritten k k' ruleId P) (h2 : ListWritten k' k'' ruleId Q) :
    ListWritten k k'' ruleId Q :=
  ⟨fun i hi => (h2.others i hi).trans (h1.others i hi), h2.isSome.trans h1.isSome, h2.list⟩

/-- A write of a rule's list is carried out, or fails. -/
theorem wp_writeOrFail {w : DevWrite} {P : FilterKernel → Prop} {Q : Bool → FilterKernel → Prop}
    (hread : w.readable = true) (hbelow : w.call.belowTop = true)
    (hdone : ∀ k', fwxConfigHandle k w.call = some k' → P k' ∧ Q true k')
    (hfailed : P k ∧ Q false k) : wp writeOrFail P (request w) Q k := by
  rw [wp_request]
  rintro r k' (⟨hcall, hhandle⟩ | hstep)
  · rw [hcall hread] at hhandle
    exact hdone k' (hhandle hbelow)
  · cases hstep
    exact hfailed

/-- What `set_macfilter_rule_mac_list` leaves: the list, when it returns true; otherwise the kernel
as it was, or an empty list. -/
theorem wp_setMacfilterRuleMacList (hmem : k.kmem.AllOk) (hread : macList.all jsonPlain = true)
    (mode : Int) :
    wp writeOrFail (fun _ => True) (setMacfilterRuleMacList ruleId macList mode)
      (fun r k' => k'.kmem.AllOk ∧
        if r then ListWritten k k' ruleId (Represents · (macSet macList))
        else k' = k ∨ ListWritten k k' ruleId (Represents · ∅)) k := by
  rw [setMacfilterRuleMacList, wp_bind]
  refine wp_writeOrFail rfl rfl (fun k1 h1 => ⟨trivial, ?_⟩) ⟨trivial, hmem, .inl rfl⟩
  have hmem1 := fwxConfigHandle_allOk hmem h1
  have hclear : ListWritten k k1 ruleId (Represents · ∅) :=
    listWritten_mod rfl h1 fun _ => represents_init
  rw [if_pos rfl]
  split
  · rename_i hnil
    subst hnil
    refine ⟨hmem1, ?_⟩
    rw [if_pos rfl]
    exact ⟨hclear.others, hclear.isSome, fun rule hrule mac =>
      (hclear.list rule hrule mac).trans ⟨fun h => h.elim, fun ⟨_, h, _⟩ => absurd h List.not_mem_nil⟩⟩
  · refine wp_writeOrFail hread rfl (fun k2 h2 => ⟨trivial, fwxConfigHandle_allOk hmem1 h2, ?_⟩)
      ⟨trivial, hmem1, .inr hclear⟩
    rw [if_pos rfl]
    exact hclear.trans (listWritten_mod rfl h2 fun _ => represents_addMacList hmem1 macList)

/-- A list that is taken for unchanged has the addresses of the stored one. -/
theorem macSet_of_unchanged {state : Option MacRuleState} (hnodup : macList.Nodup)
    (h : macListChanged state macList = false) :
    ∃ st old, state = some st ∧ st.macList = some old ∧ macSet macList = macSet old := by
  rw [macListChanged] at h
  split at h
  · exact absurd h (by simp)
  rename_i old hold
  obtain ⟨st, hstate, hlist⟩ := Option.bind_eq_some_iff.mp hold
  refine ⟨st, old, hstate, hlist, ?_⟩
  rw [Bool.or_eq_false_iff, bne_eq_false_iff_eq, List.any_eq_false] at h
  obtain ⟨hlen, hmem⟩ := h
  have hsub : macList.toFinset ⊆ old.toFinset := by
    intro text htext
    have hin := hmem text (List.mem_toFinset.mp htext)
    rw [Bool.not_eq_true, Bool.not_eq_false', List.contains_iff_mem] at hin
    exact List.mem_toFinset.mpr hin
  -- as many as in the old list, and pairwise different: none of the old ones is missing
  have hcard : old.toFinset.card ≤ macList.toFinset.card := by
    rw [List.toFinset_card_of_nodup hnodup, hlen]
    exact List.toFinset_card_le old
  have heq := Finset.eq_of_subset_of_card_le hsub hcard
  have htexts : ∀ text, text ∈ macList ↔ text ∈ old := fun text => by
    rw [← List.mem_toFinset, heq, List.mem_toFinset]
  exact Set.ext fun mac => exists_congr fun text => and_congr (htexts text) Iff.rfl

theorem macListChanged_of_needUpdate {state : Option MacRuleState}
    (h : needUpdate state macList = false) : macListChanged state macList = false := by
  rw [needUpdate] at h
  split at h
  · exact h
  · exact (Bool.or_eq_false_iff.mp h).2

/-! ## 3. Runs -/

/-- The kernel's list of a rule is the stored one, or has been lost. -/
structure SyncInv (s : SyncState) : Prop where
  memory : s.kernel.kmem.AllOk
  stored : ∀ ruleId state old rule, s.table.lookup ruleId = some state → state.macList = some old →
    fwxFindMacFilterRule s.kernel ruleId = some rule →
    Represents rule.macList (macSet old) ∨ Represents rule.macList ∅

/-- The kernel also has the rule. -/
def KnownInv (ruleId : Int) (s : SyncState) : Prop :=
  SyncInv s ∧ (fwxFindMacFilterRule s.kernel ruleId).isSome = true

/-- What a call has to leave. -/
structure Synced (s : SyncState) (ruleId : Int) (macList : List CStr) (result : Bool)
    (t : SyncState) : Prop where
  inv : SyncInv t
  isSome : ∀ i, (fwxFindMacFilterRule t.kernel i).isSome = (fwxFindMacFilterRule s.kernel i).isSome
  list : result = true → ∀ rule, fwxFindMacFilterRule t.kernel ruleId = some rule →
    Represents rule.macList (macSet macList)

/-- A call that changes nothing. -/
theorem synced_unchanged {s : SyncState} (h : SyncInv s) (hnodup : macList.Nodup)
    (hneed : needUpdate (s.table.lookup ruleId) macList = false)
    (hok : macSet macList = ∅ ∨ ∃ rule mac, fwxFindMacFilterRule s.kernel ruleId = some rule ∧
      fwxFindMacNode rule.macList mac = true) : Synced s ruleId macList true s := by
  refine ⟨h, fun _ => rfl, fun _ rule hrule => ?_⟩
  obtain ⟨st, old, hstate, hlist, hsame⟩ :=
    macSet_of_unchanged hnodup (macListChanged_of_needUpdate hneed)
  rw [hsame]
  rcases h.stored ruleId st old rule hstate hlist hrule with hrep | hlost
  · exact hrep
  · rcases hok with hnone | ⟨rule', mac, hrule', hfound⟩
    · rwa [← hsame, hnone]
    · obtain rfl := Option.some.inj (hrule.symm.trans hrule')
      exact absurd ((hlost mac).mp hfound) (Set.notMem_empty mac)

/-- A call that has set the list. -/
theorem synced_set {s : SyncState} (h : SyncInv s) (hmem : k'.kmem.AllOk)
    (hset : ListWritten s.kernel k' ruleId (Represents · (macSet macList))) :
    Synced s ruleId macList true
      ⟨k', s.table.insert ruleId { active := 0 < macList.length, macList := some macList }⟩ := by
  refine ⟨⟨hmem, fun i st old rule hstate hlist hrule => ?_⟩, fun i => ?_, fun _ => hset.list⟩
  · by_cases hi : i = ruleId
    · subst hi
      rw [AList.lookup_insert] at hstate
      obtain rfl := Option.some.inj hstate
      obtain rfl := Option.some.inj hlist
      exact .inl (hset.list rule hrule)
    · rw [AList.lookup_insert_ne hi] at hstate
      exact h.stored i st old rule hstate hlist ((hset.others i hi).symm.trans hrule)
  · by_cases hi : i = ruleId
    · rw [hi, hset.isSome]
    · rw [hset.others i hi]

/-- A call one of whose writes has failed. -/
theorem synced_failed {s : SyncState} (h : SyncInv s) (hmem : k'.kmem.AllOk)
    (hlost : k' = s.kernel ∨ ListWritten s.kernel k' ruleId (Represents · ∅)) :
    Synced s ruleId macList false ⟨k', s.table⟩ := by
  rcases hlost with rfl | hlost
  · exact ⟨h, fun _ => rfl, fun hfalse => absurd hfalse Bool.false_ne_true⟩
  refine ⟨⟨hmem, fun i st old rule hstate hlist hrule => ?_⟩, fun i => ?_,
    fun hfalse => absurd hfalse Bool.false_ne_true⟩
  · by_cases hi : i = ruleId
    · subst hi
      exact .inr (hlost.list rule hrule)
    · exact h.stored i st old rule hstate hlist ((hlost.others i hi).symm.trans hrule)
  · by_cases hi : i = ruleId
    · rw [hi, hlost.isSome]
    · rw [hlost.others i hi]

/-- **One call.** -/
theorem syncStep_synced {s t : SyncState} {call : SyncCall} (h : SyncInv s) (hok : SyncOk s call)
    (hstep : SyncStep s call t) : Synced s call.ruleId call.macList call.result t := by
  obtain ⟨hnodup, hrun⟩ := hstep
  refine hrun.wp (P := fun _ => True)
    (Q := fun p k' => Synced s call.ruleId call.macList p.1 ⟨k', p.2⟩) ?_
  rw [SyncOk] at hok
  rw [syncEffectiveMacRule]
  split
  · rename_i hneed
    rw [if_pos hneed] at hok
    rw [wp_bind]
    refine wp_mono (wp_setMacfilterRuleMacList h.memory hok _) (fun _ => id) fun r k' hset => ?_
    obtain ⟨hmem, hset⟩ := hset
    cases r with
    | true => exact synced_set h hmem hset
    | false => exact synced_failed h hmem hset
  · rename_i hneed
    rw [if_neg hneed] at hok
    exact synced_unchanged h hnodup (Bool.eq_false_iff.mpr hneed) hok

/-- **MAC lists are synchronised.**  In every run of calls that meet the condition, from a table
that stores no list, a call that returns true has left its addresses in the kernel's rule. -/
theorem macs_synced {s t u : SyncState} {ruleId : Int} {macList : List CStr}
    (hmem : s.kernel.kmem.AllOk)
    (hstart : ∀ i state, s.table.lookup i = some state → state.macList = none)
    (hrule : (fwxFindMacFilterRule s.kernel ruleId).isSome = true)
    (hrun : Reaches SyncStep SyncOk s t) (hok : SyncOk t ⟨ruleId, macList, true⟩)
    (hcall : SyncStep t ⟨ruleId, macList, true⟩ u) :
    ∃ rule, fwxFindMacFilterRule u.kernel ruleId = some rule ∧
      ∀ mac, fwxFindMacNode rule.macList mac = true ↔
        ∃ text ∈ macList, macStrToBin (some text) = some mac := by
  have hinit : SyncInv s := ⟨hmem, fun i state old rule hstate hlist => by
    rw [hstart i state hstate] at hlist
    exact absurd hlist (Option.some_ne_none old).symm⟩
  obtain ⟨hinv, hsome⟩ : KnownInv ruleId t := by
    refine hrun.invariant (fun s e t hs hok hstep => ?_) ⟨hinit, hrule⟩
    have hsync := syncStep_synced hs.1 hok hstep
    exact ⟨hsync.inv, (hsync.isSome ruleId).trans hs.2⟩
  have hsync := syncStep_synced hinv hok hcall
  obtain ⟨rule, hfind⟩ := Option.isSome_iff_exists.mp ((hsync.isSome ruleId).trans hsome)
  exact ⟨rule, hfind, hsync.list rfl rule hfind⟩

/-! ## 4. A list that the kernel has lost -/

def phone : CStr := .lit "02:00:00:00:00:01"

def laptop : CStr := .lit "02:00:00:00:00:02"

def laptopMac : Mac := #v[2, 0, 0, 0, 0].push 2

/-- The rule has been created, and nothing is stored. -/
def macRuleCreated : SyncState where
  kernel := fwxApiAddMacFilterRule { kmem := freeMemory }
    { ruleId := SINGLE_MAC_FILTER_RULE_ID, mode := some MAC_FILTER_MODE_SINGLE_USER }
  table := ∅

def clearRequest : RuleRequest :=
  { ruleId := SINGLE_MAC_FILTER_RULE_ID, mode := some MAC_FILTER_MODE_SINGLE_USER,
    macAction := some 0 }

def setRequest (text : CStr) : RuleRequest :=
  { clearRequest with macAction := some 1, macList := some [some text] }

def laptopState : MacRuleState := { active := true, macList := some [laptop] }

/-- Both writes for the laptop are carried out. -/
def laptopSet : SyncState where
  kernel := fwxApiModMacFilterRule (fwxApiModMacFilterRule macRuleCreated.kernel clearRequest)
    (setRequest laptop)
  table := macRuleCreated.table.insert SINGLE_MAC_FILTER_RULE_ID laptopState

theorem laptopSet_step :
    SyncStep macRuleCreated ⟨SINGLE_MAC_FILTER_RULE_ID, [laptop], true⟩ laptopSet :=
  ⟨List.nodup_singleton _, .ask (.inl (.done (fun _ => rfl) fun _ => rfl))
    (.ask (.inl (.done (fun _ => rfl) fun _ => rfl)) (.ret _ _))⟩

/-- The clear for the phone is carried out, and the set fails. -/
def phoneCleared : SyncState :=
  { laptopSet with kernel := fwxApiModMacFilterRule laptopSet.kernel clearRequest }

theorem phoneCleared_step :
    SyncStep laptopSet ⟨SINGLE_MAC_FILTER_RULE_ID, [phone], false⟩ phoneCleared :=
  ⟨List.nodup_singleton _, .ask (.inl (.done (fun _ => rfl) fun _ => rfl))
    (.ask (.inr (.failed _ _)) (.ret _ _))⟩

/-- Nothing is written for the laptop. -/
theorem laptopUnchanged_step :
    SyncStep phoneCleared ⟨SINGLE_MAC_FILTER_RULE_ID, [laptop], true⟩ phoneCleared :=
  ⟨List.nodup_singleton _, .ret _ _⟩

/-- Both are written, behind the call that has failed. -/
def bothSet : SyncState where
  kernel := fwxApiModMacFilterRule (fwxApiModMacFilterRule phoneCleared.kernel clearRequest)
    { clearRequest with macAction := some 1, macList := some [some phone, some laptop] }
  table := phoneCleared.table.insert SINGLE_MAC_FILTER_RULE_ID
    { active := true, macList := some [phone, laptop] }

theorem bothSet_step :
    SyncStep phoneCleared ⟨SINGLE_MAC_FILTER_RULE_ID, [phone, laptop], true⟩ bothSet :=
  ⟨by decide, .ask (.inl (.done (fun _ => rfl) fun _ => rfl))
    (.ask (.inl (.done (fun _ => rfl) fun _ => rfl)) (.ret _ _))⟩

/-- The laptop is written, the phone fails, and then both are written. -/
theorem macs_synced_both : ∃ rule,
    fwxFindMacFilterRule bothSet.kernel SINGLE_MAC_FILTER_RULE_ID = some rule ∧
      fwxFindMacNode rule.macList laptopMac = true := by
  have hok : ∀ (s : SyncState) (macList : List CStr) (r : Bool),
      needUpdate (s.table.lookup SINGLE_MAC_FILTER_RULE_ID) macList = true → macList.all jsonPlain = true →
      SyncOk s ⟨SINGLE_MAC_FILTER_RULE_ID, macList, r⟩ := by
    intro s macList r hneed hplain
    rwa [SyncOk, if_pos hneed]
  have hrun : Reaches SyncStep SyncOk macRuleCreated phoneCleared :=
    (Reaches.refl.tail (hok _ _ _ (by decide) (by decide)) laptopSet_step).tail
      (hok _ _ _ (by decide) (by decide)) phoneCleared_step
  obtain ⟨rule, hrule, hlist⟩ := macs_synced (s := macRuleCreated) (fun _ => rfl)
    (fun i state h => absurd h (Option.some_ne_none state).symm) (by decide) hrun
    (hok _ _ _ (by decide) (by decide)) bothSet_step
  exact ⟨rule, hrule, (hlist laptopMac).mpr ⟨laptop, by decide, by decide⟩⟩

/-- **A list that is lost.**  The call for the laptop returns true, and the kernel's list is empty:
the call for the phone before it has emptied it. -/
theorem macs_lost : ∃ t u : SyncState, Reaches SyncStep Always macRuleCreated t ∧
    SyncStep t ⟨SINGLE_MAC_FILTER_RULE_ID, [laptop], true⟩ u ∧
    macStrToBin (some laptop) = some laptopMac ∧
    ∃ rule, fwxFindMacFilterRule u.kernel SINGLE_MAC_FILTER_RULE_ID = some rule ∧
      fwxFindMacNode rule.macList laptopMac = false := by
  have hrun : Reaches SyncStep Always macRuleCreated phoneCleared :=
    (Reaches.refl.tail trivial laptopSet_step).tail trivial phoneCleared_step
  have hempty : (fwxFindMacFilterRule phoneCleared.kernel SINGLE_MAC_FILTER_RULE_ID).map
      (fun rule => fwxFindMacNode rule.macList laptopMac) = some false := by decide
  obtain ⟨rule, hrule, hnot⟩ := Option.map_eq_some_iff.mp hempty
  exact ⟨phoneCleared, phoneCleared, hrun, laptopUnchanged_step, by decide, rule, hrule, hnot⟩

end Oaf
