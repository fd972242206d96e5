/-
# MAC lists as sets

The addresses of a MAC-filter rule, of the MAC-filter whitelist and of the record whitelist are to
be sets.  `FilterCall.change` says what a request means for each of the lists, as an addition, a
replacement or a deletion; `MacSets` are the sets that the same requests make.

* `mac_lists_are_sets`: as long as no address that is deleted is in its list twice, and no node
  that is needed is refused memory, `fwx_find_mac_node` finds exactly the addresses of the set.
* `deleted_mac_found`: `fwx_add_mac_node` does not look for the address, and a deletion takes out
  one node; what is added twice and deleted once is still found.
-/
import Mathlib.Data.Set.Basic
import Oaf.Filter.Api
import Oaf.Lib.Keyed
import Oaf.Lib.Runs

namespace Oaf

open CLib Chains Runs

/-! ## 1. One list -/

/-- The list finds exactly the addresses of the set. -/
def Represents (config : MacConfig) (s : Set Mac) : Prop :=
  ∀ mac, fwxFindMacNode config mac = true ↔ mac ∈ s

theorem represents_init : Represents fwxMacConfigInit ∅ :=
  fun _ => ⟨fun h => Bool.noConfusion h, fun h => absurd h (Set.notMem_empty _)⟩

theorem find_fwxAddMacNode (config : MacConfig) (mac x : Mac) :
    fwxFindMacNode (fwxAddMacNode config mac) x = true ↔
      fwxFindMacNode config x = true ∨ x = mac := by
  simp only [fwxFindMacNode, fwxAddMacNode]
  split
  · rw [List.contains_cons, Bool.or_eq_true, beq_iff_eq, or_comm]
  · rename_i hhash
    exact ⟨.inl, fun h => h.resolve_right fun hx => hhash (by rw [hx])⟩

theorem find_delMacNode_of_ne (config : MacConfig) {mac x : Mac} (hne : x ≠ mac) :
    fwxFindMacNode (delMacNode config mac) x = fwxFindMacNode config x := by
  simp only [fwxFindMacNode, delMacNode]
  by_cases hhash : macHash x = macHash mac
  · rw [hhash, modify_self, Bool.eq_iff_iff, List.contains_iff_mem, List.contains_iff_mem]
    exact List.mem_erase_of_ne hne
  · rw [modify_of_ne _ hhash]

/-- A deletion takes out one node. -/
theorem find_delMacNode_self (config : MacConfig) (mac : Mac) :
    fwxFindMacNode (delMacNode config mac) mac = true ↔
      1 < (config.hashTable (macHash mac)).count mac := by
  simp only [fwxFindMacNode, delMacNode]
  rw [modify_self, List.contains_iff_mem, ← List.count_pos_iff, List.count_erase_self]
  omega

theorem find_delMacNode {config : MacConfig} {mac : Mac}
    (hcount : (config.hashTable (macHash mac)).count mac ≤ 1) (x : Mac) :
    fwxFindMacNode (delMacNode config mac) x = true ↔
      fwxFindMacNode config x = true ∧ x ≠ mac := by
  by_cases hx : x = mac
  · rw [hx, find_delMacNode_self]
    exact ⟨fun h => absurd h (Nat.not_lt.mpr hcount), fun h => absurd rfl h.2⟩
  · rw [find_delMacNode_of_ne config hx]
    exact ⟨fun h => ⟨h, hx⟩, And.left⟩

/-- When these addresses are added in order, a node of this one gets memory. -/
def NodeGranted : Kmem → List Mac → Mac → Prop
  | _, [], _ => False
  | kmem, mac :: rest, x => (x = mac ∧ kmem.kzalloc.1 = true) ∨ NodeGranted kmem.kzalloc.2 rest x

theorem NodeGranted.mem {kmem : Kmem} {macs : List Mac} {x : Mac} (h : NodeGranted kmem macs x) :
    x ∈ macs := by
  induction macs generalizing kmem with
  | nil => exact h.elim
  | cons mac rest ih =>
    rcases h with ⟨rfl, -⟩ | h
    · exact List.mem_cons_self
    · exact List.mem_cons_of_mem mac (ih h)

theorem nodeGranted_of_allOk {kmem : Kmem} (h : kmem.AllOk) {macs : List Mac} {x : Mac}
    (hx : x ∈ macs) : NodeGranted kmem macs x := by
  induction macs generalizing kmem with
  | nil => exact absurd hx List.not_mem_nil
  | cons mac rest ih =>
    rcases List.mem_cons.mp hx with rfl | hx
    · exact .inl ⟨rfl, h _⟩
    · exact .inr (ih h.kzalloc hx)

theorem find_addMacNode (kmem : Kmem) (config : MacConfig) (mac x : Mac) :
    fwxFindMacNode (addMacNode kmem config mac).1 x = true ↔
      fwxFindMacNode config x = true ∨ (x = mac ∧ kmem.kzalloc.1 = true) := by
  rw [addMacNode]
  split
  · rename_i hgrant
    rw [find_fwxAddMacNode]
    exact or_congr Iff.rfl (and_iff_left hgrant).symm
  · rename_i hgrant
    exact ⟨.inl, fun h => h.resolve_right fun hx => hgrant hx.2⟩

theorem addMacNode_snd (kmem : Kmem) (config : MacConfig) (mac : Mac) :
    (addMacNode kmem config mac).2 = kmem.kzalloc.2 := by
  rw [addMacNode]
  split <;> rfl

/-- What the loop over a `mac_list` adds. -/
theorem find_addMacList (kmem : Kmem) (config : MacConfig) (macArray : List (Option CStr))
    (x : Mac) :
    fwxFindMacNode (addMacList kmem config macArray).1 x = true ↔
      fwxFindMacNode config x = true ∨ NodeGranted kmem (macArray.filterMap macStrToBin) x := by
  induction macArray generalizing kmem config with
  | nil => exact (or_iff_left id).symm
  | cons macStr rest ih =>
    rw [addMacList]
    cases hparse : macStrToBin macStr with
    | none =>
      rw [List.filterMap_cons_none hparse]
      exact ih kmem config
    | some mac =>
      rw [List.filterMap_cons_some hparse]
      calc fwxFindMacNode (addMacList (addMacNode kmem config mac).2
              (addMacNode kmem config mac).1 rest).1 x = true
          ↔ (fwxFindMacNode config x = true ∨ (x = mac ∧ kmem.kzalloc.1 = true)) ∨
              NodeGranted kmem.kzalloc.2 (rest.filterMap macStrToBin) x := by
            rw [ih, find_addMacNode, addMacNode_snd]
        _ ↔ _ := or_assoc

/-! ## 2. What a request means for a list -/

/-- A change of a set of addresses. -/
inductive MacChange
  | add (macs : List Mac)
  | replace (macs : List Mac)
  | del (mac : Mac)

def MacChange.onSet (s : Set Mac) : MacChange → Set Mac
  | .add macs => s ∪ {mac | mac ∈ macs}
  | .replace macs => {mac | mac ∈ macs}
  | .del mac => s \ {mac}

/-- **The condition.**  Every address of the change is in the list or gets a node, and one that is
deleted is in the list at most once. -/
def MacChange.Fits (kmem : Kmem) (config : MacConfig) : MacChange → Prop
  | .add macs => ∀ mac ∈ macs, fwxFindMacNode config mac = true ∨ NodeGranted kmem macs mac
  | .replace macs => ∀ mac ∈ macs, NodeGranted kmem macs mac
  | .del mac => (config.hashTable (macHash mac)).count mac ≤ 1

variable {config : MacConfig} {s : Set Mac} {kmem : Kmem}

theorem represents_add {macArray : List (Option CStr)} (hrep : Represents config s)
    (hfits : (MacChange.add (macArray.filterMap macStrToBin)).Fits kmem config) :
    Represents (addMacList kmem config macArray).1
      ((MacChange.add (macArray.filterMap macStrToBin)).onSet s) := by
  intro mac
  rw [find_addMacList, hrep mac]
  constructor
  · exact fun h => h.imp id NodeGranted.mem
  · rintro (hs | hmem)
    · exact .inl hs
    · exact (hfits mac hmem).imp (hrep mac).mp id

theorem represents_replace {macArray : List (Option CStr)}
    (hfits : (MacChange.replace (macArray.filterMap macStrToBin)).Fits kmem config) :
    Represents (addMacList kmem fwxMacConfigInit macArray).1
      ((MacChange.replace (macArray.filterMap macStrToBin)).onSet s) := by
  intro mac
  rw [find_addMacList]
  constructor
  · exact fun h => (h.resolve_left (fun h => Bool.noConfusion h)).mem
  · exact fun hmem => .inr (hfits mac hmem)

theorem represents_replace_nil : Represents fwxMacConfigInit ((MacChange.replace []).onSet s) :=
  fun _ => ⟨fun h => Bool.noConfusion h, fun h => absurd h List.not_mem_nil⟩

theorem represents_del {mac : Mac} (hrep : Represents config s)
    (hfits : (MacChange.del mac).Fits kmem config) :
    Represents (delMacNode config mac) ((MacChange.del mac).onSet s) := by
  intro x
  rw [find_delMacNode hfits, hrep x]
  exact Iff.rfl

/-- The addresses that can be read in a `mac_list`. -/
def RuleRequest.macs (req : RuleRequest) : List Mac := (req.macList.getD []).filterMap macStrToBin

/-- What a modification asks of the list of its rule. -/
def RuleRequest.macChange (req : RuleRequest) : Option MacChange :=
  match req.macAction with
  | none => none
  | some action =>
    if action = 1 then req.macList.map fun _ => .replace req.macs
    else if action = 2 then req.macList.map fun _ => .add req.macs
    else if action = 3 then req.mac.map fun macStr => .add ([macStr].filterMap macStrToBin)
    else some (.replace [])

theorem represents_macAction {req : RuleRequest} (hrep : Represents config s)
    (hfits : ∀ change ∈ req.macChange, change.Fits kmem config) :
    Represents (macAction kmem config req).1 (req.macChange.elim s (·.onSet s)) := by
  rw [RuleRequest.macChange] at hfits ⊢
  rw [macAction]
  cases haction : req.macAction with
  | none => exact hrep
  | some action =>
    rw [haction] at hfits
    dsimp only at hfits ⊢
    by_cases h1 : action = 1
    · simp only [h1, if_true, true_or] at hfits ⊢
      cases hlist : req.macList with
      | none => exact hrep
      | some macArray =>
        simp only [RuleRequest.macs, hlist] at hfits ⊢
        exact represents_replace (s := s) (hfits _ rfl)
    by_cases h2 : action = 2
    · simp only [h2, if_true, or_true] at hfits ⊢
      cases hlist : req.macList with
      | none => exact hrep
      | some macArray =>
        simp only [RuleRequest.macs, hlist] at hfits ⊢
        exact represents_add hrep (hfits _ rfl)
    by_cases h3 : action = 3
    · simp only [h3, if_true] at hfits ⊢
      cases hmac : req.mac with
      | none => exact hrep
      | some macStr =>
        rw [hmac] at hfits
        exact represents_add hrep (hfits _ rfl)
    · simp only [h1, h2, h3, if_false, or_self]
      exact represents_replace_nil (s := s)

/-! ## 3. All lists -/

/-- The lists of addresses. -/
inductive MacListId
  | rule (ruleId : Int)
  | macFilterWhitelist
  | recordWhitelist
deriving DecidableEq

/-- A list; that of a rule is there while the rule is. -/
def FilterKernel.macListOf (k : FilterKernel) : MacListId → Option MacConfig
  | .rule ruleId => (fwxFindMacFilterRule k ruleId).map (·.macList)
  | .macFilterWhitelist => some k.config.gMacFilterWhitelist
  | .recordWhitelist => some k.gRecordWhitelist

/-- What a request asks of a list.  A rule that is deleted takes its addresses with it. -/
def FilterCall.change : FilterCall → MacListId → Option MacChange
  | .modMacFilterRule req, .rule ruleId => if req.ruleId = some ruleId then req.macChange else none
  | .delMacFilterRule req, .rule ruleId =>
    if req.ruleId = some ruleId then
      match req.mac with
      | some macStr => (macStrToBin macStr).map .del
      | none => some (.replace [])
    else none
  | .flushMacFilterRule, .rule _ => some (.replace [])
  | .addMacFilterWhitelist req, .macFilterWhitelist => some (.add req.macs)
  | .delMacFilterWhitelist req, .macFilterWhitelist => (req.mac.bind macStrToBin).map .del
  | .flushMacFilterWhitelist, .macFilterWhitelist => some (.replace [])
  | .addRecordWhitelist req, .recordWhitelist => some (.add req.macs)
  | .delRecordWhitelist req, .recordWhitelist => (req.mac.bind macStrToBin).map .del
  | .flushRecordWhitelist, .recordWhitelist => some (.replace [])
  | _, _ => none

/-- The set of every list; that of a list that is not there is empty. -/
abbrev MacSets := MacListId → Set Mac

/-- A request changes the sets of the lists that are there. -/
def FilterCall.onSets (k : FilterKernel) (call : FilterCall) (sets : MacSets) : MacSets := fun l =>
  if (k.macListOf l).isSome then (call.change l).elim (sets l) (·.onSet (sets l)) else sets l

/-- A request to the kernel, and the same request to the sets. -/
def macListStep (p : FilterKernel × MacSets) (call : FilterCall) (q : FilterKernel × MacSets) :
    Prop :=
  fwxConfigHandle p.1 call = some q.1 ∧ q.2 = call.onSets p.1 p.2

/-- What the request asks of the lists fits them. -/
def MacCallFits (p : FilterKernel × MacSets) (call : FilterCall) : Prop :=
  ∀ l, ∀ config ∈ p.1.macListOf l, ∀ change ∈ call.change l, change.Fits p.1.kmem config

/-- Rule ids are unique, and every list represents its set. -/
structure MacListsOk (p : FilterKernel × MacSets) : Prop where
  ids : (p.1.config.macFilterRuleList.map MacFilterRule.ruleId).Nodup
  represents : ∀ l, Represents ((p.1.macListOf l).getD fwxMacConfigInit) (p.2 l)

/-! ## 4. One request -/

variable {k k' : FilterKernel} {sets : MacSets} {call : FilterCall} {ruleId : Int}

theorem onSets_of_none {l : MacListId} (h : call.change l = none) :
    call.onSets k sets l = sets l := by
  simp only [FilterCall.onSets, h, Option.elim_none, ite_self]

theorem onSets_of_some {l : MacListId} {change : MacChange} (h : call.change l = some change)
    (hl : (k.macListOf l).isSome = true) : call.onSets k sets l = change.onSet (sets l) := by
  simp only [FilterCall.onSets, h, if_pos hl, Option.elim_some]

/-- A request that asks no list, or only that of a rule that is not there, leaves the sets alone. -/
theorem onSets_eq_self (h : ∀ l, call.change l = none ∨ k.macListOf l = none) :
    call.onSets k sets = sets := by
  funext l
  rcases h l with hnone | hnone
  · exact onSets_of_none hnone
  · simp only [FilterCall.onSets, hnone, Option.isSome_none, Bool.false_eq_true, if_false]

/-- The requests about one rule. -/
def AsksOnly (call : FilterCall) (ruleId : Int) : Prop :=
  ∀ l, l ≠ .rule ruleId → call.change l = none

theorem onSets_of_noRule (hask : AsksOnly call ruleId)
    (hfind : fwxFindMacFilterRule k ruleId = none) : call.onSets k sets = sets := by
  refine onSets_eq_self fun l => ?_
  by_cases hl : l = .rule ruleId
  · right
    rw [hl, FilterKernel.macListOf, hfind]
    rfl
  · exact .inl (hask l hl)

theorem ruleId_of_find {rule : MacFilterRule}
    (hfind : fwxFindMacFilterRule k ruleId = some rule) : rule.ruleId = ruleId := by
  have hlookup : lookup MacFilterRule.ruleId ruleId k.config.macFilterRuleList = some rule := hfind
  exact key_of_lookup hlookup

theorem macListOf_of_find {rule : MacFilterRule}
    (hfind : fwxFindMacFilterRule k ruleId = some rule) :
    k.macListOf (.rule ruleId) = some rule.macList := by
  rw [FilterKernel.macListOf, hfind]
  rfl

theorem macListOf_updateFirst {rule rule' : MacFilterRule}
    (hfind : fwxFindMacFilterRule k ruleId = some rule) (hid : rule'.ruleId = ruleId)
    (l : MacListId) :
    (k.setMacRules (updateFirst (fun r => r.ruleId == ruleId) (fun _ => rule')
        k.config.macFilterRuleList)).macListOf l =
      if l = .rule ruleId then some rule'.macList else k.macListOf l := by
  cases l with
  | rule ruleId' =>
    have hlookup := lookup_updateFirst (f := fun _ => rule') ruleId' (fun _ _ => hid)
      k.config.macFilterRuleList
    refine (congrArg (Option.map MacFilterRule.macList) hlookup).trans ?_
    by_cases h : ruleId' = ruleId
    · rw [if_pos h, if_pos (congrArg MacListId.rule h)]
      have hfind' : lookup MacFilterRule.ruleId ruleId k.config.macFilterRuleList = some rule := hfind
      rw [hfind']
      rfl
    · rw [if_neg h, if_neg (fun hl => h (MacListId.rule.inj hl))]
      rfl
  | macFilterWhitelist => rfl
  | recordWhitelist => rfl

theorem macListOf_eraseP (hids : (k.config.macFilterRuleList.map MacFilterRule.ruleId).Nodup)
    (l : MacListId) :
    (k.setMacRules (k.config.macFilterRuleList.eraseP fun r => r.ruleId == ruleId)).macListOf l =
      if l = .rule ruleId then none else k.macListOf l := by
  cases l with
  | rule ruleId' =>
    refine (congrArg (Option.map MacFilterRule.macList)
      (lookup_eraseP ruleId' hids)).trans ?_
    by_cases h : ruleId' = ruleId
    · rw [if_pos h, if_pos (congrArg MacListId.rule h)]
      rfl
    · rw [if_neg h, if_neg (fun hl => h (MacListId.rule.inj hl))]
      rfl
  | macFilterWhitelist => rfl
  | recordWhitelist => rfl

/-- The lists and the sets after a request that changes the list of a rule in place. -/
theorem macListsOk_update {rule : MacFilterRule} (rule' : MacFilterRule) (kmem : Kmem) (h : MacListsOk (k, sets))
    (hfind : fwxFindMacFilterRule k ruleId = some rule) (hid : rule'.ruleId = ruleId)
    (hask : AsksOnly call ruleId)
    (hrep : Represents rule.macList (sets (.rule ruleId)) →
      Represents rule'.macList (call.onSets k sets (.rule ruleId))) :
    MacListsOk ({ k with kmem := kmem }.setMacRules (updateFirst (fun r => r.ruleId == ruleId)
      (fun _ => rule') k.config.macFilterRuleList), call.onSets k sets) := by
  refine ⟨nodup_updateFirst (fun _ _ => hid) h.ids, fun l => ?_⟩
  have hlist := macListOf_updateFirst (k := { k with kmem := kmem }) hfind hid l
  have hsame : { k with kmem := kmem }.macListOf l = k.macListOf l := by cases l <;> rfl
  have hold := h.represents l
  simp only [hlist]
  by_cases hl : l = .rule ruleId
  · subst hl
    rw [macListOf_of_find hfind] at hold
    rw [if_pos rfl]
    exact hrep hold
  · rw [if_neg hl, hsame, onSets_of_none (hask l hl)]
    exact hold

/-- The lists and the sets after a rule has been deleted. -/
theorem macListsOk_erase {rule : MacFilterRule} (h : MacListsOk (k, sets))
    (hfind : fwxFindMacFilterRule k ruleId = some rule) (hask : AsksOnly call ruleId)
    (hself : call.change (.rule ruleId) = some (.replace [])) :
    MacListsOk (fwxDelMacFilterRule k ruleId, call.onSets k sets) := by
  have hlist : ∀ l, (fwxDelMacFilterRule k ruleId).macListOf l =
      if l = .rule ruleId then none else k.macListOf l := by
    intro l
    rw [fwxDelMacFilterRule, hfind, Option.isSome_some, if_pos rfl]
    exact macListOf_eraseP h.ids l
  refine ⟨?_, fun l => ?_⟩
  · rw [fwxDelMacFilterRule, hfind, Option.isSome_some, if_pos rfl]
    exact nodup_eraseP h.ids _
  · simp only [hlist]
    by_cases hl : l = .rule ruleId
    · rw [if_pos hl, hl, onSets_of_some hself (by rw [macListOf_of_find hfind]; rfl)]
      exact represents_replace_nil
    · rw [if_neg hl, onSets_of_none (hask l hl)]
      exact h.represents l

/-- The lists and the sets after a request that leaves both alone. -/
theorem macListsOk_same (h : MacListsOk (k, sets))
    (hrules : k'.config.macFilterRuleList = k.config.macFilterRuleList)
    (hmac : k'.config.gMacFilterWhitelist = k.config.gMacFilterWhitelist)
    (hrecord : k'.gRecordWhitelist = k.gRecordWhitelist) : MacListsOk (k', sets) := by
  refine ⟨by rw [hrules]; exact h.ids, fun l => ?_⟩
  have hlist : k'.macListOf l = k.macListOf l := by
    cases l <;> simp only [FilterKernel.macListOf, fwxFindMacFilterRule, hrules, hmac, hrecord]
  rw [hlist]
  exact h.represents l

theorem macListsOk_addMacFilterRule (h : MacListsOk (k, sets)) (req : RuleRequest) :
    MacListsOk (fwxApiAddMacFilterRule k req, sets) := by
  rw [fwxApiAddMacFilterRule]
  cases hid : req.ruleId with
  | none => exact h
  | some ruleId =>
    dsimp only
    rw [fwxAddMacFilterRule]
    split
    · exact h
    split
    · exact h
    rename_i hnone
    dsimp only
    split
    · have hnone' : fwxFindMacFilterRule k ruleId = none := by simpa using hnone
      refine ⟨nodup_cons h.ids hnone', fun l => ?_⟩
      cases l with
      | rule ruleId' =>
        refine Eq.subst (motive := fun o => Represents (Option.getD o fwxMacConfigInit) _)
          (congrArg (Option.map MacFilterRule.macList) (lookup_cons _ _)).symm ?_
        split
        · rename_i heq
          have hold := h.represents (.rule ruleId')
          rw [FilterKernel.macListOf, ← heq, hnone'] at hold
          rw [← heq]
          exact hold
        · exact h.represents (.rule ruleId')
      | macFilterWhitelist => exact h.represents .macFilterWhitelist
      | recordWhitelist => exact h.represents .recordWhitelist
    · exact macListsOk_same h rfl rfl rfl

theorem asksOnly_mod {req : RuleRequest} (hid : req.ruleId = some ruleId) :
    AsksOnly (.modMacFilterRule req) ruleId := by
  intro l hl
  cases l with
  | rule ruleId' =>
    rw [FilterCall.change, hid, if_neg (fun h => hl (congrArg _ (Option.some.inj h).symm))]
  | macFilterWhitelist => rfl
  | recordWhitelist => rfl

theorem asksOnly_del {req : RuleRequest} (hid : req.ruleId = some ruleId) :
    AsksOnly (.delMacFilterRule req) ruleId := by
  intro l hl
  cases l with
  | rule ruleId' =>
    rw [FilterCall.change, hid, if_neg (fun h => hl (congrArg _ (Option.some.inj h).symm))]
  | macFilterWhitelist => rfl
  | recordWhitelist => rfl

theorem macListsOk_modMacFilterRule (h : MacListsOk (k, sets)) {req : RuleRequest}
    (hfits : MacCallFits (k, sets) (.modMacFilterRule req)) :
    MacListsOk (fwxApiModMacFilterRule k req,
      FilterCall.onSets k (.modMacFilterRule req) sets) := by
  rw [fwxApiModMacFilterRule]
  cases hid : req.ruleId with
  | none =>
    rw [onSets_eq_self fun l => .inl (by cases l <;> simp [FilterCall.change, hid])]
    exact h
  | some ruleId =>
    have hself : FilterCall.change (.modMacFilterRule req) (.rule ruleId) = req.macChange := by
      rw [FilterCall.change, hid, if_pos rfl]
    dsimp only
    cases hfind : fwxFindMacFilterRule k ruleId with
    | none =>
      rw [onSets_of_noRule (asksOnly_mod hid) hfind]
      exact h
    | some rule =>
      have hlist := macListOf_of_find hfind
      have hkey := ruleId_of_find hfind
      refine macListsOk_update { rule with
        mode := (req.mode.map macFilterMode).getD rule.mode
        macList := (macAction k.kmem rule.macList req).1 } _ h hfind hkey (asksOnly_mod hid)
        fun hrep => ?_
      simp only [FilterCall.onSets, hlist, Option.isSome_some, if_true, hself]
      exact represents_macAction hrep fun change hchange =>
        hfits _ _ hlist change (hself.trans hchange)

theorem macListsOk_delMacFilterRule (h : MacListsOk (k, sets)) {req : RuleRequest}
    (hfits : MacCallFits (k, sets) (.delMacFilterRule req)) :
    MacListsOk (fwxApiDelMacFilterRule k req,
      FilterCall.onSets k (.delMacFilterRule req) sets) := by
  rw [fwxApiDelMacFilterRule]
  cases hid : req.ruleId with
  | none =>
    rw [onSets_eq_self fun l => .inl (by cases l <;> simp [FilterCall.change, hid])]
    exact h
  | some ruleId =>
    dsimp only
    cases hfind : fwxFindMacFilterRule k ruleId with
    | none =>
      rw [onSets_of_noRule (asksOnly_del hid) hfind]
      have hrule : fwxDelMacFilterRule k ruleId = k := by
        rw [fwxDelMacFilterRule, hfind]
        rfl
      have hnode : ∀ mac, fwxDelMacFromRule k ruleId mac = k := by
        intro mac
        rw [fwxDelMacFromRule, hfind]
      split
      · split
        · rw [hnode]
          exact h
        · exact h
      · rw [hrule]
        exact h
    | some rule =>
      have hlist := macListOf_of_find hfind
      cases hmac : req.mac with
      | none =>
        have hself : FilterCall.change (.delMacFilterRule req) (.rule ruleId) =
            some (.replace []) := by
          rw [FilterCall.change, hid, if_pos rfl, hmac]
        exact macListsOk_erase h hfind (asksOnly_del hid) hself
      | some macStr =>
        dsimp only
        cases hparse : macStrToBin macStr with
        | none =>
          have hself : FilterCall.change (.delMacFilterRule req) (.rule ruleId) = none := by
            simp only [FilterCall.change, hid, if_true, hmac, hparse, Option.map_none]
          rw [onSets_eq_self fun l => .inl ?_]
          · exact h
          · by_cases hl : l = .rule ruleId
            · rw [hl, hself]
            · exact asksOnly_del hid l hl
        | some mac =>
          have hself : FilterCall.change (.delMacFilterRule req) (.rule ruleId) =
              some (.del mac) := by
            simp only [FilterCall.change, hid, if_true, hmac, hparse, Option.map_some]
          simp only [fwxDelMacFromRule, hfind]
          have hkey := ruleId_of_find hfind
          refine macListsOk_update { rule with macList := delMacNode rule.macList mac } k.kmem h
            hfind hkey (asksOnly_del hid) fun hrep => ?_
          rw [onSets_of_some hself (by rw [hlist]; rfl)]
          exact represents_del hrep (hfits _ _ hlist _ hself)

theorem macListsOk_flushMacFilterRule (h : MacListsOk (k, sets)) :
    MacListsOk (fwxApiFlushMacFilterRule k, FilterCall.onSets k .flushMacFilterRule sets) := by
  refine ⟨List.nodup_nil, fun l => ?_⟩
  cases l with
  | rule ruleId =>
    by_cases hsome : (k.macListOf (.rule ruleId)).isSome = true
    · have hask : FilterCall.change .flushMacFilterRule (.rule ruleId) = some (.replace []) := rfl
      simp only [onSets_of_some hask hsome]
      exact represents_replace_nil
    · have hold := h.represents (.rule ruleId)
      rw [Option.not_isSome_iff_eq_none.mp hsome] at hold
      simp only [FilterCall.onSets, if_neg hsome]
      exact hold
  | macFilterWhitelist => exact h.represents .macFilterWhitelist
  | recordWhitelist => exact h.represents .recordWhitelist

theorem represents_addWhitelist {req : RuleRequest} (hrep : Represents config s)
    (hfits : (MacChange.add req.macs).Fits kmem config) :
    Represents (addWhitelist kmem config req).1 ((MacChange.add req.macs).onSet s) := by
  rw [addWhitelist]
  rw [RuleRequest.macs] at hfits ⊢
  cases hlist : req.macList with
  | none =>
    intro mac
    rw [hrep mac]
    exact ⟨.inl, fun h => h.resolve_right List.not_mem_nil⟩
  | some macArray =>
    rw [hlist] at hfits
    exact represents_add hrep hfits

theorem represents_delWhitelist {req : RuleRequest} (hrep : Represents config s)
    (hfits : ∀ change ∈ (req.mac.bind macStrToBin).map MacChange.del, change.Fits kmem config) :
    Represents (delWhitelist config req)
      (((req.mac.bind macStrToBin).map MacChange.del).elim s (·.onSet s)) := by
  rw [delWhitelist]
  cases hmac : req.mac.bind macStrToBin with
  | none => exact hrep
  | some mac =>
    rw [hmac] at hfits
    exact represents_del hrep (hfits _ rfl)

/-- The lists and the sets after a request for one of the whitelists: the others are as they
were. -/
theorem macListsOk_whitelist {l : MacListId} (h : MacListsOk (k, sets)) (hl : (k.macListOf l).isSome)
    (hrules : k'.config.macFilterRuleList = k.config.macFilterRuleList)
    (hask : ∀ l', l' ≠ l → call.change l' = none)
    (hother : ∀ l', l' ≠ l → k'.macListOf l' = k.macListOf l')
    (hrep : Represents ((k.macListOf l).getD fwxMacConfigInit) (sets l) →
      Represents ((k'.macListOf l).getD fwxMacConfigInit)
        ((call.change l).elim (sets l) (·.onSet (sets l)))) :
    MacListsOk (k', call.onSets k sets) := by
  refine ⟨by simpa only [hrules] using h.ids, fun l' => ?_⟩
  by_cases heq : l' = l
  · subst heq
    simp only [FilterCall.onSets, if_pos hl]
    exact hrep (h.represents l')
  · simp only [onSets_of_none (hask l' heq), hother l' heq]
    exact h.represents l'

/-! ## 5. The requests for the app filter -/

/-- What the lists are read from. -/
def FilterKernel.macPart (k : FilterKernel) : List MacFilterRule × MacConfig × MacConfig :=
  (k.config.macFilterRuleList, k.config.gMacFilterWhitelist, k.gRecordWhitelist)

theorem fwxDelAppIdFromRule_macPart {appId : Int}
    (h : fwxDelAppIdFromRule k ruleId appId = some k') : k'.macPart = k.macPart := by
  rw [fwxDelAppIdFromRule] at h
  split at h
  · exact Option.some.inj h ▸ rfl
  · split at h
    · exact absurd h (Option.some_ne_none _).symm
    · split at h <;> exact Option.some.inj h ▸ rfl

theorem foldlM_delAppId_macPart (appIds : List Nat) (k : FilterKernel)
    (h : appIds.foldlM (fun k (appId : Nat) => fwxDelAppIdFromRule k ruleId appId) k = some k') :
    k'.macPart = k.macPart := by
  induction appIds generalizing k with
  | nil => exact Option.some.inj h ▸ rfl
  | cons appId rest ih =>
    rw [List.foldlM_cons] at h
    obtain ⟨k1, h1, hrest⟩ := Option.bind_eq_some_iff.mp h
    exact (ih k1 hrest).trans (fwxDelAppIdFromRule_macPart h1)

theorem fwxApiDelAppFilterRule_macPart {req : RuleRequest}
    (h : fwxApiDelAppFilterRule k req = some k') : k'.macPart = k.macPart := by
  rw [fwxApiDelAppFilterRule] at h
  split at h
  · exact Option.some.inj h ▸ rfl
  split at h
  · rw [delAppIdTokenFromRule] at h
    split at h
    · exact fwxDelAppIdFromRule_macPart (k := k.stamp) h
    · exact foldlM_delAppId_macPart _ k.stamp h
  · obtain rfl := Option.some.inj h
    rw [fwxDelAppFilterRule]
    split <;> rfl

theorem fwxApiAddAppFilterRule_macPart (k : FilterKernel) (req : RuleRequest) :
    (fwxApiAddAppFilterRule k req).macPart = k.macPart := by
  rw [fwxApiAddAppFilterRule]
  split
  · rfl
  rw [fwxAddAppFilterRule]
  split
  · rfl
  split
  · rfl
  dsimp only
  split <;> rfl

theorem fwxApiModAppFilterRule_macPart (k : FilterKernel) (req : RuleRequest) :
    (fwxApiModAppFilterRule k req).macPart = k.macPart := by
  rw [fwxApiModAppFilterRule]
  split
  · rfl
  split <;> rfl

theorem fwxApiAddAppFilterWhitelist_macPart (k : FilterKernel) (req : RuleRequest) :
    (fwxApiAddAppFilterWhitelist k req).macPart = k.macPart := by
  rw [fwxApiAddAppFilterWhitelist]
  split <;> rfl

/-- These requests leave the lists alone. -/
theorem macListsOk_app (h : MacListsOk (k, sets)) (hask : ∀ l, call.change l = none)
    (hpart : k'.macPart = k.macPart) : MacListsOk (k', call.onSets k sets) := by
  rw [onSets_eq_self fun l => .inl (hask l)]
  exact macListsOk_same h (congrArg Prod.fst hpart) (congrArg (·.2.1) hpart)
    (congrArg (·.2.2) hpart)

/-! ## 6. Runs -/

/-- Each request keeps every list and its set together. -/
theorem macListStep_ok {p q : FilterKernel × MacSets} {call : FilterCall} (h : MacListsOk p)
    (hfits : MacCallFits p call) (hstep : macListStep p call q) : MacListsOk q := by
  obtain ⟨k, sets⟩ := p
  obtain ⟨k', sets'⟩ := q
  obtain ⟨hcall, rfl⟩ := hstep
  cases call with
  | addAppFilterRule req =>
    obtain rfl := Option.some.inj hcall
    exact macListsOk_app h (fun l => by cases l <;> rfl) (fwxApiAddAppFilterRule_macPart k req)
  | modAppFilterRule req =>
    obtain rfl := Option.some.inj hcall
    exact macListsOk_app h (fun l => by cases l <;> rfl) (fwxApiModAppFilterRule_macPart k req)
  | delAppFilterRule req =>
    exact macListsOk_app h (fun l => by cases l <;> rfl) (fwxApiDelAppFilterRule_macPart hcall)
  | flushAppFilterRule =>
    obtain rfl := Option.some.inj hcall
    exact macListsOk_app h (fun l => by cases l <;> rfl) rfl
  | addAppFilterWhitelist req =>
    obtain rfl := Option.some.inj hcall
    exact macListsOk_app h (fun l => by cases l <;> rfl)
      (fwxApiAddAppFilterWhitelist_macPart k req)
  | flushAppFilterWhitelist =>
    obtain rfl := Option.some.inj hcall
    exact macListsOk_app h (fun l => by cases l <;> rfl) rfl
  | addMacFilterRule req =>
    obtain rfl := Option.some.inj hcall
    rw [onSets_eq_self fun l => .inl (by cases l <;> rfl)]
    exact macListsOk_addMacFilterRule h req
  | modMacFilterRule req =>
    obtain rfl := Option.some.inj hcall
    exact macListsOk_modMacFilterRule h hfits
  | delMacFilterRule req =>
    obtain rfl := Option.some.inj hcall
    exact macListsOk_delMacFilterRule h hfits
  | flushMacFilterRule =>
    obtain rfl := Option.some.inj hcall
    exact macListsOk_flushMacFilterRule h
  | addMacFilterWhitelist req =>
    obtain rfl := Option.some.inj hcall
    refine macListsOk_whitelist (l := .macFilterWhitelist) h rfl rfl ?_ ?_ fun hrep =>
      represents_addWhitelist hrep (hfits .macFilterWhitelist _ rfl _ rfl)
    all_goals intro l' hl'; cases l' <;> first | rfl | exact absurd rfl hl'
  | delMacFilterWhitelist req =>
    obtain rfl := Option.some.inj hcall
    refine macListsOk_whitelist (l := .macFilterWhitelist) h rfl rfl ?_ ?_ fun hrep =>
      represents_delWhitelist hrep (hfits .macFilterWhitelist _ rfl)
    all_goals intro l' hl'; cases l' <;> first | rfl | exact absurd rfl hl'
  | flushMacFilterWhitelist =>
    obtain rfl := Option.some.inj hcall
    refine macListsOk_whitelist (l := .macFilterWhitelist) h rfl rfl ?_ ?_ fun _ =>
      represents_replace_nil (s := ∅)
    all_goals intro l' hl'; cases l' <;> first | rfl | exact absurd rfl hl'
  | addRecordWhitelist req =>
    obtain rfl := Option.some.inj hcall
    refine macListsOk_whitelist (l := .recordWhitelist) h rfl rfl ?_ ?_ fun hrep =>
      represents_addWhitelist hrep (hfits .recordWhitelist _ rfl _ rfl)
    all_goals intro l' hl'; cases l' <;> first | rfl | exact absurd rfl hl'
  | delRecordWhitelist req =>
    obtain rfl := Option.some.inj hcall
    refine macListsOk_whitelist (l := .recordWhitelist) h rfl rfl ?_ ?_ fun hrep =>
      represents_delWhitelist hrep (hfits .recordWhitelist _ rfl)
    all_goals intro l' hl'; cases l' <;> first | rfl | exact absurd rfl hl'
  | flushRecordWhitelist =>
    obtain rfl := Option.some.inj hcall
    refine macListsOk_whitelist (l := .recordWhitelist) h rfl rfl ?_ ?_ fun _ =>
      represents_replace_nil (s := ∅)
    all_goals intro l' hl'; cases l' <;> first | rfl | exact absurd rfl hl'

/-- The lists when the module has been loaded, and the empty sets. -/
def macListsInit (kmem : Kmem) : FilterKernel × MacSets := ({ kmem := kmem }, fun _ => ∅)

theorem macListsOk_init (kmem : Kmem) : MacListsOk (macListsInit kmem) :=
  ⟨List.nodup_nil, fun l => by cases l <;> exact represents_init⟩

/-- **MAC lists are sets.**  In every run of requests that fit the lists they are made to,
`fwx_find_mac_node` finds an address in a list iff it is in the set of the same requests. -/
theorem mac_lists_are_sets {kmem : Kmem} {p : FilterKernel × MacSets}
    (h : Reaches macListStep MacCallFits (macListsInit kmem) p) (l : MacListId) (config : MacConfig)
    (hl : p.1.macListOf l = some config) (mac : Mac) :
    fwxFindMacNode config mac = true ↔ mac ∈ p.2 l := by
  have hok : MacListsOk p :=
    h.invariant (fun _ _ _ hp hfits hstep => macListStep_ok hp hfits hstep) (macListsOk_init kmem)
  have hrep := hok.represents l mac
  rwa [hl] at hrep

/-! ## 7. An address that is added, and deleted -/

/-- An allocator that never fails. -/
def freeMemory : Kmem := { outcome := fun _ => true }

def guestText : Option CStr := some (.lit "02:00:00:00:00:a7")

def guestMac : Mac := #v[2, 0, 0, 0, 0, 0xa7]

/-- The address is added to the record whitelist. -/
def addGuest : FilterCall := .addRecordWhitelist { macList := some [guestText] }

/-- It is deleted from it. -/
def delGuest : FilterCall := .delRecordWhitelist { mac := some guestText }

def guestAdded (p : FilterKernel × MacSets) : FilterKernel × MacSets :=
  (fwxApiAddRecordWhitelist p.1 { macList := some [guestText] }, addGuest.onSets p.1 p.2)

def guestDeleted (p : FilterKernel × MacSets) : FilterKernel × MacSets :=
  (fwxApiDelRecordWhitelist p.1 { mac := some guestText }, delGuest.onSets p.1 p.2)

theorem guestAdded_step (p : FilterKernel × MacSets) : macListStep p addGuest (guestAdded p) :=
  ⟨rfl, rfl⟩

theorem guestDeleted_step (p : FilterKernel × MacSets) :
    macListStep p delGuest (guestDeleted p) := ⟨rfl, rfl⟩

theorem delGuest_change : delGuest.change .recordWhitelist = some (.del guestMac) := by
  have hmac : macStrToBin guestText = some guestMac := by decide
  simp only [delGuest, FilterCall.change, Option.bind_some, hmac, Option.map_some]

theorem notMem_guestDeleted (p : FilterKernel × MacSets) :
    guestMac ∉ (guestDeleted p).2 .recordWhitelist := by
  simp only [guestDeleted, onSets_of_some delGuest_change rfl]
  exact fun h => h.2 rfl

theorem mac_lists_are_sets_guest :
    ¬ fwxFindMacNode (guestDeleted (guestAdded (macListsInit freeMemory))).1.gRecordWhitelist
      guestMac = true := by
  have hadd : MacCallFits (macListsInit freeMemory) addGuest := by
    intro l config hl change hchange
    cases l with
    | rule ruleId => exact absurd hchange (Option.not_mem_none _)
    | macFilterWhitelist => exact absurd hchange (Option.not_mem_none _)
    | recordWhitelist =>
      obtain rfl := Option.some.inj hchange
      exact fun mac hmac => .inr (nodeGranted_of_allOk (fun _ => rfl) hmac)
  have hdel : MacCallFits (guestAdded (macListsInit freeMemory)) delGuest := by
    intro l config hl change hchange
    cases l with
    | rule ruleId => exact absurd hchange (Option.not_mem_none _)
    | macFilterWhitelist => exact absurd hchange (Option.not_mem_none _)
    | recordWhitelist =>
      obtain rfl := Option.some.inj (delGuest_change.symm.trans hchange)
      obtain rfl := Option.some.inj hl
      rw [MacChange.Fits]
      decide
  have hrun := (Reaches.refl.tail hadd (guestAdded_step _)).tail hdel (guestDeleted_step _)
  rw [mac_lists_are_sets hrun .recordWhitelist _ rfl guestMac]
  exact notMem_guestDeleted _

/-- **Added twice, deleted once, and still found.** -/
theorem deleted_mac_found :
    let p := guestDeleted (guestAdded (guestAdded (macListsInit freeMemory)))
    Reaches macListStep Always (macListsInit freeMemory) p ∧
      fwxFindMacNode p.1.gRecordWhitelist guestMac = true ∧ guestMac ∉ p.2 .recordWhitelist := by
  refine ⟨?_, by decide, notMem_guestDeleted _⟩
  exact ((Reaches.refl.tail trivial (guestAdded_step _)).tail trivial (guestAdded_step _)).tail
    trivial (guestDeleted_step _)

end Oaf
