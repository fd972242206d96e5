/-
# The app-filter policy

What the app-filter rules are for: a finite map from rule ids to rules, a rule being a flag, a QUIC
flag, a set of addresses and a set of app ids.  The kernel module keeps it in hash tables with
counters; here the same requests are made to both.

* `policyStep_ok`: each request keeps the tables and the policy together.
* `policy_refined`: in every run, `fwx_match_app_filter_rule` finds a rule iff the policy has one,
  and the counters are the sizes of the sets.

An address, an id or a rule for which there is no memory is left out of the policy too.
-/
import Mathlib.Data.Finset.Card
import Mathlib.Data.Set.Card
import Oaf.Filter.MacLists

namespace Oaf

open CLib Chains Runs

/-! ## 1. The policy -/

structure PolicyRule where
  enable : Bool := true
  quic : Bool := false
  macs : Finset Mac := ∅
  appIds : Finset Nat := ∅

/-- The rules by their ids. -/
abbrev Policy := Int → Option PolicyRule

/-- The ids in use. -/
def Policy.ids (P : Policy) : Set Int := {ruleId | (P ruleId).isSome = true}

/-- Some enabled rule for this address, or for all of them, has the app id. -/
def Policy.Matches (P : Policy) (appId : Nat) (mac : Mac) : Prop :=
  ∃ ruleId rule, P ruleId = some rule ∧ rule.enable = true ∧ (rule.macs = ∅ ∨ mac ∈ rule.macs) ∧
    ((appId = FWX_QUIC_PROTO.toNat ∧ rule.quic = true) ∨
      (appId ≠ FWX_QUIC_PROTO.toNat ∧ appId ∈ rule.appIds))

/-- Addresses are added in order; an address without memory is left out. -/
def addMacs : Kmem → Finset Mac → List Mac → Finset Mac × Kmem
  | kmem, s, [] => (s, kmem)
  | kmem, s, mac :: rest =>
    addMacs kmem.kzalloc.2 (if kmem.kzalloc.1 then insert mac s else s) rest

/-- Ids are added in order; only a new one needs memory, and the first without it is the last. -/
def addIds : Kmem → Finset Nat → List Nat → Finset Nat × Kmem
  | kmem, s, [] => (s, kmem)
  | kmem, s, appId :: rest =>
    if appId ∈ s then addIds kmem s rest
    else if kmem.kzalloc.1 then addIds kmem.kzalloc.2 (insert appId s) rest
    else (s, kmem.kzalloc.2)

/-- The ids of every token are added. -/
def addTokens : Kmem → Finset Nat → List CJson → Finset Nat × Kmem
  | kmem, s, [] => (s, kmem)
  | kmem, s, token :: rest =>
    addTokens (addIds kmem s (idsOf (tokenRange token))).2
      (addIds kmem s (idsOf (tokenRange token))).1 rest

/-- With memory, everything is added. -/
theorem addMacs_of_allOk {kmem : Kmem} (h : kmem.AllOk) (s : Finset Mac) (macs : List Mac) :
    (addMacs kmem s macs).1 = s ∪ macs.toFinset := by
  induction macs generalizing kmem s with
  | nil => exact (Finset.union_empty s).symm
  | cons mac rest ih =>
    rw [addMacs, Kmem.kzalloc_fst, h, if_pos rfl, ih h.kzalloc, List.toFinset_cons,
      Finset.insert_union, Finset.union_insert]

theorem addIds_of_allOk {kmem : Kmem} (h : kmem.AllOk) (s : Finset Nat) (appIds : List Nat) :
    (addIds kmem s appIds).1 = s ∪ appIds.toFinset ∧ (addIds kmem s appIds).2.AllOk := by
  induction appIds generalizing kmem s with
  | nil => exact ⟨(Finset.union_empty s).symm, h⟩
  | cons appId rest ih =>
    rw [addIds, List.toFinset_cons, Finset.union_insert]
    by_cases hmem : appId ∈ s
    · rw [if_pos hmem, Finset.insert_eq_of_mem (Finset.mem_union_left _ hmem)]
      exact ih h s
    · rw [if_neg hmem, Kmem.kzalloc_fst, h, if_pos rfl, ← Finset.insert_union]
      exact ih h.kzalloc _

theorem addTokens_of_allOk {kmem : Kmem} (h : kmem.AllOk) (s : Finset Nat) (tokens : List CJson) :
    (addTokens kmem s tokens).1 =
      s ∪ (tokens.flatMap fun token => idsOf (tokenRange token)).toFinset := by
  induction tokens generalizing kmem s with
  | nil => exact (Finset.union_empty s).symm
  | cons token rest ih =>
    have hids := addIds_of_allOk h s (idsOf (tokenRange token))
    rw [addTokens, ih hids.2, hids.1, List.flatMap_cons, List.toFinset_append, Finset.union_assoc]

/-! ## 2. Requests to the policy -/

/-- What a modification asks of the app ids of its rule: whether they are replaced, and the
tokens. -/
def RuleRequest.appChange (req : RuleRequest) : Option (Bool × List CJson) :=
  match req.appAction with
  | none => none
  | some action =>
    if action = 1 then req.appIdList.map (true, ·)
    else if action = 2 then req.appIdList.map (false, ·)
    else if action = 3 then req.appId.map (false, [·])
    else some (true, [])

def RuleRequest.onMacs (req : RuleRequest) (kmem : Kmem) (s : Finset Mac) : Finset Mac × Kmem :=
  match req.macChange with
  | some (.add macs) => addMacs kmem s macs
  | some (.replace macs) => addMacs kmem ∅ macs
  | _ => (s, kmem)

def RuleRequest.onAppIds (req : RuleRequest) (kmem : Kmem) (s : Finset Nat) :
    Finset Nat × Kmem :=
  match req.appChange with
  | some (replace, tokens) => addTokens kmem (if replace then ∅ else s) tokens
  | none => (s, kmem)

def PolicyRule.mod (rule : PolicyRule) (kmem : Kmem) (req : RuleRequest) : PolicyRule where
  enable := (req.enable.map fun enable => decide (enable ≠ 0)).getD rule.enable
  quic := (req.filterQuic.map fun quic => decide (quic = 1)).getD rule.quic
  macs := (req.onMacs kmem rule.macs).1
  appIds := (req.onAppIds (req.onMacs kmem rule.macs).2 rule.appIds).1

/-- These ids are taken from a rule. -/
def PolicyRule.without (rule : PolicyRule) (appIds : List Nat) : PolicyRule :=
  { rule with appIds := rule.appIds \ appIds.toFinset }

/-- One rule of the policy is set. -/
def Policy.set (P : Policy) (ruleId : Int) (rule : Option PolicyRule) : Policy :=
  fun i => if i = ruleId then rule else P i

/-- A request to the policy. -/
def FilterCall.onPolicy (kmem : Kmem) (P : Policy) : FilterCall → Policy
  | .addAppFilterRule req =>
    match req.ruleId with
    | some ruleId =>
      if (P ruleId).isSome then P
      else if kmem.kzalloc.1 then P.set ruleId (some {}) else P
    | none => P
  | .modAppFilterRule req =>
    match req.ruleId with
    | some ruleId => P.set ruleId ((P ruleId).map (·.mod kmem req))
    | none => P
  | .delAppFilterRule req =>
    match req.ruleId, req.appId with
    | some ruleId, some token => P.set ruleId ((P ruleId).map (·.without (idsOf (tokenRange token))))
    | some ruleId, none => P.set ruleId none
    | none, _ => P
  | .flushAppFilterRule => fun _ => none
  | _ => P

/-- A token stands for a positive id or a range of them. -/
def TokenOk (token : CJson) : Prop :=
  ∃ startId endId, tokenRange token = some (startId, endId) ∧ 1 ≤ startId ∧ startId ≤ endId ∧
    endId ≤ 2000000

/-- All ids of the tokens. -/
def tokenIds (tokens : List CJson) : Finset Nat :=
  (tokens.flatMap fun token => idsOf (tokenRange token)).toFinset

/-- **The condition.**  Tokens are ids, no request is for more than 1024 ids in a rule, and no rule
is added to 64 others. -/
def PolicyCallOk (p : FilterKernel × Policy) : FilterCall → Prop
  | .addAppFilterRule req => ∀ ruleId ∈ req.ruleId, p.2 ruleId = none → p.2.ids.ncard < 64
  | .modAppFilterRule req =>
    ∀ ruleId ∈ req.ruleId, ∀ rule ∈ p.2 ruleId, ∀ change ∈ req.appChange,
      (∀ token ∈ change.2, TokenOk token) ∧
      ((if change.1 then ∅ else rule.appIds) ∪ tokenIds change.2).card ≤ 1024
  | .delAppFilterRule req => ∀ token ∈ req.appId, TokenOk token
  | _ => True

/-- A request to the kernel, and the same request to the policy. -/
def policyStep (p : FilterKernel × Policy) (call : FilterCall) (q : FilterKernel × Policy) : Prop :=
  fwxConfigHandle p.1 call = some q.1 ∧ q.2 = call.onPolicy p.1.kmem p.2

/-- With memory, a modification adds all it is asked to. -/
theorem mod_of_allOk {kmem : Kmem} (h : kmem.AllOk) (rule : PolicyRule) (req : RuleRequest) :
    (rule.mod kmem req).macs = (match req.macChange with
      | some (.add macs) => rule.macs ∪ macs.toFinset
      | some (.replace macs) => macs.toFinset
      | _ => rule.macs) ∧
    (rule.mod kmem req).appIds = (match req.appChange with
      | some (replace, tokens) => (if replace then ∅ else rule.appIds) ∪ tokenIds tokens
      | none => rule.appIds) := by
  have hmacs : ∀ (s : Finset Mac) (macs : List Mac), (addMacs kmem s macs).2.AllOk := by
    intro s macs
    induction macs generalizing kmem s with
    | nil => exact h
    | cons mac rest ih => exact ih h.kzalloc _
  have hmem : (req.onMacs kmem rule.macs).2.AllOk := by
    rw [RuleRequest.onMacs]
    split
    · exact hmacs _ _
    · exact hmacs _ _
    · exact h
  constructor
  · change (req.onMacs kmem rule.macs).1 = _
    rw [RuleRequest.onMacs]
    split
    · exact addMacs_of_allOk h _ _
    · exact (addMacs_of_allOk h _ _).trans (Finset.empty_union _)
    · rfl
  · change (req.onAppIds (req.onMacs kmem rule.macs).2 rule.appIds).1 = _
    rw [RuleRequest.onAppIds]
    split
    · exact addTokens_of_allOk hmem _ _
    · rfl

/-! ## 3. What the tables represent -/

/-- The addresses of a table. -/
structure MacsRel (config : MacConfig) (s : Finset Mac) : Prop where
  placed : Placed macHash config.hashTable
  find : ∀ mac, fwxFindMacNode config mac = true ↔ mac ∈ s

/-- The chain of an app id. -/
def appIdHash (appId : Nat) : Fin APPID_HASH_SIZE :=
  ⟨appId % APPID_HASH_SIZE, appId_mod_lt appId⟩

/-- The app ids of a table, each in one node, and their number. -/
structure IdsRel (config : AppIdConfig) (s : Finset Nat) : Prop where
  placed : Placed appIdHash config.hashTable
  distinct : Distinct id config.hashTable
  find : ∀ appId, findAppIdNode config appId = true ↔ appId ∈ s
  count : config.count = s.card

structure RuleRel (rule : AppFilterRule) (r : PolicyRule) : Prop where
  enable : (rule.enable != 0) = r.enable
  quic : (rule.filterQuic == 1) = r.quic
  macs : MacsRel rule.macList r.macs
  appIds : IdsRel rule.appIdList r.appIds

/-- The rules of the kernel are those of the policy. -/
structure PolicyOk (p : FilterKernel × Policy) : Prop where
  ids : (p.1.config.appFilterRuleList.map AppFilterRule.ruleId).Nodup
  count : p.1.gAppRuleCount = p.1.config.appFilterRuleList.length
  rules : ∀ ruleId, Option.Rel RuleRel (fwxFindAppFilterRule p.1 ruleId) (p.2 ruleId)

/-! ## 4. Addresses -/

variable {kmem : Kmem}

section Macs

variable {config : MacConfig} {s : Finset Mac}

theorem macsRel_init : MacsRel fwxMacConfigInit ∅ :=
  ⟨fun _ _ h => absurd h List.not_mem_nil,
    fun _ => ⟨fun h => Bool.noConfusion h, fun h => absurd h (Finset.notMem_empty _)⟩⟩

theorem macsRel_addMacNode (h : MacsRel config s) (mac : Mac) :
    MacsRel (addMacNode kmem config mac).1 (if kmem.kzalloc.1 then insert mac s else s) := by
  rw [addMacNode]
  split
  · refine ⟨h.placed.modify (f := (mac :: ·)) fun a ha => ?_, fun x => ?_⟩
    · rcases List.mem_cons.mp ha with rfl | ha
      · rfl
      · exact h.placed _ a ha
    · rw [find_fwxAddMacNode, h.find x, Finset.mem_insert, or_comm]
  · exact h

theorem macsRel_addMacList (h : MacsRel config s) (macArray : List (Option CStr)) :
    MacsRel (addMacList kmem config macArray).1
        (addMacs kmem s (macArray.filterMap macStrToBin)).1 ∧
      (addMacList kmem config macArray).2 =
        (addMacs kmem s (macArray.filterMap macStrToBin)).2 := by
  induction macArray generalizing kmem config s with
  | nil => exact ⟨h, rfl⟩
  | cons macStr rest ih =>
    rw [addMacList]
    cases hparse : macStrToBin macStr with
    | none =>
      rw [List.filterMap_cons_none hparse]
      exact ih h
    | some mac =>
      rw [List.filterMap_cons_some hparse, addMacs, ← addMacNode_snd kmem config mac]
      exact ih (macsRel_addMacNode h mac)

theorem macsRel_macAction (kmem : Kmem) (h : MacsRel config s) (req : RuleRequest) :
    MacsRel (macAction kmem config req).1 (req.onMacs kmem s).1 ∧
      (macAction kmem config req).2 = (req.onMacs kmem s).2 := by
  rw [RuleRequest.onMacs, RuleRequest.macChange, macAction]
  cases req.macAction with
  | none => exact ⟨h, rfl⟩
  | some action =>
    dsimp only
    by_cases h1 : action = 1
    · simp only [h1, if_true, true_or]
      cases hlist : req.macList with
      | none => exact ⟨h, rfl⟩
      | some macArray =>
        simp only [RuleRequest.macs, hlist]
        exact macsRel_addMacList macsRel_init macArray
    by_cases h2 : action = 2
    · simp only [h2, if_true, or_true]
      cases hlist : req.macList with
      | none => exact ⟨h, rfl⟩
      | some macArray =>
        simp only [RuleRequest.macs, hlist]
        exact macsRel_addMacList h macArray
    by_cases h3 : action = 3
    · simp only [h3, if_true]
      cases req.mac with
      | none => exact ⟨h, rfl⟩
      | some macStr => exact macsRel_addMacList h [macStr]
    · simp only [h1, h2, h3, if_false, or_self]
      exact ⟨macsRel_init, rfl⟩

/-- A table without a node holds no address, and only that one. -/
theorem macListEmpty_iff (h : MacsRel config s) : macListEmpty config = true ↔ s = ∅ := by
  rw [macListEmpty, List.all_eq_true]
  constructor
  · intro hall
    refine Finset.eq_empty_of_forall_notMem fun mac hmac => ?_
    have hchain := List.isEmpty_iff.mp (hall (macHash mac) (List.mem_finRange _))
    have hfind := (h.find mac).mpr hmac
    rw [fwxFindMacNode, hchain] at hfind
    exact Bool.noConfusion hfind
  · intro hs i _
    rw [List.isEmpty_iff, List.eq_nil_iff_forall_not_mem]
    intro mac hmac
    have hfind : fwxFindMacNode config mac = true := by
      rw [fwxFindMacNode, h.placed i mac hmac, List.contains_iff_mem]
      exact hmac
    exact Finset.notMem_empty mac (hs ▸ (h.find mac).mp hfind)

end Macs

/-! ## 5. App ids -/

section AppIds

variable {config : AppIdConfig} {s : Finset Nat}

theorem idsRel_init : IdsRel {} ∅ :=
  ⟨fun _ _ h => absurd h List.not_mem_nil, fun _ => List.nodup_nil,
    fun _ => ⟨fun h => Bool.noConfusion h, fun h => absurd h (Finset.notMem_empty _)⟩, rfl⟩

theorem findAppIdNode_iff (config : AppIdConfig) (appId : Nat) :
    findAppIdNode config appId = true ↔ appId ∈ config.hashTable (appIdHash appId) :=
  List.contains_iff_mem

theorem idsRel_insert (h : IdsRel config s) {appId : Nat} (hnew : appId ∉ s) :
    IdsRel { hashTable := Table.modify config.hashTable (appIdHash appId) (appId :: ·)
             count := config.count + 1 } (insert appId s) := by
  have hnot : appId ∉ config.hashTable (appIdHash appId) := fun hmem =>
    hnew ((h.find appId).mp ((findAppIdNode_iff config appId).mpr hmem))
  refine ⟨h.placed.modify fun a ha => ?_, h.distinct.modify ?_, fun x => ?_, ?_⟩
  · rcases List.mem_cons.mp ha with rfl | ha
    · rfl
    · exact h.placed _ a ha
  · rw [List.map_cons, List.nodup_cons, List.map_id]
    exact ⟨hnot, List.map_id (config.hashTable (appIdHash appId)) ▸ h.distinct _⟩
  · rw [findAppIdNode_iff, Finset.mem_insert, ← h.find x, findAppIdNode_iff]
    dsimp only
    by_cases hhash : appIdHash x = appIdHash appId
    · rw [hhash, modify_self, List.mem_cons]
    · rw [modify_of_ne _ hhash]
      exact ⟨.inr, fun hor => hor.resolve_left fun hx => hhash (by rw [hx])⟩
  · rw [Finset.card_insert_of_notMem hnew, Nat.cast_succ, ← h.count]

theorem idsRel_erase (h : IdsRel config s) (appId : Nat) :
    IdsRel (delAppIdNode config appId) (s.erase appId) := by
  rw [delAppIdNode]
  split
  · rename_i hfound
    have hmem : appId ∈ s := (h.find appId).mp hfound
    have hnodup : (config.hashTable (appIdHash appId)).Nodup :=
      List.map_id (config.hashTable (appIdHash appId)) ▸ h.distinct _
    change IdsRel { hashTable := Table.modify config.hashTable (appIdHash appId) (·.erase appId)
                    count := config.count - 1 } _
    refine ⟨h.placed.modify (f := (·.erase appId)) fun a ha =>
        h.placed _ a (List.mem_of_mem_erase ha),
      h.distinct.modify (f := (·.erase appId)) ?_, fun x => ?_, ?_⟩
    · rw [List.map_id]
      exact hnodup.erase appId
    · rw [findAppIdNode_iff, Finset.mem_erase, ← h.find x, findAppIdNode_iff]
      dsimp only
      by_cases hhash : appIdHash x = appIdHash appId
      · rw [hhash, modify_self]
        exact hnodup.mem_erase_iff
      · rw [modify_of_ne _ hhash]
        exact (and_iff_right fun hx => hhash (by rw [hx])).symm
    · rw [Finset.card_erase_of_mem hmem, h.count]
      have hpos := Finset.card_pos.mpr ⟨appId, hmem⟩
      dsimp only
      omega
  · rename_i hnone
    rw [Finset.erase_eq_of_notMem fun hmem => hnone ((h.find appId).mpr hmem)]
    exact h

theorem addIds_subset (kmem : Kmem) (s : Finset Nat) (appIds : List Nat) :
    s ⊆ (addIds kmem s appIds).1 ∧ (addIds kmem s appIds).1 ⊆ s ∪ appIds.toFinset := by
  induction appIds generalizing kmem s with
  | nil => exact ⟨Finset.Subset.refl s, Finset.subset_union_left⟩
  | cons appId rest ih =>
    rw [addIds, List.toFinset_cons]
    split
    · obtain ⟨hlow, hhigh⟩ := ih kmem s
      exact ⟨hlow, hhigh.trans (Finset.union_subset_union_right (Finset.subset_insert _ _))⟩
    split
    · obtain ⟨hlow, hhigh⟩ := ih kmem.kzalloc.2 (insert appId s)
      refine ⟨(Finset.subset_insert _ _).trans hlow, hhigh.trans ?_⟩
      rw [Finset.insert_union, Finset.union_insert]
    · exact ⟨Finset.Subset.refl s, Finset.subset_union_left⟩

/-- Adding ids that the rule has room for. -/
theorem idsRel_addAppIds (kmem : Kmem) (h : IdsRel config s) {appIds : List Nat}
    (hroom : (s ∪ appIds.toFinset).card ≤ 1024) :
    IdsRel (addAppIds kmem config appIds).1 (addIds kmem s appIds).1 ∧
      (addAppIds kmem config appIds).2 = (addIds kmem s appIds).2 := by
  induction appIds generalizing kmem config s with
  | nil => exact ⟨h, rfl⟩
  | cons appId rest ih =>
    rw [List.toFinset_cons, Finset.union_insert] at hroom
    rw [addAppIds, addIds, addAppIdNode]
    by_cases hmem : appId ∈ s
    · rw [if_pos ((h.find appId).mpr hmem), if_pos hmem]
      exact ih kmem h ((Finset.card_le_card (Finset.subset_insert _ _)).trans hroom)
    · have hfit : ¬ MAX_APP_ID_PER_RULE ≤ config.count := by
        have hinsert : (insert appId s).card ≤ 1024 :=
          (Finset.card_le_card (Finset.insert_subset_insert _ Finset.subset_union_left)).trans hroom
        rw [Finset.card_insert_of_notMem hmem] at hinsert
        rw [h.count, MAX_APP_ID_PER_RULE]
        omega
      rw [if_neg (fun hfound => hmem ((h.find appId).mp hfound)), if_neg hmem, if_neg hfit]
      by_cases hgrant : kmem.kzalloc.1 = true
      · rw [if_pos hgrant, if_pos hgrant]
        exact ih _ (idsRel_insert h hmem) (by rwa [Finset.insert_union])
      · rw [if_neg hgrant, if_neg hgrant]
        exact ⟨h, rfl⟩

theorem tokenIds_cons (token : CJson) (rest : List CJson) :
    tokenIds (token :: rest) = (idsOf (tokenRange token)).toFinset ∪ tokenIds rest := by
  rw [tokenIds, List.flatMap_cons, List.toFinset_append, tokenIds]

theorem idsRel_addAppIdList (h : IdsRel config s) {tokens : List CJson}
    (hroom : (s ∪ tokenIds tokens).card ≤ 1024) :
    IdsRel (addAppIdList kmem config tokens).1 (addTokens kmem s tokens).1 ∧
      (addAppIdList kmem config tokens).2 = (addTokens kmem s tokens).2 := by
  induction tokens generalizing kmem config s with
  | nil => exact ⟨h, rfl⟩
  | cons token rest ih =>
    rw [tokenIds_cons, ← Finset.union_assoc] at hroom
    obtain ⟨hrel, hmem⟩ := idsRel_addAppIds kmem h
      ((Finset.card_le_card Finset.subset_union_left).trans hroom)
    rw [addAppIdList, addTokens, ← hmem]
    refine ih hrel ((Finset.card_le_card ?_).trans hroom)
    exact Finset.union_subset_union_left (addIds_subset _ _ _).2

theorem idsRel_appAction (h : IdsRel config s) {req : RuleRequest}
    (hroom : ∀ change ∈ req.appChange,
      ((if change.1 then ∅ else s) ∪ tokenIds change.2).card ≤ 1024) :
    IdsRel (appAction kmem config req).1 (req.onAppIds kmem s).1 := by
  rw [RuleRequest.appChange] at hroom
  rw [RuleRequest.onAppIds, RuleRequest.appChange, appAction]
  cases haction : req.appAction with
  | none => exact h
  | some action =>
    rw [haction] at hroom
    dsimp only at hroom ⊢
    by_cases h1 : action = 1
    · simp only [h1, if_true, true_or] at hroom ⊢
      cases hlist : req.appIdList with
      | none => exact h
      | some tokens =>
        rw [hlist] at hroom
        exact (idsRel_addAppIdList idsRel_init (hroom _ rfl)).1
    by_cases h2 : action = 2
    · simp only [h2, if_true, or_true] at hroom ⊢
      cases hlist : req.appIdList with
      | none => exact h
      | some tokens =>
        rw [hlist] at hroom
        exact (idsRel_addAppIdList h (hroom _ rfl)).1
    by_cases h3 : action = 3
    · simp only [h3, if_true] at hroom ⊢
      cases happ : req.appId with
      | none => exact h
      | some token =>
        rw [happ] at hroom
        exact (idsRel_addAppIdList h (hroom _ rfl)).1
    · simp only [h1, h2, h3, if_false, or_self]
      exact idsRel_init

end AppIds

/-! ## 6. Rules -/

variable {k k' : FilterKernel} {P : Policy} {ruleId : Int}

/-- `modAppRule` and the modification of the policy's rule. -/
theorem ruleRel_mod {rule : AppFilterRule} {r : PolicyRule} (h : RuleRel rule r) {req : RuleRequest}
    (hroom : ∀ change ∈ req.appChange,
      ((if change.1 then ∅ else r.appIds) ∪ tokenIds change.2).card ≤ 1024) :
    RuleRel (modAppRule kmem rule req).1 (r.mod kmem req) := by
  obtain ⟨hmacs, hmem⟩ := macsRel_macAction kmem h.macs req
  refine ⟨?_, ?_, hmacs, ?_⟩
  · change ((req.enable.getD rule.enable) != 0) = _
    rw [PolicyRule.mod]
    cases req.enable with
    | none => exact h.enable
    | some enable =>
      dsimp only [Option.map_some, Option.getD_some]
      rw [Bool.eq_iff_iff, bne_iff_ne, decide_eq_true_iff]
  · change ((match req.filterQuic with
      | some quic => if quic = 1 then 1 else 0
      | none => rule.filterQuic) == 1) = _
    rw [PolicyRule.mod]
    cases req.filterQuic with
    | none => exact h.quic
    | some quic =>
      dsimp only [Option.map_some, Option.getD_some]
      by_cases hquic : quic = 1
      · rw [if_pos hquic, decide_eq_true hquic]
        rfl
      · rw [if_neg hquic, decide_eq_false hquic]
        rfl
  · change IdsRel (appAction (macAction kmem rule.macList req).2 rule.appIdList req).1
      (req.onAppIds (req.onMacs kmem r.macs).2 r.appIds).1
    rw [← hmem]
    exact idsRel_appAction h.appIds hroom

theorem ruleRel_new (ruleId : Int) : RuleRel { ruleId := ruleId } {} :=
  ⟨rfl, rfl, macsRel_init, idsRel_init⟩

theorem appRuleId_of_find {rule : AppFilterRule}
    (hfind : fwxFindAppFilterRule k ruleId = some rule) : rule.ruleId = ruleId := by
  have hlookup : lookup AppFilterRule.ruleId ruleId k.config.appFilterRuleList = some rule := hfind
  exact key_of_lookup hlookup

theorem set_map_of_none {f : PolicyRule → PolicyRule} (h : P ruleId = none) :
    P.set ruleId ((P ruleId).map f) = P := by
  funext i
  rw [Policy.set, h]
  split
  · rename_i hi
    rw [hi, h]
    rfl
  · rfl

/-- What a rule of the kernel is in the policy. -/
theorem PolicyOk.find_some (h : PolicyOk (k, P)) {rule : AppFilterRule}
    (hfind : fwxFindAppFilterRule k ruleId = some rule) :
    ∃ r, P ruleId = some r ∧ RuleRel rule r := by
  have hrel := h.rules ruleId
  simp only [hfind] at hrel
  cases hP : P ruleId with
  | none =>
    rw [hP] at hrel
    cases hrel
  | some r =>
    rw [hP] at hrel
    cases hrel with
    | some hr => exact ⟨r, rfl, hr⟩

theorem PolicyOk.find_none (h : PolicyOk (k, P)) (hfind : fwxFindAppFilterRule k ruleId = none) :
    P ruleId = none := by
  have hrel := h.rules ruleId
  simp only [hfind] at hrel
  cases hP : P ruleId with
  | none => rfl
  | some r =>
    rw [hP] at hrel
    cases hrel

/-- Only the rules and their number matter. -/
theorem PolicyOk.of_same (h : PolicyOk (k, P))
    (hrules : k'.config.appFilterRuleList = k.config.appFilterRuleList)
    (hcount : k'.gAppRuleCount = k.gAppRuleCount) : PolicyOk (k', P) := by
  refine ⟨by simpa only [hrules] using h.ids, by simpa only [hrules, hcount] using h.count,
    fun ruleId => ?_⟩
  have hfind : fwxFindAppFilterRule k' ruleId = fwxFindAppFilterRule k ruleId := by
    rw [fwxFindAppFilterRule, hrules, fwxFindAppFilterRule]
  simpa only [hfind] using h.rules ruleId

/-- A rule is changed in place, and in the policy. -/
theorem policyOk_update {rule : AppFilterRule} (rule' : AppFilterRule) {r' : PolicyRule} (h : PolicyOk (k, P))
    (hfind : fwxFindAppFilterRule k ruleId = some rule) (hid : rule'.ruleId = ruleId)
    (hrel : RuleRel rule' r')
    (hrules : k'.config.appFilterRuleList =
      updateFirst (fun r => r.ruleId == ruleId) (fun _ => rule') k.config.appFilterRuleList)
    (hcount : k'.gAppRuleCount = k.gAppRuleCount) :
    PolicyOk (k', P.set ruleId (some r')) := by
  refine ⟨?_, ?_, fun i => ?_⟩
  · simp only [hrules]
    exact nodup_updateFirst (fun _ _ => hid) h.ids
  · simp only [hrules, hcount, length_updateFirst]
    exact h.count
  · have hlookup : fwxFindAppFilterRule k' i = _ := (congrArg (List.find? _) hrules).trans
      (lookup_updateFirst i (fun _ _ => hid) k.config.appFilterRuleList)
    simp only [hlookup, Policy.set]
    have hself : lookup AppFilterRule.ruleId ruleId k.config.appFilterRuleList = some rule := hfind
    by_cases hi : i = ruleId
    · rw [if_pos hi, if_pos hi, hself]
      exact .some hrel
    · rw [if_neg hi, if_neg hi]
      exact h.rules i

/-- The number of the rules. -/
theorem PolicyOk.ncard (h : PolicyOk (k, P)) : k.gAppRuleCount = P.ids.ncard := by
  have hids : P.ids = ↑(k.config.appFilterRuleList.map AppFilterRule.ruleId).toFinset := by
    ext i
    rw [Finset.mem_coe, List.mem_toFinset, Policy.ids, Set.mem_ofPred_eq]
    cases hfind : fwxFindAppFilterRule k i with
    | none =>
      rw [h.find_none hfind]
      exact ⟨fun h => Bool.noConfusion h, fun hmem => absurd hmem (lookup_eq_none_iff.mp hfind)⟩
    | some rule =>
      obtain ⟨r, hP, -⟩ := h.find_some hfind
      rw [hP]
      exact iff_of_true rfl
        (List.mem_map.mpr ⟨rule, mem_of_lookup hfind, appRuleId_of_find hfind⟩)
  rw [hids, Set.ncard_coe_finset, List.toFinset_card_of_nodup h.ids, List.length_map]
  exact h.count

/-! ## 7. Requests -/

theorem policyOk_add (h : PolicyOk (k, P)) {req : RuleRequest}
    (hok : PolicyCallOk (k, P) (.addAppFilterRule req)) :
    PolicyOk (fwxApiAddAppFilterRule k req,
      FilterCall.onPolicy k.kmem P (.addAppFilterRule req)) := by
  rw [fwxApiAddAppFilterRule, FilterCall.onPolicy]
  cases hid : req.ruleId with
  | none => exact h
  | some ruleId =>
    dsimp only
    rw [fwxAddAppFilterRule]
    cases hfind : fwxFindAppFilterRule k ruleId with
    | some rule =>
      obtain ⟨r, hP, -⟩ := h.find_some hfind
      have hfind' : fwxFindAppFilterRule k.stamp ruleId = some rule := hfind
      rw [hP, hfind', Option.isSome_some, Option.isSome_some, if_pos rfl, if_pos rfl, ite_self]
      exact h.of_same rfl rfl
    | none =>
      have hP := h.find_none hfind
      have hfind' : fwxFindAppFilterRule k.stamp ruleId = none := hfind
      have hfew : ¬ MAX_APP_FILTER_RULE_NUM ≤ k.stamp.gAppRuleCount := by
        have hlt : P.ids.ncard < 64 := hok ruleId hid hP
        have hcount : k.stamp.gAppRuleCount = P.ids.ncard := h.ncard
        rw [hcount, MAX_APP_FILTER_RULE_NUM]
        omega
      rw [hP, hfind', Option.isSome_none, Option.isSome_none, if_neg hfew,
        if_neg Bool.false_ne_true, if_neg Bool.false_ne_true]
      dsimp only
      by_cases hgrant : k.kmem.kzalloc.1 = true
      · rw [if_pos hgrant, if_pos (show k.stamp.kmem.kzalloc.1 = true from hgrant)]
        refine ⟨nodup_cons h.ids hfind, ?_, fun i => ?_⟩
        · have hcount := h.count
          change k.gAppRuleCount + 1 = ((_ :: k.config.appFilterRuleList).length : Int)
          rw [List.length_cons, Nat.cast_succ, ← hcount]
        · refine Eq.subst (motive := fun o => Option.Rel RuleRel o _) (lookup_cons _ _).symm ?_
          simp only [Policy.set]
          by_cases hi : i = ruleId
          · rw [if_pos hi, if_pos hi.symm]
            exact .some (ruleRel_new ruleId)
          · rw [if_neg hi, if_neg (Ne.symm hi)]
            exact h.rules i
      · rw [if_neg hgrant, if_neg (show ¬ k.stamp.kmem.kzalloc.1 = true from hgrant)]
        exact h.of_same rfl rfl

theorem policyOk_mod (h : PolicyOk (k, P)) {req : RuleRequest}
    (hroom : ∀ ruleId ∈ req.ruleId, ∀ rule ∈ P ruleId, ∀ change ∈ req.appChange,
      ((if change.1 then ∅ else rule.appIds) ∪ tokenIds change.2).card ≤ 1024) :
    PolicyOk (fwxApiModAppFilterRule k req,
      FilterCall.onPolicy k.kmem P (.modAppFilterRule req)) := by
  rw [fwxApiModAppFilterRule, FilterCall.onPolicy]
  cases hid : req.ruleId with
  | none => exact h
  | some ruleId =>
    dsimp only
    cases hfind : fwxFindAppFilterRule k ruleId with
    | none =>
      rw [set_map_of_none (h.find_none hfind)]
      exact h
    | some rule =>
      obtain ⟨r, hP, hrel⟩ := h.find_some hfind
      rw [hP]
      have hkey := appRuleId_of_find hfind
      exact policyOk_update (modAppRule k.kmem rule req).1 h hfind hkey
        (ruleRel_mod hrel (hroom ruleId hid r hP)) rfl rfl

/-- The deletion of one app id. -/
theorem policyOk_delAppId (h : PolicyOk (k, P)) {appId : Nat}
    (hdel : fwxDelAppIdFromRule k ruleId appId = some k') :
    PolicyOk (k', P.set ruleId ((P ruleId).map (·.without [appId]))) := by
  rw [fwxDelAppIdFromRule] at hdel
  cases hfind : fwxFindAppFilterRule k ruleId with
  | none =>
    rw [hfind] at hdel
    obtain rfl := Option.some.inj hdel
    rw [set_map_of_none (h.find_none hfind)]
    exact h
  | some rule =>
    obtain ⟨r, hP, hrel⟩ := h.find_some hfind
    have htmod : ¬ Int.tmod appId APPID_HASH_SIZE < 0 :=
      Int.not_lt.mpr (Int.tmod_nonneg _ (Int.natCast_nonneg appId))
    rw [hfind] at hdel
    dsimp only at hdel
    rw [if_neg htmod, if_neg (Int.not_lt.mpr (Int.natCast_nonneg appId)), Int.toNat_natCast] at hdel
    obtain rfl := Option.some.inj hdel
    have hkey := appRuleId_of_find hfind
    have hids : IdsRel (delAppIdNode rule.appIdList appId) (r.appIds \ [appId].toFinset) := by
      rw [List.toFinset_cons, List.toFinset_nil, insert_empty_eq, Finset.sdiff_singleton_eq_erase]
      exact idsRel_erase hrel.appIds appId
    rw [hP]
    exact policyOk_update { rule with appIdList := delAppIdNode rule.appIdList appId } h hfind hkey
      ⟨hrel.enable, hrel.quic, hrel.macs, hids⟩ rfl rfl

theorem set_set_map (f g : PolicyRule → PolicyRule) :
    (P.set ruleId ((P ruleId).map f)).set ruleId
        ((P.set ruleId ((P ruleId).map f) ruleId).map g) =
      P.set ruleId ((P ruleId).map (g ∘ f)) := by
  funext i
  simp only [Policy.set, if_true, Option.map_map]
  split <;> rfl

theorem without_nil (r : PolicyRule) : r.without [] = r := by
  rw [PolicyRule.without, List.toFinset_nil, Finset.sdiff_empty]

theorem without_comp_without (appId : Nat) (rest : List Nat) :
    (fun r : PolicyRule => r.without rest) ∘ (fun r : PolicyRule => r.without [appId]) =
      fun r => r.without (appId :: rest) := by
  funext r
  simp only [Function.comp_apply, PolicyRule.without, List.toFinset_cons, List.toFinset_nil,
    insert_empty_eq, Finset.sdiff_sdiff_left', Finset.insert_eq, Finset.sdiff_union_distrib]

/-- The loop over the ids of a token. -/
theorem policyOk_delAppIds (appIds : List Nat) (h : PolicyOk (k, P))
    (hdel : appIds.foldlM (fun k (appId : Nat) => fwxDelAppIdFromRule k ruleId appId) k = some k') :
    PolicyOk (k', P.set ruleId ((P ruleId).map (·.without appIds))) := by
  induction appIds generalizing k P with
  | nil =>
    obtain rfl := Option.some.inj hdel
    have hsame : P.set ruleId ((P ruleId).map (·.without [])) = P := by
      funext i
      simp only [Policy.set, without_nil, Option.map_id']
      split
      · rename_i hi
        rw [hi]
      · rfl
    rw [hsame]
    exact h
  | cons appId rest ih =>
    rw [List.foldlM_cons] at hdel
    obtain ⟨k1, h1, hrest⟩ := Option.bind_eq_some_iff.mp hdel
    have hok := ih (policyOk_delAppId h h1) hrest
    rwa [set_set_map, without_comp_without] at hok

/-- The deletion of a rule. -/
theorem policyOk_delRule (h : PolicyOk (k, P)) (ruleId : Int) :
    PolicyOk (fwxDelAppFilterRule k ruleId, P.set ruleId none) := by
  rw [fwxDelAppFilterRule]
  cases hfind : fwxFindAppFilterRule k ruleId with
  | none =>
    have hsame := set_map_of_none (f := id) (h.find_none hfind)
    rw [h.find_none hfind, Option.map_none] at hsame
    rw [hsame, Option.isSome_none, if_neg Bool.false_ne_true]
    exact h
  | some rule =>
    rw [Option.isSome_some, if_pos rfl]
    have hany : k.config.appFilterRuleList.any (fun r => r.ruleId == ruleId) = true :=
      List.any_eq_true.mpr ⟨rule, mem_of_lookup hfind, by simp [appRuleId_of_find hfind]⟩
    refine ⟨nodup_eraseP h.ids _, ?_, fun i => ?_⟩
    · have hcount : k.gAppRuleCount = k.config.appFilterRuleList.length := h.count
      have hpos : 0 < k.config.appFilterRuleList.length :=
        List.length_pos_of_mem (mem_of_lookup hfind)
      change k.gAppRuleCount - 1 = ((k.config.appFilterRuleList.eraseP _).length : Int)
      rw [List.length_eraseP, if_pos hany, hcount]
      omega
    · refine Eq.subst (motive := fun o => Option.Rel RuleRel o _)
        (lookup_eraseP (k := ruleId) i h.ids).symm ?_
      simp only [Policy.set]
      by_cases hi : i = ruleId
      · rw [if_pos hi, if_pos hi]
        exact .none
      · rw [if_neg hi, if_neg hi]
        exact h.rules i

/-- A number as a token. -/
theorem idsOf_number {token : CJson} (hok : TokenOk token) (htype : token.type = .number) :
    ∃ appId : Nat, token.valueint = appId ∧ idsOf (tokenRange token) = [appId] := by
  obtain ⟨startId, endId, hrange, -⟩ := hok
  rw [tokenRange, htype] at hrange ⊢
  dsimp only at hrange ⊢
  split at hrange
  · rename_i hpos
    refine ⟨token.valueint.toNat, (Int.toNat_of_nonneg hpos.le).symm, ?_⟩
    rw [if_pos hpos, idsOf, Nat.add_sub_cancel_left]
    rfl
  · exact absurd hrange (Option.some_ne_none _).symm

theorem policyOk_del (h : PolicyOk (k, P)) {req : RuleRequest}
    (hok : PolicyCallOk (k, P) (.delAppFilterRule req))
    (hdel : fwxApiDelAppFilterRule k req = some k') :
    PolicyOk (k', FilterCall.onPolicy k.kmem P (.delAppFilterRule req)) := by
  rw [fwxApiDelAppFilterRule] at hdel
  rw [FilterCall.onPolicy]
  have hstamp : PolicyOk (k.stamp, P) := h.of_same rfl rfl
  cases hid : req.ruleId with
  | none =>
    rw [hid] at hdel
    obtain rfl := Option.some.inj hdel
    exact h
  | some ruleId =>
    rw [hid] at hdel
    cases happ : req.appId with
    | some token =>
      rw [happ] at hdel
      dsimp only at hdel
      rw [delAppIdTokenFromRule] at hdel
      split at hdel
      · rename_i htype
        obtain ⟨appId, hval, hids⟩ := idsOf_number (hok token happ) htype
        rw [hval] at hdel
        simp only [hids]
        exact policyOk_delAppId hstamp hdel
      · exact policyOk_delAppIds _ hstamp hdel
    | none =>
      rw [happ] at hdel
      obtain rfl := Option.some.inj hdel
      exact policyOk_delRule hstamp ruleId

/-- What the policy is read from. -/
def FilterKernel.appPart (k : FilterKernel) : List AppFilterRule × Int :=
  (k.config.appFilterRuleList, k.gAppRuleCount)

theorem fwxApiAddMacFilterRule_appPart (k : FilterKernel) (req : RuleRequest) :
    (fwxApiAddMacFilterRule k req).appPart = k.appPart := by
  rw [fwxApiAddMacFilterRule]
  split
  · rfl
  rw [fwxAddMacFilterRule]
  split
  · rfl
  split
  · rfl
  dsimp only
  split <;> rfl

theorem fwxApiModMacFilterRule_appPart (k : FilterKernel) (req : RuleRequest) :
    (fwxApiModMacFilterRule k req).appPart = k.appPart := by
  rw [fwxApiModMacFilterRule]
  split
  · rfl
  split <;> rfl

theorem fwxApiDelMacFilterRule_appPart (k : FilterKernel) (req : RuleRequest) :
    (fwxApiDelMacFilterRule k req).appPart = k.appPart := by
  rw [fwxApiDelMacFilterRule]
  split
  · rfl
  split
  · split
    · rw [fwxDelMacFromRule]
      split <;> rfl
    · rfl
  · rw [fwxDelMacFilterRule]
    split <;> rfl

/-- The requests for app-filter rules. -/
def FilterCall.isAppRule : FilterCall → Bool
  | .addAppFilterRule _ | .modAppFilterRule _ | .delAppFilterRule _ | .flushAppFilterRule => true
  | _ => false

/-- The other requests leave the rules alone. -/
theorem appPart_of_other {call : FilterCall} (hother : call.isAppRule = false)
    (h : fwxConfigHandle k call = some k') : k'.appPart = k.appPart := by
  cases call with
  | addAppFilterRule req | modAppFilterRule req | delAppFilterRule req | flushAppFilterRule =>
    exact absurd hother.symm Bool.false_ne_true
  | addAppFilterWhitelist req =>
    obtain rfl := Option.some.inj h
    simp only [fwxApiAddAppFilterWhitelist]
    split <;> rfl
  | addMacFilterRule req =>
    obtain rfl := Option.some.inj h
    exact fwxApiAddMacFilterRule_appPart k req
  | modMacFilterRule req =>
    obtain rfl := Option.some.inj h
    exact fwxApiModMacFilterRule_appPart k req
  | delMacFilterRule req =>
    obtain rfl := Option.some.inj h
    exact fwxApiDelMacFilterRule_appPart k req
  | _ =>
    obtain rfl := Option.some.inj h
    rfl

/-! ## 8. Runs -/

/-- Each request keeps the tables and the policy together. -/
theorem policyStep_ok {p q : FilterKernel × Policy} {call : FilterCall} (h : PolicyOk p)
    (hok : PolicyCallOk p call) (hstep : policyStep p call q) : PolicyOk q := by
  obtain ⟨k, P⟩ := p
  obtain ⟨k', P'⟩ := q
  obtain ⟨hcall, rfl⟩ := hstep
  cases call with
  | addAppFilterRule req =>
    obtain rfl := Option.some.inj hcall
    exact policyOk_add h hok
  | modAppFilterRule req =>
    obtain rfl := Option.some.inj hcall
    exact policyOk_mod h fun ruleId hid r hP change hchange =>
      (hok ruleId hid r hP change hchange).2
  | delAppFilterRule req => exact policyOk_del h hok hcall
  | flushAppFilterRule =>
    obtain rfl := Option.some.inj hcall
    exact ⟨List.nodup_nil, rfl, fun _ => .none⟩
  | _ =>
    have hpart := appPart_of_other rfl hcall
    exact h.of_same (congrArg Prod.fst hpart) (congrArg Prod.snd hpart)

/-- No rules, and the empty policy. -/
def policyInit (kmem : Kmem) : FilterKernel × Policy := ({ kmem := kmem }, fun _ => none)

theorem policyOk_init (kmem : Kmem) : PolicyOk (policyInit kmem) :=
  ⟨List.nodup_nil, rfl, fun _ => .none⟩

/-- What one rule answers. -/
theorem RuleRel.answer {rule : AppFilterRule} {r : PolicyRule} (h : RuleRel rule r) (appId : Nat)
    (mac : Mac) :
    (rule.enable != 0 && (fwxFindMacNode rule.macList mac || macListEmpty rule.macList) &&
      if appId = FWX_QUIC_PROTO.toNat then rule.filterQuic == 1
      else findAppIdNode rule.appIdList appId) = true ↔
    r.enable = true ∧ (r.macs = ∅ ∨ mac ∈ r.macs) ∧
      ((appId = FWX_QUIC_PROTO.toNat ∧ r.quic = true) ∨
        (appId ≠ FWX_QUIC_PROTO.toNat ∧ appId ∈ r.appIds)) := by
  rw [Bool.and_eq_true, Bool.and_eq_true, Bool.or_eq_true, h.enable, h.macs.find mac,
    macListEmpty_iff h.macs, and_assoc, or_comm]
  by_cases hquic : appId = FWX_QUIC_PROTO.toNat
  · rw [if_pos hquic, h.quic]
    simp only [hquic, true_and, ne_eq, not_true_eq_false, false_and, or_false]
  · rw [if_neg hquic, h.appIds.find appId]
    simp only [hquic, false_and, ne_eq, not_false_eq_true, true_and, false_or]

theorem PolicyOk.matches_iff {p : FilterKernel × Policy} (h : PolicyOk p) (appId : Nat)
    (mac : Mac) :
    (fwxMatchAppFilterRule p.1.config appId mac).isSome = true ↔ p.2.Matches appId mac := by
  obtain ⟨k, P⟩ := p
  rw [fwxMatchAppFilterRule, List.find?_isSome]
  constructor
  · rintro ⟨rule, hmem, hanswer⟩
    have hfind : fwxFindAppFilterRule k rule.ruleId = some rule :=
      (lookup_eq_some_iff h.ids).mpr ⟨hmem, rfl⟩
    obtain ⟨r, hP, hrel⟩ := h.find_some hfind
    exact ⟨rule.ruleId, r, hP, (hrel.answer appId mac).mp hanswer⟩
  · rintro ⟨ruleId, r, hP, hanswer⟩
    cases hfind : fwxFindAppFilterRule k ruleId with
    | none => cases (h.find_none hfind).symm.trans hP
    | some rule =>
      obtain ⟨r', hP', hrel⟩ := h.find_some hfind
      obtain rfl := Option.some.inj (hP.symm.trans hP')
      exact ⟨rule, mem_of_lookup hfind, (hrel.answer appId mac).mpr hanswer⟩

/-- **The rules are the policy.**  In every run, a rule is matched iff the policy has one for the
app id and the address; every rule counts its app ids, and `g_app_rule_count` the rules. -/
theorem policy_refined {kmem : Kmem} {p : FilterKernel × Policy}
    (h : Reaches policyStep PolicyCallOk (policyInit kmem) p) :
    (∀ appId mac, (fwxMatchAppFilterRule p.1.config appId mac).isSome = true ↔
      p.2.Matches appId mac) ∧
    (∀ rule ∈ p.1.config.appFilterRuleList, ∃ r, p.2 rule.ruleId = some r ∧
      (∀ appId, findAppIdNode rule.appIdList appId = true ↔ appId ∈ r.appIds) ∧
      rule.appIdList.count = r.appIds.card) ∧
    p.1.gAppRuleCount = p.2.ids.ncard := by
  have hok : PolicyOk p :=
    h.invariant (fun _ _ _ hp hcond hstep => policyStep_ok hp hcond hstep) (policyOk_init kmem)
  refine ⟨hok.matches_iff, fun rule hmem => ?_, hok.ncard⟩
  have hfind : fwxFindAppFilterRule p.1 rule.ruleId = some rule :=
    (lookup_eq_some_iff hok.ids).mpr ⟨hmem, rfl⟩
  obtain ⟨r, hP, hrel⟩ := PolicyOk.find_some hok hfind
  exact ⟨r, hP, hrel.appIds.find, hrel.appIds.count⟩

/-! ## 9. A rule for three apps -/

def newRule : RuleRequest := { ruleId := some 1 }

def threeApps : CJson := { type := .string, valuestring := some (.lit "1001-1003") }

def blockThreeApps : RuleRequest :=
  { ruleId := some 1, appAction := some 1, appIdList := some [threeApps] }

def ruleOneAdded : FilterKernel × Policy :=
  (fwxApiAddAppFilterRule { kmem := freeMemory } newRule,
    FilterCall.onPolicy freeMemory (fun _ => none) (.addAppFilterRule newRule))

def appsBlocked : FilterKernel × Policy :=
  (fwxApiModAppFilterRule ruleOneAdded.1 blockThreeApps,
    FilterCall.onPolicy ruleOneAdded.1.kmem ruleOneAdded.2 (.modAppFilterRule blockThreeApps))

theorem policy_refined_three_apps :
    ((fwxMatchAppFilterRule appsBlocked.1.config 1002 guestMac).isSome = true ↔
      appsBlocked.2.Matches 1002 guestMac) ∧
    (fwxMatchAppFilterRule appsBlocked.1.config 1002 guestMac).isSome = true ∧
    appsBlocked.1.gAppRuleCount = appsBlocked.2.ids.ncard := by
  have hadd : PolicyCallOk (policyInit freeMemory) (.addAppFilterRule newRule) := by
    intro ruleId _ _
    have hids : (policyInit freeMemory).2.ids = ∅ := by
      ext i
      exact ⟨fun h => Bool.noConfusion h, fun h => absurd h (Set.notMem_empty i)⟩
    rw [hids, Set.ncard_empty]
    decide
  have hmod : PolicyCallOk ruleOneAdded (.modAppFilterRule blockThreeApps) := by
    intro ruleId hid rule hrule change hchange
    obtain rfl := Option.some.inj hid
    obtain rfl := Option.some.inj hchange
    obtain rfl : ({} : PolicyRule) = rule := Option.some.inj hrule
    refine ⟨fun token htoken => ?_, by decide +kernel⟩
    obtain rfl := List.mem_singleton.mp htoken
    exact ⟨1001, 1003, by decide, by decide, by decide, by decide⟩
  have hrun : Reaches policyStep PolicyCallOk (policyInit freeMemory) appsBlocked :=
    (Reaches.refl.tail hadd ⟨rfl, rfl⟩ (u := ruleOneAdded)).tail hmod ⟨rfl, rfl⟩
  obtain ⟨hmatch, -, hcount⟩ := policy_refined hrun
  exact ⟨hmatch 1002 guestMac, by decide, hcount⟩

end Oaf
