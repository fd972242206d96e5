/-
# Reconciliation of the app-filter rules

After each round the kernel is to have the enabled rules of UCI whose time has come, each with its
address, its app ids and its QUIC flag.  The manager compares a rule with the entry of its table and
writes it again when something has changed.

* `tablePolicy`: the rules that the table stands for; a round keeps the kernel with it.
* `rounds_reconcile`: as long as every rule that is created finds fewer than 64 others, no app ids go up
  to the largest `int`, and no rule that is taken for unchanged stands for other app ids, the kernel has
  the rules of the round.
* `change_missed`: from `1001, 1002` to `1001, 1001` the length stays, and no new id is missing.
-/
import Oaf.Filter.Policy
import Oaf.Lib.Runs
import Oaf.Manager.Device

namespace Oaf

open CLib Prog Runs

/-! ## 1. Rounds -/

structure ReconcileState where
  kernel : FilterKernel
  table : LuaTable AppRuleState

/-- A round: the order of `pairs`, the time and the rules of UCI. -/
structure Round where
  pairs : LuaTable AppRuleState → List Int
  now : TimeInfo
  rules : List AppRule

/-- A write that is carried out, under a condition. -/
def roundWrite (cond : FilterKernel → DevWrite → Prop) (k : FilterKernel) (w : DevWrite) (r : Bool)
    (k' : FilterKernel) : Prop :=
  DevStep .done k w r k' ∧ cond k w

def roundStep (cond : FilterKernel → DevWrite → Prop) (s : ReconcileState) (round : Round)
    (t : ReconcileState) : Prop :=
  Ends (roundWrite cond) (processAppfilterRules round.pairs round.now round.rules s.table) s.kernel
    t.table t.kernel

/-- The rule of the policy that a rule of UCI stands for. -/
def AppRule.policy (rule : AppRule) : PolicyRule where
  quic := decide (rule.filterQuic = 1)
  macs := ((rule.macList.map some).filterMap macStrToBin).toFinset
  appIds := tokenIds (rule.appIds.map textToken)

/-- The rules of a round whose time has come. -/
def wantedPolicy (rules : List AppRule) (now : TimeInfo) : Policy := fun ruleId =>
  (rules.find? fun rule => rule.id == ruleId && rule.shouldActive now).map (·.policy)

/-- The domain: ids are pairwise different, and no rule has more than 1024 app ids. -/
structure Round.Valid (round : Round) : Prop where
  pairs : PairsOk round.pairs
  ids : (round.rules.map AppRule.id).Nodup
  appIds : ∀ rule ∈ round.rules, (tokenIds (rule.appIds.map textToken)).card ≤ 1024

/-- **The condition on a write**: its texts can stand in JSON strings, no app ids go up to the largest
`int`, and a rule is created while the kernel has fewer than 64. -/
def RoomForRule (k : FilterKernel) (w : DevWrite) : Prop :=
  w.readable = true ∧ w.call.belowTop = true ∧
    ∀ req, w.call = .addAppFilterRule req → k.gAppRuleCount < MAX_APP_FILTER_RULE_NUM

/-- **The condition on a round**: an active rule that is taken for unchanged stands for the app ids
that were written last. -/
def NoMissedChange (now : TimeInfo) (table : LuaTable AppRuleState) (rule : AppRule) : Prop :=
  ∀ state, table.lookup rule.id = some state → rule.shouldActive now = true → state.active = true →
    configChanged rule (some state) = false →
    tokenIds (rule.appIds.map textToken) = tokenIds ((state.appIdList.getD []).map textToken)

/-! ## 2. The table -/

/-- The rule of the policy that an entry stands for. -/
def AppRuleState.policy (state : AppRuleState) : PolicyRule where
  quic := decide (state.filterQuic.getD 0 = 1)
  macs := (((state.macList.getD []).map some).filterMap macStrToBin).toFinset
  appIds := tokenIds ((state.appIdList.getD []).map textToken)

def tablePolicy (table : LuaTable AppRuleState) : Policy := fun ruleId =>
  (table.lookup ruleId).bind fun state => if state.active then some state.policy else none

/-- The entry after an activation all of whose writes were carried out. -/
def AppRule.state (rule : AppRule) : AppRuleState where
  active := true
  macList := some rule.macList
  appIdList := some rule.appIds
  filterQuic := some rule.filterQuic

variable {table : LuaTable AppRuleState} {k k' : FilterKernel} {P : Policy} {ruleId : Int}

@[simp] theorem policy_state (rule : AppRule) : rule.state.policy = rule.policy := rfl

theorem tablePolicy_insert (table : LuaTable AppRuleState) (ruleId : Int) (state : AppRuleState) :
    tablePolicy (table.insert ruleId state) =
      (tablePolicy table).set ruleId (if state.active then some state.policy else none) := by
  funext i
  by_cases hi : i = ruleId
  · subst hi
    simp [tablePolicy, Policy.set]
  · simp [tablePolicy, Policy.set, hi, AList.lookup_insert_ne hi]

theorem tablePolicy_erase (table : LuaTable AppRuleState) (ruleId : Int) :
    tablePolicy (table.erase ruleId) = (tablePolicy table).set ruleId none := by
  funext i
  by_cases hi : i = ruleId
  · subst hi
    simp [tablePolicy, Policy.set]
  · simp [tablePolicy, Policy.set, hi, AList.lookup_erase_ne hi]

theorem tablePolicy_of_not_active (h : isActive table ruleId = false) :
    tablePolicy table ruleId = none := by
  cases hstate : table.lookup ruleId with
  | none => simp [tablePolicy, hstate]
  | some state =>
    have hactive : state.active = false := by simpa [isActive, hstate] using h
    simp [tablePolicy, hstate, hactive]

@[simp] theorem set_set (P : Policy) (ruleId : Int) (r r' : Option PolicyRule) :
    (P.set ruleId r).set ruleId r' = P.set ruleId r' := by
  funext i
  by_cases hi : i = ruleId <;> simp [Policy.set, hi]

theorem set_self {r : Option PolicyRule} (h : P ruleId = r) : P.set ruleId r = P := by
  funext i
  by_cases hi : i = ruleId <;> simp [Policy.set, hi, h]

/-- The kernel has the rules of the policy, and memory. -/
def Holds (P : Policy) (k : FilterKernel) : Prop := PolicyOk (k, P) ∧ k.kmem.AllOk

/-! ## 3. Writes -/

/-- The rule of this policy for any kernel state: a write in front of what comes after it. -/
theorem wp_roundWrite {w : DevWrite} {Q : Bool → FilterKernel → Prop}
    (h : ∀ k', RoomForRule k w → fwxConfigHandle k w.call = some k' → Q true k') :
    wp (roundWrite RoomForRule) (fun _ => True) (request w) Q k := by
  rw [wp_request]
  rintro r k' ⟨⟨hcall, hhandle⟩, hroom⟩
  rw [hcall hroom.1] at hhandle
  exact ⟨trivial, h k' hroom (hhandle hroom.2.1)⟩

theorem holds_delete (h : Holds P k)
    (hcall : fwxConfigHandle k (.delAppFilterRule { ruleId := ruleId }) = some k') :
    Holds (P.set ruleId none) k' := by
  refine ⟨?_, fwxConfigHandle_allOk h.2 hcall⟩
  have hok : PolicyCallOk (k, P) (.delAppFilterRule { ruleId := ruleId }) :=
    fun _ htoken => absurd htoken (Option.not_mem_none _)
  exact policyOk_del h.1 hok hcall

theorem holds_create (h : Holds P k) (hnone : P ruleId = none)
    (hroom : k.gAppRuleCount < MAX_APP_FILTER_RULE_NUM)
    (hcall : fwxConfigHandle k (.addAppFilterRule { ruleId := ruleId }) = some k') :
    Holds (P.set ruleId (some {})) k' := by
  refine ⟨?_, fwxConfigHandle_allOk h.2 hcall⟩
  obtain rfl := Option.some.inj hcall
  have hfew : P.ids.ncard < 64 := by
    have hcount := h.1.ncard
    rw [hcount, MAX_APP_FILTER_RULE_NUM] at hroom
    omega
  have hok : PolicyCallOk (k, P) (.addAppFilterRule { ruleId := ruleId }) := fun _ _ _ => hfew
  have hadd := policyOk_add h.1 hok
  simpa [FilterCall.onPolicy, hnone, h.2 _] using hadd

theorem holds_mod {rule : PolicyRule} {req : RuleRequest} (h : Holds P k)
    (hid : req.ruleId = some ruleId) (hrule : P ruleId = some rule)
    (hroom : ∀ change ∈ req.appChange,
      ((if change.1 then ∅ else rule.appIds) ∪ tokenIds change.2).card ≤ 1024)
    (hcall : fwxConfigHandle k (.modAppFilterRule req) = some k') :
    Holds (P.set ruleId (some (rule.mod k.kmem req))) k' := by
  refine ⟨?_, fwxConfigHandle_allOk h.2 hcall⟩
  obtain rfl := Option.some.inj hcall
  have hrooms : ∀ i ∈ req.ruleId, ∀ r ∈ P i, ∀ change ∈ req.appChange,
      ((if change.1 then ∅ else r.appIds) ∪ tokenIds change.2).card ≤ 1024 := by
    intro i hi r hr
    obtain rfl := Option.some.inj (hid.symm.trans hi)
    obtain rfl := Option.some.inj (hrule.symm.trans hr)
    exact hroom
  have hmod := policyOk_mod h.1 hrooms
  simpa [FilterCall.onPolicy, hid, hrule] using hmod

/-- The three modifications that the manager asks for, with memory. -/
theorem mod_macs {kmem : Kmem} (h : kmem.AllOk) (rule : PolicyRule) (ruleId : Int)
    (macList : List (Option CStr)) :
    rule.mod kmem { ruleId := ruleId, macAction := some 1, macList := some macList } =
      { rule with macs := (macList.filterMap macStrToBin).toFinset } := by
  let req : RuleRequest := { ruleId := ruleId, macAction := some 1, macList := some macList }
  have hmacs : (rule.mod kmem req).macs = (macList.filterMap macStrToBin).toFinset :=
    (mod_of_allOk h rule req).1
  have happs : (rule.mod kmem req).appIds = rule.appIds := (mod_of_allOk h rule req).2
  rw [← hmacs, ← happs]
  rfl

theorem mod_apps {kmem : Kmem} (h : kmem.AllOk) (rule : PolicyRule) (ruleId : Int)
    (tokens : List CJson) :
    rule.mod kmem { ruleId := ruleId, appAction := some 1, appIdList := some tokens } =
      { rule with appIds := tokenIds tokens } := by
  let req : RuleRequest := { ruleId := ruleId, appAction := some 1, appIdList := some tokens }
  have hmacs : (rule.mod kmem req).macs = rule.macs := (mod_of_allOk h rule req).1
  have happs : (rule.mod kmem req).appIds = ∅ ∪ tokenIds tokens := (mod_of_allOk h rule req).2
  rw [Finset.empty_union] at happs
  rw [← hmacs, ← happs]
  rfl

theorem mod_quic (kmem : Kmem) (rule : PolicyRule) (ruleId filterQuic : Int) :
    rule.mod kmem { ruleId := ruleId, filterQuic := some (if filterQuic = 1 then 1 else 0) } =
      { rule with quic := decide (filterQuic = 1) } := by
  by_cases h : filterQuic = 1
  · simp only [h, if_true]
    rfl
  · simp only [h, if_false, decide_false]
    rfl

/-- **An activation**: the rule that was not there is there as UCI has it. -/
theorem wp_activateAppfilterRule {rule : AppRule} (h : Holds P k) (hnone : P rule.id = none)
    (hids : (tokenIds (rule.appIds.map textToken)).card ≤ 1024) (table : LuaTable AppRuleState) :
    wp (roundWrite RoomForRule) (fun _ => True) (activateAppfilterRule table rule)
      (fun table' k' => table' = table.insert rule.id rule.state ∧
        Holds (P.set rule.id (some rule.policy)) k') k := by
  have hself : ∀ (P : Policy) (r : Option PolicyRule), P.set rule.id r rule.id = r :=
    fun P r => if_pos rfl
  rw [activateAppfilterRule, wp_bind]
  refine wp_roundWrite fun k1 hroom h1 => ?_
  have hcreated := holds_create h hnone (hroom.2.2 _ rfl) h1
  rw [if_pos rfl, wp_bind]
  refine wp_roundWrite fun k2 _ h2 => ?_
  have hmacs := holds_mod hcreated rfl (hself _ _) (fun _ hc => absurd hc (Option.not_mem_none _)) h2
  rw [mod_macs hcreated.2, set_set] at hmacs
  rw [wp_bind]
  refine wp_roundWrite fun k3 _ h3 => ?_
  have happs := holds_mod hmacs rfl (hself _ _) (fun change hc => by
    obtain rfl := Option.some.inj hc
    simpa using hids) h3
  rw [mod_apps hmacs.2, set_set] at happs
  rw [wp_bind]
  refine wp_roundWrite fun k4 _ h4 => ?_
  have hquic := holds_mod happs rfl (hself _ _) (fun _ hc => absurd hc (Option.not_mem_none _)) h4
  rw [mod_quic, set_set] at hquic
  exact ⟨rfl, hquic⟩

/-! ## 4. One rule -/

/-- A list of at most one text is the old one when it is taken for unchanged. -/
theorem eq_of_not_listChanged {new : List CStr} {old : Option (List CStr)}
    (h : listChanged new old = false) (hshort : new.length ≤ 1) : old.getD [] = new := by
  simp only [listChanged, Bool.or_eq_false_iff, bne_eq_false_iff_eq, List.any_eq_false] at h
  obtain ⟨hlen, hmem⟩ := h
  cases new with
  | nil => exact List.length_eq_zero_iff.mp hlen.symm
  | cons text rest =>
    obtain rfl : rest = [] := List.length_eq_zero_iff.mp (by simpa using hshort)
    obtain ⟨other, hother⟩ := List.length_eq_one_iff.mp hlen.symm
    have hin := hmem text List.mem_cons_self
    rw [hother] at hin ⊢
    have heq : text = other := by simpa using hin
    rw [heq]

theorem macList_length_le (rule : AppRule) : rule.macList.length ≤ 1 := by
  rw [AppRule.macList]
  split <;> simp

/-- An active rule that is taken for unchanged is in the table as UCI has it. -/
theorem tablePolicy_of_unchanged {now : TimeInfo} {rule : AppRule}
    (hmissed : NoMissedChange now table rule) (hshould : rule.shouldActive now = true)
    (hactive : isActive table rule.id = true)
    (hsame : configChanged rule (table.lookup rule.id) = false) :
    tablePolicy table rule.id = some rule.policy := by
  cases hstate : table.lookup rule.id with
  | none => simp [isActive, hstate] at hactive
  | some state =>
    have hon : state.active = true := by simpa [isActive, hstate] using hactive
    rw [hstate] at hsame
    have happs := hmissed state hstate hshould hon hsame
    simp only [configChanged, Bool.or_eq_false_iff, bne_eq_false_iff_eq] at hsame
    obtain ⟨⟨hmacs, -⟩, hquic⟩ := hsame
    have hmacs := eq_of_not_listChanged hmacs (macList_length_le rule)
    simp [tablePolicy, hstate, hon, AppRuleState.policy, AppRule.policy, hmacs, happs, hquic]

/-- What the manager does about one rule: the table and the kernel stay together, other entries
stay, and the rule is there iff its time has come. -/
structure RuleDone (now : TimeInfo) (table : LuaTable AppRuleState) (rule : AppRule)
    (table' : LuaTable AppRuleState) (k' : FilterKernel) : Prop where
  holds : Holds (tablePolicy table') k'
  others : ∀ i, i ≠ rule.id → table'.lookup i = table.lookup i
  rule : tablePolicy table' rule.id = if rule.shouldActive now then some rule.policy else none

/-- An entry has been written for what the kernel has now. -/
theorem ruleDone_insert {now : TimeInfo} {rule : AppRule} {state : AppRuleState}
    (hholds : Holds ((tablePolicy table).set rule.id
      (if state.active then some state.policy else none)) k')
    (hwanted : (if state.active then some state.policy else none) =
      if rule.shouldActive now then some rule.policy else none) :
    RuleDone now table rule (table.insert rule.id state) k' := by
  refine ⟨?_, fun i hi => AList.lookup_insert_ne hi, ?_⟩
  · rwa [tablePolicy_insert]
  · rw [tablePolicy_insert, ← hwanted]
    exact if_pos rfl

/-- **One rule.** -/
theorem wp_processAppfilterRule {now : TimeInfo} {rule : AppRule}
    (h : Holds (tablePolicy table) k) (hmissed : NoMissedChange now table rule)
    (hids : (tokenIds (rule.appIds.map textToken)).card ≤ 1024) :
    wp (roundWrite RoomForRule) (fun _ => True) (processAppfilterRule now table rule)
      (RuleDone now table rule) k := by
  have hactivated : ∀ (P : Policy) (k : FilterKernel), Holds P k → P rule.id = none →
      P.set rule.id (some rule.policy) = (tablePolicy table).set rule.id (some rule.policy) →
      rule.shouldActive now = true →
      wp (roundWrite RoomForRule) (fun _ => True) (activateAppfilterRule table rule)
        (RuleDone now table rule) k := by
    intro P k hP hnone hset hshould
    refine wp_mono (wp_activateAppfilterRule hP hnone hids table) (fun _ => id) ?_
    rintro table' k' ⟨rfl, hholds⟩
    rw [hset] at hholds
    exact ruleDone_insert hholds (by simp [hshould, AppRule.state, ← policy_state])
  rw [processAppfilterRule]
  by_cases hshould : rule.shouldActive now = true
  · rw [if_pos hshould]
    by_cases hactive : isActive table rule.id = true
    · rw [if_pos hactive]
      by_cases hchanged : configChanged rule (table.lookup rule.id) = true
      · -- deleted, and made anew
        rw [if_pos hchanged, wp_bind]
        refine wp_roundWrite fun k1 _ h1 => ?_
        exact hactivated _ k1 (holds_delete h h1) (if_pos rfl) (set_set _ _ _ _) hshould
      · rw [if_neg hchanged, wp_pure]
        refine ⟨h, fun _ _ => rfl, ?_⟩
        rw [if_pos hshould]
        exact tablePolicy_of_unchanged hmissed hshould hactive (Bool.eq_false_iff.mpr hchanged)
    · rw [if_neg hactive]
      exact hactivated _ k h (tablePolicy_of_not_active (Bool.eq_false_iff.mpr hactive)) rfl hshould
  · rw [if_neg hshould]
    by_cases hactive : isActive table rule.id = true
    · rw [if_pos hactive, wp_bind]
      refine wp_roundWrite fun k1 _ h1 => ?_
      rw [if_pos rfl, wp_pure]
      exact ruleDone_insert (holds_delete h h1) (by simp [hshould])
    · rw [if_neg hactive, wp_pure]
      refine ⟨h, fun _ _ => rfl, ?_⟩
      rw [if_neg hshould]
      exact tablePolicy_of_not_active (Bool.eq_false_iff.mpr hactive)

/-! ## 5. Loops -/

/-- The first loop. -/
structure RulesDone (now : TimeInfo) (table : LuaTable AppRuleState) (rules : List AppRule)
    (table' : LuaTable AppRuleState) (k' : FilterKernel) : Prop where
  holds : Holds (tablePolicy table') k'
  others : ∀ i, i ∉ rules.map AppRule.id → table'.lookup i = table.lookup i
  rules : ∀ rule ∈ rules,
    tablePolicy table' rule.id = if rule.shouldActive now then some rule.policy else none

theorem wp_processRules {now : TimeInfo} {rules : List AppRule}
    (hnodup : (rules.map AppRule.id).Nodup)
    (hids : ∀ rule ∈ rules, (tokenIds (rule.appIds.map textToken)).card ≤ 1024)
    (h : Holds (tablePolicy table) k) (hmissed : ∀ rule ∈ rules, NoMissedChange now table rule) :
    wp (roundWrite RoomForRule) (fun _ => True) (rules.foldlM (processAppfilterRule now) table)
      (RulesDone now table rules) k := by
  induction rules generalizing table k with
  | nil => exact ⟨h, fun _ _ => rfl, by simp⟩
  | cons rule rest ih =>
    rw [List.map_cons, List.nodup_cons] at hnodup
    rw [List.foldlM_cons, wp_bind]
    refine wp_mono (wp_processAppfilterRule h (hmissed rule List.mem_cons_self)
      (hids rule List.mem_cons_self)) (fun _ => id) fun table1 k1 hrule => ?_
    -- the rest of the rules have other ids, so their entries are as they were
    have hsame : ∀ other ∈ rest, table1.lookup other.id = table.lookup other.id := by
      intro other hother
      refine hrule.others other.id fun heq => hnodup.1 ?_
      exact heq ▸ List.mem_map_of_mem hother
    have hmissed' : ∀ other ∈ rest, NoMissedChange now table1 other := by
      intro other hother state hstate
      rw [hsame other hother] at hstate
      exact hmissed other (List.mem_cons_of_mem rule hother) state hstate
    refine wp_mono (ih hnodup.2 (fun r hr => hids r (List.mem_cons_of_mem rule hr)) hrule.holds
      hmissed') (fun _ => id) fun table2 k2 hrest => ⟨hrest.holds, fun i hi => ?_, ?_⟩
    · rw [List.map_cons, List.mem_cons, not_or] at hi
      exact (hrest.others i hi.2).trans (hrule.others i hi.1)
    · rintro other hother
      rcases List.mem_cons.mp hother with rfl | hother
      · have hlookup := hrest.others other.id hnodup.1
        rw [← hrule.rule, tablePolicy, hlookup, tablePolicy]
      · exact hrest.rules other hother

/-- One entry of the second loop. -/
theorem wp_dropAppfilterRule {rules : List AppRule} (h : Holds (tablePolicy table) k)
    (ruleId : Int) :
    wp (roundWrite RoomForRule) (fun _ => True) (dropAppfilterRule rules table ruleId)
      (fun table' k' => Holds (tablePolicy table') k' ∧ ∀ i, table'.lookup i =
        if i = ruleId ∧ i ∉ rules.map AppRule.id then none else table.lookup i) k := by
  have herase : ruleId ∉ rules.map AppRule.id → ∀ i, (table.erase ruleId).lookup i =
      if i = ruleId ∧ i ∉ rules.map AppRule.id then none else table.lookup i := by
    intro hgone i
    by_cases hi : i = ruleId
    · subst hi
      rw [if_pos ⟨rfl, hgone⟩, AList.lookup_erase]
    · rw [if_neg fun hand => hi hand.1, AList.lookup_erase_ne hi]
  rw [dropAppfilterRule]
  by_cases hfound : (rules.any fun rule => rule.id == ruleId) = true
  · rw [if_pos hfound, wp_pure]
    refine ⟨h, fun i => (if_neg ?_).symm⟩
    rintro ⟨rfl, hgone⟩
    obtain ⟨rule, hrule, heq⟩ := List.any_eq_true.mp hfound
    exact hgone (List.mem_map.mpr ⟨rule, hrule, beq_iff_eq.mp heq⟩)
  have hgone : ruleId ∉ rules.map AppRule.id := by
    rintro hmem
    obtain ⟨rule, hrule, heq⟩ := List.mem_map.mp hmem
    exact hfound (List.any_eq_true.mpr ⟨rule, hrule, beq_iff_eq.mpr heq⟩)
  rw [if_neg hfound]
  by_cases hactive : isActive table ruleId = true
  · rw [if_pos hactive, wp_bind]
    refine wp_roundWrite fun k1 _ h1 => ?_
    rw [if_pos rfl, wp_pure, tablePolicy_erase]
    exact ⟨holds_delete h h1, herase hgone⟩
  · rw [if_neg hactive, wp_pure, tablePolicy_erase,
      set_self (tablePolicy_of_not_active (Bool.eq_false_iff.mpr hactive))]
    exact ⟨h, herase hgone⟩

/-- The second loop. -/
theorem wp_dropRules {rules : List AppRule} (order : List Int) (h : Holds (tablePolicy table) k) :
    wp (roundWrite RoomForRule) (fun _ => True) (order.foldlM (dropAppfilterRule rules) table)
      (fun table' k' => Holds (tablePolicy table') k' ∧ ∀ i, table'.lookup i =
        if i ∈ order ∧ i ∉ rules.map AppRule.id then none else table.lookup i) k := by
  induction order generalizing table k with
  | nil => exact ⟨h, by simp⟩
  | cons ruleId rest ih =>
    rw [List.foldlM_cons, wp_bind]
    refine wp_mono (wp_dropAppfilterRule h ruleId) (fun _ => id) ?_
    rintro table1 k1 ⟨h1, hlookup1⟩
    refine wp_mono (ih h1) (fun _ => id) ?_
    rintro table2 k2 ⟨h2, hlookup2⟩
    refine ⟨h2, fun i => ?_⟩
    rw [hlookup2, hlookup1]
    by_cases hi : i ∈ rules.map AppRule.id
    · simp only [hi, not_true_eq_false, and_false, if_false]
    · by_cases hself : i = ruleId
      · subst hself
        simp only [hi, not_false_eq_true, and_true, if_true, ite_self, List.mem_cons, true_or]
      · simp only [hi, hself, not_false_eq_true, and_true, if_false, List.mem_cons, false_or]

/-! ## 6. Rounds -/

theorem wantedPolicy_of_mem {rules : List AppRule} {now : TimeInfo} {rule : AppRule}
    (hnodup : (rules.map AppRule.id).Nodup) (hmem : rule ∈ rules) :
    wantedPolicy rules now rule.id =
      if rule.shouldActive now then some rule.policy else none := by
  have hsame : ∀ other ∈ rules, other.id = rule.id → other = rule := fun other hother heq =>
    List.inj_on_of_nodup_map hnodup hother hmem heq
  by_cases hshould : rule.shouldActive now = true
  · rw [if_pos hshould, wantedPolicy]
    cases hfind : rules.find? fun r => r.id == rule.id && r.shouldActive now with
    | none => simpa [hshould] using List.find?_eq_none.mp hfind rule hmem
    | some other =>
      have hother := List.find?_some hfind
      rw [Bool.and_eq_true, beq_iff_eq] at hother
      rw [hsame other (List.mem_of_find?_eq_some hfind) hother.1]
      rfl
  · rw [if_neg hshould, wantedPolicy, List.find?_eq_none.mpr, Option.map_none]
    intro other hother hand
    rw [Bool.and_eq_true, beq_iff_eq] at hand
    exact hshould (hsame other hother hand.1 ▸ hand.2)

theorem wantedPolicy_of_not_mem {rules : List AppRule} {now : TimeInfo}
    (h : ruleId ∉ rules.map AppRule.id) : wantedPolicy rules now ruleId = none := by
  rw [wantedPolicy, List.find?_eq_none.mpr, Option.map_none]
  intro rule hrule hand
  rw [Bool.and_eq_true, beq_iff_eq] at hand
  exact h (List.mem_map.mpr ⟨rule, hrule, hand.1⟩)

/-- A round in the domain that misses no change. -/
structure RoundOk (s : ReconcileState) (round : Round) : Prop where
  valid : round.Valid
  noMissed : ∀ rule ∈ round.rules, NoMissedChange round.now s.table rule

/-- **One round**: the table and the kernel have the rules of the round. -/
theorem wp_processAppfilterRules {s : ReconcileState} {round : Round} (hok : RoundOk s round)
    (h : Holds (tablePolicy s.table) s.kernel) :
    wp (roundWrite RoomForRule) (fun _ => True)
      (processAppfilterRules round.pairs round.now round.rules s.table)
      (fun table' k' => Holds (tablePolicy table') k' ∧
        tablePolicy table' = wantedPolicy round.rules round.now) s.kernel := by
  rw [processAppfilterRules, wp_bind]
  refine wp_mono (wp_processRules hok.valid.ids hok.valid.appIds h hok.noMissed) (fun _ => id)
    fun table1 k1 hdone => ?_
  refine wp_mono (wp_dropRules (round.pairs table1) hdone.holds) (fun _ => id) ?_
  rintro table2 k2 ⟨h2, hlookup⟩
  refine ⟨h2, funext fun i => ?_⟩
  by_cases hi : i ∈ round.rules.map AppRule.id
  · obtain ⟨rule, hrule, rfl⟩ := List.mem_map.mp hi
    have hlookup' := hlookup rule.id
    rw [if_neg fun hand => hand.2 hi] at hlookup'
    rw [wantedPolicy_of_mem hok.valid.ids hrule, ← hdone.rules rule hrule, tablePolicy, hlookup',
      tablePolicy]
  · -- `pairs` goes through all keys: what UCI does not have is not in the table any more
    have hgone : table2.lookup i = none := by
      rw [hlookup]
      split
      · rfl
      · rename_i hnot
        rw [AList.lookup_eq_none, AList.mem_keys, ← (hok.valid.pairs table1).mem_iff]
        exact fun hin => hnot ⟨hin, hi⟩
    rw [wantedPolicy_of_not_mem hi, tablePolicy, hgone, Option.bind_none]

/-! ## 7. The start -/

/-- Requests that are not about app-filter rules leave them alone. -/
theorem holds_other {call : FilterCall} (h : Holds P k) (hother : call.isAppRule = false)
    (hcall : fwxConfigHandle k call = some k') : Holds P k' := by
  have hpart := appPart_of_other hother hcall
  exact ⟨h.1.of_same (congrArg Prod.fst hpart) (congrArg Prod.snd hpart),
    fwxConfigHandle_allOk h.2 hcall⟩

theorem wp_applyWhitelist {flush : FilterCall} {add : RuleRequest → FilterCall}
    (hflush : flush.isAppRule = false) (hadd : ∀ req, (add req).isAppRule = false)
    (macList : List CStr) (h : Holds P k) :
    wp (roundWrite RoomForRule) (fun _ => True) (applyWhitelist flush add macList)
      (fun _ k' => Holds P k') k := by
  rw [applyWhitelist, wp_bind]
  refine wp_roundWrite fun k1 _ h1 => ?_
  have hflushed := holds_other h hflush h1
  split
  · exact hflushed
  · exact wp_roundWrite fun k2 _ h2 => holds_other hflushed (hadd _) h2

theorem tablePolicy_initAppfilterState (rules : List AppRule) :
    tablePolicy (initAppfilterState rules) = fun _ => none := by
  have hfold : ∀ table : LuaTable AppRuleState, tablePolicy table = (fun _ => none) →
      tablePolicy (rules.foldl (fun table rule =>
        table.insert rule.id { filterQuic := some rule.filterQuic }) table) = fun _ => none := by
    induction rules with
    | nil => exact fun _ h => h
    | cons rule rest ih =>
      intro table h
      refine ih _ ?_
      rw [tablePolicy_insert, h]
      exact set_self rfl
  exact hfold ∅ rfl

/-- `initialize_rules` leaves no rule, in the kernel and in the table. -/
theorem wp_initializeRules (rules : List AppRule) (appfilterWhitelist macfilterWhitelist : List CStr)
    (hmem : k.kmem.AllOk) :
    wp (roundWrite RoomForRule) (fun _ => True)
      (initializeRules rules appfilterWhitelist macfilterWhitelist)
      (fun table k' => Holds (tablePolicy table) k') k := by
  rw [initializeRules, wp_bind, flushAllRules, wp_bind]
  refine wp_roundWrite fun k1 _ h1 => ?_
  rw [wp_bind]
  refine wp_roundWrite fun k2 _ h2 => ?_
  have hflushed : Holds (fun _ => none) k2 := by
    refine ⟨?_, fwxConfigHandle_allOk (fwxConfigHandle_allOk hmem h1) h2⟩
    obtain rfl := Option.some.inj h2
    exact ⟨List.nodup_nil, rfl, fun _ => .none⟩
  rw [wp_bind]
  refine wp_roundWrite fun k3 _ h3 => ?_
  rw [wp_bind]
  refine wp_roundWrite fun k4 _ h4 => ?_
  have hcleared := holds_other (holds_other hflushed rfl h3) rfl h4
  rw [wp_pure, wp_bind, initEffectiveMacRules, wp_bind]
  refine wp_roundWrite fun k5 _ h5 => ?_
  rw [wp_bind]
  refine wp_roundWrite fun k6 _ h6 => ?_
  have hcreated := holds_other (holds_other hcleared rfl h5) rfl h6
  rw [wp_pure, wp_bind]
  refine wp_mono (wp_applyWhitelist rfl (fun _ => rfl) _ hcreated) (fun _ => id)
    fun _ k7 h7 => ?_
  rw [wp_bind]
  refine wp_mono (wp_applyWhitelist rfl (fun _ => rfl) _ h7) (fun _ => id) fun _ k8 h8 => ?_
  rw [wp_pure, tablePolicy_initAppfilterState]
  exact h8

/-! ## 8. Runs -/

def StateHolds (s : ReconcileState) : Prop := Holds (tablePolicy s.table) s.kernel

theorem roundStep_holds {s t : ReconcileState} {round : Round} (h : StateHolds s)
    (hok : RoundOk s round) (hstep : roundStep RoomForRule s round t) :
    StateHolds t ∧ tablePolicy t.table = wantedPolicy round.rules round.now := by
  have hround := Ends.wp hstep (wp_processAppfilterRules hok h)
  exact hround

/-- **Rounds reconcile.**  In every run from `initialize_rules` that misses no change, creates every
rule while there is room for it and writes no app ids up to the largest `int`, the kernel has after
each round exactly the rules of the round, each with its address, its app ids and its QUIC flag. -/
theorem rounds_reconcile {k : FilterKernel} {s t u : ReconcileState} {rules : List AppRule}
    {appfilterWhitelist macfilterWhitelist : List CStr} {round : Round} (hmem : k.kmem.AllOk)
    (hinit : Ends (roundWrite RoomForRule)
      (initializeRules rules appfilterWhitelist macfilterWhitelist) k s.table s.kernel)
    (hrun : Reaches (roundStep RoomForRule) RoundOk s t) (hok : RoundOk t round)
    (hstep : roundStep RoomForRule t round u) :
    PolicyOk (u.kernel, wantedPolicy round.rules round.now) := by
  have hstart : StateHolds s := hinit.wp (wp_initializeRules _ _ _ hmem)
  have ht : StateHolds t :=
    hrun.invariant (fun _ _ _ hs hok hstep => (roundStep_holds hs hok hstep).1) hstart
  obtain ⟨hu, hwanted⟩ := roundStep_holds ht hok hstep
  rw [← hwanted]
  exact hu.1

/-! ## 9. Two apps, and one of them twice -/

def mondayMorning : TimeInfo := { weekday := 1, minutes := 600 }

/-- A rule for Mondays. -/
def mondayApps (appIds : List CStr) : AppRule where
  id := 1
  timeRules := [{ weekdays := [1], startTime := ascii "00:00", endTime := ascii "23:59" }]
  appIds := appIds

def mondayRound (appIds : List CStr) : Round where
  pairs := AList.keys
  now := mondayMorning
  rules := [mondayApps appIds]

/-- The kernel after `initialize_rules`. -/
def initialized : FilterKernel :=
  let k : FilterKernel := { kmem := freeMemory }
  let k := fwxApiFlushAppFilterWhitelist (fwxApiFlushMacFilterWhitelist
    (fwxApiFlushAppFilterRule (fwxApiFlushMacFilterRule k)))
  let k := fwxApiAddMacFilterRule k { ruleId := some 101, mode := some 2 }
  let k := fwxApiAddMacFilterRule k { ruleId := some 102, mode := some 2 }
  fwxApiFlushMacFilterWhitelist (fwxApiFlushAppFilterWhitelist k)

theorem ends_initializeRules :
    Ends (roundWrite RoomForRule) (initializeRules [] [] []) { kmem := freeMemory } ∅
      initialized := by
  have hother : ∀ (k : FilterKernel) (w : DevWrite), w.readable = true → w.call.isAppRule = false →
      RoomForRule k w := by
    intro k w hread hcall
    refine ⟨hread, belowTop_of_other hcall, fun req hadd => ?_⟩
    rw [hadd] at hcall
    exact absurd hcall.symm Bool.false_ne_true
  have hflush : ∀ k : FilterKernel, RoomForRule k { call := .flushAppFilterRule } :=
    fun k => ⟨rfl, rfl, fun _ h => by cases h⟩
  exact .ask ⟨.done (fun _ => rfl) fun _ => rfl, hother _ _ rfl rfl⟩
    (.ask ⟨.done (fun _ => rfl) fun _ => rfl, hflush _⟩
    (.ask ⟨.done (fun _ => rfl) fun _ => rfl, hother _ _ rfl rfl⟩
    (.ask ⟨.done (fun _ => rfl) fun _ => rfl, hother _ _ rfl rfl⟩
    (.ask ⟨.done (fun _ => rfl) fun _ => rfl, hother _ _ rfl rfl⟩
    (.ask ⟨.done (fun _ => rfl) fun _ => rfl, hother _ _ rfl rfl⟩
    (.ask ⟨.done (fun _ => rfl) fun _ => rfl, hother _ _ rfl rfl⟩
    (.ask ⟨.done (fun _ => rfl) fun _ => rfl, hother _ _ rfl rfl⟩ (.ret _ _))))))))

/-- The kernel after the activation of a rule. -/
def activated (k : FilterKernel) (rule : AppRule) : FilterKernel :=
  let k := fwxApiAddAppFilterRule k { ruleId := some rule.id }
  let k := fwxApiModAppFilterRule k {
    ruleId := rule.id, macAction := some 1, macList := some (rule.macList.map some) }
  let k := fwxApiModAppFilterRule k {
    ruleId := rule.id, appAction := some 1, appIdList := some (rule.appIds.map textToken) }
  fwxApiModAppFilterRule k {
    ruleId := rule.id, filterQuic := some (if rule.filterQuic = 1 then 1 else 0) }

theorem ends_activateAppfilterRule {k : FilterKernel} {rule : AppRule}
    (hroom : k.gAppRuleCount < MAX_APP_FILTER_RULE_NUM) (hmacs : rule.macList.all jsonPlain = true)
    (happs : rule.appIds.all jsonText = true)
    (hbelow : (rule.appIds.map textToken).all CJson.belowTop = true) (table : LuaTable AppRuleState) :
    Ends (roundWrite RoomForRule) (activateAppfilterRule table rule) k
      (table.insert rule.id rule.state) (activated k rule) :=
  .ask ⟨.done (fun _ => rfl) fun _ => rfl, rfl, rfl, fun _ _ => hroom⟩
    (.ask ⟨.done (fun _ => rfl) fun _ => rfl, hmacs, rfl, fun _ h => by cases h⟩
    (.ask ⟨.done (fun _ => rfl) fun _ => rfl, happs, hbelow, fun _ h => by cases h⟩
    (.ask ⟨.done (fun _ => rfl) fun _ => rfl, rfl, rfl, fun _ h => by cases h⟩ (.ret _ _))))

/-- After the first round. -/
def bothBlocked : ReconcileState where
  kernel := activated initialized (mondayApps [.lit "1001", .lit "1002"])
  table := AList.insert 1 (mondayApps [.lit "1001", .lit "1002"]).state ∅

theorem bothBlocked_step : roundStep RoomForRule ⟨initialized, ∅⟩
    (mondayRound [.lit "1001", .lit "1002"]) bothBlocked := by
  have hactivate : processAppfilterRule mondayMorning ∅ (mondayApps [.lit "1001", .lit "1002"]) =
      activateAppfilterRule ∅ (mondayApps [.lit "1001", .lit "1002"]) := by
    rw [processAppfilterRule, if_pos (by decide), if_neg (by decide)]
  have hrun : Ends (roundWrite RoomForRule)
      (processAppfilterRule mondayMorning ∅ (mondayApps [.lit "1001", .lit "1002"])) initialized
      bothBlocked.table bothBlocked.kernel := by
    rw [hactivate]
    exact ends_activateAppfilterRule (by decide) (by decide) (by decide) (by decide) ∅
  exact Ends.bind (Ends.bind hrun (.ret _ _)) (.ret _ _)

/-- The second round takes `1001, 1001` for unchanged. -/
theorem bothBlocked_unchanged : roundStep RoomForRule bothBlocked
    (mondayRound [.lit "1001", .lit "1001"]) bothBlocked := by
  have hsame : processAppfilterRule mondayMorning bothBlocked.table
      (mondayApps [.lit "1001", .lit "1001"]) = pure bothBlocked.table := by
    rw [processAppfilterRule, if_pos (by decide), if_pos (by decide), if_neg (by decide)]
  have hrun : Ends (roundWrite RoomForRule) (processAppfilterRule mondayMorning bothBlocked.table
      (mondayApps [.lit "1001", .lit "1001"])) bothBlocked.kernel bothBlocked.table
      bothBlocked.kernel := by
    rw [hsame]
    exact .ret _ _
  exact Ends.bind (Ends.bind hrun (.ret _ _)) (.ret _ _)

theorem mondayRound_valid {appIds : List CStr}
    (h : (tokenIds (appIds.map textToken)).card ≤ 1024) : (mondayRound appIds).Valid := by
  refine ⟨fun table => .refl _, List.nodup_singleton _, fun rule hrule => ?_⟩
  rw [List.mem_singleton.mp hrule]
  exact h

theorem rounds_reconcile_two_apps :
    PolicyOk (bothBlocked.kernel,
      wantedPolicy [mondayApps [.lit "1001", .lit "1002"]] mondayMorning) := by
  have hok : RoundOk ⟨initialized, ∅⟩ (mondayRound [.lit "1001", .lit "1002"]) :=
    ⟨mondayRound_valid (by decide), fun rule _ state hstate =>
      absurd hstate (Option.some_ne_none state).symm⟩
  exact rounds_reconcile (s := ⟨initialized, ∅⟩) (fun _ => rfl) ends_initializeRules .refl hok
    bothBlocked_step

/-- **A change that is missed.**  After the second round the kernel still has `1002`. -/
theorem change_missed : ∃ s t u : ReconcileState,
    Ends (roundWrite fun _ _ => True) (initializeRules [] [] []) { kmem := freeMemory } s.table
      s.kernel ∧
    Reaches (roundStep fun _ _ => True) (fun _ round => round.Valid) s t ∧
    (mondayRound [.lit "1001", .lit "1001"]).Valid ∧
    roundStep (fun _ _ => True) t (mondayRound [.lit "1001", .lit "1001"]) u ∧
    ¬ PolicyOk (u.kernel, wantedPolicy [mondayApps [.lit "1001", .lit "1001"]] mondayMorning) := by
  have hmono : ∀ k w r k', roundWrite RoomForRule k w r k' → roundWrite (fun _ _ => True) k w r k' :=
    fun _ _ _ _ h => ⟨h.1, trivial⟩
  refine ⟨⟨initialized, ∅⟩, bothBlocked, bothBlocked, ends_initializeRules.mono hmono, ?_,
    mondayRound_valid (by decide), Ends.mono bothBlocked_unchanged hmono, fun h => ?_⟩
  · have hvalid : (mondayRound [.lit "1001", .lit "1002"]).Valid := mondayRound_valid (by decide)
    exact Reaches.refl.tail hvalid (Ends.mono bothBlocked_step hmono)
  · have hkernel : (fwxFindAppFilterRule bothBlocked.kernel 1).map
        (fun rule => findAppIdNode rule.appIdList 1002) = some true := by decide +kernel
    obtain ⟨rule, hfind, hthere⟩ := Option.map_eq_some_iff.mp hkernel
    obtain ⟨r, hwanted, hrel⟩ := h.find_some hfind
    have hgone : 1002 ∉ (mondayApps [.lit "1001", .lit "1001"]).policy.appIds := by decide
    have hone : wantedPolicy [mondayApps [.lit "1001", .lit "1001"]] mondayMorning 1 =
        some (mondayApps [.lit "1001", .lit "1001"]).policy := by
      rw [wantedPolicy, List.find?_cons_of_pos (by decide), Option.map_some]
    obtain rfl := Option.some.inj (hone.symm.trans hwanted)
    exact hgone ((hrel.appIds.find 1002).mp hthere)

end Oaf
