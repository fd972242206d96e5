/-
# Single-user rules

A rule of UCI with mode 2 is for one user.  The manager creates it in the kernel and then writes its
MAC list, its app ids and its QUIC flag; for the kernel a rule without addresses is for all users.

* `single_user`: as long as no app id and no QUIC flag gets into a single-user rule without an
  address, none of its addresses is replaced by another or taken away, and no write has app ids up to
  the largest `int`, every match of the rule is for the address of its user.
* `single_user_matches_all`: a rule with mode 2 and no address is put in force for all users.
-/
import Oaf.Filter.Policy
import Oaf.Lib.Runs
import Oaf.Manager.Device

namespace Oaf

open CLib Chains Prog Runs

/-! ## 1. The kernel and the origin of its rules -/

/-- The kernel, and for each rule the rule of UCI that it was created for. -/
structure OwnedKernel where
  kernel : FilterKernel
  owner : Int → Option AppRule

/-- A write that has brought a rule into the kernel makes its rule of UCI the owner. -/
def OwnedKernel.after (d : OwnedKernel) (w : DevWrite) (k' : FilterKernel) : OwnedKernel where
  kernel := k'
  owner i := match w.createdFor with
    | some rule =>
      if i = rule.id ∧ (fwxFindAppFilterRule d.kernel i).isNone = true ∧
        (fwxFindAppFilterRule k' i).isSome = true then some rule
      else d.owner i
    | none => d.owner i

/-- A write of the manager that meets a condition if it is carried out. -/
def ownedWrite (cond : OwnedKernel → DevWrite → Prop) (d : OwnedKernel) (w : DevWrite) (r : Bool)
    (d' : OwnedKernel) : Prop :=
  ∃ outcome k', DevStep outcome d.kernel w r k' ∧ (outcome = .done → cond d w) ∧
    d' = d.after w k'

structure ManagerState where
  device : OwnedKernel
  table : LuaTable AppRuleState

/-- What the main loop does about app-filter rules. -/
inductive ManagerEvent
  | round (pairs : LuaTable AppRuleState → List Int) (now : TimeInfo) (rules : List AppRule)
  | reinit (rules : List AppRule)

def ManagerEvent.program (table : LuaTable AppRuleState) :
    ManagerEvent → Manager (LuaTable AppRuleState)
  | .round pairs now rules => processAppfilterRules pairs now rules table
  | .reinit rules => do
    let _ ← flushAppfilterRules
    return initAppfilterState rules

/-- One event, to its end. -/
def managerStep (cond : OwnedKernel → DevWrite → Prop) (s : ManagerState) (e : ManagerEvent)
    (t : ManagerState) : Prop :=
  Ends (ownedWrite cond) (e.program s.table) s.device t.table t.device

/-- `pairs` goes through the whole table. -/
def ManagerEvent.Ok : ManagerEvent → Prop
  | .round pairs _ _ => PairsOk pairs
  | .reinit _ => True

/-- The states of the kernel in a run: after some events, on the way through the next. -/
def KernelReached (cond : OwnedKernel → DevWrite → Prop) (s : ManagerState) (d : OwnedKernel) :
    Prop :=
  ∃ (t : ManagerState) (e : ManagerEvent),
    Reaches (managerStep cond) (fun _ e => e.Ok) s t ∧ e.Ok ∧
      Visits (ownedWrite cond) (e.program t.table) t.device d

/-! ## 2. Rules for one user -/

/-- The rule has an app id or the QUIC flag. -/
def InForce (rule : AppFilterRule) : Prop :=
  rule.filterQuic = 1 ∨ ∃ appId, findAppIdNode rule.appIdList appId = true

/-- A request brings neither an app id nor the QUIC flag. -/
def Harmless (req : RuleRequest) : Prop :=
  req.filterQuic ≠ some 1 ∧
    ∀ change ∈ req.appChange, ∀ token ∈ change.2, idsOf (tokenRange token) = []

/-- A modification of the rule of a user.  A MAC list is written alone, replaces the old one and has
no address but the user's; and the rule is not in force yet, or some node gets memory.  Anything
else is harmless, or the rule has an address. -/
def UserWriteOk (kmem : Kmem) (rule : AppFilterRule) (user : AppRule) (req : RuleRequest) : Prop :=
  if req.macAction = none then Harmless req ∨ macListEmpty rule.macList = false
  else
    req.macAction = some 1 ∧ req.macList.isSome = true ∧ req.appAction = none ∧
      req.filterQuic = none ∧
      (∀ mac ∈ req.macs, macStrToBin (some user.userMac) = some mac) ∧
      (¬ InForce rule ∨ ∃ mac, NodeGranted kmem req.macs mac)

/-- **The condition** on a write that is carried out: what it does to a rule that was created for a
rule with mode 2.  The manager only deletes whole rules. -/
def SingleUserOk (d : OwnedKernel) (w : DevWrite) : Prop :=
  w.readable = true ∧ w.call.belowTop = true ∧
    match w.call with
    | .modAppFilterRule req => ∀ rule user, req.ruleId = some rule.ruleId →
        fwxFindAppFilterRule d.kernel rule.ruleId = some rule → d.owner rule.ruleId = some user →
        user.mode = 2 → UserWriteOk d.kernel.kmem rule user req
    | .delAppFilterRule req => req.appId = none
    | _ => True

/-- The rule has no address but the user's, and is not in force without one. -/
structure ForUser (rule : AppFilterRule) (user : AppRule) : Prop where
  macs : ∀ mac, fwxFindMacNode rule.macList mac = true → macStrToBin (some user.userMac) = some mac
  force : macListEmpty rule.macList = true → ¬ InForce rule

/-- Rule ids are unique, and every rule that was created for a rule with mode 2 is for its user. -/
structure SingleUserInv (d : OwnedKernel) : Prop where
  ids : (d.kernel.config.appFilterRuleList.map AppFilterRule.ruleId).Nodup
  users : ∀ rule ∈ d.kernel.config.appFilterRuleList, ∀ user, d.owner rule.ruleId = some user →
    user.mode = 2 → ForUser rule user

theorem forUser_new (ruleId : Int) (user : AppRule) : ForUser { ruleId := ruleId } user :=
  ⟨fun _ h => Bool.noConfusion h, fun _ h => by
    rcases h with hquic | ⟨_, happ⟩
    · exact absurd hquic Int.zero_ne_one
    · exact Bool.noConfusion happ⟩

theorem macListEmpty_of_find {config : MacConfig} {mac : Mac} (h : fwxFindMacNode config mac = true) :
    macListEmpty config = false := by
  rw [Bool.eq_false_iff]
  intro hempty
  have hchain := List.all_eq_true.mp hempty (macHash mac) (List.mem_finRange _)
  rw [fwxFindMacNode, List.isEmpty_iff.mp hchain] at h
  exact Bool.noConfusion h

/-- App ids that are not there are not added. -/
theorem addAppIdList_harmless (kmem : Kmem) (config : AppIdConfig) {tokens : List CJson}
    (h : ∀ token ∈ tokens, idsOf (tokenRange token) = []) :
    (addAppIdList kmem config tokens).1 = config := by
  induction tokens generalizing kmem with
  | nil => rfl
  | cons token rest ih =>
    rw [addAppIdList, h token List.mem_cons_self]
    exact ih kmem fun t ht => h t (List.mem_cons_of_mem token ht)

theorem appAction_harmless (kmem : Kmem) (config : AppIdConfig) {req : RuleRequest}
    (h : Harmless req) :
    (appAction kmem config req).1 = config ∨ (appAction kmem config req).1 = {} := by
  have htokens := h.2
  rw [RuleRequest.appChange] at htokens
  rw [appAction]
  cases happ : req.appAction with
  | none => exact .inl rfl
  | some action =>
    rw [happ] at htokens
    dsimp only at htokens ⊢
    by_cases h1 : action = 1
    · simp only [h1, if_true, true_or] at htokens ⊢
      cases hlist : req.appIdList with
      | none => exact .inl rfl
      | some tokens =>
        rw [hlist] at htokens
        exact .inr (addAppIdList_harmless _ _ (htokens _ rfl))
    by_cases h2 : action = 2
    · simp only [h2, if_true, or_true] at htokens ⊢
      cases hlist : req.appIdList with
      | none => exact .inl rfl
      | some tokens =>
        rw [hlist] at htokens
        exact .inl (addAppIdList_harmless _ _ (htokens _ rfl))
    by_cases h3 : action = 3
    · simp only [h3, if_true] at htokens ⊢
      cases htoken : req.appId with
      | none => exact .inl rfl
      | some token =>
        rw [htoken] at htokens
        exact .inl (addAppIdList_harmless _ _ (htokens _ rfl))
    · simp only [h1, h2, h3, if_false, or_self]
      exact .inr trivial

theorem inForce_of_harmless {kmem : Kmem} {rule : AppFilterRule} {req : RuleRequest}
    (h : Harmless req) (hforce : InForce (modAppRule kmem rule req).1) : InForce rule := by
  rcases hforce with hquic | ⟨appId, happ⟩
  · left
    simp only [modAppRule] at hquic
    split at hquic
    · rename_i quic hreq
      split at hquic
      · rename_i h1
        exact absurd (h1 ▸ hreq) h.1
      · exact absurd hquic Int.zero_ne_one
    · exact hquic
  · right
    simp only [modAppRule] at happ
    rcases appAction_harmless (macAction kmem rule.macList req).2 rule.appIdList h with hsame | hnone
    · rw [hsame] at happ
      exact ⟨appId, happ⟩
    · rw [hnone] at happ
      exact Bool.noConfusion happ

/-! ## 3. Writes -/

theorem forUser_mod {kmem : Kmem} {rule : AppFilterRule} {user : AppRule} {req : RuleRequest}
    (h : ForUser rule user) (hok : UserWriteOk kmem rule user req) :
    ForUser (modAppRule kmem rule req).1 user := by
  rw [UserWriteOk] at hok
  split at hok
  · -- the addresses stay
    rename_i hnone
    have hsame : (modAppRule kmem rule req).1.macList = rule.macList := by
      simp only [modAppRule, macAction, hnone]
    refine ⟨fun mac hmac => h.macs mac (hsame ▸ hmac), fun hempty hforce => ?_⟩
    rw [hsame] at hempty
    rcases hok with hharmless | hnotEmpty
    · exact h.force hempty (inForce_of_harmless hharmless hforce)
    · exact absurd (hnotEmpty.symm.trans hempty) Bool.false_ne_true
  · -- they are replaced, and nothing else
    obtain ⟨hone, hlist, happ, hquic, hmacs, hready⟩ := hok
    obtain ⟨macArray, harray⟩ := Option.isSome_iff_exists.mp hlist
    have hnew : (modAppRule kmem rule req).1.macList =
        (addMacList kmem fwxMacConfigInit macArray).1 := by
      simp only [modAppRule, macAction, hone, harray, true_or, if_true]
    have hfind : ∀ mac, fwxFindMacNode (modAppRule kmem rule req).1.macList mac = true ↔
        NodeGranted kmem req.macs mac := by
      intro mac
      rw [hnew, find_addMacList, RuleRequest.macs, harray]
      exact or_iff_right fun hinit => Bool.noConfusion hinit
    refine ⟨fun mac hmac => hmacs mac ((hfind mac).mp hmac).mem, fun hempty hforce => ?_⟩
    rcases hready with hidle | ⟨mac, hgranted⟩
    · refine hidle ?_
      simpa only [InForce, modAppRule, appAction, happ, hquic] using hforce
    · have hnotEmpty := macListEmpty_of_find ((hfind mac).mpr hgranted)
      exact absurd (hnotEmpty.symm.trans hempty) Bool.false_ne_true

variable {d d' : OwnedKernel} {k' : FilterKernel} {w : DevWrite}

/-- A rule that the kernel has keeps its owner. -/
theorem owner_after {rule : AppFilterRule} (hmem : rule ∈ d.kernel.config.appFilterRuleList) :
    (d.after w k').owner rule.ruleId = d.owner rule.ruleId := by
  have hsome : (fwxFindAppFilterRule d.kernel rule.ruleId).isNone = false := by
    rw [Option.isNone_eq_false_iff, fwxFindAppFilterRule, List.find?_isSome]
    exact ⟨rule, hmem, beq_iff_eq.mpr rfl⟩
  simp only [OwnedKernel.after, hsome]
  split
  · exact if_neg fun h => Bool.false_ne_true h.2.1
  · rfl

/-- Rules of before, and rules that are for the user of any rule. -/
theorem singleUserInv_of_old (h : SingleUserInv d)
    (hids : (k'.config.appFilterRuleList.map AppFilterRule.ruleId).Nodup)
    (hrules : ∀ rule ∈ k'.config.appFilterRuleList, rule ∈ d.kernel.config.appFilterRuleList ∨
      ∀ user, (d.after w k').owner rule.ruleId = some user → user.mode = 2 → ForUser rule user) :
    SingleUserInv (d.after w k') := by
  refine ⟨hids, fun rule hmem user howner hmode => ?_⟩
  rcases hrules rule hmem with hold | hnew
  · rw [owner_after hold] at howner
    exact h.users rule hold user howner hmode
  · exact hnew user howner hmode

theorem singleUserInv_same (h : SingleUserInv d)
    (hsame : k'.config.appFilterRuleList = d.kernel.config.appFilterRuleList) :
    SingleUserInv (d.after w k') :=
  singleUserInv_of_old h (hsame ▸ h.ids) fun _ hmem => .inl (hsame ▸ hmem)

theorem singleUserInv_add (h : SingleUserInv d) (req : RuleRequest) :
    SingleUserInv (d.after w (fwxApiAddAppFilterRule d.kernel req)) := by
  rw [fwxApiAddAppFilterRule]
  cases hid : req.ruleId with
  | none => exact singleUserInv_same h rfl
  | some ruleId =>
    dsimp only
    rw [fwxAddAppFilterRule]
    split
    · exact singleUserInv_same h rfl
    cases hfind : fwxFindAppFilterRule d.kernel.stamp ruleId with
    | some rule =>
      rw [Option.isSome_some, if_pos rfl]
      exact singleUserInv_same h rfl
    | none =>
      rw [Option.isSome_none, if_neg Bool.false_ne_true]
      dsimp only
      split
      · refine singleUserInv_of_old h ?_ fun rule hmem => ?_
        · exact nodup_cons h.ids hfind
        · rcases List.mem_cons.mp hmem with rfl | hold
          · exact .inr fun user _ _ => forUser_new ruleId user
          · exact .inl hold
      · exact singleUserInv_same h rfl

theorem singleUserInv_mod (h : SingleUserInv d) {req : RuleRequest}
    (hok : ∀ rule user, req.ruleId = some rule.ruleId →
      fwxFindAppFilterRule d.kernel rule.ruleId = some rule → d.owner rule.ruleId = some user →
      user.mode = 2 → UserWriteOk d.kernel.kmem rule user req) :
    SingleUserInv (d.after w (fwxApiModAppFilterRule d.kernel req)) := by
  rw [fwxApiModAppFilterRule]
  cases hid : req.ruleId with
  | none => exact singleUserInv_same h rfl
  | some ruleId =>
    dsimp only
    cases hfind : fwxFindAppFilterRule d.kernel ruleId with
    | none => exact singleUserInv_same h rfl
    | some rule =>
      have hkey : rule.ruleId = ruleId := appRuleId_of_find hfind
      have hmem : rule ∈ d.kernel.config.appFilterRuleList := mem_of_lookup hfind
      subst hkey
      refine singleUserInv_of_old h (nodup_updateFirst (fun _ _ => rfl) h.ids)
        fun rule' hmem' => ?_
      rcases mem_updateFirst h.ids hmem' with ⟨hold, -⟩ | ⟨old, -, -, rfl⟩
      · exact .inl hold
      · refine .inr fun user howner hmode => ?_
        have howner' : d.owner rule.ruleId = some user := (owner_after hmem).symm.trans howner
        exact forUser_mod (h.users rule hmem user howner' hmode)
          (hok rule user hid hfind howner' hmode)

theorem singleUserInv_del (h : SingleUserInv d) {req : RuleRequest} (happ : req.appId = none)
    (hdel : fwxApiDelAppFilterRule d.kernel req = some k') : SingleUserInv (d.after w k') := by
  rw [fwxApiDelAppFilterRule] at hdel
  cases hid : req.ruleId with
  | none =>
    rw [hid] at hdel
    obtain rfl := Option.some.inj hdel
    exact singleUserInv_same h rfl
  | some ruleId =>
    rw [hid, happ] at hdel
    obtain rfl := Option.some.inj hdel
    rw [fwxDelAppFilterRule]
    split
    · exact singleUserInv_of_old h (nodup_eraseP h.ids _) fun _ hmem =>
        .inl (List.mem_of_mem_eraseP hmem)
    · exact singleUserInv_same h rfl

/-- One write. -/
theorem singleUserInv_write (h : SingleUserInv d) {r : Bool}
    (hstep : ownedWrite SingleUserOk d w r d') : SingleUserInv d' := by
  obtain ⟨outcome, k', hdev, hok, rfl⟩ := hstep
  cases hdev with
  | failed => exact singleUserInv_same h rfl
  | ignored => exact singleUserInv_same h rfl
  | done hcall hhandle =>
    obtain ⟨hread, hbelow, hok⟩ := hok rfl
    rw [hcall hread] at hhandle
    replace hhandle := hhandle hbelow
    cases hw : w.call with
    | addAppFilterRule req =>
      rw [hw] at hhandle
      obtain rfl := Option.some.inj hhandle
      exact singleUserInv_add h req
    | modAppFilterRule req =>
      rw [hw] at hhandle hok
      obtain rfl := Option.some.inj hhandle
      exact singleUserInv_mod h hok
    | delAppFilterRule req =>
      rw [hw] at hhandle hok
      exact singleUserInv_del h hok hhandle
    | flushAppFilterRule =>
      rw [hw] at hhandle
      obtain rfl := Option.some.inj hhandle
      exact ⟨List.nodup_nil, fun rule hmem => absurd hmem List.not_mem_nil⟩
    | _ =>
      rw [hw] at hhandle
      exact singleUserInv_same h (congrArg Prod.fst (appPart_of_other rfl hhandle))

/-! ## 4. Runs -/

/-- A program keeps the invariant, to its end and on the way. -/
theorem wp_singleUserInv {α : Type} (p : Manager α) (h : SingleUserInv d) :
    wp (ownedWrite SingleUserOk) SingleUserInv p (fun _ => SingleUserInv) d :=
  wp_invariant (fun _ _ _ _ h hstep => singleUserInv_write h hstep) p h

def DeviceInv (s : ManagerState) : Prop := SingleUserInv s.device

theorem managerStep_inv {s t : ManagerState} {e : ManagerEvent} (h : DeviceInv s)
    (hstep : managerStep SingleUserOk s e t) : DeviceInv t :=
  Ends.wp hstep (wp_singleUserInv _ h)

/-- What a match says about a rule. -/
theorem mac_of_match {config : FilterConfig} {appId : Nat} {mac : Mac} {rule : AppFilterRule}
    {user : AppRule} (h : ForUser rule user)
    (hmatch : fwxMatchAppFilterRule config appId mac = some rule) :
    macStrToBin (some user.userMac) = some mac := by
  have hanswer := List.find?_some hmatch
  rw [Bool.and_eq_true, Bool.and_eq_true, Bool.or_eq_true] at hanswer
  obtain ⟨⟨-, hfound | hempty⟩, happ⟩ := hanswer
  · exact h.macs mac hfound
  · refine absurd ?_ (h.force hempty)
    split at happ
    · exact .inl (beq_iff_eq.mp happ)
    · exact .inr ⟨appId, happ⟩

/-- **Single-user rules are for their users.**  In every run from a kernel whose rules were not
created by the manager, whose writes meet the condition as far as they are carried out, a rule that
was created for a rule with mode 2 is only matched for the address of its user. -/
theorem single_user {s : ManagerState} {d : OwnedKernel}
    (hids : (s.device.kernel.config.appFilterRuleList.map AppFilterRule.ruleId).Nodup)
    (hnone : ∀ ruleId, s.device.owner ruleId = none) (hrun : KernelReached SingleUserOk s d)
    (appId : Nat) (mac : Mac) {rule : AppFilterRule} {user : AppRule}
    (hmatch : fwxMatchAppFilterRule d.kernel.config appId mac = some rule)
    (howner : d.owner rule.ruleId = some user) (hmode : user.mode = 2) :
    macStrToBin (some user.userMac) = some mac := by
  obtain ⟨t, e, hreach, -, hvisit⟩ := hrun
  have hinit : SingleUserInv s.device := ⟨hids, fun rule _ user howner _ => by
    rw [hnone] at howner
    exact absurd howner (Option.some_ne_none user).symm⟩
  have ht : DeviceInv t := hreach.invariant (fun _ _ _ hs _ hstep => managerStep_inv hs hstep) hinit
  have hd : SingleUserInv d := hvisit.wp (wp_singleUserInv _ ht) ht
  exact mac_of_match (hd.users rule (List.mem_of_find?_eq_some hmatch) user howner hmode) hmatch

/-! ## 5. A rule for one user -/

def monday : TimeInfo := { weekday := 1, minutes := 600 }

/-- On Mondays, app 1001 is blocked for one user. -/
def mondayRule (userMac : CStr) : AppRule where
  id := 1
  mode := 2
  userMac := userMac
  timeRules := [{ weekdays := [1], startTime := ascii "00:00", endTime := ascii "23:59" }]
  appIds := [.lit "1001"]

/-- No rules, and the manager has not made a round. -/
def nothingDone : ManagerState where
  device := { kernel := { kmem := freeMemory }, owner := fun _ => none }
  table := ∅

def createWrite (rule : AppRule) : DevWrite :=
  { call := .addAppFilterRule { ruleId := rule.id }, createdFor := rule }

def macsRequest (rule : AppRule) : RuleRequest :=
  { ruleId := rule.id, macAction := some 1, macList := some (rule.macList.map some) }

def macsWrite (rule : AppRule) : DevWrite :=
  { call := .modAppFilterRule (macsRequest rule), readable := rule.macList.all jsonPlain }

def appsRequest (rule : AppRule) : RuleRequest :=
  { ruleId := rule.id, appAction := some 1, appIdList := some (rule.appIds.map textToken) }

def appsWrite (rule : AppRule) : DevWrite :=
  { call := .modAppFilterRule (appsRequest rule), readable := rule.appIds.all jsonText }

/-- The kernel after the creation of a rule, after its MAC list, and after its app ids. -/
def ruleCreated (rule : AppRule) : OwnedKernel :=
  nothingDone.device.after (createWrite rule)
    (fwxApiAddAppFilterRule nothingDone.device.kernel { ruleId := rule.id })

def macsWritten (rule : AppRule) : OwnedKernel :=
  (ruleCreated rule).after (macsWrite rule)
    (fwxApiModAppFilterRule (ruleCreated rule).kernel (macsRequest rule))

def appsWritten (rule : AppRule) : OwnedKernel :=
  (macsWritten rule).after (appsWrite rule)
    (fwxApiModAppFilterRule (macsWritten rule).kernel (appsRequest rule))

/-- The first round for one rule, up to its app ids. -/
theorem appsWritten_reached {cond : OwnedKernel → DevWrite → Prop} {rule : AppRule}
    (hactive : rule.shouldActive monday = true)
    (hcreate : cond nothingDone.device (createWrite rule))
    (hmacs : cond (ruleCreated rule) (macsWrite rule))
    (happs : cond (macsWritten rule) (appsWrite rule)) :
    KernelReached cond nothingDone (appsWritten rule) := by
  refine ⟨nothingDone, .round AList.keys monday [rule], .refl, fun table => .refl _, ?_⟩
  have hactivate : processAppfilterRule monday ∅ rule = activateAppfilterRule ∅ rule := by
    rw [processAppfilterRule, if_pos hactive]
    exact if_neg Bool.false_ne_true
  have hrun : Visits (ownedWrite cond) (activateAppfilterRule ∅ rule) nothingDone.device
      (appsWritten rule) :=
    .ask ⟨.done, _, .done (fun _ => rfl) fun _ => rfl, fun _ => hcreate, rfl⟩
      (.ask ⟨.done, _, .done (fun _ => rfl) fun _ => rfl, fun _ => hmacs, rfl⟩
        (.ask ⟨.done, _, .done (fun _ => rfl) fun _ => rfl, fun _ => happs, rfl⟩ (.here _ _)))
  rw [← hactivate] at hrun
  exact Visits.bind (Visits.bind hrun)

/-- The rule of the guest. -/
def guestRule : AppRule := mondayRule (.lit "02:00:00:00:00:a7")

theorem guestRule_reached : KernelReached SingleUserOk nothingDone (appsWritten guestRule) := by
  refine appsWritten_reached (by decide) ⟨rfl, rfl, trivial⟩ ⟨by decide, rfl, ?_⟩ ⟨by decide, by decide, ?_⟩
  · intro rule user hid hfind howner hmode
    rw [← Option.some.inj hid] at hfind howner
    obtain rfl : ({ ruleId := 1 } : AppFilterRule) = rule := Option.some.inj hfind
    obtain rfl : guestRule = user := Option.some.inj howner
    have hmacs : (macsRequest guestRule).macs = [guestMac] := by decide
    rw [UserWriteOk, if_neg (by decide)]
    refine ⟨rfl, rfl, rfl, rfl, fun mac hmac => ?_,
      .inl ((forUser_new 1 guestRule).force (by decide))⟩
    rw [hmacs, List.mem_singleton] at hmac
    rw [hmac]
    decide
  · intro rule user hid hfind howner hmode
    rw [← Option.some.inj hid] at hfind
    have hrule : fwxFindAppFilterRule (macsWritten guestRule).kernel guestRule.id =
        some (modAppRule (ruleCreated guestRule).kernel.kmem { ruleId := 1 }
          (macsRequest guestRule)).1 := rfl
    obtain rfl := Option.some.inj (hrule.symm.trans hfind)
    rw [UserWriteOk, if_pos (show (appsRequest guestRule).macAction = none from rfl)]
    exact .inr (macListEmpty_of_find (show fwxFindMacNode _ guestMac = true by decide))

theorem single_user_guest : ∃ rule,
    fwxMatchAppFilterRule (appsWritten guestRule).kernel.config 1001 guestMac = some rule ∧
      macStrToBin (some guestRule.userMac) = some guestMac := by
  have hmatch : (fwxMatchAppFilterRule (appsWritten guestRule).kernel.config 1001
      guestMac).map (·.ruleId) = some 1 := by decide +kernel
  obtain ⟨rule, hrule, hid⟩ := Option.map_eq_some_iff.mp hmatch
  have howner : (appsWritten guestRule).owner rule.ruleId = some guestRule := by
    rw [hid]
    rfl
  exact ⟨rule, hrule, single_user (s := nothingDone) List.nodup_nil (fun _ => rfl)
    guestRule_reached 1001 guestMac hrule howner rfl⟩

/-- **A rule for all users.**  A rule with mode 2 whose `user_mac` is empty is matched for an address:
its MAC list is written as an empty one, and its app ids after that. -/
theorem single_user_matches_all : ∃ d rule user,
    KernelReached (fun _ _ => True) nothingDone d ∧
    fwxMatchAppFilterRule d.kernel.config 1001 guestMac = some rule ∧
    d.owner rule.ruleId = some user ∧ user.mode = 2 ∧ user.userMac = .empty ∧
    macStrToBin (some user.userMac) ≠ some guestMac := by
  have hreached : KernelReached (fun _ _ => True) nothingDone (appsWritten (mondayRule .empty)) :=
    appsWritten_reached (by decide) trivial trivial trivial
  have hmatch : (fwxMatchAppFilterRule (appsWritten (mondayRule .empty)).kernel.config 1001
      guestMac).map (·.ruleId) = some 1 := by decide +kernel
  obtain ⟨rule, hrule, hid⟩ := Option.map_eq_some_iff.mp hmatch
  refine ⟨_, rule, mondayRule .empty, hreached, hrule, ?_, rfl, rfl, by decide⟩
  rw [hid]
  rfl

end Oaf
