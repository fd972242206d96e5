/-
# `fwx_hook_gateway_handle`

The gateway hook on one packet of a tracked connection.  It goes through four stages, each of
which can return: the checks before a client is known (`gatewayPrologue`), the decision stored
in the mark (`gatewayMarked`), what has to be there for inspection (`gatewayInspectable`), and
the inspection itself (`gatewayInspect`).

* `GatewayExit`: the places the hook returns from, with what they return.
* `gatewayMarked_cases`: what the stored decision leads to.
* `fwxHookGatewayHandle_cases`: the ways through the hook.
* `gatewayInspect_cases`: what an inspection can leave.

What the hook writes for reports only (visit counts, active lists) is left out, and so is the
TCP reset it sends along with a drop.
-/
import Oaf.Hook.Mark
import Oaf.Hook.Rules
import Oaf.Match.Paths

namespace Oaf

open CLib

/-! ## 1. Addresses -/

def isIpv4Broadcast (ip : UInt32) : Bool := ip &&& 0x00FFFFFF == 0x00FFFFFF

def isIpv4Multicast (ip : UInt32) : Bool := ip &&& 0xF0000000 == 0xE0000000

/-- `is_ipv4_private_lan`. -/
def isIpv4PrivateLan (ip : UInt32) : Bool :=
  ip &&& 0xFF000000 == 0x0A000000 || ip &&& 0xFFF00000 == 0xAC100000 ||
    ip &&& 0xFFFF0000 == 0xC0A80000

/-- `af_is_ipv6_private_lan`: loopback, unique local, link local. -/
def afIsIpv6PrivateLan (addr : List UInt8) : Bool :=
  addr == List.replicate 15 0 ++ [1] || addr.getD 0 0 &&& 0xFE == 0xFC ||
    (addr.getD 0 0 == 0xFE && addr.getD 1 0 &&& 0xC0 == 0x80)

/-- `af_match_private_lan_dst`. -/
def afMatchPrivateLanDst (f : FlowInfo) : Bool :=
  (f.dst != 0 && isIpv4PrivateLan f.dst) || f.dst6.any afIsIpv6PrivateLan

/-! ## 2. The hook's surroundings -/

/-- `af_client_info_t`, as far as the hooks decide by it. -/
structure AfClientInfo where
  mac : Mac
  ip : UInt32 := 0
  ipv6 : List UInt8 := List.replicate 16 0
  recordWhitelist : Bool := false

/-- What both hooks read and do not change: the features with their automaton, the filters, the
clock and its rate, the clients in the order of their table, the LAN they work for, and the memory
of `regexp_match`. -/
structure HookEnv where
  lib : KernelLib
  regexpMem : RegexpMem
  gUrlAc : AfUrlAc := {}
  afFeatureHead : List AfFeatureNode := []
  filter : FilterConfig := {}
  jiffies : Nat := 0
  hz : Nat
  clients : List AfClientInfo := []
  gLanIfname : CStr := .lit "br-lan"
  fwxLanIp : UInt32 := 0
  fwxLanMask : UInt32 := 0
  gByPassAccl : Bool := true

/-- What the hook gets with a packet: the device it came in on, whether conntrack knows and has
confirmed its connection, the packet counters of that connection added up (if it is counted),
and for a packet in fragments of memory what `read_skb` makes of it. -/
structure GatewayPacket where
  skb : Skb
  devName : CStr
  tracked : Bool := true
  confirmed : Bool := true
  acct : Option Nat := none
  nonlinear : Option (Option Mem) := none

/-- The places `fwx_hook_gateway_handle` returns from. -/
inductive GatewayExit
  | notHandled
  | appDrop
  | markDrop
  | identified
  | noAcct
  | manyPackets
  | noMemory
  | appRule
  | macRule
  | passed
deriving DecidableEq, Repr

/-- `NF_ACCEPT` or `NF_DROP`. -/
inductive Verdict
  | accept
  | drop
deriving DecidableEq, Repr

def GatewayExit.ret : GatewayExit → Verdict
  | .appDrop | .markDrop | .appRule | .macRule => .drop
  | .notHandled | .identified | .noAcct | .manyPackets | .noMemory | .passed => .accept

/-- The checks of `check_app_action_changed` and the rules, at the hook's clock. -/
def HookEnv.appRule (env : HookEnv) (appId : UInt32) (client : AfClientInfo) : Bool :=
  matchAppFilterRule env.filter appId.toNat client.mac

def HookEnv.macRule (env : HookEnv) (client : AfClientInfo) : Bool :=
  matchMacFilterRule env.filter client.mac

def HookEnv.windowOpen (env : HookEnv) : Bool := Oaf.windowOpen env.filter env.jiffies env.hz

def HookEnv.actionChanged (env : HookEnv) (action : Bool) (appId : UInt32)
    (client : AfClientInfo) : Bool :=
  checkAppActionChanged env.filter env.jiffies env.hz action appId.toNat client.mac

/-! ## 3. The stages -/

/-- The part up to the client: `none` is an early `NF_ACCEPT`. -/
def gatewayPrologue (env : HookEnv) (pkt : GatewayPacket) : Option (FlowInfo × AfClientInfo) :=
  if ¬ env.gLanIfname.bytes <:+: pkt.devName.bytes then none
  else
    match parseFlowProto pkt.skb {} with
    | none => none
    | some flow =>
      if afMatchPrivateLanDst flow ∧ flow.dport ≠ DNS_PORT then none
      else if !pkt.tracked then none
      else if flow.l4Protocol = IPPROTO_TCP ∧ !pkt.confirmed then none
      else
        let client :=
          if flow.src ≠ 0 then env.clients.find? fun node => node.ip == flow.src
          else flow.src6.bind fun addr => env.clients.find? fun node => node.ipv6 == addr
        client.map fun client => (flow, client)

/-- The block for a valid app id: the action stored in the mark, re-evaluated for an id above
1000. -/
def gatewayDecided (env : HookEnv) (client : AfClientInfo) (mark : UInt32) :
    Option GatewayExit × UInt32 :=
  let appId := fwxCtGetAppid mark
  let ctAction := fwxCtTestBit mark FWX_CT_DROP_BIT
  if appId < 1000 ∧ env.filter.gAppfilterEnable ∧ ctAction then (some .appDrop, mark)
  else if 1000 < appId ∧ appId ≤ 32000 then
    let changed := env.actionChanged ctAction appId client
    let mark := if changed then fwxCtSetBit mark FWX_CT_DROP_BIT (!ctAction) else mark
    let ctAction := if changed then !ctAction else ctAction
    if env.filter.gAppfilterEnable ∧ ctAction then (some .appDrop, mark) else (none, mark)
  else (none, mark)

/-- The test of the drop flag, and the return for an identified connection. -/
def gatewayFlagged (mark : UInt32) : Option GatewayExit :=
  if fwxCtTestBit mark FWX_CT_DROP_BIT ∧ fwxCtHasValidDropMark mark then some .markDrop
  else if fwxCtGetAppid mark ≠ 0 ∧ fwxCtIsValidAppid (fwxCtGetAppid mark) then some .identified
  else none

/-- The decision stored in the mark: where the hook returns from, if it does, and the mark. -/
def gatewayMarked (env : HookEnv) (client : AfClientInfo) (mark : UInt32) :
    Option GatewayExit × UInt32 :=
  let appId := fwxCtGetAppid mark
  let decided :=
    if appId ≠ 0 ∧ fwxCtIsValidAppid appId then gatewayDecided env client mark else (none, mark)
  match decided with
  | (some ret, mark) => (some ret, mark)
  | (none, mark) => (gatewayFlagged mark, mark)

def MAX_DPI_PKT_NUM : Nat := 256
def MAX_AF_SUPPORT_DATA_LEN : Int := 3000

/-- The payload to inspect, or where the hook returns from when there is none. -/
def gatewayInspectable (pkt : GatewayPacket) (flow : FlowInfo) : Except GatewayExit FlowInfo :=
  match pkt.acct with
  | none => .error .noAcct
  | some totalPackets =>
    if MAX_DPI_PKT_NUM < totalPackets then .error .manyPackets
    else
      match pkt.nonlinear with
      | none => .ok flow
      | some msgBuf =>
        if flow.l4Len < MAX_AF_SUPPORT_DATA_LEN then
          match msgBuf with
          | none => .error .noMemory
          | some l4Data => .ok { flow with l4Data := l4Data }
        else .ok flow

/-- What `fwx_match_feature` finds is stored in the mark. -/
def markIdentified (flow : FlowInfo) (mark : UInt32) : UInt32 :=
  let mark := fwxCtSetAppid mark flow.appId
  let mark := fwxCtSetBit mark FWX_CT_DNS_MATCH_BIT flow.matchByDns
  if flow.appId < 1000 then mark
  else if flow.feature.any fun node => node.ignore != 0 then
    fwxCtSetBit mark FWX_CT_IGNORE_BIT true
  else mark

/-- The inspection: parsers, features, then the app rules and the MAC rules. -/
def gatewayInspect (env : HookEnv) (flow : FlowInfo) (client : AfClientInfo) (mark : UInt32) :
    Option (GatewayExit × UInt32) := do
  let flow := dpiMain flow
  let mark := fwxCtSetBit mark FWX_CT_CLIENT_HELLO_BIT flow.clientHello
  let (found, flow) ← fwxMatchFeature env.lib env.regexpMem env.gUrlAc env.afFeatureHead flow
  let mark := if found then markIdentified flow mark else mark
  if found ∧ env.appRule flow.appId client then
    return (.appRule, fwxCtSetBit mark FWX_CT_DROP_BIT true)
  else if env.macRule client then return (.macRule, fwxCtSetBit mark FWX_CT_DROP_BIT true)
  else return (.passed, mark)

/-- `fwx_hook_gateway_handle`: where it returns from, and the mark it leaves. -/
def fwxHookGatewayHandle (env : HookEnv) (pkt : GatewayPacket) (mark : UInt32) :
    Option (GatewayExit × UInt32) :=
  match gatewayPrologue env pkt with
  | none => some (.notHandled, mark)
  | some (flow, client) =>
    match gatewayMarked env client mark with
    | (some ret, mark) => some (ret, mark)
    | (none, mark) =>
      let flow := { flow with clientHello := fwxCtTestBit mark FWX_CT_CLIENT_HELLO_BIT }
      match gatewayInspectable pkt flow with
      | .error ret => some (ret, mark)
      | .ok flow => gatewayInspect env flow client mark

/-! ## 4. What the stages do -/

/-- The hook re-evaluates decisions about these ids. -/
def reevaluated (appId : UInt32) : Bool := 1000 < appId && appId ≤ 32000

/-- The action of a connection at a packet: what the rules say now for a re-evaluated id inside
the window, the stored drop flag otherwise. -/
def currentAction (env : HookEnv) (client : AfClientInfo) (mark : UInt32) : Bool :=
  if reevaluated (fwxCtGetAppid mark) && env.windowOpen then
    env.appRule (fwxCtGetAppid mark) client
  else fwxCtTestBit mark FWX_CT_DROP_BIT

theorem gatewayDecided_cases (env : HookEnv) (client : AfClientInfo) (mark : UInt32) :
    ∃ ret mark', gatewayDecided env client mark = (ret, mark') ∧
      fwxCtGetAppid mark' = fwxCtGetAppid mark ∧
      fwxCtTestBit mark' FWX_CT_DROP_BIT = currentAction env client mark ∧
      (ret = none ∨ (ret = some .appDrop ∧ currentAction env client mark = true)) := by
  rw [gatewayDecided]
  have hlow : fwxCtGetAppid mark < 1000 → reevaluated (fwxCtGetAppid mark) = false := by
    intro h
    rw [reevaluated, Bool.and_eq_false_iff]
    exact .inl (decide_eq_false (UInt32.not_lt.mpr (UInt32.le_of_lt h)))
  have hstored : reevaluated (fwxCtGetAppid mark) = false →
      currentAction env client mark = fwxCtTestBit mark FWX_CT_DROP_BIT := by
    intro h
    rw [currentAction, h, Bool.false_and, if_neg Bool.false_ne_true]
  split
  · rename_i h
    have hact := hstored (hlow h.1)
    exact ⟨_, _, rfl, rfl, hact.symm, .inr ⟨rfl, hact.trans h.2.2⟩⟩
  · split
    · rename_i hrange
      have hre : reevaluated (fwxCtGetAppid mark) = true := by
        rw [reevaluated, Bool.and_eq_true, decide_eq_true_iff, decide_eq_true_iff]
        exact hrange
      -- the flag written is the flipped action, which is the current one
      have haction : (if env.actionChanged (fwxCtTestBit mark FWX_CT_DROP_BIT)
            (fwxCtGetAppid mark) client then !fwxCtTestBit mark FWX_CT_DROP_BIT
          else fwxCtTestBit mark FWX_CT_DROP_BIT) = currentAction env client mark := by
        rw [currentAction, hre, Bool.true_and]
        exact flip_of_changed env.filter env.jiffies env.hz _ _ client.mac
      have hmark : ∀ changed : Bool, fwxCtTestBit (if changed then
            fwxCtSetBit mark FWX_CT_DROP_BIT (!fwxCtTestBit mark FWX_CT_DROP_BIT) else mark)
          FWX_CT_DROP_BIT = if changed then !fwxCtTestBit mark FWX_CT_DROP_BIT
            else fwxCtTestBit mark FWX_CT_DROP_BIT := by
        rintro (_ | _)
        · rfl
        · exact testBit_setBit_self (by decide) mark _
      have hid : ∀ changed : Bool, fwxCtGetAppid (if changed then
            fwxCtSetBit mark FWX_CT_DROP_BIT (!fwxCtTestBit mark FWX_CT_DROP_BIT) else mark)
          = fwxCtGetAppid mark := by
        rintro (_ | _)
        · rfl
        · exact appId_setBit (by decide) mark _
      simp only [haction]
      split
      · rename_i h
        exact ⟨_, _, rfl, hid _, (hmark _).trans haction, .inr ⟨rfl, h.2⟩⟩
      · exact ⟨_, _, rfl, hid _, (hmark _).trans haction, .inl rfl⟩
    · rename_i hrange
      have hre : reevaluated (fwxCtGetAppid mark) = false := by
        rw [Bool.eq_false_iff]
        intro h
        rw [reevaluated, Bool.and_eq_true, decide_eq_true_iff, decide_eq_true_iff] at h
        exact hrange h
      exact ⟨_, _, rfl, rfl, (hstored hre).symm, .inl rfl⟩

theorem not_reevaluated_of_not_valid {appId : UInt32} (h : fwxCtIsValidAppid appId = false) :
    reevaluated appId = false := by
  rw [Bool.eq_false_iff] at h ⊢
  intro hre
  rw [reevaluated, Bool.and_eq_true, decide_eq_true_iff, decide_eq_true_iff] at hre
  refine h ?_
  rw [fwxCtIsValidAppid, Bool.and_eq_true, decide_eq_true_iff, decide_eq_true_iff]
  exact ⟨UInt32.lt_of_le_of_lt (by decide) hre.1, hre.2⟩

/-- **What the stored decision leads to.**  The mark keeps its id and stores the current action.
With a valid id the hook returns, dropping iff that action is to drop; without an id it returns
iff the drop flag is set; with an id above 32000 it goes on and leaves the mark as it was. -/
theorem gatewayMarked_cases (env : HookEnv) (client : AfClientInfo) (mark : UInt32) :
    ∃ ret mark', gatewayMarked env client mark = (ret, mark') ∧
      fwxCtGetAppid mark' = fwxCtGetAppid mark ∧
      fwxCtTestBit mark' FWX_CT_DROP_BIT = currentAction env client mark ∧
      (fwxCtIsValidAppid (fwxCtGetAppid mark) = true → ∃ e, ret = some e ∧
        (e.ret = .drop ↔ currentAction env client mark = true)) ∧
      (fwxCtGetAppid mark = 0 → mark' = mark ∧
        ((fwxCtTestBit mark FWX_CT_DROP_BIT = true ∧ ret = some .markDrop) ∨
          (fwxCtTestBit mark FWX_CT_DROP_BIT = false ∧ ret = none))) ∧
      (32000 < fwxCtGetAppid mark → mark' = mark ∧ ret = none) := by
  rw [gatewayMarked]
  cases hvalid : fwxCtIsValidAppid (fwxCtGetAppid mark) with
  | true =>
    have hne : fwxCtGetAppid mark ≠ 0 := by
      intro h0
      rw [h0] at hvalid
      exact absurd hvalid (by decide)
    obtain ⟨ret, mark', hdec, hid, hbit, hret⟩ := gatewayDecided_cases env client mark
    have hbig : ¬ 32000 < fwxCtGetAppid mark := by
      rw [fwxCtIsValidAppid, Bool.and_eq_true, decide_eq_true_iff, decide_eq_true_iff] at hvalid
      exact UInt32.not_lt.mpr hvalid.2
    rw [if_pos ⟨hne, rfl⟩, hdec]
    rcases hret with rfl | ⟨rfl, haction⟩
    · refine ⟨_, _, rfl, hid, hbit, fun _ => ?_, fun h => absurd h hne, fun h => absurd h hbig⟩
      rw [gatewayFlagged, fwxCtHasValidDropMark, hid, hbit, hvalid]
      cases currentAction env client mark with
      | true => exact ⟨.markDrop, by simp, by simp [GatewayExit.ret]⟩
      | false => exact ⟨.identified, by simp [hne], by simp [GatewayExit.ret]⟩
    · exact ⟨_, _, rfl, hid, hbit, fun _ => ⟨.appDrop, rfl, by simp [haction, GatewayExit.ret]⟩,
        fun h => absurd h hne, fun h => absurd h hbig⟩
  | false =>
    have haction : currentAction env client mark = fwxCtTestBit mark FWX_CT_DROP_BIT := by
      rw [currentAction, not_reevaluated_of_not_valid hvalid, Bool.false_and,
        if_neg Bool.false_ne_true]
    rw [if_neg (by simp)]
    refine ⟨_, _, rfl, rfl, haction.symm, fun h => absurd h Bool.false_ne_true, fun h0 => ?_,
      fun hbig => ⟨rfl, ?_⟩⟩
    · refine ⟨rfl, ?_⟩
      rw [gatewayFlagged, fwxCtHasValidDropMark, h0]
      cases fwxCtTestBit mark FWX_CT_DROP_BIT with
      | true => exact .inl ⟨rfl, by simp⟩
      | false => exact .inr ⟨rfl, by simp⟩
    · have hne : (fwxCtGetAppid mark == 0) = false := by
        rw [beq_eq_false_iff_ne]
        intro h0
        rw [h0] at hbig
        exact absurd hbig (by decide)
      simp [gatewayFlagged, fwxCtHasValidDropMark, hvalid, hne]

/-- What the hook does with a packet: nothing, or it finds a client; then it returns for the
stored decision, for want of something to inspect, or after an inspection. -/
theorem fwxHookGatewayHandle_cases {env : HookEnv} {pkt : GatewayPacket} {mark mark' : UInt32}
    {e : GatewayExit} (h : fwxHookGatewayHandle env pkt mark = some (e, mark')) :
    (gatewayPrologue env pkt = none ∧ e = .notHandled ∧ mark' = mark) ∨
    ∃ flow client, gatewayPrologue env pkt = some (flow, client) ∧
      (gatewayMarked env client mark = (some e, mark') ∨
        ∃ m, gatewayMarked env client mark = (none, m) ∧
          ((gatewayInspectable pkt { flow with
              clientHello := fwxCtTestBit m FWX_CT_CLIENT_HELLO_BIT } = .error e ∧ mark' = m) ∨
            ∃ flow', gatewayInspectable pkt { flow with
                clientHello := fwxCtTestBit m FWX_CT_CLIENT_HELLO_BIT } = .ok flow' ∧
              gatewayInspect env flow' client m = some (e, mark'))) := by
  rw [fwxHookGatewayHandle] at h
  cases hpro : gatewayPrologue env pkt with
  | none =>
    rw [hpro] at h
    obtain ⟨rfl, rfl⟩ := Prod.mk.inj (Option.some.inj h)
    exact .inl ⟨rfl, rfl, rfl⟩
  | some found =>
    obtain ⟨flow, client⟩ := found
    rw [hpro] at h
    refine .inr ⟨flow, client, rfl, ?_⟩
    obtain ⟨ret, m, hmarked⟩ : ∃ ret m, gatewayMarked env client mark = (ret, m) := ⟨_, _, rfl⟩
    simp only [hmarked] at h ⊢
    cases ret with
    | some ret =>
      obtain ⟨rfl, rfl⟩ := Prod.mk.inj (Option.some.inj h)
      exact .inl rfl
    | none =>
      refine .inr ⟨m, rfl, ?_⟩
      dsimp only at h
      split at h
      · rename_i ret hinsp
        obtain ⟨rfl, rfl⟩ := Prod.mk.inj (Option.some.inj h)
        exact .inl ⟨hinsp, rfl⟩
      · rename_i flow' hinsp
        exact .inr ⟨flow', hinsp, h⟩

theorem gatewayMarked_exit {env : HookEnv} {client : AfClientInfo} {mark mark' : UInt32}
    {e : GatewayExit} (h : gatewayMarked env client mark = (some e, mark')) :
    e = .appDrop ∨ e = .markDrop ∨ e = .identified := by
  have hflagged : ∀ m, gatewayFlagged m = some e → e = .markDrop ∨ e = .identified := by
    intro m hm
    rw [gatewayFlagged] at hm
    split at hm
    · exact .inl (Option.some.inj hm).symm
    · split at hm
      · exact .inr (Option.some.inj hm).symm
      · cases hm
  rw [gatewayMarked] at h
  split at h
  · rename_i ret m hdecided
    obtain ⟨hret, -⟩ := Prod.mk.inj h
    obtain rfl := Option.some.inj hret
    split at hdecided
    · obtain ⟨ret', m', hdec, -, -, hnone | ⟨happ, -⟩⟩ := gatewayDecided_cases env client mark
      · rw [hdec, hnone] at hdecided
        cases hdecided
      · rw [hdec, happ] at hdecided
        exact .inl (Option.some.inj (Prod.mk.inj hdecided).1).symm
    · cases hdecided
  · exact .inr (hflagged _ (Prod.mk.inj h).1)

theorem gatewayInspectable_exit {pkt : GatewayPacket} {flow : FlowInfo} {e : GatewayExit}
    (h : gatewayInspectable pkt flow = .error e) :
    e = .noAcct ∨ e = .manyPackets ∨ e = .noMemory := by
  rw [gatewayInspectable] at h
  split at h
  · exact .inl (Except.error.inj h).symm
  · split at h
    · exact .inr (.inl (Except.error.inj h).symm)
    · split at h
      · cases h
      · split at h
        · split at h
          · exact .inr (.inr (Except.error.inj h).symm)
          · cases h
        · cases h

/-- A rule drops a packet only after an inspection. -/
theorem inspected_of_rule {env : HookEnv} {pkt : GatewayPacket} {mark mark' : UInt32}
    {e : GatewayExit} (h : fwxHookGatewayHandle env pkt mark = some (e, mark'))
    (he : e = .appRule ∨ e = .macRule) :
    ∃ flow client m flow', gatewayPrologue env pkt = some (flow, client) ∧
      gatewayMarked env client mark = (none, m) ∧
      gatewayInspectable pkt { flow with
        clientHello := fwxCtTestBit m FWX_CT_CLIENT_HELLO_BIT } = .ok flow' ∧
      gatewayInspect env flow' client m = some (e, mark') := by
  rcases fwxHookGatewayHandle_cases h with ⟨-, rfl, -⟩ | ⟨flow, client, hpro, hways⟩
  · rcases he with he | he <;> cases he
  · rcases hways with hreturned | ⟨m, hnone, ⟨hstopped, -⟩ | ⟨flow', hok, hinspected⟩⟩
    · rcases gatewayMarked_exit hreturned with rfl | rfl | rfl <;> rcases he with he | he <;> cases he
    · rcases gatewayInspectable_exit hstopped with rfl | rfl | rfl <;> rcases he with he | he <;>
        cases he
    · exact ⟨flow, client, m, flow', hpro, hnone, hok, hinspected⟩

theorem appId_markIdentified (flow : FlowInfo) (mark : UInt32) :
    (fwxCtGetAppid (markIdentified flow mark)).toNat = flow.appId.toNat % 2 ^ 16 := by
  have hset : (fwxCtGetAppid (fwxCtSetBit (fwxCtSetAppid mark flow.appId) FWX_CT_DNS_MATCH_BIT
      flow.matchByDns)).toNat = flow.appId.toNat % 2 ^ 16 := by
    rw [appId_setBit (by decide), appId_setAppid]
  rw [markIdentified]
  split
  · exact hset
  · split
    · rw [appId_setBit (by decide), hset]
    · exact hset

theorem dropBit_markIdentified (flow : FlowInfo) (mark : UInt32) :
    fwxCtTestBit (markIdentified flow mark) FWX_CT_DROP_BIT =
      fwxCtTestBit mark FWX_CT_DROP_BIT := by
  have hset : fwxCtTestBit (fwxCtSetBit (fwxCtSetAppid mark flow.appId) FWX_CT_DNS_MATCH_BIT
      flow.matchByDns) FWX_CT_DROP_BIT = fwxCtTestBit mark FWX_CT_DROP_BIT := by
    rw [testBit_setBit_of_disjoint (by decide), testBit_setAppid (by decide)]
  rw [markIdentified]
  split
  · exact hset
  · split
    · rw [testBit_setBit_of_disjoint (by decide), hset]
    · exact hset

/-- The mark an inspection gets to the rules with: the client-hello flag, and what was found. -/
def markInspected (found : Bool) (flow flow' : FlowInfo) (mark : UInt32) : UInt32 :=
  let mark := fwxCtSetBit mark FWX_CT_CLIENT_HELLO_BIT flow.clientHello
  if found then markIdentified flow' mark else mark

theorem appId_markInspected_found (flow flow' : FlowInfo) (mark : UInt32) :
    (fwxCtGetAppid (markInspected true flow flow' mark)).toNat = flow'.appId.toNat % 2 ^ 16 :=
  appId_markIdentified flow' _

theorem appId_markInspected_not_found (flow flow' : FlowInfo) (mark : UInt32) :
    fwxCtGetAppid (markInspected false flow flow' mark) = fwxCtGetAppid mark :=
  appId_setBit (by decide) mark _

theorem dropBit_markInspected (found : Bool) (flow flow' : FlowInfo) (mark : UInt32) :
    fwxCtTestBit (markInspected found flow flow' mark) FWX_CT_DROP_BIT =
      fwxCtTestBit mark FWX_CT_DROP_BIT := by
  have hhello : fwxCtTestBit (fwxCtSetBit mark FWX_CT_CLIENT_HELLO_BIT flow.clientHello)
      FWX_CT_DROP_BIT = fwxCtTestBit mark FWX_CT_DROP_BIT :=
    testBit_setBit_of_disjoint (by decide) mark _
  cases found with
  | true => exact (dropBit_markIdentified flow' _).trans hhello
  | false => exact hhello

/-- **What an inspection can leave.**  It drops by an app rule for the id it found, or by a MAC
rule, and sets the drop flag then; or it passes the packet, with the flag as it was. -/
theorem gatewayInspect_cases {env : HookEnv} {flow : FlowInfo} {client : AfClientInfo}
    {mark mark' : UInt32} {e : GatewayExit}
    (h : gatewayInspect env flow client mark = some (e, mark')) :
    ∃ found flow', fwxMatchFeature env.lib env.regexpMem env.gUrlAc env.afFeatureHead (dpiMain flow)
        = some (found, flow') ∧
      (found = true → (fwxCtGetAppid mark').toNat = flow'.appId.toNat % 2 ^ 16) ∧
      (found = false → fwxCtGetAppid mark' = fwxCtGetAppid mark) ∧
      ((e = .appRule ∧ found = true ∧ env.appRule flow'.appId client = true ∧
          fwxCtTestBit mark' FWX_CT_DROP_BIT = true) ∨
        (e = .macRule ∧ env.macRule client = true ∧ fwxCtTestBit mark' FWX_CT_DROP_BIT = true) ∨
        (e = .passed ∧ env.macRule client = false ∧
          fwxCtTestBit mark' FWX_CT_DROP_BIT = fwxCtTestBit mark FWX_CT_DROP_BIT)) := by
  rw [gatewayInspect] at h
  obtain ⟨⟨found, flow'⟩, hfound, h⟩ := Option.bind_eq_some_iff.mp h
  change (if found = true ∧ env.appRule flow'.appId client = true then
      some (GatewayExit.appRule,
        fwxCtSetBit (markInspected found (dpiMain flow) flow' mark) FWX_CT_DROP_BIT true)
    else if env.macRule client = true then
      some (.macRule,
        fwxCtSetBit (markInspected found (dpiMain flow) flow' mark) FWX_CT_DROP_BIT true)
    else some (.passed, markInspected found (dpiMain flow) flow' mark)) = some (e, mark') at h
  have hid : ∀ m, fwxCtGetAppid m = fwxCtGetAppid (markInspected found (dpiMain flow) flow' mark) →
      (found = true → (fwxCtGetAppid m).toNat = flow'.appId.toNat % 2 ^ 16) ∧
      (found = false → fwxCtGetAppid m = fwxCtGetAppid mark) := by
    intro m hm
    constructor
    · rintro rfl
      rw [hm, appId_markInspected_found]
    · rintro rfl
      rw [hm, appId_markInspected_not_found]
  have hidDrop := hid _ (appId_setBit (show FWX_CT_APPID_MASK &&& FWX_CT_DROP_BIT = 0 by decide) _ true)
  refine ⟨found, flow', hfound, ?_⟩
  split at h
  · rename_i happ
    obtain ⟨rfl, rfl⟩ := Prod.mk.inj (Option.some.inj h)
    exact ⟨hidDrop.1, hidDrop.2, .inl ⟨rfl, happ.1, happ.2, testBit_setBit_self (by decide) _ _⟩⟩
  · split at h
    · rename_i hmac
      obtain ⟨rfl, rfl⟩ := Prod.mk.inj (Option.some.inj h)
      exact ⟨hidDrop.1, hidDrop.2, .inr (.inl ⟨rfl, hmac, testBit_setBit_self (by decide) _ _⟩)⟩
    · rename_i hmac
      obtain ⟨rfl, rfl⟩ := Prod.mk.inj (Option.some.inj h)
      have hkeep := hid _ rfl
      exact ⟨hkeep.1, hkeep.2, .inr (.inr ⟨rfl, Bool.eq_false_iff.mpr hmac,
        dropBit_markInspected _ _ _ _⟩)⟩

end Oaf
