/-
# Runs of a connection

One tracked connection in gateway mode: its mark, the hook's surroundings, and what can happen to
either.  Packets come in any order with the passing of time and with changes of the two filters,
the features, the clients and the other settings.

* `HookEnv.after`: a change of the surroundings.  Every change of the app filter's rules or
  whitelist stamps `g_appfilter_update_jiffies`; a change of an enable flag, or of the MAC filter,
  does not.
* `GatewayConn.step`: one event; a packet is `fwx_hook_gateway_handle`.
* `Quiet`: the events that leave the app rules as they are.
-/
import Oaf.Hook.Gateway
import Oaf.Lib.Runs

namespace Oaf

open CLib Runs

/-! ## 1. Changes around a connection -/

/-- What can change around a connection.  `appFilter` and `macFilter` stand for the requests that
add, modify, delete or flush rules or whitelist entries: the new lists are arbitrary. -/
inductive EnvChange
  | time (elapsed : Nat)
  | appFilter (rules : List AppFilterRule) (whitelist : MacConfig)
  | macFilter (rules : List MacFilterRule) (whitelist : MacConfig)
  | enable (appfilter macFilter : Bool)
  | features (gUrlAc : AfUrlAc) (afFeatureHead : List AfFeatureNode)
  | clients (clients : List AfClientInfo)
  | settings (gLanIfname : CStr) (fwxLanIp fwxLanMask : UInt32) (gByPassAccl : Bool)
  | memory (regexpMem : RegexpMem)

/-- `fwx_update_appfilter_jiffies`. -/
def fwxUpdateAppfilterJiffies (config : FilterConfig) (jiffies : Nat) : FilterConfig :=
  { config with gAppfilterUpdateJiffies := jiffies.toUInt32 }

def HookEnv.after (env : HookEnv) : EnvChange → HookEnv
  | .time elapsed => { env with jiffies := env.jiffies + elapsed }
  | .appFilter rules whitelist =>
    let filter :=
      { env.filter with appFilterRuleList := rules, gAppFilterWhitelist := whitelist }
    { env with filter := fwxUpdateAppfilterJiffies filter env.jiffies }
  | .macFilter rules whitelist =>
    let filter :=
      { env.filter with macFilterRuleList := rules, gMacFilterWhitelist := whitelist }
    { env with filter := filter }
  | .enable appfilter macFilter =>
    let filter := { env.filter with gAppfilterEnable := appfilter, gMacFilterEnable := macFilter }
    { env with filter := filter }
  | .features gUrlAc afFeatureHead =>
    { env with gUrlAc := gUrlAc, afFeatureHead := afFeatureHead }
  | .clients clients => { env with clients := clients }
  | .settings gLanIfname fwxLanIp fwxLanMask gByPassAccl =>
    { env with gLanIfname := gLanIfname, fwxLanIp := fwxLanIp, fwxLanMask := fwxLanMask,
               gByPassAccl := gByPassAccl }
  | .memory regexpMem => { env with regexpMem := regexpMem }

/-- A packet of the connection, or a change around it. -/
inductive ConnEvent (π : Type)
  | packet (pkt : π)
  | change (c : EnvChange)

/-! ## 2. Gateway mode -/

/-- A tracked connection and its surroundings. -/
structure GatewayConn where
  env : HookEnv
  mark : UInt32

/-- One event.  There is no next state when the hook's behaviour is undefined. -/
def GatewayConn.step (s : GatewayConn) : ConnEvent GatewayPacket → Option GatewayConn
  | .packet pkt =>
    (fwxHookGatewayHandle s.env pkt s.mark).map fun result => { s with mark := result.2 }
  | .change c => some { s with env := s.env.after c }

def gatewayStep (s : GatewayConn) (e : ConnEvent GatewayPacket) (t : GatewayConn) : Prop :=
  s.step e = some t

theorem gatewayStep_packet {s t : GatewayConn} {pkt : GatewayPacket}
    (h : gatewayStep s (.packet pkt) t) :
    ∃ e mark, fwxHookGatewayHandle s.env pkt s.mark = some (e, mark) ∧ t = { s with mark := mark } := by
  obtain ⟨⟨e, mark⟩, hhandle, rfl⟩ := Option.map_eq_some_iff.mp h
  exact ⟨e, mark, hhandle, rfl⟩

theorem gatewayStep_change {s t : GatewayConn} {c : EnvChange}
    (h : gatewayStep s (.change c) t) : t = { s with env := s.env.after c } :=
  (Option.some.inj h).symm

/-! ## 3. Quiet changes -/

/-- The app rules, the app-filter whitelist and the enable flags stay as they are. -/
def EnvChange.Quiet : EnvChange → Prop
  | .appFilter .. | .enable .. => False
  | _ => True

/-- What the app rules say of an app and a client depends on the client's address only. -/
theorem appRule_eq_of_mac (env : HookEnv) (appId : UInt32) {client client' : AfClientInfo}
    (h : client.mac = client'.mac) : env.appRule appId client = env.appRule appId client' := by
  rw [HookEnv.appRule, HookEnv.appRule, h]

theorem appRule_after_quiet {c : EnvChange} (h : c.Quiet) (env : HookEnv) (appId : UInt32)
    (client : AfClientInfo) : (env.after c).appRule appId client = env.appRule appId client := by
  cases c with
  | appFilter => exact h.elim
  | enable => exact h.elim
  | _ => rfl

theorem macFilterEnable_after_quiet {c : EnvChange} (h : c.Quiet) (env : HookEnv) :
    (env.after c).filter.gMacFilterEnable = env.filter.gMacFilterEnable := by
  cases c with
  | appFilter => exact h.elim
  | enable => exact h.elim
  | _ => rfl

/-- A quiet event of a connection of the client at `mac`: no change of the app rules, and no
packet of another client. -/
def GatewayQuiet (mac : Mac) (s : GatewayConn) : ConnEvent GatewayPacket → Prop
  | .packet pkt =>
    ∀ flow client, gatewayPrologue s.env pkt = some (flow, client) → client.mac = mac
  | .change c => c.Quiet

/-! ## 4. Identified connections -/

/-- A packet of a connection with a valid id leaves the id, stores the action it is handled with,
and is dropped iff that action is to drop. -/
theorem handle_of_valid {env : HookEnv} {pkt : GatewayPacket} {mark mark' : UInt32}
    {e : GatewayExit} {flow : FlowInfo} {client : AfClientInfo}
    (hvalid : fwxCtIsValidAppid (fwxCtGetAppid mark) = true)
    (hpro : gatewayPrologue env pkt = some (flow, client))
    (h : fwxHookGatewayHandle env pkt mark = some (e, mark')) :
    fwxCtGetAppid mark' = fwxCtGetAppid mark ∧
      fwxCtTestBit mark' FWX_CT_DROP_BIT = currentAction env client mark ∧
      (e.ret = .drop ↔ currentAction env client mark = true) := by
  obtain ⟨ret, m, hmarked, hid, hbit, hret, -⟩ := gatewayMarked_cases env client mark
  obtain ⟨e', rfl, hdrop⟩ := hret hvalid
  rw [fwxHookGatewayHandle, hpro] at h
  simp only [hmarked] at h
  obtain ⟨rfl, rfl⟩ := Prod.mk.inj (Option.some.inj h)
  exact ⟨hid, hbit, hdrop⟩

/-- The decision of a connection of the client at `mac` is settled: it has this valid id, and the
drop flag is what the app rules say. -/
structure Settled (mac : Mac) (appId : UInt32) (rule : Bool) (s : GatewayConn) : Prop where
  id : fwxCtGetAppid s.mark = appId
  valid : fwxCtIsValidAppid appId = true
  flag : fwxCtTestBit s.mark FWX_CT_DROP_BIT = rule
  rule : ∀ client : AfClientInfo, client.mac = mac → s.env.appRule appId client = rule

theorem Settled.currentAction {mac : Mac} {appId : UInt32} {rule : Bool} {s : GatewayConn}
    (h : Settled mac appId rule s) {client : AfClientInfo} (hmac : client.mac = mac) :
    currentAction s.env client s.mark = rule := by
  rw [Oaf.currentAction, h.id, h.flag, h.rule client hmac, ite_self]

/-- A packet of a settled connection is dropped iff the rules say so. -/
theorem Settled.packet {mac : Mac} {appId : UInt32} {rule : Bool} {s : GatewayConn}
    (h : Settled mac appId rule s) {pkt : GatewayPacket} {flow : FlowInfo} {client : AfClientInfo}
    {e : GatewayExit} {mark : UInt32} (hpro : gatewayPrologue s.env pkt = some (flow, client))
    (hmac : client.mac = mac) (hhandle : fwxHookGatewayHandle s.env pkt s.mark = some (e, mark)) :
    (e.ret = .drop ↔ rule = true) ∧ Settled mac appId rule { s with mark := mark } := by
  obtain ⟨hid, hbit, hret⟩ := handle_of_valid (by rw [h.id, h.valid]) hpro hhandle
  rw [h.currentAction hmac] at hbit hret
  exact ⟨hret, hid.trans h.id, h.valid, hbit, h.rule⟩

/-- **A settled decision lasts** as long as nothing but quiet events happens. -/
theorem Settled.lasts {mac : Mac} {appId : UInt32} {rule : Bool} {s t : GatewayConn}
    (hs : Settled mac appId rule s) (hrun : Reaches gatewayStep (GatewayQuiet mac) s t) :
    Settled mac appId rule t := by
  refine Reaches.invariant ?_ hrun hs
  intro s e t hsettled hquiet hstep
  cases e with
  | change c =>
    rw [gatewayStep_change hstep]
    refine ⟨hsettled.id, hsettled.valid, hsettled.flag, fun client hmac => ?_⟩
    exact (appRule_after_quiet hquiet s.env appId client).trans (hsettled.rule client hmac)
  | packet pkt =>
    obtain ⟨e, mark, hhandle, rfl⟩ := gatewayStep_packet hstep
    cases hpro : gatewayPrologue s.env pkt with
    | none =>
      rw [fwxHookGatewayHandle, hpro] at hhandle
      obtain ⟨-, rfl⟩ := Prod.mk.inj (Option.some.inj hhandle)
      exact hsettled
    | some found =>
      obtain ⟨flow, client⟩ := found
      exact (hsettled.packet hpro (hquiet flow client hpro) hhandle).2

/-! ## 5. A connection -/

def sampleMac : Mac := #v[2, 0, 0, 0, 0, 7]

/-- An empty UDP datagram from `192.168.1.2` to port 9999 of `8.8.8.8`. -/
def sampleSkb : Skb where
  protocol := ETH_P_IP
  network i :=
    [0x45, 0, 0, 28, 0, 0, 0, 0, 64, 17, 0, 0, 192, 168, 1, 2, 8, 8, 8, 8,
      0x27, 0x10, 0x27, 0x0F, 0, 8, 0, 0].getD i.toNat 0

def samplePacket : GatewayPacket where
  skb := sampleSkb
  devName := .lit "br-lan"
  acct := some 1

/-- The client behind the packet, and one feature that every UDP packet has. -/
def sampleEnv (appId : UInt32) (filter : FilterConfig) : HookEnv where
  lib := noAddresses
  regexpMem _ _ := ⟨fun _ => 0, fun _ => 0⟩
  afFeatureHead := [{ addr := 0, appId := appId, proto := 17 }]
  filter := filter
  jiffies := 100000
  hz := 100
  clients := [{ mac := sampleMac, ip := 0xC0A80102 }]
  fwxLanIp := 0xC0A80101
  fwxLanMask := 0xFFFFFF00

/-- An app-filter rule for one app and all clients. -/
def sampleRule (appId : Nat) : AppFilterRule where
  ruleId := 1
  appIdList :=
    { hashTable := fun hash => if hash.val = appId % APPID_HASH_SIZE then [appId] else []
      count := 1 }

end Oaf
