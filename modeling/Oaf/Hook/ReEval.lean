/-
# Re-evaluation after a change of the app filter

For 30 seconds after a change of the app filter, both hooks ask the rules again about a connection
with an id in `1001..32000`.  The gateway hook writes the action it finds back to the mark, so one
packet inside the window settles the connection.  The bypass hook flips the flag of the flow only:
when the window has closed, the record still says what it said before the change.

* `reevaluation_settles`: the gateway hook decides by the rules from that packet on; the bypass
  hook does so exactly for the packets inside the window and for the connections whose stored
  action the change left right.
* `bypass_forgets`: a connection that is accepted again after 31 seconds.
-/
import Oaf.Hook.Bypass

namespace Oaf

open CLib Runs

theorem isValidAppid_of_reevaluated {appId : UInt32} (h : reevaluated appId = true) :
    fwxCtIsValidAppid appId = true := by
  cases hvalid : fwxCtIsValidAppid appId with
  | true => rfl
  | false =>
    rw [not_reevaluated_of_not_valid hvalid] at h
    cases h

theorem ne_zero_of_reevaluated {appId : UInt32} (h : reevaluated appId = true) : appId ≠ 0 := by
  rintro rfl
  exact absurd h (by decide)

/-! ## 1. The packet inside the window -/

/-- **In gateway mode** a packet inside the window is dropped iff the rules say so, and settles the
connection. -/
theorem gateway_packet_settles {s : GatewayConn} {pkt : GatewayPacket} {flow : FlowInfo}
    {client : AfClientInfo} {e : GatewayExit} {mark : UInt32}
    (hid : reevaluated (fwxCtGetAppid s.mark) = true) (hopen : s.env.windowOpen = true)
    (hpro : gatewayPrologue s.env pkt = some (flow, client))
    (hhandle : fwxHookGatewayHandle s.env pkt s.mark = some (e, mark)) :
    (e.ret = .drop ↔ s.env.appRule (fwxCtGetAppid s.mark) client = true) ∧
      Settled client.mac (fwxCtGetAppid s.mark) (s.env.appRule (fwxCtGetAppid s.mark) client)
        ⟨s.env, mark⟩ := by
  have hvalid := isValidAppid_of_reevaluated hid
  obtain ⟨hkeep, hbit, hret⟩ := handle_of_valid hvalid hpro hhandle
  have haction : currentAction s.env client s.mark
      = s.env.appRule (fwxCtGetAppid s.mark) client := by
    rw [currentAction, hid, hopen, Bool.and_self, if_pos rfl]
  rw [haction] at hbit hret
  exact ⟨hret, hkeep, hvalid, hbit, fun client' hmac => appRule_eq_of_mac s.env _ hmac⟩

/-- **In bypass mode** a packet inside the window is dropped iff the rules say so, and leaves the
record as it was. -/
theorem bypass_packet_flips {s : BypassConn} {pkt : BypassPacket} {flow : FlowInfo}
    {client : AfClientInfo} {v : Verdict} {conn : AfConn}
    (hid : reevaluated s.conn.appId = true) (hoff : s.env.filter.gMacFilterEnable = false)
    (hopen : s.env.windowOpen = true) (hpro : bypassPrologue s.env pkt = some (flow, client))
    (hhandle : fwxHookBypassHandle s.env pkt s.conn = some (v, conn)) :
    (v = .drop ↔ s.env.appRule s.conn.appId client = true) ∧
      Recorded client.mac s.conn.appId s.conn.drop (s.env.appRule s.conn.appId client)
        ⟨s.env, conn⟩ := by
  obtain ⟨rfl, hret⟩ := bypass_of_identified (ne_zero_of_reevaluated hid) hoff hpro hhandle
  rw [bypassIdentified_eq hid, hopen, if_pos rfl] at hret
  exact ⟨hret, rfl, rfl, hoff, fun client' hmac => appRule_eq_of_mac s.env _ hmac⟩

/-! ## 2. Runs -/

/-- **One packet inside the window settles a connection in gateway mode**: from it on, until the
next change, every packet is dropped iff the rules say so.  **In bypass mode** that packet is; a
later one is iff the window is still open, or the change left the stored action right. -/
theorem reevaluation_settles (env : HookEnv) (hopen : env.windowOpen = true) :
    (∀ (mark : UInt32) (pkt : GatewayPacket) flow client e mark1,
      reevaluated (fwxCtGetAppid mark) = true → gatewayPrologue env pkt = some (flow, client) →
      fwxHookGatewayHandle env pkt mark = some (e, mark1) →
      (e.ret = .drop ↔ env.appRule (fwxCtGetAppid mark) client = true) ∧
      ∀ t, Reaches gatewayStep (GatewayQuiet client.mac) ⟨env, mark1⟩ t →
        ∀ (pkt' : GatewayPacket) flow' client' e' mark',
          gatewayPrologue t.env pkt' = some (flow', client') → client'.mac = client.mac →
          fwxHookGatewayHandle t.env pkt' t.mark = some (e', mark') →
          (e'.ret = .drop ↔ t.env.appRule (fwxCtGetAppid mark) client' = true)) ∧
    (∀ (conn : AfConn) (pkt : BypassPacket) flow client v conn1,
      reevaluated conn.appId = true → env.filter.gMacFilterEnable = false →
      bypassPrologue env pkt = some (flow, client) →
      fwxHookBypassHandle env pkt conn = some (v, conn1) →
      (v = .drop ↔ env.appRule conn.appId client = true) ∧
      ∀ t, Reaches bypassStep (BypassQuiet client.mac) ⟨env, conn1⟩ t →
        ∀ (pkt' : BypassPacket) flow' client' v' conn',
          bypassPrologue t.env pkt' = some (flow', client') → client'.mac = client.mac →
          fwxHookBypassHandle t.env pkt' t.conn = some (v', conn') →
          ((v' = .drop ↔ t.env.appRule conn.appId client' = true) ↔
            (t.env.windowOpen = true ∨
              env.actionChanged conn.drop conn.appId client = false))) := by
  constructor
  · intro mark pkt flow client e mark1 hid hpro hhandle
    obtain ⟨hret, hsettled⟩ := gateway_packet_settles (s := ⟨env, mark⟩) hid hopen hpro hhandle
    refine ⟨hret, fun t hrun pkt' flow' client' e' mark' hpro' hmac hhandle' => ?_⟩
    have ht := hsettled.lasts hrun
    rw [(ht.packet hpro' hmac hhandle').1, ht.rule client' hmac]
  · intro conn pkt flow client v conn1 hid hoff hpro hhandle
    obtain ⟨hret, hrec⟩ := bypass_packet_flips (s := ⟨env, conn⟩) hid hoff hopen hpro hhandle
    refine ⟨hret, fun t hrun pkt' flow' client' v' conn' hpro' hmac hhandle' => ?_⟩
    have ht := hrec.lasts (ne_zero_of_reevaluated hid) hrun
    have hid' : reevaluated t.conn.appId = true := by rw [ht.id, hid]
    obtain ⟨-, hret'⟩ := bypass_of_identified (ne_zero_of_reevaluated hid') ht.off hpro' hhandle'
    have hchanged : env.actionChanged conn.drop conn.appId client =
        (env.appRule conn.appId client != conn.drop) := by
      rw [HookEnv.actionChanged, checkAppActionChanged, show Oaf.windowOpen env.filter
        env.jiffies env.hz = true from hopen, Bool.true_and]
      rfl
    rw [hret', bypassIdentified_eq hid', ht.id, ht.flag, ht.rule client' hmac, hchanged]
    cases t.env.windowOpen <;> cases env.appRule conn.appId client <;> cases conn.drop <;>
      simp

def sampleBypassPacket : BypassPacket where
  skb := sampleSkb
  devName := .lit "br-lan"
  smac := sampleMac

/-- The app filter is on; a rule for app 1001 is added. -/
def ruleAdded : HookEnv :=
  (sampleEnv 1001 { gAppfilterEnable := true }).after (.appFilter [sampleRule 1001] fwxMacConfigInit)

/-- A packet of an accepted connection that comes inside the window, and one that comes after it
in gateway mode and inside it in bypass mode. -/
theorem reevaluation_settles_sample :
    (∃ e mark, fwxHookGatewayHandle (ruleAdded.after (.time 3100)) samplePacket 0x800003E9
      = some (e, mark) ∧ e.ret = .drop) ∧
    ∃ v conn, fwxHookBypassHandle (ruleAdded.after (.time 500)) sampleBypassPacket
      { totalPkts := 2, appId := 1001 } = some (v, conn) ∧ v = .drop := by
  constructor
  · have hclient : ∀ env, env = ruleAdded ∨ env = ruleAdded.after (.time 3100) →
        ∃ flow, gatewayPrologue env samplePacket
          = some (flow, { mac := sampleMac, ip := 0xC0A80102 }) := by
      rintro env (rfl | rfl) <;> exact ⟨_, rfl⟩
    obtain ⟨flow, hpro⟩ := hclient _ (.inl rfl)
    obtain ⟨flow', hpro'⟩ := hclient _ (.inr rfl)
    have hsettle := ((reevaluation_settles ruleAdded (by decide)).1 0x3E9 samplePacket flow _
      .appDrop 0x800003E9 (by decide) hpro (by decide +kernel)).2
    have hrun : Reaches gatewayStep (GatewayQuiet sampleMac) ⟨ruleAdded, 0x800003E9⟩
        ⟨ruleAdded.after (.time 3100), 0x800003E9⟩ :=
      Reaches.refl.tail (e := .change (.time 3100)) trivial rfl
    have hhandle : fwxHookGatewayHandle (ruleAdded.after (.time 3100)) samplePacket 0x800003E9
        = some (.appDrop, 0x800003E9) := by decide +kernel
    exact ⟨_, _, hhandle, (hsettle _ hrun samplePacket flow' _ _ _ hpro' rfl hhandle).mpr
      (by decide +kernel)⟩
  · have hclient : ∀ env, env = ruleAdded ∨ env = ruleAdded.after (.time 500) →
        ∃ flow, bypassPrologue env sampleBypassPacket
          = some (flow, { mac := sampleMac, ip := 0xC0A80102 }) := by
      rintro env (rfl | rfl) <;> exact ⟨_, rfl⟩
    obtain ⟨flow, hpro⟩ := hclient _ (.inl rfl)
    obtain ⟨flow', hpro'⟩ := hclient _ (.inr rfl)
    have hsettle := ((reevaluation_settles ruleAdded (by decide)).2
      { totalPkts := 1, appId := 1001 } sampleBypassPacket flow _ .drop
      { totalPkts := 2, appId := 1001 } (by decide) rfl hpro (by decide +kernel)).2
    have hrun : Reaches bypassStep (BypassQuiet sampleMac)
        ⟨ruleAdded, { totalPkts := 2, appId := 1001 }⟩
        ⟨ruleAdded.after (.time 500), { totalPkts := 2, appId := 1001 }⟩ :=
      Reaches.refl.tail (e := .change (.time 500)) trivial rfl
    have hhandle : fwxHookBypassHandle (ruleAdded.after (.time 500)) sampleBypassPacket
        { totalPkts := 2, appId := 1001 } = some (.drop, { totalPkts := 3, appId := 1001 }) := by
      decide +kernel
    exact ⟨_, _, hhandle, ((hsettle _ hrun sampleBypassPacket flow' _ _ _ hpro' rfl hhandle).mpr
      (.inl (by decide))).mpr (by decide +kernel)⟩

/-- **The bypass hook forgets**: identified and accepted, the connection is dropped inside the
window after a rule for it was added, and accepted again 31 seconds after that. -/
theorem bypass_forgets :
    fwxHookBypassHandle (sampleEnv 1001 { gAppfilterEnable := true }) sampleBypassPacket {}
      = some (.accept, { totalPkts := 1, appId := 1001 }) ∧
    ruleAdded.windowOpen = true ∧
    fwxHookBypassHandle ruleAdded sampleBypassPacket { totalPkts := 1, appId := 1001 }
      = some (.drop, { totalPkts := 2, appId := 1001 }) ∧
    (ruleAdded.after (.time 3100)).appRule 1001 { mac := sampleMac } = true ∧
    fwxHookBypassHandle (ruleAdded.after (.time 3100)) sampleBypassPacket
      { totalPkts := 2, appId := 1001 } = some (.accept, { totalPkts := 3, appId := 1001 }) := by
  refine ⟨?_, ?_, ?_, ?_, ?_⟩ <;> decide +kernel

end Oaf
