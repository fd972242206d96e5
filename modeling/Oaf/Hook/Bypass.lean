/-
# `fwx_hook_bypass_handle`

The bypass hook keeps what it knows of a connection in a record of its own (`af_conn_t`), not in
the conntrack mark.

* `BypassConn.step`: one event of a connection that has its record, from the packet that made it
  until `af_conn_clean_timeout` frees it.
* `bypass_of_identified`: what the hook does with a packet of an identified connection.

As in the other hook, what is written for reports is left out, with the client table's times.
-/
import Oaf.Hook.Connection

namespace Oaf

open CLib Runs

/-! ## 1. Addresses -/

/-- `af_match_local_packet`. -/
def afMatchLocalPacket (f : FlowInfo) : Bool := f.src == 0x7F000001 || f.dst == 0x7F000001

/-- `af_check_bcast_ip`. -/
def afCheckBcastIp (f : FlowInfo) : Bool :=
  f.src == 0 || f.dst == 0 || isIpv4Broadcast f.src || isIpv4Broadcast f.dst ||
    isIpv4Multicast f.src || isIpv4Multicast f.dst

/-! ## 2. The hook -/

/-- `af_conn_t`, as far as the hook decides by it. -/
structure AfConn where
  totalPkts : UInt32 := 0
  appId : UInt32 := 0
  clientHello : Bool := false
  drop : Bool := false
deriving DecidableEq

/-- What the hook gets with a packet: the device, the source address of its frame, whether a
client for that address could be made, and for a packet in fragments what `read_skb` makes
of it. -/
structure BypassPacket where
  skb : Skb
  devName : CStr
  smac : Mac
  newClient : Bool := true
  nonlinear : Option (Option Mem) := none

/-- `find_and_add_af_client`. -/
def findAndAddAfClient (env : HookEnv) (mac : Mac) (newClient : Bool) : Option AfClientInfo :=
  match env.clients.find? fun node => node.mac == mac with
  | some node => some node
  | none => if newClient then some { mac := mac } else none

/-- The part up to the client: `none` is an early `NF_ACCEPT`. -/
def bypassPrologue (env : HookEnv) (pkt : BypassPacket) : Option (FlowInfo × AfClientInfo) :=
  if env.fwxLanIp = 0 ∨ env.fwxLanMask = 0 then none
  else if ascii "docker" <:+: pkt.devName.bytes then none
  else
    match parseFlowProto pkt.skb {} with
    | none => none
    | some flow =>
      if afMatchPrivateLanDst flow ∧ flow.dport ≠ DNS_PORT then none
      else if flow.src = 0 ∧ flow.dst = 0 then none
      else if env.fwxLanIp = flow.src ∨ env.fwxLanIp = flow.dst then none
      else if afCheckBcastIp flow ∨ afMatchLocalPacket flow then none
      else if flow.src &&& env.fwxLanMask ≠ env.fwxLanIp &&& env.fwxLanMask then none
      else (findAndAddAfClient env pkt.smac pkt.newClient).map fun client =>
        (flow, { client with ip := flow.src })

/-- The drop flag of the flow for an identified connection: the stored one, flipped when
`check_app_action_changed` says so.  The record is not written. -/
def bypassIdentified (env : HookEnv) (client : AfClientInfo) (conn : AfConn) : Bool :=
  if 1000 < conn.appId ∧ env.actionChanged conn.drop conn.appId client then !conn.drop
  else conn.drop

/-- The payload to inspect, or none for an early `NF_ACCEPT`. -/
def bypassInspectable (env : HookEnv) (pkt : BypassPacket) (flow : FlowInfo) (conn : AfConn) :
    Option FlowInfo :=
  if env.gByPassAccl ∧ 256 < conn.totalPkts then none
  else
    match pkt.nonlinear with
    | none => some flow
    | some msgBuf =>
      if flow.l4Len < MAX_AF_SUPPORT_DATA_LEN then
        msgBuf.map fun l4Data => { flow with l4Data := l4Data }
      else some flow

/-- The inspection: the drop flag of the flow and the record. -/
def bypassInspect (env : HookEnv) (client : AfClientInfo) (flow : FlowInfo) (conn : AfConn) :
    Option (Bool × AfConn) := do
  let flow := dpiMain { flow with clientHello := conn.clientHello }
  let conn := { conn with clientHello := flow.clientHello }
  let (found, flow) ← fwxMatchFeature env.lib env.regexpMem env.gUrlAc env.afFeatureHead flow
  if found then
    let conn := { conn with appId := flow.appId, drop := flow.drop }
    if env.appRule flow.appId client then return (true, { conn with drop := true })
    else return (flow.drop, conn)
  else return (flow.drop, conn)

/-- The MAC rules, and the verdict. -/
def bypassVerdict (env : HookEnv) (client : AfClientInfo) (drop : Bool) (conn : AfConn) :
    Verdict × AfConn :=
  if drop then (.drop, conn)
  else if env.macRule client then (.drop, { conn with drop := true })
  else (.accept, conn)

/-- `fwx_hook_bypass_handle` on a connection that has its record. -/
def fwxHookBypassHandle (env : HookEnv) (pkt : BypassPacket) (conn : AfConn) :
    Option (Verdict × AfConn) :=
  match bypassPrologue env pkt with
  | none => some (.accept, conn)
  | some (flow, client) =>
    let conn := { conn with totalPkts := conn.totalPkts + 1 }
    if conn.appId = 0 ∧ conn.drop then some (.drop, conn)
    else if conn.appId ≠ 0 then
      some (bypassVerdict env client (bypassIdentified env client conn) conn)
    else
      match bypassInspectable env pkt flow conn with
      | none => some (.accept, conn)
      | some flow => (bypassInspect env client flow conn).map fun result =>
          bypassVerdict env client result.1 result.2

/-! ## 3. Bypass mode -/

/-- A connection's record and its surroundings. -/
structure BypassConn where
  env : HookEnv
  conn : AfConn

/-- One event.  There is no next state when the hook's behaviour is undefined. -/
def BypassConn.step (s : BypassConn) : ConnEvent BypassPacket → Option BypassConn
  | .packet pkt =>
    (fwxHookBypassHandle s.env pkt s.conn).map fun result => { s with conn := result.2 }
  | .change c => some { s with env := s.env.after c }

def bypassStep (s : BypassConn) (e : ConnEvent BypassPacket) (t : BypassConn) : Prop :=
  s.step e = some t

theorem bypassStep_packet {s t : BypassConn} {pkt : BypassPacket}
    (h : bypassStep s (.packet pkt) t) :
    ∃ v conn, fwxHookBypassHandle s.env pkt s.conn = some (v, conn) ∧
      t = { s with conn := conn } := by
  obtain ⟨⟨v, conn⟩, hhandle, rfl⟩ := Option.map_eq_some_iff.mp h
  exact ⟨v, conn, hhandle, rfl⟩

theorem bypassStep_change {s t : BypassConn} {c : EnvChange}
    (h : bypassStep s (.change c) t) : t = { s with env := s.env.after c } :=
  (Option.some.inj h).symm

/-- A quiet event of a connection of the client at `mac`: no change of the app rules, and no
packet of another client. -/
def BypassQuiet (mac : Mac) (s : BypassConn) : ConnEvent BypassPacket → Prop
  | .packet pkt =>
    ∀ flow client, bypassPrologue s.env pkt = some (flow, client) → client.mac = mac
  | .change c => c.Quiet

/-! ## 4. Identified connections -/

theorem macRule_of_disabled {env : HookEnv} (h : env.filter.gMacFilterEnable = false)
    (client : AfClientInfo) : env.macRule client = false := by
  rw [HookEnv.macRule, matchMacFilterRule, h]
  rfl

/-- A packet of an identified connection is only counted, and dropped by the flag alone. -/
theorem bypass_of_identified {env : HookEnv} {pkt : BypassPacket} {conn conn' : AfConn}
    {flow : FlowInfo} {client : AfClientInfo} {v : Verdict} (hid : conn.appId ≠ 0)
    (hoff : env.filter.gMacFilterEnable = false)
    (hpro : bypassPrologue env pkt = some (flow, client))
    (h : fwxHookBypassHandle env pkt conn = some (v, conn')) :
    conn' = { conn with totalPkts := conn.totalPkts + 1 } ∧
      (v = .drop ↔ bypassIdentified env client conn = true) := by
  rw [fwxHookBypassHandle, hpro] at h
  simp only [if_neg (fun h : conn.appId = 0 ∧ conn.drop = true => hid h.1), if_pos hid] at h
  rw [bypassVerdict, macRule_of_disabled hoff] at h
  change some (if bypassIdentified env client conn = true then _ else _) = _ at h
  cases hdrop : bypassIdentified env client conn with
  | true =>
    rw [hdrop] at h
    obtain ⟨rfl, rfl⟩ := Prod.mk.inj (Option.some.inj h)
    exact ⟨rfl, by simp⟩
  | false =>
    rw [hdrop] at h
    obtain ⟨rfl, rfl⟩ := Prod.mk.inj (Option.some.inj h)
    exact ⟨rfl, by simp⟩

/-- For a re-evaluated id the flag of the flow is what the rules say inside the window, and the
stored one outside. -/
theorem bypassIdentified_eq {env : HookEnv} {client : AfClientInfo} {conn : AfConn}
    (hid : reevaluated conn.appId = true) :
    bypassIdentified env client conn =
      if env.windowOpen then env.appRule conn.appId client else conn.drop := by
  rw [reevaluated, Bool.and_eq_true, decide_eq_true_iff, decide_eq_true_iff] at hid
  rw [bypassIdentified]
  simp only [hid.1, true_and]
  exact flip_of_changed env.filter env.jiffies env.hz _ _ client.mac

/-- The record of a connection of the client at `mac`, as it was left: its id, its drop flag and
what the app rules say of it, with the MAC filter off. -/
structure Recorded (mac : Mac) (appId : UInt32) (drop rule : Bool) (s : BypassConn) : Prop where
  id : s.conn.appId = appId
  flag : s.conn.drop = drop
  off : s.env.filter.gMacFilterEnable = false
  rule : ∀ client : AfClientInfo, client.mac = mac → s.env.appRule appId client = rule

/-- **The record of an identified connection stays as it is** through quiet events. -/
theorem Recorded.lasts {mac : Mac} {appId : UInt32} {drop rule : Bool} {s t : BypassConn}
    (hid : appId ≠ 0) (hs : Recorded mac appId drop rule s)
    (hrun : Reaches bypassStep (BypassQuiet mac) s t) : Recorded mac appId drop rule t := by
  refine Reaches.invariant ?_ hrun hs
  intro s e t hrec hquiet hstep
  cases e with
  | change c =>
    rw [bypassStep_change hstep]
    refine ⟨hrec.id, hrec.flag, ?_, fun client hmac => ?_⟩
    · exact (macFilterEnable_after_quiet hquiet s.env).trans hrec.off
    · exact (appRule_after_quiet hquiet s.env appId client).trans (hrec.rule client hmac)
  | packet pkt =>
    obtain ⟨v, conn, hhandle, rfl⟩ := bypassStep_packet hstep
    cases hpro : bypassPrologue s.env pkt with
    | none =>
      rw [fwxHookBypassHandle, hpro] at hhandle
      obtain ⟨-, rfl⟩ := Prod.mk.inj (Option.some.inj hhandle)
      exact hrec
    | some found =>
      obtain ⟨flow, client⟩ := found
      obtain ⟨rfl, -⟩ := bypass_of_identified (by rw [hrec.id]; exact hid) hrec.off hpro hhandle
      exact ⟨hrec.id, hrec.flag, hrec.off, hrec.rule⟩

end Oaf
