/-
# What a blocked name comes to

The hooks see names: the host of an HTTP request, the server name of a TLS hello, the questions of a DNS query.  A
feature with a literal host speaks for a flow when its host occurs in such a name.

* `fwxMatchFeature_speaks`: with an up-to-date automaton, a flow that some feature speaks for is identified with the
  app of one of them.
* `blocked_name_stays_dropped`: when the app rules block all these apps for the client, the packet with the name is
  dropped in both modes, and so is every later packet of the connection while the app rules stay.
* `unasked_never_dropped`: a client that no rule of either filter is for is never dropped.
-/
import Oaf.Hook.MacBlock
import Oaf.Hook.ReEval
import Oaf.Match.Names

namespace Oaf

open CLib Runs

/-! ## 1. Features that speak for a flow -/

/-- The automaton has the literal hosts of the list, and is in use. -/
def HookEnv.UpToDate (env : HookEnv) : Prop :=
  env.gUrlAc.ready = true ∧ ∃ word, Linked env.gUrlAc word (env.afFeatureHead.filter (·.literalHost))

/-- The host of the feature occurs in a name of the flow: in the server name or host, with the basic condition,
unless that is an address; or in a DNS name. -/
def Speaks (lib : KernelLib) (flow : FlowInfo) (f : AfFeatureNode) : Prop :=
  (∃ name, flow.hostName = some name ∧ afIsIpLiteralHost lib (cutName name) = false ∧ Named name f ∧
    afMatchBasicCond flow f = true) ∨
  ∃ name ∈ flow.dnsNames, Named name f

variable {env : HookEnv} {lib : KernelLib} {g : AfUrlAc} {word : Nat → List UInt8} {head : List AfFeatureNode}
  {flow : FlowInfo}

/-- A feature that is chosen for a text is one that occurs in it. -/
theorem Chosen.occurs {check : Bool} {text : List UInt8} {f : AfFeatureNode} (h : Chosen head flow check text f) :
    f ∈ head ∧ eligible flow check f = true ∧ f.hostUrl.bytes <:+: text := by
  obtain ⟨k, hend, -⟩ := h.place
  have hfirst := List.find?_some h.first
  rw [Bool.and_eq_true] at hfirst
  exact ⟨List.mem_of_find?_eq_some h.first, hfirst.1, infix_iff_endsAt.mpr ⟨k, hend⟩⟩

/-- What the loop over the DNS names finds speaks for the flow. -/
theorem acDnsLoop_speaks (h : Linked g word (head.filter (·.literalHost))) (hready : g.ready = true)
    {bufs : List (List UInt8)} {stat stat' : AfAcMatchStat} {f : AfFeatureNode}
    (hloop : acDnsLoop g flow stat bufs = some (some f, stat')) :
    f ∈ head ∧ f.literalHost = true ∧ ∃ hostBuf ∈ bufs, f.hostUrl.bytes <:+: hostBuf := by
  induction bufs generalizing stat with
  | nil => cases hloop
  | cons hostBuf rest ih =>
    obtain ⟨res, stat1, hres, -, hchosen⟩ := linked_match h hready flow stat hostBuf false
    rw [acDnsLoop, hres] at hloop
    cases res with
    | some node =>
      obtain ⟨hnode, -⟩ := Prod.mk.inj (Option.some.inj hloop)
      obtain rfl := Option.some.inj hnode
      obtain ⟨hmem, helig, hocc⟩ := (hchosen node rfl).occurs
      rw [eligible, Bool.and_eq_true] at helig
      exact ⟨hmem, helig.1, hostBuf, List.mem_cons_self, hocc⟩
    | none =>
      obtain ⟨hmem, hlit, buf, hbuf, hocc⟩ := ih hloop
      exact ⟨hmem, hlit, buf, List.mem_cons_of_mem _ hbuf, hocc⟩

/-- What the automaton finds speaks for the flow. -/
theorem afMatchUrlFeatureAc_speaks (h : Linked g word (head.filter (·.literalHost))) (hready : g.ready = true)
    {stat : AfAcMatchStat} {res : UrlFeatureMatch} {f : AfFeatureNode}
    (hmatch : afMatchUrlFeatureAc lib g flow stat = some res) (hres : res.node = some f) :
    f ∈ head ∧ Speaks lib flow f := by
  have hroot : (!g.ready || g.root.isNone) = false := by simp [hready, h.rootIs]
  -- the names of the DNS questions, whatever is made of what is found
  have hdns : ∀ stat (result : Option AfFeatureNode × AfAcMatchStat → Option UrlFeatureMatch),
      (acDnsLoop g flow stat (dnsDomains flow) >>= result) = some res →
      (∀ stat, result (none, stat) = some ⟨none, stat, flow.matchByDns⟩) →
      (∀ node stat, result (some node, stat) = some ⟨some node, stat, true⟩) → f ∈ head ∧ Speaks lib flow f := by
    intro stat result hloop hnone hsome
    obtain ⟨p, hp, hresult⟩ := Option.bind_eq_some_iff.mp hloop
    obtain ⟨node, stat1⟩ := p
    cases node with
    | none =>
      obtain rfl := Option.some.inj ((hnone stat1).symm.trans hresult)
      cases hres
    | some node =>
      obtain rfl := Option.some.inj ((hsome node stat1).symm.trans hresult)
      obtain rfl := Option.some.inj hres
      obtain ⟨hmem, hlit, hostBuf, hbuf, hocc⟩ := acDnsLoop_speaks h hready hp
      obtain ⟨name, hname, hcut⟩ :=
        (mem_dnsDomains (AfFeatureNode.literalHost_ne_nil hlit)).mp ⟨hostBuf, hbuf, hocc⟩
      exact ⟨hmem, .inr ⟨name, hname, hlit, hcut⟩⟩
  rw [afMatchUrlFeatureAc, hroot, if_neg Bool.false_ne_true] at hmatch
  rcases afGetFlowHost_spec lib flow with ⟨-, hget⟩ | ⟨name, hname, ⟨-, hget⟩ | ⟨hlit, hostBuf, hget, hocc⟩⟩
  · rw [hget] at hmatch
    exact hdns stat _ hmatch (fun _ => rfl) fun _ _ => rfl
  · rw [hget] at hmatch
    exact hdns stat _ hmatch (fun _ => rfl) fun _ _ => rfl
  · obtain ⟨node, stat1, hnode, -, hchosen⟩ := linked_match h hready flow stat hostBuf true
    rw [hget] at hmatch
    simp only [hnode] at hmatch
    cases node with
    | none => exact hdns stat1 _ hmatch (fun _ => rfl) fun _ _ => rfl
    | some node =>
      obtain rfl := Option.some.inj hmatch
      obtain rfl := Option.some.inj hres
      obtain ⟨hmem, helig, hin⟩ := (hchosen node rfl).occurs
      rw [eligible, passesCond, Bool.not_true, Bool.false_or, Bool.and_eq_true] at helig
      exact ⟨hmem, .inl ⟨name, hname, hlit, ⟨helig.1, (hocc _).mp hin⟩, helig.2⟩⟩

/-- **A flow that features speak for is identified** with the app of one of them, unless it is QUIC. -/
theorem fwxMatchFeature_speaks (hac : env.UpToDate) (hquic : (isQuicFlow flow).val flow.l4Data = false)
    (hspeaks : ∃ f ∈ env.afFeatureHead, Speaks env.lib flow f) :
    ∃ flow' f, fwxMatchFeature env.lib env.regexpMem env.gUrlAc env.afFeatureHead flow = some (true, flow') ∧
      f ∈ env.afFeatureHead ∧ Speaks env.lib flow f ∧ flow'.appId = f.appId := by
  obtain ⟨hready, word, hlinked⟩ := hac
  -- `match_by_dns` is reset first, which no name depends on
  have hquic' : (isQuicFlow { flow with matchByDns := false }).val flow.l4Data = false := hquic
  obtain ⟨res, hres, hiff⟩ := linked_url_feature hlinked hready env.lib { flow with matchByDns := false } {}
  have hfound : res.node.isSome = true := by
    refine hiff.mpr ?_
    obtain ⟨f, hf, ⟨name, hname, hlit, hnamed, hcond⟩ | ⟨name, hname, hnamed⟩⟩ := hspeaks
    · exact .inl ⟨name, hname, hlit, f, hf, hnamed, hcond⟩
    · exact .inr ⟨name, hname, f, hf, hnamed⟩
  obtain ⟨f, hf⟩ := Option.isSome_iff_exists.mp hfound
  obtain ⟨hmem, hspeaks⟩ := afMatchUrlFeatureAc_speaks hlinked hready hres hf
  refine ⟨({ flow with matchByDns := false } : FlowInfo).identified f res.matchByDns, f, ?_, hmem, hspeaks, rfl⟩
  rw [fwxMatchFeature]
  simp only [hquic', Bool.false_eq_true, if_false, hres, hf, Option.bind_eq_bind, Option.bind_some]
  rfl

/-! ## 2. Both hooks on a blocked name -/

/-- The flow that the gateway hook gives to the parsers, with the client and the mark, if it comes to that. -/
def gatewayParsed (env : HookEnv) (pkt : GatewayPacket) (mark : UInt32) :
    Option (FlowInfo × AfClientInfo × UInt32) :=
  match gatewayPrologue env pkt with
  | none => none
  | some (flow, client) =>
    match gatewayMarked env client mark with
    | (some _, _) => none
    | (none, mark) =>
      match gatewayInspectable pkt { flow with clientHello := fwxCtTestBit mark FWX_CT_CLIENT_HELLO_BIT } with
      | .error _ => none
      | .ok flow => some (flow, client, mark)

theorem handle_of_gatewayParsed {pkt : GatewayPacket} {mark m : UInt32} {client : AfClientInfo}
    (h : gatewayParsed env pkt mark = some (flow, client, m)) :
    fwxHookGatewayHandle env pkt mark = gatewayInspect env flow client m := by
  rw [gatewayParsed] at h
  rw [fwxHookGatewayHandle]
  cases hpro : gatewayPrologue env pkt with
  | none =>
    rw [hpro] at h
    cases h
  | some found =>
    obtain ⟨flow1, client1⟩ := found
    rw [hpro] at h
    dsimp only at h ⊢
    cases hmarked : gatewayMarked env client1 mark with
    | mk ret mark1 =>
      rw [hmarked] at h
      cases ret with
      | some e => cases h
      | none =>
        dsimp only at h ⊢
        cases hinspect : gatewayInspectable pkt
            { flow1 with clientHello := fwxCtTestBit mark1 FWX_CT_CLIENT_HELLO_BIT } with
        | error e =>
          rw [hinspect] at h
          cases h
        | ok flow2 =>
          rw [hinspect] at h
          cases h
          rfl

/-- The flow that the bypass hook gives to the parsers, with the client and the record. -/
def bypassParsed (env : HookEnv) (pkt : BypassPacket) (conn : AfConn) :
    Option (FlowInfo × AfClientInfo × AfConn) :=
  match bypassPrologue env pkt with
  | none => none
  | some (flow, client) =>
    let conn := { conn with totalPkts := conn.totalPkts + 1 }
    if conn.appId ≠ 0 ∨ conn.drop then none
    else (bypassInspectable env pkt flow conn).map fun flow => (flow, client, conn)

theorem handle_of_bypassParsed {pkt : BypassPacket} {conn c : AfConn} {client : AfClientInfo}
    (h : bypassParsed env pkt conn = some (flow, client, c)) :
    fwxHookBypassHandle env pkt conn =
      (bypassInspect env client flow c).map fun result => bypassVerdict env client result.1 result.2 := by
  rw [bypassParsed] at h
  rw [fwxHookBypassHandle]
  cases hpro : bypassPrologue env pkt with
  | none =>
    rw [hpro] at h
    cases h
  | some found =>
    obtain ⟨flow1, client1⟩ := found
    rw [hpro] at h
    dsimp only at h ⊢
    split at h
    · cases h
    · rename_i hnew
      obtain ⟨flow2, hflow, hsame⟩ := Option.map_eq_some_iff.mp h
      cases hsame
      rw [not_or, not_not] at hnew
      rw [if_neg fun hand => hnew.2 hand.2, if_neg (not_not_intro hnew.1), hflow]

/-- The app rules block every app that the flow speaks for, and ids that both hooks keep. -/
structure NamesBlocked (env : HookEnv) (client : AfClientInfo) (flow : FlowInfo) : Prop where
  upToDate : env.UpToDate
  notQuic : (isQuicFlow flow).val flow.l4Data = false
  named : ∃ f ∈ env.afFeatureHead, Speaks env.lib flow f
  blocked : ∀ f ∈ env.afFeatureHead, Speaks env.lib flow f →
    0 < f.appId.toNat ∧ f.appId.toNat ≤ 32000 ∧ env.appRule f.appId client = true

/-- The packet with the name, in gateway mode. -/
theorem gatewayInspect_blocked {client : AfClientInfo} {mark mark' : UInt32} {e : GatewayExit}
    (h : NamesBlocked env client (dpiMain flow)) (hinspect : gatewayInspect env flow client mark = some (e, mark')) :
    e = .appRule ∧ ∃ appId, Settled client.mac appId true ⟨env, mark'⟩ := by
  obtain ⟨flow', f, hmatch, hf, hspeaks, hid⟩ := fwxMatchFeature_speaks h.upToDate h.notQuic h.named
  obtain ⟨hpos, hle, hrule⟩ := h.blocked f hf hspeaks
  rw [gatewayInspect, hmatch] at hinspect
  change (if true = true ∧ env.appRule flow'.appId client = true then _ else _) = some (e, mark') at hinspect
  rw [hid, if_pos ⟨rfl, hrule⟩] at hinspect
  obtain ⟨rfl, rfl⟩ := Prod.mk.inj (Option.some.inj hinspect)
  refine ⟨rfl, f.appId, ?_, isValidAppid_iff.mpr ⟨hpos, hle⟩, testBit_setBit_self (by decide) _ _,
    fun client' hmac => (appRule_eq_of_mac env f.appId hmac).trans hrule⟩
  apply UInt32.toNat_inj.mp
  rw [appId_setBit (show FWX_CT_APPID_MASK &&& FWX_CT_DROP_BIT = 0 by decide), if_pos rfl, appId_markIdentified,
    hid, Nat.mod_eq_of_lt (by omega)]

/-- The record of a connection in bypass mode that is dropped by the app rules. -/
structure BypassBlocked (mac : Mac) (s : BypassConn) : Prop where
  identified : s.conn.appId ≠ 0
  drop : s.conn.drop = true
  rule : ∀ client : AfClientInfo, client.mac = mac → s.env.appRule s.conn.appId client = true

/-- The packet with the name, in bypass mode. -/
theorem bypassInspect_blocked {client : AfClientInfo} {conn conn' : AfConn} {drop : Bool}
    (h : NamesBlocked env client (dpiMain { flow with clientHello := conn.clientHello }))
    (hinspect : bypassInspect env client flow conn = some (drop, conn')) :
    drop = true ∧ BypassBlocked client.mac ⟨env, conn'⟩ := by
  obtain ⟨flow', f, hmatch, hf, hspeaks, hid⟩ := fwxMatchFeature_speaks h.upToDate h.notQuic h.named
  obtain ⟨hpos, -, hrule⟩ := h.blocked f hf hspeaks
  rw [bypassInspect, hmatch] at hinspect
  change (if env.appRule flow'.appId client = true then _ else _) = some (drop, conn') at hinspect
  rw [if_pos (by rw [hid, hrule])] at hinspect
  obtain ⟨rfl, rfl⟩ := Prod.mk.inj (Option.some.inj hinspect)
  refine ⟨rfl, fun h0 => ?_, rfl, fun client' hmac => ?_⟩
  · have hzero : f.appId = 0 := hid ▸ h0
    rw [hzero] at hpos
    exact absurd hpos (by decide)
  · change env.appRule flow'.appId client' = true
    rw [hid, appRule_eq_of_mac env f.appId hmac, hrule]

/-- Such a record drops a packet, and stays. -/
theorem BypassBlocked.packet {mac : Mac} {s : BypassConn} (h : BypassBlocked mac s) {pkt : BypassPacket}
    {flow : FlowInfo} {client : AfClientInfo} {v : Verdict} {conn : AfConn}
    (hpro : bypassPrologue s.env pkt = some (flow, client)) (hmac : client.mac = mac)
    (hhandle : fwxHookBypassHandle s.env pkt s.conn = some (v, conn)) :
    v = .drop ∧ BypassBlocked mac { s with conn := conn } := by
  have hdrop : bypassIdentified s.env client { s.conn with totalPkts := s.conn.totalPkts + 1 } = true := by
    have hsame : s.env.actionChanged s.conn.drop s.conn.appId client = false := by
      have hrule : matchAppFilterRule s.env.filter s.conn.appId.toNat client.mac = true := h.rule client hmac
      rw [HookEnv.actionChanged, checkAppActionChanged, hrule, h.drop, bne_self_eq_false, Bool.and_false]
    rw [bypassIdentified, if_neg fun hand => Bool.false_ne_true (hsame.symm.trans hand.2)]
    exact h.drop
  rw [fwxHookBypassHandle, hpro] at hhandle
  simp only [if_neg (fun hand : s.conn.appId = 0 ∧ s.conn.drop = true => h.identified hand.1),
    if_pos h.identified, hdrop, bypassVerdict, if_true] at hhandle
  obtain ⟨rfl, rfl⟩ := Prod.mk.inj (Option.some.inj hhandle)
  exact ⟨rfl, h.identified, h.drop, h.rule⟩

theorem BypassBlocked.lasts {mac : Mac} {s t : BypassConn} (hs : BypassBlocked mac s)
    (hrun : Reaches bypassStep (BypassQuiet mac) s t) : BypassBlocked mac t := by
  refine Reaches.invariant ?_ hrun hs
  intro s e t hblocked hquiet hstep
  cases e with
  | change c =>
    rw [bypassStep_change hstep]
    exact ⟨hblocked.identified, hblocked.drop, fun client hmac =>
      (appRule_after_quiet hquiet s.env _ client).trans (hblocked.rule client hmac)⟩
  | packet pkt =>
    obtain ⟨v, conn, hhandle, rfl⟩ := bypassStep_packet hstep
    cases hpro : bypassPrologue s.env pkt with
    | none =>
      rw [fwxHookBypassHandle, hpro] at hhandle
      obtain ⟨-, rfl⟩ := Prod.mk.inj (Option.some.inj hhandle)
      exact hblocked
    | some found =>
      obtain ⟨flow, client⟩ := found
      exact (hblocked.packet hpro (hquiet flow client hpro) hhandle).2

/-- **A blocked name stays dropped.**  In both modes, when a packet is inspected whose names only speak for apps that
the rules block for the client, it is dropped, and every later packet of the connection is until the app rules
change. -/
theorem blocked_name_stays_dropped (env : HookEnv) :
    (∀ (mark : UInt32) (pkt : GatewayPacket) flow client m e mark1,
      gatewayParsed env pkt mark = some (flow, client, m) → NamesBlocked env client (dpiMain flow) →
      fwxHookGatewayHandle env pkt mark = some (e, mark1) →
      e.ret = .drop ∧ ∀ t, Reaches gatewayStep (GatewayQuiet client.mac) ⟨env, mark1⟩ t →
        ∀ (pkt' : GatewayPacket) flow' client' e' mark', gatewayPrologue t.env pkt' = some (flow', client') →
          client'.mac = client.mac → fwxHookGatewayHandle t.env pkt' t.mark = some (e', mark') → e'.ret = .drop) ∧
    (∀ (conn : AfConn) (pkt : BypassPacket) flow client c v conn1,
      bypassParsed env pkt conn = some (flow, client, c) →
      NamesBlocked env client (dpiMain { flow with clientHello := c.clientHello }) →
      fwxHookBypassHandle env pkt conn = some (v, conn1) →
      v = .drop ∧ ∀ t, Reaches bypassStep (BypassQuiet client.mac) ⟨env, conn1⟩ t →
        ∀ (pkt' : BypassPacket) flow' client' v' conn', bypassPrologue t.env pkt' = some (flow', client') →
          client'.mac = client.mac → fwxHookBypassHandle t.env pkt' t.conn = some (v', conn') → v' = .drop) := by
  constructor
  · intro mark pkt flow client m e mark1 hinspected hblocked hhandle
    rw [handle_of_gatewayParsed hinspected] at hhandle
    obtain ⟨rfl, appId, hsettled⟩ := gatewayInspect_blocked hblocked hhandle
    refine ⟨rfl, fun t hrun pkt' flow' client' e' mark' hpro' hmac hhandle' => ?_⟩
    exact ((hsettled.lasts hrun).packet hpro' hmac hhandle').1.mpr rfl
  · intro conn pkt flow client c v conn1 hinspected hblocked hhandle
    rw [handle_of_bypassParsed hinspected] at hhandle
    obtain ⟨result, hinspect, hverdict⟩ := Option.map_eq_some_iff.mp hhandle
    obtain ⟨hdrop, hconn⟩ := bypassInspect_blocked hblocked hinspect
    rw [bypassVerdict, if_pos hdrop] at hverdict
    obtain ⟨rfl, rfl⟩ := Prod.mk.inj hverdict
    refine ⟨rfl, fun t hrun pkt' flow' client' v' conn' hpro' hmac hhandle' => ?_⟩
    exact ((hconn.lasts hrun).packet hpro' hmac hhandle').1

/-! ## 3. A client without rules -/

/-- No rule of either filter is for the client at this address. -/
def NoRuleFor (mac : Mac) (env : HookEnv) : Prop :=
  ∀ client : AfClientInfo, client.mac = mac → (∀ appId, env.appRule appId client = false) ∧ env.macRule client = false

/-- A packet of the client while it has no rule, or any change. -/
def GatewayUnasked (mac : Mac) (s : GatewayConn) : ConnEvent GatewayPacket → Prop
  | .packet pkt => NoRuleFor mac s.env ∧
      ∀ flow client, gatewayPrologue s.env pkt = some (flow, client) → client.mac = mac
  | .change _ => True

def BypassUnasked (mac : Mac) (s : BypassConn) : ConnEvent BypassPacket → Prop
  | .packet pkt => NoRuleFor mac s.env ∧
      ∀ flow client, bypassPrologue s.env pkt = some (flow, client) → client.mac = mac
  | .change _ => True

theorem gatewayUnasked_packet {mac : Mac} {s : GatewayConn} {pkt : GatewayPacket} {client : AfClientInfo}
    (hnone : NoRuleFor mac s.env) (hclient : ∃ flow, gatewayPrologue s.env pkt = some (flow, client))
    (hmac : client.mac = mac) : GatewayUnasked mac s (.packet pkt) := by
  refine ⟨hnone, fun flow' client' hpro' => ?_⟩
  obtain ⟨flow, hpro⟩ := hclient
  cases hpro.symm.trans hpro'
  exact hmac

theorem bypassUnasked_packet {mac : Mac} {s : BypassConn} {pkt : BypassPacket} {client : AfClientInfo}
    (hnone : NoRuleFor mac s.env) (hclient : ∃ flow, bypassPrologue s.env pkt = some (flow, client))
    (hmac : client.mac = mac) : BypassUnasked mac s (.packet pkt) := by
  refine ⟨hnone, fun flow' client' hpro' => ?_⟩
  obtain ⟨flow, hpro⟩ := hclient
  cases hpro.symm.trans hpro'
  exact hmac

/-- **One packet, in gateway mode.** -/
theorem gateway_unasked {mac : Mac} {s : GatewayConn} {pkt : GatewayPacket} {e : GatewayExit} {mark : UInt32}
    (hclear : fwxCtTestBit s.mark FWX_CT_DROP_BIT = false) (hunasked : GatewayUnasked mac s (.packet pkt))
    (hhandle : fwxHookGatewayHandle s.env pkt s.mark = some (e, mark)) :
    e.ret = .accept ∧ fwxCtTestBit mark FWX_CT_DROP_BIT = false := by
  rcases fwxHookGatewayHandle_cases hhandle with ⟨-, rfl, rfl⟩ | ⟨flow, client, hpro, hways⟩
  · exact ⟨rfl, hclear⟩
  obtain ⟨happ, hmac⟩ := hunasked.1 client (hunasked.2 flow client hpro)
  have haction : currentAction s.env client s.mark = false := by
    rw [currentAction, happ, hclear, ite_self]
  obtain ⟨ret, m, hmarked, -, hbit, hvalid, hzero, hlarge⟩ := gatewayMarked_cases s.env client s.mark
  rw [haction] at hbit
  rcases hways with hreturned | ⟨m', hnone, ⟨hstopped, rfl⟩ | ⟨flow', -, hinspected⟩⟩
  · obtain ⟨rfl, rfl⟩ := Prod.mk.inj (hmarked.symm.trans hreturned)
    refine ⟨?_, hbit⟩
    rcases valid_or_zero_or_large (fwxCtGetAppid s.mark) with hv | h0 | hbig
    · obtain ⟨e', he', hdrop⟩ := hvalid hv
      obtain rfl := Option.some.inj he'
      cases hret : e.ret with
      | accept => rfl
      | drop => exact absurd (haction.symm.trans (hdrop.mp hret)) Bool.false_ne_true
    · rcases (hzero h0).2 with ⟨hset, -⟩ | ⟨-, hret⟩
      · exact absurd (hclear.symm.trans hset) Bool.false_ne_true
      · cases hret
    · cases (hlarge hbig).2
  · obtain ⟨-, rfl⟩ := Prod.mk.inj (hmarked.symm.trans hnone)
    refine ⟨?_, hbit⟩
    rcases gatewayInspectable_exit hstopped with rfl | rfl | rfl <;> rfl
  · obtain ⟨-, rfl⟩ := Prod.mk.inj (hmarked.symm.trans hnone)
    obtain ⟨found, flow'', -, -, -, hrule | hrule | hpassed⟩ := gatewayInspect_cases hinspected
    · exact absurd ((happ _).symm.trans hrule.2.2.1) Bool.false_ne_true
    · exact absurd (hmac.symm.trans hrule.2.1) Bool.false_ne_true
    · rw [hpassed.1]
      exact ⟨rfl, hpassed.2.2.trans hbit⟩

/-! ### The drop flag of a flow -/

theorem drop_parseTransport {m : Mem} {off len : Int} {flow' : FlowInfo}
    (h : parseTransport m off len flow = some flow') : flow'.drop = flow.drop := by
  rw [parseTransport] at h
  split at h
  · exact Option.some.inj h ▸ rfl
  · split at h
    · exact Option.some.inj h ▸ rfl
    · cases h

theorem drop_parseFlowProto {skb : Skb} {flow' : FlowInfo} (h : parseFlowProto skb flow = some flow') :
    flow'.drop = flow.drop := by
  rw [parseFlowProto] at h
  split at h
  · exact (drop_parseTransport h).trans rfl
  · split at h
    · exact (drop_parseTransport h).trans rfl
    · cases h

theorem drop_dpiHttpProto (flow : FlowInfo) (m : Mem) : ((dpiHttpProto flow).val m).drop = flow.drop := by
  rw [dpiHttpProto]
  split
  · rfl
  · split <;> rfl

theorem drop_dpiHttpsLoop (dataLen : Int) (flow : FlowInfo) (m : Mem) (fuel : Nat) (i : Int) :
    ((dpiHttpsLoop dataLen flow fuel i).val m).2.drop = flow.drop := by
  induction fuel generalizing i with
  | zero => rfl
  | succ fuel ih =>
    rw [dpiHttpsLoop]
    split
    · split
      · rfl
      · rw [Rd.val_bind]
        cases (sniAt dataLen i).val m with
        | none => exact ih (i + 1)
        | some urlLen => rfl
    · rfl

theorem drop_dpiHttpsProto (flow : FlowInfo) (m : Mem) : ((dpiHttpsProto flow).val m).2.drop = flow.drop := by
  rw [dpiHttpsProto]
  split
  · rfl
  · rw [Rd.val_bind]
    split
    · exact drop_dpiHttpsLoop _ _ _ _ _
    · rfl

theorem drop_dpiDnsMessage (flow : FlowInfo) (payload dnsLen : Int) (m : Mem) :
    ((dpiDnsMessage flow payload dnsLen).val m).2.drop = flow.drop := by
  rw [dpiDnsMessage, Rd.val_bind, Rd.val_bind]
  split
  · rfl
  · rw [Rd.val_bind]
    split <;> rfl

theorem drop_dpiDnsProto (flow : FlowInfo) (m : Mem) : ((dpiDnsProto flow).val m).2.drop = flow.drop := by
  rw [dpiDnsProto]
  split
  · rfl
  split
  · rfl
  split
  · split
    · rfl
    · rw [Rd.val_bind]
      split
      · rfl
      · exact drop_dpiDnsMessage _ _ _ _
  · split
    · rfl
    · exact drop_dpiDnsMessage _ _ _ _

/-- The parsers leave the drop flag of a flow. -/
theorem drop_dpiMain (flow : FlowInfo) : (dpiMain flow).drop = flow.drop := by
  rw [dpiMain, drop_dpiDnsProto, drop_dpiHttpsProto, drop_dpiHttpProto]

/-- So does the search for a feature. -/
theorem drop_fwxMatchFeature {mem : RegexpMem} {found : Bool} {flow' : FlowInfo}
    (h : fwxMatchFeature lib mem g head flow = some (found, flow')) : flow'.drop = flow.drop := by
  rw [fwxMatchFeature] at h
  dsimp only at h
  split at h
  · cases h
    rfl
  obtain ⟨url, -, h⟩ := Option.bind_eq_some_iff.mp h
  split at h
  · cases h
    rfl
  obtain ⟨dns, -, h⟩ := Option.bind_eq_some_iff.mp h
  split at h
  · cases h
    rfl
  obtain ⟨other, -, h⟩ := Option.bind_eq_some_iff.mp h
  split at h <;>
  · cases h
    rfl

theorem drop_bypassPrologue {pkt : BypassPacket} {client : AfClientInfo}
    (h : bypassPrologue env pkt = some (flow, client)) : flow.drop = false := by
  have hflow : parseFlowProto pkt.skb {} = some flow := by
    rw [bypassPrologue] at h
    split at h
    · cases h
    split at h
    · cases h
    split at h
    · cases h
    rename_i flow' hparse
    split at h
    · cases h
    split at h
    · cases h
    split at h
    · cases h
    split at h
    · cases h
    split at h
    · cases h
    obtain ⟨_, -, hsame⟩ := Option.map_eq_some_iff.mp h
    cases hsame
    exact hparse
  exact (drop_parseFlowProto hflow).trans rfl

theorem drop_bypassInspectable {pkt : BypassPacket} {conn : AfConn} {flow' : FlowInfo}
    (h : bypassInspectable env pkt flow conn = some flow') : flow'.drop = flow.drop := by
  rw [bypassInspectable] at h
  split at h
  · cases h
  split at h
  · exact Option.some.inj h ▸ rfl
  split at h
  · obtain ⟨_, -, rfl⟩ := Option.map_eq_some_iff.mp h
    rfl
  · exact Option.some.inj h ▸ rfl

theorem bypassVerdict_unasked {client : AfClientInfo} (hmac : env.macRule client = false) (conn : AfConn) :
    bypassVerdict env client false conn = (.accept, conn) := by
  rw [bypassVerdict, if_neg Bool.false_ne_true, hmac, if_neg Bool.false_ne_true]

/-- **One packet, in bypass mode.** -/
theorem bypass_unasked {mac : Mac} {s : BypassConn} {pkt : BypassPacket} {v : Verdict} {conn : AfConn}
    (hclear : s.conn.drop = false) (hunasked : BypassUnasked mac s (.packet pkt))
    (hhandle : fwxHookBypassHandle s.env pkt s.conn = some (v, conn)) :
    v = .accept ∧ conn.drop = false := by
  cases hpro : bypassPrologue s.env pkt with
  | none =>
    rw [fwxHookBypassHandle, hpro] at hhandle
    obtain ⟨rfl, rfl⟩ := Prod.mk.inj (Option.some.inj hhandle)
    exact ⟨rfl, hclear⟩
  | some found =>
    obtain ⟨flow, client⟩ := found
    obtain ⟨happ, hmac⟩ := hunasked.1 client (hunasked.2 flow client hpro)
    rw [fwxHookBypassHandle, hpro] at hhandle
    dsimp only at hhandle
    rw [if_neg fun hand => Bool.false_ne_true (hclear.symm.trans hand.2)] at hhandle
    split at hhandle
    · -- identified: the rules say nothing else than the stored flag
      have hdrop : bypassIdentified s.env client { s.conn with totalPkts := s.conn.totalPkts + 1 } = false := by
        have hsame : s.env.actionChanged s.conn.drop s.conn.appId client = false := by
          have hrule : matchAppFilterRule s.env.filter s.conn.appId.toNat client.mac = false := happ s.conn.appId
          rw [HookEnv.actionChanged, checkAppActionChanged, hrule, hclear, bne_self_eq_false, Bool.and_false]
        rw [bypassIdentified, if_neg fun hand => Bool.false_ne_true (hsame.symm.trans hand.2)]
        exact hclear
      rw [hdrop, bypassVerdict_unasked hmac] at hhandle
      obtain ⟨rfl, rfl⟩ := Prod.mk.inj (Option.some.inj hhandle)
      exact ⟨rfl, hclear⟩
    · split at hhandle
      · obtain ⟨rfl, rfl⟩ := Prod.mk.inj (Option.some.inj hhandle)
        exact ⟨rfl, hclear⟩
      · rename_i flow1 hflow1
        obtain ⟨result, hinspect, hverdict⟩ := Option.map_eq_some_iff.mp hhandle
        rw [bypassInspect] at hinspect
        obtain ⟨p, hmatch, hinspect⟩ := Option.bind_eq_some_iff.mp hinspect
        obtain ⟨found, flow2⟩ := p
        have hflow : flow2.drop = false := by
          rw [drop_fwxMatchFeature hmatch, drop_dpiMain]
          exact (drop_bypassInspectable hflow1).trans (drop_bypassPrologue hpro)
        have hresult : result.1 = false ∧ result.2.drop = false := by
          dsimp only at hinspect
          rw [happ, if_neg Bool.false_ne_true] at hinspect
          split at hinspect
          · obtain rfl := Option.some.inj hinspect
            exact ⟨hflow, hflow⟩
          · obtain rfl := Option.some.inj hinspect
            exact ⟨hflow, hclear⟩
        rw [hresult.1, bypassVerdict_unasked hmac] at hverdict
        obtain ⟨rfl, rfl⟩ := Prod.mk.inj hverdict
        exact ⟨rfl, hresult.2⟩

/-- No packet of the connection has been dropped. -/
def GatewayConn.Undropped (s : GatewayConn) : Prop := fwxCtTestBit s.mark FWX_CT_DROP_BIT = false

def BypassConn.Undropped (s : BypassConn) : Prop := s.conn.drop = false

theorem GatewayConn.Undropped.lasts {mac : Mac} {s t : GatewayConn} (hs : s.Undropped)
    (hrun : Reaches gatewayStep (GatewayUnasked mac) s t) : t.Undropped := by
  refine Reaches.invariant ?_ hrun hs
  intro s e t hs hunasked hstep
  cases e with
  | change c =>
    rw [gatewayStep_change hstep]
    exact hs
  | packet pkt =>
    obtain ⟨e, mark, hhandle, rfl⟩ := gatewayStep_packet hstep
    exact (gateway_unasked hs hunasked hhandle).2

theorem BypassConn.Undropped.lasts {mac : Mac} {s t : BypassConn} (hs : s.Undropped)
    (hrun : Reaches bypassStep (BypassUnasked mac) s t) : t.Undropped := by
  refine Reaches.invariant ?_ hrun hs
  intro s e t hs hunasked hstep
  cases e with
  | change c =>
    rw [bypassStep_change hstep]
    exact hs
  | packet pkt =>
    obtain ⟨v, conn, hhandle, rfl⟩ := bypassStep_packet hstep
    exact (bypass_unasked hs hunasked hhandle).2

/-- **A client without rules is never dropped.**  In both modes, in every run of a connection that starts without a
drop flag and all of whose packets come while no rule of either filter is for the client, every packet is accepted,
whatever the features and the names, and whatever rules there were between the packets. -/
theorem unasked_never_dropped (mac : Mac) :
    (∀ s t : GatewayConn, s.Undropped → Reaches gatewayStep (GatewayUnasked mac) s t →
      ∀ pkt e mark, GatewayUnasked mac t (.packet pkt) →
        fwxHookGatewayHandle t.env pkt t.mark = some (e, mark) → e.ret = .accept) ∧
    (∀ s t : BypassConn, s.Undropped → Reaches bypassStep (BypassUnasked mac) s t →
      ∀ pkt v conn, BypassUnasked mac t (.packet pkt) →
        fwxHookBypassHandle t.env pkt t.conn = some (v, conn) → v = .accept) :=
  ⟨fun _ _ hs hrun _ _ _ hunasked hhandle => (gateway_unasked (hs.lasts hrun) hunasked hhandle).1,
    fun _ _ hs hrun _ _ _ hunasked hhandle => (bypass_unasked (hs.lasts hrun) hunasked hhandle).1⟩

/-! ## 4. A query for a blocked name -/

/-- A UDP datagram from `192.168.1.2` to port 53 of `8.8.8.8`: a query for `ads.example`. -/
def adsQuery : Skb where
  protocol := ETH_P_IP
  network i :=
    ([0x45, 0, 0, 57, 0, 0, 0, 0, 64, 17, 0, 0, 192, 168, 1, 2, 8, 8, 8, 8, 0x27, 0x10, 0, 53, 0, 37, 0, 0,
      0, 1, 1, 0, 0, 1, 0, 0, 0, 0, 0, 0] ++ 3 :: ascii "ads" ++ 7 :: ascii "example" ++ [0, 0, 1, 0, 1]).getD
      i.toNat 0

def adsPacket : GatewayPacket := { samplePacket with skb := adsQuery }

def adsBypassPacket : BypassPacket := { sampleBypassPacket with skb := adsQuery }

/-- The automaton for the literal host `ads`. -/
def adsAc : AfUrlAc := ((afRebuildUrlAcLocked {} ⟨fun _ => true, 0⟩ [adsFeature]).map (·.g)).getD {}

/-- The host is that of app 1001, which a rule drops. -/
def adsEnv : HookEnv :=
  { sampleEnv 1001 { gAppfilterEnable := true, appFilterRuleList := [sampleRule 1001] } with
    gUrlAc := adsAc
    afFeatureHead := [adsFeature] }

theorem adsEnv_upToDate : adsEnv.UpToDate := by
  obtain ⟨r, hr, -, -, hcases⟩ := rebuild_cases {} ⟨fun _ => true, 0⟩ [adsFeature]
  have hg : adsEnv.gUrlAc = r.g := by
    rw [adsEnv, adsAc, hr, Option.map_some, Option.getD_some]
  rw [HookEnv.UpToDate, hg]
  rcases hcases with ⟨-, -, -, hno⟩ | ⟨-, -, hready, -, word, items, hlinked, -, hitems⟩
  · exact absurd (fun _ _ _ => rfl) hno
  · rw [hitems (.inl fun _ _ _ => rfl)] at hlinked
    exact ⟨hready, word, hlinked⟩

theorem adsEnv_blocked {client : AfClientInfo} (hmac : client.mac = sampleMac)
    (hquic : (isQuicFlow flow).val flow.l4Data = false) (hname : flow.dnsNames = [ascii "ads.example"]) :
    NamesBlocked adsEnv client flow := by
  refine ⟨adsEnv_upToDate, hquic, ⟨adsFeature, List.mem_singleton.mpr rfl, .inr ⟨ascii "ads.example", ?_, ?_⟩⟩, ?_⟩
  · rw [hname]
    exact List.mem_singleton.mpr rfl
  · exact ⟨by decide, [], ascii ".example", by decide⟩
  · intro f hf _
    obtain rfl := List.mem_singleton.mp hf
    refine ⟨by decide, by decide, ?_⟩
    rw [@appRule_eq_of_mac adsEnv _ client { mac := sampleMac } hmac]
    decide +kernel

/-- 31 seconds after the query was dropped, the next packet of its connection is dropped too. -/
theorem blocked_name_stays_dropped_ads :
    (∃ e mark, fwxHookGatewayHandle (adsEnv.after (.time 3100)) samplePacket 0x900003E9 = some (e, mark) ∧
      e.ret = .drop) ∧
    ∃ v conn, fwxHookBypassHandle (adsEnv.after (.time 3100)) sampleBypassPacket
      { totalPkts := 1, appId := 1001, drop := true } = some (v, conn) ∧ v = .drop := by
  constructor
  · have hfirst : (gatewayParsed adsEnv adsPacket 0).map (fun p => (p.2.1.mac,
        (isQuicFlow (dpiMain p.1)).val (dpiMain p.1).l4Data, (dpiMain p.1).dnsNames)) =
          some (sampleMac, false, [ascii "ads.example"]) := by decide +kernel
    obtain ⟨found, hinspected, hfacts⟩ := Option.map_eq_some_iff.mp hfirst
    obtain ⟨flow, client, m⟩ := found
    obtain ⟨hmac, hrest⟩ := Prod.mk.inj hfacts
    obtain ⟨hquic, hname⟩ := Prod.mk.inj hrest
    have hlater := ((blocked_name_stays_dropped adsEnv).1 0 adsPacket flow client m .appRule 0x900003E9 hinspected
      (adsEnv_blocked hmac hquic hname) (by decide +kernel)).2
    have hrun : Reaches gatewayStep (GatewayQuiet client.mac) ⟨adsEnv, 0x900003E9⟩
        ⟨adsEnv.after (.time 3100), 0x900003E9⟩ := Reaches.refl.tail (e := ConnEvent.change (.time 3100)) trivial rfl
    have hhandle : fwxHookGatewayHandle (adsEnv.after (.time 3100)) samplePacket 0x900003E9 =
        some (.appDrop, 0x900003E9) := by decide +kernel
    obtain ⟨flow', hpro'⟩ : ∃ flow', gatewayPrologue (adsEnv.after (.time 3100)) samplePacket =
        some (flow', { mac := sampleMac, ip := 0xC0A80102 }) := ⟨_, rfl⟩
    exact ⟨_, _, hhandle, hlater _ hrun samplePacket flow' _ _ _ hpro' hmac.symm hhandle⟩
  · have hfirst : (bypassParsed adsEnv adsBypassPacket {}).map (fun p => (p.2.1.mac,
        (isQuicFlow (dpiMain { p.1 with clientHello := p.2.2.clientHello })).val
          (dpiMain { p.1 with clientHello := p.2.2.clientHello }).l4Data,
        (dpiMain { p.1 with clientHello := p.2.2.clientHello }).dnsNames)) =
          some (sampleMac, false, [ascii "ads.example"]) := by decide +kernel
    obtain ⟨found, hinspected, hfacts⟩ := Option.map_eq_some_iff.mp hfirst
    obtain ⟨flow, client, c⟩ := found
    obtain ⟨hmac, hrest⟩ := Prod.mk.inj hfacts
    obtain ⟨hquic, hname⟩ := Prod.mk.inj hrest
    have hlater := ((blocked_name_stays_dropped adsEnv).2 {} adsBypassPacket flow client c .drop
      { totalPkts := 1, appId := 1001, drop := true } hinspected (adsEnv_blocked hmac hquic hname)
      (by decide +kernel)).2
    have hrun : Reaches bypassStep (BypassQuiet client.mac) ⟨adsEnv, { totalPkts := 1, appId := 1001, drop := true }⟩
        ⟨adsEnv.after (.time 3100), { totalPkts := 1, appId := 1001, drop := true }⟩ :=
      Reaches.refl.tail (e := ConnEvent.change (.time 3100)) trivial rfl
    have hhandle : fwxHookBypassHandle (adsEnv.after (.time 3100)) sampleBypassPacket
        { totalPkts := 1, appId := 1001, drop := true } =
          some (.drop, { totalPkts := 2, appId := 1001, drop := true }) := by decide +kernel
    obtain ⟨flow', hpro'⟩ : ∃ flow', bypassPrologue (adsEnv.after (.time 3100)) sampleBypassPacket =
        some (flow', { mac := sampleMac, ip := 0xC0A80102 }) := ⟨_, rfl⟩
    exact ⟨_, _, hhandle, hlater _ hrun sampleBypassPacket flow' _ _ _ hpro' hmac.symm hhandle⟩

/-- A rule for app 1001 that is for a visitor alone. -/
def visitorRule : AppFilterRule :=
  { sampleRule 1001 with macList := fwxAddMacNode fwxMacConfigInit #v[2, 0, 0, 0, 0, 8] }

/-- The visitor is off. -/
def visitorOff : MacFilterRule where
  ruleId := 2
  mode := MAC_FILTER_MODE_SINGLE_USER
  macList := fwxAddMacNode fwxMacConfigInit #v[2, 0, 0, 0, 0, 8]

/-- Both filters are on, with rules for the visitor. -/
def visitorEnv : HookEnv :=
  { adsEnv with
    filter := {
      gAppfilterEnable := true
      appFilterRuleList := [visitorRule]
      gMacFilterEnable := true
      macFilterRuleList := [visitorOff] } }

/-- These rules are not for the client of the packets. -/
theorem noRuleFor_visitor {env : HookEnv} (happ : env.filter.appFilterRuleList = [visitorRule])
    (hmac : env.filter.macFilterRuleList = [visitorOff]) : NoRuleFor sampleMac env := by
  intro client hclient
  have hrule : (fwxFindMacNode visitorRule.macList client.mac || macListEmpty visitorRule.macList) = false := by
    rw [hclient]
    decide +kernel
  have hoff : fwxFindMacNode visitorOff.macList client.mac = false := by
    rw [hclient]
    decide +kernel
  constructor
  · intro appId
    have hnone : fwxMatchAppFilterRule env.filter appId.toNat client.mac = none := by
      rw [fwxMatchAppFilterRule, happ, List.find?_singleton, hrule, Bool.and_false, Bool.false_and]
      rfl
    rw [HookEnv.appRule, matchAppFilterRule, hnone, Option.isSome_none, ite_self, ite_self]
  · have hnone : fwxMatchMacFilterRule env.filter client.mac = none := by
      rw [fwxMatchMacFilterRule, hmac, List.find?_singleton, hoff]
      rfl
    rw [HookEnv.macRule, matchMacFilterRule, hnone, Option.isSome_none, ite_self, ite_self]

/-- In between the rule is for all clients. -/
def ruleForAll : EnvChange := .appFilter [sampleRule 1001] fwxMacConfigInit

def ruleForVisitor : EnvChange := .appFilter [visitorRule] fwxMacConfigInit

def laterEnv : HookEnv := ((visitorEnv.after ruleForAll).after (.time 3100)).after ruleForVisitor

/-- The client of the packets. -/
def sampleClient : AfClientInfo := { mac := sampleMac, ip := 0xC0A80102 }

/-- The query is identified and accepted, a rule for all clients comes and goes, and the next packet is accepted. -/
theorem unasked_never_dropped_visitor :
    (∃ s : GatewayConn, Reaches gatewayStep (GatewayUnasked sampleMac) ⟨visitorEnv, 0⟩ s ∧
      fwxCtGetAppid s.mark = 1001 ∧
      ∃ e mark, fwxHookGatewayHandle s.env samplePacket s.mark = some (e, mark) ∧ e.ret = .accept) ∧
    ∃ s : BypassConn, Reaches bypassStep (BypassUnasked sampleMac) ⟨visitorEnv, {}⟩ s ∧ s.conn.appId = 1001 ∧
      ∃ v conn, fwxHookBypassHandle s.env sampleBypassPacket s.conn = some (v, conn) ∧ v = .accept := by
  have hfirst : NoRuleFor sampleMac visitorEnv := noRuleFor_visitor rfl rfl
  have hlater : NoRuleFor sampleMac laterEnv := noRuleFor_visitor rfl rfl
  constructor
  · have hclear : GatewayConn.Undropped ⟨visitorEnv, 0⟩ :=
      (by decide : fwxCtTestBit 0 FWX_CT_DROP_BIT = false)
    have hquery : GatewayUnasked sampleMac ⟨visitorEnv, 0⟩ (.packet adsPacket) :=
      @gatewayUnasked_packet _ _ _ sampleClient hfirst ⟨_, rfl⟩ rfl
    have hseen : gatewayStep ⟨visitorEnv, 0⟩ (.packet adsPacket) ⟨visitorEnv, 0x100003E9⟩ := by
      have hmark : (fwxHookGatewayHandle visitorEnv adsPacket 0).map Prod.snd = some 0x100003E9 := by decide +kernel
      obtain ⟨result, hhandle, hresult⟩ := Option.map_eq_some_iff.mp hmark
      rw [gatewayStep, GatewayConn.step, hhandle, Option.map_some, hresult]
    have hrun : Reaches gatewayStep (GatewayUnasked sampleMac) ⟨visitorEnv, 0⟩ ⟨laterEnv, 0x100003E9⟩ :=
      (((Reaches.refl.tail hquery hseen).tail (e := ConnEvent.change ruleForAll) trivial rfl).tail
        (e := ConnEvent.change (.time 3100)) trivial rfl).tail (e := .change ruleForVisitor) trivial rfl
    have hnext : GatewayUnasked sampleMac ⟨laterEnv, 0x100003E9⟩ (.packet samplePacket) :=
      @gatewayUnasked_packet _ _ _ sampleClient hlater ⟨_, rfl⟩ rfl
    have hhandle : (fwxHookGatewayHandle laterEnv samplePacket 0x100003E9).isSome = true := by decide +kernel
    obtain ⟨⟨e, mark⟩, hhandle⟩ := Option.isSome_iff_exists.mp hhandle
    exact ⟨⟨laterEnv, 0x100003E9⟩, hrun, by decide, e, mark, hhandle,
      (unasked_never_dropped sampleMac).1 _ _ hclear hrun samplePacket e mark hnext hhandle⟩
  · have hclear : BypassConn.Undropped ⟨visitorEnv, {}⟩ := rfl
    have hquery : BypassUnasked sampleMac ⟨visitorEnv, {}⟩ (.packet adsBypassPacket) :=
      @bypassUnasked_packet _ _ _ sampleClient hfirst ⟨_, rfl⟩ rfl
    have hseen : bypassStep ⟨visitorEnv, {}⟩ (.packet adsBypassPacket)
        ⟨visitorEnv, { totalPkts := 1, appId := 1001 }⟩ := by
      have hconn : (fwxHookBypassHandle visitorEnv adsBypassPacket {}).map Prod.snd =
          some { totalPkts := 1, appId := 1001 } := by decide +kernel
      obtain ⟨result, hhandle, hresult⟩ := Option.map_eq_some_iff.mp hconn
      rw [bypassStep, BypassConn.step, hhandle, Option.map_some, hresult]
    have hrun : Reaches bypassStep (BypassUnasked sampleMac) ⟨visitorEnv, {}⟩
        ⟨laterEnv, { totalPkts := 1, appId := 1001 }⟩ :=
      (((Reaches.refl.tail hquery hseen).tail (e := ConnEvent.change ruleForAll) trivial rfl).tail
        (e := ConnEvent.change (.time 3100)) trivial rfl).tail (e := .change ruleForVisitor) trivial rfl
    have hnext : BypassUnasked sampleMac ⟨laterEnv, { totalPkts := 1, appId := 1001 }⟩
        (.packet sampleBypassPacket) :=
      @bypassUnasked_packet _ _ _ sampleClient hlater ⟨_, rfl⟩ rfl
    have hhandle : (fwxHookBypassHandle laterEnv sampleBypassPacket { totalPkts := 1, appId := 1001 }).isSome =
        true := by decide +kernel
    obtain ⟨⟨v, conn⟩, hhandle⟩ := Option.isSome_iff_exists.mp hhandle
    exact ⟨⟨laterEnv, { totalPkts := 1, appId := 1001 }⟩, hrun, rfl, v, conn, hhandle,
      (unasked_never_dropped sampleMac).2 _ _ hclear hrun sampleBypassPacket v conn hnext hhandle⟩

end Oaf
