/-
# MAC blocking in gateway mode

A packet that a MAC rule drops sets the drop flag of its connection's mark.  The flag is shared
with the app rules: inside the 30 seconds after a change of the app filter, the hook writes what
the app rules say over it, and an identified connection is accepted without a look at the MAC
rules.  A connection whose id is not valid is not dropped by its flag and is inspected again, so
it also needs a packet that can be inspected.

* `MacBlockKept`: a packet at which neither happens.
* `mac_block_lasts`: in a run of such packets the block lasts.
* `mac_block_lost`: a run in which it does not.
-/
import Oaf.Hook.Connection

namespace Oaf

open CLib Runs

/-- At this packet the app rules do not overrule the flag, and a packet that needs an inspection
to reach the MAC rules can have one. -/
def MacBlockKept (s : GatewayConn) : ConnEvent GatewayPacket → Prop
  | .change _ => True
  | .packet pkt => ∀ flow client, gatewayPrologue s.env pkt = some (flow, client) →
      (reevaluated (fwxCtGetAppid s.mark) = true → s.env.windowOpen = true →
        s.env.appRule (fwxCtGetAppid s.mark) client = true) ∧
      (32000 < fwxCtGetAppid s.mark → s.env.macRule client = true →
        (∃ totalPackets, pkt.acct = some totalPackets ∧ totalPackets ≤ MAX_DPI_PKT_NUM) ∧
          (flow.l4Len < MAX_AF_SUPPORT_DATA_LEN → pkt.nonlinear ≠ some none))

/-! ## 1. One packet -/

theorem gatewayInspectable_ne_error {pkt : GatewayPacket} {flow : FlowInfo} {e : GatewayExit}
    (hacct : ∃ totalPackets, pkt.acct = some totalPackets ∧ totalPackets ≤ MAX_DPI_PKT_NUM)
    (hmem : flow.l4Len < MAX_AF_SUPPORT_DATA_LEN → pkt.nonlinear ≠ some none) :
    gatewayInspectable pkt flow ≠ .error e := by
  obtain ⟨totalPackets, hsome, hle⟩ := hacct
  rw [gatewayInspectable, hsome]
  simp only [if_neg (Nat.not_lt.mpr hle)]
  intro h
  split at h
  · cases h
  · rename_i msgBuf hnonlinear
    split at h
    · rename_i hlen
      split at h
      · exact hmem hlen hnonlinear
      · cases h
    · cases h

theorem valid_or_zero_or_large (appId : UInt32) :
    fwxCtIsValidAppid appId = true ∨ appId = 0 ∨ 32000 < appId := by
  rcases Nat.eq_zero_or_pos appId.toNat with h0 | hpos
  · exact .inr (.inl (UInt32.toNat_inj.mp h0))
  · rcases Nat.lt_or_ge 32000 appId.toNat with hbig | hle
    · exact .inr (.inr (UInt32.lt_iff_toNat_lt.mpr hbig))
    · exact .inl (isValidAppid_iff.mpr ⟨hpos, hle⟩)

/-- **One packet** of a blocked connection leaves it blocked, and is dropped if a MAC rule matches
its client. -/
theorem blocked_packet {env : HookEnv} {mark mark' : UInt32} {pkt : GatewayPacket}
    {e : GatewayExit} (hflag : fwxCtTestBit mark FWX_CT_DROP_BIT = true)
    (hkept : MacBlockKept ⟨env, mark⟩ (.packet pkt))
    (h : fwxHookGatewayHandle env pkt mark = some (e, mark')) :
    fwxCtTestBit mark' FWX_CT_DROP_BIT = true ∧
      ∀ flow client, gatewayPrologue env pkt = some (flow, client) →
        env.macRule client = true → e.ret = .drop := by
  rcases fwxHookGatewayHandle_cases h with ⟨hpro, -, rfl⟩ | ⟨flow, client, hpro, hways⟩
  · refine ⟨hflag, fun flow client hfound => ?_⟩
    rw [hpro] at hfound
    cases hfound
  · obtain ⟨hrules, hinspect⟩ := hkept flow client hpro
    have haction : currentAction env client mark = true := by
      rw [currentAction]
      split
      · rename_i hre
        rw [Bool.and_eq_true] at hre
        exact hrules hre.1 hre.2
      · exact hflag
    obtain ⟨ret, m, hmarked, -, hbit, hvalid, hzero, hlarge⟩ := gatewayMarked_cases env client mark
    rw [haction] at hbit
    -- only an id above 32000 lets the hook go on
    have hgoesOn : ret = none → 32000 < fwxCtGetAppid mark := by
      rintro rfl
      rcases valid_or_zero_or_large (fwxCtGetAppid mark) with hv | h0 | hbig
      · obtain ⟨e', he', -⟩ := hvalid hv
        cases he'
      · rcases (hzero h0).2 with ⟨-, hret⟩ | ⟨hclear, -⟩
        · cases hret
        · rw [hflag] at hclear
          cases hclear
      · exact hbig
    suffices hmain : fwxCtTestBit mark' FWX_CT_DROP_BIT = true ∧
        (env.macRule client = true → e.ret = .drop) by
      refine ⟨hmain.1, fun flow' client' hfound hmac => hmain.2 ?_⟩
      rw [hpro] at hfound
      obtain ⟨-, rfl⟩ := Prod.mk.inj (Option.some.inj hfound)
      exact hmac
    rcases hways with hreturned | ⟨m', hnone, hways⟩
    · obtain ⟨rfl, rfl⟩ := Prod.mk.inj (hmarked.symm.trans hreturned)
      refine ⟨hbit, fun _ => ?_⟩
      rcases valid_or_zero_or_large (fwxCtGetAppid mark) with hv | h0 | hbig
      · obtain ⟨e', he', hdrop⟩ := hvalid hv
        obtain rfl := Option.some.inj he'
        exact hdrop.mpr haction
      · rcases (hzero h0).2 with ⟨-, hret⟩ | ⟨-, hret⟩
        · obtain rfl := Option.some.inj hret
          rfl
        · cases hret
      · cases (hlarge hbig).2
    · obtain ⟨rfl, rfl⟩ := Prod.mk.inj (hmarked.symm.trans hnone)
      rcases hways with ⟨hstopped, rfl⟩ | ⟨flow', -, hinspected⟩
      · refine ⟨hbit, fun hmac => ?_⟩
        obtain ⟨hacct, hmem⟩ := hinspect (hgoesOn rfl) hmac
        exact absurd hstopped (gatewayInspectable_ne_error hacct hmem)
      · obtain ⟨found, flow'', -, -, -, happ | hmac | hpassed⟩ := gatewayInspect_cases hinspected
        · exact ⟨happ.2.2.2, fun _ => by rw [happ.1]; rfl⟩
        · exact ⟨hmac.2.2, fun _ => by rw [hmac.1]; rfl⟩
        · refine ⟨hpassed.2.2.trans hbit, fun hmac => ?_⟩
          rw [hpassed.2.1] at hmac
          cases hmac

/-! ## 2. Runs -/

/-- The drop flag is set. -/
def Blocked (s : GatewayConn) : Prop := fwxCtTestBit s.mark FWX_CT_DROP_BIT = true

theorem Blocked.lasts {s t : GatewayConn} (hs : Blocked s)
    (hrun : Reaches gatewayStep MacBlockKept s t) : Blocked t := by
  refine Reaches.invariant ?_ hrun hs
  intro s e t hblocked hkept hstep
  cases e with
  | change c =>
    rw [gatewayStep_change hstep]
    exact hblocked
  | packet pkt =>
    obtain ⟨e, mark, hhandle, rfl⟩ := gatewayStep_packet hstep
    exact (blocked_packet hblocked hkept hhandle).1

/-- **MAC blocking lasts.**  After a packet dropped by a MAC rule, in every run of packets and
changes, with `MacBlockKept` at every packet, every packet whose client a MAC rule matches is
dropped. -/
theorem mac_block_lasts {s t : GatewayConn} {pkt pkt' : GatewayPacket} {mark mark' : UInt32}
    {e : GatewayExit} {flow : FlowInfo} {client : AfClientInfo}
    (hblocked : fwxHookGatewayHandle s.env pkt s.mark = some (.macRule, mark))
    (hrun : Reaches gatewayStep MacBlockKept ⟨s.env, mark⟩ t)
    (hkept : MacBlockKept t (.packet pkt'))
    (hclient : gatewayPrologue t.env pkt' = some (flow, client))
    (hmac : t.env.macRule client = true)
    (hhandle : fwxHookGatewayHandle t.env pkt' t.mark = some (e, mark')) :
    e.ret = .drop := by
  have hblock : Blocked ⟨s.env, mark⟩ := by
    obtain ⟨flow, client, m, flow', -, -, -, hinspected⟩ := inspected_of_rule hblocked (.inr rfl)
    obtain ⟨found, flow'', -, -, -, happ | hmac | hpassed⟩ := gatewayInspect_cases hinspected
    · cases happ.1
    · exact hmac.2.2
    · cases hpassed.1
  exact (blocked_packet (hblock.lasts hrun) hkept hhandle).2 flow client hclient hmac

/-- A MAC rule for all clients. -/
def allBlocked : FilterConfig where
  gMacFilterEnable := true
  macFilterRuleList := [{ ruleId := 1 }]

theorem sample_macRule (filter : FilterConfig) (c : EnvChange)
    (h : ((gatewayPrologue ((sampleEnv 1001 filter).after c) samplePacket).map fun found =>
      ((sampleEnv 1001 filter).after c).macRule found.2) = some true) :
    ∃ flow client, gatewayPrologue ((sampleEnv 1001 filter).after c) samplePacket
        = some (flow, client) ∧ ((sampleEnv 1001 filter).after c).macRule client = true := by
  obtain ⟨⟨flow, client⟩, hpro, hmac⟩ := Option.map_eq_some_iff.mp h
  exact ⟨flow, client, hpro, hmac⟩

/-- Five seconds after the first packet was blocked, the second is. -/
theorem mac_block_lasts_sample :
    ∃ e mark', fwxHookGatewayHandle ((sampleEnv 1001 allBlocked).after (.time 500)) samplePacket
      0x800003E9 = some (e, mark') ∧ e.ret = .drop := by
  obtain ⟨flow, client, hpro, hmac⟩ := sample_macRule allBlocked (.time 500) (by decide +kernel)
  have hhandle : fwxHookGatewayHandle ((sampleEnv 1001 allBlocked).after (.time 500))
      samplePacket 0x800003E9 = some (.markDrop, 0x800003E9) := by decide +kernel
  have hkept : MacBlockKept ⟨(sampleEnv 1001 allBlocked).after (.time 500), 0x800003E9⟩
      (.packet samplePacket) := by
    intro flow client _
    exact ⟨fun _ hopen => absurd hopen (by decide), fun hbig => absurd hbig (by decide)⟩
  have hblocked : fwxHookGatewayHandle (GatewayConn.mk (sampleEnv 1001 allBlocked) 0).env
      samplePacket (GatewayConn.mk (sampleEnv 1001 allBlocked) 0).mark
      = some (.macRule, 0x800003E9) := by decide +kernel
  have hrun : Reaches gatewayStep MacBlockKept ⟨sampleEnv 1001 allBlocked, 0x800003E9⟩
      ⟨(sampleEnv 1001 allBlocked).after (.time 500), 0x800003E9⟩ :=
    Reaches.refl.tail (e := .change (.time 500)) trivial rfl
  exact ⟨_, _, hhandle, mac_block_lasts hblocked hrun hkept hpro hmac hhandle⟩

/-- **A change of the app filter lifts a MAC block**: the MAC rule still matches the client of the
second packet, and the hook accepts it. -/
theorem mac_block_lost :
    fwxHookGatewayHandle (sampleEnv 1001 allBlocked) samplePacket 0
      = some (.macRule, 0x800003E9) ∧
    ∃ t, Reaches gatewayStep Always ⟨sampleEnv 1001 allBlocked, 0x800003E9⟩ t ∧
      (∃ flow client, gatewayPrologue t.env samplePacket = some (flow, client) ∧
        t.env.macRule client = true) ∧
      ∃ e mark', fwxHookGatewayHandle t.env samplePacket t.mark = some (e, mark') ∧
        e.ret = .accept :=
  ⟨by decide +kernel,
    ⟨(sampleEnv 1001 allBlocked).after (.appFilter [] fwxMacConfigInit), 0x800003E9⟩,
    Reaches.refl.tail (e := .change (.appFilter [] fwxMacConfigInit)) trivial rfl,
    sample_macRule allBlocked _ (by decide +kernel),
    .identified, 0x3E9, by decide +kernel, rfl⟩

end Oaf
