/-
# An app id through the mark

`fwx_match_feature` identifies a connection with the id of a feature, which the loader took from
a decimal number and stored as an `int`.  The hook puts it into 16 bits of the mark, and takes an
id it reads there for valid up to 32000.

* `gatewayIdentifies`: the app a packet is identified with.
* `identified_id_kept`: what the next packet reads; for a valid id a drop by an app rule lasts.
* `identified_id_lost`: a loaded id above 32000.
-/
import Oaf.Hook.Connection
import Oaf.Loader.Model

namespace Oaf

open CLib Runs

/-- The app id `fwx_hook_gateway_handle` identifies the connection with at this packet, if it
does. -/
def gatewayIdentifies (env : HookEnv) (pkt : GatewayPacket) (mark : UInt32) : Option UInt32 :=
  match gatewayPrologue env pkt with
  | none => none
  | some (flow, client) =>
    match gatewayMarked env client mark with
    | (some _, _) => none
    | (none, mark) =>
      let flow := { flow with clientHello := fwxCtTestBit mark FWX_CT_CLIENT_HELLO_BIT }
      match gatewayInspectable pkt flow with
      | .error _ => none
      | .ok flow =>
        match fwxMatchFeature env.lib env.regexpMem env.gUrlAc env.afFeatureHead (dpiMain flow) with
        | some (true, flow) => some flow.appId
        | _ => none

/-- What an identifying packet leaves: its id cut to 16 bits, and after a drop by an app rule the
drop flag, with a rule for the id. -/
theorem mark_of_identified {env : HookEnv} {pkt : GatewayPacket} {mark mark' appId : UInt32}
    {e : GatewayExit} {flow : FlowInfo} {client : AfClientInfo}
    (hpro : gatewayPrologue env pkt = some (flow, client))
    (hid : gatewayIdentifies env pkt mark = some appId)
    (h : fwxHookGatewayHandle env pkt mark = some (e, mark')) :
    (fwxCtGetAppid mark').toNat = appId.toNat % 2 ^ 16 ∧
      (e = .appRule → env.appRule appId client = true ∧
        fwxCtTestBit mark' FWX_CT_DROP_BIT = true) := by
  rw [gatewayIdentifies, hpro] at hid
  rw [fwxHookGatewayHandle, hpro] at h
  obtain ⟨ret, m, hmarked⟩ : ∃ ret m, gatewayMarked env client mark = (ret, m) := ⟨_, _, rfl⟩
  simp only [hmarked] at hid h
  cases ret with
  | some ret => cases hid
  | none =>
    dsimp only at hid h
    cases hinsp : gatewayInspectable pkt
        { flow with clientHello := fwxCtTestBit m FWX_CT_CLIENT_HELLO_BIT } with
    | error ret =>
      rw [hinsp] at hid
      cases hid
    | ok flow' =>
      rw [hinsp] at hid h
      obtain ⟨found, flow'', hmatch, hset, -, hways⟩ := gatewayInspect_cases h
      dsimp only at hid
      rw [hmatch] at hid
      cases found with
      | false => cases hid
      | true =>
        obtain rfl := Option.some.inj hid
        refine ⟨hset rfl, ?_⟩
        rintro rfl
        rcases hways with happ | hmac | hpassed
        · exact ⟨happ.2.2.1, happ.2.2.2⟩
        · cases hmac.1
        · cases hpassed.1

/-- **An id is read back as it was and taken for valid exactly from 1 to 32000.**  For such an id,
when an app rule drops the identifying packet, every later packet of the client is dropped as long
as the rules and the enable flags are unchanged. -/
theorem identified_id_kept {s : GatewayConn} {pkt : GatewayPacket} {mark appId : UInt32}
    {e : GatewayExit} {flow : FlowInfo} {client : AfClientInfo}
    (hpro : gatewayPrologue s.env pkt = some (flow, client))
    (hid : gatewayIdentifies s.env pkt s.mark = some appId)
    (hhandle : fwxHookGatewayHandle s.env pkt s.mark = some (e, mark)) :
    ((fwxCtGetAppid mark = appId ∧ fwxCtIsValidAppid (fwxCtGetAppid mark) = true) ↔
      0 < appId.toNat ∧ appId.toNat ≤ 32000) ∧
    (0 < appId.toNat → appId.toNat ≤ 32000 → e = .appRule →
      ∀ t, Reaches gatewayStep (GatewayQuiet client.mac) ⟨s.env, mark⟩ t →
        ∀ (pkt' : GatewayPacket) flow' client' e' mark',
          gatewayPrologue t.env pkt' = some (flow', client') → client'.mac = client.mac →
          fwxHookGatewayHandle t.env pkt' t.mark = some (e', mark') → e'.ret = .drop) := by
  obtain ⟨hset, hrule⟩ := mark_of_identified hpro hid hhandle
  have hback : appId.toNat ≤ 32000 → fwxCtGetAppid mark = appId := by
    intro hle
    apply UInt32.toNat_inj.mp
    rw [hset, Nat.mod_eq_of_lt (by omega)]
  constructor
  · constructor
    · rintro ⟨hsame, hvalid⟩
      rw [hsame] at hvalid
      exact isValidAppid_iff.mp hvalid
    · rintro ⟨hpos, hle⟩
      rw [hback hle]
      exact ⟨rfl, isValidAppid_iff.mpr ⟨hpos, hle⟩⟩
  · rintro hpos hle rfl t hrun pkt' flow' client' e' mark' hpro' hmac hhandle'
    obtain ⟨happ, hflag⟩ := hrule rfl
    have hsettled : Settled client.mac appId true ⟨s.env, mark⟩ :=
      ⟨hback hle, isValidAppid_iff.mpr ⟨hpos, hle⟩, hflag, fun client' hmac' =>
        (appRule_eq_of_mac s.env appId hmac').trans happ⟩
    exact (((hsettled.lasts hrun).packet hpro' hmac hhandle').1).mpr rfl

/-- The features after one `ADD_FEATURE` with this text. -/
def loadedFeatures (line : List UInt8) : List AfFeatureNode :=
  match afAddFeatureMsgHandle (fun _ => .empty) { kmem := ⟨fun _ => true, 0⟩ } line line.length with
  | .ok st => st.afFeatureHead
  | .error _ => []

/-- One loaded feature for all UDP packets, and a rule that drops its app. -/
def loadedEnv (line : List UInt8) (appId : Nat) : HookEnv :=
  { sampleEnv 1 { gAppfilterEnable := true, appFilterRuleList := [sampleRule appId] } with
    afFeatureHead := loadedFeatures line }

/-- The largest valid id: the second packet is dropped as the first was. -/
theorem identified_id_kept_sample :
    ∃ e mark, fwxHookGatewayHandle ((loadedEnv (ascii "32000~x:[udp;;;;;;]") 32000).after
      (.time 3100)) samplePacket 0x80007D00 = some (e, mark) ∧ e.ret = .drop := by
  have hclient : ∀ env, env = loadedEnv (ascii "32000~x:[udp;;;;;;]") 32000 ∨
      env = (loadedEnv (ascii "32000~x:[udp;;;;;;]") 32000).after (.time 3100) →
      ∃ flow, gatewayPrologue env samplePacket
        = some (flow, { mac := sampleMac, ip := 0xC0A80102 }) := by
    rintro env (rfl | rfl) <;> exact ⟨_, rfl⟩
  obtain ⟨flow, hpro⟩ := hclient _ (.inl rfl)
  obtain ⟨flow', hpro'⟩ := hclient _ (.inr rfl)
  have hfirst : fwxHookGatewayHandle (loadedEnv (ascii "32000~x:[udp;;;;;;]") 32000)
      samplePacket 0 = some (.appRule, 0x80007D00) := by decide +kernel
  have hidentified : gatewayIdentifies (loadedEnv (ascii "32000~x:[udp;;;;;;]") 32000)
      samplePacket 0 = some 32000 := by decide +kernel
  have hrun : Reaches gatewayStep (GatewayQuiet sampleMac)
      ⟨loadedEnv (ascii "32000~x:[udp;;;;;;]") 32000, 0x80007D00⟩
      ⟨(loadedEnv (ascii "32000~x:[udp;;;;;;]") 32000).after (.time 3100), 0x80007D00⟩ :=
    Reaches.refl.tail (e := .change (.time 3100)) trivial rfl
  have hsecond : fwxHookGatewayHandle ((loadedEnv (ascii "32000~x:[udp;;;;;;]") 32000).after
      (.time 3100)) samplePacket 0x80007D00 = some (.appDrop, 0x80007D00) := by decide +kernel
  exact ⟨_, _, hsecond, (identified_id_kept (s := ⟨_, 0⟩) hpro hidentified hfirst).2 (by decide)
    (by decide) rfl _ hrun samplePacket flow' _ _ _ hpro' rfl hsecond⟩

/-- **A loaded id above 32000 is lost**: the id 40000 is read back, but is not valid, and after
256 packets the connection that an app rule dropped is accepted. -/
theorem identified_id_lost :
    gatewayIdentifies (loadedEnv (ascii "40000~x:[udp;;;;;;]") 40000) samplePacket 0
      = some 40000 ∧
    fwxHookGatewayHandle (loadedEnv (ascii "40000~x:[udp;;;;;;]") 40000) samplePacket 0
      = some (.appRule, 0x80009C40) ∧
    fwxCtIsValidAppid (fwxCtGetAppid 0x80009C40) = false ∧
    fwxHookGatewayHandle (loadedEnv (ascii "40000~x:[udp;;;;;;]") 40000)
      { samplePacket with acct := some 257 } 0x80009C40 = some (.manyPackets, 0x80009C40) ∧
    GatewayExit.manyPackets.ret = .accept := by
  refine ⟨?_, ?_, ?_, ?_, ?_⟩ <;> decide +kernel

end Oaf
