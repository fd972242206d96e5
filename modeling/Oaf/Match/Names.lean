/-
# Which names the automaton finds

The match buffer takes the first 63 bytes of a name, and a C string ends at its first NUL.
What the automaton is run on is therefore not the name but its cut (`cutName`).

* `match_url_feature_ac_iff`: on an up-to-date automaton, `af_match_url_feature_ac` returns a
  feature iff a literal host occurs in the cut of the server name, with the basic condition, or
  in the cut of a DNS name.
* `match_url_feature_ac_cut`: a host behind the 63rd byte of a DNS name is not found.
-/
import Oaf.Match.Hosts
import Oaf.UrlAc.Match

namespace Oaf

open CLib

/-! ## 1. Names and their cuts -/

/-- The server name of the handshake, or else the host of the request, at full length. -/
def FlowInfo.hostName (flow : FlowInfo) : Option (List UInt8) :=
  (flowHostField flow).map fun field => bytesAt flow.l4Data field.1 field.2.toNat

/-- The recorded DNS names, at full length. -/
def FlowInfo.dnsNames (flow : FlowInfo) : List (List UInt8) :=
  if flow.dns.matched then (flow.dns.queries.take MAX_DNS_QUERY_NUM).map (·.1.bytes) else []

/-- What the match buffer holds of a name: its first 63 bytes, up to the first NUL. -/
def cutName (name : List UInt8) : CStr := .ofBytes (name.take (MAX_URL_MATCH_LEN - 1))

/-- The feature's host is a literal one and occurs in the cut of the name. -/
def Named (name : List UInt8) (f : AfFeatureNode) : Prop :=
  f.literalHost = true ∧ f.hostUrl.bytes <:+: (cutName name).bytes

theorem bytesAt_take (m : Mem) (i : Int) {k n : Nat} (h : k ≤ n) :
    (bytesAt m i n).take k = bytesAt m i k := by
  rw [bytesAt, bytesAt, ← List.map_take, List.take_range, Nat.min_eq_left h]

theorem hostCopyLen_eq {len : Int} (h : 0 < len) :
    hostCopyLen len = min (MAX_URL_MATCH_LEN - 1) len.toNat := by
  rw [hostCopyLen, MAX_URL_MATCH_LEN]
  split <;> omega

/-- NULs behind a text do not make a NUL-free word occur in it. -/
theorem infix_append_replicate {w s : List UInt8} {c : UInt8} {n : Nat} (hc : c ∉ w) :
    w <:+: s ++ List.replicate n c ↔ w <:+: s := by
  refine ⟨?_, fun h => h.trans (List.prefix_append _ _).isInfix⟩
  rintro ⟨a, b, hab⟩
  rcases List.append_eq_append_iff.mp hab with ⟨l, hs, -⟩ | ⟨l, hl, hz⟩
  · exact ⟨a, l, hs.symm⟩
  · -- the word ends inside the filler, so the filler's part of it is empty
    rcases List.eq_nil_or_concat l with rfl | ⟨l', x, rfl⟩
    · exact ⟨a, [], by rw [hl, List.append_nil, List.append_nil]⟩
    · have hx : x = c := by
        have hmem : x ∈ List.replicate n c := by
          rw [hz]
          simp
        exact List.eq_of_mem_replicate hmem
      rcases List.eq_nil_or_concat w with rfl | ⟨w', y, rfl⟩
      · exact List.nil_infix
      · have hy : y = x := by
          have h := congrArg List.getLast? hl
          simpa using h
        exact absurd (by simp [hy, hx]) hc

/-- **The buffer holds the cut**: as a C string, and for the occurrence of a NUL-free word. -/
theorem padded_cutName {name : List UInt8} {src : List UInt8} {k : Nat}
    (hsrc : src = name.take (MAX_URL_MATCH_LEN - 1)) (hk : src.length ≤ k) :
    CStr.ofBytes (CArray.padded (CStr.ofBytes src).bytes k) = cutName name ∧
      ∀ w : CStr, w.bytes <:+: CArray.padded (CStr.ofBytes src).bytes k ↔
        w.bytes <:+: (cutName name).bytes := by
  have hcut : CStr.ofBytes src = cutName name := by rw [cutName, hsrc]
  have hlen : (CStr.ofBytes src).bytes.length ≤ k := (CStr.ofBytes_strlen_le src).trans hk
  rw [hcut] at hlen ⊢
  rw [CArray.padded, List.take_of_length_le hlen]
  refine ⟨?_, fun w => infix_append_replicate w.noNul⟩
  cases k - (cutName name).bytes.length with
  | zero => rw [List.replicate_zero, List.append_nil, CStr.ofBytes_bytes]
  | succ n => exact CStr.ofBytes_append_nul _ _

/-! ## 2. What is copied -/

/-- **`af_get_flow_host`** gives the cut of the host name, unless that reads as an address. -/
theorem afGetFlowHost_spec (lib : KernelLib) (flow : FlowInfo) :
    (flow.hostName = none ∧ afGetFlowHost lib flow = none) ∨
      ∃ name, flow.hostName = some name ∧
        ((afIsIpLiteralHost lib (cutName name) = true ∧ afGetFlowHost lib flow = none) ∨
          (afIsIpLiteralHost lib (cutName name) = false ∧ ∃ hostBuf,
            afGetFlowHost lib flow = some hostBuf ∧
              ∀ w : CStr, w.bytes <:+: hostBuf ↔ w.bytes <:+: (cutName name).bytes)) := by
  rw [FlowInfo.hostName, afGetFlowHost]
  cases hfield : flowHostField flow with
  | none => exact .inl ⟨rfl, rfl⟩
  | some field =>
    obtain ⟨pos, len⟩ := field
    have hpos : 0 < len := by
      have hname : ∀ {matched : Bool} {p : Option Int} {n : Int},
          nameField matched p n = some (pos, len) → 0 < len := by
        intro matched p n h
        rw [nameField] at h
        split at h
        · rename_i hlt
          obtain ⟨q, -, hq⟩ := Option.map_eq_some_iff.mp h
          rw [← (Prod.mk.inj hq).2]
          exact hlt.2
        · exact absurd h (by simp)
      rw [flowHostField] at hfield
      split at hfield
      · rename_i h
        exact hname (h.trans hfield)
      · exact hname hfield
    refine .inr ⟨_, rfl, ?_⟩
    have hk := hostCopyLen_eq hpos
    have hsrc : bytesAt flow.l4Data pos (hostCopyLen len)
        = (bytesAt flow.l4Data pos len.toNat).take (MAX_URL_MATCH_LEN - 1) := by
      rw [hk]
      rcases Nat.le_total (MAX_URL_MATCH_LEN - 1) len.toNat with h | h
      · rw [Nat.min_eq_left h, bytesAt_take _ _ h]
      · rw [Nat.min_eq_right h, List.take_of_length_le (by simpa [bytesAt] using h)]
    obtain ⟨hstr, hocc⟩ := padded_cutName (k := hostCopyLen len) hsrc (by simp [bytesAt])
    simp only [hstr]
    cases hlit : afIsIpLiteralHost lib (cutName (bytesAt flow.l4Data pos len.toNat)) with
    | true => exact .inl ⟨rfl, rfl⟩
    | false => exact .inr ⟨rfl, _, rfl, hocc⟩

/-- **The DNS loop runs over the cuts of the recorded names**, in their order. -/
theorem mem_dnsDomains {flow : FlowInfo} {w : CStr} (hw : w.bytes ≠ []) :
    (∃ hostBuf ∈ dnsDomains flow, w.bytes <:+: hostBuf) ↔
      ∃ name ∈ flow.dnsNames, w.bytes <:+: (cutName name).bytes := by
  have hcut : ∀ d : CStr, d.bytes.take (hostCopyLen d.strlen) = (cutName d.bytes).bytes := by
    intro d
    have hfree : 0 ∉ d.bytes.take (MAX_URL_MATCH_LEN - 1) :=
      fun h => d.noNul (List.mem_of_mem_take h)
    rw [cutName, CStr.ofBytes_of_noNul hfree, hostCopyLen]
    split
    · rfl
    · rename_i hlt
      rw [List.take_of_length_le (by simp [CStr.strlen]), List.take_of_length_le]
      simp only [CStr.strlen] at hlt
      omega
  have hcopy : ∀ {i : Nat} {hostBuf : List UInt8}, afCopyDnsDomain flow i = some hostBuf →
      ∃ name ∈ flow.dnsNames, hostBuf = (cutName name).bytes := by
    intro i hostBuf h
    rw [afCopyDnsDomain] at h
    split at h
    · exact absurd h (by simp)
    · rename_i hi
      split at h
      · exact absurd h (by simp)
      · rename_i domain qtype hget
        split at h
        · exact absurd h (by simp)
        · rw [Option.some.inj h.symm, hcut]
          simp only [Bool.not_eq_true', not_or, Bool.not_eq_false, Nat.not_le] at hi
          refine ⟨domain.bytes, ?_, rfl⟩
          rw [FlowInfo.dnsNames, if_pos hi.1]
          have hquery : (flow.dns.queries.take MAX_DNS_QUERY_NUM)[i]? = some (domain, qtype) := by
            rw [List.getElem?_take_of_lt hi.2, hget]
          exact List.mem_map.mpr ⟨_, List.mem_of_getElem? hquery, rfl⟩
  constructor
  · rintro ⟨hostBuf, hmem, hocc⟩
    obtain ⟨i, -, hi⟩ := List.mem_filterMap.mp hmem
    obtain ⟨name, hname, rfl⟩ := hcopy hi
    exact ⟨name, hname, hocc⟩
  · rintro ⟨name, hname, hocc⟩
    rw [FlowInfo.dnsNames] at hname
    split at hname
    · rename_i hmatched
      obtain ⟨query, hquery, rfl⟩ := List.mem_map.mp hname
      obtain ⟨i, hi, hget⟩ := List.getElem_of_mem hquery
      rw [List.length_take] at hi
      refine ⟨(cutName query.1.bytes).bytes, List.mem_filterMap.mpr ⟨i, ?_, ?_⟩, hocc⟩
      · exact List.mem_range.mpr (by rw [Nat.min_comm, FlowInfo.dns, DnsProto.queryNum] at *; omega)
      · have hne : query.1.strlen ≠ 0 := by
          intro h0
          rw [← hcut, List.length_eq_zero_iff.mp h0] at hocc
          exact hw (List.eq_nil_of_infix_nil (by simpa using hocc))
        rw [List.getElem_take] at hget
        have hget? : flow.dns.queries[i]? = some query := by
          rw [← hget]
          exact List.getElem?_eq_getElem (by omega)
        rw [afCopyDnsDomain, if_neg (by simp [hmatched]; omega), hget?]
        simp only [hne, if_false, hcut]
    · exact absurd hname (by simp)

/-! ## 3. The match -/

/-- The loop over the DNS names finds a feature iff one of them holds a literal host. -/
theorem acDnsLoop_spec {g : AfUrlAc} {word : Nat → List UInt8} {head : List AfFeatureNode}
    (h : Linked g word (head.filter (·.literalHost))) (hready : g.ready = true)
    (flow : FlowInfo) (bufs : List (List UInt8)) (stat : AfAcMatchStat) :
    ∃ res stat', acDnsLoop g flow stat bufs = some (res, stat') ∧
      (res.isSome = true ↔
        ∃ f ∈ head, f.literalHost = true ∧ ∃ hostBuf ∈ bufs, f.hostUrl.bytes <:+: hostBuf) := by
  induction bufs generalizing stat with
  | nil => exact ⟨none, stat, rfl, by simp⟩
  | cons hostBuf rest ih =>
    obtain ⟨res, stat1, hres, hmatch, -⟩ := linked_match h hready flow stat hostBuf false
    simp only [eligible, passesCond, Bool.not_false, Bool.true_or, Bool.and_true] at hmatch
    rw [acDnsLoop, hres]
    cases res with
    | some node =>
      obtain ⟨f, hf, hlit, hocc⟩ := hmatch.mp rfl
      refine ⟨some node, stat1, rfl, fun _ => ?_, fun _ => rfl⟩
      exact ⟨f, hf, hlit, hostBuf, List.mem_cons_self, hocc⟩
    | none =>
      obtain ⟨res', stat', hres', hiff⟩ := ih stat1
      refine ⟨res', stat', hres', hiff.trans ?_⟩
      constructor
      · rintro ⟨f, hf, hlit, buf, hbuf, hocc⟩
        exact ⟨f, hf, hlit, buf, List.mem_cons_of_mem _ hbuf, hocc⟩
      · rintro ⟨f, hf, hlit, buf, hbuf, hocc⟩
        rcases List.mem_cons.mp hbuf with rfl | hbuf
        · exact absurd (hmatch.mpr ⟨f, hf, hlit, hocc⟩) (by simp)
        · exact ⟨f, hf, hlit, buf, hbuf, hocc⟩

/-- `af_match_url_feature_ac` on a linked automaton. -/
theorem linked_url_feature {g : AfUrlAc} {word : Nat → List UInt8} {head : List AfFeatureNode}
    (h : Linked g word (head.filter (·.literalHost))) (hready : g.ready = true)
    (lib : KernelLib) (flow : FlowInfo) (stat : AfAcMatchStat) :
    ∃ res, afMatchUrlFeatureAc lib g flow stat = some res ∧
      (res.node.isSome = true ↔
        (∃ name, flow.hostName = some name ∧ afIsIpLiteralHost lib (cutName name) = false ∧
          ∃ f ∈ head, Named name f ∧ afMatchBasicCond flow f = true) ∨
        ∃ name ∈ flow.dnsNames, ∃ f ∈ head, Named name f) := by
  have hdns : (∃ f ∈ head, f.literalHost = true ∧
      ∃ hostBuf ∈ dnsDomains flow, f.hostUrl.bytes <:+: hostBuf) ↔
        ∃ name ∈ flow.dnsNames, ∃ f ∈ head, Named name f := by
    constructor
    · rintro ⟨f, hf, hlit, hocc⟩
      obtain ⟨name, hname, hocc⟩ := (mem_dnsDomains (AfFeatureNode.literalHost_ne_nil hlit)).mp hocc
      exact ⟨name, hname, f, hf, hlit, hocc⟩
    · rintro ⟨name, hname, f, hf, hlit, hocc⟩
      exact ⟨f, hf, hlit, (mem_dnsDomains (AfFeatureNode.literalHost_ne_nil hlit)).mpr
        ⟨name, hname, hocc⟩⟩
  have hroot : (!g.ready || g.root.isNone) = false := by simp [hready, h.rootIs]
  -- the DNS names are only looked at when the host name gave nothing
  have hnext : ∀ stat (result : Option AfFeatureNode × AfAcMatchStat → Option UrlFeatureMatch),
      (∀ node stat, result (some node, stat) = some ⟨some node, stat, true⟩) →
      (∀ stat, result (none, stat) = some ⟨none, stat, flow.matchByDns⟩) →
      ∃ res, acDnsLoop g flow stat (dnsDomains flow) >>= result = some res ∧
        (res.node.isSome = true ↔ ∃ name ∈ flow.dnsNames, ∃ f ∈ head, Named name f) := by
    intro stat result hsome hnone
    obtain ⟨res, stat', hres, hiff⟩ := acDnsLoop_spec h hready flow (dnsDomains flow) stat
    rw [hdns] at hiff
    rw [hres]
    cases res with
    | some node => exact ⟨_, hsome node stat', hiff⟩
    | none => exact ⟨_, hnone stat', hiff⟩
  rw [afMatchUrlFeatureAc, hroot, if_neg Bool.false_ne_true]
  rcases afGetFlowHost_spec lib flow with ⟨hname, hget⟩ | ⟨name, hname, hcase⟩
  · rw [hget]
    refine (hnext stat _ ?_ ?_).imp fun res hres => ⟨hres.1, hres.2.trans ⟨.inr, ?_⟩⟩
    · exact fun _ _ => rfl
    · exact fun _ => rfl
    rintro (⟨name, hname', -⟩ | hd)
    · rw [hname] at hname'
      exact absurd hname' (by simp)
    · exact hd
  · rcases hcase with ⟨hlit, hget⟩ | ⟨hlit, hostBuf, hget, hocc⟩
    · rw [hget]
      refine (hnext stat _ ?_ ?_).imp fun res hres => ⟨hres.1, hres.2.trans ⟨.inr, ?_⟩⟩
      · exact fun _ _ => rfl
      · exact fun _ => rfl
      rintro (⟨name', hname', hno, -⟩ | hd)
      · rw [hname] at hname'
        obtain rfl := Option.some.inj hname'
        exact absurd hlit (by simp [hno])
      · exact hd
    · rw [hget]
      obtain ⟨res, stat1, hres, hmatch, -⟩ := linked_match h hready flow stat hostBuf true
      have hhost : res.isSome = true ↔
          ∃ f ∈ head, Named name f ∧ afMatchBasicCond flow f = true := by
        rw [hmatch]
        simp only [eligible, passesCond, Bool.not_true, Bool.false_or, Bool.and_eq_true, hocc,
          Named]
        constructor
        · rintro ⟨f, hf, ⟨h1, h2⟩, h3⟩
          exact ⟨f, hf, ⟨h1, h3⟩, h2⟩
        · rintro ⟨f, hf, ⟨h1, h3⟩, h2⟩
          exact ⟨f, hf, ⟨h1, h2⟩, h3⟩
      have hleft : (∃ name, flow.hostName = some name ∧
          afIsIpLiteralHost lib (cutName name) = false ∧
            ∃ f ∈ head, Named name f ∧ afMatchBasicCond flow f = true) ↔ res.isSome = true := by
        rw [hhost]
        refine ⟨?_, fun hf => ⟨name, hname, hlit, hf⟩⟩
        rintro ⟨name', hname', -, hf⟩
        rw [hname] at hname'
        rwa [Option.some.inj hname']
      rw [hleft]
      simp only [hres]
      cases res with
      | some node => exact ⟨_, rfl, fun _ => .inl rfl, fun _ => rfl⟩
      | none =>
        refine (hnext stat1 _ ?_ ?_).imp fun res' hres' =>
          ⟨hres'.1, hres'.2.trans ⟨.inr, fun h => h.resolve_left (by simp)⟩⟩
        · exact fun _ _ => rfl
        · exact fun _ => rfl

/-- **Which names are found.**  After a rebuild whose allocations succeeded, and for every flow:
`af_match_url_feature_ac` returns a feature iff a literal host occurs in the cut of the server
name (unless that reads as an address) with the basic condition holding, or in the cut of a
recorded DNS name. -/
theorem match_url_feature_ac_iff (lib : KernelLib) (g : AfUrlAc) (m : Kmem)
    (head : List AfFeatureNode) :
    ∃ r, afRebuildUrlAcLocked g m head = some r ∧ (m.OkUntil r.m →
      ∀ (flow : FlowInfo) (stat : AfAcMatchStat),
        ∃ res, afMatchUrlFeatureAc lib r.g flow stat = some res ∧
          (res.node.isSome = true ↔
            (∃ name, flow.hostName = some name ∧ afIsIpLiteralHost lib (cutName name) = false ∧
              ∃ f ∈ head, Named name f ∧ afMatchBasicCond flow f = true) ∨
            ∃ name ∈ flow.dnsNames, ∃ f ∈ head, Named name f)) := by
  obtain ⟨r, hr, -, -, hcases⟩ := rebuild_cases g m head
  refine ⟨r, hr, fun hok flow stat => ?_⟩
  rcases hcases with ⟨-, -, -, hno⟩ | ⟨-, -, hready, -, word, items, hl, -, hitems⟩
  · exact absurd hok hno
  · rw [hitems (.inl hok)] at hl
    exact linked_url_feature hl hready lib flow stat

/-- A UDP flow to port 53 with a query for one name, given by its labels. -/
def dnsQueryFlow (labels : List (List UInt8)) : FlowInfo :=
  let payload := [0, 1, 1, 0, 0, 1, 0, 0, 0, 0, 0, 0] ++
    labels.flatMap (fun l => l.length.toUInt8 :: l) ++ [0, 0, 1, 0, 1]
  { l4Protocol := IPPROTO_UDP, sport := 4000, dport := DNS_PORT, l4Len := payload.length,
    l4Data := fun i => payload.getD i.toNat 0 }

/-- The literal host `ads`. -/
def adsFeature : AfFeatureNode := { addr := 1, appId := 1001, hostUrl := .lit "ads" }

/-- The query for `ads.example` is found. -/
theorem match_url_feature_ac_iff_ads :
    ∃ r, afRebuildUrlAcLocked {} ⟨fun _ => true, 0⟩ [adsFeature] = some r ∧
      ∃ res, afMatchUrlFeatureAc noAddresses r.g
          (dpiMain (dnsQueryFlow [ascii "ads", ascii "example"])) {} = some res ∧
        res.node.isSome = true := by
  obtain ⟨r, hr, hall⟩ := match_url_feature_ac_iff noAddresses {} ⟨fun _ => true, 0⟩ [adsFeature]
  obtain ⟨res, hres, hiff⟩ := hall (fun _ _ _ => rfl)
    (dpiMain (dnsQueryFlow [ascii "ads", ascii "example"])) {}
  refine ⟨r, hr, res, hres, hiff.mpr (.inr ⟨ascii "ads.example", by decide +kernel, adsFeature,
    List.mem_singleton.mpr rfl, by decide, [], ascii ".example", by decide⟩)⟩

/-- **A host behind the 63rd byte of a name is not found.**  The name has 67 bytes, and `ads`
are its last three. -/
theorem match_url_feature_ac_cut :
    (List.replicate 30 97 ++ 46 :: List.replicate 32 98 ++ 46 :: adsFeature.hostUrl.bytes) ∈
        (dpiMain (dnsQueryFlow [List.replicate 30 97, List.replicate 32 98, ascii "ads"])).dnsNames ∧
      ∃ r, afRebuildUrlAcLocked {} ⟨fun _ => true, 0⟩ [adsFeature] = some r ∧ r.ret = 0 ∧
        ∃ res, afMatchUrlFeatureAc noAddresses r.g
            (dpiMain (dnsQueryFlow [List.replicate 30 97, List.replicate 32 98, ascii "ads"])) {}
            = some res ∧ res.node = none := by
  refine ⟨by decide +kernel, ?_⟩
  have hrun : ((afRebuildUrlAcLocked {} ⟨fun _ => true, 0⟩ [adsFeature]).bind fun r =>
      (afMatchUrlFeatureAc noAddresses r.g
        (dpiMain (dnsQueryFlow [List.replicate 30 97, List.replicate 32 98, ascii "ads"])) {}).map
          fun res => (r.ret, res.node)) = some (0, none) := by
    decide +kernel
  obtain ⟨r, hr, hres⟩ := Option.bind_eq_some_iff.mp hrun
  obtain ⟨res, hres, hval⟩ := Option.map_eq_some_iff.mp hres
  exact ⟨r, hr, (Prod.mk.inj hval).1, res, hres, (Prod.mk.inj hval).2⟩

end Oaf
