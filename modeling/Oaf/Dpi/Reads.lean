/-
# Which payload bytes the parsers read

`l4_len` comes from the packet headers, so it can be zero, small or negative whatever the
payload is (`parseFlowProto_l4Len`).

* `dpiHttpsProto_within`, `dpiDnsProto_within`, `kMemstr_within`: the TLS and DNS parsers and
  `k_memstr` read within the payload, always.
* `dpiHttpProto_within_iff`: `dpi_http_proto` does iff the head of the payload meets
  `HttpHeadFits`.  It looks one byte past every `\r` and two past every line end without
  asking for the length, and compares five bytes at every line start.
* `afMatchByPos_within_iff`: `af_match_by_pos` does iff the length is not negative.  Compared
  as `unsigned`, a negative length lets every offset through.
* `dpi_reads_within_iff`: all of them together, for every packet.
-/
import Oaf.Dpi.Model
import Mathlib.Tactic.Common

namespace Oaf

open CLib

/-! ## 1. The lengths the headers can give -/

theorem parseTransport_l4Len {m : Mem} {ipp ippLen : Int} {flow flow' : FlowInfo}
    (h : parseTransport m ipp ippLen flow = some flow') (hlo : -60 ≤ ippLen)
    (hhi : ippLen ≤ 65535) : -120 ≤ flow'.l4Len ∧ flow'.l4Len ≤ 65535 := by
  rw [parseTransport] at h
  split at h
  · have hdoff : (m (ipp + 12) >>> 4).toNat < 16 := by
      rw [UInt8.toNat_shiftRight, Nat.shiftRight_eq_div_pow]
      have := (m (ipp + 12)).toNat_lt
      simp only [UInt8.reduceToNat, Nat.reduceMod, Nat.reducePow]
      omega
    obtain rfl := Option.some.inj h
    simp only
    omega
  · split at h
    · obtain rfl := Option.some.inj h
      have := (ntohs m (ipp + 4)).toNat_lt
      simp only
      omega
    · exact absurd h (by simp)

/-- **The range of `l4_len`**: from 120 bytes of headers too many up to a full packet. -/
theorem parseFlowProto_l4Len {skb : Skb} {flow flow' : FlowInfo}
    (h : parseFlowProto skb flow = some flow') : -120 ≤ flow'.l4Len ∧ flow'.l4Len ≤ 65535 := by
  rw [parseFlowProto] at h
  split at h
  · have hihl : (skb.network 0 &&& 0x0F).toNat < 16 := by
      rw [UInt8.toNat_and]
      exact lt_of_le_of_lt Nat.and_le_right (by decide)
    have := (ntohs skb.network 2).toNat_lt
    exact parseTransport_l4Len h (by omega) (by omega)
  · split at h
    · have := (ntohs skb.network 4).toNat_lt
      exact parseTransport_l4Len h (by omega) (by omega)
    · exact absurd h (by simp)

variable {m : Mem} {len : Int}

/-! ## 2. `dpi_https_proto` -/

theorem checkDomain_within {h : Int} {n : Nat} (h0 : 0 ≤ h) (hn : h + n ≤ len) :
    Rd.Within 0 len m (checkDomain h n) := by
  induction n generalizing h with
  | zero => exact Rd.within_pure true
  | succ n ih =>
    rw [checkDomain, Rd.within_bind, Rd.within_get, Rd.within_ite]
    exact ⟨by omega, fun _ => ih (by omega) (by omega), fun _ => Rd.within_pure _⟩

theorem isClientHello_within (h : 16 ≤ len) : Rd.Within 0 len m isClientHello := by
  have hbyte : ∀ k c, 0 ≤ k → k < 16 → Rd.Within 0 len m (Rd.is k c) := fun k c h0 h16 => by
    rw [Rd.within_is]
    omega
  exact ((hbyte 0 _ (by omega) (by omega)).and (hbyte 1 _ (by omega) (by omega))).and
    (hbyte 5 _ (by omega) (by omega))

theorem isSniMark_within {i : Int} (h0 : 0 ≤ i) (hi : i + 3 < len) :
    Rd.Within 0 len m (isSniMark i) := by
  have hbyte : ∀ k c, 0 ≤ k → k < 3 → Rd.Within 0 len m (Rd.is (i + k) c) := fun k c h0 h3 => by
    rw [Rd.within_is]
    omega
  have hfirst : Rd.Within 0 len m (Rd.is i 0) := by
    rw [Rd.within_is]
    omega
  have hlast : Rd.Within 0 len m (do pure ((← Rd.get (i + 3)) != 0)) := by
    rw [Rd.within_get_bind]
    exact ⟨by omega, Rd.within_pure _⟩
  exact ((hfirst.and (hbyte 1 0 (by omega) (by omega))).and
    (hbyte 2 0 (by omega) (by omega))).and hlast

theorem sniAt_within {i : Int} (h0 : 0 ≤ i) (hi : i + 9 < len) :
    Rd.Within 0 len m (sniAt len i) := by
  have hlen : Rd.Within 0 len m (sniLen i) := by
    simp only [sniLen, HTTPS_LEN_OFFSET, Rd.within_bind, Rd.within_get, Rd.within_pure, and_true]
    omega
  rw [sniAt, Rd.within_bind, Rd.within_ite]
  refine ⟨isSniMark_within h0 (by omega), fun _ => ?_, fun _ => Rd.within_pure _⟩
  rw [Rd.within_bind, Rd.within_ite]
  refine ⟨hlen, fun _ => Rd.within_pure _, fun _ => ?_⟩
  rw [Rd.within_ite]
  refine ⟨fun hfit => ?_, fun _ => Rd.within_pure _⟩
  -- the name ends before the payload does
  simp only [HTTPS_URL_OFFSET] at hfit ⊢
  rw [Rd.within_bind, Rd.within_ite]
  exact ⟨checkDomain_within (by omega) (by omega), fun _ => Rd.within_pure _,
    fun _ => Rd.within_pure _⟩

theorem dpiHttpsLoop_within {flow : FlowInfo} {fuel : Nat} {i : Int} (h0 : 0 ≤ i) :
    Rd.Within 0 len m (dpiHttpsLoop len flow fuel i) := by
  induction fuel generalizing i with
  | zero => exact Rd.within_pure _
  | succ fuel ih =>
    rw [dpiHttpsLoop, Rd.within_ite, Rd.within_ite]
    refine ⟨fun _ => ⟨fun _ => Rd.within_pure _, fun hi => ?_⟩, fun _ => Rd.within_pure _⟩
    simp only [HTTPS_URL_OFFSET] at hi
    rw [Rd.within_bind]
    refine ⟨sniAt_within h0 (by omega), ?_⟩
    cases (sniAt len i).val m with
    | none => exact ih (by omega)
    | some urlLen => exact Rd.within_pure _

/-- **`dpi_https_proto` reads within the payload.** -/
theorem dpiHttpsProto_within (flow : FlowInfo) :
    Rd.Within 0 flow.l4Len m (dpiHttpsProto flow) := by
  rw [dpiHttpsProto, Rd.within_ite]
  refine ⟨fun _ => Rd.within_pure _, fun hlen => ?_⟩
  simp only [MIN_HTTP_DATA_LEN] at hlen
  rw [Rd.within_bind, Rd.within_ite]
  exact ⟨isClientHello_within (by omega), fun _ => dpiHttpsLoop_within (Int.le_refl 0),
    fun _ => Rd.within_pure _⟩

/-! ## 3. `dpi_dns_proto` -/

theorem readWord_within {i : Int} (h0 : 0 ≤ i) (hi : i + 1 < len) :
    Rd.Within 0 len m (readWord i) := by
  simp only [readWord, Rd.within_bind, Rd.within_get, Rd.within_pure, and_true]
  omega

theorem dnsLabel_within {payload offset : Int} {n : Nat} {out : List UInt8}
    (h0 : 0 ≤ payload + offset) (hn : payload + offset + n ≤ len) :
    Rd.Within 0 len m (dnsLabel payload n offset out) := by
  induction n generalizing offset out with
  | zero => exact Rd.within_pure _
  | succ n ih =>
    rw [dnsLabel, Rd.within_bind, Rd.within_get, Rd.within_ite]
    exact ⟨by omega, fun _ => Rd.within_pure _, fun _ => ih (by omega) (by omega)⟩

theorem dnsLabels_within {payload dnsLen offset : Int} {fuel : Nat} {out : List UInt8}
    (hp : 0 ≤ payload) (h0 : 0 ≤ offset) (hlen : payload + dnsLen ≤ len) :
    Rd.Within 0 len m (dnsLabels payload dnsLen fuel offset out) := by
  induction fuel generalizing offset out with
  | zero => exact Rd.within_pure _
  | succ fuel ih =>
    rw [dnsLabels, Rd.within_ite]
    refine ⟨fun hoff => ?_, fun _ => Rd.within_pure _⟩
    rw [Rd.within_get_bind]
    simp only [Rd.within_ite]
    refine ⟨by omega, fun _ => Rd.within_pure _, fun _ => ⟨fun _ => Rd.within_pure _,
      fun _ => ⟨fun _ => Rd.within_pure _, fun hfit => ⟨fun _ => Rd.within_pure _, fun _ => ?_⟩⟩⟩⟩
    -- the label ends inside the message
    rw [Rd.within_bind]
    refine ⟨dnsLabel_within (by omega) (by omega), ?_⟩
    cases (dnsLabel payload (m (payload + offset)).toNat (offset + 1)
      (if 0 < out.length then out ++ [46] else out)).val m with
    | none => exact Rd.within_pure _
    | some out => exact ih (by omega)

/-- The label loop only moves forward. -/
theorem dnsLabels_offset {payload dnsLen offset next : Int} {fuel : Nat} {out name : List UInt8}
    (h : (dnsLabels payload dnsLen fuel offset out).val m = some (next, name)) :
    offset ≤ next := by
  induction fuel generalizing offset out with
  | zero =>
    obtain ⟨rfl, -⟩ := Prod.mk.inj (Option.some.inj h)
    exact Int.le_refl _
  | succ fuel ih =>
    rw [dnsLabels, Rd.val_ite] at h
    split at h
    · rw [Rd.val_get_bind] at h
      simp only [Rd.val_ite, Rd.val_pure] at h
      split at h
      · obtain ⟨rfl, -⟩ := Prod.mk.inj (Option.some.inj h)
        omega
      · split at h
        · exact absurd h (by simp)
        · split at h
          · exact absurd h (by simp)
          · split at h
            · exact absurd h (by simp)
            · rw [Rd.val_bind] at h
              revert h
              cases (dnsLabel payload (m (payload + offset)).toNat (offset + 1)
                (if 0 < out.length then out ++ [46] else out)).val m with
              | none => intro h; exact absurd h (by simp)
              | some out =>
                intro h
                have := ih h
                omega
    · obtain ⟨rfl, -⟩ := Prod.mk.inj (Option.some.inj h)
      exact Int.le_refl _

theorem afParseDnsQueryName_within {payload dnsLen offset : Int} (hp : 0 ≤ payload)
    (hlen : payload + dnsLen ≤ len) :
    Rd.Within 0 len m (afParseDnsQueryName payload dnsLen offset) := by
  rw [afParseDnsQueryName, Rd.within_ite, Rd.within_ite]
  refine ⟨fun _ => Rd.within_pure _, fun hoff => ⟨fun _ => Rd.within_pure _, fun _ => ?_⟩⟩
  simp only [DNS_HEADER_LEN] at hoff
  rw [Rd.within_bind]
  refine ⟨dnsLabels_within hp (by omega) hlen, ?_⟩
  cases hname : (dnsLabels payload dnsLen dnsLen.toNat offset []).val m with
  | none => exact Rd.within_pure _
  | some found =>
    obtain ⟨next, name⟩ := found
    have hnext := dnsLabels_offset hname
    simp only [Rd.within_ite, Rd.within_bind]
    exact ⟨fun _ => Rd.within_pure _, fun _ => ⟨fun _ => Rd.within_pure _, fun hfit =>
      ⟨readWord_within (by omega) (by omega), Rd.within_pure _⟩⟩⟩

theorem dnsQueries_within {payload dnsLen offset : Int} {n : Nat} (hp : 0 ≤ payload)
    (hlen : payload + dnsLen ≤ len) :
    Rd.Within 0 len m (dnsQueries payload dnsLen n offset) := by
  induction n generalizing offset with
  | zero => exact Rd.within_pure _
  | succ n ih =>
    rw [dnsQueries, Rd.within_bind]
    refine ⟨afParseDnsQueryName_within hp hlen, ?_⟩
    cases (afParseDnsQueryName payload dnsLen offset).val m with
    | none => exact Rd.within_pure _
    | some query =>
      obtain ⟨name, qtype, next⟩ := query
      simp only [Rd.within_bind]
      exact ⟨ih, Rd.within_pure _⟩

theorem dpiDnsMessage_within {flow : FlowInfo} {payload dnsLen : Int} (hp : 0 ≤ payload)
    (hlen : payload + dnsLen ≤ len) (hhdr : payload + 5 < len) :
    Rd.Within 0 len m (dpiDnsMessage flow payload dnsLen) := by
  simp only [dpiDnsMessage, Rd.within_bind, Rd.within_ite]
  exact ⟨readWord_within (by omega) (by omega), readWord_within (by omega) (by omega),
    fun _ => Rd.within_pure _, fun _ => ⟨dnsQueries_within hp hlen, fun _ => Rd.within_pure _,
      fun _ => Rd.within_pure _⟩⟩

/-- **`dpi_dns_proto` reads within the payload**, also behind the two length bytes TCP has. -/
theorem dpiDnsProto_within (flow : FlowInfo) : Rd.Within 0 flow.l4Len m (dpiDnsProto flow) := by
  rw [dpiDnsProto, Rd.within_ite, Rd.within_ite, Rd.within_ite, Rd.within_ite, Rd.within_ite]
  refine ⟨fun _ => Rd.within_pure _, fun hlen => ⟨fun _ => Rd.within_pure _, fun _ =>
    ⟨fun _ => ⟨fun _ => Rd.within_pure _, fun htcp => ?_⟩, fun _ => ⟨fun _ => Rd.within_pure _,
      fun _ => ?_⟩⟩⟩⟩
  · have hpre : DNS_TCP_PREFIX_LEN = 2 := rfl
    have hhdr : DNS_HEADER_LEN = 12 := rfl
    rw [Rd.within_bind, Rd.within_ite]
    exact ⟨readWord_within (by omega) (by omega), fun _ => Rd.within_pure _,
      fun hmsg => dpiDnsMessage_within (by omega) (by omega) (by omega)⟩
  · simp only [DNS_HEADER_LEN] at hlen
    exact dpiDnsMessage_within (Int.le_refl 0) (by omega) (by omega)

/-! ## 4. `k_memstr` and `af_match_by_pos` -/

theorem kMemstrLoop_within {str : List UInt8} {stop p : Int} {fuel : Nat} (h0 : 0 ≤ p)
    (hstop : stop + str.length ≤ len) : Rd.Within 0 len m (kMemstrLoop str stop fuel p) := by
  induction fuel generalizing p with
  | zero => exact Rd.within_pure _
  | succ fuel ih =>
    rw [kMemstrLoop, Rd.within_ite]
    refine ⟨fun hp => ?_, fun _ => Rd.within_pure _⟩
    rw [Rd.within_bind, Rd.within_memEq, Rd.within_ite]
    exact ⟨.inr (by omega), fun _ => Rd.within_pure _, fun _ => ih (by omega)⟩

/-- **`k_memstr` reads within the payload**, for every text and every length. -/
theorem kMemstr_within (str : CStr) : Rd.Within 0 len m (kMemstr str len) :=
  kMemstrLoop_within (Int.le_refl 0) (by simp only [CStr.strlen]; omega)

theorem toU32_of_nonneg {x : Int} (h0 : 0 ≤ x) (h : x < 2 ^ 32) : toU32 x = x :=
  Int.emod_eq_of_lt h0 h

theorem toU32_of_neg {x : Int} (h0 : x < 0) (h : -2 ^ 32 ≤ x) : toU32 x = 2 ^ 32 + x := by
  rw [toU32]
  omega

theorem matchPosInfo_within_of_nonneg {infos : List AfPosInfo} (h0 : 0 ≤ len)
    (hlen : len ≤ 65535) : Rd.Within 0 len m (matchPosInfo len infos) := by
  induction infos with
  | nil => exact Rd.within_pure _
  | cons info rest ih =>
    rw [matchPosInfo]
    generalize hpos : (if info.pos < 0 then toU32 (len + info.pos) else toU32 info.pos) = pos
    have hpos0 : 0 ≤ pos := by
      rw [← hpos]
      split <;> exact Int.emod_nonneg _ (by decide)
    simp only [toU32_of_nonneg h0 (by omega : len < 2 ^ 32), Rd.within_ite, Rd.within_bind,
      Rd.within_is]
    exact ⟨fun _ => Rd.within_pure _, fun hlt => ⟨by omega, fun _ => ih, fun _ => Rd.within_pure _⟩⟩

/-- A negative length is a huge unsigned one: the first position passes and is read. -/
theorem not_matchPosInfo_within {info : AfPosInfo} {rest : List AfPosInfo} (h0 : len < 0)
    (hlen : -120 ≤ len) (hlo : -2 ^ 31 ≤ info.pos) (hhi : info.pos < 2 ^ 31) :
    ¬ Rd.Within 0 len m (matchPosInfo len (info :: rest)) := by
  have hlen' : toU32 len = 2 ^ 32 + len := toU32_of_neg h0 (by omega)
  obtain ⟨pos, hpos, hpos0, hlt⟩ : ∃ pos,
      (if info.pos < 0 then toU32 (len + info.pos) else toU32 info.pos) = pos ∧ 0 ≤ pos ∧
        pos < toU32 len := by
    refine ⟨_, rfl, ?_, ?_⟩
    · split <;> exact Int.emod_nonneg _ (by decide)
    · rw [hlen']
      split
      · rw [toU32_of_neg (by omega) (by omega)]
        omega
      · rw [toU32_of_nonneg (by omega) (by omega)]
        omega
  intro h
  rw [matchPosInfo] at h
  simp only [hpos, Rd.within_ite, Rd.within_bind, Rd.within_is] at h
  obtain ⟨⟨-, hread⟩, -⟩ := h.2 (Int.not_le.mpr hlt)
  omega

/-- The positions of a feature are C `int`s. -/
def IntPositions (node : AfFeatureNode) : Prop :=
  ∀ info ∈ node.posInfo, -2 ^ 31 ≤ info.pos ∧ info.pos < 2 ^ 31

/-- **`af_match_by_pos` reads within the payload iff the length is not negative**, unless it
has no position to look at. -/
theorem afMatchByPos_within_iff {flow : FlowInfo} {node : AfFeatureNode}
    (hlo : -120 ≤ flow.l4Len) (hhi : flow.l4Len ≤ 65535) (hint : IntPositions node) :
    Rd.Within 0 flow.l4Len m (afMatchByPos flow node) ↔ (0 < node.posNum → 0 ≤ flow.l4Len) := by
  rw [afMatchByPos, Rd.within_ite]
  rcases Nat.eq_zero_or_pos node.posNum with hnum | hnum
  · simp [hnum]
  · simp only [hnum, true_implies, not_true_eq_false, false_implies, and_true, Rd.within_bind,
      Rd.within_ite]
    rcases Int.lt_or_le flow.l4Len 0 with hneg | hpos
    · refine ⟨fun h => ?_, fun h => by omega⟩
      obtain ⟨info, rest, hinfo⟩ : ∃ info rest, node.posInfo = info :: rest :=
        List.exists_cons_of_length_pos hnum
      have hmem := hint info (by rw [hinfo]; exact List.mem_cons_self)
      have htake : node.posInfo.take MAX_POS_INFO_PER_FEATURE
          = info :: rest.take (MAX_POS_INFO_PER_FEATURE - 1) := by
        rw [hinfo]
        exact List.take_succ_cons
      rw [htake] at h
      exact absurd h.1 (not_matchPosInfo_within hneg hlo hmem.1 hmem.2)
    · refine ⟨fun _ => hpos, fun _ => ?_⟩
      exact ⟨matchPosInfo_within_of_nonneg hpos hhi,
        fun _ => ⟨fun _ => kMemstr_within _, fun _ => Rd.within_pure _⟩, fun _ => Rd.within_pure _⟩

/-! ## 5. `dpi_http_proto`

What the scan looks at, said of the payload alone. -/

/-- `\r\n` at an offset. -/
def CrlfAt (m : Mem) (i : Int) : Prop := m i = 0x0d ∧ m (i + 1) = 0x0a

/-- A blank line, where the header ends and the scan with it. -/
def BlankLineAt (m : Mem) (i : Int) : Prop := CrlfAt m i ∧ CrlfAt m (i + 2)

/-- `s` is where the line that `i` lies in starts. -/
def LineStart (m : Mem) (s i : Int) : Prop :=
  (s = 0 ∨ (2 ≤ s ∧ CrlfAt m (s - 2))) ∧ s ≤ i ∧ ∀ k, s ≤ k → k < i → ¬ CrlfAt m k

/-- What the scan needs at an offset: a `\r` is not the last byte; a line end is followed by
another byte, and by two when the first is a `\r`; and its line has five bytes of payload. -/
def HttpLineFits (m : Mem) (len i : Int) : Prop :=
  m i = 0x0d → i + 1 < len ∧
    (m (i + 1) = 0x0a → i + 2 < len ∧ (m (i + 2) = 0x0d → i + 3 < len) ∧
      ∀ s, LineStart m s i → s + 5 ≤ len)

/-- Every offset up to the first blank line meets `HttpLineFits`. -/
def HttpHeadFits (m : Mem) (len : Int) : Prop :=
  ∀ i, 0 ≤ i → i < len → (∀ k, 0 ≤ k → k < i → ¬ BlankLineAt m k) → HttpLineFits m len i

theorem val_isCrlf {i : Int} : (isCrlf i).val m = true ↔ CrlfAt m i := by
  rw [isCrlf, Rd.val_and, Rd.val_is, Rd.val_is, Bool.and_eq_true, beq_iff_eq, beq_iff_eq]
  exact Iff.rfl

theorem within_isCrlf {i : Int} (h0 : 0 ≤ i) :
    Rd.Within 0 len m (isCrlf i) ↔ i < len ∧ (m i = 0x0d → i + 1 < len) := by
  rw [isCrlf, Rd.within_and, Rd.within_is, Rd.within_is, Rd.val_is, beq_iff_eq]
  exact ⟨fun h => ⟨h.1.2, fun hc => (h.2 hc).2⟩,
    fun h => ⟨⟨h0, h.1⟩, fun hc => ⟨by omega, h.2 hc⟩⟩⟩

theorem within_dpiHttpLine {http : HttpProto} {start i : Int} (h0 : 0 ≤ start) :
    Rd.Within 0 len m (dpiHttpLine http start i) ↔ start + 5 ≤ len := by
  have hmem : ∀ s : String, ascii s ≠ [] →
      (Rd.Within 0 len m (Rd.memEq start (ascii s)) ↔ start + (ascii s).length ≤ len) :=
    fun s hs => by
      rw [Rd.within_memEq]
      exact ⟨fun h => (h.resolve_left hs).2, fun h => .inr ⟨h0, h⟩⟩
  have hpost := hmem "POST " (by decide)
  have hget := hmem "GET " (by decide)
  have hhost := hmem "Host:" (by decide)
  have hlens : (ascii "POST ").length = 5 ∧ (ascii "GET ").length = 4 ∧
      (ascii "Host:").length = 5 := by decide
  rw [hlens.1] at hpost
  rw [hlens.2.1] at hget
  rw [hlens.2.2] at hhost
  rw [dpiHttpLine, Rd.within_bind, Rd.within_ite, hpost]
  refine ⟨fun h => h.1, fun h => ⟨h, fun _ => Rd.within_pure _, fun _ => ?_⟩⟩
  rw [Rd.within_bind, Rd.within_ite, hget]
  refine ⟨by omega, fun _ => Rd.within_pure _, fun _ => ?_⟩
  rw [Rd.within_bind, Rd.within_ite, hhost]
  exact ⟨h, fun _ => Rd.within_pure _, fun _ => Rd.within_pure _⟩

theorem lineStart_unique {s s' i : Int} (h : LineStart m s i) (h' : LineStart m s' i) :
    s = s' := by
  -- a line start behind another one has a line end between the two
  have hle : ∀ {a b : Int}, LineStart m a i → LineStart m b i → b ≤ a := by
    rintro a b ⟨ha, hai, hafree⟩ ⟨hb, hbi, -⟩
    rcases hb with rfl | ⟨hb2, hbend⟩
    · rcases ha with rfl | ⟨ha2, -⟩ <;> omega
    · by_contra hlt
      have hnear : b - 2 < a := by
        by_contra hge
        exact hafree (b - 2) (by omega) (by omega) hbend
      rcases ha with rfl | ⟨ha2, haend⟩
      · omega
      · have hab : a - 2 + 1 = b - 2 := by omega
        have h1 := haend.2
        rw [hab, hbend.1] at h1
        exact absurd h1 (by decide)
  exact Int.le_antisymm (hle h' h) (hle h h')

/-- Where the scan is: `start` is the start of the line of `i`, or `i` is the `\n` of the
line end that was just handled. -/
def ScanInv (m : Mem) (start i : Int) : Prop :=
  LineStart m start i ∨ (1 ≤ i ∧ start = i + 1 ∧ CrlfAt m (i - 1))

theorem ScanInv.lineStart {start i : Int} (h : ScanInv m start i) (hcr : m i = 0x0d) :
    LineStart m start i := by
  rcases h with h | ⟨hi, rfl, hprev⟩
  · exact h
  · have hlf := hprev.2
    rw [show i - 1 + 1 = i by omega, hcr] at hlf
    exact absurd hlf (by decide)

theorem ScanInv.next {start i : Int} (h : ScanInv m start i) (hno : ¬ CrlfAt m i) :
    ScanInv m start (i + 1) := by
  refine .inl ?_
  rcases h with ⟨hs, hi, hfree⟩ | ⟨hi, rfl, hprev⟩
  · refine ⟨hs, by omega, fun k hk hki => ?_⟩
    rcases Int.lt_or_eq_of_le (show k ≤ i by omega) with hlt | rfl
    · exact hfree k hk hlt
    · exact hno
  · refine ⟨.inr ⟨by omega, ?_⟩, by omega, fun k hk hki => by omega⟩
    rw [show i + 1 - 2 = i - 1 by omega]
    exact hprev

theorem ScanInv.lineEnd {i : Int} (h0 : 0 ≤ i) (hend : CrlfAt m i) :
    ScanInv m (i + 2) (i + 1) := by
  refine .inr ⟨by omega, by omega, ?_⟩
  rw [show i + 1 - 1 = i by omega]
  exact hend

/-- At a line end, `HttpLineFits` is about the one line start there is. -/
theorem httpLineFits_crlf {start i : Int} (hend : CrlfAt m i) (hs : LineStart m start i) :
    HttpLineFits m len i ↔
      i + 1 < len ∧ start + 5 ≤ len ∧ i + 2 < len ∧ (m (i + 2) = 0x0d → i + 3 < len) := by
  constructor
  · intro h
    obtain ⟨h1, h2⟩ := h hend.1
    obtain ⟨h2, h3, h4⟩ := h2 hend.2
    exact ⟨h1, h4 start hs, h2, h3⟩
  · rintro ⟨h1, h5, h2, h3⟩ -
    refine ⟨h1, fun _ => ⟨h2, h3, fun s hs' => ?_⟩⟩
    rw [lineStart_unique hs' hs]
    exact h5

theorem httpLineFits_other {i : Int} (hno : ¬ CrlfAt m i) :
    HttpLineFits m len i ↔ (m i = 0x0d → i + 1 < len) :=
  ⟨fun h hcr => (h hcr).1, fun h hcr => ⟨h hcr, fun hlf => absurd ⟨hcr, hlf⟩ hno⟩⟩

/-- One place less to scan. -/
theorem scan_next {P B : Int → Prop} {i : Int} (hi : i < len) :
    (∀ j, i ≤ j → j < len → (∀ k, i ≤ k → k < j → ¬ B k) → P j) ↔
      P i ∧ (¬ B i → ∀ j, i + 1 ≤ j → j < len → (∀ k, i + 1 ≤ k → k < j → ¬ B k) → P j) := by
  constructor
  · intro h
    refine ⟨h i (Int.le_refl i) hi fun k hk hki => by omega, fun hB j hj hjl hfree => ?_⟩
    refine h j (by omega) hjl fun k hk hkj => ?_
    rcases Int.lt_or_eq_of_le hk with hlt | rfl
    · exact hfree k (by omega) hkj
    · exact hB
  · rintro ⟨hPi, hnext⟩ j hj hjl hfree
    rcases Int.lt_or_eq_of_le hj with hlt | rfl
    · exact hnext (hfree i (Int.le_refl i) hlt) j (by omega) hjl
        fun k hk hkj => hfree k (by omega) hkj
    · exact hPi

/-- **The scan reads within the payload iff every offset it gets to fits.**  Induction on the
offsets left to scan; the line start it carries is the one of `LineStart`. -/
theorem dpiHttpLoop_within_iff {fuel : Nat} {http : HttpProto} {i start : Int} (h0 : 0 ≤ i)
    (hfuel : len ≤ i + fuel) (hinv : ScanInv m start i) :
    Rd.Within 0 len m (dpiHttpLoop len fuel http i start) ↔
      ∀ j, i ≤ j → j < len → (∀ k, i ≤ k → k < j → ¬ BlankLineAt m k) → HttpLineFits m len j := by
  induction fuel generalizing http i start with
  | zero => exact ⟨fun _ j hj hjl => by omega, fun _ => Rd.within_pure _⟩
  | succ fuel ih =>
    rw [dpiHttpLoop, Rd.within_ite]
    by_cases hi : i < len
    · rw [scan_next hi, Rd.within_bind, Rd.within_ite, within_isCrlf h0, val_isCrlf]
      simp only [hi, true_implies, true_and, not_true_eq_false, false_implies, and_true]
      by_cases hend : CrlfAt m i
      · have hstart := hinv.lineStart hend.1
        have hs0 : 0 ≤ start := by
          rcases hstart.1 with h | h <;> omega
        have hrest := fun http => @ih http _ _ (by omega : (0 : Int) ≤ i + 1)
          (by omega : len ≤ i + 1 + fuel) (ScanInv.lineEnd h0 hend)
        rw [httpLineFits_crlf hend hstart]
        simp only [hend, hend.1, true_implies, not_true_eq_false, false_implies, and_true,
          Rd.within_bind, within_dpiHttpLine hs0, within_isCrlf (show 0 ≤ i + 2 by omega),
          Rd.within_ite, val_isCrlf, Rd.within_pure, implies_true, true_and, hrest, BlankLineAt,
          Int.add_assoc]
        constructor
        · rintro ⟨h1, h5, ⟨h2, h3⟩, hr⟩
          exact ⟨⟨h1, h5, h2, h3⟩, hr⟩
        · rintro ⟨⟨h1, h5, h2, h3⟩, hr⟩
          exact ⟨h1, h5, ⟨h2, h3⟩, hr⟩
      · have hrest := @ih http _ _ (by omega : (0 : Int) ≤ i + 1)
          (by omega : len ≤ i + 1 + fuel) (hinv.next hend)
        have hblank : ¬ BlankLineAt m i := fun h => hend h.1
        rw [httpLineFits_other hend, hrest]
        simp only [hend, hblank, not_false_eq_true, true_implies, false_implies, true_and]
    · have hdone : ∀ j, i ≤ j → ¬ j < len := fun j hj => by omega
      simp only [hi, false_implies, true_and, not_false_eq_true, true_implies, Rd.within_pure,
        true_iff]
      exact fun j hj hjl => absurd hjl (hdone j hj)

/-- **`dpi_http_proto` reads within the payload iff the head of the payload fits.** -/
theorem dpiHttpProto_within_iff (flow : FlowInfo) :
    Rd.Within 0 flow.l4Len m (dpiHttpProto flow) ↔
      (flow.l4Protocol = IPPROTO_TCP → 16 ≤ flow.l4Len → HttpHeadFits m flow.l4Len) := by
  have hstart : ScanInv m 0 0 := .inl ⟨.inl rfl, Int.le_refl 0, fun k hk hk0 => by omega⟩
  rw [dpiHttpProto, Rd.within_ite, Rd.within_ite, MIN_HTTP_DATA_LEN]
  simp only [Rd.within_pure, implies_true, true_and, ne_eq, not_not, Int.not_lt, Rd.within_bind,
    and_true]
  refine forall_congr' fun _ => forall_congr' fun hlen => ?_
  exact dpiHttpLoop_within_iff (Int.le_refl 0) (by omega) hstart

/-! ## 6. All of them -/

/-- The three parsers and the two matchers read payload bytes in `[0, l4_len)` only. -/
structure ReadsWithin (flow : FlowInfo) (node : AfFeatureNode) : Prop where
  http : Rd.Within 0 flow.l4Len flow.l4Data (dpiHttpProto flow)
  https : Rd.Within 0 flow.l4Len flow.l4Data (dpiHttpsProto flow)
  dns : Rd.Within 0 flow.l4Len flow.l4Data (dpiDnsProto flow)
  byPos : Rd.Within 0 flow.l4Len flow.l4Data (afMatchByPos flow node)
  memstr : Rd.Within 0 flow.l4Len flow.l4Data (kMemstr node.searchStr flow.l4Len)

/-- The head of a TCP payload of 16 bytes or more fits, and a feature with positions is not
held against a negative length. -/
def ReadsFit (flow : FlowInfo) (node : AfFeatureNode) : Prop :=
  (flow.l4Protocol = IPPROTO_TCP → 16 ≤ flow.l4Len → HttpHeadFits flow.l4Data flow.l4Len) ∧
    (0 < node.posNum → 0 ≤ flow.l4Len)

/-- **Which packets are read within their payload.**  Whatever the packet, whatever the flow
already holds and whatever the feature: the parsers and matchers stay in `[0, l4_len)` iff the
payload and the length meet `ReadsFit`. -/
theorem dpi_reads_within_iff (skb : Skb) (flow0 flow : FlowInfo) (node : AfFeatureNode)
    (hparse : parseFlowProto skb flow0 = some flow) (hint : IntPositions node) :
    ReadsWithin flow node ↔ ReadsFit flow node := by
  obtain ⟨hlo, hhi⟩ := parseFlowProto_l4Len hparse
  have hpos := afMatchByPos_within_iff (m := flow.l4Data) hlo hhi hint
  constructor
  · intro h
    exact ⟨(dpiHttpProto_within_iff flow).mp h.http, hpos.mp h.byPos⟩
  · rintro ⟨hhttp, hneg⟩
    exact ⟨(dpiHttpProto_within_iff flow).mpr hhttp, dpiHttpsProto_within flow,
      dpiDnsProto_within flow, hpos.mpr hneg, kMemstr_within node.searchStr⟩

/-- An IPv4 TCP packet without options and with the given payload. -/
def tcpPacket (payload : List UInt8) : Skb where
  protocol := ETH_P_IP
  network i :=
    if i = 0 then 0x45
    else if i = 3 then (40 + payload.length).toUInt8
    else if i = 9 then 6
    else if i = 32 then 0x50
    else if 40 ≤ i then payload.getD (i - 40).toNat 0
    else 0

/-- A whole request: both line ends lie in the payload. -/
theorem dpi_reads_within_iff_request :
    ∃ flow, parseFlowProto (tcpPacket (ascii "GET / HTTP/1.0\x0d\n\x0d\n")) {} = some flow ∧
      ReadsFit flow { addr := 0, appId := 1, posInfo := [⟨-1, 0x0a⟩] } := by
  refine ⟨_, rfl, (dpi_reads_within_iff (tcpPacket _) {} _ _ rfl ?_).mp ?_⟩
  · intro info hinfo
    rw [List.mem_singleton.mp hinfo]
    decide
  · refine ⟨?_, dpiHttpsProto_within _, dpiDnsProto_within _, ?_, kMemstr_within _⟩
    · unfold Rd.Within
      decide +kernel
    · unfold Rd.Within
      decide +kernel

/-- **A `\r` as the last payload byte is enough**: `dpi_http_proto` reads the byte behind the
payload. -/
theorem dpi_reads_past_the_end :
    ∃ flow, parseFlowProto (tcpPacket (ascii "GET / HTTP/1.1 \x0d")) {} = some flow ∧
      flow.l4Len ∈ (dpiHttpProto flow).reads flow.l4Data ∧
        ∀ node, ¬ ReadsWithin flow node := by
  refine ⟨_, rfl, ?_, fun node h => ?_⟩
  · decide +kernel
  · have hread := h.http 16 (by decide +kernel)
    exact absurd hread.2 (by decide +kernel)

end Oaf
