/-
# The packet parsers and payload matchers

`parse_flow_proto`, the three protocol parsers (`dpi_http_proto`, `dpi_https_proto`,
`dpi_dns_proto`) and the matchers that look at the payload itself (`af_match_by_pos`,
`k_memstr`).  All of them are `Rd` computations: they read payload bytes at offsets from
`l4_data` and log every offset.

A loop over a C `int` index takes the number of iterations it can still make as a structural
argument; the loop test of the source stays in the body.
-/
import Mathlib.Algebra.Ring.Int.Defs
import Oaf.Feature
import Oaf.Lib.Rd

namespace Oaf

open CLib

/-! ## 1. `parse_flow_proto` -/

def ETH_P_IP : UInt16 := 0x0800
def ETH_P_IPV6 : UInt16 := 0x86DD

/-- A packet: its link-layer protocol and the bytes from its network header on. -/
structure Skb where
  protocol : UInt16
  network : Mem

/-- Two bytes in network order. -/
def ntohs (m : Mem) (i : Int) : UInt16 := (m i).toUInt16 <<< 8 ||| (m (i + 1)).toUInt16

def be32 (m : Mem) (i : Int) : UInt32 :=
  (ntohs m i).toUInt32 <<< 16 ||| (ntohs m (i + 2)).toUInt32

def bytesAt (m : Mem) (i : Int) (n : Nat) : List UInt8 :=
  (List.range n).map fun k : Nat => m (i + k)

/-- The transport header at `ipp`: for TCP the payload starts behind `doff * 4` bytes of it,
for UDP behind 8, and its length comes from the headers, not from the packet. -/
def parseTransport (m : Mem) (ipp ippLen : Int) (flow : FlowInfo) : Option FlowInfo :=
  if flow.l4Protocol = IPPROTO_TCP then
    let doff : Int := (m (ipp + 12) >>> 4).toNat
    some { flow with
      l4Len := ippLen - doff * 4
      l4Data := fun i => m (ipp + doff * 4 + i)
      dport := ntohs m (ipp + 2)
      sport := ntohs m ipp }
  else if flow.l4Protocol = IPPROTO_UDP then
    some { flow with
      l4Len := ((ntohs m (ipp + 4)).toNat : Int) - 8
      l4Data := fun i => m (ipp + 8 + i)
      dport := ntohs m (ipp + 2)
      sport := ntohs m ipp }
  else none

/-- `parse_flow_proto`; `none` is its `-1`. -/
def parseFlowProto (skb : Skb) (flow : FlowInfo) : Option FlowInfo :=
  let m := skb.network
  if skb.protocol = ETH_P_IP then
    let ihl : Int := (m 0 &&& 0x0F).toNat
    let flow := { flow with
      src := be32 m 12
      dst := be32 m 16
      l4Protocol := (m 9).toUInt32 }
    parseTransport m (ihl * 4) ((ntohs m 2).toNat - ihl * 4) flow
  else if skb.protocol = ETH_P_IPV6 then
    let flow := { flow with
      src6 := some (bytesAt m 8 16)
      dst6 := some (bytesAt m 24 16)
      l4Protocol := (m 6).toUInt32 }
    parseTransport m 40 (ntohs m 4).toNat flow
  else none

/-! ## 2. `dpi_https_proto` -/

def HTTPS_URL_OFFSET : Int := 9
def HTTPS_LEN_OFFSET : Int := 7
def MIN_HTTP_DATA_LEN : Int := 16

/-- A byte `check_domain` lets pass. -/
def isDomainByte (c : UInt8) : Bool :=
  (97 ≤ c && c ≤ 122) || (65 ≤ c && c ≤ 90) || (48 ≤ c && c ≤ 57) || c == 46 || c == 45 || c == 58

/-- `check_domain`: stops at the first byte that does not pass. -/
def checkDomain : Int → Nat → Rd Bool
  | _, 0 => pure true
  | h, len + 1 => do
    let c ← Rd.get h
    if isDomainByte c then checkDomain (h + 1) len else pure false

/-- The TLS record of a `ClientHello`: `p[0] == 0x16 && p[1] == 0x03 && p[5] == 0x01`. -/
def isClientHello : Rd Bool := ((Rd.is 0 0x16).and (Rd.is 1 0x03)).and (Rd.is 5 0x01)

/-- `p[i] == 0 && p[i+1] == 0 && p[i+2] == 0 && p[i+3] != 0`. -/
def isSniMark (i : Int) : Rd Bool :=
  (((Rd.is i 0).and (Rd.is (i + 1) 0)).and (Rd.is (i + 2) 0)).and
    (do pure ((← Rd.get (i + 3)) != 0))

/-- The two length bytes before a name, in network order. -/
def sniLen (i : Int) : Rd Nat := do
  let hi ← Rd.get (i + HTTPS_LEN_OFFSET)
  let lo ← Rd.get (i + HTTPS_LEN_OFFSET + 1)
  pure (hi.toNat * 256 + lo.toNat)

/-- What one mark leads to: the length of the name behind it, when that is a name. -/
def sniAt (dataLen i : Int) : Rd (Option Nat) := do
  if ← isSniMark i then
    let urlLen ← sniLen i
    if urlLen ≤ MIN_HOST_LEN ∨ dataLen < urlLen ∨ MAX_HOST_LEN < urlLen then pure none
    else if i + HTTPS_URL_OFFSET + urlLen < dataLen then
      if ← checkDomain (i + HTTPS_URL_OFFSET) urlLen then pure (some urlLen) else pure none
    else pure none
  else pure none

/-- The scan for the server name. -/
def dpiHttpsLoop (dataLen : Int) (flow : FlowInfo) : Nat → Int → Rd (Int × FlowInfo)
  | 0, _ => pure (-1, flow)
  | fuel + 1, i =>
    if i < dataLen then
      if dataLen ≤ i + HTTPS_URL_OFFSET then pure (-1, { flow with clientHello := true })
      else do
        match ← sniAt dataLen i with
        | some urlLen => pure (0, { flow with
            https := { matched := true, urlPos := some (i + HTTPS_URL_OFFSET), urlLen := urlLen }
            clientHello := false })
        | none => dpiHttpsLoop dataLen flow fuel (i + 1)
    else pure (-1, flow)

/-- `dpi_https_proto`: its return value, and the flow it leaves. -/
def dpiHttpsProto (flow : FlowInfo) : Rd (Int × FlowInfo) :=
  if flow.l4Len < MIN_HTTP_DATA_LEN then pure (-1, flow)
  else do
    let hello ← isClientHello
    if hello ∨ flow.clientHello then dpiHttpsLoop flow.l4Len flow flow.l4Len.toNat 0
    else pure (-1, flow)

/-! ## 3. `dpi_http_proto` -/

def HTTP_METHOD_GET : Nat := 1
def HTTP_METHOD_POST : Nat := 2

/-- `data[i] == 0x0d && data[i + 1] == 0x0a`. -/
def isCrlf (i : Int) : Rd Bool := (Rd.is i 0x0d).and (Rd.is (i + 1) 0x0a)

/-- One header line: the bytes from `start` to the line end at `i`. -/
def dpiHttpLine (http : HttpProto) (start i : Int) : Rd HttpProto := do
  if ← Rd.memEq start (ascii "POST ") then
    pure { http with matched := true, method := HTTP_METHOD_POST,
                     urlPos := some (start + 5), urlLen := i - start - 5 }
  else if ← Rd.memEq start (ascii "GET ") then
    pure { http with matched := true, method := HTTP_METHOD_GET,
                     urlPos := some (start + 4), urlLen := i - start - 4 }
  else if ← Rd.memEq start (ascii "Host:") then
    pure { http with hostPos := some (start + 6), hostLen := i - start - 6 }
  else pure http

/-- The scan over the header lines, up to the first blank one. -/
def dpiHttpLoop (dataLen : Int) : Nat → HttpProto → Int → Int → Rd HttpProto
  | 0, http, _, _ => pure http
  | fuel + 1, http, i, start =>
    if i < dataLen then do
      if ← isCrlf i then
        let http ← dpiHttpLine http start i
        if ← isCrlf (i + 2) then
          pure { http with dataPos := some (i + 4), dataLen := dataLen - i - 4 }
        else dpiHttpLoop dataLen fuel http (i + 1) (i + 2)
      else dpiHttpLoop dataLen fuel http (i + 1) start
    else pure http

/-- `dpi_http_proto`. -/
def dpiHttpProto (flow : FlowInfo) : Rd FlowInfo :=
  if flow.l4Protocol ≠ IPPROTO_TCP then pure flow
  else if flow.l4Len < MIN_HTTP_DATA_LEN then pure flow
  else do
    let http ← dpiHttpLoop flow.l4Len flow.l4Len.toNat flow.http 0 0
    pure { flow with http := http }

/-! ## 4. `dpi_dns_proto` -/

def DNS_PORT : UInt16 := 53
def DNS_HEADER_LEN : Int := 12
def DNS_TCP_PREFIX_LEN : Int := 2

/-- Two payload bytes as one number, the first one high. -/
def readWord (i : Int) : Rd Nat := do
  let hi ← Rd.get i
  let lo ← Rd.get (i + 1)
  pure (hi.toNat * 256 + lo.toNat)

/-- The bytes of one label, lower-cased; `none` when `domain` has no room for one of them. -/
def dnsLabel (payload : Int) : Nat → Int → List UInt8 → Rd (Option (List UInt8))
  | 0, _, out => pure (some out)
  | n + 1, offset, out => do
    let c ← Rd.get (payload + offset)
    if MAX_DNS_DOMAIN_LEN - 1 ≤ out.length then pure none
    else dnsLabel payload n (offset + 1) (out ++ [tolower c])

/-- The label loop of `af_parse_dns_query_name`: the offset behind the name, and the name. -/
def dnsLabels (payload dnsLen : Int) : Nat → Int → List UInt8 → Rd (Option (Int × List UInt8))
  | 0, offset, out => pure (some (offset, out))
  | fuel + 1, offset, out =>
    if offset < dnsLen then do
      let labelLen ← Rd.get (payload + offset)
      if labelLen = 0 then pure (some (offset + 1, out))
      else if labelLen &&& 0xC0 ≠ 0 then pure none
      else if 63 < labelLen.toNat ∨ dnsLen < offset + 1 + labelLen.toNat then pure none
      else if 0 < out.length ∧ MAX_DNS_DOMAIN_LEN - 1 ≤ out.length then pure none
      else
        let out := if 0 < out.length then out ++ [46] else out
        match ← dnsLabel payload labelLen.toNat (offset + 1) out with
        | some out => dnsLabels payload dnsLen fuel (offset + 1 + labelLen.toNat) out
        | none => pure none
    else pure (some (offset, out))

/-- `af_parse_dns_query_name`: name, type and the offset of the next query; `none` is `-1`. -/
def afParseDnsQueryName (payload dnsLen queryOffset : Int) : Rd (Option (CStr × UInt16 × Int)) :=
  if queryOffset < DNS_HEADER_LEN then pure none
  else if dnsLen ≤ DNS_HEADER_LEN ∨ dnsLen ≤ queryOffset then pure none
  else do
    match ← dnsLabels payload dnsLen dnsLen.toNat queryOffset [] with
    | none => pure none
    | some (offset, out) =>
      if out.length = 0 then pure none
      else if dnsLen < offset + 4 then pure none
      else
        let qtype ← readWord (payload + offset)
        pure (some (CStr.ofBytes out, qtype.toUInt16, offset + 4))

/-- The query loop: at most `n` queries, up to the first one that does not parse. -/
def dnsQueries (payload dnsLen : Int) : Nat → Int → Rd (List (CStr × UInt16))
  | 0, _ => pure []
  | n + 1, offset => do
    match ← afParseDnsQueryName payload dnsLen offset with
    | none => pure []
    | some (name, qtype, next) =>
      let rest ← dnsQueries payload dnsLen n next
      pure ((name, qtype) :: rest)

/-- `dpi_dns_proto` from the DNS header on. -/
def dpiDnsMessage (flow : FlowInfo) (payload dnsLen : Int) : Rd (Int × FlowInfo) := do
  let flags ← readWord (payload + 2)
  let qdcount ← readWord (payload + 4)
  if flags.toUInt16 &&& 0x8000 ≠ 0 ∨ qdcount = 0 then pure (-1, flow)
  else
    let queries ← dnsQueries payload dnsLen (min qdcount MAX_DNS_QUERY_NUM) DNS_HEADER_LEN
    let dns := { flow.dns with qdcount := qdcount }
    if queries.isEmpty then pure (-1, { flow with dns := dns })
    else pure (0, { flow with dns := { dns with matched := true, queries := queries } })

/-- `dpi_dns_proto`: over TCP the message sits behind its two length bytes. -/
def dpiDnsProto (flow : FlowInfo) : Rd (Int × FlowInfo) :=
  if flow.l4Len ≤ DNS_HEADER_LEN then pure (-1, flow)
  else if flow.sport ≠ DNS_PORT ∧ flow.dport ≠ DNS_PORT then pure (-1, flow)
  else if flow.l4Protocol = IPPROTO_TCP then
    if flow.l4Len ≤ DNS_TCP_PREFIX_LEN + DNS_HEADER_LEN then pure (-1, flow)
    else do
      let msgLen ← readWord 0
      if msgLen = 0 ∨ flow.l4Len - DNS_TCP_PREFIX_LEN < msgLen then pure (-1, flow)
      else dpiDnsMessage flow DNS_TCP_PREFIX_LEN msgLen
  else if flow.l4Protocol ≠ IPPROTO_UDP then pure (-1, flow)
  else dpiDnsMessage flow 0 flow.l4Len

/-! ## 5. `k_memstr`, `af_match_by_pos` and `is_quic_flow` -/

/-- The scan of `k_memstr` from `p` on: one comparison of the whole text at every place. -/
def kMemstrLoop (str : List UInt8) (stop : Int) : Nat → Int → Rd Bool
  | 0, _ => pure false
  | fuel + 1, p =>
    if p ≤ stop then do
      if ← Rd.memEq p str then pure true else kMemstrLoop str stop fuel (p + 1)
    else pure false

/-- `k_memstr(data, str, size) != NULL`.  `search_str` has at most 31 bytes, so that the
source's `char len` holds its length. -/
def kMemstr (str : CStr) (size : Int) : Rd Bool :=
  let stop := size - str.strlen
  kMemstrLoop str.bytes stop (stop + 1).toNat 0

/-- A C `int` converted to `unsigned int`. -/
def toU32 (x : Int) : Int := x % 2 ^ 32

/-- The byte comparisons of `af_match_by_pos`: `pos` and `l4_len` are compared as unsigned. -/
def matchPosInfo (l4Len : Int) : List AfPosInfo → Rd Bool
  | [] => pure true
  | info :: rest => do
    let pos := if info.pos < 0 then toU32 (l4Len + info.pos) else toU32 info.pos
    if toU32 l4Len ≤ pos then pure false
    else if ← Rd.is pos info.value then matchPosInfo l4Len rest else pure false

/-- `af_match_by_pos`. -/
def afMatchByPos (flow : FlowInfo) (node : AfFeatureNode) : Rd Bool :=
  if 0 < node.posNum then do
    if ← matchPosInfo flow.l4Len (node.posInfo.take MAX_POS_INFO_PER_FEATURE) then
      if 0 < node.searchStr.strlen then kMemstr node.searchStr flow.l4Len else pure true
    else pure false
  else pure false

/-- `is_quic_flow`: a long header with a known version, or any long header to port 443. -/
def isQuicFlow (flow : FlowInfo) : Rd Bool :=
  if flow.l4Protocol ≠ IPPROTO_UDP then pure false
  else if flow.l4Len < 8 then pure false
  else do
    let first ← Rd.get 0
    if first &&& 0x80 ≠ 0 then
      let hi ← readWord 1
      let lo ← readWord 3
      let version := hi * 65536 + lo
      if version = 0x00000001 ∨ version = 0 ∨ version = 0x6b3343cf ∨ 0xff000000 ≤ version then
        pure true
      else pure (flow.dport = 443)
    else pure false

end Oaf
