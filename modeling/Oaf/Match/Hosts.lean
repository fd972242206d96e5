/-
# Names of a flow, and the automaton's search of them

How a name found by the parsers gets into the match buffer `char host_buf[MAX_URL_MATCH_LEN]`
(`af_get_flow_host`, `af_copy_dns_domain`), and `af_match_url_feature_ac`, which runs the
automaton over it.

The kernel's address parsers are not part of the module; `KernelLib` stands for them.
-/
import Oaf.Dpi.Model
import Oaf.Lib.CArray
import Oaf.UrlAc.Model

namespace Oaf

open CLib

/-! ## 1. IP literals -/

/-- The kernel library functions the module calls on names: `in4_pton(s, -1, ..) != 0` and
`in6_pton(s, -1, ..) != 0`. -/
structure KernelLib where
  in4Pton : CStr → Bool
  in6Pton : CStr → Bool

/-- No host reads as an address. -/
def noAddresses : KernelLib := ⟨fun _ => false, fun _ => false⟩

/-- `af_is_digit_str`. -/
def afIsDigitStr (str : List UInt8) : Bool := !str.isEmpty && str.all isdigit

def afIsIpv4Literal (lib : KernelLib) (str : CStr) : Bool := str.strlen != 0 && lib.in4Pton str

def afIsIpv6Literal (lib : KernelLib) (str : CStr) : Bool := str.strlen != 0 && lib.in6Pton str

/-- `af_is_ip_literal_host`: an address, an IPv6 address in brackets with anything behind them,
or an address with a port. -/
def afIsIpLiteralHost (lib : KernelLib) (host : CStr) : Bool :=
  if host.strlen = 0 then false
  else if host.get 0 = 91 then
    match host.bytes.tail.findIdx? (· == 93) with
    | none => false
    | some hostLen =>
      if hostLen = 0 ∨ MAX_URL_MATCH_LEN - 1 ≤ hostLen then false
      else afIsIpv6Literal lib (.ofBytes (host.bytes.tail.take hostLen))
  else if 1 < host.bytes.count 58 then afIsIpv6Literal lib host
  else
    let hostLen := host.bytes.findIdx (· == 58)
    if host.bytes.count 58 = 1 ∧ afIsDigitStr (host.bytes.drop (hostLen + 1)) then
      if hostLen = 0 ∨ MAX_URL_MATCH_LEN - 1 ≤ hostLen then false
      else
        let literal := CStr.ofBytes (host.bytes.take hostLen)
        afIsIpv4Literal lib literal || afIsIpv6Literal lib literal
    else afIsIpv4Literal lib host || afIsIpv6Literal lib host

/-! ## 2. Names in the match buffer -/

/-- A recognised name: where it starts in the payload, and its length. -/
def nameField (matched : Bool) (pos : Option Int) (len : Int) : Option (Int × Int) :=
  if matched ∧ 0 < len then pos.map fun p => (p, len) else none

/-- The server name of the TLS handshake, or else the host of the HTTP request. -/
def flowHostField (flow : FlowInfo) : Option (Int × Int) :=
  match nameField flow.https.matched flow.https.urlPos flow.https.urlLen with
  | some field => some field
  | none => nameField flow.http.matched flow.http.hostPos flow.http.hostLen

/-- `copy_len`: what the buffer takes of a name. -/
def hostCopyLen (len : Int) : Nat :=
  if (MAX_URL_MATCH_LEN : Int) - 1 ≤ len then MAX_URL_MATCH_LEN - 1 else len.toNat

/-- `af_get_flow_host`: the first `host_len` bytes of the buffer, or `none` for `-1`. -/
def afGetFlowHost (lib : KernelLib) (flow : FlowInfo) : Option (List UInt8) :=
  match flowHostField flow with
  | none => none
  | some (pos, len) =>
    let copyLen := hostCopyLen len
    let hostBuf := CArray.padded (CStr.ofBytes (bytesAt flow.l4Data pos copyLen)).bytes copyLen
    if afIsIpLiteralHost lib (.ofBytes hostBuf) then none else some hostBuf

/-- `af_copy_dns_domain`. -/
def afCopyDnsDomain (flow : FlowInfo) (index : Nat) : Option (List UInt8) :=
  if !flow.dns.matched ∨ MAX_DNS_QUERY_NUM ≤ index then none
  else
    match flow.dns.queries[index]? with
    | none => none
    | some (domain, _) =>
      if domain.strlen = 0 then none else some (domain.bytes.take (hostCopyLen domain.strlen))

/-- The DNS names the three matchers loop over, as they get into the buffer. -/
def dnsDomains (flow : FlowInfo) : List (List UInt8) :=
  (List.range (min flow.dns.queryNum MAX_DNS_QUERY_NUM)).filterMap (afCopyDnsDomain flow)

/-! ## 3. `af_match_url_feature_ac` -/

/-- The loop over the DNS names, without the basic condition. -/
def acDnsLoop (g : AfUrlAc) (flow : FlowInfo) :
    AfAcMatchStat → List (List UInt8) → Option (Option AfFeatureNode × AfAcMatchStat)
  | stat, [] => some (none, stat)
  | stat, hostBuf :: rest => do
    match ← afMatchUrlTextAc g flow stat hostBuf hostBuf.length false with
    | (some node, stat) => return (some node, stat)
    | (none, stat) => acDnsLoop g flow stat rest

/-- What `af_match_url_feature_ac` leaves: the feature, the counters and `match_by_dns`. -/
structure UrlFeatureMatch where
  node : Option AfFeatureNode
  stat : AfAcMatchStat
  matchByDns : Bool

/-- `af_match_url_feature_ac`. -/
def afMatchUrlFeatureAc (lib : KernelLib) (g : AfUrlAc) (flow : FlowInfo) (stat : AfAcMatchStat) :
    Option UrlFeatureMatch :=
  if !g.ready || g.root.isNone then some ⟨none, stat, flow.matchByDns⟩
  else do
    let (node, stat) ←
      match afGetFlowHost lib flow with
      | some hostBuf => afMatchUrlTextAc g flow stat hostBuf hostBuf.length true
      | none => some (none, stat)
    match node with
    | some node => return ⟨some node, stat, flow.matchByDns⟩
    | none =>
      match ← acDnsLoop g flow stat (dnsDomains flow) with
      | (some node, stat) => return ⟨some node, stat, true⟩
      | (none, stat) => return ⟨none, stat, flow.matchByDns⟩

/-- `dpi_main`. -/
def dpiMain (flow : FlowInfo) : FlowInfo :=
  let flow := (dpiHttpProto flow).val flow.l4Data
  let flow := ((dpiHttpsProto flow).val flow.l4Data).2
  ((dpiDnsProto flow).val flow.l4Data).2

end Oaf
