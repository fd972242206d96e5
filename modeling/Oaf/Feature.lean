/-
# Features and flows: the data of the kernel module

`AfFeatureNode` is one entry of `af_feature_head`; `FlowInfo` is what the hooks know about the
packet at hand (`fwx.h`).  A pointer into the payload (`url_pos`, `host_pos`, `data_pos`) is an
offset from `l4_data`, and the payload itself is the memory around that pointer: a byte for
EVERY offset, also before the payload and behind its end, so that a read outside the packet
is a read of something the packet does not determine.

A node's address is its identity.  Two features with the same texts are still two list entries,
and the automaton's output items point at one of them.
-/
import Mathlib.Algebra.GroupWithZero.Nat
import Oaf.Lib.CStr

namespace Oaf

open CLib

/-! ## 1. Limits and protocol numbers (`fwx.h`) -/

def MAX_POS_INFO_PER_FEATURE : Nat := 16
def MAX_PORT_RANGE_NUM : Nat := 5
def MAX_FEATURE_STR_LEN : Nat := 128
def MIN_FEATURE_STR_LEN : Nat := 8
def MAX_FEATURE_LINE_LEN : Nat := 800
def MAX_SEARCH_STR_LEN : Nat := 32
def MAX_URL_MATCH_LEN : Nat := 64
def MAX_HOST_LEN : Nat := 40
def MIN_HOST_LEN : Nat := 4
def MAX_DNS_QUERY_NUM : Nat := 16
def MAX_DNS_DOMAIN_LEN : Nat := 128
def IPPROTO_TCP : UInt32 := 6
def IPPROTO_UDP : UInt32 := 17
def FWX_QUIC_PROTO : UInt32 := 10

/-! ## 2. Features -/

/-- `range_value_t`.  `neg` is the source's field `not`. -/
structure RangeValue where
  neg : Bool := false
  start : Int := 0
  stop : Int := 0
deriving DecidableEq, Repr

/-- `port_info_t`: the first `num` entries of `range_list`. -/
structure PortInfo where
  rangeList : List RangeValue := []
deriving DecidableEq, Repr

def PortInfo.num (info : PortInfo) : Nat := info.rangeList.length

/-- `af_pos_info_t`: one payload byte to compare, counted from the end when `pos < 0`. -/
structure AfPosInfo where
  pos : Int
  value : UInt8
deriving DecidableEq, Repr

/-- `af_feature_node_t`.  `addr` is the node's address in memory. -/
structure AfFeatureNode where
  addr : Nat
  appId : UInt32
  appName : CStr := .empty
  feature : CStr := .empty
  proto : UInt32 := 0
  sport : UInt32 := 0
  dportInfo : PortInfo := {}
  hostUrl : CStr := .empty
  requestUrl : CStr := .empty
  searchStr : CStr := .empty
  ignore : Int := 0
  posInfo : List AfPosInfo := []
deriving DecidableEq

def AfFeatureNode.posNum (node : AfFeatureNode) : Nat := node.posInfo.length

/-! ## 3. Flows -/

/-- `http_proto_t`, with positions as offsets from `l4_data`. -/
structure HttpProto where
  matched : Bool := false
  method : Nat := 0
  urlPos : Option Int := none
  urlLen : Int := 0
  hostPos : Option Int := none
  hostLen : Int := 0
  dataPos : Option Int := none
  dataLen : Int := 0
deriving DecidableEq, Repr

/-- `https_proto_t`. -/
structure HttpsProto where
  matched : Bool := false
  urlPos : Option Int := none
  urlLen : Int := 0
deriving DecidableEq, Repr

/-- `dns_proto_t`: the first `query_num` names with their types. -/
structure DnsProto where
  matched : Bool := false
  qdcount : Int := 0
  queries : List (CStr × UInt16) := []
deriving DecidableEq

def DnsProto.queryNum (dns : DnsProto) : Nat := dns.queries.length

/-- `flow_info_t`. -/
structure FlowInfo where
  src : UInt32 := 0
  dst : UInt32 := 0
  src6 : Option (List UInt8) := none
  dst6 : Option (List UInt8) := none
  l4Protocol : UInt32 := 0
  sport : UInt16 := 0
  dport : UInt16 := 0
  l4Data : Int → UInt8 := fun _ => 0
  l4Len : Int := 0
  http : HttpProto := {}
  https : HttpsProto := {}
  dns : DnsProto := {}
  appId : UInt32 := 0
  drop : Bool := false
  ignore : Bool := false
  matchByDns : Bool := false
  clientHello : Bool := false
  feature : Option AfFeatureNode := none

/-! ## 4. The conditions every match shares -/

/-- `af_match_port`.  A list without a negated range is matched by being in some range; with
one, only the negated ranges are looked at, and the port must be in none of them. -/
def afMatchPort (info : PortInfo) (port : Int) : Bool :=
  if info.num = 0 then true
  else if info.rangeList.any (·.neg) then
    !info.rangeList.any (fun r => r.neg && r.start ≤ port && port ≤ r.stop)
  else
    info.rangeList.any (fun r => r.start ≤ port && port ≤ r.stop)

/-- `af_match_basic_cond`: protocol, source port and destination ports. -/
def afMatchBasicCond (flow : FlowInfo) (node : AfFeatureNode) : Bool :=
  if 0 < node.proto && flow.l4Protocol != node.proto then false
  else if node.sport != 0 && flow.sport.toUInt32 != node.sport then false
  else afMatchPort node.dportInfo flow.dport.toNat

/-- `af_is_regex_host_pattern`: starts with `^` and holds both a `*` and a `$`. -/
def afIsRegexHostPattern (hostUrl : CStr) : Bool :=
  if hostUrl.get 0 = 0 then false
  else if hostUrl.get 0 ≠ 94 then false
  else if !hostUrl.strchr 42 then false
  else if !hostUrl.strchr 36 then false
  else true

/-- A feature the automaton indexes: `host_url` is there and is no regular expression. -/
def AfFeatureNode.literalHost (node : AfFeatureNode) : Bool :=
  node.hostUrl.strlen != 0 && !afIsRegexHostPattern node.hostUrl

theorem AfFeatureNode.literalHost_ne_nil {node : AfFeatureNode} (h : node.literalHost = true) :
    node.hostUrl.bytes ≠ [] := by
  intro h0
  simp [AfFeatureNode.literalHost, CStr.strlen, h0] at h

end Oaf
