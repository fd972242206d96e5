/-
# Matching a flow against the feature list

The three stages of `fwx_match_feature` behind the QUIC test: the automaton
(`af_match_url_feature_ac`), the regular expressions on DNS names
(`af_match_dns_regex_feature`) and the scan of the list (`af_match_non_url_feature`).

A `regexp_match` that wrote outside a class buffer has no result, and neither has what called
it: these functions return `none` then.
-/
import Oaf.Match.Hosts
import Oaf.Regexp.Model

namespace Oaf

open CLib

/-- What the nodes of a pattern hold when it is matched against a text. -/
abbrev RegexpMem := CStr → CStr → KmallocMem

variable (lib : KernelLib) (mem : RegexpMem)

/-- `regexp_match(reg, text)` as a condition: `-1` counts as true. -/
def regexpHit (reg text : CStr) : Option Bool :=
  (regexpMatch (mem reg text) reg text).map fun ret => decide (ret ≠ 0)

/-- The first element a condition holds of. -/
def firstHit {α : Type} (hit : α → Option Bool) : List α → Option (Option α)
  | [] => some none
  | a :: rest => do if ← hit a then return some a else firstHit hit rest

/-! ## 1. One feature -/

/-- The host part of `af_match_by_url`: the server name first, then the DNS names.  The second
result is `match_by_dns`. -/
def afMatchHost (flow : FlowInfo) (node : AfFeatureNode) : Option (Bool × Bool) := do
  let host := ((afGetFlowHost lib flow).map CStr.ofBytes).getD .empty
  let hit ←
    if 0 < host.strlen ∧ 0 < node.hostUrl.strlen then regexpHit mem node.hostUrl host
    else some false
  if hit then return (true, flow.matchByDns)
  else if 0 < node.hostUrl.strlen then
    match ← firstHit (fun domain => regexpHit mem node.hostUrl (.ofBytes domain))
        (dnsDomains flow) with
    | some _ => return (true, true)
    | none => return (false, flow.matchByDns)
  else return (false, flow.matchByDns)

/-- `af_match_by_url`. -/
def afMatchByUrl (flow : FlowInfo) (node : AfFeatureNode) : Option (Bool × Bool) := do
  let (hit, matchByDns) ← afMatchHost lib mem flow node
  if hit then return (true, matchByDns)
  else
    match flow.http.matched, flow.http.urlPos with
    | true, some urlPos =>
      let request := CStr.ofBytes (bytesAt flow.l4Data urlPos (hostCopyLen flow.http.urlLen))
      if 0 < request.strlen ∧ 0 < node.requestUrl.strlen then
        return (← regexpHit mem node.requestUrl request, matchByDns)
      else return (false, matchByDns)
    | _, _ => return (false, matchByDns)

/-- `af_match_one`. -/
def afMatchOne (flow : FlowInfo) (node : AfFeatureNode) : Option (Bool × Bool) :=
  if !afMatchBasicCond flow node then some (false, flow.matchByDns)
  else if 0 < node.requestUrl.strlen ∨ 0 < node.hostUrl.strlen then
    afMatchByUrl lib mem flow node
  else if 0 < node.posNum then
    some ((afMatchByPos flow node).val flow.l4Data, flow.matchByDns)
  else some (true, flow.matchByDns)

/-! ## 2. The list -/

/-- `af_match_dns_regex_feature`: names in the order of the queries, and for each name the
features in the order of the list. -/
def afMatchDnsRegexFeature (afFeatureHead : List AfFeatureNode) :
    List (List UInt8) → Option (Option AfFeatureNode)
  | [] => some none
  | domain :: rest => do
    let hit := fun (node : AfFeatureNode) =>
      if node.hostUrl.strlen = 0 || !afIsRegexHostPattern node.hostUrl then some false
      else regexpHit mem node.hostUrl (.ofBytes domain)
    match ← firstHit hit afFeatureHead with
    | some node => return some node
    | none => afMatchDnsRegexFeature afFeatureHead rest

/-- `af_match_non_url_feature`: the features the automaton has judged already are passed over. -/
def afMatchNonUrlFeature (flow : FlowInfo) :
    List AfFeatureNode → Option (Option (AfFeatureNode × Bool))
  | [] => some none
  | node :: rest =>
    if 0 < node.hostUrl.strlen ∧ afIsRegexHostPattern node.hostUrl = false ∧
        node.requestUrl.strlen = 0 then afMatchNonUrlFeature flow rest
    else do
      match ← afMatchOne lib mem flow node with
      | (true, matchByDns) => return some (node, matchByDns)
      | (false, _) => afMatchNonUrlFeature flow rest

/-! ## 3. `fwx_match_feature` -/

/-- The flow with a feature found for it. -/
def FlowInfo.identified (flow : FlowInfo) (node : AfFeatureNode) (matchByDns : Bool) : FlowInfo :=
  { flow with appId := node.appId, feature := some node, matchByDns := matchByDns }

/-- `fwx_match_feature`: its return value and the flow it leaves. -/
def fwxMatchFeature (g : AfUrlAc) (afFeatureHead : List AfFeatureNode) (flow : FlowInfo) :
    Option (Bool × FlowInfo) :=
  let flow := { flow with matchByDns := false }
  if (isQuicFlow flow).val flow.l4Data then some (true, { flow with appId := FWX_QUIC_PROTO })
  else do
    let url ← afMatchUrlFeatureAc lib g flow {}
    match url.node with
    | some node => return (true, flow.identified node url.matchByDns)
    | none =>
      match ← afMatchDnsRegexFeature mem afFeatureHead (dnsDomains flow) with
      | some node => return (true, flow.identified node true)
      | none =>
        match ← afMatchNonUrlFeature lib mem flow afFeatureHead with
        | some (node, matchByDns) => return (true, flow.identified node matchByDns)
        | none => return (false, flow)

end Oaf
