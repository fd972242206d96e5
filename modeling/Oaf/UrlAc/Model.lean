/-
# The URL automaton as the kernel module computes it

`g_url_ac` and its functions (`fwx_main.c`, `af_ac_alloc_node` to `af_match_url_text_ac`),
statement by statement.  Nothing is proved here.

* Nodes live in `node_list`, in allocation order, and a pointer to a node is its place there.
  The only `list_del` outside a reset takes the node just added at the tail back, so places
  never move.
* `kzalloc(.., GFP_ATOMIC)` can fail.  `Kmem` is the allocator: its answers are an arbitrary
  sequence, consumed in program order.
* A `while` over fail pointers, and the breadth-first queue, are unbounded loops in C.  Here they
  carry a fuel argument and answer `none` when it runs out, or when a pointer that the loop
  dereferences is NULL.  So `some` means: the C loop returned.
-/
import Oaf.Feature
import Oaf.Lib.Kmem

namespace Oaf

open CLib

/-! ## 1. The data -/

/-- `af_ac_edge_t`. -/
structure AfAcEdge where
  ch : UInt8
  next : Nat
deriving DecidableEq, Repr

/-- `struct af_ac_node`. -/
structure AfAcNode where
  edges : List AfAcEdge := []
  outputList : List AfFeatureNode := []
  fail : Option Nat := none

/-- `af_url_ac_t`. -/
structure AfUrlAc where
  root : Option Nat := none
  nodeList : List AfAcNode := []
  nodeCount : Nat := 0
  edgeCount : Nat := 0
  outputCount : Nat := 0
  ready : Bool := false

/-- `af_ac_match_stat_t`. -/
structure AfAcMatchStat where
  acStateSteps : Nat := 0
  acFailJumps : Nat := 0
  acCandidateChecks : Nat := 0
  acMatchCount : Nat := 0
  fallbackChecks : Nat := 0
deriving DecidableEq, Repr

namespace AfUrlAc

def modifyNode (g : AfUrlAc) (i : Nat) (f : AfAcNode → AfAcNode) : AfUrlAc :=
  { g with nodeList := g.nodeList.modify i f }

end AfUrlAc

/-! ## 2. Building the trie -/

/-- `af_ac_alloc_node`: the new node goes to the tail of `node_list`. -/
def afAcAllocNode (g : AfUrlAc) (m : Kmem) : Option Nat × AfUrlAc × Kmem :=
  let (ok, m) := m.kzalloc
  if ok then
    (some g.nodeList.length,
      { g with nodeList := g.nodeList ++ [{}], nodeCount := g.nodeCount + 1 }, m)
  else (none, g, m)

/-- `af_ac_find_next`. -/
def afAcFindNext (g : AfUrlAc) (node : Nat) (ch : UInt8) : Option Nat :=
  match g.nodeList[node]? with
  | none => none
  | some n => (n.edges.find? (fun edge => edge.ch == ch)).map (·.next)

/-- `af_ac_get_or_create_next`.  When the edge cannot be allocated the new child is taken
back. -/
def afAcGetOrCreateNext (g : AfUrlAc) (m : Kmem) (node : Nat) (ch : UInt8) :
    Option Nat × AfUrlAc × Kmem :=
  match afAcFindNext g node ch with
  | some child => (some child, g, m)
  | none =>
    match afAcAllocNode g m with
    | (none, g, m) => (none, g, m)
    | (some child, g, m) =>
      let (ok, m) := m.kzalloc
      if ok then
        let g := g.modifyNode node (fun n => { n with edges := ⟨ch, child⟩ :: n.edges })
        (some child, { g with edgeCount := g.edgeCount + 1 }, m)
      else
        (none, { g with nodeList := g.nodeList.eraseIdx child, nodeCount := g.nodeCount - 1 }, m)

/-- `af_ac_add_output`. -/
def afAcAddOutput (g : AfUrlAc) (m : Kmem) (node : Nat) (feature : AfFeatureNode) :
    Int × AfUrlAc × Kmem :=
  let (ok, m) := m.kzalloc
  if ok then
    let g := g.modifyNode node (fun n => { n with outputList := n.outputList ++ [feature] })
    (0, { g with outputCount := g.outputCount + 1 }, m)
  else (-1, g, m)

/-- `af_ac_reset_locked` followed by `INIT_LIST_HEAD`. -/
def afAcResetLocked (_ : AfUrlAc) : AfUrlAc := {}

/-- The loop of `af_ac_insert_pattern`: one node down for each byte. -/
def insertWalk (g : AfUrlAc) (m : Kmem) (cur : Nat) : List UInt8 → Option Nat × AfUrlAc × Kmem
  | [] => (some cur, g, m)
  | ch :: rest =>
    match afAcGetOrCreateNext g m cur ch with
    | (none, g, m) => (none, g, m)
    | (some child, g, m) => insertWalk g m child rest

/-- `af_ac_insert_pattern`. -/
def afAcInsertPattern (g : AfUrlAc) (m : Kmem) (feature : AfFeatureNode) :
    Int × AfUrlAc × Kmem :=
  match g.root with
  | none => (-1, g, m)
  | some root =>
    if feature.hostUrl.strlen = 0 then (0, g, m)
    else
      match insertWalk g m root feature.hostUrl.bytes with
      | (none, g, m) => (-1, g, m)
      | (some cur, g, m) => afAcAddOutput g m cur feature

/-! ## 3. Fail links -/

/-- The `while (fail != root)` loop of `af_ac_build_fail_links_locked` with the lookup at the
root behind it: the `fallback` node, NULL being `some none`. -/
def failFallback (g : AfUrlAc) (root : Nat) (ch : UInt8) : Nat → Nat → Option (Option Nat)
  | fuel, fail =>
    if fail = root then some (afAcFindNext g root ch)
    else
      match fuel with
      | 0 => none
      | fuel + 1 =>
        match afAcFindNext g fail ch with
        | some fallback => some (some fallback)
        | none =>
          match g.nodeList[fail]? with
          | some { fail := some next, .. } => failFallback g root ch fuel next
          | _ => none

/-- The inner `hlist_for_each_entry` over one node's edges.  It sets each child's fail link
and appends the child to the queue. -/
def failEdges (root : Nat) (curFail : Nat) : AfUrlAc → List AfAcEdge → Option (AfUrlAc × List Nat)
  | g, [] => some (g, [])
  | g, edge :: rest => do
    let fallback ← failFallback g root edge.ch g.nodeList.length curFail
    let g := g.modifyNode edge.next (fun n => { n with fail := some (fallback.getD root) })
    let (g, queue) ← failEdges root curFail g rest
    return (g, edge.next :: queue)

/-- The loop `while (head < tail)`; `queue` is what lies between `head` and `tail`. -/
def failQueue (root : Nat) : Nat → AfUrlAc → List Nat → Option AfUrlAc
  | _, g, [] => some g
  | 0, _, _ :: _ => none
  | fuel + 1, g, cur :: queue =>
    match g.nodeList[cur]? with
    | some { edges := edges, fail := some curFail, .. } => do
      let (g, pushed) ← failEdges root curFail g edges
      failQueue root fuel g (queue ++ pushed)
    | some { edges := [], .. } => failQueue root fuel g queue
    | _ => none

/-- The first loop: the root's children fail to the root and start the queue. -/
def failRootEdges (root : Nat) (g : AfUrlAc) (edges : List AfAcEdge) : AfUrlAc × List Nat :=
  (edges.foldl (fun g edge => g.modifyNode edge.next (fun n => { n with fail := some root })) g,
    edges.map (·.next))

/-- `af_ac_build_fail_links_locked`. -/
def afAcBuildFailLinksLocked (g : AfUrlAc) (m : Kmem) : Option (Int × AfUrlAc × Kmem) :=
  match g.root with
  | none => some (0, g, m)
  | some root =>
    if g.nodeCount = 0 then some (0, g, m)
    else
      let (ok, m) := m.kzalloc
      if !ok then some (-1, g, m)
      else do
        let g := g.modifyNode root (fun n => { n with fail := some root })
        let edges := (g.nodeList[root]?.map (·.edges)).getD []
        let (g, queue) := failRootEdges root g edges
        let g ← failQueue root g.nodeList.length g queue
        return (0, g, m)

/-! ## 4. The rebuild -/

/-- The `list_for_each_entry` of `af_rebuild_url_ac_locked`.  A failed insertion is logged and
the loop goes on. -/
def insertAll (g : AfUrlAc) (m : Kmem) : List AfFeatureNode → AfUrlAc × Kmem
  | [] => (g, m)
  | node :: rest =>
    if node.hostUrl.strlen = 0 then insertAll g m rest
    else if afIsRegexHostPattern node.hostUrl then insertAll g m rest
    else
      let (_ret, g, m) := afAcInsertPattern g m node
      insertAll g m rest

/-- What `af_rebuild_url_ac_locked` leaves: its return value, the automaton, the dirty flag and
the allocator. -/
structure RebuildResult where
  ret : Int
  g : AfUrlAc
  dirty : Bool
  m : Kmem

/-- `af_rebuild_url_ac_locked`. -/
def afRebuildUrlAcLocked (g : AfUrlAc) (m : Kmem) (afFeatureHead : List AfFeatureNode) :
    Option RebuildResult :=
  let g := afAcResetLocked g
  match afAcAllocNode g m with
  | (none, g, m) => some ⟨-1, { g with root := none, ready := false }, true, m⟩
  | (some root, g, m) =>
    let (g, m) := insertAll { g with root := some root } m afFeatureHead
    match afAcBuildFailLinksLocked g m with
    | none => none
    | some (ret, g, m) =>
      if ret < 0 then some ⟨-1, { g with ready := false }, true, m⟩
      else some ⟨0, { g with ready := true }, false, m⟩

/-! ## 5. Matching a text -/

/-- The `while (!next && state != root)` loop and the assignment behind it: the next state and
the number of fail jumps. -/
def acNextState (g : AfUrlAc) (root : Nat) (ch : UInt8) : Nat → Nat → Nat → Option (Nat × Nat)
  | fuel, state, jumps =>
    match afAcFindNext g state ch with
    | some next => some (next, jumps)
    | none =>
      if state = root then some (root, jumps)
      else
        match fuel with
        | 0 => none
        | fuel + 1 =>
          match g.nodeList[state]? with
          | some { fail := some next, .. } => acNextState g root ch fuel next (jumps + 1)
          | _ => none

/-- The `list_for_each_entry` over one node's output items. -/
def acOutputs (flow : FlowInfo) (checkBasicCond : Bool) :
    AfAcMatchStat → List AfFeatureNode → Option AfFeatureNode × AfAcMatchStat
  | stat, [] => (none, stat)
  | stat, feature :: rest =>
    let stat := { stat with acCandidateChecks := stat.acCandidateChecks + 1 }
    if checkBasicCond && !afMatchBasicCond flow feature then acOutputs flow checkBasicCond stat rest
    else (some feature, { stat with acMatchCount := stat.acMatchCount + 1 })

/-- The loop `while (iter && iter != root)` over the state's fail chain. -/
def acOutputChain (g : AfUrlAc) (root : Nat) (flow : FlowInfo) (checkBasicCond : Bool) :
    Nat → Option Nat → AfAcMatchStat → Option (Option AfFeatureNode × AfAcMatchStat)
  | _, none, stat => some (none, stat)
  | fuel, some iter, stat =>
    if iter = root then some (none, stat)
    else
      match fuel with
      | 0 => none
      | fuel + 1 =>
        match g.nodeList[iter]? with
        | none => none
        | some n =>
          match acOutputs flow checkBasicCond stat n.outputList with
          | (some feature, stat) => some (some feature, stat)
          | (none, stat) => acOutputChain g root flow checkBasicCond fuel n.fail stat

/-- The `for` loop over the host bytes. -/
def acScan (g : AfUrlAc) (root : Nat) (flow : FlowInfo) (checkBasicCond : Bool) :
    Nat → AfAcMatchStat → List UInt8 → Option (Option AfFeatureNode × AfAcMatchStat)
  | _, stat, [] => some (none, stat)
  | state, stat, ch :: rest => do
    let (state, jumps) ← acNextState g root ch g.nodeList.length state 0
    let stat := { stat with acStateSteps := stat.acStateSteps + 1,
                            acFailJumps := stat.acFailJumps + jumps }
    match ← acOutputChain g root flow checkBasicCond g.nodeList.length (some state) stat with
    | (some feature, stat) => return (some feature, stat)
    | (none, stat) => acScan g root flow checkBasicCond state stat rest

/-- `af_match_url_text_ac`.  `hostBuf` is the buffer, `hostLen` how much of it is text. -/
def afMatchUrlTextAc (g : AfUrlAc) (flow : FlowInfo) (stat : AfAcMatchStat) (hostBuf : List UInt8)
    (hostLen : Int) (checkBasicCond : Bool) : Option (Option AfFeatureNode × AfAcMatchStat) :=
  if hostLen ≤ 0 || !g.ready then some (none, stat)
  else
    match g.root with
    | none => some (none, stat)
    | some root => acScan g root flow checkBasicCond root stat (hostBuf.take hostLen.toNat)

end Oaf
