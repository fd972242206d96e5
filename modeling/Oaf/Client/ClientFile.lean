/-
# The clients as a file

The daemon learns of its clients from the file `af_client` under `/proc/net`, which lists the records of the client
table.  Its iterator finds a position by counting as well, but leaves the position as it was given.

* `clientList_counting`: it is an iterator that keeps the position.
* `client_list_complete`: **in every run** of the client table, in whatever calls the file is read, it shows each
  client once, and just those that are found by their address.

Left out are the columns that the table's records have no field for here, and the running number.
-/
import Oaf.Hook.Clients
import Oaf.Lib.Cursor
import Oaf.Lib.SeqFile

namespace Oaf

open CLib Chains Runs SeqFile

variable {w : Nat}

/-! ## 1. The iterator -/

/-- What the iterator is at: `SEQ_START_TOKEN`, or a node with those behind it in its bucket. -/
inductive ClientItem (w : Nat)
  | startToken
  | node (client : AfClient w) (behind : List (AfClient w))

/-- A line of the file. -/
inductive ClientLine
  | header
  | client (info : AfClientInfo)

/-- The pointer that is returned; no node for `NULL`. -/
def clientItem (c : Cursor (AfClient w)) : Option (ClientItem w) :=
  match c.node with
  | [] => none
  | client :: behind => some (.node client behind)

/-- `af_client_get_first`. -/
def afClientGetFirst (t : AfClientTable w) : Cursor (AfClient w) := firstChain t 0

/-- `af_client_get_next`. -/
def afClientGetNext (t : AfClientTable w) (c : Cursor (AfClient w)) : Cursor (AfClient w) := c.advance t

/-- The loop of `af_client_get_idx`. -/
def afClientSkip (t : AfClientTable w) : Nat → Cursor (AfClient w) → Cursor (AfClient w)
  | 0, c => c
  | pos + 1, c =>
    let c := afClientGetNext t c
    if c.node.isEmpty then c else afClientSkip t pos c

/-- `af_client_get_idx`. -/
def afClientGetIdx (t : AfClientTable w) (pos : Nat) : Cursor (AfClient w) :=
  let c := afClientGetFirst t
  if c.node.isEmpty then c else afClientSkip t pos c

/-- `af_client_seq_start`; the iterator has its bucket. -/
def afClientSeqStart (t : AfClientTable w) (bucket pos : Nat) : Option (ClientItem w) × Nat × Nat :=
  if pos = 0 then (some .startToken, bucket, 0)
  else
    let c := afClientGetIdx t (pos - 1)
    (clientItem c, c.bucket, pos)

/-- `af_client_seq_next`. -/
def afClientSeqNext (t : AfClientTable w) (bucket : Nat) (v : ClientItem w) (pos : Nat) :
    Option (ClientItem w) × Nat × Nat :=
  let c := match v with
    | .startToken => afClientGetIdx t 0
    | .node client behind => afClientGetNext t ⟨bucket, client :: behind⟩
  (clientItem c, c.bucket, pos + 1)

/-- `nf_client_seq_ops`, with what `af_client_seq_show` prints. -/
def clientSeqOps (t : AfClientTable w) : SeqOps Nat (ClientItem w) ClientLine where
  start := afClientSeqStart t
  next := afClientSeqNext t
  shown _ v := match v with
    | .startToken => .header
    | .node client _ => .client client.info

/-! ## 2. Where it stands -/

/-- The cursor has the clients from the `i`-th on in front of it. -/
structure Stands (t : AfClientTable w) (c : Cursor (AfClient w)) (i : Nat) : Prop where
  pending : c.pending t = (t.from 0).drop i
  ends : c.node = [] ↔ (t.from 0).length ≤ i

theorem stands_first (t : AfClientTable w) : Stands t (afClientGetFirst t) 0 where
  pending := pending_firstChain t 0
  ends := by rw [afClientGetFirst, firstChain_node_eq_nil_iff, Nat.le_zero, List.length_eq_zero_iff]

/-- One client further. -/
theorem stands_next {t : AfClientTable w} {bucket i : Nat} {client : AfClient w} {behind : List (AfClient w)}
    (h : (Cursor.mk bucket (client :: behind)).pending t = (t.from 0).drop i) :
    Stands t (afClientGetNext t ⟨bucket, client :: behind⟩) (i + 1) := by
  have htail : behind ++ t.from (bucket + 1) = (t.from 0).drop (i + 1) := by
    rw [← List.tail_drop, ← h]
    rfl
  refine ⟨?_, ?_⟩
  · rw [afClientGetNext, pending_advance rfl, htail]
  · rw [afClientGetNext, advance_node_eq_nil_iff rfl, htail, List.drop_eq_nil_iff]

/-- Behind the last one it stands at every position. -/
theorem Stands.past {t : AfClientTable w} {c : Cursor (AfClient w)} {i j : Nat} (h : Stands t c i)
    (hend : c.node = []) (hle : i ≤ j) : Stands t c j := by
  have hlen := h.ends.mp hend
  refine ⟨?_, iff_of_true hend (by omega)⟩
  rw [h.pending, List.drop_eq_nil_of_le hlen, List.drop_eq_nil_of_le (by omega)]

/-- Counting down to a position. -/
theorem stands_skip {t : AfClientTable w} (pos : Nat) {c : Cursor (AfClient w)} {i : Nat} (h : Stands t c i)
    (hnode : c.node ≠ []) : Stands t (afClientSkip t pos c) (i + pos) := by
  induction pos generalizing c i with
  | zero => exact h
  | succ pos ih =>
    obtain ⟨bucket, node⟩ := c
    obtain ⟨client, behind, rfl⟩ := List.exists_cons_of_ne_nil hnode
    have hnext := stands_next h.pending
    rw [afClientSkip]
    split
    · rename_i hempty
      exact hnext.past (List.isEmpty_iff.mp hempty) (by omega)
    · rename_i hmore
      have hsum : i + (pos + 1) = i + 1 + pos := by omega
      rw [hsum]
      exact ih hnext fun hnil => hmore (List.isEmpty_iff.mpr hnil)

theorem stands_idx (t : AfClientTable w) (pos : Nat) : Stands t (afClientGetIdx t pos) pos := by
  rw [afClientGetIdx]
  split
  · rename_i hempty
    exact (stands_first t).past (List.isEmpty_iff.mp hempty) (Nat.zero_le pos)
  · rename_i hmore
    have hskip := stands_skip pos (stands_first t) fun hnil => hmore (List.isEmpty_iff.mpr hnil)
    rwa [Nat.zero_add] at hskip

/-- The iterator is at a line. -/
inductive ClientListAt (t : AfClientTable w) : Nat → ClientItem w → Nat → Prop
  | token (bucket : Nat) : ClientListAt t bucket .startToken 0
  | node {bucket i : Nat} {client : AfClient w} {behind : List (AfClient w)}
      (pending : (Cursor.mk bucket (client :: behind)).pending t = (t.from 0).drop i) :
      ClientListAt t bucket (.node client behind) (i + 1)

theorem Stands.item {t : AfClientTable w} {c : Cursor (AfClient w)} {i : Nat} (h : Stands t c i)
    (hlt : i < (t.from 0).length) : ∃ v, clientItem c = some v ∧ ClientListAt t c.bucket v (i + 1) := by
  obtain ⟨bucket, node⟩ := c
  have hne : node ≠ [] := fun hnil => absurd (h.ends.mp hnil) (by omega)
  obtain ⟨client, behind, rfl⟩ := List.exists_cons_of_ne_nil hne
  exact ⟨_, rfl, .node h.pending⟩

theorem Stands.noItem {t : AfClientTable w} {c : Cursor (AfClient w)} {i : Nat} (h : Stands t c i)
    (hle : (t.from 0).length ≤ i) : clientItem c = none := by
  rw [clientItem, h.ends.mpr hle]

/-- The lines of the file. -/
def clientLinesOf (t : AfClientTable w) : List ClientLine :=
  .header :: (t.from 0).map fun client => .client client.info

/-- **The iterator keeps the position.** -/
theorem clientList_counting (t : AfClientTable w) :
    Counting (clientSeqOps t) (clientLinesOf t) (ClientListAt t) where
  start_of_lt bucket p hp := by
    cases p with
    | zero => exact ⟨.startToken, bucket, rfl, .token bucket⟩
    | succ i =>
      have hlt : i < (t.from 0).length := by simpa [clientLinesOf] using hp
      obtain ⟨v, hitem, hat⟩ := (stands_idx t i).item hlt
      exact ⟨v, (afClientGetIdx t i).bucket, congrArg (·, (afClientGetIdx t i).bucket, i + 1) hitem, hat⟩
  start_of_le bucket p hp := by
    cases p with
    | zero => cases hp
    | succ i =>
      have hle : (t.from 0).length ≤ i := by simpa [clientLinesOf] using hp
      exact ⟨_, _, congrArg (·, (afClientGetIdx t i).bucket, i + 1) ((stands_idx t i).noItem hle)⟩
  next_of_lt bucket v i pos hat hlt := by
    have hlen : i < (t.from 0).length := by simpa [clientLinesOf] using hlt
    cases hat with
    | token =>
      obtain ⟨v, hitem, hat⟩ := (stands_idx t 0).item hlen
      exact ⟨v, _, congrArg (·, (afClientGetIdx t 0).bucket, pos + 1) hitem, hat⟩
    | node hpending =>
      obtain ⟨v, hitem, hat⟩ := (stands_next hpending).item hlen
      exact ⟨v, _, congrArg (·, _, pos + 1) hitem, hat⟩
  next_of_le bucket v i pos hat hle := by
    have hlen : (t.from 0).length ≤ i := by simpa [clientLinesOf] using hle
    cases hat with
    | token => exact ⟨_, congrArg (·, (afClientGetIdx t 0).bucket, pos + 1) ((stands_idx t 0).noItem hlen)⟩
    | node hpending => exact ⟨_, congrArg (·, _, pos + 1) ((stands_next hpending).noItem hlen)⟩
  shown bucket v i hat := by
    cases hat with
    | token => rfl
    | @node i client behind hpending =>
      have hget : (t.from 0)[i]? = some client := by
        rw [← List.head?_drop, ← hpending]
        rfl
      rw [clientLinesOf, List.getElem?_cons_succ, List.getElem?_map, hget]
      rfl

/-! ## 3. Clients with one record -/

/-- Every record is in the bucket of its MAC, and no two of a bucket have the same. -/
structure OneRecord (t : AfClientTable w) : Prop where
  placed : Placed (fun c : AfClient w => getMacHashCode c.info.mac) t
  distinct : Distinct (fun c : AfClient w => c.info.mac) t

/-- One bucket is changed, and keeps its addresses. -/
theorem OneRecord.modify {t : AfClientTable w} (h : OneRecord t) (i : Fin MAX_AF_CLIENT_HASH_SIZE)
    {f : List (AfClient w) → List (AfClient w)}
    (hf : ((f (t i)).map fun c => c.info.mac) = (t i).map fun c => c.info.mac) : OneRecord (t.modify i f) := by
  refine ⟨h.placed.modify fun c hc => ?_, h.distinct.modify ?_⟩
  · have hmem : c.info.mac ∈ (t i).map fun c => c.info.mac := hf ▸ List.mem_map_of_mem hc
    obtain ⟨old, hold, hmac⟩ := List.mem_map.mp hmem
    rw [← hmac]
    exact h.placed i old hold
  · rw [hf]
    exact h.distinct i

theorem oneRecord_packet {gateway : Bool} {whitelist : MacConfig} {jiffies : BitVec w} {t : AfClientTable w}
    (h : OneRecord t) (pkt : ClientPacket) (kmalloc : Bool) :
    OneRecord (afClientHook gateway whitelist jiffies t pkt kmalloc) := by
  rw [afClientHook]
  split
  · exact h
  split
  · exact h.modify _ (map_updateFirst _ (fun node _ => seen_mac node pkt.source jiffies) _)
  · rename_i hnone
    split
    · -- the record is new: its bucket has none of this MAC
      have hnew : pkt.smac ∉ (t (getMacHashCode pkt.smac)).map fun c => c.info.mac := by
        intro hmem
        obtain ⟨old, hold, hmac⟩ := List.mem_map.mp hmem
        exact List.find?_eq_none.mp hnone old hold (beq_iff_eq.mpr hmac)
      refine ⟨h.placed.modify fun c hc => ?_, h.distinct.modify ?_⟩
      · rcases List.mem_cons.mp hc with rfl | hold
        · rw [seen_mac]
        · exact h.placed _ c hold
      · rw [List.map_cons, seen_mac]
        exact List.nodup_cons.mpr ⟨hnew, h.distinct _⟩
    · exact h

/-- Each event keeps it. -/
theorem oneRecord_step {gateway : Bool} {hz : Nat} {s t : ClientState w} {e : ClientEvent} (h : OneRecord s.table)
    (hstep : clientStep gateway hz s e t) : OneRecord t.table := by
  obtain rfl := hstep
  cases e with
  | packet pkt kmalloc => exact oneRecord_packet h pkt kmalloc
  | gatewayPacket src =>
    rw [ClientState.after, refreshByIp]
    split
    · refine h.modify _ (map_updateFirst (fun c : AfClient w => c.info.mac) ?_ _)
      intro node _
      rfl
    · exact h
  | expire =>
    rw [ClientState.after, checkClientExpire]
    split
    · refine ⟨h.placed.modify fun c hc => h.placed _ c (List.mem_of_mem_eraseP hc), h.distinct.modify ?_⟩
      exact (List.eraseP_sublist.map _).nodup (h.distinct _)
    · exact h
  | time elapsed => exact h
  | whitelist config =>
    refine ⟨fun i c hc => ?_, fun i => ?_⟩
    · obtain ⟨old, hold, rfl⟩ := List.mem_map.mp hc
      exact h.placed i old hold
    · have hdistinct := h.distinct i
      simp only [ClientState.after, fwxSyncRecordWhitelistClients, List.map_map]
      exact hdistinct

theorem OneRecord.nodup {t : AfClientTable w} (h : OneRecord t) :
    ((tableClients t).map fun info => info.mac).Nodup := by
  rw [tableClients, List.map_map, List.map_flatMap, List.nodup_flatMap]
  refine ⟨fun i _ => h.distinct i, (List.nodup_finRange _).imp fun {i j} hne => ?_⟩
  intro mac hi hj
  obtain ⟨a, ha, rfl⟩ := List.mem_map.mp hi
  obtain ⟨b, hb, hmac⟩ := List.mem_map.mp hj
  refine hne ((h.placed i a ha).symm.trans (Eq.trans ?_ (h.placed j b hb)))
  exact congrArg getMacHashCode hmac.symm

/-- A record is in the list iff it is the one that is found by its MAC. -/
theorem OneRecord.mem_iff {t : AfClientTable w} (h : OneRecord t) (info : AfClientInfo) :
    info ∈ tableClients t ↔ (findAfClient t info.mac).map AfClient.info = some info := by
  constructor
  · intro hmem
    obtain ⟨node, hnode, rfl⟩ := List.mem_map.mp hmem
    obtain ⟨i, -, hi⟩ := List.mem_flatMap.mp hnode
    have hplace : i = getMacHashCode node.info.mac := (h.placed i node hi).symm
    rw [hplace] at hi
    cases hfind : findAfClient t node.info.mac with
    | none => exact absurd (List.find?_eq_none.mp hfind node hi) (by simp)
    | some found =>
      have hfound := List.mem_of_find?_eq_some hfind
      have hmac : found.info.mac = node.info.mac := by simpa using List.find?_some hfind
      rw [List.inj_on_of_nodup_map (h.distinct _) hfound hi hmac]
      rfl
  · intro hfind
    obtain ⟨node, hnode, rfl⟩ := Option.map_eq_some_iff.mp hfind
    exact mem_tableClients ⟨_, List.mem_of_find?_eq_some hnode⟩

/-! ## 4. Runs -/

/-- **The list of the clients is complete.**  In every run of the client table, in whatever calls the file is read,
the reading ends and shows a header and each client once, and a client is shown iff it is found by its address. -/
theorem client_list_complete {gateway : Bool} {hz : Nat} {jiffies : BitVec w} {s : ClientState w}
    (h : Reaches (clientStep gateway hz) Always { jiffies := jiffies } s) (room : Nat → Nat) (bucket : Nat) :
    ∃ clients : List AfClientInfo,
      (∀ shown, (∃ calls, readAll (clientSeqOps s.table) room calls 0 bucket 0 = some shown) ↔
        shown = .header :: clients.map .client) ∧
      (clients.map fun info => info.mac).Nodup ∧
      ∀ info, info ∈ clients ↔ (findAfClient s.table info.mac).map AfClient.info = some info := by
  have hone : OneRecord s.table := by
    refine @Reaches.invariant _ _ _ _ _ _ (fun s : ClientState w => OneRecord s.table) ?_ h ?_
    · exact fun _ _ _ hs _ hstep => oneRecord_step hs hstep
    · exact ⟨fun _ _ hmem => absurd hmem List.not_mem_nil, fun _ => List.nodup_nil⟩
  refine ⟨tableClients s.table, fun shown => ?_, hone.nodup, hone.mem_iff⟩
  rw [(clientList_counting s.table).readAll_eq_some_iff, clientLinesOf, from_zero, tableClients, List.map_map]
  rfl

/-- The phone and the tablet, read a line at a time. -/
theorem client_list_complete_two :
    ∃ (calls : Nat) (clients : List AfClientInfo),
      readAll (clientSeqOps (clientsAfter [phonePacket 100, tabletPacket 101]).table) (fun _ => 0) calls 0 0 0 =
        some (.header :: clients.map .client) ∧
      { mac := phoneMac, ip := 100 } ∈ clients ∧ { mac := tabletMac, ip := 101 } ∈ clients := by
  have hrun : Reaches (clientStep true 100) Always { jiffies := 0 }
      (clientsAfter [phonePacket 100, tabletPacket 101]) :=
    (Reaches.refl.tail (e := phonePacket 100) trivial rfl).tail (e := tabletPacket 101) trivial rfl
  obtain ⟨clients, hread, -, hmem⟩ := client_list_complete hrun (fun _ => 0) 0
  obtain ⟨calls, hcalls⟩ := (hread _).mpr rfl
  exact ⟨calls, clients, hcalls, (hmem _).mpr rfl, (hmem _).mpr rfl⟩

end Oaf
