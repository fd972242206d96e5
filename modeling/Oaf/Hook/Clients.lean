/-
# The client table

`af_client_hook` keeps a record for every MAC address that sends packets, with the address of its
last one (`fwx_client.c`); the gateway hook looks the client of a packet up by that address.  A
record is written only by packets of its own MAC.

* `client_by_address`: as long as a packet's source address is in no other client's record, the
  client found by an address is the one that used it last.
* `stale_client_found`: an address that moves to another client is still in the record of the
  first, which may be found before.

`unsigned long` has `w` bits.
-/
import Mathlib.Data.BitVec
import Mathlib.Data.List.FinRange
import Oaf.Hook.Gateway
import Oaf.Lib.Chains
import Oaf.Lib.Runs

namespace Oaf

open CLib Chains Runs

/-! ## 1. The table -/

def MAX_AF_CLIENT_HASH_SIZE : Nat := 64
def MAX_CLIENT_ACTIVE_TIME : Nat := 180

/-- `af_client_info_t` with the time of the last packet. -/
structure AfClient (w : Nat) where
  info : AfClientInfo
  updateJiffies : BitVec w

/-- `af_client_list_table`. -/
abbrev AfClientTable (w : Nat) := Table MAX_AF_CLIENT_HASH_SIZE (AfClient w)

variable {w : Nat}

/-- `get_mac_hash_code`: the low six bits of the last byte. -/
def getMacHashCode (mac : Mac) : Fin MAX_AF_CLIENT_HASH_SIZE :=
  ⟨mac[5].toNat % MAX_AF_CLIENT_HASH_SIZE, Nat.mod_lt _ (by decide)⟩

/-- `find_af_client`. -/
def findAfClient (t : AfClientTable w) (mac : Mac) : Option (AfClient w) :=
  (t (getMacHashCode mac)).find? fun node => node.info.mac == mac

/-- `find_af_client_by_ip`: the first of all buckets. -/
def findAfClientByIp (t : AfClientTable w) (ip : UInt32) : Option (AfClient w) :=
  (List.finRange MAX_AF_CLIENT_HASH_SIZE).findSome? fun i =>
    (t i).find? fun node => node.info.ip == ip

/-- The records in the order in which they are searched. -/
def tableClients (t : AfClientTable w) : List AfClientInfo :=
  ((List.finRange MAX_AF_CLIENT_HASH_SIZE).flatMap t).map AfClient.info

/-- A packet's source, by its protocol. -/
inductive ClientSource
  | ipv4 (saddr : UInt32)
  | ipv6 (saddr : List UInt8)
deriving DecidableEq

/-- What the hook looks at: whether the packet is tracked, whether it has a device and goes up,
its source MAC and its source address. -/
structure ClientPacket where
  tracked : Bool := true
  dirUp : Bool := true
  smac : Mac
  source : ClientSource

/-- The packets that the hook takes for a client's: an IPv6 packet only in gateway mode. -/
def ClientPacket.taken (pkt : ClientPacket) (gateway : Bool) : Bool :=
  pkt.tracked && pkt.dirUp &&
    match pkt.source with
    | .ipv4 _ => true
    | .ipv6 _ => gateway

/-- A packet is written to the record of its MAC. -/
def AfClient.seen (node : AfClient w) (source : ClientSource) (jiffies : BitVec w) : AfClient w :=
  match source with
  | .ipv4 saddr => { info := { node.info with ip := saddr }, updateJiffies := jiffies }
  | .ipv6 saddr => { info := { node.info with ipv6 := saddr }, updateJiffies := jiffies }

/-- `af_client_hook`, with the `nf_client_add` in it. -/
def afClientHook (gateway : Bool) (whitelist : MacConfig) (jiffies : BitVec w)
    (t : AfClientTable w) (pkt : ClientPacket) (kmalloc : Bool) : AfClientTable w :=
  if !pkt.taken gateway then t
  else
    match findAfClient t pkt.smac with
    | some _ =>
      t.modify (getMacHashCode pkt.smac)
        (updateFirst (fun node => node.info.mac == pkt.smac) (·.seen pkt.source jiffies))
    | none =>
      if kmalloc then
        let info := { mac := pkt.smac, recordWhitelist := fwxFindMacNode whitelist pkt.smac }
        let node : AfClient w := { info := info, updateJiffies := jiffies }
        t.modify (getMacHashCode pkt.smac) (node.seen pkt.source jiffies :: ·)
      else t

/-- The test of `check_client_expire`. -/
def AfClient.expired (hz : Nat) (jiffies : BitVec w) (node : AfClient w) : Bool :=
  (node.updateJiffies + BitVec.ofNat w (MAX_CLIENT_ACTIVE_TIME * hz)).ult jiffies

/-- `check_client_expire`: the first expired record of all buckets is freed. -/
def checkClientExpire (hz : Nat) (jiffies : BitVec w) (t : AfClientTable w) : AfClientTable w :=
  match (List.finRange MAX_AF_CLIENT_HASH_SIZE).find? fun i => (t i).any (·.expired hz jiffies) with
  | some i => t.modify i (·.eraseP (·.expired hz jiffies))
  | none => t

/-- The gateway hook on a packet with this source address: the client found by it is refreshed. -/
def refreshByIp (jiffies : BitVec w) (t : AfClientTable w) (ip : UInt32) : AfClientTable w :=
  match (List.finRange MAX_AF_CLIENT_HASH_SIZE).find? fun i =>
    (t i).any fun node => node.info.ip == ip with
  | some i =>
    t.modify i (updateFirst (fun node => node.info.ip == ip)
      fun node => { node with updateJiffies := jiffies })
  | none => t

/-- `fwx_sync_record_whitelist_clients`. -/
def fwxSyncRecordWhitelistClients (whitelist : MacConfig) (t : AfClientTable w) : AfClientTable w :=
  fun i => (t i).map fun node =>
    { node with
      info := { node.info with recordWhitelist := fwxFindMacNode whitelist node.info.mac } }

/-! ## 2. Runs -/

/-- The table, the clock, the record whitelist, and who sent the last packet from an address. -/
structure ClientState (w : Nat) where
  table : AfClientTable w := fun _ => []
  jiffies : BitVec w
  whitelist : MacConfig := fwxMacConfigInit
  lastCarrier : UInt32 → Option Mac := fun _ => none

inductive ClientEvent
  | packet (pkt : ClientPacket) (kmalloc : Bool)
  | gatewayPacket (src : UInt32)
  | expire
  | time (elapsed : Nat)
  | whitelist (config : MacConfig)

/-- Who sent the last packet from an address, after one more packet. -/
def ClientPacket.carry (pkt : ClientPacket) (gateway : Bool) (last : UInt32 → Option Mac) :
    UInt32 → Option Mac :=
  match pkt.source with
  | .ipv4 saddr =>
    if pkt.taken gateway then fun ip => if ip = saddr then some pkt.smac else last ip else last
  | .ipv6 _ => last

/-- One event. -/
def ClientState.after (gateway : Bool) (hz : Nat) (s : ClientState w) : ClientEvent → ClientState w
  | .packet pkt kmalloc =>
    { s with
      table := afClientHook gateway s.whitelist s.jiffies s.table pkt kmalloc
      lastCarrier := pkt.carry gateway s.lastCarrier }
  | .gatewayPacket src => { s with table := refreshByIp s.jiffies s.table src }
  | .expire => { s with table := checkClientExpire hz s.jiffies s.table }
  | .time elapsed => { s with jiffies := s.jiffies + BitVec.ofNat w elapsed }
  | .whitelist config =>
    { s with whitelist := config, table := fwxSyncRecordWhitelistClients config s.table }

def clientStep (gateway : Bool) (hz : Nat) (s : ClientState w) (e : ClientEvent)
    (t : ClientState w) : Prop := t = s.after gateway hz e

/-- **The condition.**  An IPv4 packet's source address is in no other client's record, and the
first packet of a MAC is IPv4: the record made for another one has the address 0.0.0.0. -/
def AddressFree (gateway : Bool) (s : ClientState w) : ClientEvent → Prop
  | .packet pkt _ =>
    pkt.taken gateway = true →
      match pkt.source with
      | .ipv4 saddr => ∀ node, s.table.Holds node → node.info.ip = saddr → node.info.mac = pkt.smac
      | .ipv6 _ => (findAfClient s.table pkt.smac).isSome = true
  | _ => True

/-- Every record belongs to the one who used its address last. -/
def ClientsOk (s : ClientState w) : Prop :=
  ∀ node, s.table.Holds node → s.lastCarrier node.info.ip = some node.info.mac

/-! ## 3. One event -/

theorem seen_mac (node : AfClient w) (source : ClientSource) (jiffies : BitVec w) :
    (node.seen source jiffies).info.mac = node.info.mac := by
  cases source <;> rfl

/-- **The records after a packet**: as they were, or of its MAC with what it leaves in them. -/
theorem holds_afClientHook {gateway : Bool} {whitelist : MacConfig} {jiffies : BitVec w}
    {t : AfClientTable w} {pkt : ClientPacket} {kmalloc : Bool} {node : AfClient w}
    (h : (afClientHook gateway whitelist jiffies t pkt kmalloc).Holds node) :
    t.Holds node ∨ (pkt.taken gateway = true ∧ ∃ old : AfClient w, old.info.mac = pkt.smac ∧
      node = old.seen pkt.source jiffies ∧
      (t.Holds old ∨ findAfClient t pkt.smac = none)) := by
  rw [afClientHook] at h
  split at h
  · exact .inl h
  rename_i htaken
  have htaken' : pkt.taken gateway = true := by simpa using htaken
  split at h
  · rcases holds_of_modify h with hmem | ⟨i, -, hmem⟩
    · rcases of_mem_updateFirst hmem with hold | ⟨old, hold, hmac, rfl⟩
      · exact .inl ⟨_, hold⟩
      · exact .inr ⟨htaken', old, beq_iff_eq.mp hmac, rfl, .inl ⟨_, hold⟩⟩
    · exact .inl ⟨i, hmem⟩
  · rename_i hnone
    split at h
    · rcases holds_of_modify h with hmem | ⟨i, -, hmem⟩
      · rcases List.mem_cons.mp hmem with rfl | hold
        · exact .inr ⟨htaken', _, rfl, rfl, .inr hnone⟩
        · exact .inl ⟨_, hold⟩
      · exact .inl ⟨i, hmem⟩
    · exact .inl h

theorem holds_checkClientExpire {hz : Nat} {jiffies : BitVec w} {t : AfClientTable w}
    {node : AfClient w} (h : (checkClientExpire hz jiffies t).Holds node) : t.Holds node := by
  rw [checkClientExpire] at h
  split at h
  · rcases holds_of_modify h with hmem | ⟨i, -, hmem⟩
    · exact ⟨_, List.mem_of_mem_eraseP hmem⟩
    · exact ⟨i, hmem⟩
  · exact h

/-- The other changes keep the MAC and the address of every record. -/
theorem holds_refreshByIp {jiffies : BitVec w} {t : AfClientTable w} {ip : UInt32}
    {node : AfClient w} (h : (refreshByIp jiffies t ip).Holds node) :
    ∃ old, t.Holds old ∧ old.info = node.info := by
  rw [refreshByIp] at h
  split at h
  · rcases holds_of_modify h with hmem | ⟨i, -, hmem⟩
    · rcases of_mem_updateFirst hmem with hold | ⟨old, hold, -, rfl⟩
      · exact ⟨node, ⟨_, hold⟩, rfl⟩
      · exact ⟨old, ⟨_, hold⟩, rfl⟩
    · exact ⟨node, ⟨i, hmem⟩, rfl⟩
  · exact ⟨node, h, rfl⟩

variable {gateway : Bool} {hz : Nat} {s t : ClientState w} {e : ClientEvent}

theorem clientsOk_packet {pkt : ClientPacket} {kmalloc : Bool} (h : ClientsOk s)
    (hfree : AddressFree gateway s (.packet pkt kmalloc)) :
    ClientsOk (s.after gateway hz (.packet pkt kmalloc)) := by
  intro node hnode
  simp only [ClientState.after] at hnode ⊢
  rcases holds_afClientHook hnode with hold | ⟨htaken, old, hmac, rfl, hold⟩
  · -- a record that the packet does not write: its address is not the packet's
    rw [ClientPacket.carry]
    cases hsource : pkt.source with
    | ipv6 saddr => exact h node hold
    | ipv4 saddr =>
      dsimp only
      split
      · rename_i htaken
        have hother := hfree htaken
        rw [hsource] at hother
        by_cases hip : node.info.ip = saddr
        · exact (if_pos hip).trans (congrArg some (hother node hold hip).symm)
        · exact (if_neg hip).trans (h node hold)
      · exact h node hold
  · rw [seen_mac, hmac, ClientPacket.carry]
    cases hsource : pkt.source with
    | ipv4 saddr =>
      dsimp only
      rw [if_pos htaken]
      exact if_pos rfl
    | ipv6 saddr =>
      have hknown := hfree htaken
      rw [hsource] at hknown
      rcases hold with hold | hnone
      · exact hmac ▸ h old hold
      · rw [hnone] at hknown
        exact absurd hknown Bool.false_ne_true

/-- Each event keeps every record with the one who used its address last. -/
theorem clientStep_ok (h : ClientsOk s) (hfree : AddressFree gateway s e)
    (hstep : clientStep gateway hz s e t) : ClientsOk t := by
  obtain rfl := hstep
  cases e with
  | packet pkt kmalloc => exact clientsOk_packet h hfree
  | gatewayPacket src =>
    intro node hnode
    obtain ⟨old, hold, hinfo⟩ := holds_refreshByIp hnode
    exact hinfo ▸ h old hold
  | expire => exact fun node hnode => h node (holds_checkClientExpire hnode)
  | time elapsed => exact h
  | whitelist config =>
    rintro node ⟨i, hmem⟩
    obtain ⟨old, hold, rfl⟩ := List.mem_map.mp hmem
    exact h old ⟨i, hold⟩

/-! ## 4. Lookups -/

theorem holds_of_findByIp {table : AfClientTable w} {ip : UInt32} {node : AfClient w}
    (h : findAfClientByIp table ip = some node) : table.Holds node ∧ node.info.ip = ip := by
  obtain ⟨i, -, hfind⟩ := List.exists_of_findSome?_eq_some h
  exact ⟨⟨i, List.mem_of_find?_eq_some hfind⟩, by simpa using List.find?_some hfind⟩

/-- The search of the gateway hook is this search. -/
theorem find_tableClients (table : AfClientTable w) (ip : UInt32) :
    ((tableClients table).find? fun node => node.ip == ip) =
      (findAfClientByIp table ip).map AfClient.info := by
  rw [tableClients, List.find?_map, List.find?_flatMap, findAfClientByIp]
  rfl

theorem client_of_gatewayPrologue {env : HookEnv} {pkt : GatewayPacket} {flow : FlowInfo}
    {client : AfClientInfo} (hsrc : flow.src ≠ 0)
    (h : gatewayPrologue env pkt = some (flow, client)) :
    (env.clients.find? fun node => node.ip == flow.src) = some client := by
  rw [gatewayPrologue] at h
  split at h
  · cases h
  split at h
  · cases h
  rename_i flow0 _
  split at h
  · cases h
  split at h
  · cases h
  split at h
  · cases h
  dsimp only at h
  obtain ⟨client0, hclient, heq⟩ := Option.map_eq_some_iff.mp h
  obtain ⟨rfl, rfl⟩ := Prod.mk.inj heq
  rwa [if_pos hsrc] at hclient

/-- **A client by its address.**  In every run of packets whose addresses no other client's record
holds, the client found by an address is the one whose packet carried it last; so is the client
for which the gateway hook decides. -/
theorem client_by_address {jiffies : BitVec w}
    (h : Reaches (clientStep gateway hz) (AddressFree gateway) { jiffies := jiffies } s) :
    (∀ ip node, findAfClientByIp s.table ip = some node →
      s.lastCarrier ip = some node.info.mac) ∧
    (∀ (env : HookEnv) (pkt : GatewayPacket) flow client, env.clients = tableClients s.table →
      flow.src ≠ 0 → gatewayPrologue env pkt = some (flow, client) →
      s.lastCarrier flow.src = some client.mac) := by
  have hok : ClientsOk s := h.invariant (fun _ _ _ hs hfree hstep => clientStep_ok hs hfree hstep)
    fun _ ⟨_, hmem⟩ => absurd hmem List.not_mem_nil
  have hfound : ∀ ip node, findAfClientByIp s.table ip = some node →
      s.lastCarrier ip = some node.info.mac := by
    intro ip node hfind
    obtain ⟨hholds, hip⟩ := holds_of_findByIp hfind
    exact hip ▸ hok node hholds
  refine ⟨hfound, fun env pkt flow client hclients hsrc hpro => ?_⟩
  have hfind := client_of_gatewayPrologue hsrc hpro
  rw [hclients, find_tableClients] at hfind
  obtain ⟨node, hnode, rfl⟩ := Option.map_eq_some_iff.mp hfind
  exact hfound _ node hnode

/-! ## 5. An address that moves -/

theorem mem_tableClients {table : AfClientTable w} {node : AfClient w} (h : table.Holds node) :
    node.info ∈ tableClients table := by
  obtain ⟨i, hmem⟩ := h
  exact List.mem_map_of_mem (List.mem_flatMap.mpr ⟨i, List.mem_finRange i, hmem⟩)

theorem addressFree_of_all {pkt : ClientPacket} {saddr : UInt32} {kmalloc : Bool}
    (hsource : pkt.source = .ipv4 saddr)
    (h : ((tableClients s.table).all fun c => c.ip != saddr || c.mac == pkt.smac) = true) :
    AddressFree gateway s (.packet pkt kmalloc) := by
  intro _
  rw [hsource]
  intro node hnode hip
  have hor := List.all_eq_true.mp h _ (mem_tableClients hnode)
  simpa [hip] using hor

def phoneMac : Mac := #v[2, 0, 0, 0, 0, 1]
def tabletMac : Mac := #v[2, 0, 0, 0, 0, 2]

/-- A packet of the phone, or of the tablet, from this address. -/
def phonePacket (saddr : UInt32) : ClientEvent :=
  .packet { smac := phoneMac, source := .ipv4 saddr } true
def tabletPacket (saddr : UInt32) : ClientEvent :=
  .packet { smac := tabletMac, source := .ipv4 saddr } true

/-- The state after these events, on a 64-bit machine. -/
def clientsAfter (events : List ClientEvent) : ClientState 64 :=
  events.foldl (fun s e => s.after true 100 e) { jiffies := 0 }

/-- The phone changes its address, then the tablet gets the old one. -/
theorem client_by_address_given_up :
    ∃ node, findAfClientByIp
        (clientsAfter [phonePacket 100, phonePacket 101, tabletPacket 100]).table 100 = some node ∧
      node.info.mac = tabletMac ∧
      (clientsAfter [phonePacket 100, phonePacket 101, tabletPacket 100]).lastCarrier 100 =
        some node.info.mac := by
  have hrun : Reaches (clientStep true 100) (AddressFree true) { jiffies := 0 }
      (clientsAfter [phonePacket 100, phonePacket 101, tabletPacket 100]) :=
    ((Reaches.refl.tail (addressFree_of_all rfl (by decide +kernel)) rfl).tail
      (u := clientsAfter [phonePacket 100, phonePacket 101])
      (addressFree_of_all rfl (by decide +kernel)) rfl).tail
      (e := tabletPacket 100) (addressFree_of_all rfl (by decide +kernel)) rfl
  obtain ⟨hfound, -⟩ := client_by_address hrun
  cases hfind : findAfClientByIp
      (clientsAfter [phonePacket 100, phonePacket 101, tabletPacket 100]).table 100 with
  | none => exact absurd hfind (by decide +kernel)
  | some node =>
    have hcarrier := hfound 100 node hfind
    refine ⟨node, rfl, ?_, hcarrier⟩
    exact (Option.some.inj (hcarrier.symm.trans (by decide +kernel)))

/-- **The phone is gone from its address, and still found by it**: the tablet uses it now. -/
theorem stale_client_found :
    Reaches (clientStep true 100) Always { jiffies := 0 }
        (clientsAfter [phonePacket 100, tabletPacket 100]) ∧
      (findAfClientByIp (clientsAfter [phonePacket 100, tabletPacket 100]).table 100).map
        (·.info.mac) = some phoneMac ∧
      (clientsAfter [phonePacket 100, tabletPacket 100]).lastCarrier 100 = some tabletMac := by
  refine ⟨?_, by decide +kernel, by decide +kernel⟩
  exact (Reaches.refl.tail (e := phonePacket 100) trivial rfl).tail (e := tabletPacket 100)
    trivial rfl

end Oaf
