/-
# What the bypass hook holds when it returns

`fwx_hook_bypass_handle` has two critical sections, that of the client table and that of the connection table, and
a buffer for the payload of a packet in fragments.

* `bypassDecide_eq`: behind the sections, the hook as `fwxHookBypassHandle` has it, with its buffer freed.
* `bypass_releases_iff`: exactly when the hook returns and holds nothing.  It is left with the lock of the connection
  table when there is no memory for a new connection.
* `bypassRun_released`: runs of packets and ticks in which that does not happen; `locked_tick`, `locked_packet`: none
  goes on behind it.
-/
import Oaf.Lib.Holding
import Oaf.Hook.ConnTable
import Oaf.Hook.ReEval

namespace Oaf

open CLib Runs Holding

/-! ## 1. The hook with its locks -/

/-- `af_client_lock` and `af_conn_lock`. -/
inductive HookLock
  | afClient
  | afConn
deriving DecidableEq

/-- What is checked of a packet before its client is looked up: `none` is an early `NF_ACCEPT`. -/
def bypassFlow (env : HookEnv) (pkt : BypassPacket) : Option FlowInfo :=
  if env.fwxLanIp = 0 ∨ env.fwxLanMask = 0 then none
  else if ascii "docker" <:+: pkt.devName.bytes then none
  else
    match parseFlowProto pkt.skb {} with
    | none => none
    | some flow =>
      if afMatchPrivateLanDst flow ∧ flow.dport ≠ DNS_PORT then none
      else if flow.src = 0 ∧ flow.dst = 0 then none
      else if env.fwxLanIp = flow.src ∨ env.fwxLanIp = flow.dst then none
      else if afCheckBcastIp flow ∨ afMatchLocalPacket flow then none
      else if flow.src &&& env.fwxLanMask ≠ env.fwxLanIp &&& env.fwxLanMask then none
      else some flow

/-- The connection of a packet. -/
def FlowInfo.connKey (flow : FlowInfo) : ConnKey where
  srcIp := flow.src
  dstIp := flow.dst
  srcPort := flow.sport
  dstPort := flow.dport
  protocol := flow.l4Protocol.toUInt8

/-- The payload is inspected, and the verdict made. -/
def bypassInspected (env : HookEnv) (client : AfClientInfo) (flow : FlowInfo) (conn : AfConn) :
    Hold HookLock (Verdict × AfConn) :=
  match bypassInspect env client flow conn with
  | none => undefined
  | some result => pure (bypassVerdict env client result.1 result.2)

/-- The part behind the second section.  Nothing that is called writes `flow.l4_data`, so it is the buffer that is
freed. -/
def bypassDecide (env : HookEnv) (pkt : BypassPacket) (flow : FlowInfo) (client : AfClientInfo) (conn : AfConn) :
    Hold HookLock (Verdict × AfConn) :=
  if conn.appId = 0 ∧ conn.drop then pure (.drop, conn)
  else if conn.appId ≠ 0 then pure (bypassVerdict env client (bypassIdentified env client conn) conn)
  else if env.gByPassAccl ∧ 256 < conn.totalPkts then pure (.accept, conn)
  else
    match pkt.nonlinear with
    | none => bypassInspected env client flow conn
    | some msgBuf =>
      if flow.l4Len < MAX_AF_SUPPORT_DATA_LEN then
        match msgBuf with
        | none => pure (.accept, conn)
        | some l4Data => do
          let p ← kmalloc
          let result ← bypassInspected env client { flow with l4Data := l4Data } conn
          kfree p
          pure result
      else bypassInspected env client flow conn

section Table

variable {w : Nat} (jhash : Jhash3Words)

/-- The record of a connection that `af_conn_find_and_add` leaves. -/
def recordOf (t : ConnTable w) (key : ConnKey) : AfConn :=
  match afConnFind jhash t key with
  | some entry => entry.conn
  | none => {}

/-- The second section, and what is behind it; `newConn` is whether there is memory for a new record. -/
def bypassLookup (env : HookEnv) (t : ConnTable w) (pkt : BypassPacket) (newConn : Bool) (flow : FlowInfo)
    (client : AfClientInfo) : Hold HookLock (Verdict × ConnTable w) := do
  lock .afConn
  match afConnFindAndAdd jhash t flow.connKey (BitVec.ofNat w env.jiffies) newConn with
  | none => pure (.accept, t)
  | some found => do
    let conn := recordOf jhash t flow.connKey
    unlock .afConn
    let (v, conn) ← bypassDecide env pkt flow client { conn with totalPkts := conn.totalPkts + 1 }
    pure (v, connPacket jhash found flow.connKey (BitVec.ofNat w env.jiffies) newConn fun _ => conn)

/-- `fwx_hook_bypass_handle` on the connection table. -/
def fwxHookBypass (env : HookEnv) (t : ConnTable w) (pkt : BypassPacket) (newConn : Bool) :
    Hold HookLock (Verdict × ConnTable w) :=
  match bypassFlow env pkt with
  | none => pure (.accept, t)
  | some flow => do
    lock .afClient
    match findAndAddAfClient env pkt.smac pkt.newClient with
    | none => do
      unlock .afClient
      pure (.accept, t)
    | some client => do
      unlock .afClient
      bypassLookup jhash env t pkt newConn flow { client with ip := flow.src }

end Table

variable {env : HookEnv} {pkt : BypassPacket} {flow : FlowInfo} {client : AfClientInfo} {conn : AfConn}

theorem check_bind {α β : Type} {c : Prop} [Decidable c] (x : Option α) (f : α → Option β) :
    (if c then none else x).bind f = if c then none else x.bind f := by
  split <;> rfl

/-- The checks, then the client. -/
theorem bypassPrologue_eq (env : HookEnv) (pkt : BypassPacket) :
    bypassPrologue env pkt = (bypassFlow env pkt).bind fun flow =>
      (findAndAddAfClient env pkt.smac pkt.newClient).map fun client =>
        (flow, { client with ip := flow.src }) := by
  unfold bypassPrologue bypassFlow
  rw [check_bind, check_bind]
  cases parseFlowProto pkt.skb {} with
  | none => rfl
  | some flow => simp only [check_bind, Option.bind_some]

/-! ## 2. Behind the sections -/

/-- An inspection holds nothing by itself. -/
theorem bypassInspected_eq (s : Holdings HookLock) :
    bypassInspected env client flow conn s =
      ((bypassInspect env client flow conn).map fun result =>
        bypassVerdict env client result.1 result.2).map (·, s) := by
  unfold bypassInspected
  cases bypassInspect env client flow conn <;> rfl

/-- **The verdict is that of `fwxHookBypassHandle`**, with the same locks and buffers as before. -/
theorem bypassDecide_eq (hpro : bypassPrologue env pkt = some (flow, client)) (s : Holdings HookLock) :
    ∃ t, t.locked = s.locked ∧ t.buffers = s.buffers ∧
      bypassDecide env pkt flow client { conn with totalPkts := conn.totalPkts + 1 } s =
        (fwxHookBypassHandle env pkt conn).map (·, t) := by
  rw [fwxHookBypassHandle, hpro]
  unfold bypassDecide
  simp only [bypassInspectable]
  split
  · exact ⟨s, rfl, rfl, rfl⟩
  · split
    · exact ⟨s, rfl, rfl, rfl⟩
    · split
      · exact ⟨s, rfl, rfl, rfl⟩
      · cases hnonlinear : pkt.nonlinear with
        | none => exact ⟨s, rfl, rfl, bypassInspected_eq s⟩
        | some msgBuf =>
          by_cases hlen : flow.l4Len < MAX_AF_SUPPORT_DATA_LEN
          · simp only [if_pos hlen]
            cases msgBuf with
            | none => exact ⟨s, rfl, rfl, rfl⟩
            | some l4Data =>
              -- the buffer is there when it is freed
              refine ⟨s.grow.free s.next, rfl, grow_free_buffers, ?_⟩
              change (bypassInspected env client { flow with l4Data := l4Data }
                { conn with totalPkts := conn.totalPkts + 1 } s.grow).bind
                (fun r => (kfree s.next r.2).bind fun u => some (r.1, u.2)) = _
              rw [bypassInspected_eq]
              simp only [Option.map_some]
              cases bypassInspect env client { flow with l4Data := l4Data }
                { conn with totalPkts := conn.totalPkts + 1 } with
              | none => rfl
              | some result =>
                simp only [Option.map_some, Option.bind_some, kfree_grow]
          · simp only [if_neg hlen]
            exact ⟨s, rfl, rfl, bypassInspected_eq s⟩

/-! ## 3. What is released -/

/-- Nothing is held. -/
def Released (s : Holdings HookLock) : Prop := (∀ l, s.locked l = false) ∧ s.buffers = []

/-- Where the packet is inspected, what `fwx_match_feature` does is defined: no class of a pattern that it is matched
with is too long. -/
def InspectionDefined (env : HookEnv) (pkt : BypassPacket) (flow : FlowInfo) (conn : AfConn) : Prop :=
  conn.appId = 0 → conn.drop = false →
    ∀ flow', bypassInspectable env pkt flow { conn with totalPkts := conn.totalPkts + 1 } = some flow' →
      (fwxMatchFeature env.lib env.regexpMem env.gUrlAc env.afFeatureHead
        (dpiMain { flow' with clientHello := conn.clientHello })).isSome

theorem bypassInspect_isSome :
    (bypassInspect env client flow conn).isSome ↔
      (fwxMatchFeature env.lib env.regexpMem env.gUrlAc env.afFeatureHead
        (dpiMain { flow with clientHello := conn.clientHello })).isSome := by
  simp only [bypassInspect, Option.bind_eq_bind]
  cases hmatch : fwxMatchFeature env.lib env.regexpMem env.gUrlAc env.afFeatureHead
      (dpiMain { flow with clientHello := conn.clientHello }) with
  | none => simp
  | some r =>
    simp only [Option.bind_some, Option.isSome_some, iff_true]
    split
    · split <;> rfl
    · rfl

/-- The verdict is defined where the inspection is. -/
theorem handle_isSome (hpro : bypassPrologue env pkt = some (flow, client)) :
    (fwxHookBypassHandle env pkt conn).isSome ↔ InspectionDefined env pkt flow conn := by
  unfold InspectionDefined
  rw [fwxHookBypassHandle, hpro]
  simp only
  by_cases hdrop : conn.appId = 0 ∧ conn.drop = true
  · rw [if_pos hdrop]
    simp [hdrop.2]
  · rw [if_neg hdrop]
    by_cases hid : conn.appId = 0
    · rw [if_neg (not_not.mpr hid)]
      have hno : conn.drop = false := by simpa [hid] using hdrop
      cases hinspect : bypassInspectable env pkt flow { conn with totalPkts := conn.totalPkts + 1 } with
      | none => simp
      | some flow' =>
        rw [Option.isSome_map, bypassInspect_isSome]
        constructor
        · intro h _ _ flow'' heq
          obtain rfl := Option.some.inj heq
          exact h
        · intro h
          exact h hid hno flow' rfl
    · rw [if_pos hid]
      simp [hid]

section Table

variable {w : Nat} {jhash : Jhash3Words} {t : ConnTable w} {newConn : Bool}

/-- The packet is turned away before its connection is looked up; or the connection is known, or there is memory for
it, and the inspection is defined. -/
def Releases (jhash : Jhash3Words) (env : HookEnv) (t : ConnTable w) (pkt : BypassPacket) (newConn : Bool) : Prop :=
  ∀ flow client, bypassPrologue env pkt = some (flow, client) →
    ((afConnFind jhash t flow.connKey).isSome ∨ newConn = true) ∧
      InspectionDefined env pkt flow (recordOf jhash t flow.connKey)

theorem afConnFindAndAdd_isSome {key : ConnKey} {jiffies : BitVec w} :
    (afConnFindAndAdd jhash t key jiffies newConn).isSome ↔
      (afConnFind jhash t key).isSome ∨ newConn = true := by
  unfold afConnFindAndAdd
  cases afConnFind jhash t key <;> cases newConn <;> simp

/-- From the second section on. -/
theorem lookup_releases_iff (hpro : bypassPrologue env pkt = some (flow, client)) {s : Holdings HookLock}
    (hs : Released s) :
    Returns (bypassLookup jhash env t pkt newConn flow client) (fun _ => Released) s ↔
      ((afConnFind jhash t flow.connKey).isSome ∨ newConn = true) ∧
        InspectionDefined env pkt flow (recordOf jhash t flow.connKey) := by
  unfold bypassLookup
  rw [← @afConnFindAndAdd_isSome w jhash t newConn _ (BitVec.ofNat w env.jiffies), ← handle_isSome hpro]
  cases afConnFindAndAdd jhash t flow.connKey (BitVec.ofNat w env.jiffies) newConn with
  | none =>
    -- the lock is still held
    simp only [Option.isSome_none, Bool.false_eq_true, false_and, iff_false]
    rw [returns_bind, returns_lock, returns_pure]
    rintro ⟨-, hlocked, -⟩
    simpa using hlocked .afConn
  | some found =>
    rw [returns_section (hs.1 .afConn), returns_bind]
    obtain ⟨s', hlocked, hbuffers, hdecide⟩ :=
      @bypassDecide_eq env pkt flow client (recordOf jhash t flow.connKey) hpro s
    have hs' : Released s' := ⟨fun l => by rw [hlocked, hs.1 l], hbuffers.trans hs.2⟩
    cases hhandle : fwxHookBypassHandle env pkt (recordOf jhash t flow.connKey) with
    | none =>
      rw [hhandle] at hdecide
      simpa using returns_of_none hdecide
    | some result =>
      rw [hhandle] at hdecide
      rw [returns_of_some hdecide, returns_pure]
      simpa using hs'

/-- A hook that returns with nothing held. -/
theorem releases_of_returns (h : Returns (fwxHookBypass jhash env t pkt newConn) (fun _ => Released) {}) :
    Releases jhash env t pkt newConn := by
  intro flow client hpro
  have hprologue := hpro
  rw [bypassPrologue_eq] at hprologue
  obtain ⟨flow', hflow, hfound⟩ := Option.bind_eq_some_iff.mp hprologue
  obtain ⟨found, hclient, heq⟩ := Option.map_eq_some_iff.mp hfound
  obtain ⟨rfl, rfl⟩ := Prod.mk.inj heq
  rw [fwxHookBypass, hflow] at h
  simp only [hclient] at h
  exact (lookup_releases_iff hpro ⟨fun _ => rfl, rfl⟩).mp ((returns_section rfl).mp h)

theorem Releases.returns (h : Releases jhash env t pkt newConn) {s : Holdings HookLock} (hs : Released s) :
    Returns (fwxHookBypass jhash env t pkt newConn) (fun _ => Released) s := by
  unfold fwxHookBypass
  cases hflow : bypassFlow env pkt with
  | none => exact returns_pure.mpr hs
  | some flow =>
    cases hclient : findAndAddAfClient env pkt.smac pkt.newClient with
    | none => exact (returns_section (hs.1 .afClient)).mpr (returns_pure.mpr hs)
    | some client =>
      have hpro : bypassPrologue env pkt = some (flow, { client with ip := flow.src }) := by
        rw [bypassPrologue_eq, hflow, hclient]
        rfl
      exact (returns_section (hs.1 .afClient)).mpr ((lookup_releases_iff hpro hs).mpr (h flow _ hpro))

/-- **The hook returns and holds nothing** exactly when it does not return from its second section, and what it
inspects is defined. -/
theorem bypass_releases_iff (jhash : Jhash3Words) (env : HookEnv) (t : ConnTable w) (pkt : BypassPacket)
    (newConn : Bool) :
    (∀ s, Released s → Returns (fwxHookBypass jhash env t pkt newConn) (fun _ => Released) s) ↔
      Releases jhash env t pkt newConn := by
  constructor
  · intro h
    exact releases_of_returns (h {} ⟨fun _ => rfl, rfl⟩)
  · intro h s hs
    exact h.returns hs

/-- The first packet of a connection, when there is no memory for a record of it. -/
theorem lock_kept_without_memory :
    (∃ s, fwxHookBypass (fun _ _ _ _ => 0) (sampleEnv 1001 {}) ({} : ConnTable 64) sampleBypassPacket false {} =
      some ((.accept, {}), s) ∧ s.locked .afConn = true) ∧
    ¬ ∀ s, Released s → Returns (fwxHookBypass (fun _ _ _ _ => 0) (sampleEnv 1001 {}) ({} : ConnTable 64)
      sampleBypassPacket false) (fun _ => Released) s := by
  have hrun : fwxHookBypass (fun _ _ _ _ => 0) (sampleEnv 1001 {}) ({} : ConnTable 64) sampleBypassPacket false {} =
      some ((.accept, {}), Holdings.set (Holdings.set (Holdings.set {} .afClient true) .afClient false) .afConn true) :=
    rfl
  refine ⟨⟨_, hrun, rfl⟩, fun h => ?_⟩
  have hkept := (returns_of_some hrun).mp (h {} ⟨fun _ => rfl, rfl⟩)
  exact absurd (hkept.1 .afConn) (by decide)

/-! ## 4. Packets and ticks -/

/-- A tick of the timer that cleans the table. -/
def connTick (hz : Nat) (jiffies : BitVec w) (t : ConnTable w) : Hold HookLock (ConnTable w) := do
  lock .afConn
  let cleaned := afConnCleanTimeout hz jiffies t
  unlock .afConn
  pure cleaned

/-- The connection table, and what is held of the locks and buffers. -/
structure HookSys (w : Nat) where
  table : ConnTable w := {}
  held : Holdings HookLock := {}

inductive HookEvent (w : Nat)
  | packet (env : HookEnv) (pkt : BypassPacket) (newConn : Bool)
  | tick (hz : Nat) (jiffies : BitVec w)

def HookSys.step (jhash : Jhash3Words) (s : HookSys w) : HookEvent w → Option (HookSys w)
  | .packet env pkt newConn =>
    (fwxHookBypass jhash env s.table pkt newConn s.held).map fun r => ⟨r.1.2, r.2⟩
  | .tick hz jiffies => (connTick hz jiffies s.table s.held).map fun r => ⟨r.1, r.2⟩

/-- A packet that the hook returns from with nothing held. -/
def HookEvent.Releases (jhash : Jhash3Words) (s : HookSys w) : HookEvent w → Prop
  | .packet env pkt newConn => Oaf.Releases jhash env s.table pkt newConn
  | .tick _ _ => True

/-- One event: the next one finds nothing held. -/
theorem HookSys.step_released {s : HookSys w} {e : HookEvent w} (hs : Released s.held) (he : e.Releases jhash s) :
    ∃ u, s.step jhash e = some u ∧ Released u.held := by
  cases e with
  | packet env pkt newConn =>
    obtain ⟨⟨v, t⟩, held, hrun, hheld⟩ := Releases.returns he hs
    exact ⟨⟨t, held⟩, by rw [HookSys.step, hrun, Option.map_some], hheld⟩
  | tick hz jiffies =>
    have hreturns : Returns (connTick hz jiffies s.table) (fun _ => Released) s.held :=
      (returns_section (hs.1 .afConn)).mpr (returns_pure.mpr hs)
    obtain ⟨t, held, hrun, hheld⟩ := hreturns
    exact ⟨⟨t, held⟩, by rw [HookSys.step, hrun, Option.map_some], hheld⟩

/-- **In every run of such packets and of ticks** nothing is held between two events, and the next one is handled. -/
theorem bypassRun_released {s t : HookSys w} (hs : Released s.held)
    (hrun : Reaches (fun s e u => s.step jhash e = some u) (fun s e => e.Releases jhash s) s t) :
    Released t.held ∧ ∀ e : HookEvent w, e.Releases jhash t → (t.step jhash e).isSome := by
  have hstep : ∀ (s : HookSys w) e u, Released s.held → e.Releases jhash s → s.step jhash e = some u →
      Released u.held := by
    intro s e u hs he hstep
    obtain ⟨u', hstep', hu⟩ := HookSys.step_released hs he
    obtain rfl := Option.some.inj (hstep'.symm.trans hstep)
    exact hu
  have hreleased : Released t.held :=
    @Reaches.invariant _ _ _ _ _ _ (fun s : HookSys w => Released s.held) hstep hrun hs
  refine ⟨hreleased, fun e he => ?_⟩
  obtain ⟨u, hstep, -⟩ := HookSys.step_released hreleased he
  rw [hstep]
  rfl

/-- **Behind a lock that was kept** no tick goes on. -/
theorem locked_tick {s : HookSys w} (h : s.held.locked .afConn = true) (hz : Nat) (jiffies : BitVec w) :
    s.step jhash (.tick hz jiffies) = none := by
  rw [HookSys.step, connTick, lock_bind_none h, Option.map_none]

/-- Nor does a packet that gets to its connection. -/
theorem locked_packet {s : HookSys w} (h : s.held.locked .afConn = true)
    (hpro : bypassPrologue env pkt = some (flow, client)) :
    s.step jhash (.packet env pkt newConn) = none := by
  rw [bypassPrologue_eq] at hpro
  obtain ⟨flow', hflow, hfound⟩ := Option.bind_eq_some_iff.mp hpro
  obtain ⟨found, hclient, -⟩ := Option.map_eq_some_iff.mp hfound
  rw [HookSys.step, fwxHookBypass, hflow]
  simp only [hclient]
  cases hlocked : s.held.locked .afClient with
  | true => rw [lock_bind_none hlocked, Option.map_none]
  | false => rw [section_eq hlocked, bypassLookup, lock_bind_none h, Option.map_none]

end Table

end Oaf
