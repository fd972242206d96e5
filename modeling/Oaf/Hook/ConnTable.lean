/-
# The connection table of bypass mode

`fwx_conntrack.c` keeps the records of bypass mode in a hash table by 5-tuple, and a timer frees
the idle ones.  A tick cleans six buckets, the first of which was the last of the tick before; the
cursor goes back to 0 when a tick stops at the last bucket.

* `TableInv`: the shape of the table, and what its time stamps say.
* `sweep_chain`: what a tick does to each bucket.
* `conn_table_sound`: the shape holds in every run; a tick frees only idle records; an idle
  record is gone after 52 ticks, wherever the cursor was.

`unsigned long` has `w` bits, and `jhash_3words` is a parameter.
-/
import Mathlib.Data.BitVec
import Oaf.Hook.Bypass
import Oaf.Lib.Chains

namespace Oaf

open CLib Runs Chains

/-! ## 1. The table -/

def AF_CONN_TIMEOUT : Nat := 30
def AF_CONN_HASH_SIZE : Nat := 256
def MAX_AF_CONN_CHECK_COUNT : Nat := 5

/-- The 5-tuple of a connection. -/
structure ConnKey where
  srcIp : UInt32
  dstIp : UInt32
  srcPort : UInt16
  dstPort : UInt16
  protocol : UInt8
deriving DecidableEq

/-- `af_conn_t`: the 5-tuple, what the hook decides by, and the time of the last packet. -/
structure AfConnEntry (w : Nat) where
  key : ConnKey
  conn : AfConn := {}
  lastJiffies : BitVec w

/-- `af_conn_table` and the static `last_bucket` of the cleaner. -/
structure ConnTable (w : Nat) where
  afConnTable : Table AF_CONN_HASH_SIZE (AfConnEntry w) := fun _ => []
  lastBucket : Nat := 0

/-- `jhash_3words` of the kernel. -/
abbrev Jhash3Words := UInt32 → UInt32 → UInt32 → UInt32 → UInt32

variable {w : Nat} (jhash : Jhash3Words)

/-- `af_conn_hash`. -/
def afConnHash (key : ConnKey) : Fin AF_CONN_HASH_SIZE :=
  let h := jhash key.srcIp key.dstIp (key.protocol.toUInt32 <<< 16 ||| key.srcPort.toUInt32)
    key.dstPort.toUInt32
  ⟨h.toNat % AF_CONN_HASH_SIZE, Nat.mod_lt _ (by decide)⟩

/-- `af_conn_find`. -/
def afConnFind (t : ConnTable w) (key : ConnKey) : Option (AfConnEntry w) :=
  (t.afConnTable (afConnHash jhash key)).find? fun conn => conn.key == key

/-- `af_conn_add`, when its allocation succeeds. -/
def afConnAdd (t : ConnTable w) (key : ConnKey) (jiffies : BitVec w) : ConnTable w :=
  let conn := { key := key, lastJiffies := jiffies }
  { t with afConnTable := t.afConnTable.modify (afConnHash jhash key) (conn :: ·) }

/-- `af_conn_find_and_add`: the table with a record for the key, or none when there is no
memory for one. -/
def afConnFindAndAdd (t : ConnTable w) (key : ConnKey) (jiffies : BitVec w) (kmalloc : Bool) :
    Option (ConnTable w) :=
  match afConnFind jhash t key with
  | some _ => some t
  | none => if kmalloc then some (afConnAdd jhash t key jiffies) else none

/-- A packet: `af_conn_find_and_add`, then `last_jiffies` is set, and the hook leaves its decision
in the record. -/
def connPacket (t : ConnTable w) (key : ConnKey) (jiffies : BitVec w) (kmalloc : Bool)
    (decide : AfConn → AfConn) : ConnTable w :=
  match afConnFindAndAdd jhash t key jiffies kmalloc with
  | none => t
  | some t =>
    let refresh := updateFirst (fun conn => conn.key == key) fun conn =>
      { conn with conn := decide conn.conn, lastJiffies := jiffies }
    { t with afConnTable := t.afConnTable.modify (afConnHash jhash key) refresh }

/-! ## 2. The cleaner -/

/-- `time_after(a, b)`. -/
def timeAfter (a b : BitVec w) : Bool := (b - a).slt 0

/-- One bucket without its idle records. -/
def cleanBucket (jiffies timeout : BitVec w) (conns : List (AfConnEntry w)) :
    List (AfConnEntry w) :=
  conns.filter fun conn => !timeAfter jiffies (conn.lastJiffies + timeout)

/-- The loop of `af_conn_clean_timeout` from bucket `i`, over at most `left` buckets. -/
def sweep (jiffies timeout : BitVec w) : Nat → Nat → ConnTable w → ConnTable w
  | _, 0, t => t
  | i, left + 1, t =>
    if h : i < AF_CONN_HASH_SIZE then
      sweep jiffies timeout (i + 1) left
        { afConnTable := t.afConnTable.modify ⟨i, h⟩ (cleanBucket jiffies timeout)
          lastBucket := i }
    else t

/-- `af_conn_clean_timeout`. -/
def afConnCleanTimeout (hz : Nat) (jiffies : BitVec w) (t : ConnTable w) : ConnTable w :=
  let timeout := BitVec.ofNat w (AF_CONN_TIMEOUT * hz)
  let t := sweep jiffies timeout t.lastBucket (MAX_AF_CONN_CHECK_COUNT + 1) t
  if t.lastBucket = AF_CONN_HASH_SIZE - 1 then { t with lastBucket := 0 } else t

/-- Within half the range of the clock, `time_after` compares the ages. -/
theorem timeAfter_iff {now last timeout : Nat} (hle : last ≤ now)
    (hage : 2 * (now - last) < 2 ^ w) (htimeout : 2 * timeout < 2 ^ w) :
    timeAfter (BitVec.ofNat w now) (BitVec.ofNat w last + BitVec.ofNat w timeout) = true ↔
      timeout < now - last := by
  have hsplit : BitVec.ofNat w last + BitVec.ofNat w timeout - BitVec.ofNat w now
      = BitVec.ofNat w timeout - BitVec.ofNat w (now - last) := by
    rw [show now = last + (now - last) by omega, BitVec.ofNat_add, Nat.add_sub_cancel_left]
    grind
  have hint : (BitVec.ofNat w timeout - BitVec.ofNat w (now - last)).toInt
      = (timeout : Int) - (now - last : Nat) := by
    rw [BitVec.toInt_sub, BitVec.toInt_ofNat', BitVec.toInt_ofNat', Int.bmod_sub_bmod,
      Int.sub_bmod_bmod]
    apply Int.bmod_eq_of_le <;> omega
  rw [timeAfter, hsplit, BitVec.slt_iff_toInt_lt, hint,
    show (0 : BitVec w).toInt = 0 from BitVec.toInt_zero]
  omega

/-! ## 3. A tick -/

/-- **What the loop does to each bucket**: those it reaches are cleaned. -/
theorem sweep_chain (jiffies timeout : BitVec w) (left i : Nat) (t : ConnTable w)
    (j : Fin AF_CONN_HASH_SIZE) :
    (sweep jiffies timeout i left t).afConnTable j =
      if i ≤ j.val ∧ j.val < i + left then cleanBucket jiffies timeout (t.afConnTable j)
      else t.afConnTable j := by
  induction left generalizing i t with
  | zero => rw [sweep, if_neg (by omega)]
  | succ left ih =>
    rw [sweep]
    split
    · rename_i hi
      rw [ih]
      dsimp only
      by_cases hj : j.val = i
      · have hji : j = ⟨i, hi⟩ := Fin.ext hj
        subst hji
        rw [modify_self, if_neg (by omega), if_pos (by omega)]
      · rw [modify_of_ne _ (fun h => hj (congrArg Fin.val h))]
        congr 1
        exact propext ⟨fun h => ⟨by omega, by omega⟩, fun h => ⟨by omega, by omega⟩⟩
    · rename_i hi
      rw [if_neg (by have := j.isLt; omega)]

theorem sweep_lastBucket (jiffies timeout : BitVec w) (left i : Nat) (t : ConnTable w)
    (hi : i < AF_CONN_HASH_SIZE) :
    (sweep jiffies timeout i (left + 1) t).lastBucket = min (i + left) (AF_CONN_HASH_SIZE - 1) := by
  induction left generalizing i t with
  | zero =>
    rw [sweep, dif_pos hi, sweep]
    dsimp only
    omega
  | succ left ih =>
    rw [sweep, dif_pos hi]
    by_cases hnext : i + 1 < AF_CONN_HASH_SIZE
    · rw [ih (i + 1) _ hnext]
      omega
    · rw [sweep, dif_neg hnext]
      dsimp only
      omega

theorem clean_chain (hz : Nat) (jiffies : BitVec w) (t : ConnTable w)
    (j : Fin AF_CONN_HASH_SIZE) :
    (afConnCleanTimeout hz jiffies t).afConnTable j =
      if t.lastBucket ≤ j.val ∧ j.val < t.lastBucket + 6 then
        cleanBucket jiffies (BitVec.ofNat w (AF_CONN_TIMEOUT * hz)) (t.afConnTable j)
      else t.afConnTable j := by
  rw [afConnCleanTimeout]
  split <;> exact sweep_chain _ _ _ _ _ _

theorem clean_lastBucket (hz : Nat) (jiffies : BitVec w) (t : ConnTable w)
    (hcursor : t.lastBucket < AF_CONN_HASH_SIZE) :
    (afConnCleanTimeout hz jiffies t).lastBucket =
      if 250 ≤ t.lastBucket then 0 else t.lastBucket + 5 := by
  have hsweep := sweep_lastBucket jiffies (BitVec.ofNat w (AF_CONN_TIMEOUT * hz))
    MAX_AF_CONN_CHECK_COUNT t.lastBucket t hcursor
  have hmax : AF_CONN_HASH_SIZE = 256 ∧ MAX_AF_CONN_CHECK_COUNT = 5 := ⟨rfl, rfl⟩
  rw [afConnCleanTimeout]
  split
  · rename_i hlast
    rw [hsweep] at hlast
    rw [if_pos (by omega)]
  · rename_i hlast
    rw [hsweep] at hlast ⊢
    rw [if_neg (by omega)]
    omega

/-! ## 4. Runs of the table -/

/-- The table in time.  `lastUse` is what the table's stamps stand for: the time of the last
packet of a connection. -/
structure ConnSys (w : Nat) where
  table : ConnTable w := {}
  now : Nat := 0
  lastUse : ConnKey → Nat := fun _ => 0

inductive ConnTableEvent
  | packet (key : ConnKey) (kmalloc : Bool) (decide : AfConn → AfConn)
  | tick
  | time (elapsed : Nat)

def ConnTableEvent.isTick : ConnTableEvent → Bool
  | .tick => true
  | _ => false

variable (hz : Nat)

def ConnSys.step (s : ConnSys w) : ConnTableEvent → ConnSys w
  | .packet key kmalloc decide =>
    { s with
      table := connPacket jhash s.table key (BitVec.ofNat w s.now) kmalloc decide
      lastUse := fun k => if k = key then s.now else s.lastUse k }
  | .tick => { s with table := afConnCleanTimeout hz (BitVec.ofNat w s.now) s.table }
  | .time elapsed => { s with now := s.now + elapsed }

def connTableStep (s : ConnSys w) (e : ConnTableEvent) (t : ConnSys w) : Prop :=
  t = s.step jhash hz e

/-- The entries are in the buckets of their hashes, no two share a 5-tuple, their stamps are the
times of their last packets, and the cursor is at a bucket. -/
structure TableInv (s : ConnSys w) : Prop where
  placed : Placed (fun conn => afConnHash jhash conn.key) s.table.afConnTable
  distinct : Distinct AfConnEntry.key s.table.afConnTable
  stamp : ∀ conn, s.table.afConnTable.Holds conn →
    conn.lastJiffies = BitVec.ofNat w (s.lastUse conn.key)
  past : ∀ conn, s.table.afConnTable.Holds conn → s.lastUse conn.key ≤ s.now
  cursor : s.table.lastBucket < AF_CONN_HASH_SIZE

/-- The ages of the entries are below half the range of the clock. -/
def AgesFit (s : ConnSys w) : Prop :=
  ∀ conn, s.table.afConnTable.Holds conn → 2 * (s.now - s.lastUse conn.key) < 2 ^ w

theorem holds_clean {s : ConnSys w} {conn : AfConnEntry w} {jiffies : BitVec w}
    (h : (afConnCleanTimeout hz jiffies s.table).afConnTable.Holds conn) :
    s.table.afConnTable.Holds conn := by
  obtain ⟨j, hmem⟩ := h
  rw [clean_chain] at hmem
  split at hmem
  · exact ⟨j, (List.mem_filter.mp hmem).1⟩
  · exact ⟨j, hmem⟩

theorem TableInv.tick {s : ConnSys w} (h : TableInv jhash s) :
    TableInv jhash (s.step jhash hz .tick) := by
  have hchain := clean_chain hz (BitVec.ofNat w s.now) s.table
  refine ⟨?_, ?_, ?_, ?_, ?_⟩
  · intro j conn hmem
    rw [ConnSys.step, hchain] at hmem
    split at hmem
    · exact h.placed j conn (List.mem_filter.mp hmem).1
    · exact h.placed j conn hmem
  · intro j
    rw [ConnSys.step, hchain]
    split
    · exact (h.distinct j).sublist (List.filter_sublist.map _)
    · exact h.distinct j
  · exact fun conn hheld => h.stamp conn (holds_clean hz hheld)
  · exact fun conn hheld => h.past conn (holds_clean hz hheld)
  · rw [ConnSys.step, clean_lastBucket hz _ _ h.cursor]
    have hsize : AF_CONN_HASH_SIZE = 256 := rfl
    split <;> omega

/-- The table that `af_conn_find_and_add` leaves holds a record for the key. -/
theorem TableInv.findAndAdd {s : ConnSys w} (h : TableInv jhash s) {key : ConnKey}
    {kmalloc : Bool} {t : ConnTable w}
    (ht : afConnFindAndAdd jhash s.table key (BitVec.ofNat w s.now) kmalloc = some t) :
    Placed (fun conn => afConnHash jhash conn.key) t.afConnTable ∧
      Distinct AfConnEntry.key t.afConnTable ∧ t.lastBucket = s.table.lastBucket ∧
      ∀ conn, t.afConnTable.Holds conn → s.table.afConnTable.Holds conn ∨ conn.key = key := by
  rw [afConnFindAndAdd] at ht
  split at ht
  · obtain rfl := Option.some.inj ht
    exact ⟨h.placed, h.distinct, rfl, fun conn hheld => .inl hheld⟩
  · rename_i hnone
    split at ht
    · obtain rfl := Option.some.inj ht
      have hfresh := List.find?_eq_none.mp hnone
      refine ⟨h.placed.modify ?_, h.distinct.modify ?_, rfl, ?_⟩
      · intro conn hmem
        rcases List.mem_cons.mp hmem with rfl | hmem
        · rfl
        · exact h.placed _ conn hmem
      · rw [List.map_cons, List.nodup_cons]
        refine ⟨fun hmem => ?_, h.distinct _⟩
        obtain ⟨conn, hin, hkey⟩ := List.mem_map.mp hmem
        exact hfresh conn hin (beq_iff_eq.mpr hkey)
      · intro conn hheld
        rcases holds_of_modify hheld with hmem | ⟨j, -, hmem⟩
        · rcases List.mem_cons.mp hmem with rfl | hmem
          · exact .inr rfl
          · exact .inl ⟨_, hmem⟩
        · exact .inl ⟨j, hmem⟩
    · cases ht

theorem TableInv.packet {s : ConnSys w} (h : TableInv jhash s) (key : ConnKey) (kmalloc : Bool)
    (decide : AfConn → AfConn) :
    TableInv jhash (s.step jhash hz (.packet key kmalloc decide)) := by
  -- the ghost time of a key no record has may move freely
  have hother : ∀ conn : AfConnEntry w, s.table.afConnTable.Holds conn → conn.key ≠ key →
      conn.lastJiffies = BitVec.ofNat w (if conn.key = key then s.now else s.lastUse conn.key) ∧
        (if conn.key = key then s.now else s.lastUse conn.key) ≤ s.now := by
    intro conn hheld hne
    rw [if_neg hne]
    exact ⟨h.stamp conn hheld, h.past conn hheld⟩
  rw [ConnSys.step, connPacket]
  cases hadd : afConnFindAndAdd jhash s.table key (BitVec.ofNat w s.now) kmalloc with
  | none =>
    have hne : ∀ conn, s.table.afConnTable.Holds conn → conn.key ≠ key := by
      rw [afConnFindAndAdd] at hadd
      split at hadd
      · cases hadd
      · rename_i hnone
        rintro conn hheld rfl
        exact List.find?_eq_none.mp hnone conn ((h.placed.holds_iff conn).mp hheld)
          (beq_self_eq_true _)
    exact ⟨h.placed, h.distinct, fun conn hheld => (hother conn hheld (hne conn hheld)).1,
      fun conn hheld => (hother conn hheld (hne conn hheld)).2, h.cursor⟩
  | some t =>
    obtain ⟨hplaced, hdistinct, hcursor, hheld⟩ := h.findAndAdd jhash hadd
    dsimp only
    have hentry : ∀ conn : AfConnEntry w, (t.afConnTable.modify (afConnHash jhash key)
        (updateFirst (fun conn => conn.key == key) fun conn =>
          { conn with conn := decide conn.conn,
                      lastJiffies := BitVec.ofNat w s.now })).Holds conn →
        conn.lastJiffies = BitVec.ofNat w (if conn.key = key then s.now else s.lastUse conn.key) ∧
          (if conn.key = key then s.now else s.lastUse conn.key) ≤ s.now := by
      intro conn hheld'
      rcases holds_of_modify hheld' with hmem | ⟨j, hj, hmem⟩
      · rcases mem_updateFirst (hdistinct _) hmem with ⟨hin, hne⟩ | ⟨conn, hin, hkey, rfl⟩
        · rcases hheld conn ⟨_, hin⟩ with hold | hkey
          · exact hother conn hold hne
          · exact absurd hkey hne
        · rw [if_pos hkey]
          exact ⟨rfl, Nat.le_refl _⟩
      · have hne : conn.key ≠ key := by
          rintro rfl
          exact hj (hplaced j conn hmem).symm
        rcases hheld conn ⟨j, hmem⟩ with hold | hkey
        · exact hother conn hold hne
        · exact absurd hkey hne
    refine ⟨hplaced.modify ?_, hdistinct.modify ?_, fun conn hheld => (hentry conn hheld).1,
      fun conn hheld => (hentry conn hheld).2, ?_⟩
    · intro conn hmem
      rcases mem_updateFirst (hdistinct _) hmem with ⟨hin, -⟩ | ⟨conn, hin, -, rfl⟩
      · exact hplaced _ conn hin
      · exact hplaced _ conn hin
    · rw [map_updateFirst AfConnEntry.key (by intros; rfl)]
      exact hdistinct _
    · exact hcursor.trans_lt h.cursor

/-- **One event** keeps the invariant. -/
theorem TableInv.step {s t : ConnSys w} {e : ConnTableEvent} (h : TableInv jhash s)
    (hstep : connTableStep jhash hz s e t) : TableInv jhash t := by
  obtain rfl := hstep
  cases e with
  | packet key kmalloc decide => exact h.packet jhash hz key kmalloc decide
  | tick => exact h.tick jhash hz
  | time elapsed =>
    exact ⟨h.placed, h.distinct, h.stamp,
      fun conn hheld => Nat.le_trans (h.past conn hheld) (Nat.le_add_right _ _), h.cursor⟩

/-! ## 5. Idle records -/

/-- A packet leaves the records of the other keys. -/
theorem key_of_packet {s : ConnSys w} (h : TableInv jhash s) {key : ConnKey} {kmalloc : Bool}
    {decide : AfConn → AfConn} {conn : AfConnEntry w}
    (hheld : (s.step jhash hz (.packet key kmalloc decide)).table.afConnTable.Holds conn)
    (hne : conn.key ≠ key) : s.table.afConnTable.Holds conn := by
  rw [ConnSys.step, connPacket] at hheld
  cases hadd : afConnFindAndAdd jhash s.table key (BitVec.ofNat w s.now) kmalloc with
  | none =>
    rw [hadd] at hheld
    exact hheld
  | some t =>
    obtain ⟨-, hdistinct, -, hold⟩ := h.findAndAdd jhash hadd
    rw [hadd] at hheld
    have hin : t.afConnTable.Holds conn := by
      rcases holds_of_modify hheld with hmem | ⟨j, -, hmem⟩
      · rcases mem_updateFirst (hdistinct _) hmem with ⟨hin, -⟩ | ⟨conn, -, hkey, rfl⟩
        · exact ⟨_, hin⟩
        · exact absurd hkey hne
      · exact ⟨j, hmem⟩
    exact (hold conn hin).resolve_right hne

/-- No packet of the connection comes, and every tick finds it idle for longer than the timeout. -/
def StaysIdle (key : ConnKey) (s : ConnSys w) : ConnTableEvent → Prop
  | .packet k _ _ => k ≠ key
  | .tick => AgesFit s ∧ AF_CONN_TIMEOUT * hz < s.now - s.lastUse key
  | .time _ => True

/-- The ticks before the one that reaches bucket `b` from cursor `c`. -/
def ticksBefore (c b : Nat) : Nat :=
  if c ≤ b then (b - c) / 5 else max 1 ((259 - c) / 5) + b / 5

theorem ticksBefore_le {c b : Nat} (hc : c < 256) (hb : b < 256) : ticksBefore c b ≤ 51 := by
  rw [ticksBefore]
  split <;> omega

/-- A tick that does not reach the bucket comes nearer to it. -/
theorem ticksBefore_lt {c b : Nat} (hc : c < 256) (hb : b < 256) (h : ¬ (c ≤ b ∧ b < c + 6)) :
    ticksBefore (if 250 ≤ c then 0 else c + 5) b < ticksBefore c b := by
  rw [ticksBefore, ticksBefore]
  split <;> split <;> split <;> omega

/-- A tick that reaches the bucket of an idle connection frees its record. -/
theorem idle_freed {s : ConnSys w} (h : TableInv jhash s)
    (hclock : 2 * (AF_CONN_TIMEOUT * hz) < 2 ^ w) (hages : AgesFit s) {key : ConnKey}
    (hidle : AF_CONN_TIMEOUT * hz < s.now - s.lastUse key)
    (hreach : s.table.lastBucket ≤ (afConnHash jhash key).val ∧
      (afConnHash jhash key).val < s.table.lastBucket + 6) {conn : AfConnEntry w}
    (hheld : (s.step jhash hz .tick).table.afConnTable.Holds conn) : conn.key ≠ key := by
  rintro rfl
  have hmem := ((h.tick jhash hz).placed.holds_iff conn).mp hheld
  have hold : s.table.afConnTable.Holds conn := holds_clean hz hheld
  rw [ConnSys.step, clean_chain, if_pos hreach, cleanBucket, List.mem_filter, h.stamp conn hold,
    Bool.not_eq_true', Bool.eq_false_iff] at hmem
  exact hmem.2 ((timeAfter_iff (h.past conn hold) (hages conn hold) hclock).mpr hidle)

theorem idle_gone {s t : ConnSys w} (h : TableInv jhash s)
    (hclock : 2 * (AF_CONN_TIMEOUT * hz) < 2 ^ w) {key : ConnKey} {es : List ConnTableEvent}
    (hpath : Path (connTableStep jhash hz) (StaysIdle hz key) s es t)
    (hticks : 52 ≤ es.countP ConnTableEvent.isTick) (conn : AfConnEntry w)
    (hheld : t.table.afConnTable.Holds conn) : conn.key ≠ key := by
  have hb : (afConnHash jhash key).val < 256 := (afConnHash jhash key).isLt
  refine Path.progress (TableInv jhash)
    (fun s => ∀ conn, s.table.afConnTable.Holds conn → conn.key ≠ key)
    (fun s => ticksBefore s.table.lastBucket (afConnHash jhash key).val)
    ConnTableEvent.isTick ?_ ?_ ?_ ?_ hpath h (.inl ?_) conn hheld
  · exact fun s e t hinv _ hstep => hinv.step jhash hz hstep
  · rintro s e _ hinv hcond rfl hgone conn hheld
    cases e with
    | packet k kmalloc decide =>
      by_cases hk : conn.key = k
      · rw [hk]
        exact hcond
      · exact hgone conn (key_of_packet jhash hz hinv hheld hk)
    | tick => exact hgone conn (holds_clean hz hheld)
    | time elapsed => exact hgone conn hheld
  · rintro s e _ hinv hcond rfl hcount
    cases e with
    | packet k kmalloc decide =>
      have hcursor : (connPacket jhash s.table k (BitVec.ofNat w s.now) kmalloc decide).lastBucket
          = s.table.lastBucket := by
        rw [connPacket]
        split
        · rfl
        · rename_i hadd
          exact (hinv.findAndAdd jhash hadd).2.2.1
      dsimp only [ConnSys.step]
      rw [hcursor]
    | tick => cases hcount
    | time elapsed => exact Nat.le_refl _
  · rintro s e _ hinv hcond rfl hcount
    cases e with
    | packet => cases hcount
    | time => cases hcount
    | tick =>
      by_cases hreach : s.table.lastBucket ≤ (afConnHash jhash key).val ∧
          (afConnHash jhash key).val < s.table.lastBucket + 6
      · exact .inl fun conn hheld => idle_freed jhash hz hinv hclock hcond.1 hcond.2 hreach hheld
      · refine .inr ?_
        dsimp only [ConnSys.step]
        rw [clean_lastBucket hz _ _ hinv.cursor]
        exact ticksBefore_lt hinv.cursor hb hreach
  · exact Nat.lt_of_le_of_lt (ticksBefore_le h.cursor hb) hticks

/-- **The connection table.**  In every run, every record is in the bucket of its hash and no two
share a 5-tuple; a tick frees only records that were idle for longer than the timeout; and a
record that stays idle beyond it is gone after 52 ticks. -/
theorem conn_table_sound (hclock : 2 * (AF_CONN_TIMEOUT * hz) < 2 ^ w) {s : ConnSys w}
    (hrun : Reaches (connTableStep jhash hz) Always {} s) :
    (Placed (fun conn => afConnHash jhash conn.key) s.table.afConnTable ∧
      Distinct AfConnEntry.key s.table.afConnTable) ∧
    (AgesFit s → ∀ conn, s.table.afConnTable.Holds conn →
      ¬ (afConnCleanTimeout hz (BitVec.ofNat w s.now) s.table).afConnTable.Holds conn →
      AF_CONN_TIMEOUT * hz < s.now - s.lastUse conn.key) ∧
    (∀ key es t, Path (connTableStep jhash hz) (StaysIdle hz key) s es t →
      52 ≤ es.countP ConnTableEvent.isTick →
      ∀ conn, t.table.afConnTable.Holds conn → conn.key ≠ key) := by
  have hinv : TableInv jhash s := by
    refine Reaches.invariant (fun s e t hs _ hstep => hs.step jhash hz hstep) hrun ?_
    exact ⟨fun _ _ h => absurd h List.not_mem_nil, fun _ => List.nodup_nil,
      fun conn hheld => absurd hheld.choose_spec List.not_mem_nil,
      fun conn hheld => absurd hheld.choose_spec List.not_mem_nil, Nat.zero_lt_succ _⟩
  refine ⟨⟨hinv.placed, hinv.distinct⟩, fun hages conn hheld hfreed => ?_,
    fun key es t hpath hticks conn hheld => idle_gone jhash hz hinv hclock hpath hticks conn hheld⟩
  obtain ⟨j, hmem⟩ := hheld
  have hexpired : timeAfter (BitVec.ofNat w s.now)
      (conn.lastJiffies + BitVec.ofNat w (AF_CONN_TIMEOUT * hz)) = true := by
    by_contra hfresh
    refine hfreed ⟨j, ?_⟩
    rw [clean_chain]
    split
    · exact List.mem_filter.mpr ⟨hmem, by rw [Bool.not_eq_true', Bool.eq_false_iff]; exact hfresh⟩
    · exact hmem
  rw [hinv.stamp conn ⟨j, hmem⟩] at hexpired
  exact (timeAfter_iff (hinv.past conn ⟨j, hmem⟩) (hages conn ⟨j, hmem⟩) hclock).mp hexpired

/-- `jhash_3words` as the kernel has it. -/
def jhash3words : Jhash3Words := fun a b c initval =>
  let rol32 (x : UInt32) (n : UInt32) : UInt32 := x <<< n ||| x >>> (32 - n)
  let start := initval + 0xdeadbeef + 12
  let (a, b, c) := (a + start, b + start, c + start)
  let c := (c ^^^ b) - rol32 b 14
  let a := (a ^^^ c) - rol32 c 11
  let b := (b ^^^ a) - rol32 a 25
  let c := (c ^^^ b) - rol32 b 16
  let a := (a ^^^ c) - rol32 c 4
  let b := (b ^^^ a) - rol32 a 14
  (c ^^^ b) - rol32 b 24

def sampleKey : ConnKey := ⟨0xC0A80102, 0x08080808, 10000, 9999, 17⟩

/-- One packet, and 31 seconds. -/
def idleConn : ConnSys 32 :=
  (({} : ConnSys 32).step jhash3words 100 (.packet sampleKey true id)).step jhash3words 100
    (.time 3100)

theorem path_ticks {s : ConnSys w} {key : ConnKey} (hages : AgesFit s)
    (hidle : AF_CONN_TIMEOUT * hz < s.now - s.lastUse key) (n : Nat) :
    ∃ t, Path (connTableStep jhash hz) (StaysIdle hz key) s (List.replicate n .tick) t := by
  induction n generalizing s with
  | zero => exact ⟨s, .nil s⟩
  | succ n ih =>
    have hages' : AgesFit (s.step jhash hz .tick) :=
      fun conn hheld => hages conn (holds_clean hz hheld)
    obtain ⟨t, hpath⟩ := ih hages' hidle
    exact ⟨t, .cons ⟨hages, hidle⟩ rfl hpath⟩

/-- The record is there before 52 ticks, and not after them. -/
theorem conn_table_sound_idle :
    (afConnFind jhash3words idleConn.table sampleKey).isSome = true ∧
    ∃ t, Path (connTableStep jhash3words 100) (StaysIdle 100 sampleKey) idleConn
        (List.replicate 52 .tick) t ∧
      ∀ conn, t.table.afConnTable.Holds conn → conn.key ≠ sampleKey := by
  have hrun : Reaches (connTableStep jhash3words 100) Always {} idleConn :=
    (Reaches.refl.tail (e := .packet sampleKey true id) trivial rfl).tail (e := .time 3100)
      trivial rfl
  have hages : AgesFit idleConn := by
    intro conn _
    have hnow : idleConn.now = 3100 := rfl
    omega
  obtain ⟨t, hpath⟩ := path_ticks jhash3words 100 hages
    (show AF_CONN_TIMEOUT * 100 < idleConn.now - idleConn.lastUse sampleKey by decide) 52
  exact ⟨by decide +kernel, t, hpath,
    (conn_table_sound jhash3words 100 (by decide) hrun).2.2 sampleKey _ t hpath (by decide)⟩

end Oaf
