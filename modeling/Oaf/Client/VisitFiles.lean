/-
# The visits as files

Two files under `/proc` list the visits: `af_client_visit_list` those of all clients, `visit_list`
those of one.  Both iterators find a position by counting down in the position that they were
given, and leave 0 there; that of all clients takes a client without visits for the end.

* `single_rewinding`, `client_rewinding`: both are rewinding iterators.
* `visit_files_complete_iff`: a file shows every visit once, and its reading ends, iff the first
  call has room for all of it, and, for all clients, no client without visits stands before one
  that has some.
-/
import Oaf.Client.VisitReport
import Oaf.Hook.Clients
import Oaf.Lib.Cursor
import Oaf.Lib.SeqFile

namespace Oaf

open Chains SeqFile

/-! ## 1. The iterators -/

/-- What an iterator is at: `SEQ_START_TOKEN` or an entry. -/
inductive SeqItem
  | startToken
  | info (v : AppVisitInfo)

/-- `af_client_info_t`, what is listed of it. -/
structure ClientVisits where
  mac : Mac
  visitInfoHash : VisitTable

/-- A line of a file.  Without a client nothing is printed. -/
inductive VisitLine
  | header
  | entry (v : AppVisitInfo)
  | clientEntry (mac : Mac) (v : AppVisitInfo)
  | nothing

/-- `single_client_visit_iter_state`, without the client. -/
abbrev SingleVisitIter := Cursor AppVisitInfo

/-- The loop of `single_client_visit_seq_start`. -/
def singleClientVisitSkip (t : VisitTable) :
    Nat → SingleVisitIter → Option SeqItem × SingleVisitIter × Nat
  | 0, st => (st.node.head?.map .info, st, 0)
  | pos + 1, st =>
    let st := st.advance t
    if st.node.isEmpty then (none, st, pos + 1) else singleClientVisitSkip t pos st

/-- `single_client_visit_seq_start`. -/
def singleClientVisitSeqStart (t : VisitTable) (st : SingleVisitIter) (pos : Nat) :
    Option SeqItem × SingleVisitIter × Nat :=
  if pos = 0 then (some .startToken, st, 0)
  else
    let st := firstChain t 0
    if st.node.isEmpty then (none, st, pos) else singleClientVisitSkip t (pos - 1) st

/-- `single_client_visit_seq_next`. -/
def singleClientVisitSeqNext (t : VisitTable) (st : SingleVisitIter) (v : SeqItem) (pos : Nat) :
    Option SeqItem × SingleVisitIter × Nat :=
  let st := match v with
    | .startToken => firstChain t 0
    | .info _ => st.advance t
  (st.node.head?.map .info, st, pos + 1)

/-- `single_client_visit_seq_ops`. -/
def singleClientVisitSeqOps (t : VisitTable) : SeqOps SingleVisitIter SeqItem VisitLine where
  start := singleClientVisitSeqStart t
  next := singleClientVisitSeqNext t
  shown _ v := match v with
    | .startToken => .header
    | .info v => .entry v

/-- `af_client_list_table`, what is listed of it. -/
abbrev ClientVisitTable := Table MAX_AF_CLIENT_HASH_SIZE ClientVisits

/-- `af_client_visit_iter_state`. -/
structure ClientVisitIter where
  clientBucket : Nat
  visitBucket : Nat
  currentClient : List ClientVisits
  currentVisitNode : List AppVisitInfo

namespace ClientVisitIter

/-- The two cursors. -/
def client (st : ClientVisitIter) : Cursor ClientVisits := ⟨st.clientBucket, st.currentClient⟩
def visit (st : ClientVisitIter) : Cursor AppVisitInfo := ⟨st.visitBucket, st.currentVisitNode⟩

/-- `af_client_visit_get_first_client`. -/
def getFirstClient (table : ClientVisitTable) (st : ClientVisitIter) :
    Option ClientVisits × ClientVisitIter :=
  let c := firstChain table 0
  match c.node with
  | [] => (none, { st with clientBucket := c.bucket })
  | client :: _ =>
    (some client, { st with clientBucket := c.bucket, currentClient := c.node, visitBucket := 0 })

/-- `af_client_visit_get_next_visit`. -/
def getNextVisit (st : ClientVisitIter) (client : ClientVisits) :
    Option AppVisitInfo × ClientVisitIter :=
  let c := firstChain client.visitInfoHash st.visitBucket
  match c.node with
  | [] => (none, { st with visitBucket := c.bucket })
  | info :: _ => (some info, { st with visitBucket := c.bucket, currentVisitNode := c.node })

/-- `af_client_visit_get_next`. -/
def getNext (st : ClientVisitIter) : Option AppVisitInfo × ClientVisitIter :=
  match st.currentClient with
  | [] => (none, st)
  | client :: _ =>
    let c := st.visit.advance client.visitInfoHash
    (c.node.head?, { st with visitBucket := c.bucket, currentVisitNode := c.node })

/-- `af_client_visit_get_next_client`. -/
def getNextClient (table : ClientVisitTable) (st : ClientVisitIter) :
    Option AppVisitInfo × ClientVisitIter :=
  match st.currentClient with
  | [] => (none, st)
  | _ :: _ =>
    let c := st.client.advance table
    match c.node with
    | [] => (none, { st with clientBucket := c.bucket })
    | client :: _ => getNextVisit
        { clientBucket := c.bucket, currentClient := c.node, visitBucket := 0,
          currentVisitNode := [] } client

/-- The first entry: of the first client, if it has one. -/
def getFirst (table : ClientVisitTable) (st : ClientVisitIter) :
    Option AppVisitInfo × ClientVisitIter :=
  match st.getFirstClient table with
  | (none, st) => (none, st)
  | (some client, st) => st.getNextVisit client

/-- The entry behind: of the client, or of the next one, if it has one. -/
def step (table : ClientVisitTable) (st : ClientVisitIter) : Option AppVisitInfo × ClientVisitIter :=
  match st.getNext with
  | (some info, st) => (some info, st)
  | (none, st) => st.getNextClient table

end ClientVisitIter

/-- The loop of `af_client_visit_seq_start`. -/
def afClientVisitSkip (table : ClientVisitTable) :
    Nat → Option AppVisitInfo × ClientVisitIter → Option SeqItem × ClientVisitIter × Nat
  | 0, (v, st) => (v.map .info, st, 0)
  | pos + 1, (none, st) => (none, st, pos + 1)
  | pos + 1, (some _, st) => afClientVisitSkip table pos (st.step table)

/-- `af_client_visit_seq_start`. -/
def afClientVisitSeqStart (table : ClientVisitTable) (st : ClientVisitIter) (pos : Nat) :
    Option SeqItem × ClientVisitIter × Nat :=
  if pos = 0 then (some .startToken, st, 0)
  else
    match st.getFirstClient table with
    | (none, st) => (none, st, pos)
    | (some client, st) => afClientVisitSkip table (pos - 1) (st.getNextVisit client)

/-- `af_client_visit_seq_next`. -/
def afClientVisitSeqNext (table : ClientVisitTable) (st : ClientVisitIter) (v : SeqItem)
    (pos : Nat) : Option SeqItem × ClientVisitIter × Nat :=
  let (next, st) := match v with
    | .startToken => st.getFirst table
    | .info _ => st.step table
  (next.map .info, st, pos + 1)

/-- `af_client_visit_seq_ops`. -/
def afClientVisitSeqOps (table : ClientVisitTable) : SeqOps ClientVisitIter SeqItem VisitLine where
  start := afClientVisitSeqStart table
  next := afClientVisitSeqNext table
  shown st v := match v, st.currentClient with
    | .startToken, _ => .header
    | .info _, [] => .nothing
    | .info v, client :: _ => .clientEntry client.mac v

/-! ## 2. One client -/

/-- The iterator of one client is at a line. -/
inductive SingleAt (t : VisitTable) : SingleVisitIter → SeqItem → Nat → Prop
  | token (st : SingleVisitIter) : SingleAt t st .startToken 0
  | info {st : SingleVisitIter} {v : AppVisitInfo} {next : List AppVisitInfo} {i : Nat}
      (node : st.node = v :: next) (pending : st.pending t = (visitEntries t).drop i) :
      SingleAt t st (.info v) (i + 1)

/-- Where an iterator with something left stands. -/
theorem singleAt_of_pending {t : VisitTable} {st : SingleVisitIter} {i : Nat}
    (hnode : st.node ≠ []) (hpending : st.pending t = (visitEntries t).drop i) :
    ∃ v, st.node.head?.map SeqItem.info = some (.info v) ∧ SingleAt t st (.info v) (i + 1) := by
  obtain ⟨v, next, hnext⟩ := List.exists_cons_of_ne_nil hnode
  exact ⟨v, by rw [hnext]; rfl, .info hnext hpending⟩

/-- One element further. -/
theorem single_advance {t : VisitTable} {st : SingleVisitIter} {v : AppVisitInfo}
    {next : List AppVisitInfo} {i : Nat} (hnode : st.node = v :: next)
    (hpending : st.pending t = (visitEntries t).drop i) :
    (st.advance t).pending t = (visitEntries t).drop (i + 1) ∧
      ((st.advance t).node = [] ↔ (visitEntries t).length ≤ i + 1) := by
  have htail : next ++ t.from (st.bucket + 1) = (visitEntries t).drop (i + 1) := by
    rw [← List.tail_drop, ← hpending, Cursor.pending, hnode]
    rfl
  rw [pending_advance hnode, advance_node_eq_nil_iff hnode, htail, List.drop_eq_nil_iff]
  exact ⟨rfl, Iff.rfl⟩

theorem single_first (t : VisitTable) :
    (firstChain t 0).pending t = (visitEntries t).drop 0 ∧
      ((firstChain t 0).node = [] ↔ (visitEntries t).length ≤ 0) := by
  rw [pending_firstChain, firstChain_node_eq_nil_iff, from_zero, Nat.le_zero,
    List.length_eq_zero_iff]
  exact ⟨rfl, Iff.rfl⟩

/-- Counting down to a position. -/
theorem single_skip {t : VisitTable} (pos : Nat) {st : SingleVisitIter} {i : Nat}
    (hnode : st.node ≠ []) (hpending : st.pending t = (visitEntries t).drop i) :
    if i + pos < (visitEntries t).length then
      ∃ v st', singleClientVisitSkip t pos st = (some v, st', 0) ∧ SingleAt t st' v (i + pos + 1)
    else ∃ st' q, singleClientVisitSkip t pos st = (none, st', q) := by
  have hlt : i < (visitEntries t).length := by
    by_contra hge
    rw [List.drop_eq_nil_of_le (by omega), Cursor.pending] at hpending
    exact hnode (List.append_eq_nil_iff.mp hpending).1
  induction pos generalizing st i with
  | zero =>
    rw [Nat.add_zero, if_pos hlt]
    obtain ⟨v, hhead, hat⟩ := singleAt_of_pending hnode hpending
    exact ⟨.info v, st, by rw [singleClientVisitSkip, hhead], hat⟩
  | succ pos ih =>
    obtain ⟨v, next, hnext⟩ := List.exists_cons_of_ne_nil hnode
    obtain ⟨hpending', hnil⟩ := single_advance hnext hpending
    rw [singleClientVisitSkip]
    by_cases hend : (visitEntries t).length ≤ i + 1
    · rw [if_neg (by omega)]
      exact ⟨_, _, if_pos (by simpa using hnil.mpr hend)⟩
    · have hne : (st.advance t).node ≠ [] := fun h => hend (hnil.mp h)
      have hmore := ih hne hpending' (by omega)
      have hstep : (if (st.advance t).node.isEmpty then
          ((none : Option SeqItem), st.advance t, pos + 1)
          else singleClientVisitSkip t pos (st.advance t)) =
            singleClientVisitSkip t pos (st.advance t) := if_neg (by simpa using hne)
      have hsum : i + 1 + pos = i + (pos + 1) := by omega
      rw [hsum] at hmore
      rw [hstep]
      exact hmore

/-- The lines of the file of one client. -/
def singleLines (t : VisitTable) : List VisitLine := .header :: (visitEntries t).map .entry

theorem single_rewinding (t : VisitTable) :
    Rewinding (singleClientVisitSeqOps t) (singleLines t) (SingleAt t) where
  start_of_lt st p hp := by
    cases p with
    | zero => exact ⟨.startToken, st, rfl, .token st⟩
    | succ i =>
      have hlt : i < (visitEntries t).length := by simpa [singleLines] using hp
      obtain ⟨hpending, hnil⟩ := single_first t
      have hne : (firstChain t 0).node ≠ [] := fun h => by
        have := hnil.mp h
        omega
      have hskip := single_skip i hne hpending
      rw [Nat.zero_add, if_pos hlt] at hskip
      have hstart : singleClientVisitSeqStart t st (i + 1) =
          singleClientVisitSkip t i (firstChain t 0) := by
        rw [singleClientVisitSeqStart, if_neg (Nat.succ_ne_zero i)]
        exact if_neg (by simpa using hne)
      obtain ⟨v, st', hfound, hat⟩ := hskip
      exact ⟨v, st', hstart.trans hfound, hat⟩
  start_of_le st p hp := by
    obtain ⟨hpending, hnil⟩ := single_first t
    have hlen : (visitEntries t).length + 1 ≤ p := by simpa [singleLines] using hp
    have hstart : singleClientVisitSeqStart t st p =
        if (firstChain t 0).node.isEmpty then (none, firstChain t 0, p)
        else singleClientVisitSkip t (p - 1) (firstChain t 0) := by
      rw [singleClientVisitSeqStart, if_neg (by omega)]
    by_cases hne : (firstChain t 0).node = []
    · exact ⟨_, _, hstart.trans (if_pos (by simpa using hne))⟩
    · have hskip := single_skip (p - 1) hne hpending
      rw [if_neg (by omega)] at hskip
      obtain ⟨st', q, hskip⟩ := hskip
      exact ⟨st', q, (hstart.trans (if_neg (by simpa using hne))).trans hskip⟩
  next_of_lt st v i pos hat hlt := by
    have hlen : i < (visitEntries t).length := by simpa [singleLines] using hlt
    cases hat with
    | token =>
      obtain ⟨hpending, hnil⟩ := single_first t
      obtain ⟨v, hhead, hat⟩ := singleAt_of_pending (fun h => absurd (hnil.mp h) (by omega)) hpending
      exact ⟨.info v, firstChain t 0, congrArg (·, firstChain t 0, pos + 1) hhead, hat⟩
    | info hnode hpending =>
      obtain ⟨hpending', hnil⟩ := single_advance hnode hpending
      obtain ⟨v, hhead, hat⟩ :=
        singleAt_of_pending (fun h => absurd (hnil.mp h) (by omega)) hpending'
      exact ⟨.info v, st.advance t, congrArg (·, st.advance t, pos + 1) hhead, hat⟩
  next_of_le st v i pos hat hle := by
    have hlen : (visitEntries t).length ≤ i := by simpa [singleLines] using hle
    cases hat with
    | token =>
      refine ⟨firstChain t 0, ?_⟩
      have hnil := (single_first t).2.mpr hlen
      exact congrArg (·, firstChain t 0, pos + 1) (by rw [hnil]; rfl)
    | info hnode hpending =>
      refine ⟨st.advance t, ?_⟩
      have hnil := (single_advance hnode hpending).2.mpr hlen
      exact congrArg (·, st.advance t, pos + 1) (by rw [hnil]; rfl)
  shown st v i hat := by
    cases hat with
    | token => rfl
    | @info v next i hnode hpending =>
      have hget : (visitEntries t)[i]? = some v := by
        rw [← List.head?_drop, ← hpending, Cursor.pending, hnode]
        rfl
      rw [singleLines, List.getElem?_cons_succ, List.getElem?_map, hget]
      rfl

/-! ## 3. All clients -/

/-- The entries of a client, with its address. -/
def ClientVisits.entries (c : ClientVisits) : List (Mac × AppVisitInfo) :=
  (visitEntries c.visitInfoHash).map fun v => (c.mac, v)

/-- The entries that are reached: those of the clients before the first without visits. -/
def listedOf (clients : List ClientVisits) : List (Mac × AppVisitInfo) :=
  (clients.takeWhile fun c => !c.entries.isEmpty).flatMap ClientVisits.entries

theorem listedOf_cons (c : ClientVisits) (clients : List ClientVisits) :
    listedOf (c :: clients) = if c.entries = [] then [] else c.entries ++ listedOf clients := by
  rw [listedOf]
  by_cases h : c.entries = []
  · rw [if_pos h, List.takeWhile_cons_of_neg (by simp [h])]
    rfl
  · rw [if_neg h, List.takeWhile_cons_of_pos (by simpa using h), List.flatMap_cons]
    rfl

section
variable (table : ClientVisitTable)

/-- The iterator is at an entry `v`, and `left` is what it still reaches, that entry first. -/
structure ClientLeft (st : ClientVisitIter) (v : AppVisitInfo) (left : List (Mac × AppVisitInfo)) :
    Prop where
  at_entry : ∃ c cs next, st.currentClient = c :: cs ∧ st.currentVisitNode = v :: next ∧
    left = ((st.visit.pending c.visitInfoHash).map fun v => (c.mac, v)) ++
      listedOf (cs ++ table.from (st.clientBucket + 1))

/-- A step came to an entry, or to the end. -/
def FindsNext (found : Option AppVisitInfo × ClientVisitIter) (left : List (Mac × AppVisitInfo)) :
    Prop :=
  (left = [] ∧ found.1 = none) ∨ ∃ v, found.1 = some v ∧ ClientLeft table found.2 v left

variable {table} {st : ClientVisitIter}

/-- Entering a client. -/
theorem reaches_getNextVisit {c : ClientVisits} {cs : List ClientVisits}
    (hclient : st.currentClient = c :: cs) (hbucket : st.visitBucket = 0) :
    FindsNext table (st.getNextVisit c) (listedOf (st.client.pending table)) := by
  have hpending := pending_firstChain c.visitInfoHash 0
  have hnil := firstChain_node_eq_nil_iff c.visitInfoHash 0
  have hall : st.client.pending table = c :: (cs ++ table.from (st.clientBucket + 1)) := by
    rw [Cursor.pending, ClientVisitIter.client, hclient]
    rfl
  rw [hall, listedOf_cons, ClientVisitIter.getNextVisit, hbucket]
  cases hnode : (firstChain c.visitInfoHash 0).node with
  | nil =>
    have hempty : c.entries = [] := by
      rw [ClientVisits.entries, visitEntries, ← from_zero, hnil.mp hnode]
      rfl
    rw [if_pos hempty]
    exact Or.inl ⟨rfl, rfl⟩
  | cons v next =>
    have hne : ¬ c.entries = [] := by
      rw [ClientVisits.entries, List.map_eq_nil_iff]
      intro h
      rw [hnil.mpr h] at hnode
      cases hnode
    rw [if_neg hne]
    refine Or.inr ⟨v, rfl, ⟨c, cs, next, hclient, rfl, ?_⟩⟩
    have hvisit : Cursor.pending c.visitInfoHash ⟨(firstChain c.visitInfoHash 0).bucket, v :: next⟩ =
        visitEntries c.visitInfoHash := by
      rw [← hnode]
      exact hpending
    exact congrArg (· ++ _) (congrArg (List.map _) hvisit.symm)

/-- **The first entry.** -/
theorem reaches_getFirst (st : ClientVisitIter) :
    FindsNext table (st.getFirst table) (listedOf (table.from 0)) := by
  have hpending := pending_firstChain table 0
  rw [ClientVisitIter.getFirst, ClientVisitIter.getFirstClient]
  cases hnode : (firstChain table 0).node with
  | nil =>
    rw [(firstChain_node_eq_nil_iff table 0).mp hnode]
    exact Or.inl ⟨rfl, rfl⟩
  | cons c cs =>
    rw [← hpending]
    have hreach := @reaches_getNextVisit table
      { st with clientBucket := (firstChain table 0).bucket, currentClient := c :: cs,
                visitBucket := 0 } c cs rfl rfl
    have hsame : (ClientVisitIter.client { st with
        clientBucket := (firstChain table 0).bucket, currentClient := c :: cs,
        visitBucket := 0 }) = firstChain table 0 := by
      rw [ClientVisitIter.client, ← hnode]
    rw [hsame] at hreach
    exact hreach

/-- The next client. -/
theorem reaches_getNextClient {c : ClientVisits} {cs : List ClientVisits}
    (hclient : st.currentClient = c :: cs) :
    FindsNext table (st.getNextClient table) (listedOf (cs ++ table.from (st.clientBucket + 1))) := by
  have hcursor : st.client.node = c :: cs := hclient
  have hpending := pending_advance (t := table) hcursor
  have hnil := advance_node_eq_nil_iff (t := table) hcursor
  have hbucket : st.client.bucket = st.clientBucket := rfl
  rw [hbucket] at hpending hnil
  rw [ClientVisitIter.getNextClient, hclient]
  cases hnode : (st.client.advance table).node with
  | nil =>
    rw [hnil.mp hnode]
    simp only [hnode]
    exact Or.inl ⟨rfl, rfl⟩
  | cons d ds =>
    simp only [hnode]
    have hreach := @reaches_getNextVisit table ⟨(st.client.advance table).bucket, 0, d :: ds, []⟩
      d ds rfl rfl
    have hsame : (ClientVisitIter.mk (st.client.advance table).bucket 0 (d :: ds) []).client =
        st.client.advance table := by
      rw [ClientVisitIter.client, ← hnode]
    rw [hsame, hpending] at hreach
    exact hreach

/-- **One entry further.** -/
theorem reaches_step {v : AppVisitInfo} {left : List (Mac × AppVisitInfo)}
    (h : ClientLeft table st v left) : FindsNext table (st.step table) left.tail := by
  obtain ⟨c, cs, next, hclient, hnode, rfl⟩ := h.at_entry
  have hvisit : st.visit.node = v :: next := hnode
  have hadvance := pending_advance (t := c.visitInfoHash) hvisit
  have hnil := advance_node_eq_nil_iff (t := c.visitInfoHash) hvisit
  have htail : (((st.visit.pending c.visitInfoHash).map fun v => (c.mac, v)) ++
      listedOf (cs ++ table.from (st.clientBucket + 1))).tail =
        (((st.visit.advance c.visitInfoHash).pending c.visitInfoHash).map fun v => (c.mac, v)) ++
          listedOf (cs ++ table.from (st.clientBucket + 1)) := by
    rw [hadvance, Cursor.pending, hvisit]
    rfl
  rw [htail, ClientVisitIter.step, ClientVisitIter.getNext, hclient]
  cases hnext : (st.visit.advance c.visitInfoHash).node with
  | cons w more =>
    -- another entry of this client
    refine Or.inr ⟨w, ?_, ⟨c, cs, more, ?_, ?_, ?_⟩⟩
    all_goals simp only [hnext, List.head?_cons]
    rw [← hnext]
    rfl
  | nil =>
    -- the next client
    rw [hadvance, hnil.mp hnext, List.map_nil, List.nil_append]
    simp only [hnext, List.head?_nil]
    exact reaches_getNextClient rfl

/-- What is left begins with the entry. -/
theorem ClientLeft.cons {v : AppVisitInfo} {left : List (Mac × AppVisitInfo)}
    (h : ClientLeft table st v left) :
    ∃ c cs rest, st.currentClient = c :: cs ∧ left = (c.mac, v) :: rest := by
  obtain ⟨c, cs, next, hclient, hnode, rfl⟩ := h.at_entry
  refine ⟨c, cs, (next ++ Table.from c.visitInfoHash (st.visitBucket + 1)).map (fun v => (c.mac, v)) ++
    listedOf (cs ++ table.from (st.clientBucket + 1)), hclient, ?_⟩
  rw [Cursor.pending, ClientVisitIter.visit, hnode]
  rfl

/-- Counting down to a position. -/
theorem reaches_skip (pos : Nat) {found : Option AppVisitInfo × ClientVisitIter}
    {left : List (Mac × AppVisitInfo)} (h : FindsNext table found left) :
    if pos < left.length then
      ∃ v st', afClientVisitSkip table pos found = (some (.info v), st', 0) ∧
        ClientLeft table st' v (left.drop pos)
    else ∃ st' q, afClientVisitSkip table pos found = (none, st', q) := by
  induction pos generalizing found left with
  | zero =>
    obtain ⟨v, st⟩ := found
    rcases h with ⟨rfl, hnone⟩ | ⟨v', hsome, hleft⟩
    · obtain rfl : v = none := hnone
      exact ⟨st, 0, rfl⟩
    · obtain rfl : v = some v' := hsome
      obtain ⟨c, cs, rest, -, hcons⟩ := hleft.cons
      have hlt : 0 < left.length := by
        rw [hcons]
        exact Nat.succ_pos _
      rw [if_pos hlt]
      exact ⟨v', st, rfl, hleft⟩
  | succ pos ih =>
    obtain ⟨v, st⟩ := found
    rcases h with ⟨rfl, hnone⟩ | ⟨v', hsome, hleft⟩
    · obtain rfl : v = none := hnone
      exact ⟨st, pos + 1, rfl⟩
    · obtain rfl : v = some v' := hsome
      have hmore := ih (reaches_step hleft)
      rw [List.length_tail, List.drop_tail] at hmore
      by_cases hlt : pos + 1 < left.length
      · rw [if_pos (by omega)] at hmore
        rw [if_pos hlt]
        exact hmore
      · rw [if_neg (by omega)] at hmore
        rw [if_neg hlt]
        exact hmore

variable (table)

/-- The iterator of all clients is at a line. -/
inductive ClientAt : ClientVisitIter → SeqItem → Nat → Prop
  | token (st : ClientVisitIter) : ClientAt st .startToken 0
  | info {st : ClientVisitIter} {v : AppVisitInfo} {i : Nat}
      (left : ClientLeft table st v ((listedOf (table.from 0)).drop i)) : ClientAt st (.info v) (i + 1)

/-- The lines that are reached of the file of all clients. -/
def clientLines : List VisitLine :=
  .header :: (listedOf (table.from 0)).map fun e => .clientEntry e.1 e.2

/-- Where `next` is, when the line behind is the `i`-th entry. -/
theorem next_of_reaches {st : ClientVisitIter} {v : SeqItem} {i : Nat}
    {found : Option AppVisitInfo × ClientVisitIter} (pos : Nat)
    (hnext : afClientVisitSeqNext table st v pos = (found.1.map .info, found.2, pos + 1))
    (h : FindsNext table found ((listedOf (table.from 0)).drop i)) :
    if i < (listedOf (table.from 0)).length then
      ∃ v' st', afClientVisitSeqNext table st v pos = (some v', st', pos + 1) ∧
        ClientAt table st' v' (i + 1)
    else ∃ st', afClientVisitSeqNext table st v pos = (none, st', pos + 1) := by
  rcases h with ⟨hnil, hnone⟩ | ⟨w, hsome, hleft⟩
  · rw [if_neg (by simpa using hnil)]
    exact ⟨found.2, by rw [hnext, hnone]; rfl⟩
  · have hlt : i < (listedOf (table.from 0)).length := by
      obtain ⟨c, cs, rest, -, hcons⟩ := hleft.cons
      by_contra hge
      rw [List.drop_eq_nil_of_le (by omega)] at hcons
      cases hcons
    rw [if_pos hlt]
    exact ⟨.info w, found.2, by rw [hnext, hsome]; rfl, .info hleft⟩

theorem client_next {st : ClientVisitIter} {v : SeqItem} {i : Nat} (pos : Nat)
    (hat : ClientAt table st v i) :
    if i < (listedOf (table.from 0)).length then
      ∃ v' st', afClientVisitSeqNext table st v pos = (some v', st', pos + 1) ∧
        ClientAt table st' v' (i + 1)
    else ∃ st', afClientVisitSeqNext table st v pos = (none, st', pos + 1) := by
  cases hat with
  | token => exact next_of_reaches table pos rfl (reaches_getFirst st)
  | @info v i hleft =>
    have hreach := reaches_step hleft
    rw [List.tail_drop] at hreach
    exact next_of_reaches table pos rfl hreach

theorem client_start (st : ClientVisitIter) (i : Nat) :
    if i < (listedOf (table.from 0)).length then
      ∃ v st', afClientVisitSeqStart table st (i + 1) = (some v, st', 0) ∧
        ClientAt table st' v (i + 1)
    else ∃ st' q, afClientVisitSeqStart table st (i + 1) = (none, st', q) := by
  have hreach := @reaches_getFirst table st
  have hskip := reaches_skip i hreach
  rw [afClientVisitSeqStart, if_neg (Nat.succ_ne_zero i)]
  rw [ClientVisitIter.getFirst] at hskip hreach
  cases hfirst : st.getFirstClient table with
  | mk first st1 =>
    cases first with
    | none =>
      rw [hfirst] at hreach
      have hnil : listedOf (table.from 0) = [] := by
        rcases hreach with ⟨hnil, -⟩ | ⟨v, hsome, -⟩
        · exact hnil
        · cases hsome
      rw [if_neg (by simp [hnil])]
      exact ⟨st1, i + 1, rfl⟩
    | some client =>
      rw [hfirst] at hskip
      split at hskip
      · rename_i hlt
        obtain ⟨v, st', hfound, hleft⟩ := hskip
        rw [if_pos hlt]
        exact ⟨.info v, st', hfound, .info hleft⟩
      · rename_i hge
        rw [if_neg hge]
        exact hskip

theorem client_rewinding :
    Rewinding (afClientVisitSeqOps table) (clientLines table) (ClientAt table) where
  start_of_lt st p hp := by
    cases p with
    | zero => exact ⟨.startToken, st, rfl, .token st⟩
    | succ i =>
      have hstart := client_start table st i
      rw [if_pos (by simpa [clientLines] using hp)] at hstart
      exact hstart
  start_of_le st p hp := by
    obtain ⟨i, rfl⟩ : ∃ i, p = i + 1 := ⟨p - 1, by simp [clientLines] at hp; omega⟩
    have hstart := client_start table st i
    rw [if_neg (by simpa [clientLines] using hp)] at hstart
    exact hstart
  next_of_lt st v i pos hat hlt := by
    have hnext := client_next table pos hat
    rw [if_pos (by simpa [clientLines] using hlt)] at hnext
    exact hnext
  next_of_le st v i pos hat hle := by
    have hnext := client_next table pos hat
    rw [if_neg (by simpa [clientLines] using hle)] at hnext
    exact hnext
  shown st v i hat := by
    cases hat with
    | token => rfl
    | @info v i hleft =>
      obtain ⟨c, cs, rest, hclient, hcons⟩ := hleft.cons
      have hget : (listedOf (table.from 0))[i]? = some (c.mac, v) := by
        rw [← List.head?_drop, hcons]
        rfl
      rw [clientLines, List.getElem?_cons_succ, List.getElem?_map, hget]
      simp only [afClientVisitSeqOps, hclient]
      rfl

end

/-! ## 4. Complete files -/

/-- All entries are reached iff no client without any stands before one that has some. -/
theorem listedOf_eq_iff (clients : List ClientVisits) :
    listedOf clients = clients.flatMap ClientVisits.entries ↔
      ∀ pre c post, clients = pre ++ c :: post → c.entries = [] → ∀ d ∈ post, d.entries = [] := by
  induction clients with
  | nil => simp [listedOf]
  | cons c clients ih =>
    rw [listedOf_cons, List.flatMap_cons]
    by_cases hc : c.entries = []
    · rw [if_pos hc, hc, List.nil_append]
      constructor
      · intro hnil pre d post hsplit hd x hx
        have hall : ∀ x ∈ clients, x.entries = [] := List.flatMap_eq_nil_iff.mp hnil.symm
        cases pre with
        | nil =>
          obtain ⟨-, rfl⟩ := List.cons.inj hsplit
          exact hall x hx
        | cons y pre =>
          obtain ⟨-, rfl⟩ := List.cons.inj hsplit
          exact hall x (List.mem_append_right _ (List.mem_cons_of_mem d hx))
      · intro h
        exact (List.flatMap_eq_nil_iff.mpr (h [] c clients rfl hc)).symm
    · rw [if_neg hc, List.append_cancel_left_eq, ih]
      constructor
      · intro h pre d post hsplit hd
        cases pre with
        | nil =>
          obtain ⟨rfl, -⟩ := List.cons.inj hsplit
          exact absurd hd hc
        | cons y pre => exact h pre d post (List.cons.inj hsplit).2 hd
      · intro h pre d post hsplit hd
        exact h (c :: pre) d post (by rw [hsplit]; rfl) hd

theorem listedOf_sublist (clients : List ClientVisits) :
    (listedOf clients).Sublist (clients.flatMap ClientVisits.entries) := by
  induction clients with
  | nil => exact List.Sublist.refl _
  | cons c clients ih =>
    rw [listedOf_cons, List.flatMap_cons]
    split
    · exact List.nil_sublist _
    · exact (List.append_sublist_append_left _).mpr ih

/-- The reading ends, and what it showed is a header and every entry once. -/
def ListsAll {σ ν : Type} (ops : SeqOps σ ν VisitLine) (room : Nat → Nat) (st : σ)
    (entries : List VisitLine) : Prop :=
  ∃ calls shown, readAll ops room calls 0 st 0 = some (.header :: shown) ∧ shown.Perm entries

theorem listsAll_iff {σ ν : Type} {ops : SeqOps σ ν VisitLine} {lines : List VisitLine}
    {At : σ → ν → Nat → Prop} (h : Rewinding ops (.header :: lines) At) (room : Nat → Nat) (st : σ)
    (entries : List VisitLine) :
    ListsAll ops room st entries ↔ lines.length ≤ room 0 ∧ lines.Perm entries := by
  have hread := fun shown => h.readAll_eq_some_iff (List.cons_ne_nil _ _) room st (.header :: shown)
  constructor
  · rintro ⟨calls, shown, hshown, hperm⟩
    obtain ⟨hlen, heq⟩ := (hread shown).mp ⟨calls, hshown⟩
    obtain ⟨-, rfl⟩ := List.cons.inj heq
    exact ⟨Nat.le_of_succ_le_succ hlen, hperm⟩
  · rintro ⟨hlen, hperm⟩
    obtain ⟨calls, hshown⟩ := (hread lines).mpr ⟨Nat.succ_le_succ hlen, rfl⟩
    exact ⟨calls, lines, hshown, hperm⟩

/-- All visits of all clients. -/
def allVisits (table : ClientVisitTable) : List (Mac × AppVisitInfo) :=
  ((List.finRange MAX_AF_CLIENT_HASH_SIZE).flatMap table).flatMap ClientVisits.entries

/-- **The files are complete** iff the first call has room for all, and, for all clients, the
clients without visits come last.  `room i` records fit besides the first in the `i`-th call. -/
theorem visit_files_complete_iff (table : ClientVisitTable) (room : Nat → Nat)
    (st : ClientVisitIter) :
    (ListsAll (afClientVisitSeqOps table) room st
        ((allVisits table).map fun e => .clientEntry e.1 e.2) ↔
      (allVisits table).length ≤ room 0 ∧
        ∀ pre c post, (List.finRange MAX_AF_CLIENT_HASH_SIZE).flatMap table = pre ++ c :: post →
          visitEntries c.visitInfoHash = [] → ∀ d ∈ post, visitEntries d.visitInfoHash = []) ∧
    ∀ (t : VisitTable) (st : SingleVisitIter),
      ListsAll (singleClientVisitSeqOps t) room st ((visitEntries t).map .entry) ↔
        (visitEntries t).length ≤ room 0 := by
  have hnone : ∀ c : ClientVisits, visitEntries c.visitInfoHash = [] ↔ c.entries = [] := fun c => by
    rw [ClientVisits.entries, List.map_eq_nil_iff]
  constructor
  · have hiff := listedOf_eq_iff (table.from 0)
    have hsub := listedOf_sublist (table.from 0)
    rw [listsAll_iff (client_rewinding table), List.length_map]
    simp only [hnone]
    rw [← from_zero, ← hiff]
    constructor
    · rintro ⟨hlen, hperm⟩
      have hsame : listedOf (table.from 0) = (table.from 0).flatMap ClientVisits.entries := by
        refine hsub.eq_of_length ?_
        have := hperm.length_eq
        rwa [List.length_map, List.length_map] at this
      refine ⟨?_, hsame⟩
      rw [hsame] at hlen
      exact hlen
    · rintro ⟨hlen, hsame⟩
      rw [hsame]
      exact ⟨hlen, List.Perm.refl _⟩
  · intro t st
    rw [listsAll_iff (single_rewinding t), List.length_map]
    exact and_iff_left (List.Perm.refl _)

/-- A table with one client, of one visit. -/
def oneVisit : VisitTable := fun i =>
  if i = getAppIdHashCode 1 then [{ appId := 1 }] else []

/-- **A second call starts over**: a file with one visit, when only the header fits in the first
call. -/
theorem second_call_never_ends :
    ¬ ListsAll (singleClientVisitSeqOps oneVisit) (fun _ => 0) ⟨0, []⟩
      ((visitEntries oneVisit).map .entry) := by
  rw [listsAll_iff (single_rewinding oneVisit), List.length_map]
  rintro ⟨hlen, -⟩
  exact absurd hlen (by decide)

end Oaf
