/-
# App-id tokens and their ranges

`add_app_id_token_to_rule` and `del_app_id_token_from_rule` (`fwx_app_filter.c`): a token is a number, a
number as a text or a range `start-end`, whose loop counts with an `int` that wraps, and the buckets of the
table are found by a remainder that is negative for a negative id.

So the ids have their sign here, a loop may have no end, and an access outside of `hash_table` ends a call
without an answer.  Every access is recorded.

* `walk_add_done`, `walk_add_stopped`: what the loop does to a rule, up to the first id that is not inserted.
* `addLoop_ends`: how the loop ends, also up to the largest `int`.
* `add_token_atomic_iff`: exactly when a call that fails leaves the rule as it was.
-/
import Oaf.Filter.Api
import Oaf.Lib.IntLoop

namespace Oaf

open CLib Chains IntLoop

/-! ## 1. The calls -/

/-- `app_id_config_t`, with the ids as the signed numbers they are. -/
structure AppIdTable where
  hashTable : Table APPID_HASH_SIZE Int := fun _ => []
  count : Int := 0

/-- `app_id % APPID_HASH_SIZE`. -/
def signedHash (appId : Int) : Int := Int.tmod appId APPID_HASH_SIZE

/-- An access to `hash_table[bucket]` for an id. -/
structure IdAccess where
  appId : Int
  bucket : Int
deriving DecidableEq

/-- A call: its return value, or an access outside of the table. -/
inductive CallEnd (σ : Type) where
  | ret (code : Int) (s : σ)
  | fault (s : σ)

/-- The end of a range loop is that of its call. -/
def loopEnd {σ : Type} : LoopEnd σ → CallEnd σ
  | .done s => .ret 0 s
  | .stopped s => .ret (-1) s
  | .fault s => .fault s

/-- A token, as both calls read it. -/
inductive AppIdToken where
  | number (valueint : Int)
  | range (startId endId : Int)
  | single (singleId : Int)
  | invalid
deriving DecidableEq

def readToken (token : CJson) : AppIdToken :=
  match token.type with
  | .number => .number token.valueint
  | .string =>
    match token.valuestring with
    | none => .invalid
    | some text =>
      match Kernel.vsscanf Kernel.isspace [.d, .lit 45, .d] text.bytes with
      | [startId, endId] => if startId ≤ 0 ∨ endId < startId then .invalid else .range startId endId
      | _ =>
        match kstrtoint10 text with
        | some singleId => if 0 < singleId then .single singleId else .invalid
        | none => .invalid
  | .other => .invalid

/-- What an insertion finds and leaves. -/
structure AddState where
  config : AppIdTable
  kmem : Kmem
  accesses : List IdAccess

/-- A rule before a call. -/
def AddState.start (config : AppIdTable) (kmem : Kmem) : AddState := ⟨config, kmem, []⟩

/-- A node at the head of its bucket. -/
def AppIdTable.insert (config : AppIdTable) (bucket : Fin APPID_HASH_SIZE) (appId : Int) : AppIdTable :=
  { hashTable := config.hashTable.modify bucket (appId :: ·), count := config.count + 1 }

/-- `add_app_id_node`, with the `find_app_id_node` in it. -/
def AddState.addAppIdNode (s : AddState) (appId : Int) : CallEnd AddState :=
  let hash := signedHash appId
  let s := { s with accesses := s.accesses ++ [⟨appId, hash⟩] }
  if h : 0 ≤ hash ∧ hash < APPID_HASH_SIZE then
    let bucket : Fin APPID_HASH_SIZE := ⟨hash.toNat, by omega⟩
    if appId ∈ s.config.hashTable bucket then .ret 0 s
    else if MAX_APP_ID_PER_RULE ≤ s.config.count then .ret (-1) s
    else if s.kmem.kzalloc.1 then
      .ret 0 { s with config := s.config.insert bucket appId, kmem := s.kmem.kzalloc.2 }
    else .ret (-1) { s with kmem := s.kmem.kzalloc.2 }
  else .fault s

/-- A round of the loop of `add_app_id_token_to_rule`. -/
def addRound (appId : Int) (s : AddState) : Lap AddState :=
  match s.addAppIdNode appId with
  | .ret code s => if code < 0 then .stop s else .next s
  | .fault s => .fault s

/-- `add_app_id_token_to_rule`, with so many rounds for its loop. -/
def AddState.addAppIdTokenToRule (fuel : Nat) (s : AddState) (token : CJson) :
    Option (CallEnd AddState) :=
  match readToken token with
  | .number valueint => some (if 0 < valueint then s.addAppIdNode valueint else .ret (-1) s)
  | .range startId endId => (forUpTo addRound endId fuel startId s).map loopEnd
  | .single singleId => some (s.addAppIdNode singleId)
  | .invalid => some (.ret (-1) s)

/-- The loop over an `app_id_list`: nothing is made of the answers. -/
def AddState.addAppIdList (fuel : Nat) : AddState → List CJson → Option (CallEnd AddState)
  | s, [] => some (.ret 0 s)
  | s, token :: rest =>
    match s.addAppIdTokenToRule fuel token with
    | some (.ret _ s) => s.addAppIdList fuel rest
    | answer => answer

/-- The `app_action` of a modification. -/
def AddState.appAction (fuel : Nat) (s : AddState) (req : RuleRequest) : Option (CallEnd AddState) :=
  match req.appAction with
  | none => some (.ret 0 s)
  | some action =>
    if action = 1 ∨ action = 2 then
      match req.appIdList with
      | none => some (.ret 0 s)
      | some appIdArray =>
        (if action = 1 then { s with config := {} } else s).addAppIdList fuel appIdArray
    else if action = 3 then
      match req.appId with
      | none => some (.ret 0 s)
      | some token => s.addAppIdList fuel [token]
    else some (.ret 0 { s with config := {} })

/-- `app_filter_rule_t`, as far as deletions look at it. -/
structure IdRule where
  ruleId : Int
  appIdList : AppIdTable

/-- `app_filter_rule_list`. -/
structure DelState where
  rules : List IdRule
  accesses : List IdAccess

def DelState.start (rules : List IdRule) : DelState := ⟨rules, []⟩

/-- `fwx_find_app_filter_rule`. -/
def DelState.rule (s : DelState) (ruleId : Int) : Option IdRule :=
  s.rules.find? fun rule => rule.ruleId == ruleId

/-- `fwx_del_app_id_from_rule`. -/
def DelState.fwxDelAppIdFromRule (s : DelState) (ruleId appId : Int) : CallEnd DelState :=
  match s.rule ruleId with
  | none => .ret (-1) s
  | some rule =>
    let hash := signedHash appId
    let s := { s with accesses := s.accesses ++ [⟨appId, hash⟩] }
    if h : 0 ≤ hash ∧ hash < APPID_HASH_SIZE then
      let bucket : Fin APPID_HASH_SIZE := ⟨hash.toNat, by omega⟩
      if appId ∈ rule.appIdList.hashTable bucket then
        let appIdList : AppIdTable :=
          { hashTable := rule.appIdList.hashTable.modify bucket (·.erase appId)
            count := rule.appIdList.count - 1 }
        .ret 0 { s with
          rules := updateFirst (fun r => r.ruleId == ruleId)
            (fun r => { r with appIdList := appIdList }) s.rules }
      else .ret (-1) s
    else .fault s

/-- A round of the loop of `del_app_id_token_from_rule`: nothing is made of the answer. -/
def delRound (ruleId appId : Int) (s : DelState) : Lap DelState :=
  match s.fwxDelAppIdFromRule ruleId appId with
  | .ret _ s => .next s
  | .fault s => .fault s

/-- `del_app_id_token_from_rule`: a number is taken as it is. -/
def DelState.delAppIdTokenFromRule (fuel : Nat) (s : DelState) (ruleId : Int) (token : CJson) :
    Option (CallEnd DelState) :=
  match readToken token with
  | .number valueint => some (s.fwxDelAppIdFromRule ruleId valueint)
  | .range startId endId => (forUpTo (delRound ruleId) endId fuel startId s).map loopEnd
  | .single singleId => some (s.fwxDelAppIdFromRule ruleId singleId)
  | .invalid => some (.ret (-1) s)

/-! ## 2. What can fail -/

/-- The id is in its bucket. -/
def AppIdTable.has (config : AppIdTable) (appId : Int) : Bool :=
  if h : 0 ≤ signedHash appId ∧ signedHash appId < APPID_HASH_SIZE then
    decide (appId ∈ config.hashTable ⟨(signedHash appId).toNat, by omega⟩)
  else false

/-- The ids that are not in the table. -/
def AppIdTable.missing (config : AppIdTable) (ids : List Int) : List Int :=
  ids.filter fun appId => !config.has appId

/-- An insertion behind `k` others fails: the rule is full, or there is no memory. -/
def AddState.Fails (s : AddState) (k : Nat) : Prop :=
  MAX_APP_ID_PER_RULE ≤ s.config.count + k ∨ s.kmem.outcome (s.kmem.used + k) = false

/-- One of the ids is missing and cannot be inserted. -/
def AddState.InsertFails (s : AddState) (ids : List Int) : Prop :=
  ∃ k, k < (s.config.missing ids).length ∧ s.Fails k

/-- The ids that an insertion comes to, as long as none fails: behind the largest `int` there is one more. -/
def walkedIds (token : CJson) : List Int :=
  match readToken token with
  | .number valueint => if 0 < valueint then [valueint] else []
  | .range startId endId =>
    if endId = intMax then span startId endId ++ [intMin] else span startId endId
  | .single singleId => [singleId]
  | .invalid => []

/-- The ids of two tables, and their counts, are the same. -/
def SameIds (config config' : AppIdTable) : Prop :=
  (∀ i appId, appId ∈ config'.hashTable i ↔ appId ∈ config.hashTable i) ∧ config'.count = config.count

/-! ## 3. One id -/

theorem signedHash_bounds {appId : Int} (h : 0 ≤ signedHash appId) :
    0 ≤ signedHash appId ∧ signedHash appId < APPID_HASH_SIZE :=
  ⟨h, Int.tmod_lt_of_pos _ (by decide)⟩

theorem signedHash_of_nonneg {appId : Int} (h : 0 ≤ appId) : 0 ≤ signedHash appId :=
  Int.tmod_nonneg _ h

/-- The state with one more access. -/
def AddState.visit (s : AddState) (appId : Int) : AddState :=
  { s with accesses := s.accesses ++ [⟨appId, signedHash appId⟩] }

/-- An id was inserted. -/
structure Inserted (s s' : AddState) (appId : Int) : Prop where
  count : s'.config.count = s.config.count + 1
  has : ∀ other, other ≠ appId → s'.config.has other = s.config.has other
  outcome : s'.kmem.outcome = s.kmem.outcome
  used : s'.kmem.used = s.kmem.used + 1
  accesses : s'.accesses = (s.visit appId).accesses

theorem mem_insert {config : AppIdTable} {bucket i : Fin APPID_HASH_SIZE} {appId other : Int}
    (hne : other ≠ appId) :
    other ∈ (config.insert bucket appId).hashTable i ↔ other ∈ config.hashTable i := by
  by_cases hi : i = bucket
  · subst hi
    simp [AppIdTable.insert, hne]
  · simp [AppIdTable.insert, modify_of_ne _ hi]

theorem has_insert {config : AppIdTable} {bucket : Fin APPID_HASH_SIZE} {appId other : Int}
    (hne : other ≠ appId) : (config.insert bucket appId).has other = config.has other := by
  unfold AppIdTable.has
  simp only [mem_insert hne]

theorem addAppIdNode_has {s : AddState} {appId : Int} (h : s.config.has appId = true) :
    s.addAppIdNode appId = .ret 0 (s.visit appId) := by
  unfold AppIdTable.has at h
  split at h
  · rename_i hhash
    unfold AddState.addAppIdNode
    rw [dif_pos hhash, if_pos (of_decide_eq_true h)]
    rfl
  · cases h

theorem addAppIdNode_fails {s : AddState} {appId : Int} (hhash : 0 ≤ signedHash appId)
    (h : s.config.has appId = false) (hfails : s.Fails 0) :
    ∃ s', s.addAppIdNode appId = .ret (-1) s' ∧ s'.config = s.config ∧
      s'.accesses = (s.visit appId).accesses := by
  rw [AppIdTable.has, dif_pos (signedHash_bounds hhash), decide_eq_false_iff_not] at h
  unfold AddState.addAppIdNode
  rw [dif_pos (signedHash_bounds hhash), if_neg h]
  by_cases hfull : MAX_APP_ID_PER_RULE ≤ s.config.count
  · exact ⟨_, if_pos hfull, rfl, rfl⟩
  · rcases hfails with hfull' | hnone
    · exact absurd (by simpa using hfull') hfull
    · refine ⟨_, (if_neg hfull).trans (if_neg ?_), rfl, rfl⟩
      simpa using hnone

theorem addAppIdNode_inserts {s : AddState} {appId : Int} (hhash : 0 ≤ signedHash appId)
    (h : s.config.has appId = false) (hfails : ¬ s.Fails 0) :
    ∃ s', s.addAppIdNode appId = .ret 0 s' ∧ Inserted s s' appId := by
  obtain ⟨hroom, hmem⟩ := not_or.mp hfails
  rw [AppIdTable.has, dif_pos (signedHash_bounds hhash), decide_eq_false_iff_not] at h
  unfold AddState.addAppIdNode
  rw [dif_pos (signedHash_bounds hhash), if_neg h]
  refine ⟨_, (if_neg (by simpa using hroom)).trans (if_pos (by simpa using hmem)), ?_⟩
  exact ⟨rfl, fun other hne => has_insert hne, rfl, rfl, rfl⟩

/-! ## 4. A list of ids -/

theorem missing_cons (config : AppIdTable) (appId : Int) (ids : List Int) :
    config.missing (appId :: ids) =
      if config.has appId then config.missing ids else appId :: config.missing ids := by
  cases h : config.has appId <;> simp [AppIdTable.missing, h]

theorem Inserted.missing {s s' : AddState} {appId : Int} {ids : List Int} (h : Inserted s s' appId)
    (hnew : appId ∉ ids) : s'.config.missing ids = s.config.missing ids := by
  refine List.filter_congr fun other hother => ?_
  rw [h.has other fun heq => hnew (heq ▸ hother)]

theorem Inserted.fails {s s' : AddState} {appId : Int} (h : Inserted s s' appId) (k : Nat) :
    s'.Fails k ↔ s.Fails (k + 1) := by
  unfold AddState.Fails
  rw [h.count, h.outcome, h.used, show s.kmem.used + 1 + k = s.kmem.used + (k + 1) by omega]
  push_cast
  rw [show s.config.count + 1 + (k : Int) = s.config.count + (k + 1) by omega]

/-- The accesses are earlier ones, or for ids of a list. -/
def AccessesFrom (earlier : List IdAccess) (ids : List Int) (accesses : List IdAccess) : Prop :=
  ∀ a ∈ accesses, a ∈ earlier ∨ a.appId ∈ ids ∧ a.bucket = signedHash a.appId

theorem AccessesFrom.visit {earlier : List IdAccess} {appId : Int} {ids : List Int} :
    AccessesFrom earlier (appId :: ids) (earlier ++ [⟨appId, signedHash appId⟩]) := by
  intro a ha
  rcases List.mem_append.mp ha with ha | ha
  · exact .inl ha
  · rw [List.mem_singleton.mp ha]
    exact .inr ⟨List.mem_cons_self .., rfl⟩

theorem AccessesFrom.cons {earlier middle accesses : List IdAccess} {appId : Int} {ids : List Int}
    (hmiddle : AccessesFrom earlier [appId] middle) (h : AccessesFrom middle ids accesses) :
    AccessesFrom earlier (appId :: ids) accesses := by
  intro a ha
  rcases h a ha with ha | ⟨hid, hbucket⟩
  · rcases hmiddle a ha with ha | ⟨hid, hbucket⟩
    · exact .inl ha
    · exact .inr ⟨List.mem_singleton.mp hid ▸ List.mem_cons_self .., hbucket⟩
  · exact .inr ⟨List.mem_cons_of_mem _ hid, hbucket⟩

/-- An id that is missing and cannot be inserted. -/
theorem insertFails_head {s : AddState} {appId : Int} (ids : List Int) (hhas : s.config.has appId = false)
    (hfails : s.Fails 0) : s.InsertFails (appId :: ids) := by
  refine ⟨0, ?_, hfails⟩
  rw [missing_cons, if_neg (by simp [hhas])]
  exact Nat.zero_lt_succ _

/-- A round goes on: the id was there, or was inserted. -/
structure WentOn (s s1 : AddState) (appId : Int) (ids : List Int) : Prop where
  fails : s.InsertFails (appId :: ids) ↔ s1.InsertFails ids
  accesses : s1.accesses = (s.visit appId).accesses
  config : s1.config = s.config ∧ (s1.Fails 0 ↔ s.Fails 0) ∨
    ¬ s.Fails 0 ∧ s1.config.count = s.config.count + 1

theorem addRound_next {s : AddState} {appId : Int} {ids : List Int} (hhash : 0 ≤ signedHash appId)
    (hnew : appId ∉ ids) (h : s.config.has appId = true ∨ ¬ s.Fails 0) :
    ∃ s1, addRound appId s = .next s1 ∧ WentOn s s1 appId ids := by
  cases hhas : s.config.has appId with
  | true =>
    have hround : addRound appId s = .next (s.visit appId) := by
      rw [addRound, addAppIdNode_has hhas]
      rfl
    have hmissing : s.config.missing (appId :: ids) = s.config.missing ids := by
      rw [missing_cons, if_pos hhas]
    refine ⟨_, hround, ?_, rfl, .inl ⟨rfl, Iff.rfl⟩⟩
    unfold AddState.InsertFails
    rw [hmissing]
    rfl
  | false =>
    have hfirst : ¬ s.Fails 0 := h.resolve_left (by simp [hhas])
    obtain ⟨s1, hnode, hins⟩ := addAppIdNode_inserts hhash hhas hfirst
    have hround : addRound appId s = .next s1 := by
      rw [addRound, hnode]
      rfl
    have hmissing : s.config.missing (appId :: ids) = appId :: s.config.missing ids := by
      rw [missing_cons, if_neg (by simp [hhas])]
    refine ⟨s1, hround, ?_, hins.accesses, .inr ⟨hfirst, hins.count⟩⟩
    unfold AddState.InsertFails
    rw [hins.missing hnew, hmissing]
    constructor
    · rintro ⟨k, hk, hfails⟩
      cases k with
      | zero => exact absurd hfails hfirst
      | succ k => exact ⟨k, Nat.lt_of_succ_lt_succ hk, (hins.fails k).mpr hfails⟩
    · rintro ⟨k, hk, hfails⟩
      exact ⟨k + 1, Nat.succ_lt_succ hk, (hins.fails k).mp hfails⟩

theorem addRound_stop {s : AddState} {appId : Int} (hhash : 0 ≤ signedHash appId)
    (hhas : s.config.has appId = false) (hfails : s.Fails 0) :
    ∃ s', addRound appId s = .stop s' ∧ s'.config = s.config ∧ s'.accesses = (s.visit appId).accesses := by
  obtain ⟨s', hnode, hsame, haccesses⟩ := addAppIdNode_fails hhash hhas hfails
  refine ⟨s', ?_, hsame, haccesses⟩
  rw [addRound, hnode]
  rfl

/-- **A walk on which nothing fails** comes to its end. -/
theorem walk_add_done : ∀ {ids : List Int} {s : AddState}, ids.Nodup → (∀ i ∈ ids, 0 ≤ signedHash i) →
    ¬ s.InsertFails ids →
    ∃ s', walk addRound ids s = .done s' ∧ AccessesFrom s.accesses ids s'.accesses
  | [], s, _, _, _ => ⟨s, rfl, fun _ ha => .inl ha⟩
  | appId :: ids, s, hnodup, hhash, hok => by
    obtain ⟨hnew, hrest⟩ := List.nodup_cons.mp hnodup
    have hgo : s.config.has appId = true ∨ ¬ s.Fails 0 := by
      by_contra h
      obtain ⟨hhas, hfails⟩ := not_or.mp h
      exact hok (insertFails_head ids (by simpa using hhas) (not_not.mp hfails))
    obtain ⟨s1, hround, hon⟩ := addRound_next (hhash appId (List.mem_cons_self ..)) hnew hgo
    obtain ⟨s', hwalk, hfrom⟩ := walk_add_done hrest (fun i hi => hhash i (List.mem_cons_of_mem _ hi))
      (mt hon.fails.mpr hok)
    rw [walk, hround]
    exact ⟨s', hwalk, AccessesFrom.cons (hon.accesses ▸ AccessesFrom.visit) hfrom⟩

/-- **A walk on which an insertion fails** stops there.  The table is as it was if this is the first insertion,
and has more ids if it is not. -/
theorem walk_add_stopped : ∀ {ids : List Int} {s : AddState}, ids.Nodup →
    (∀ i ∈ ids, 0 ≤ signedHash i) → s.InsertFails ids →
    ∃ s', walk addRound ids s = .stopped s' ∧ AccessesFrom s.accesses ids s'.accesses ∧
      (s.Fails 0 → s'.config = s.config) ∧ (¬ s.Fails 0 → s.config.count < s'.config.count)
  | [], s, _, _, hfail => by
    obtain ⟨k, hk, -⟩ := hfail
    exact absurd hk (Nat.not_lt_zero k)
  | appId :: ids, s, hnodup, hhash, hfail => by
    obtain ⟨hnew, hrest⟩ := List.nodup_cons.mp hnodup
    have hhead : 0 ≤ signedHash appId := hhash appId (List.mem_cons_self ..)
    rw [walk]
    by_cases hgo : s.config.has appId = true ∨ ¬ s.Fails 0
    · obtain ⟨s1, hround, hon⟩ := addRound_next hhead hnew hgo
      obtain ⟨s', hwalk, hfrom, hsame, hmore⟩ := walk_add_stopped hrest
        (fun i hi => hhash i (List.mem_cons_of_mem _ hi)) (hon.fails.mp hfail)
      rw [hround]
      refine ⟨s', hwalk, AccessesFrom.cons (hon.accesses ▸ AccessesFrom.visit) hfrom, ?_, ?_⟩
      · intro hfirst
        obtain ⟨hconfig, hnext⟩ | ⟨hno, -⟩ := hon.config
        · exact (hsame (hnext.mpr hfirst)).trans hconfig
        · exact absurd hfirst hno
      · intro hfirst
        obtain ⟨hconfig, hnext⟩ | ⟨-, hcount⟩ := hon.config
        · rw [← hconfig]
          exact hmore (mt hnext.mp hfirst)
        · by_cases hnext : s1.Fails 0
          · rw [hsame hnext]
            omega
          · have := hmore hnext
            omega
    · obtain ⟨hhas, hfirst⟩ := not_or.mp hgo
      obtain ⟨s', hround, hsame, haccesses⟩ := addRound_stop hhead (by simpa using hhas) (not_not.mp hfirst)
      rw [hround]
      exact ⟨s', rfl, haccesses ▸ AccessesFrom.visit, fun _ => hsame, fun h => absurd h hfirst⟩

/-! ## 5. The loop of an insertion -/

theorem scanD_le {l rest : List UInt8} {v : Int} (h : Kernel.scanD l = some (v, rest)) : v ≤ intMax := by
  simp only [Kernel.scanD, Option.ite_none_right_eq_some, Option.some.injEq, Prod.mk.injEq] at h
  obtain ⟨-, rfl, -⟩ := h
  have hlt : Kernel.toInt32 (Kernel.simpleStrtol10 l).1 < 2 ^ 31 := Int.bmod_lt (by decide)
  exact Int.le_sub_one_of_lt hlt

theorem vsscanf_range_le {l : List UInt8} {startId endId : Int}
    (h : Kernel.vsscanf Kernel.isspace [.d, .lit 45, .d] l = [startId, endId]) : endId ≤ intMax := by
  unfold Kernel.vsscanf at h
  split at h
  · cases h
  rename_i v next hfirst
  unfold Kernel.vsscanf at h
  obtain ⟨-, h⟩ := List.cons.inj h
  split at h
  · cases h
  split at h
  · unfold Kernel.vsscanf at h
    split at h
    · cases h
    · rename_i hsecond
      obtain ⟨rfl, -⟩ := List.cons.inj h
      exact scanD_le hsecond
  · cases h

/-- The numbers of a range. -/
theorem readToken_range {token : CJson} {startId endId : Int}
    (h : readToken token = .range startId endId) :
    0 < startId ∧ startId ≤ endId ∧ endId ≤ intMax := by
  unfold readToken at h
  split at h
  · cases h
  · split at h
    · cases h
    split at h
    · rename_i hscan
      split at h
      · cases h
      · rename_i hvalid
        cases h
        have hle := vsscanf_range_le hscan
        omega
    · split at h
      · split at h <;> cases h
      · cases h
  · cases h

theorem readToken_single {token : CJson} {singleId : Int} (h : readToken token = .single singleId) :
    0 < singleId := by
  unfold readToken at h
  split at h
  · cases h
  · split at h
    · cases h
    split at h
    · split at h <;> cases h
    · split at h
      · split at h
        · rename_i hpos
          cases h
          exact hpos
        · cases h
      · cases h
  · cases h

theorem walkedIds_hash {token : CJson} : ∀ appId ∈ walkedIds token, 0 ≤ signedHash appId := by
  intro appId hmem
  unfold walkedIds at hmem
  split at hmem
  · split at hmem
    · rename_i hpos
      rw [List.mem_singleton.mp hmem]
      exact signedHash_of_nonneg (by omega)
    · cases hmem
  · rename_i startId endId hread
    obtain ⟨hpos, -, -⟩ := readToken_range hread
    split at hmem
    · rcases List.mem_append.mp hmem with hmem | hmem
      · exact signedHash_of_nonneg (by have := (mem_span.mp hmem).1; omega)
      · rw [List.mem_singleton.mp hmem]
        decide
    · exact signedHash_of_nonneg (by have := (mem_span.mp hmem).1; omega)
  · rename_i hread
    rw [List.mem_singleton.mp hmem]
    exact signedHash_of_nonneg (Int.le_of_lt (readToken_single hread))
  · cases hmem

theorem walkedIds_nodup {token : CJson} : (walkedIds token).Nodup := by
  unfold walkedIds
  split
  · split
    · exact List.nodup_singleton _
    · exact List.nodup_nil
  · rename_i startId endId hread
    obtain ⟨hpos, -, -⟩ := readToken_range hread
    split
    · refine nodup_ints.append (List.nodup_singleton _) (List.disjoint_singleton.mpr fun hmem => ?_)
      have hle := (mem_span.mp hmem).1
      rw [intMin] at hle
      omega
    · exact nodup_ints
  · exact List.nodup_singleton _
  · exact List.nodup_nil

/-- An id whose remainder is negative is looked for outside of the table. -/
theorem addRound_fault {s : AddState} {appId : Int} (h : signedHash appId < 0) :
    addRound appId s = .fault (s.visit appId) := by
  have hno : ¬ (0 ≤ signedHash appId ∧ signedHash appId < APPID_HASH_SIZE) := by omega
  rw [addRound, AddState.addAppIdNode, dif_neg hno]
  rfl

/-- What the loop makes of the walk: when it goes up to the largest `int` and nothing stops it, the second id
behind that is looked for outside of the table. -/
def afterWalk (endId : Int) : LoopEnd AddState → LoopEnd AddState
  | .done s => if endId = intMax then .fault (s.visit (intMin + 1)) else .done s
  | e => e

/-- **The loop of an insertion ends**, as its walk does. -/
theorem addLoop_ends {token : CJson} {startId endId : Int} (h : readToken token = .range startId endId)
    (s : AddState) :
    ∃ fuel, forUpTo addRound endId fuel startId s =
      some (afterWalk endId (walk addRound (walkedIds token) s)) := by
  obtain ⟨hpos, hle, hmax⟩ := readToken_range h
  by_cases htop : endId = intMax
  · subst htop
    refine ⟨_, (forUpTo_top hle 2).trans ?_⟩
    have hwalked : walkedIds token = span startId intMax ++ [intMin] := by
      simp only [walkedIds, h, if_true]
    rw [hwalked, walk_append]
    cases walk addRound (span startId intMax) s with
    | done s =>
      have hmin : intMin ≤ intMax := by decide
      have hnext : succ32 intMin = intMin + 1 := by decide
      have hnext' : intMin + 1 ≤ intMax := by decide
      have hfault : ∀ s, addRound (intMin + 1) s = .fault (s.visit (intMin + 1)) := fun s =>
        addRound_fault (by decide)
      simp only [forUpTo, hmin, hnext, hnext', hfault, if_true, walk]
      cases addRound intMin s with
      | next s => simp [afterWalk]
      | stop s => rfl
      | fault s => rfl
    | stopped s => rfl
    | fault s => rfl
  · have hwalked : walkedIds token = span startId endId := by
      simp only [walkedIds, h, htop, if_false]
    refine ⟨_, (forUpTo_eq_walk (by omega) (by omega)).trans ?_⟩
    rw [hwalked]
    cases walk addRound (span startId endId) s with
    | done s => simp [afterWalk, htop]
    | stopped s => rfl
    | fault s => rfl

/-- The ends of a loop that does not come to the largest `int`, or that is stopped before. -/
theorem addLoop_unique {token : CJson} {startId endId : Int} (h : readToken token = .range startId endId)
    {s : AddState} {fuel : Nat} {e : LoopEnd AddState} (he : forUpTo addRound endId fuel startId s = some e) :
    e = afterWalk endId (walk addRound (walkedIds token) s) := by
  obtain ⟨fuel', hend⟩ := addLoop_ends h s
  exact forUpTo_unique he hend

/-! ## 6. Insertions that fail -/

variable {config : AppIdTable} {kmem : Kmem} {token : CJson}

/-- One id alone: a failure leaves the table as it was. -/
theorem addAppIdNode_atomic {s s' : AddState} {appId : Int} (h : s.addAppIdNode appId = .ret (-1) s')
    (hhash : 0 ≤ signedHash appId) : s'.config = s.config := by
  cases hhas : s.config.has appId with
  | true =>
    rw [addAppIdNode_has hhas] at h
    cases h
  | false =>
    by_cases hfails : s.Fails 0
    · obtain ⟨s1, hnode, hsame, -⟩ := addAppIdNode_fails hhash hhas hfails
      rw [hnode] at h
      cases h
      exact hsame
    · obtain ⟨s1, hnode, -⟩ := addAppIdNode_inserts hhash hhas hfails
      rw [hnode] at h
      cases h

/-- A call that fails on a range has left the table as it was exactly if the first insertion failed. -/
theorem addRange_atomic_iff {startId endId : Int} (h : readToken token = .range startId endId) :
    (∀ fuel s', (AddState.start config kmem).addAppIdTokenToRule fuel token = some (.ret (-1) s') →
        SameIds config s'.config) ↔
      ((AddState.start config kmem).InsertFails (walkedIds token) → (AddState.start config kmem).Fails 0) := by
  have hcall : ∀ fuel, (AddState.start config kmem).addAppIdTokenToRule fuel token =
      (forUpTo addRound endId fuel startId (AddState.start config kmem)).map loopEnd := by
    intro fuel
    simp only [AddState.addAppIdTokenToRule, h]
  constructor
  · intro hatomic hfail
    by_contra hfirst
    obtain ⟨s', hwalk, -, -, hmore⟩ := walk_add_stopped walkedIds_nodup walkedIds_hash hfail
    obtain ⟨fuel, hend⟩ := addLoop_ends h (AddState.start config kmem)
    rw [hwalk] at hend
    have hcount := (hatomic fuel s' (by rw [hcall, hend]; rfl)).2
    have hlt := hmore hfirst
    rw [hcount] at hlt
    exact absurd hlt (Int.lt_irrefl _)
  · intro hcond fuel s' hret
    rw [hcall] at hret
    obtain ⟨e, hend, hret⟩ := Option.map_eq_some_iff.mp hret
    rw [addLoop_unique h hend] at hret
    by_cases hfail : (AddState.start config kmem).InsertFails (walkedIds token)
    · obtain ⟨s1, hwalk, -, hsame, -⟩ := walk_add_stopped walkedIds_nodup walkedIds_hash hfail
      rw [hwalk] at hret
      cases hret
      rw [hsame (hcond hfail)]
      exact ⟨fun _ _ => Iff.rfl, rfl⟩
    · obtain ⟨s1, hwalk, -⟩ := walk_add_done walkedIds_nodup walkedIds_hash hfail
      rw [hwalk, afterWalk] at hret
      split at hret <;> cases hret

/-- One id at most: an insertion that fails is the first one. -/
theorem fails_of_length_le {s : AddState} {ids : List Int} (hlen : ids.length ≤ 1) (h : s.InsertFails ids) :
    s.Fails 0 := by
  obtain ⟨k, hk, hfails⟩ := h
  have hle : (s.config.missing ids).length ≤ ids.length := List.length_filter_le _ _
  obtain rfl : k = 0 := by omega
  exact hfails

/-- **A call that fails leaves the rule as it was exactly if the first insertion fails**, or none does. -/
theorem add_token_atomic_iff (config : AppIdTable) (kmem : Kmem) (token : CJson) :
    (∀ fuel s', (AddState.start config kmem).addAppIdTokenToRule fuel token = some (.ret (-1) s') →
        SameIds config s'.config) ↔
      ((AddState.start config kmem).InsertFails (walkedIds token) →
        (AddState.start config kmem).Fails 0) := by
  have hsame : ∀ s' : AddState, s'.config = config → SameIds config s'.config := by
    rintro s' rfl
    exact ⟨fun _ _ => Iff.rfl, rfl⟩
  cases hread : readToken token with
  | range startId endId => exact addRange_atomic_iff hread
  | number valueint =>
    refine iff_of_true ?_ (fails_of_length_le ?_)
    · intro fuel s' hret
      simp only [AddState.addAppIdTokenToRule, hread, Option.some.injEq] at hret
      split at hret
      · rename_i hpos
        exact hsame s' (addAppIdNode_atomic hret (signedHash_of_nonneg (Int.le_of_lt hpos)))
      · cases hret
        exact hsame _ rfl
    · simp only [walkedIds, hread]
      split <;> simp
  | single singleId =>
    refine iff_of_true ?_ (fails_of_length_le ?_)
    · intro fuel s' hret
      simp only [AddState.addAppIdTokenToRule, hread, Option.some.injEq] at hret
      exact hsame s' (addAppIdNode_atomic hret (signedHash_of_nonneg (Int.le_of_lt (readToken_single hread))))
    · simp [walkedIds, hread]
  | invalid =>
    refine iff_of_true ?_ (fails_of_length_le ?_)
    · intro fuel s' hret
      simp only [AddState.addAppIdTokenToRule, hread, Option.some.injEq] at hret
      cases hret
      exact hsame _ rfl
    · simp [walkedIds, hread]

/-- The token `1-3`. -/
def oneToThree : CJson := { type := .string, valuestring := some (.lit "1-3") }

/-- **No memory for the second id of a range**: an error, and the first id is in the rule. -/
theorem half_a_range :
    ∃ s', (AddState.start {} ⟨fun k => k != 1, 0⟩).addAppIdTokenToRule 5 oneToThree =
        some (.ret (-1) s') ∧
      ¬ SameIds {} s'.config ∧ s'.config.has 1 = true ∧ s'.config.count = 1 := by
  have hread : readToken oneToThree = .range 1 3 := by decide
  refine ⟨_, by simp only [AddState.addAppIdTokenToRule, hread]; rfl, ?_, rfl, rfl⟩
  rintro ⟨-, hcount⟩
  exact absurd hcount (by decide)

end Oaf
