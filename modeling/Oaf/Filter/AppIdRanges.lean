/-
# Which ids and buckets an app-id token reaches

What `add_app_id_token_to_rule` and `del_app_id_token_from_rule` are asked: to return, to look for ids of the
token only, and to stay in the 256 buckets of the table.

* `add_stays_iff`, `del_stays_iff`: exactly when each does.
* `addToken_ofConfig`: below the largest `int` the calls are those of the configuration interface.
-/
import Oaf.Filter.AppIdTokens

namespace Oaf

open CLib Chains IntLoop

/-! ## 1. What is asked of a call -/

/-- The ids of a token. -/
def InToken (token : CJson) (appId : Int) : Prop :=
  match readToken token with
  | .number valueint => appId = valueint
  | .range startId endId => startId ≤ appId ∧ appId ≤ endId
  | .single singleId => appId = singleId
  | .invalid => False

/-- An access for an id of the token, inside of the table. -/
structure AccessOk (token : CJson) (a : IdAccess) : Prop where
  appId : InToken token a.appId
  bucket : 0 ≤ a.bucket ∧ a.bucket ≤ 255

/-- The call returns, and its accesses are for ids of the token and inside of the table. -/
def StaysInside {σ : Type} (token : CJson) (accesses : σ → List IdAccess)
    (call : Nat → Option (CallEnd σ)) : Prop :=
  ∃ fuel code s, call fuel = some (.ret code s) ∧ ∀ a ∈ accesses s, AccessOk token a

/-- A range that goes up to the largest `int`. -/
def EndsAtTop (token : CJson) (startId : Int) : Prop := readToken token = .range startId intMax

variable {config : AppIdTable} {kmem : Kmem} {rules : List IdRule} {token : CJson} {ruleId : Int}

/-! ## 2. Accesses of an insertion -/

theorem bucket_le {appId : Int} (h : 0 ≤ signedHash appId) : signedHash appId ≤ 255 :=
  Int.le_of_lt_add_one (signedHash_bounds h).2

theorem accessOk_of_from {ids : List Int} {accesses : List IdAccess} (h : AccessesFrom [] ids accesses)
    (hhash : ∀ i ∈ ids, 0 ≤ signedHash i) (hin : ∀ i ∈ ids, InToken token i) :
    ∀ a ∈ accesses, AccessOk token a := by
  intro a ha
  obtain ⟨hid, hbucket⟩ := (h a ha).resolve_left List.not_mem_nil
  refine ⟨hin _ hid, ?_⟩
  rw [hbucket]
  exact ⟨hhash _ hid, bucket_le (hhash _ hid)⟩

/-- One id in the table: the call returns. -/
theorem addAppIdNode_ret (s : AddState) {appId : Int} (hhash : 0 ≤ signedHash appId) :
    ∃ code s', s.addAppIdNode appId = .ret code s' ∧ s'.accesses = (s.visit appId).accesses := by
  cases hhas : s.config.has appId with
  | true => exact ⟨_, _, addAppIdNode_has hhas, rfl⟩
  | false =>
    by_cases hfails : s.Fails 0
    · obtain ⟨s', hnode, -, haccesses⟩ := addAppIdNode_fails hhash hhas hfails
      exact ⟨_, s', hnode, haccesses⟩
    · obtain ⟨s', hnode, hins⟩ := addAppIdNode_inserts hhash hhas hfails
      exact ⟨_, s', hnode, hins.accesses⟩

/-- A range whose loop is stopped, or does not go up to the largest `int`. -/
theorem addRange_stays {startId endId : Int} (h : readToken token = .range startId endId)
    (hcond : endId = intMax → (AddState.start config kmem).InsertFails (span startId endId)) :
    StaysInside token AddState.accesses
      (fun fuel => (AddState.start config kmem).addAppIdTokenToRule fuel token) := by
  obtain ⟨hpos, hle, hmax⟩ := readToken_range h
  have hcall : ∀ fuel, (AddState.start config kmem).addAppIdTokenToRule fuel token =
      (forUpTo addRound endId fuel startId (AddState.start config kmem)).map loopEnd := by
    intro fuel
    simp only [AddState.addAppIdTokenToRule, h]
  have hnodup : (span startId endId).Nodup := nodup_ints
  have hhash : ∀ i ∈ span startId endId, 0 ≤ signedHash i := fun i hi =>
    signedHash_of_nonneg (by have := (mem_span.mp hi).1; omega)
  have hin : ∀ i ∈ span startId endId, InToken token i := by
    intro i hi
    simp only [InToken, h]
    exact mem_span.mp hi
  by_cases hfail : (AddState.start config kmem).InsertFails (span startId endId)
  · obtain ⟨s', hwalk, hfrom, -⟩ := walk_add_stopped hnodup hhash hfail
    have hend : ∃ fuel, forUpTo addRound endId fuel startId (AddState.start config kmem) =
        some (.stopped s') := by
      by_cases htop : endId = intMax
      · subst htop
        exact ⟨_, (forUpTo_top hle 0).trans (by rw [hwalk])⟩
      · exact ⟨_, (forUpTo_eq_walk (by omega) (by omega)).trans (by rw [hwalk])⟩
    obtain ⟨fuel, hend⟩ := hend
    exact ⟨fuel, -1, s', (hcall fuel).trans (congrArg (Option.map loopEnd) hend), accessOk_of_from hfrom hhash hin⟩
  · obtain ⟨s', hwalk, hfrom⟩ := walk_add_done hnodup hhash hfail
    have htop : endId ≠ intMax := fun htop => hfail (hcond htop)
    have hend := (@forUpTo_eq_walk _ addRound endId (AddState.start config kmem) startId (by omega)
      (by omega)).trans (congrArg some hwalk)
    exact ⟨_, 0, s', (hcall _).trans (congrArg (Option.map loopEnd) hend), accessOk_of_from hfrom hhash hin⟩

/-- A range up to the largest `int` that nothing stops: the smallest `int` is looked for as well. -/
theorem addTop_leaves {startId : Int} (h : EndsAtTop token startId)
    (hok : ¬ (AddState.start config kmem).InsertFails (span startId intMax)) :
    ¬ StaysInside token AddState.accesses
      (fun fuel => (AddState.start config kmem).addAppIdTokenToRule fuel token) := by
  obtain ⟨hpos, hle, -⟩ := readToken_range h
  rintro ⟨fuel, code, s', hret, hinside⟩
  simp only [AddState.addAppIdTokenToRule, show readToken token = _ from h] at hret
  obtain ⟨e, hend, hret⟩ := Option.map_eq_some_iff.mp hret
  rw [addLoop_unique h hend] at hret
  have hwalked : walkedIds token = span startId intMax ++ [intMin] := by
    simp only [walkedIds, show readToken token = _ from h, if_true]
  have hhash : ∀ i ∈ span startId intMax, 0 ≤ signedHash i := fun i hi =>
    signedHash_of_nonneg (by have := (mem_span.mp hi).1; omega)
  have hnodup : (span startId intMax).Nodup := nodup_ints
  obtain ⟨s1, hwalk, -⟩ := walk_add_done hnodup hhash hok
  -- behind the range the smallest `int` is looked for, in bucket 0
  obtain ⟨code', s2, hnode, haccesses⟩ := @addAppIdNode_ret s1 intMin (by decide)
  rw [hwalked, walk_append, hwalk] at hret
  simp only [walk, addRound, hnode] at hret
  by_cases hcode : code' < 0
  · rw [if_pos hcode] at hret
    cases hret
    have hmem : (⟨intMin, signedHash intMin⟩ : IdAccess) ∈ s'.accesses := by
      rw [haccesses]
      exact List.mem_append_right _ (List.mem_singleton_self _)
    have hin := (hinside _ hmem).appId
    simp only [InToken, show readToken token = _ from h, intMin] at hin
    omega
  · rw [if_neg hcode] at hret
    cases hret

/-- **An insertion** ends and stays in its range and in the table exactly if its range does not go up to the
largest `int`, or one of its ids cannot be inserted. -/
theorem add_stays_iff (config : AppIdTable) (kmem : Kmem) (token : CJson) :
    StaysInside token AddState.accesses
        (fun fuel => (AddState.start config kmem).addAppIdTokenToRule fuel token) ↔
      ∀ startId, EndsAtTop token startId →
        (AddState.start config kmem).InsertFails (span startId intMax) := by
  constructor
  · intro hstays startId htop
    by_contra hok
    exact addTop_leaves htop hok hstays
  · intro hcond
    have hnode : ∀ appId, 0 < appId → InToken token appId →
        ∃ code s', (AddState.start config kmem).addAppIdNode appId = .ret code s' ∧
          ∀ a ∈ s'.accesses, AccessOk token a := by
      intro appId hpos hin
      have hhash : 0 ≤ signedHash appId := signedHash_of_nonneg (Int.le_of_lt hpos)
      obtain ⟨code, s', hret, haccesses⟩ := addAppIdNode_ret (AddState.start config kmem) hhash
      have hfrom : AccessesFrom [] [appId] s'.accesses := haccesses ▸ AccessesFrom.visit
      exact ⟨code, s', hret, accessOk_of_from hfrom (by simpa using hhash) (by simpa using hin)⟩
    cases hread : readToken token with
    | range startId endId =>
      refine addRange_stays hread ?_
      rintro rfl
      exact hcond startId hread
    | number valueint =>
      by_cases hpos : 0 < valueint
      · obtain ⟨code, s', hret, hok⟩ := hnode valueint hpos (by simp [InToken, hread])
        exact ⟨0, code, s', by simp only [AddState.addAppIdTokenToRule, hread, if_pos hpos, hret], hok⟩
      · exact ⟨0, -1, .start config kmem, by simp only [AddState.addAppIdTokenToRule, hread, if_neg hpos],
          fun a ha => absurd ha List.not_mem_nil⟩
    | single singleId =>
      obtain ⟨code, s', hret, hok⟩ := hnode singleId (readToken_single hread) (by simp [InToken, hread])
      exact ⟨0, code, s', by simp only [AddState.addAppIdTokenToRule, hread, hret], hok⟩
    | invalid =>
      exact ⟨0, -1, .start config kmem, by simp only [AddState.addAppIdTokenToRule, hread],
        fun a ha => absurd ha List.not_mem_nil⟩

/-! ## 3. Accesses of a deletion -/

/-- Some rule has this id. -/
def DelState.HasRule (s : DelState) (ruleId : Int) : Prop := ruleId ∈ s.rules.map (·.ruleId)

theorem rule_eq_none {s : DelState} : s.rule ruleId = none ↔ ¬ s.HasRule ruleId := by
  simp [DelState.rule, DelState.HasRule, List.find?_eq_none]

/-- One id in the table: the call returns, and the rules are those that were there. -/
theorem delAppId_ret (s : DelState) (ruleId : Int) {appId : Int} (hhash : 0 ≤ signedHash appId) :
    ∃ code s', s.fwxDelAppIdFromRule ruleId appId = .ret code s' ∧
      AccessesFrom s.accesses [appId] s'.accesses ∧ (s'.HasRule ruleId ↔ s.HasRule ruleId) := by
  unfold DelState.fwxDelAppIdFromRule
  cases hrule : s.rule ruleId with
  | none => exact ⟨_, _, rfl, fun _ ha => .inl ha, Iff.rfl⟩
  | some rule =>
    simp only [dif_pos (signedHash_bounds hhash)]
    split
    · refine ⟨_, _, rfl, AccessesFrom.visit, ?_⟩
      simp only [DelState.HasRule]
      rw [map_updateFirst]
      exact fun _ _ => rfl
    · exact ⟨_, _, rfl, AccessesFrom.visit, Iff.rfl⟩

theorem delAppId_fault {s : DelState} {appId : Int} (hrule : s.HasRule ruleId)
    (hhash : signedHash appId < 0) : ∃ s', s.fwxDelAppIdFromRule ruleId appId = .fault s' := by
  obtain ⟨rule, hsome⟩ := Option.ne_none_iff_exists'.mp fun hnone => rule_eq_none.mp hnone hrule
  have hno : ¬ (0 ≤ signedHash appId ∧ signedHash appId < APPID_HASH_SIZE) := by omega
  simp only [DelState.fwxDelAppIdFromRule, hsome, dif_neg hno]
  exact ⟨_, rfl⟩

/-- A walk of deletions comes to its end. -/
theorem walk_del_done : ∀ {ids : List Int} {s : DelState}, (∀ i ∈ ids, 0 ≤ signedHash i) →
    ∃ s', walk (delRound ruleId) ids s = .done s' ∧ AccessesFrom s.accesses ids s'.accesses ∧
      (s'.HasRule ruleId ↔ s.HasRule ruleId)
  | [], s, _ => ⟨s, rfl, fun _ ha => .inl ha, Iff.rfl⟩
  | appId :: ids, s, hhash => by
    obtain ⟨code, s1, hret, hfrom, hrule⟩ := delAppId_ret s ruleId (hhash appId (List.mem_cons_self ..))
    obtain ⟨s', hwalk, hfrom', hrule'⟩ := @walk_del_done ids s1 fun i hi =>
      hhash i (List.mem_cons_of_mem _ hi)
    refine ⟨s', ?_, AccessesFrom.cons hfrom hfrom', hrule'.trans hrule⟩
    simp only [walk, delRound, hret]
    exact hwalk

/-- A deletion up to the largest `int` has no end without a rule, and leaves the table with one. -/
theorem delTop_leaves {startId : Int} (h : EndsAtTop token startId) :
    ¬ StaysInside token DelState.accesses
      (fun fuel => (DelState.start rules).delAppIdTokenFromRule fuel ruleId token) := by
  obtain ⟨hpos, hle, -⟩ := readToken_range h
  rintro ⟨fuel, code, s', hret, -⟩
  simp only [DelState.delAppIdTokenFromRule, show readToken token = _ from h] at hret
  obtain ⟨e, hend, hret⟩ := Option.map_eq_some_iff.mp hret
  by_cases hrule : (DelState.start rules).HasRule ruleId
  · have hhash : ∀ i ∈ span startId intMax, 0 ≤ signedHash i := fun i hi =>
      signedHash_of_nonneg (by have := (mem_span.mp hi).1; omega)
    obtain ⟨s1, hwalk, -, hrule1⟩ := @walk_del_done ruleId _ (DelState.start rules) hhash
    obtain ⟨code', s2, hmin, -, hrule2⟩ := @delAppId_ret s1 ruleId intMin (by decide)
    obtain ⟨s3, hfault⟩ := @delAppId_fault ruleId s2 (intMin + 1) (hrule2.mpr (hrule1.mpr hrule)) (by decide)
    have hround : delRound ruleId intMin s1 = .next s2 := by rw [delRound, hmin]
    have hround' : delRound ruleId (intMin + 1) s2 = .fault s3 := by rw [delRound, hfault]
    have htop : forUpTo (delRound ruleId) intMax ((intMax + 1 - startId).toNat + 2) startId
        (DelState.start rules) = some (.fault s3) := by
      rw [forUpTo_top hle, hwalk]
      have hnext : succ32 intMin = intMin + 1 := by decide
      have hle1 : intMin ≤ intMax := by decide
      have hle2 : intMin + 1 ≤ intMax := by decide
      simp only [forUpTo, hnext, hle1, hle2, if_true, hround, hround']
    rw [forUpTo_unique hend htop] at hret
    cases hret
  · have hgoesOn : ∀ i (s : DelState), ¬ s.HasRule ruleId →
        ∃ s', delRound ruleId i s = .next s' ∧ ¬ s'.HasRule ruleId := by
      intro i s hs
      refine ⟨s, ?_, hs⟩
      simp only [delRound, DelState.fwxDelAppIdFromRule, rule_eq_none.mpr hs]
    have hnone : forUpTo (delRound ruleId) intMax fuel startId (DelState.start rules) = none :=
      forUpTo_endless hgoesOn hrule hle
    rw [hnone] at hend
    cases hend

/-- **A deletion** ends and stays in its range and in the table exactly if its range does not go up to the
largest `int`, and the remainder of its number is not negative when there is such a rule. -/
theorem del_stays_iff (rules : List IdRule) (ruleId : Int) (token : CJson) :
    StaysInside token DelState.accesses
        (fun fuel => (DelState.start rules).delAppIdTokenFromRule fuel ruleId token) ↔
      (∀ startId, ¬ EndsAtTop token startId) ∧
        ∀ valueint, readToken token = .number valueint → (DelState.start rules).HasRule ruleId →
          0 ≤ signedHash valueint := by
  have hone : ∀ appId, 0 ≤ signedHash appId → InToken token appId →
      ∃ code s', (DelState.start rules).fwxDelAppIdFromRule ruleId appId = .ret code s' ∧
        ∀ a ∈ s'.accesses, AccessOk token a := by
    intro appId hhash hin
    obtain ⟨code, s', hret, hfrom, -⟩ := delAppId_ret (DelState.start rules) ruleId hhash
    exact ⟨code, s', hret, accessOk_of_from hfrom (by simpa using hhash) (by simpa using hin)⟩
  constructor
  · intro hstays
    refine ⟨fun startId htop => delTop_leaves htop hstays, ?_⟩
    intro valueint hread hrule
    by_contra hneg
    obtain ⟨fuel, code, s', hret, -⟩ := hstays
    obtain ⟨s1, hfault⟩ := @delAppId_fault ruleId (DelState.start rules) valueint hrule (by omega)
    simp only [DelState.delAppIdTokenFromRule, hread, hfault] at hret
    cases hret
  · rintro ⟨htop, hnumber⟩
    cases hread : readToken token with
    | range startId endId =>
      obtain ⟨hpos, hle, hmax⟩ := readToken_range hread
      have hbelow : endId ≠ intMax := by
        rintro rfl
        exact htop startId hread
      have hhash : ∀ i ∈ span startId endId, 0 ≤ signedHash i := fun i hi =>
        signedHash_of_nonneg (by have := (mem_span.mp hi).1; omega)
      obtain ⟨s', hwalk, hfrom, -⟩ := @walk_del_done ruleId _ (DelState.start rules) hhash
      have hin : ∀ i ∈ span startId endId, InToken token i := by
        intro i hi
        simp only [InToken, hread]
        exact mem_span.mp hi
      have hcall : ∀ fuel, (DelState.start rules).delAppIdTokenFromRule fuel ruleId token =
          (forUpTo (delRound ruleId) endId fuel startId (DelState.start rules)).map loopEnd := by
        intro fuel
        simp only [DelState.delAppIdTokenFromRule, hread]
      have hend := (@forUpTo_eq_walk _ (delRound ruleId) endId (DelState.start rules) startId (by omega)
        (by omega)).trans (congrArg some hwalk)
      exact ⟨_, 0, s', (hcall _).trans (congrArg (Option.map loopEnd) hend), accessOk_of_from hfrom hhash hin⟩
    | number valueint =>
      by_cases hrule : (DelState.start rules).HasRule ruleId
      · obtain ⟨code, s', hret, hok⟩ :=
          hone valueint (hnumber valueint hread hrule) (by simp [InToken, hread])
        exact ⟨0, code, s', by simp only [DelState.delAppIdTokenFromRule, hread, hret], hok⟩
      · refine ⟨0, -1, .start rules, ?_, fun a ha => absurd ha List.not_mem_nil⟩
        simp only [DelState.delAppIdTokenFromRule, hread, DelState.fwxDelAppIdFromRule,
          rule_eq_none.mpr hrule]
    | single singleId =>
      have hhash : 0 ≤ signedHash singleId := signedHash_of_nonneg (Int.le_of_lt (readToken_single hread))
      obtain ⟨code, s', hret, hok⟩ := hone singleId hhash (by simp [InToken, hread])
      exact ⟨0, code, s', by simp only [DelState.delAppIdTokenFromRule, hread, hret], hok⟩
    | invalid =>
      exact ⟨0, -1, .start rules, by simp only [DelState.delAppIdTokenFromRule, hread],
        fun a ha => absurd ha List.not_mem_nil⟩

/-- **Both calls**: exactly when each ends and stays in the range of its token and in the table. -/
theorem token_stays_inside_iff (config : AppIdTable) (kmem : Kmem) (rules : List IdRule) (ruleId : Int)
    (token : CJson) :
    (StaysInside token AddState.accesses
        (fun fuel => (AddState.start config kmem).addAppIdTokenToRule fuel token) ↔
      ∀ startId, EndsAtTop token startId →
        (AddState.start config kmem).InsertFails (span startId intMax)) ∧
    (StaysInside token DelState.accesses
        (fun fuel => (DelState.start rules).delAppIdTokenFromRule fuel ruleId token) ↔
      (∀ startId, ¬ EndsAtTop token startId) ∧
        ∀ valueint, readToken token = .number valueint → (DelState.start rules).HasRule ruleId →
          0 ≤ signedHash valueint) :=
  ⟨add_stays_iff config kmem token, del_stays_iff rules ruleId token⟩

/-- The two largest ids. -/
def lastTwoIds : CJson := { type := .string, valuestring := some (.lit "2147483646-2147483647") }

/-- **The two largest ids**, added to an empty rule or deleted from none, and a deletion of the number -1. -/
theorem last_two_ids_leave :
    (¬ StaysInside lastTwoIds AddState.accesses
      (fun fuel => (AddState.start {} ⟨fun _ => true, 0⟩).addAppIdTokenToRule fuel lastTwoIds)) ∧
    (¬ StaysInside lastTwoIds DelState.accesses
      (fun fuel => (DelState.start []).delAppIdTokenFromRule fuel 7 lastTwoIds)) ∧
    ¬ StaysInside { type := .number, valueint := -1 } DelState.accesses
      (fun fuel => (DelState.start [⟨7, {}⟩]).delAppIdTokenFromRule fuel 7
        { type := .number, valueint := -1 }) := by
  have htop : EndsAtTop lastTwoIds (intMax - 1) := by
    unfold EndsAtTop
    decide
  refine ⟨addTop_leaves htop ?_, delTop_leaves htop, ?_⟩
  · rintro ⟨k, hk, hfails⟩
    have hlen : ((AddState.start {} ⟨fun _ => true, 0⟩).config.missing (span (intMax - 1) intMax)).length ≤
        (span (intMax - 1) intMax).length := List.length_filter_le _ _
    have htwo : (span (intMax - 1) intMax).length = 2 := by decide
    rcases hfails with hfull | hnone
    · simp only [AddState.start, MAX_APP_ID_PER_RULE] at hfull
      omega
    · cases hnone
  · rintro ⟨fuel, code, s', hret, -⟩
    cases hret

/-! ## 4. Rules without signs -/

/-- A table whose ids have no sign. -/
def AppIdTable.ofConfig (config : AppIdConfig) : AppIdTable :=
  ⟨fun i => (config.hashTable i).map Int.ofNat, config.count⟩

theorem insert_ofConfig (config : AppIdConfig) (bucket : Fin APPID_HASH_SIZE) (appId : Nat) :
    (AppIdTable.ofConfig config).insert bucket appId =
      .ofConfig ⟨Table.modify config.hashTable bucket (appId :: ·), config.count + 1⟩ := by
  unfold AppIdTable.insert AppIdTable.ofConfig
  congr 1
  funext i
  simp only [Table.modify]
  split <;> rfl

/-- The answer of `add_app_id_node` and what it leaves, the accesses aside. -/
def nodeEnd (answer : Bool × AppIdConfig × Kmem) (accesses : List IdAccess) : CallEnd AddState :=
  .ret (if answer.1 then 0 else -1) ⟨.ofConfig answer.2.1, answer.2.2, accesses⟩

theorem addAppIdNode_ofConfig (config : AppIdConfig) (kmem : Kmem) (accesses : List IdAccess)
    (appId : Nat) :
    (AddState.mk (.ofConfig config) kmem accesses).addAppIdNode appId =
      nodeEnd (addAppIdNode kmem config appId) (accesses ++ [⟨appId, signedHash appId⟩]) := by
  have hhash : signedHash appId = ((appId % APPID_HASH_SIZE : Nat) : Int) := by
    rw [signedHash, Int.tmod_eq_emod_of_nonneg (by omega)]
    rfl
  have hbounds := signedHash_bounds (signedHash_of_nonneg (Int.natCast_nonneg appId))
  have hbucket : (⟨(signedHash appId).toNat, by omega⟩ : Fin APPID_HASH_SIZE) =
      ⟨appId % APPID_HASH_SIZE, Nat.mod_lt _ (by decide)⟩ := by
    simp only [hhash, Int.toNat_natCast]
  have hmem : (appId : Int) ∈ (config.hashTable ⟨appId % APPID_HASH_SIZE, Nat.mod_lt _ (by decide)⟩).map
      Int.ofNat ↔ findAppIdNode config appId = true := by
    rw [findAppIdNode, List.contains_iff_mem]
    exact List.mem_map_of_injective fun _ _ h => Int.ofNat.inj h
  have hfound : (appId : Int) ∈ (AppIdTable.ofConfig config).hashTable
      ⟨appId % APPID_HASH_SIZE, Nat.mod_lt _ (by decide)⟩ ↔ findAppIdNode config appId = true := hmem
  have hcount : (AppIdTable.ofConfig config).count = config.count := rfl
  unfold AddState.addAppIdNode addAppIdNode nodeEnd
  simp only [dif_pos hbounds, hbucket, hfound, hcount, Kmem.kzalloc_fst, insert_ofConfig]
  by_cases hfind : findAppIdNode config appId = true
  · simp only [hfind, if_true]
  · by_cases hfull : MAX_APP_ID_PER_RULE ≤ config.count
    · simp [hfind, hfull]
    · by_cases hgranted : kmem.outcome kmem.used = true
      · simp [hfind, hfull, hgranted]
      · simp [hfind, hfull, hgranted]

theorem addAppIdNode_outcome (kmem : Kmem) (config : AppIdConfig) (appId : Nat) :
    (addAppIdNode kmem config appId).2.2.outcome = kmem.outcome := by
  rw [addAppIdNode]
  split
  · rfl
  split
  · rfl
  split <;> rfl

theorem addAppIds_outcome (kmem : Kmem) (config : AppIdConfig) (appIds : List Nat) :
    (addAppIds kmem config appIds).2.outcome = kmem.outcome := by
  induction appIds generalizing kmem config with
  | nil => rfl
  | cons appId rest ih =>
    have hnode := addAppIdNode_outcome kmem config appId
    rw [addAppIds]
    split
    · rename_i heq
      rw [heq] at hnode
      exact (ih _ _).trans hnode
    · rename_i heq
      rwa [heq] at hnode

theorem addAppIdList_outcome (kmem : Kmem) (config : AppIdConfig) (tokens : List CJson) :
    (addAppIdList kmem config tokens).2.outcome = kmem.outcome := by
  induction tokens generalizing kmem config with
  | nil => rfl
  | cons token rest ih => exact (ih _ _).trans (addAppIds_outcome _ _ _)

/-- With memory, a node is refused by a full rule only. -/
theorem addAppIdNode_refused {config config' : AppIdConfig} {kmem' : Kmem} {appId : Nat} (hmem : kmem.AllOk)
    (h : addAppIdNode kmem config appId = (false, config', kmem')) :
    config' = config ∧ MAX_APP_ID_PER_RULE ≤ config.count := by
  rw [addAppIdNode] at h
  split at h
  · cases h
  split at h
  · rename_i hfull
    cases h
    exact ⟨rfl, hfull⟩
  split at h
  · cases h
  · rename_i hrefused
    exact absurd (hmem _) hrefused

/-- A walk over ids without signs is the loop on them.  With memory, only a full rule stops it. -/
theorem walk_ofConfig (ids : List Nat) (config : AppIdConfig) (kmem : Kmem) (accesses : List IdAccess) :
    ∃ s', (walk addRound (ids.map Int.ofNat) ⟨.ofConfig config, kmem, accesses⟩ = .done s' ∨
        walk addRound (ids.map Int.ofNat) ⟨.ofConfig config, kmem, accesses⟩ = .stopped s' ∧
          (kmem.AllOk → MAX_APP_ID_PER_RULE ≤ (addAppIds kmem config ids).1.count)) ∧
      s'.config = .ofConfig (addAppIds kmem config ids).1 ∧ s'.kmem = (addAppIds kmem config ids).2 := by
  induction ids generalizing config kmem accesses with
  | nil => exact ⟨_, .inl rfl, rfl, rfl⟩
  | cons appId ids ih =>
    have hnode := addAppIdNode_ofConfig config kmem accesses appId
    have hallOk : kmem.AllOk → (addAppIdNode kmem config appId).2.2.AllOk := by
      intro hmem i
      rw [addAppIdNode_outcome]
      exact hmem i
    have hrefused : ∀ config' kmem', kmem.AllOk →
        addAppIdNode kmem config appId = (false, config', kmem') →
          config' = config ∧ MAX_APP_ID_PER_RULE ≤ config.count := fun _ _ => addAppIdNode_refused
    rw [List.map_cons, walk, addRound, show Int.ofNat appId = (appId : Int) from rfl, hnode, addAppIds]
    generalize addAppIdNode kmem config appId = answer at hallOk hrefused ⊢
    obtain ⟨added, config', kmem'⟩ := answer
    cases added with
    | true =>
      obtain ⟨s', hwalk, hrest⟩ := ih config' kmem' _
      refine ⟨s', hwalk.imp id ?_, hrest⟩
      rintro ⟨hstopped, hfull⟩
      exact ⟨hstopped, fun hmem => hfull (hallOk hmem)⟩
    | false =>
      refine ⟨_, .inr ⟨rfl, fun hmem => ?_⟩, rfl, rfl⟩
      obtain ⟨rfl, hfull⟩ := hrefused _ _ hmem rfl
      exact hfull

/-- The range of a token without signs. -/
theorem tokenRange_eq (token : CJson) :
    tokenRange token =
      match readToken token with
      | .number valueint => if 0 < valueint then some (valueint.toNat, valueint.toNat) else none
      | .range startId endId => some (startId.toNat, endId.toNat)
      | .single singleId => some (singleId.toNat, singleId.toNat)
      | .invalid => none := by
  obtain ⟨type, valueint, valuestring⟩ := token
  cases type with
  | number => rfl
  | other => rfl
  | string =>
    cases valuestring with
    | none => rfl
    | some text =>
      simp only [tokenRange, readToken, Option.bind_some, textRange]
      generalize Kernel.vsscanf Kernel.isspace [.d, .lit 45, .d] text.bytes = values
      generalize kstrtoint10 text = number
      -- two numbers are a range, anything else is not
      rcases values with _ | ⟨startId, _ | ⟨endId, _ | ⟨more, rest⟩⟩⟩
      rotate_left 2
      · by_cases hbad : startId ≤ 0 ∨ endId < startId <;> simp [hbad]
      all_goals
        cases number with
        | none => rfl
        | some singleId => by_cases hpos : 0 < singleId <;> simp [hpos]

theorem map_range' (start len : Nat) : (List.range' start len).map Int.ofNat = ints start len := by
  induction len generalizing start with
  | zero => rfl
  | succ len ih =>
    rw [List.range'_succ, List.map_cons, ih, ints]
    rfl

/-- A token whose loop does not come to the largest `int`. -/
def CJson.belowTop (token : CJson) : Bool :=
  match readToken token with
  | .range _ endId => endId < intMax
  | _ => true

theorem belowTop_iff : token.belowTop = true ↔ ∀ startId, ¬ EndsAtTop token startId := by
  unfold CJson.belowTop EndsAtTop
  cases hread : readToken token with
  | range startId endId =>
    have hle := (readToken_range hread).2.2
    simp only [decide_eq_true_eq, AppIdToken.range.injEq, not_and]
    constructor
    · intro hlt _ _
      omega
    · intro h
      have hne := h startId rfl
      omega
  | number valueint => simp
  | single singleId => simp
  | invalid => simp

/-- A call returns, and leaves these ids and this allocator. -/
def Leaves (call : Nat → Option (CallEnd AddState)) (left : AppIdConfig × Kmem) : Prop :=
  ∃ fuel code s', call fuel = some (.ret code s') ∧ s'.config = .ofConfig left.1 ∧ s'.kmem = left.2

section

variable {fields : AppIdConfig} {accesses : List IdAccess}

theorem token_map_idsOf {startId endId : Int} (hpos : 0 < startId) (hle : startId ≤ endId) :
    (idsOf (some (startId.toNat, endId.toNat))).map Int.ofNat = span startId endId := by
  rw [idsOf, map_range', span, Int.toNat_of_nonneg (by omega)]
  congr 1
  omega

/-- **Below the largest `int`** a call on a table without signs does what `addAppIds` does. -/
theorem addToken_ofConfig (hbelow : token.belowTop = true) :
    Leaves (fun fuel => (AddState.mk (.ofConfig fields) kmem accesses).addAppIdTokenToRule fuel token)
      (addAppIds kmem fields (idsOf (tokenRange token))) := by
  rw [tokenRange_eq]
  have hone : ∀ appId : Int, 0 < appId →
      ∃ code s', (AddState.mk (.ofConfig fields) kmem accesses).addAppIdNode appId = .ret code s' ∧
        s'.config = .ofConfig (addAppIds kmem fields (idsOf (some (appId.toNat, appId.toNat)))).1 ∧
        s'.kmem = (addAppIds kmem fields (idsOf (some (appId.toNat, appId.toNat)))).2 := by
    intro appId hpos
    have hids : idsOf (some (appId.toNat, appId.toNat)) = [appId.toNat] := by simp [idsOf]
    have hnode := addAppIdNode_ofConfig fields kmem accesses appId.toNat
    rw [Int.toNat_of_nonneg (Int.le_of_lt hpos)] at hnode
    refine ⟨_, _, hnode, ?_⟩
    rw [hids, addAppIds]
    obtain ⟨added, fields', kmem'⟩ := addAppIdNode kmem fields appId.toNat
    cases added with
    | true => exact ⟨rfl, rfl⟩
    | false => exact ⟨rfl, rfl⟩
  cases hread : readToken token with
  | range startId endId =>
    obtain ⟨hpos, hle, -⟩ := readToken_range hread
    have hlt : endId < intMax := by simpa [CJson.belowTop, hread] using hbelow
    obtain ⟨s', hwalk, hconfig, hkmem⟩ :=
      walk_ofConfig (idsOf (some (startId.toNat, endId.toNat))) fields kmem accesses
    rw [token_map_idsOf hpos hle] at hwalk
    have hcall : ∀ fuel, (AddState.mk (.ofConfig fields) kmem accesses).addAppIdTokenToRule fuel token =
        (forUpTo addRound endId fuel startId ⟨.ofConfig fields, kmem, accesses⟩).map loopEnd := by
      intro fuel
      simp only [AddState.addAppIdTokenToRule, hread]
    have hend := @forUpTo_eq_walk _ addRound endId ⟨.ofConfig fields, kmem, accesses⟩ startId (by omega) hlt
    rcases hwalk with hdone | ⟨hstopped, -⟩
    · exact ⟨_, 0, s', (hcall _).trans (congrArg (Option.map loopEnd) (hend.trans (congrArg some hdone))),
        hconfig, hkmem⟩
    · exact ⟨_, -1, s', (hcall _).trans (congrArg (Option.map loopEnd) (hend.trans (congrArg some hstopped))),
        hconfig, hkmem⟩
  | number valueint =>
    by_cases hpos : 0 < valueint
    · obtain ⟨code, s', hret, hrest⟩ := hone valueint hpos
      refine ⟨0, code, s', by simp only [AddState.addAppIdTokenToRule, hread, if_pos hpos, hret], ?_⟩
      simpa only [if_pos hpos] using hrest
    · refine ⟨0, -1, ⟨.ofConfig fields, kmem, accesses⟩, ?_, ?_⟩
      · simp only [AddState.addAppIdTokenToRule, hread, if_neg hpos]
      · simp only [if_neg hpos]
        exact ⟨rfl, rfl⟩
  | single singleId =>
    obtain ⟨code, s', hret, hrest⟩ := hone singleId (readToken_single hread)
    exact ⟨0, code, s', by simp only [AddState.addAppIdTokenToRule, hread, hret], hrest⟩
  | invalid =>
    exact ⟨0, -1, ⟨.ofConfig fields, kmem, accesses⟩, by simp only [AddState.addAppIdTokenToRule, hread], rfl, rfl⟩

/-- No rule has the smallest `int`. -/
theorem intMin_not_mem (fields : AppIdConfig) (i : Fin APPID_HASH_SIZE) :
    intMin ∉ (AppIdTable.ofConfig fields).hashTable i := by
  intro hmem
  obtain ⟨appId, -, hid⟩ := List.mem_map.mp hmem
  have hnonneg : (0 : Int) ≤ Int.ofNat appId := Int.natCast_nonneg appId
  rw [hid] at hnonneg
  exact absurd hnonneg (by decide)

section

variable {startId : Int} (h : EndsAtTop token startId)
include h

/-- The call on a range up to the largest `int` is its loop. -/
theorem addTop_call (s : AddState) (fuel : Nat) :
    s.addAppIdTokenToRule fuel token = (forUpTo addRound intMax fuel startId s).map loopEnd := by
  simp only [AddState.addAppIdTokenToRule, show readToken token = _ from h]

theorem addTop_walk : ∃ s',
    (walk addRound (span startId intMax) ⟨.ofConfig fields, kmem, accesses⟩ = .done s' ∨
      walk addRound (span startId intMax) ⟨.ofConfig fields, kmem, accesses⟩ = .stopped s' ∧
        (kmem.AllOk → MAX_APP_ID_PER_RULE ≤ (addAppIds kmem fields (idsOf (tokenRange token))).1.count)) ∧
    s'.config = .ofConfig (addAppIds kmem fields (idsOf (tokenRange token))).1 ∧
    s'.kmem = (addAppIds kmem fields (idsOf (tokenRange token))).2 := by
  obtain ⟨hpos, hle, -⟩ := readToken_range h
  have hrange : tokenRange token = some (startId.toNat, intMax.toNat) := by
    rw [tokenRange_eq, show readToken token = _ from h]
  obtain ⟨s', hwalk⟩ := walk_ofConfig (idsOf (tokenRange token)) fields kmem accesses
  refine ⟨s', ?_⟩
  rwa [← token_map_idsOf hpos hle, ← hrange]

/-- A rule that is full behind the range stops the loop. -/
theorem addTop_full
    (hfull : MAX_APP_ID_PER_RULE ≤ (addAppIds kmem fields (idsOf (tokenRange token))).1.count) :
    Leaves (fun fuel => (AddState.mk (.ofConfig fields) kmem accesses).addAppIdTokenToRule fuel token)
      (addAppIds kmem fields (idsOf (tokenRange token))) := by
  obtain ⟨hpos, hle, -⟩ := readToken_range h
  obtain ⟨s', hdone | ⟨hstopped, -⟩, hconfig, hkmem⟩ := @addTop_walk kmem token fields accesses startId h
  · have hmin : s'.addAppIdNode intMin = .ret (-1) (s'.visit intMin) := by
      have hbounds : 0 ≤ signedHash intMin ∧ signedHash intMin < APPID_HASH_SIZE := by decide
      have hcount : MAX_APP_ID_PER_RULE ≤ s'.config.count := by
        rw [hconfig]
        exact hfull
      unfold AddState.addAppIdNode
      rw [dif_pos hbounds, hconfig, if_neg (intMin_not_mem _ _), if_pos (hconfig ▸ hcount)]
      rw [AddState.visit, hconfig]
    have hround : addRound intMin s' = .stop (s'.visit intMin) := by
      rw [addRound, hmin]
      rfl
    have hlast : forUpTo addRound intMax 1 intMin s' = some (.stopped (s'.visit intMin)) := by
      rw [forUpTo, if_pos (by decide), hround]
    have hloop : forUpTo addRound intMax ((intMax + 1 - startId).toNat + 1) startId
        ⟨.ofConfig fields, kmem, accesses⟩ = some (.stopped (s'.visit intMin)) := by
      rw [forUpTo_top hle, hdone]
      exact hlast
    exact ⟨_, -1, s'.visit intMin, (addTop_call h _ _).trans (congrArg (Option.map loopEnd) hloop), hconfig, hkmem⟩
  · have hloop := (@forUpTo_top _ addRound ⟨.ofConfig fields, kmem, accesses⟩ _ hle 0).trans (by rw [hstopped])
    exact ⟨_, -1, s', (addTop_call h _ _).trans (congrArg (Option.map loopEnd) hloop), hconfig, hkmem⟩

/-- **A rule with room** gets the smallest `int`, and with the next id the loop leaves its table. -/
theorem addTop_leavesTable (hmem : kmem.AllOk)
    (hroom : (addAppIds kmem fields (idsOf (tokenRange token))).1.count < MAX_APP_ID_PER_RULE)
    (fuel : Nat) (code : Int) (s' : AddState) :
    (AddState.mk (.ofConfig fields) kmem accesses).addAppIdTokenToRule fuel token ≠ some (.ret code s') := by
  intro hret
  obtain ⟨hpos, hle, -⟩ := readToken_range h
  obtain ⟨s1, hdone | ⟨-, hfull⟩, hconfig, hkmem⟩ := @addTop_walk kmem token fields accesses startId h
  · have hmin : signedHash intMin = 0 := by decide
    have hhas : s1.config.has intMin = false := by
      rw [AppIdTable.has, dif_pos (by decide), hconfig]
      exact decide_eq_false (intMin_not_mem _ _)
    have hfails : ¬ s1.Fails 0 := by
      rintro (hcount | hnone)
      · rw [hconfig] at hcount
        exact absurd hcount (by simpa [AppIdTable.ofConfig] using hroom)
      · rw [hkmem, addAppIds_outcome, hmem] at hnone
        cases hnone
    obtain ⟨s2, hnode, -⟩ := addAppIdNode_inserts (by decide) hhas hfails
    have hround : addRound intMin s1 = .next s2 := by
      rw [addRound, hnode]
      rfl
    -- the second negative id has a negative bucket
    have hno : ¬ (0 ≤ signedHash (intMin + 1) ∧ signedHash (intMin + 1) < APPID_HASH_SIZE) := by decide
    have hround' : ∃ s3, addRound (intMin + 1) s2 = .fault s3 := by
      rw [addRound, AddState.addAppIdNode, dif_neg hno]
      exact ⟨_, rfl⟩
    obtain ⟨s3, hround'⟩ := hround'
    have hnext : succ32 intMin = intMin + 1 := by decide
    have hle1 : intMin ≤ intMax := by decide
    have hle2 : intMin + 1 ≤ intMax := by decide
    have hloop : forUpTo addRound intMax ((intMax + 1 - startId).toNat + 2) startId
        ⟨.ofConfig fields, kmem, accesses⟩ = some (.fault s3) := by
      rw [forUpTo_top hle, hdone]
      simp only [forUpTo, hnext, hle1, hle2, if_true, hround, hround']
    rw [addTop_call h] at hret
    obtain ⟨e, hend, hret⟩ := Option.map_eq_some_iff.mp hret
    rw [forUpTo_unique hend hloop] at hret
    cases hret
  · exact absurd (hfull hmem) (by omega)

end

end

end Oaf
