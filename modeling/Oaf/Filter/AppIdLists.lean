/-
# App-id lists of requests

A modification goes through the tokens of its list.  The loop of a token counts with an `int`: behind a range
up to the largest one it goes on with negative ids, and leaves the table of the rule.

* `appAction_ofConfig`: a request without such a range leaves what the tables without signs have.
* `addAppIdList_leaves_iff`: with memory, this is so exactly for the lists in which the rule is full behind
  every such range, so that the loop is stopped.
-/
import Oaf.Filter.AppIdRanges
import Oaf.Filter.Policy

namespace Oaf

open CLib Chains IntLoop

/-! ## 1. Requests below the largest `int` -/

/-- The tokens of a request. -/
def RuleRequest.tokens (req : RuleRequest) : List CJson := req.appId.toList ++ req.appIdList.getD []

/-- No token of a request is a range up to the largest `int`. -/
def FilterCall.belowTop : FilterCall → Bool
  | .modAppFilterRule req => req.tokens.all CJson.belowTop
  | .delAppFilterRule req => req.tokens.all CJson.belowTop
  | _ => true

/-- Requests that are not about app-filter rules have none. -/
theorem belowTop_of_other {call : FilterCall} (h : call.isAppRule = false) : call.belowTop = true := by
  cases call with
  | modAppFilterRule req => cases h
  | delAppFilterRule req => cases h
  | _ => rfl

variable {s : AddState} {token : CJson} {rest : List CJson} {kmem : Kmem} {config : AppIdConfig}

/-- Once a token has an answer, more rounds change nothing. -/
theorem addToken_mono {fuel : Nat} {answer : CallEnd AddState}
    (h : s.addAppIdTokenToRule fuel token = some answer) (more : Nat) :
    s.addAppIdTokenToRule (fuel + more) token = some answer := by
  unfold AddState.addAppIdTokenToRule at h ⊢
  cases hread : readToken token with
  | range startId endId =>
    rw [hread] at h
    obtain ⟨e, hend, hanswer⟩ := Option.map_eq_some_iff.mp h
    exact Option.map_eq_some_iff.mpr ⟨e, forUpTo_mono hend more, hanswer⟩
  | number valueint =>
    rw [hread] at h
    exact h
  | single singleId =>
    rw [hread] at h
    exact h
  | invalid =>
    rw [hread] at h
    exact h

theorem addToken_unique {fuel fuel' : Nat} {answer answer' : CallEnd AddState}
    (h : s.addAppIdTokenToRule fuel token = some answer)
    (h' : s.addAppIdTokenToRule fuel' token = some answer') : answer = answer' := by
  have h1 := addToken_mono h fuel'
  have h2 := addToken_mono h' fuel
  rw [Nat.add_comm] at h2
  exact Option.some.inj (h1.symm.trans h2)

theorem addAppIdList_mono {tokens : List CJson} {fuel : Nat} {code : Int} {s' : AddState}
    (h : s.addAppIdList fuel tokens = some (.ret code s')) (more : Nat) :
    s.addAppIdList (fuel + more) tokens = some (.ret code s') := by
  induction tokens generalizing s with
  | nil => exact h
  | cons token rest ih =>
    rw [AddState.addAppIdList] at h
    cases hcall : s.addAppIdTokenToRule fuel token with
    | none =>
      rw [hcall] at h
      cases h
    | some answer =>
      rw [hcall] at h
      cases answer with
      | fault s1 => cases h
      | ret code1 s1 =>
        rw [AddState.addAppIdList, addToken_mono hcall more]
        exact ih h

/-- A list returns if its first token does, and the others do behind it. -/
theorem leaves_cons {left left' : AppIdConfig × Kmem}
    (hhead : Leaves (fun fuel => s.addAppIdTokenToRule fuel token) left)
    (htail : ∀ s' : AddState, s'.config = .ofConfig left.1 → s'.kmem = left.2 →
      Leaves (fun fuel => s'.addAppIdList fuel rest) left') :
    Leaves (fun fuel => s.addAppIdList fuel (token :: rest)) left' := by
  obtain ⟨fuel, code, s1, hret, hconfig, hkmem⟩ := hhead
  obtain ⟨fuel', code', s', hret', hleft⟩ := htail s1 hconfig hkmem
  have hlist : s.addAppIdList (fuel + fuel') (token :: rest) = some (.ret code' s') := by
    rw [AddState.addAppIdList, addToken_mono hret fuel', Nat.add_comm]
    exact addAppIdList_mono hret' fuel
  exact ⟨fuel + fuel', code', s', hlist, hleft⟩

/-- **A list without ranges up to the largest `int`.** -/
theorem addAppIdList_ofConfig {tokens : List CJson} (hbelow : ∀ token ∈ tokens, token.belowTop = true)
    (hconfig : s.config = .ofConfig config) (hkmem : s.kmem = kmem) :
    Leaves (fun fuel => s.addAppIdList fuel tokens) (addAppIdList kmem config tokens) := by
  induction tokens generalizing s config kmem with
  | nil => exact ⟨0, 0, s, rfl, hconfig, hkmem⟩
  | cons token rest ih =>
    obtain ⟨table, memory, accesses⟩ := s
    obtain rfl : table = .ofConfig config := hconfig
    obtain rfl : memory = kmem := hkmem
    exact leaves_cons (addToken_ofConfig (hbelow token List.mem_cons_self)) fun s' hconfig' hkmem' =>
      ih (fun token htoken => hbelow token (List.mem_cons_of_mem _ htoken)) hconfig' hkmem'

/-- **A request without such ranges** leaves what the tables without signs have. -/
theorem appAction_ofConfig {req : RuleRequest} (hbelow : req.tokens.all CJson.belowTop = true)
    (hconfig : s.config = .ofConfig config) (hkmem : s.kmem = kmem) :
    Leaves (fun fuel => s.appAction fuel req) (appAction kmem config req) := by
  have hlist : ∀ tokens, req.appIdList = some tokens → ∀ token ∈ tokens, token.belowTop = true := by
    intro tokens htokens token htoken
    refine List.all_eq_true.mp hbelow token (List.mem_append_right _ ?_)
    rwa [htokens]
  have hone : ∀ token, req.appId = some token → token.belowTop = true := by
    intro token htoken
    refine List.all_eq_true.mp hbelow token (List.mem_append_left _ ?_)
    rw [htoken]
    exact List.mem_singleton_self token
  have hsame : ∀ code, Leaves (fun _ => some (.ret code s)) (config, kmem) := fun code =>
    ⟨0, code, s, rfl, hconfig, hkmem⟩
  unfold AddState.appAction Oaf.appAction
  cases req.appAction with
  | none => exact hsame 0
  | some action =>
    by_cases h12 : action = 1 ∨ action = 2
    · simp only [if_pos h12]
      cases htokens : req.appIdList with
      | none => exact hsame 0
      | some tokens =>
        by_cases h1 : action = 1
        · simp only [if_pos h1]
          exact addAppIdList_ofConfig (hlist tokens htokens) rfl hkmem
        · simp only [if_neg h1]
          exact addAppIdList_ofConfig (hlist tokens htokens) hconfig hkmem
    by_cases h3 : action = 3
    · simp only [if_neg h12, if_pos h3]
      cases htoken : req.appId with
      | none => exact hsame 0
      | some token =>
        exact addAppIdList_ofConfig (List.forall_mem_singleton.mpr (hone token htoken)) hconfig hkmem
    · simp only [if_neg h12, if_neg h3]
      exact ⟨0, 0, { s with config := {} }, rfl, rfl, hkmem⟩

/-! ## 2. Ranges up to the largest `int` -/

/-- Behind these tokens: wherever a range goes up to the largest `int`, the tokens so far have ids enough for a
whole rule. -/
def RangesStop (before : List CJson) : List CJson → Prop
  | [] => True
  | token :: rest =>
    (token.belowTop = false → 1024 ≤ (tokenIds (before ++ [token])).card) ∧
      RangesStop (before ++ [token]) rest

theorem rangesStop_of_belowTop (before : List CJson) {tokens : List CJson}
    (h : ∀ token ∈ tokens, token.belowTop = true) : RangesStop before tokens := by
  induction tokens generalizing before with
  | nil => trivial
  | cons token rest ih =>
    refine ⟨fun htop => ?_, ih _ fun token htoken => h token (List.mem_cons_of_mem _ htoken)⟩
    rw [h token List.mem_cons_self] at htop
    cases htop

/-- The ids of a rule, out of all that were asked for: all of them, or a full rule. -/
structure Filled (ids all : Finset Nat) : Prop where
  subset : ids ⊆ all
  card : ids.card = min 1024 all.card

/-- With memory, a loop goes on until the rule is full. -/
theorem filled_addAppIds {ids all : Finset Nat} (hmem : kmem.AllOk) (hrel : IdsRel config ids)
    (hfilled : Filled ids all) (appIds : List Nat) :
    ∃ ids', IdsRel (addAppIds kmem config appIds).1 ids' ∧ Filled ids' (all ∪ appIds.toFinset) := by
  induction appIds generalizing kmem config ids all with
  | nil =>
    refine ⟨ids, hrel, ?_⟩
    rwa [List.toFinset_nil, Finset.union_empty]
  | cons appId rest ih =>
    have hunion : all ∪ (appId :: rest).toFinset = insert appId all ∪ rest.toFinset := by
      rw [List.toFinset_cons, Finset.union_insert, Finset.insert_union]
    have hcount := hrel.count
    have hle : ids.card ≤ 1024 := hfilled.card ▸ Nat.min_le_left _ _
    rw [hunion, addAppIds, addAppIdNode]
    by_cases hin : appId ∈ ids
    · rw [if_pos ((hrel.find appId).mpr hin)]
      refine ih hmem hrel ?_
      rwa [Finset.insert_eq_of_mem (hfilled.subset hin)]
    rw [if_neg fun hfound => hin ((hrel.find appId).mp hfound)]
    by_cases hfull : MAX_APP_ID_PER_RULE ≤ config.count
    · -- the rule is full, and stays so
      rw [if_pos hfull]
      rw [hcount, MAX_APP_ID_PER_RULE] at hfull
      have hsub : ids ⊆ insert appId all ∪ rest.toFinset :=
        hfilled.subset.trans ((Finset.subset_insert _ _).trans Finset.subset_union_left)
      have hcard := Finset.card_le_card hsub
      exact ⟨ids, hrel, hsub, by omega⟩
    · rw [if_neg hfull, if_pos (show kmem.kzalloc.1 = true from hmem _)]
      rw [hcount, MAX_APP_ID_PER_RULE] at hfull
      -- there is room, so all ids are there
      have hall : ids = all := by
        refine Finset.eq_of_subset_of_card_le hfilled.subset ?_
        have hcard := hfilled.card
        omega
      subst hall
      refine ih hmem.kzalloc (idsRel_insert hrel hin) ⟨Finset.Subset.refl _, ?_⟩
      rw [Finset.card_insert_of_notMem hin]
      omega

theorem tokenIds_snoc (before : List CJson) (token : CJson) :
    tokenIds (before ++ [token]) = tokenIds before ∪ (idsOf (tokenRange token)).toFinset := by
  rw [tokenIds, List.flatMap_append, List.toFinset_append, List.flatMap_singleton, tokenIds]

/-- One token, with memory: the loop of a range up to the largest `int` needs a full rule to stop. -/
theorem addToken_leaves {ids : Finset Nat} {before : List CJson} {accesses : List IdAccess}
    (hrel : IdsRel (addAppIds kmem config (idsOf (tokenRange token))).1 ids)
    (hfilled : Filled ids (tokenIds (before ++ [token])))
    (hstop : token.belowTop = false → 1024 ≤ (tokenIds (before ++ [token])).card) :
    Leaves (fun fuel => (AddState.mk (.ofConfig config) kmem accesses).addAppIdTokenToRule fuel token)
      (addAppIds kmem config (idsOf (tokenRange token))) := by
  by_cases hbelow : token.belowTop = true
  · exact addToken_ofConfig hbelow
  obtain ⟨startId, htop⟩ := not_forall_not.mp (mt belowTop_iff.mpr hbelow)
  refine addTop_full htop ?_
  have hcard := hfilled.card
  have hids := hstop (Bool.eq_false_iff.mpr hbelow)
  rw [hrel.count, MAX_APP_ID_PER_RULE]
  omega

/-- It has no answer else. -/
theorem rangesStop_of_ret {ids : Finset Nat} {before : List CJson} {accesses : List IdAccess} {fuel : Nat}
    {code : Int} {s' : AddState} (hmem : kmem.AllOk)
    (hrel : IdsRel (addAppIds kmem config (idsOf (tokenRange token))).1 ids)
    (hfilled : Filled ids (tokenIds (before ++ [token])))
    (hret : (AddState.mk (.ofConfig config) kmem accesses).addAppIdTokenToRule fuel token = some (.ret code s'))
    (hbelow : token.belowTop = false) : 1024 ≤ (tokenIds (before ++ [token])).card := by
  by_contra hfew
  obtain ⟨startId, htop⟩ := not_forall_not.mp (mt belowTop_iff.mpr (Bool.eq_false_iff.mp hbelow))
  have hcard := hfilled.card
  refine addTop_leavesTable htop hmem ?_ fuel code s' hret
  rw [hrel.count, MAX_APP_ID_PER_RULE]
  omega

/-- **Which lists a rule takes.**  With memory, the calls return, and leave what the tables without signs have,
exactly if every loop up to the largest `int` is stopped by a full rule. -/
theorem addAppIdList_leaves_iff {ids : Finset Nat} {before tokens : List CJson} (hmem : kmem.AllOk)
    (hrel : IdsRel config ids) (hfilled : Filled ids (tokenIds before)) (hconfig : s.config = .ofConfig config)
    (hkmem : s.kmem = kmem) :
    Leaves (fun fuel => s.addAppIdList fuel tokens) (addAppIdList kmem config tokens) ↔
      RangesStop before tokens := by
  induction tokens generalizing s config kmem ids before with
  | nil => exact ⟨fun _ => trivial, fun _ => ⟨0, 0, s, rfl, hconfig, hkmem⟩⟩
  | cons token rest ih =>
    obtain ⟨table, memory, accesses⟩ := s
    obtain rfl : table = .ofConfig config := hconfig
    obtain rfl : memory = kmem := hkmem
    obtain ⟨ids', hrel', hfilled'⟩ := filled_addAppIds hmem hrel hfilled (idsOf (tokenRange token))
    rw [← tokenIds_snoc] at hfilled'
    have hmem' : (addAppIds memory config (idsOf (tokenRange token))).2.AllOk := by
      intro i
      rw [addAppIds_outcome]
      exact hmem i
    constructor
    · rintro ⟨fuel, code, s', hret, hleft⟩
      change AddState.addAppIdList fuel _ (token :: rest) = _ at hret
      rw [AddState.addAppIdList] at hret
      cases hcall : (AddState.mk (.ofConfig config) memory accesses).addAppIdTokenToRule fuel token with
      | none =>
        rw [hcall] at hret
        cases hret
      | some answer =>
        rw [hcall] at hret
        cases answer with
        | fault s1 => cases hret
        | ret code1 s1 =>
          have hstop := rangesStop_of_ret hmem hrel' hfilled' hcall
          obtain ⟨fuel', code', s1', hcall', hconfig', hkmem'⟩ := addToken_leaves hrel' hfilled' hstop
          obtain ⟨-, rfl⟩ := CallEnd.ret.inj (addToken_unique hcall hcall')
          exact ⟨hstop, (ih hmem' hrel' hfilled' hconfig' hkmem').mp ⟨fuel, code, s', hret, hleft⟩⟩
    · rintro ⟨hstop, hrest⟩
      exact leaves_cons (addToken_leaves hrel' hfilled' hstop) fun s1 hconfig' hkmem' =>
        (ih hmem' hrel' hfilled' hconfig' hkmem').mpr hrest

/-! ## 3. Modifications -/

/-- The loops of a modification stay in the table of its rule, and leave there what the tables without signs
have. -/
def FilterCall.InTable (k : FilterKernel) : FilterCall → Prop
  | .modAppFilterRule req => ∀ ruleId rule, req.ruleId = some ruleId →
      fwxFindAppFilterRule k ruleId = some rule →
        Leaves (fun fuel => (AddState.start (.ofConfig rule.appIdList)
            (macAction k.kmem rule.macList req).2).appAction fuel req)
          (appAction (macAction k.kmem rule.macList req).2 rule.appIdList req)
  | _ => True

theorem inTable_of_belowTop {call : FilterCall} (h : call.belowTop = true) (k : FilterKernel) :
    call.InTable k := by
  cases call with
  | modAppFilterRule req => exact fun ruleId rule _ _ => appAction_ofConfig h rfl rfl
  | _ => trivial

end Oaf
