/-
# The messages of the rule manager

The texts that `set_appfilter_rule_mac_list`, `set_appfilter_rule_app_id_list` and
`set_macfilter_rule_mac_list` write to `/dev/fwx`, and what the kernel makes of them.

* `AsMeant`: the kernel gets what is meant, and changes nothing else.
* `messages_carried_iff`: this is so if and only if no address holds a character that is not plain, no app id
  one that ends a string, and every range of app ids up to the largest `int` finds the rule full at its end.
* `readable_carried`: what the writes of the rule manager's model assume.
-/
import Oaf.Json.Messages
import Oaf.Manager.Model

namespace Oaf

open CLib Chains

/-! ## 1. Texts -/

/-- `text:gsub(c, repl)`, for a character that is no magic one. -/
def gsub (c : UInt8) (repl text : List UInt8) : List UInt8 :=
  text.flatMap fun d => if d = c then repl else [d]

/-- `"[" .. table.concat(strs, ",") .. "]"`, for texts in quotes. -/
def arrayStr (texts : List (List UInt8)) : List UInt8 :=
  if texts = [] then ascii "[]"
  else 91 :: [44].intercalate (texts.map fun text => 34 :: (text ++ [34])) ++ [93]

/-- `set_appfilter_rule_mac_list`: `json_str`. -/
def appfilterRuleMacListJson (ruleId : Int) (macList : List CStr) : List UInt8 :=
  ascii "\x7b\"api\":\"mod_app_filter_rule\",\"data\":\x7b\"rule_id\":" ++ printInt ruleId ++
    ascii ",\"mac_action\":1,\"mac_list\":" ++ arrayStr (macList.map (·.bytes)) ++ ascii "\x7d\x7d"

/-- The `token` of `set_appfilter_rule_app_id_list`. -/
def appIdToken (appId : CStr) : List UInt8 := gsub 34 [92, 34] (gsub 92 [92, 92] appId.bytes)

/-- `set_appfilter_rule_app_id_list`: `json_str`. -/
def appfilterRuleAppIdListJson (ruleId : Int) (appIdList : List CStr) : List UInt8 :=
  ascii "\x7b\"api\":\"mod_app_filter_rule\",\"data\":\x7b\"rule_id\":" ++ printInt ruleId ++
    ascii ",\"app_action\":1,\"app_id_list\":" ++ arrayStr (appIdList.map appIdToken) ++ ascii "\x7d\x7d"

/-- `set_macfilter_rule_mac_list`: `clear_json`. -/
def macfilterRuleClearJson (ruleId mode : Int) : List UInt8 :=
  ascii "\x7b\"api\":\"mod_mac_filter_rule\",\"data\":\x7b\"rule_id\":" ++ printInt ruleId ++
    ascii ",\"mode\":" ++ printInt (macFilterMode mode) ++ ascii ",\"mac_action\":0\x7d\x7d"

/-- `set_macfilter_rule_mac_list`: `json_str`, which is written for a list that is not empty. -/
def macfilterRuleMacListJson (ruleId : Int) (macList : List CStr) (mode : Int) : List UInt8 :=
  ascii "\x7b\"api\":\"mod_mac_filter_rule\",\"data\":\x7b\"rule_id\":" ++ printInt ruleId ++
    ascii ",\"mode\":" ++ printInt (macFilterMode mode) ++ ascii ",\"mac_action\":1,\"mac_list\":" ++
    arrayStr (macList.map (·.bytes)) ++ ascii "\x7d\x7d"

theorem appIdToken_eq (appId : CStr) : appIdToken appId = escaped appId.bytes := by
  rw [appIdToken, gsub, gsub, escaped, List.flatMap_assoc]
  congr 1
  funext c
  by_cases h : c = 92
  · subst h
    rfl
  · by_cases h' : c = 34 <;> simp [escapeChar, h, h']

theorem intercalate_items {texts : List (List UInt8)} (hne : texts ≠ []) (rest : List UInt8) :
    [44].intercalate (texts.map fun text => 34 :: (text ++ [34])) ++ 93 :: rest = itemsText texts rest := by
  induction texts with
  | nil => exact absurd rfl hne
  | cons text texts ih =>
    cases texts with
    | nil => simp [itemsText, quotedText, List.intercalate]
    | cons text' texts =>
      have hrest := ih (List.cons_ne_nil text' texts)
      simp only [List.map_cons, List.intercalate_cons_cons, List.append_assoc] at hrest ⊢
      rw [hrest]
      simp [itemsText, quotedText]

theorem arrayStr_append (texts : List (List UInt8)) (rest : List UInt8) :
    arrayStr texts ++ rest = listText texts rest := by
  rw [arrayStr, listText]
  split
  · rfl
  · rename_i hne
    rw [← intercalate_items hne]
    simp

/-! ## 2. The messages as members -/

theorem macFilterMode_nonneg (mode : Int) : 0 ≤ macFilterMode mode := by
  rw [macFilterMode]
  split <;> decide

def modAppFilterRuleApi : CStr := .lit "mod_app_filter_rule"
def modMacFilterRuleApi : CStr := .lit "mod_mac_filter_rule"

/-- A request whose `data` is some numbers and a list. -/
def listItem (api : CStr) (fields : List (CStr × Nat)) (key : CStr) (list : List CStr) : KJson :=
  requestItem api (fieldItems fields ++ [(key, .array (list.map .string))])

section

variable {ruleId : Int} (h : 0 ≤ ruleId) (mode : Int) (list : List CStr) (rest : List UInt8)
include h

theorem appfilterRuleMacListJson_eq :
    appfilterRuleMacListJson ruleId list ++ rest =
      requestText modAppFilterRuleApi (123 ::
        fieldsText [(.lit "rule_id", ruleId.toNat), (.lit "mac_action", 1)]
          (memberText (.lit "mac_list") (listText (list.map (·.bytes)) (125 :: 125 :: rest)))) := by
  have hone : printNat 1 = [49] := by decide
  simp only [appfilterRuleMacListJson, List.append_assoc, printInt_of_nonneg h, fieldsText,
    ← arrayStr_append, hone]
  rfl

theorem appfilterRuleAppIdListJson_eq :
    appfilterRuleAppIdListJson ruleId list ++ rest =
      requestText modAppFilterRuleApi (123 ::
        fieldsText [(.lit "rule_id", ruleId.toNat), (.lit "app_action", 1)]
          (memberText (.lit "app_id_list") (listText (list.map appIdToken) (125 :: 125 :: rest)))) := by
  have hone : printNat 1 = [49] := by decide
  simp only [appfilterRuleAppIdListJson, List.append_assoc, printInt_of_nonneg h, fieldsText,
    ← arrayStr_append, hone]
  rfl

theorem macfilterRuleMacListJson_eq :
    macfilterRuleMacListJson ruleId list mode ++ rest =
      requestText modMacFilterRuleApi (123 ::
        fieldsText [(.lit "rule_id", ruleId.toNat), (.lit "mode", (macFilterMode mode).toNat),
          (.lit "mac_action", 1)]
          (memberText (.lit "mac_list") (listText (list.map (·.bytes)) (125 :: 125 :: rest)))) := by
  have hone : printNat 1 = [49] := by decide
  simp only [macfilterRuleMacListJson, List.append_assoc, printInt_of_nonneg h,
    printInt_of_nonneg (macFilterMode_nonneg mode), fieldsText, ← arrayStr_append, hone]
  rfl

end

/-! ## 3. What they change -/

/-- Of the app-filter rules, only this one has changed, and as it may. -/
structure OnlyAppRule (ruleId : Int) (May : AppFilterRule → AppFilterRule → Prop) (k k' : FilterKernel) :
    Prop where
  rules : List.Forall₂ (fun rule rule' => rule' = rule ∨ rule.ruleId = ruleId ∧ May rule rule')
    k.config.appFilterRuleList k'.config.appFilterRuleList
  -- the time of the change and the allocator apart
  others : k' = { k with
    kmem := k'.kmem
    config := { k.config with
      appFilterRuleList := k'.config.appFilterRuleList
      gAppfilterUpdateJiffies := k'.config.gAppfilterUpdateJiffies } }

/-- Of the MAC-filter rules, only this one has changed, and as it may. -/
structure OnlyMacRule (ruleId : Int) (May : MacFilterRule → MacFilterRule → Prop) (k k' : FilterKernel) :
    Prop where
  rules : List.Forall₂ (fun rule rule' => rule' = rule ∨ rule.ruleId = ruleId ∧ May rule rule')
    k.config.macFilterRuleList k'.config.macFilterRuleList
  others : k' = { k with
    kmem := k'.kmem
    config := { k.config with macFilterRuleList := k'.config.macFilterRuleList } }

section

variable {k : FilterKernel} {req : RuleRequest} {ruleId : Int} (hid : req.ruleId = some ruleId)
include hid

theorem onlyAppRule_mod {May : AppFilterRule → AppFilterRule → Prop}
    (hmay : ∀ rule, May rule (modAppRule k.kmem rule req).1) :
    OnlyAppRule ruleId May k (fwxApiModAppFilterRule k req) := by
  rw [fwxApiModAppFilterRule, hid]
  simp only
  cases hfind : fwxFindAppFilterRule k ruleId with
  | none => exact ⟨List.forall₂_same.mpr fun _ _ => .inl rfl, rfl⟩
  | some found =>
    have hfound : found.ruleId = ruleId := by simpa using List.find?_some hfind
    refine ⟨(forall₂_updateFirst hfind).imp fun rule rule' hrule => ?_, rfl⟩
    obtain hsame | ⟨rfl, rfl⟩ := hrule
    · exact .inl hsame
    · exact .inr ⟨hfound, hmay rule⟩

theorem onlyMacRule_mod {May : MacFilterRule → MacFilterRule → Prop}
    (hmay : ∀ rule : MacFilterRule, May rule { rule with
      mode := (req.mode.map macFilterMode).getD rule.mode
      macList := (macAction k.kmem rule.macList req).1 }) :
    OnlyMacRule ruleId May k (fwxApiModMacFilterRule k req) := by
  rw [fwxApiModMacFilterRule, hid]
  simp only
  cases hfind : fwxFindMacFilterRule k ruleId with
  | none => exact ⟨List.forall₂_same.mpr fun _ _ => .inl rfl, rfl⟩
  | some found =>
    have hfound : found.ruleId = ruleId := by simpa using List.find?_some hfind
    refine ⟨(forall₂_updateFirst hfind).imp fun rule rule' hrule => ?_, rfl⟩
    obtain hsame | ⟨rfl, rfl⟩ := hrule
    · exact .inl hsame
    · exact .inr ⟨hfound, hmay rule⟩

end

/-! ## 4. Messages that are carried -/

/-- The end of the buffer, behind a text. -/
def zerosBehind (text : List UInt8) : List UInt8 := List.replicate (BUF_SIZE - text.length) 0

/-- However a text is cut into writes, the kernel reads it as this item and makes this call of it, and the
call stays in the tables, if there is memory, and changes only what it may. -/
structure AsMeant (uninit : Bytes → UInt32) (text : List UInt8) (item : KJson) (call : FilterCall)
    (Only : FilterKernel → FilterKernel → Prop) : Prop where
  parsed : ∃ rest, cJSONParse uninit (text ++ zerosBehind text) = .ok item rest
  called : ∀ chunks : List (List UInt8), chunks.flatten = text →
    fwxCdevRelease uninit (fwxCdevWrites (chunks.map fun chunk => { buffer := chunk })) = some (some call)
  inTable : ∀ k : FilterKernel, k.kmem.AllOk → call.InTable k
  changed : ∀ k k', fwxConfigHandle k call = some k' → Only k k'

/-- A text that is read as an item carries what the item asks for, if the call stays in the tables. -/
theorem carried_iff {uninit : Bytes → UInt32} {text : List UInt8} {item : KJson} {call : FilterCall}
    {Only : FilterKernel → FilterKernel → Prop} (hne : text ≠ []) (hfits : text.length ≤ BUF_SIZE)
    (hskip : skip (text ++ zerosBehind text) = some (text ++ zerosBehind text))
    (hcall : handleItem item = some (some call))
    (honly : ∀ k k', fwxConfigHandle k call = some k' → Only k k') :
    AsMeant uninit text item call Only ↔
      (∀ k : FilterKernel, k.kmem.AllOk → call.InTable k) ∧
        ∃ rest, Reads uninit (text ++ zerosBehind text) (.value item) rest := by
  have hparse : ∀ rest, cJSONParse uninit (text ++ zerosBehind text) = .ok item rest ↔
      Reads uninit (text ++ zerosBehind text) (.value item) rest := by
    intro rest
    rw [cJSONParse_ok_iff, ReadsText, hskip]
    simp
  simp only [← hparse]
  refine ⟨fun h => ⟨h.inTable, h.parsed⟩, fun hboth => ⟨hboth.2, fun chunks hchunks => ?_, hboth.1, honly⟩⟩
  subst hchunks
  have hholds := fileHolds_writes hfits
  obtain ⟨-, rest, hrest⟩ := hboth
  rw [zerosBehind] at hrest
  rw [fwxCdevRelease, fwxConfigRequest, if_neg (by rw [hholds.size]; exact fun h => hne (List.length_eq_zero_iff.mp h)),
    hholds.buf, hrest]
  exact hcall

/-- A text that starts as a request does. -/
theorem carried_request_iff {uninit : Bytes → UInt32} {text : List UInt8} {item : KJson} {call : FilterCall}
    {Only : FilterKernel → FilterKernel → Prop} {api : CStr} {data : List UInt8 → List UInt8}
    (htext : ∀ rest, text ++ rest = requestText api (data rest)) (hfits : text.length ≤ BUF_SIZE)
    (hcall : handleItem item = some (some call))
    (honly : ∀ k k', fwxConfigHandle k call = some k' → Only k k') :
    AsMeant uninit text item call Only ↔
      (∀ k : FilterKernel, k.kmem.AllOk → call.InTable k) ∧
        ∃ rest, Reads uninit (requestText api (data (zerosBehind text))) (.value item) rest := by
  have hne : text ≠ [] := by
    rintro rfl
    cases htext []
  have hskip : skip (text ++ zerosBehind text) = some (text ++ zerosBehind text) := by
    rw [htext]
    rfl
  rw [carried_iff hne hfits hskip hcall honly, htext]

/-- The same for a call without app ids. -/
theorem carried_macRequest_iff {uninit : Bytes → UInt32} {text : List UInt8} {item : KJson} {call : FilterCall}
    {Only : FilterKernel → FilterKernel → Prop} {api : CStr} {data : List UInt8 → List UInt8}
    (htext : ∀ rest, text ++ rest = requestText api (data rest)) (hfits : text.length ≤ BUF_SIZE)
    (hcall : handleItem item = some (some call)) (hbelow : call.belowTop = true)
    (honly : ∀ k k', fwxConfigHandle k call = some k' → Only k k') :
    AsMeant uninit text item call Only ↔
      ∃ rest, Reads uninit (requestText api (data (zerosBehind text))) (.value item) rest := by
  rw [carried_request_iff htext hfits hcall honly]
  exact and_iff_right fun k _ => inTable_of_belowTop hbelow k

/-- The call of a modification of the list of addresses of an app-filter rule. -/
def appMacListCall (ruleId : Int) (macList : List CStr) : FilterCall :=
  .modAppFilterRule {
    ruleId := ruleId, macAction := some 1, macList := some (macList.map some) }

def appIdListCall (ruleId : Int) (appIdList : List CStr) : FilterCall :=
  .modAppFilterRule {
    ruleId := ruleId, appAction := some 1, appIdList := some (appIdList.map textToken) }

def macClearCall (ruleId mode : Int) : FilterCall :=
  .modMacFilterRule { ruleId := ruleId, mode := some (macFilterMode mode), macAction := some 0 }

def macListCall (ruleId : Int) (macList : List CStr) (mode : Int) : FilterCall :=
  .modMacFilterRule {
    ruleId := ruleId, mode := some (macFilterMode mode), macAction := some 1
    macList := some (macList.map some) }

/-- **Which app ids stay in the table of any rule.** -/
theorem inTable_appIdList_iff (ruleId : Int) (appIdList : List CStr) :
    (∀ k : FilterKernel, k.kmem.AllOk → (appIdListCall ruleId appIdList).InTable k) ↔
      RangesStop [] (appIdList.map textToken) := by
  have hfilled : Filled ∅ (tokenIds []) := ⟨Finset.Subset.refl _, rfl⟩
  have hiff : ∀ kmem : Kmem, kmem.AllOk →
      (Leaves (fun fuel => AddState.addAppIdList fuel ⟨.ofConfig {}, kmem, []⟩ (appIdList.map textToken))
        (addAppIdList kmem {} (appIdList.map textToken)) ↔ RangesStop [] (appIdList.map textToken)) :=
    fun kmem hmem => addAppIdList_leaves_iff hmem idsRel_init hfilled rfl rfl
  constructor
  · intro h
    -- a kernel with this rule
    let k : FilterKernel := { config := { appFilterRuleList := [{ ruleId := ruleId }] }, kmem := freeMemory }
    have hfind : fwxFindAppFilterRule k ruleId = some { ruleId := ruleId } := by simp [k, fwxFindAppFilterRule]
    exact (hiff freeMemory fun _ => rfl).mp (h k (fun _ => rfl) ruleId _ rfl hfind)
  · intro h k hmem _ _ _ _
    exact (hiff k.kmem hmem).mpr h

theorem valuestrings (list : List CStr) : (list.map KJson.string).map KJson.valuestring = list.map some := by
  rw [List.map_map]
  rfl

theorem tokens_textTokens (list : List CStr) : (list.map KJson.string).map KJson.token = list.map textToken := by
  rw [List.map_map]
  rfl

theorem handle_appMacList (ruleId : Nat) (list : List CStr) :
    handleItem (listItem modAppFilterRuleApi [(.lit "rule_id", ruleId), (.lit "mac_action", 1)]
      (.lit "mac_list") list) = some (some (appMacListCall ruleId list)) := by
  rw [appMacListCall, ← valuestrings]
  rfl

theorem handle_appIdList (ruleId : Nat) (list : List CStr) :
    handleItem (listItem modAppFilterRuleApi [(.lit "rule_id", ruleId), (.lit "app_action", 1)]
      (.lit "app_id_list") list) = some (some (appIdListCall ruleId list)) := by
  rw [appIdListCall, ← tokens_textTokens]
  rfl

theorem handle_macList (ruleId mode : Nat) (list : List CStr) :
    handleItem (listItem modMacFilterRuleApi [(.lit "rule_id", ruleId), (.lit "mode", mode),
      (.lit "mac_action", 1)] (.lit "mac_list") list) =
        some (some (.modMacFilterRule {
          ruleId := some ruleId, mode := some mode, macAction := some 1, macList := some (list.map some) })) := by
  rw [← valuestrings]
  rfl

/-- `clear_json` is read as it is meant. -/
def clearItem (ruleId mode : Nat) : KJson :=
  requestItem modMacFilterRuleApi
    (fieldItems [(.lit "rule_id", ruleId), (.lit "mode", mode)] ++ [(.lit "mac_action", .number 0)])

theorem handle_macClear (ruleId mode : Nat) :
    handleItem (clearItem ruleId mode) = some (some (.modMacFilterRule {
      ruleId := some ruleId, mode := some mode, macAction := some 0 })) := rfl

theorem macfilterRuleClearJson_eq {ruleId : Int} (h : 0 ≤ ruleId) (mode : Int) (rest : List UInt8) :
    macfilterRuleClearJson ruleId mode ++ rest =
      requestText modMacFilterRuleApi (123 ::
        fieldsText [(.lit "rule_id", ruleId.toNat), (.lit "mode", (macFilterMode mode).toNat)]
          (memberText (.lit "mac_action") (48 :: 125 :: 125 :: rest))) := by
  simp only [macfilterRuleClearJson, List.append_assoc, printInt_of_nonneg h,
    printInt_of_nonneg (macFilterMode_nonneg mode), fieldsText]
  rfl

theorem macFilterMode_le (mode : Int) : macFilterMode mode ≤ 2 := by
  rw [macFilterMode]
  split <;> decide

theorem any_not_plain (text : List UInt8) :
    (text.any fun c => !isPlain c) = false ↔ text.all isPlain = true := by
  rw [List.any_eq_false, List.all_eq_true]
  simp

theorem parseString_given {uninit : Bytes → UInt32} {text : CStr}
    (h : (text.bytes.any fun c => !isPlain c) = false) (rest : Bytes) :
    parseString uninit (text.bytes ++ 34 :: rest) = some (text, rest) :=
  parseString_plain ((any_not_plain _).mp h) rest

theorem parseString_token {uninit : Bytes → UInt32} {text : CStr} (h : text.bytes.any endsText = false)
    (rest : Bytes) : parseString uninit (appIdToken text ++ 34 :: rest) = some (text, rest) := by
  rw [appIdToken_eq]
  exact parseString_escaped h rest

/-- The keys of the messages are plain. -/
theorem isPlain_ruleId : (CStr.lit "rule_id").bytes.all isPlain = true := by decide

theorem isPlain_macAction : (CStr.lit "mac_action").bytes.all isPlain = true := by decide

theorem isPlain_appAction : (CStr.lit "app_action").bytes.all isPlain = true := by decide

theorem isPlain_mode : (CStr.lit "mode").bytes.all isPlain = true := by decide

section

variable {uninit : Bytes → UInt32} {ruleId : Int} (hid : 1 ≤ ruleId ∧ ruleId ≤ 2147483647) (mode : Int)
include hid

/-- The small numbers of a message. -/
theorem fields_ok {fields : List (CStr × Nat)} (hkeys : ∀ field ∈ fields, field.1.bytes.all isPlain = true)
    (hvalues : ∀ field ∈ fields, field.2 = ruleId.toNat ∨ field.2 ≤ 2) :
    ∀ field ∈ fields, field.1.bytes.all isPlain = true ∧ field.2 < 2 ^ 31 := by
  intro field hfield
  have hvalue := hvalues field hfield
  exact ⟨hkeys field hfield, by omega⟩

theorem appMacList_carried_iff {macList : List CStr}
    (hfits : (appfilterRuleMacListJson ruleId macList).length ≤ BUF_SIZE) :
    AsMeant uninit (appfilterRuleMacListJson ruleId macList)
      (listItem modAppFilterRuleApi [(.lit "rule_id", ruleId.toNat), (.lit "mac_action", 1)]
        (.lit "mac_list") macList) (appMacListCall ruleId macList)
      (OnlyAppRule ruleId fun rule rule' => rule' = { rule with macList := rule'.macList }) ↔
      ∀ mac ∈ macList, mac.bytes.all isPlain = true := by
  have hnonneg : 0 ≤ ruleId := by omega
  have hcall := handle_appMacList ruleId.toNat macList
  rw [Int.toNat_of_nonneg hnonneg] at hcall
  rw [carried_macRequest_iff (appfilterRuleMacListJson_eq hnonneg macList) hfits hcall rfl ?_]
  · rw [zerosBehind]
    have hmessage := @reads_message_iff uninit (·.bytes) (fun c => !isPlain c) (fun _ => parseString_given)
      (fun text => textCost_self text.bytes) modAppFilterRuleApi (.lit "mac_list") (by decide) (by decide)
      [(.lit "rule_id", ruleId.toNat), (.lit "mac_action", 1)]
      (fields_ok hid (List.forall_mem_cons.mpr ⟨isPlain_ruleId, List.forall_mem_singleton.mpr isPlain_macAction⟩) (by simp)) macList
    exact (hmessage _).trans (by simp only [any_not_plain])
  · intro k k' h
    obtain rfl := Option.some.inj h
    exact onlyAppRule_mod rfl fun _ => rfl

theorem appIdList_carried_iff {appIdList : List CStr}
    (hfits : (appfilterRuleAppIdListJson ruleId appIdList).length ≤ BUF_SIZE) :
    AsMeant uninit (appfilterRuleAppIdListJson ruleId appIdList)
      (listItem modAppFilterRuleApi [(.lit "rule_id", ruleId.toNat), (.lit "app_action", 1)]
        (.lit "app_id_list") appIdList) (appIdListCall ruleId appIdList)
      (OnlyAppRule ruleId fun rule rule' => rule' = { rule with appIdList := rule'.appIdList }) ↔
      (∀ appId ∈ appIdList, appId.bytes.any endsText = false) ∧ RangesStop [] (appIdList.map textToken) := by
  have hnonneg : 0 ≤ ruleId := by omega
  have hcall := handle_appIdList ruleId.toNat appIdList
  rw [Int.toNat_of_nonneg hnonneg] at hcall
  rw [carried_request_iff (appfilterRuleAppIdListJson_eq hnonneg appIdList) hfits hcall ?_,
    inTable_appIdList_iff, and_comm]
  · refine and_congr ?_ Iff.rfl
    rw [zerosBehind]
    exact @reads_message_iff uninit appIdToken endsText (fun _ => parseString_token)
      (fun text => by rw [appIdToken_eq]; exact textCost_escaped text.bytes) modAppFilterRuleApi
      (.lit "app_id_list") (by decide) (by decide)
      [(.lit "rule_id", ruleId.toNat), (.lit "app_action", 1)]
      (fields_ok hid (List.forall_mem_cons.mpr ⟨isPlain_ruleId, List.forall_mem_singleton.mpr isPlain_appAction⟩) (by simp)) appIdList _
  · intro k k' h
    obtain rfl := Option.some.inj h
    exact onlyAppRule_mod rfl fun _ => rfl

theorem macList_carried_iff {macList : List CStr}
    (hfits : (macfilterRuleMacListJson ruleId macList mode).length ≤ BUF_SIZE) :
    AsMeant uninit (macfilterRuleMacListJson ruleId macList mode)
      (listItem modMacFilterRuleApi [(.lit "rule_id", ruleId.toNat),
        (.lit "mode", (macFilterMode mode).toNat), (.lit "mac_action", 1)] (.lit "mac_list") macList)
      (macListCall ruleId macList mode)
      (OnlyMacRule ruleId fun rule rule' =>
        rule' = { rule with mode := rule'.mode, macList := rule'.macList }) ↔
      ∀ mac ∈ macList, mac.bytes.all isPlain = true := by
  have hnonneg : 0 ≤ ruleId := by omega
  have hcall := handle_macList ruleId.toNat (macFilterMode mode).toNat macList
  rw [Int.toNat_of_nonneg hnonneg, Int.toNat_of_nonneg (macFilterMode_nonneg mode)] at hcall
  rw [macListCall, carried_macRequest_iff (macfilterRuleMacListJson_eq hnonneg mode macList) hfits hcall rfl ?_]
  · rw [zerosBehind]
    have hmessage := @reads_message_iff uninit (·.bytes) (fun c => !isPlain c) (fun _ => parseString_given)
      (fun text => textCost_self text.bytes) modMacFilterRuleApi (.lit "mac_list") (by decide) (by decide)
      [(.lit "rule_id", ruleId.toNat), (.lit "mode", (macFilterMode mode).toNat), (.lit "mac_action", 1)]
      (fields_ok hid (List.forall_mem_cons.mpr ⟨isPlain_ruleId,
        List.forall_mem_cons.mpr ⟨isPlain_mode, List.forall_mem_singleton.mpr isPlain_macAction⟩⟩) (by simp [macFilterMode_le])) macList
    exact (hmessage _).trans (by simp only [any_not_plain])
  · intro k k' h
    obtain rfl := Option.some.inj h
    exact onlyMacRule_mod rfl fun _ => rfl

/-- The message that empties a list has nothing to lose. -/
theorem macClear_carried (hfits : (macfilterRuleClearJson ruleId mode).length ≤ BUF_SIZE) :
    AsMeant uninit (macfilterRuleClearJson ruleId mode)
      (clearItem ruleId.toNat (macFilterMode mode).toNat) (macClearCall ruleId mode)
      (OnlyMacRule ruleId fun rule rule' =>
        rule' = { rule with mode := rule'.mode, macList := rule'.macList }) := by
  have hnonneg : 0 ≤ ruleId := by omega
  have hcall := handle_macClear ruleId.toNat (macFilterMode mode).toNat
  rw [Int.toNat_of_nonneg hnonneg, Int.toNat_of_nonneg (macFilterMode_nonneg mode)] at hcall
  rw [macClearCall, carried_macRequest_iff (macfilterRuleClearJson_eq hnonneg mode) hfits hcall rfl ?_]
  · have hfields := @fields_ok ruleId hid
      [(.lit "rule_id", ruleId.toNat), (.lit "mode", (macFilterMode mode).toNat)]
      (List.forall_mem_cons.mpr ⟨isPlain_ruleId, List.forall_mem_singleton.mpr isPlain_mode⟩) (by simp [macFilterMode_le])
    generalize zerosBehind _ = zeros
    have hlast : Reads uninit (memberText (.lit "mac_action") (48 :: 125 :: 125 :: zeros))
        (.members [(.lit "mac_action", .number 0)]) (125 :: zeros) :=
      (reads_lastMember_iff isPlain_macAction rfl).mpr ⟨_, .number (.inr (by decide)) rfl, rfl⟩
    exact ⟨zeros, (reads_request_iff (by decide)).mpr ⟨_, (reads_fields_iff hfields).mpr hlast, rfl⟩⟩
  · intro k k' h
    obtain rfl := Option.some.inj h
    exact onlyMacRule_mod rfl fun _ => rfl

end

/-- **When the kernel gets the lists that the rule manager means**: no address holds a character that is not
plain, no app id one that ends a string, and a loop up to the largest `int` is stopped by a full rule. -/
theorem messages_carried_iff (uninit : Bytes → UInt32) {ruleId : Int}
    (hid : 1 ≤ ruleId ∧ ruleId ≤ 2147483647) (mode : Int) {appMacs appIds macs : List CStr}
    (hmacs : (appfilterRuleMacListJson ruleId appMacs).length ≤ BUF_SIZE)
    (hids : (appfilterRuleAppIdListJson ruleId appIds).length ≤ BUF_SIZE)
    (hclear : (macfilterRuleClearJson ruleId mode).length ≤ BUF_SIZE)
    (hset : (macfilterRuleMacListJson ruleId macs mode).length ≤ BUF_SIZE) :
    (AsMeant uninit (appfilterRuleMacListJson ruleId appMacs)
      (listItem modAppFilterRuleApi [(.lit "rule_id", ruleId.toNat), (.lit "mac_action", 1)]
        (.lit "mac_list") appMacs) (appMacListCall ruleId appMacs)
      (OnlyAppRule ruleId fun rule rule' => rule' = { rule with macList := rule'.macList }) ↔
        ∀ mac ∈ appMacs, mac.bytes.all isPlain = true) ∧
    (AsMeant uninit (appfilterRuleAppIdListJson ruleId appIds)
      (listItem modAppFilterRuleApi [(.lit "rule_id", ruleId.toNat), (.lit "app_action", 1)]
        (.lit "app_id_list") appIds) (appIdListCall ruleId appIds)
      (OnlyAppRule ruleId fun rule rule' => rule' = { rule with appIdList := rule'.appIdList }) ↔
        (∀ appId ∈ appIds, appId.bytes.any endsText = false) ∧ RangesStop [] (appIds.map textToken)) ∧
    (AsMeant uninit (macfilterRuleClearJson ruleId mode)
        (clearItem ruleId.toNat (macFilterMode mode).toNat) (macClearCall ruleId mode)
        (OnlyMacRule ruleId fun rule rule' =>
          rule' = { rule with mode := rule'.mode, macList := rule'.macList }) ∧
      (macs ≠ [] → AsMeant uninit (macfilterRuleMacListJson ruleId macs mode)
        (listItem modMacFilterRuleApi [(.lit "rule_id", ruleId.toNat),
          (.lit "mode", (macFilterMode mode).toNat), (.lit "mac_action", 1)] (.lit "mac_list") macs)
        (macListCall ruleId macs mode)
        (OnlyMacRule ruleId fun rule rule' =>
          rule' = { rule with mode := rule'.mode, macList := rule'.macList })) ↔
        ∀ mac ∈ macs, mac.bytes.all isPlain = true) := by
  refine ⟨appMacList_carried_iff hid hmacs, appIdList_carried_iff hid hids, ?_⟩
  rw [macList_carried_iff hid mode hset]
  constructor
  · rintro ⟨-, h⟩ mac hmac
    exact h (List.ne_nil_of_mem hmac) mac hmac
  · intro h
    exact ⟨macClear_carried hid mode hclear, fun _ => h⟩

/-- Two addresses, and a range of apps with one more. -/
def familyMacs : List CStr := [.lit "02:00:00:00:00:a7", .lit "02:00:00:00:00:b8"]
def familyApps : List CStr := [.lit "1001-1003", .lit "2005"]

/-- The lists of a rule for a family: addresses and apps of an app-filter rule, and the addresses of a MAC-filter
rule. -/
theorem messages_carried_family :
    AsMeant (fun _ => 0) (appfilterRuleMacListJson 7 familyMacs)
      (listItem modAppFilterRuleApi [(.lit "rule_id", 7), (.lit "mac_action", 1)] (.lit "mac_list") familyMacs)
      (appMacListCall 7 familyMacs)
      (OnlyAppRule 7 fun rule rule' => rule' = { rule with macList := rule'.macList }) ∧
    AsMeant (fun _ => 0) (appfilterRuleAppIdListJson 7 familyApps)
      (listItem modAppFilterRuleApi [(.lit "rule_id", 7), (.lit "app_action", 1)] (.lit "app_id_list") familyApps)
      (appIdListCall 7 familyApps)
      (OnlyAppRule 7 fun rule rule' => rule' = { rule with appIdList := rule'.appIdList }) ∧
    AsMeant (fun _ => 0) (macfilterRuleMacListJson 7 familyMacs 2)
      (listItem modMacFilterRuleApi [(.lit "rule_id", 7), (.lit "mode", 2), (.lit "mac_action", 1)]
        (.lit "mac_list") familyMacs) (macListCall 7 familyMacs 2)
      (OnlyMacRule 7 fun rule rule' => rule' = { rule with mode := rule'.mode, macList := rule'.macList }) := by
  have hbelow : ∀ token ∈ familyApps.map textToken, token.belowTop = true := by decide
  obtain ⟨happMacs, happIds, hmacs⟩ := @messages_carried_iff (fun _ => 0) 7 (by decide) 2 familyMacs familyApps
    familyMacs (by decide +kernel) (by decide +kernel) (by decide +kernel) (by decide +kernel)
  exact ⟨happMacs.mpr (by decide), happIds.mpr ⟨by decide, rangesStop_of_belowTop [] hbelow⟩,
    (hmacs.mpr (by decide)).2 (by decide)⟩

/-- The address of a rule: after the first quote it goes on as JSON. -/
def injectedAddress : CStr := .lit "aa\"],\"app_action\":0,\"x\":[\""

/-- What the kernel reads: three members of the message, and two of the address. -/
def injectedItem : KJson :=
  requestItem modAppFilterRuleApi [(.lit "rule_id", .number 7), (.lit "mac_action", .number 1),
    (.lit "mac_list", .array [.string (.lit "aa")]), (.lit "app_action", .number 0),
    (.lit "x", .array [.string (.lit "")])]

theorem parse_injectedAddress (zeros : List UInt8) :
    ∃ rest, cJSONParse (fun _ => 0) (appfilterRuleMacListJson 7 [injectedAddress] ++ zeros) =
      .ok injectedItem rest := by
  rw [appfilterRuleMacListJson_eq (by decide)]
  -- what the address is: the end of the list, and two more members
  have htext : listText ([injectedAddress].map (·.bytes)) (125 :: 125 :: zeros) =
      91 :: quotedText (CStr.lit "aa").bytes (93 :: 44 ::
        fieldsText [(.lit "app_action", 0)] (memberText (.lit "x")
          (91 :: quotedText (CStr.lit "").bytes (93 :: 125 :: 125 :: zeros)))) := rfl
  have hlist : ∀ (text : CStr) (rest : Bytes), text.bytes.all isPlain = true →
      Reads (fun _ => 0) (91 :: quotedText text.bytes (93 :: rest)) (.value (.array [.string text])) rest :=
    fun text rest h => reads_array_iff.mpr (.lastItem rfl (.string (parseString_plain h _)) rfl)
  have hkeys : (CStr.lit "mac_list").bytes.all isPlain = true ∧ (CStr.lit "x").bytes.all isPlain = true := by
    decide
  have hlast : Reads (fun _ => 0)
      (memberText (.lit "x") (91 :: quotedText (CStr.lit "").bytes (93 :: 125 :: 125 :: zeros)))
      (.members [(.lit "x", .array [.string (.lit "")])]) (125 :: zeros) :=
    (reads_lastMember_iff hkeys.2 rfl).mpr ⟨_, hlist (.lit "") (125 :: 125 :: zeros) (by decide), rfl⟩
  have haction := (@reads_fields_iff (fun _ => 0) [(.lit "app_action", 0)] (by decide) _ _ _ _).mpr hlast
  have hmacs := (reads_member_iff hkeys.1 rfl (hlist (.lit "aa") _ (by decide))).mpr haction
  have hdata := (@reads_fields_iff (fun _ => 0) [(.lit "rule_id", 7), (.lit "mac_action", 1)] (by decide)
    _ _ _ _).mpr hmacs
  refine ⟨zeros, ?_⟩
  rw [htext]
  exact cJSONParse_ok_iff.mpr ⟨_, rfl, (reads_request_iff (by decide)).mpr ⟨125 :: zeros, hdata, rfl⟩⟩

theorem release_injectedAddress :
    fwxCdevRelease (fun _ => 0)
      (fwxCdevWrites [{ buffer := appfilterRuleMacListJson 7 [injectedAddress] }]) =
        some (some (.modAppFilterRule {
          ruleId := some 7, macAction := some 1, macList := some [some (.lit "aa")], appAction := some 0 })) := by
  have hfits : (appfilterRuleMacListJson 7 [injectedAddress]).length ≤ BUF_SIZE := by decide +kernel
  have hne : appfilterRuleMacListJson 7 [injectedAddress] ≠ [] := by simp [appfilterRuleMacListJson, ascii]
  obtain ⟨rest, hparse⟩ := parse_injectedAddress (List.replicate (BUF_SIZE -
    (appfilterRuleMacListJson 7 [injectedAddress]).length) 0)
  rw [release_parsed hfits hne hparse]
  rfl

/-- It empties the app ids of the rule. -/
theorem address_empties_appIds :
    fwxCdevRelease (fun _ => 0)
      (fwxCdevWrites [{ buffer := appfilterRuleMacListJson 7 [injectedAddress] }]) =
        some (some (.modAppFilterRule {
          ruleId := some 7, macAction := some 1, macList := some [some (.lit "aa")], appAction := some 0 })) ∧
      ¬AsMeant (fun _ => 0) (appfilterRuleMacListJson 7 [injectedAddress])
        (listItem modAppFilterRuleApi [(.lit "rule_id", 7), (.lit "mac_action", 1)]
          (.lit "mac_list") [injectedAddress]) (appMacListCall 7 [injectedAddress])
        (OnlyAppRule 7 fun rule rule' => rule' = { rule with macList := rule'.macList }) := by
  refine ⟨release_injectedAddress, fun h => ?_⟩
  have hcalled := h.called [appfilterRuleMacListJson 7 [injectedAddress]] (List.append_nil _)
  rw [List.map_singleton, release_injectedAddress] at hcalled
  simp [appMacListCall] at hcalled

/-! ## 5. The writes of the rule manager -/

theorem endsText_of_printable {c : UInt8} (h : (32 ≤ c && c < 127) = true) : endsText c = false := by
  simp only [Bool.and_eq_true, decide_eq_true_eq, UInt8.le_iff_toNat_le, UInt8.lt_iff_toNat_lt,
    UInt8.reduceToNat] at h
  simp only [endsText, Bool.or_eq_false_iff, decide_eq_false_iff_not, UInt8.le_iff_toNat_le,
    UInt8.reduceToNat]
  omega

theorem any_endsText_of_jsonText {text : CStr} (h : jsonText text = true) :
    text.bytes.any endsText = false := by
  rw [List.any_eq_false]
  intro c hc
  rw [endsText_of_printable (List.all_eq_true.mp h c hc)]
  exact Bool.false_ne_true

theorem plain_of_jsonPlain {text : CStr} (h : jsonPlain text = true) : text.bytes.all isPlain = true := by
  rw [jsonPlain, Bool.and_eq_true, Bool.and_eq_true] at h
  obtain ⟨⟨htext, hquote⟩, hescape⟩ := h
  rw [List.all_eq_true]
  intro c hc
  refine isPlain_iff.mpr ⟨endsText_of_printable (List.all_eq_true.mp htext c hc), ?_, ?_⟩
  · rintro rfl
    simp [CStr.strchr, hc] at hquote
  · rintro rfl
    simp [CStr.strchr, hc] at hescape

/-- **What the model of the rule manager takes as readable is carried.** -/
theorem readable_carried (uninit : Bytes → UInt32) {ruleId : Int} (hid : 1 ≤ ruleId ∧ ruleId ≤ 2147483647)
    {macList appIdList : List CStr} (hmacs : (appfilterRuleMacListJson ruleId macList).length ≤ BUF_SIZE)
    (hids : (appfilterRuleAppIdListJson ruleId appIdList).length ≤ BUF_SIZE) :
    (macList.all jsonPlain = true → AsMeant uninit (appfilterRuleMacListJson ruleId macList)
      (listItem modAppFilterRuleApi [(.lit "rule_id", ruleId.toNat), (.lit "mac_action", 1)]
        (.lit "mac_list") macList) (appMacListCall ruleId macList)
      (OnlyAppRule ruleId fun rule rule' => rule' = { rule with macList := rule'.macList })) ∧
    (appIdList.all jsonText = true → (appIdListCall ruleId appIdList).belowTop = true → AsMeant uninit (appfilterRuleAppIdListJson ruleId appIdList)
      (listItem modAppFilterRuleApi [(.lit "rule_id", ruleId.toNat), (.lit "app_action", 1)]
        (.lit "app_id_list") appIdList) (appIdListCall ruleId appIdList)
      (OnlyAppRule ruleId fun rule rule' => rule' = { rule with appIdList := rule'.appIdList })) := by
  constructor
  · intro h
    exact (appMacList_carried_iff hid hmacs).mpr fun mac hmac =>
      plain_of_jsonPlain (List.all_eq_true.mp h mac hmac)
  · intro h hbelow
    exact (appIdList_carried_iff hid hids).mpr ⟨fun appId happId =>
      any_endsText_of_jsonText (List.all_eq_true.mp h appId happId),
      rangesStop_of_belowTop [] (List.all_eq_true.mp hbelow)⟩

end Oaf
