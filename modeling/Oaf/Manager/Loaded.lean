/-
# App-filter rules as they are loaded

A rule goes from the page to the rule manager through UCI: `fwx_api_add_filter_rule`, `fwx_api_update_filter_rule` and
`fwx_api_delete_filter_rule` store it as texts, and `load_appfilter_rules` (`rule_manager.lua`) reads the texts.

An `AskedRule` is a rule in the terms of the page, and a ledger has those that were asked for and not deleted since.
`PageCall.onLedger` says what a call is for.

* `Shows`: what the section of a rule holds.
* `isOf_loadAppfilterRule`: the manager loads of such a section the rule that was asked for.
* `asked_rules_loaded`: in every run of the calls, the policy that the manager wants is that of the ledger.

An update that leaves out the times or the app ids wipes them; the ledger says so too.
-/
import Oaf.AppFilter.Ids
import Oaf.Manager.Reconcile
import Oaf.Manager.Windows
import Mathlib.Data.List.ReduceOption

namespace Oaf

open CLib Runs
open MacFilter (ruleType setText setInt luaTonumber LuaTimeRule findRuleIndexById)

/-! ## 1. `load_appfilter_rules` -/

/-- A rule of `load_appfilter_rules`. -/
structure LuaAppRule where
  id : Rat
  mode : Rat
  enabled : Rat
  filterQuic : Rat
  userMac : UciValue
  timeRules : List LuaTimeRule
  appIds : List (List UInt8)

/-- `tonumber(..) or default` -/
def luaNumberOr (value : Option UciValue) (default : Rat) : Rat :=
  match value with
  | some (.string text) => (luaTonumber text).getD default
  | _ => default

/-- The rule of a section. -/
def loadAppfilterRule (s : UciSection) : LuaAppRule where
  id := luaNumberOr (s.options (ascii "id")) 0
  mode := luaNumberOr (s.options (ascii "mode")) 1
  enabled := luaNumberOr (s.options (ascii "enabled")) 1
  filterQuic := luaNumberOr (s.options (ascii "filter_quic")) 0
  userMac := (s.options (ascii "user_mac")).getD (.string [])
  timeRules := loadAppTimeRules (s.options (ascii "time_rule"))
  appIds := (((s.options (ascii "app_id")).map MacFilter.UciValue.items).getD []).filter (· ≠ [])

/-- `load_appfilter_rules`. -/
def loadAppfilterRules (pkg : UciPackage) : List LuaAppRule := (pkg.ofType ruleType).map loadAppfilterRule

/-- A time rule of the manager is this one of Lua. -/
structure TimeRule.IsOf (rule : TimeRule Int) (lua : LuaTimeRule) : Prop where
  weekdays : lua.weekdays = rule.weekdays.map fun d : Int => (d : Rat)
  startTime : lua.startTime = rule.startTime
  endTime : lua.endTime = rule.endTime

/-- A rule of the manager is this one of Lua. -/
structure AppRule.IsOf (rule : AppRule) (lua : LuaAppRule) : Prop where
  id : lua.id = rule.id
  mode : lua.mode = rule.mode
  enabled : lua.enabled = rule.enabled
  filterQuic : lua.filterQuic = rule.filterQuic
  userMac : lua.userMac = .string rule.userMac.bytes
  timeRules : List.Forall₂ (fun lua rule => TimeRule.IsOf rule lua) lua.timeRules rule.timeRules
  appIds : lua.appIds = rule.appIds.map CStr.bytes

/-! ## 2. What the page asks for -/

/-- An element of `time_rules`. -/
def ClockRule.asked (rule : ClockRule) : FilterTimeRule :=
  ⟨some (rule.weekdays.map fun d => (d.val : Int)), some rule.startTime.text, some rule.endTime.text⟩

/-- Its text. -/
def ClockRule.line (rule : ClockRule) : List UInt8 :=
  [44].intercalate ((rule.weekdays.map fun d => (d.val : Int)).map printInt) ++
    44 :: (rule.startTime.text ++ 44 :: rule.endTime.text)

/-- The fields of a request. -/
structure RuleFields where
  name : Option (List UInt8) := none
  mode : Option Int := none
  userMac : Option CStr := none
  userName : Option (List UInt8) := none
  enabled : Option Int := none
  filterQuic : Option Int := none
  times : Option (List ClockRule) := none
  appIds : Option (List (List UInt8)) := none

/-- The request that adds a rule. -/
def RuleFields.add (fields : RuleFields) : AddFilterRuleRequest where
  name := fields.name
  mode := fields.mode
  userMac := fields.userMac.map CStr.bytes
  userName := fields.userName
  enabled := fields.enabled
  filterQuic := fields.filterQuic
  timeRules := fields.times.map (·.map ClockRule.asked)
  appIds := fields.appIds.map (·.map some)

/-- The request that updates one. -/
def RuleFields.update (fields : RuleFields) (id : Int) : UpdateFilterRuleRequest where
  id := some id
  name := fields.name
  mode := fields.mode
  userMac := fields.userMac.map CStr.bytes
  userName := fields.userName
  enabled := fields.enabled
  filterQuic := fields.filterQuic
  timeRules := fields.times.map (·.map ClockRule.asked)
  appIds := fields.appIds.map (·.map some)

/-- What an added rule needs. -/
def RuleFields.Complete (fields : RuleFields) : Prop :=
  fields.name.isSome ∧ fields.mode.isSome ∧ fields.times.isSome ∧ fields.appIds.isSome

instance (fields : RuleFields) : Decidable fields.Complete := inferInstanceAs (Decidable (_ ∧ _))

/-- A rule as it was asked for.  The app ids are texts, and those that name none are no matter. -/
structure AskedRule where
  id : Int
  mode : Int := 1
  enabled : Int := 1
  quic : Bool := false
  userMac : CStr := .empty
  times : List ClockRule := []
  appIds : List (List UInt8) := []

/-- The rule with the fields of a request. -/
def AskedRule.given (rule : AskedRule) (fields : RuleFields) : AskedRule where
  id := rule.id
  mode := fields.mode.getD rule.mode
  enabled := fields.enabled.getD rule.enabled
  quic := (fields.filterQuic.map fun quic => decide (quic ≠ 0)).getD rule.quic
  userMac := fields.userMac.getD rule.userMac
  times := fields.times.getD []
  appIds := fields.appIds.getD []

/-- A call of the page. -/
inductive PageCall where
  | add (now : Int) (fields : RuleFields)
  | update (id : Int) (fields : RuleFields)
  | delete (id : Int)

/-- What it makes of the package. -/
def PageCall.onStore (uci : Libuci) (store : UciStore) : PageCall → UciStore
  | .add now fields => (fwxApiAddFilterRule uci (newRuleId now) store fields.add).1
  | .update id fields => (fwxApiUpdateFilterRule uci store (fields.update id)).1
  | .delete id => (fwxApiDeleteFilterRule store (some id)).1

/-- What it is for. -/
def PageCall.onLedger (ledger : List AskedRule) : PageCall → List AskedRule
  | .add now fields =>
    if fields.Complete then ledger ++ [({ id := newRuleId now } : AskedRule).given fields] else ledger
  | .update id fields => ledger.map fun rule => if rule.id = id then rule.given fields else rule
  | .delete id => ledger.filter fun rule => rule.id ≠ id

/-- The package, and what was asked for. -/
structure PageState where
  store : UciStore
  ledger : List AskedRule

def pageStep (uci : Libuci) (s : PageState) (call : PageCall) (t : PageState) : Prop :=
  t = ⟨call.onStore uci s.store, call.onLedger s.ledger⟩

/-- Printable ASCII. -/
def IsPrintable (text : List UInt8) : Prop := ∀ c ∈ text, 32 ≤ c ∧ c < 127

instance (text : List UInt8) : Decidable (IsPrintable text) := List.decidableBAll _ text

/-- libuci stores a printable text as it is, and deletes an option that is set to the empty text. -/
structure Libuci.KeepsTexts (uci : Libuci) : Prop where
  set : ∀ old text, text ≠ [] → IsPrintable text → uci.set old text = some (.string text)
  setEmpty : ∀ old, uci.set old [] = none
  addNone : ∀ text, text ≠ [] → IsPrintable text → uci.add none text = some (.list [text])
  addList : ∀ items text, text ≠ [] → IsPrintable text →
    uci.add (some (.list items)) text = some (.list (items ++ [text]))

/-- The address is printable, and the text of a time rule fits into its buffer. -/
structure RuleFields.Ok (fields : RuleFields) : Prop where
  userMac : ∀ mac ∈ fields.userMac, IsPrintable mac.bytes
  times : ∀ times ∈ fields.times, ∀ rule ∈ times, rule.weekdays.length ≤ 122

/-- **The condition on a call**: no two rules are added in one second. -/
def PageCall.Ok (s : PageState) : PageCall → Prop
  | .add now fields => fields.Ok ∧ newRuleId now ∉ s.ledger.map AskedRule.id
  | .update _ fields => fields.Ok ∧ s.ledger.length < 2 ^ 31
  | .delete _ => True

/-! ## 3. What a rule is for -/

/-- The ids that a text names: a number, or the numbers from one to another. -/
def namedIds (raw : List UInt8) : Finset Nat :=
  match MacFilter.sscanfInt raw with
  | some (start, 45 :: rest) =>
    match MacFilter.sscanfInt rest with
    | some (stop, []) => if 0 < start then Finset.Icc start.toNat stop.toNat else ∅
    | _ => ∅
  | some (val, []) => if 0 < val then {val.toNat} else ∅
  | _ => ∅

/-- The rule is in force at a moment of the week. -/
def AskedRule.OnAt (rule : AskedRule) (weekday : Fin 7) (minutes : Nat) : Prop :=
  rule.enabled = 1 ∧ ∃ time ∈ rule.times,
    time.OpenOn weekday minutes ∨ weekday ∈ time.weekdays ∧ time.StillOpen minutes

/-- It is against the apps it names, for its user or for all of them. -/
def AskedRule.policy (rule : AskedRule) : PolicyRule where
  quic := rule.quic
  macs := if rule.mode = 2 then (macStrToBin (some rule.userMac)).toFinset else ∅
  appIds := rule.appIds.toFinset.biUnion namedIds

/-- The manager loads these rules of the package, and wants the policy of the ledger. -/
structure LoadedAs (pkg : UciPackage) (ledger : List AskedRule) (rules : List AppRule) : Prop where
  isOf : List.Forall₂ (fun lua rule => AppRule.IsOf rule lua) (loadAppfilterRules pkg) rules
  ids : rules.map AppRule.id = ledger.map AskedRule.id
  policy : ∀ (weekday : Fin 7) (minutes : Nat) (id : Int) (p : PolicyRule),
    wantedPolicy rules ⟨weekday.val, minutes⟩ id = some p ↔
      ∃ rule ∈ ledger, rule.id = id ∧ rule.OnAt weekday minutes ∧ rule.policy = p

/-! ## 4. Texts -/

theorem isPrintable_append {a b : List UInt8} (ha : IsPrintable a) (hb : IsPrintable b) : IsPrintable (a ++ b) :=
  fun c hc => (List.mem_append.mp hc).elim (ha c) (hb c)

theorem isPrintable_cons {c : UInt8} {b : List UInt8} (hc : 32 ≤ c ∧ c < 127) (hb : IsPrintable b) :
    IsPrintable (c :: b) :=
  List.forall_mem_cons.mpr ⟨hc, hb⟩

theorem printable_of_isdigit (c : UInt8) : isdigit c = true → 32 ≤ c ∧ c < 127 :=
  forall_byte (p := fun c => isdigit c = true → 32 ≤ c ∧ c < 127) (by decide +kernel) c

theorem isPrintable_printInt (i : Int) : IsPrintable (printInt i) := by
  intro c hc
  rcases mem_printInt hc with hdigit | rfl
  · exact printable_of_isdigit c hdigit
  · decide

theorem isPrintable_intercalate : ∀ {parts : List (List UInt8)}, (∀ part ∈ parts, IsPrintable part) →
    IsPrintable ([44].intercalate parts)
  | [], _ => fun _ h => nomatch h
  | [part], h => by
    rw [List.intercalate_singleton]
    exact h part (List.mem_cons_self ..)
  | part :: next :: parts, h => by
    obtain ⟨hpart, hrest⟩ := List.forall_mem_cons.mp h
    rw [List.intercalate_cons_cons]
    exact isPrintable_append (isPrintable_append hpart (by decide)) (isPrintable_intercalate hrest)

theorem ClockTime.isClock (time : ClockTime) : IsClock time.text := by
  have hhour := time.hour.isLt
  have hminute := time.minute.isLt
  exact ⟨_, _, _, _, rfl, isdigit_digitByte (by omega), isdigit_digitByte (by omega),
    isdigit_digitByte (by omega), isdigit_digitByte (by omega)⟩

theorem IsClock.isPrintable {text : List UInt8} (h : IsClock text) : IsPrintable text := by
  obtain ⟨a, b, c, d, rfl, ha, hb, hc, hd⟩ := h
  refine isPrintable_cons (printable_of_isdigit a ha) (isPrintable_cons (printable_of_isdigit b hb)
    (isPrintable_cons (by decide) (isPrintable_cons (printable_of_isdigit c hc)
      (isPrintable_cons (printable_of_isdigit d hd) fun _ h => nomatch h))))

theorem ClockRule.text_asked (rule : ClockRule) : rule.asked.text = some rule.line := rfl

theorem ClockRule.line_ne_nil (rule : ClockRule) : rule.line ≠ [] := by simp [ClockRule.line]

theorem ClockRule.isPrintable_line (rule : ClockRule) : IsPrintable rule.line := by
  refine isPrintable_append (isPrintable_intercalate fun part hpart => ?_)
    (isPrintable_cons (by decide) (isPrintable_append rule.startTime.isClock.isPrintable
      (isPrintable_cons (by decide) rule.endTime.isClock.isPrintable)))
  obtain ⟨i, -, rfl⟩ := List.mem_map.mp hpart
  exact isPrintable_printInt i

theorem length_intercalate_le : ∀ {parts : List (List UInt8)}, (∀ part ∈ parts, part.length ≤ 1) →
    ([44].intercalate parts).length ≤ 2 * parts.length
  | [], _ => by simp
  | [part], h => by
    have := h part (List.mem_cons_self ..)
    rw [List.intercalate_singleton, List.length_singleton]
    omega
  | part :: next :: parts, h => by
    obtain ⟨hpart, hrest⟩ := List.forall_mem_cons.mp h
    have := length_intercalate_le hrest
    simp only [List.intercalate_cons_cons, List.length_append, List.length_cons, List.length_nil] at this ⊢
    omega

theorem ClockRule.length_line_le {rule : ClockRule} (h : rule.weekdays.length ≤ 122) : rule.line.length ≤ 256 := by
  have hdays : ∀ part ∈ (rule.weekdays.map fun d => (d.val : Int)).map printInt, part.length ≤ 1 := by
    intro part hpart
    obtain ⟨i, hi, rfl⟩ := List.mem_map.mp hpart
    obtain ⟨d, -, rfl⟩ := List.mem_map.mp hi
    rw [printInt_of_nonneg (Int.natCast_nonneg _), Int.toNat_natCast]
    exact printNat_length_le (by decide) (by have := d.isLt; omega)
  have hlen := length_intercalate_le hdays
  simp only [List.length_map] at hlen
  simp only [ClockRule.line, List.length_append, List.length_cons, ClockTime.text, List.length_nil]
  omega

/-- The text of a token is a number or two, with a minus between them. -/
theorem normalizeAppIdToken_shape {raw text : List UInt8} (h : normalizeAppIdToken raw = some text) :
    text ≠ [] ∧ IsPrintable text ∧ text.length ≤ 23 := by
  have hlen : ∀ {r : List UInt8} {i : Int} {rest : List UInt8}, MacFilter.sscanfInt r = some (i, rest) →
      (printInt i).length ≤ 11 := by
    intro r i rest hr
    rw [MacFilter.sscanfInt] at hr
    split at hr
    · cases hr
    · obtain ⟨rfl, -⟩ := Prod.mk.inj (Option.some.inj hr)
      have h1 := @Int.le_bmod (strtol10 r).value (2 ^ 32) (by decide)
      have h2 := @Int.bmod_lt (strtol10 r).value (2 ^ 32) (by decide)
      refine printInt_length_le (by decide) ?_
      rw [Kernel.toInt32]
      omega
  rw [normalizeAppIdToken] at h
  split at h
  · rename_i start rest hstart
    split at h
    · rename_i stop hstop
      split at h
      · obtain rfl := Option.some.inj h
        have h1 := hlen hstart
        have h2 := hlen hstop
        refine ⟨by simp, isPrintable_append (isPrintable_printInt _)
          (isPrintable_cons (by decide) (isPrintable_printInt _)), ?_⟩
        rw [List.length_append, List.length_cons]
        omega
      · cases h
    · cases h
  · rename_i val hval
    split at h
    · obtain rfl := Option.some.inj h
      have h1 := hlen hval
      exact ⟨printInt_ne_nil _, isPrintable_printInt _, by omega⟩
    · cases h
  · cases h

/-! ## 5. The section of a rule -/

/-- A list option that holds these texts. -/
def listValue (texts : List (List UInt8)) : Option UciValue := if texts = [] then none else some (.list texts)

/-- What the section of a rule holds. -/
structure Shows (s : UciSection) (rule : AskedRule) : Prop where
  bounds : -2 ^ 31 ≤ rule.id ∧ rule.id < 2 ^ 31
  id : s.options (ascii "id") = some (.string (printInt rule.id))
  mode : s.options (ascii "mode") = some (.string (printInt rule.mode))
  enabled : s.options (ascii "enabled") = some (.string (printInt rule.enabled))
  filterQuic : s.options (ascii "filter_quic") = some (.string (printInt (if rule.quic then 1 else 0)))
  userMac : s.options (ascii "user_mac") =
    if rule.userMac = .empty then none else some (.string rule.userMac.bytes)
  times : s.options (ascii "time_rule") = listValue (rule.times.map ClockRule.line)
  appIds : s.options (ascii "app_id") = listValue (rule.appIds.filterMap normalizeAppIdToken)

variable {uci : Libuci}

/-- A number is written over. -/
theorem foldl_setInt (huci : uci.KeepsTexts) (name : List UInt8) (arg : Option Int) (i : Int) :
    (setInt name arg).foldl (fun value edit => edit.value uci value) (some (.string (printInt i))) =
      some (.string (printInt (arg.getD i))) := by
  cases arg with
  | none => rfl
  | some i => exact huci.set _ _ (printInt_ne_nil i) (isPrintable_printInt i)

/-- An address is written over, and an empty one goes. -/
theorem foldl_setMac (huci : uci.KeepsTexts) (name : List UInt8) {arg : Option CStr}
    (harg : ∀ mac ∈ arg, IsPrintable mac.bytes) (mac : CStr) :
    (setText name (arg.map CStr.bytes)).foldl (fun value edit => edit.value uci value)
        (if mac = .empty then none else some (.string mac.bytes)) =
      if arg.getD mac = .empty then none else some (.string (arg.getD mac).bytes) := by
  cases arg with
  | none => rfl
  | some mac' =>
    have hvalue : (setText name ((some mac').map CStr.bytes)).foldl (fun value edit => edit.value uci value)
        (if mac = .empty then none else some (.string mac.bytes)) =
        uci.set (if mac = .empty then none else some (.string mac.bytes)) mac'.bytes := rfl
    rw [hvalue, Option.getD_some]
    by_cases hmac : mac' = .empty
    · rw [if_pos hmac, hmac]
      exact huci.setEmpty _
    · rw [if_neg hmac]
      exact huci.set _ _ (fun hnil => hmac (CStr.ext hnil)) (harg mac' rfl)

/-- Texts are added one after the other. -/
theorem foldl_add (huci : uci.KeepsTexts) (name : List UInt8) : ∀ {texts : List (List UInt8)} (items : List (List UInt8)),
    (∀ text ∈ texts, text ≠ [] ∧ IsPrintable text) →
    (texts.map (UciEdit.add name)).foldl (fun value edit => edit.value uci value) (listValue items) =
      listValue (items ++ texts)
  | [], items, _ => by rw [List.append_nil]; rfl
  | text :: texts, items, h => by
    obtain ⟨htext, hrest⟩ := List.forall_mem_cons.mp h
    have hone : (UciEdit.add name text).value uci (listValue items) = listValue (items ++ [text]) := by
      by_cases hitems : items = []
      · rw [hitems]
        exact huci.addNone text htext.1 htext.2
      · have hmore : items ++ [text] ≠ [] := List.append_ne_nil_of_right_ne_nil _ (List.cons_ne_nil _ _)
        rw [listValue, if_neg hitems, listValue, if_neg hmore]
        exact huci.addList items text htext.1 htext.2
    rw [List.map_cons, List.foldl_cons, hone, foldl_add huci name _ hrest, List.append_assoc, List.singleton_append]

/-- All texts are added if none is too long. -/
theorem flatMap_texts {tooLong : List UInt8 → Prop} [DecidablePred tooLong] (name : List UInt8)
    {texts : List (Option (List UInt8))} (h : ∀ text, some text ∈ texts → ¬ tooLong text) :
    (texts.flatMap fun text =>
      match text with
      | some text => if tooLong text then [] else [UciEdit.add name text]
      | none => []) = texts.reduceOption.map (UciEdit.add name) := by
  induction texts with
  | nil => rfl
  | cons text texts ih =>
    have hrest := ih fun text htext => h text (List.mem_cons_of_mem _ htext)
    cases text with
    | none => rw [List.flatMap_cons, List.reduceOption_cons_of_none, hrest]; rfl
    | some text =>
      have hshort := h text (List.mem_cons_self ..)
      rw [List.flatMap_cons, List.reduceOption_cons_of_some, hrest, List.map_cons]
      dsimp only
      rw [if_neg hshort]
      rfl

/-- The texts of the times, and those of the app ids. -/
theorem reduceOption_times (times : List ClockRule) :
    ((times.map ClockRule.asked).map FilterTimeRule.text).reduceOption = times.map ClockRule.line := by
  induction times with
  | nil => rfl
  | cons time times ih =>
    rw [List.map_cons, List.map_cons, ClockRule.text_asked, List.reduceOption_cons_of_some, ih, List.map_cons]

theorem reduceOption_appIds (appIds : List (List UInt8)) :
    ((appIds.map some).map (·.bind normalizeAppIdToken)).reduceOption = appIds.filterMap normalizeAppIdToken := by
  rw [List.map_map, List.reduceOption, List.filterMap_map]
  rfl

theorem appRuleKey_length (name : List UInt8) (h : name.length ≤ 100) : (appRuleKey (-1) name).length ≤ 200 := by
  have := appRuleKey_length_le (-1) name
  omega

/-- The texts of an added rule are all stored. -/
theorem newTexts_eq {name : List UInt8} (hname : name.length ≤ 100) {texts : List (Option (List UInt8))}
    (h : ∀ text, some text ∈ texts → text.length ≤ 256) :
    newTexts name texts = texts.reduceOption.map (UciEdit.add name) := by
  refine flatMap_texts name fun text htext => ?_
  have h1 := appRuleKey_length name hname
  have h2 := h text htext
  rw [MacFilter.MAX_PARAM_LIST_LEN]
  omega

theorem addTexts_eq {index : Nat} (hindex : index < 2 ^ 31) {name : List UInt8} (hname : name.length ≤ 100)
    {texts : List (Option (List UInt8))} (h : ∀ text, some text ∈ texts → text.length ≤ 256) :
    addTexts index name texts = texts.reduceOption.map (UciEdit.add name) := by
  refine flatMap_texts name fun text htext => ?_
  have h1 : (printNat index).length ≤ 10 := printNat_length_le (by decide) (by omega)
  have h2 := h text htext
  have h3 : (ascii "appfilter.@rule[").length = 16 := by decide
  have h4 : (ascii "].").length = 2 := by decide
  simp only [filterRuleKey, List.length_append, h3, h4, MacFilter.MAX_PARAM_LIST_LEN]
  omega

theorem length_timeText {times : List ClockRule} (h : ∀ rule ∈ times, rule.weekdays.length ≤ 122) :
    ∀ text, some text ∈ (times.map ClockRule.asked).map FilterTimeRule.text → text.length ≤ 256 := by
  intro text htext
  rw [List.map_map] at htext
  obtain ⟨rule, hrule, hline⟩ := List.mem_map.mp htext
  obtain rfl : rule.line = text := Option.some.inj hline
  exact ClockRule.length_line_le (h rule hrule)

theorem length_appIdText {appIds : List (List UInt8)} :
    ∀ text, some text ∈ (appIds.map some).map (·.bind normalizeAppIdToken) → text.length ≤ 256 := by
  intro text htext
  rw [List.map_map] at htext
  obtain ⟨raw, -, hraw⟩ := List.mem_map.mp htext
  have := (normalizeAppIdToken_shape hraw).2.2
  omega

theorem foldl_times (huci : uci.KeepsTexts) (name : List UInt8) (times : List ClockRule) :
    ((times.map ClockRule.line).map (UciEdit.add name)).foldl (fun value edit => edit.value uci value) none =
      listValue (times.map ClockRule.line) := by
  refine foldl_add huci name [] fun text htext => ?_
  obtain ⟨rule, -, rfl⟩ := List.mem_map.mp htext
  exact ⟨rule.line_ne_nil, rule.isPrintable_line⟩

theorem foldl_appIds (huci : uci.KeepsTexts) (name : List UInt8) (appIds : List (List UInt8)) :
    ((appIds.filterMap normalizeAppIdToken).map (UciEdit.add name)).foldl
        (fun value edit => edit.value uci value) none =
      listValue (appIds.filterMap normalizeAppIdToken) := by
  refine foldl_add huci name [] fun text htext => ?_
  obtain ⟨raw, -, hraw⟩ := List.mem_filterMap.mp htext
  exact ⟨(normalizeAppIdToken_shape hraw).1, (normalizeAppIdToken_shape hraw).2.1⟩

/-- The writes of an added rule, for each option. -/
def addedGroups (fields : RuleFields) (id : Int) (name : List UInt8) (mode : Int) (times : List ClockRule)
    (appIds : List (List UInt8)) : List (List UInt8 × List UciEdit) :=
  [(ascii "id", [.set (ascii "id") (printInt id)]), (ascii "name", setText (ascii "name") (some name)),
    (ascii "mode", setInt (ascii "mode") (some mode)),
    (ascii "user_mac", setText (ascii "user_mac") (fields.userMac.map CStr.bytes)),
    (ascii "user_name", setText (ascii "user_name") fields.userName),
    (ascii "enabled", setInt (ascii "enabled") (some (fields.enabled.getD 1))),
    (ascii "filter_quic", setInt (ascii "filter_quic") (some (if fields.filterQuic.getD 0 = 0 then 0 else 1))),
    (ascii "time_rule", (times.map ClockRule.line).map (UciEdit.add (ascii "time_rule"))),
    (ascii "app_id", (appIds.filterMap normalizeAppIdToken).map (UciEdit.add (ascii "app_id")))]

theorem name_of_mem_setText {name : List UInt8} {arg : Option (List UInt8)} {edit : UciEdit}
    (h : edit ∈ setText name arg) : edit.name = name :=
  (MacFilter.mem_setText.mp (List.mem_map_of_mem h)).1

theorem name_of_mem_add {name : List UInt8} {texts : List (List UInt8)} {edit : UciEdit}
    (h : edit ∈ texts.map (UciEdit.add name)) : edit.name = name := by
  obtain ⟨text, -, rfl⟩ := List.mem_map.mp h
  rfl

section Added

variable {fields : RuleFields} {id : Int} {name : List UInt8} {mode : Int} {times : List ClockRule}
  {appIds : List (List UInt8)}

theorem addedGroups_edits (hok : ∀ rule ∈ times, rule.weekdays.length ≤ 122) :
    .set (ascii "id") (printInt id) :: newEdits fields.add name mode (times.map ClockRule.asked) (appIds.map some) =
      (addedGroups fields id name mode times appIds).flatMap Prod.snd := by
  rw [newEdits, newTexts_eq (by decide) (length_timeText hok), reduceOption_times,
    newTexts_eq (by decide) length_appIdText, reduceOption_appIds]
  simp only [addedGroups, List.flatMap_cons, List.flatMap_nil, List.append_assoc, List.append_nil,
    List.singleton_append]
  rfl

theorem runEdits_added {n : List UInt8} {edits : List UciEdit}
    (hmem : (n, edits) ∈ addedGroups fields id name mode times appIds) :
    runEdits uci ((addedGroups fields id name mode times appIds).flatMap Prod.snd) (fun _ => none) n =
      edits.foldl (fun value edit => edit.value uci value) none := by
  refine runEdits_groups ?_ ?_ hmem _
  · simp only [addedGroups, List.map_cons, List.map_nil]
    decide
  · simp only [addedGroups, List.forall_mem_cons]
    exact ⟨⟨rfl, fun _ h => nomatch h⟩, fun _ => name_of_mem_setText, fun _ => name_of_mem_setText,
      fun _ => name_of_mem_setText, fun _ => name_of_mem_setText, fun _ => name_of_mem_setText,
      fun _ => name_of_mem_setText, fun _ => name_of_mem_add, fun _ => name_of_mem_add, fun _ h => nomatch h⟩

/-- **An added rule** is stored as it was asked for. -/
theorem shows_added (huci : uci.KeepsTexts) (hok : fields.Ok) (hid : -2 ^ 31 ≤ id ∧ id < 2 ^ 31)
    (hmode : fields.mode = some mode) (htimes : fields.times = some times) (happs : fields.appIds = some appIds) :
    Shows ⟨ruleType, runEdits uci (.set (ascii "id") (printInt id) :: newEdits fields.add name mode
        (times.map ClockRule.asked) (appIds.map some)) fun _ => none⟩
      (({ id := id } : AskedRule).given fields) := by
  have hnumber : ∀ i : Int, uci.set none (printInt i) = some (.string (printInt i)) :=
    fun i => huci.set none _ (printInt_ne_nil i) (isPrintable_printInt i)
  have hgroup : ∀ {n : List UInt8} {edits : List UciEdit},
      (n, edits) ∈ addedGroups fields id name mode times appIds →
      runEdits uci (.set (ascii "id") (printInt id) :: newEdits fields.add name mode
        (times.map ClockRule.asked) (appIds.map some)) (fun _ => none) n =
        edits.foldl (fun value edit => edit.value uci value) none := by
    intro n edits hmem
    rw [addedGroups_edits (hok.times times htimes)]
    exact runEdits_added hmem
  refine ⟨hid, ?_, ?_, ?_, ?_, ?_, ?_, ?_⟩
  all_goals dsimp only
  · exact (hgroup (.head _)).trans (hnumber id)
  · refine (hgroup (.tail _ (.tail _ (.head _)))).trans ((hnumber mode).trans ?_)
    rw [AskedRule.given, hmode, Option.getD_some]
  · exact (hgroup (.tail _ (.tail _ (.tail _ (.tail _ (.tail _ (.head _))))))).trans (hnumber _)
  · refine (hgroup (.tail _ (.tail _ (.tail _ (.tail _ (.tail _ (.tail _ (.head _)))))))).trans ((hnumber _).trans ?_)
    cases hquic : fields.filterQuic with
    | none => simp [AskedRule.given, hquic]
    | some quic => by_cases h0 : quic = 0 <;> simp [AskedRule.given, hquic, h0]
  · refine (hgroup (.tail _ (.tail _ (.tail _ (.head _))))).trans ?_
    have hmac := foldl_setMac huci (ascii "user_mac") hok.userMac .empty
    rw [if_pos rfl] at hmac
    exact hmac
  · refine (hgroup (.tail _ (.tail _ (.tail _ (.tail _ (.tail _ (.tail _ (.tail _ (.head _))))))))).trans ((foldl_times huci _ times).trans ?_)
    rw [AskedRule.given, htimes, Option.getD_some]
  · refine (hgroup (.tail _ (.tail _ (.tail _ (.tail _ (.tail _ (.tail _ (.tail _ (.tail _ (.head _)))))))))).trans ((foldl_appIds huci _ appIds).trans ?_)
    rw [AskedRule.given, happs, Option.getD_some]

end Added

/-- The options that an update writes over. -/
def changedGroups (fields : RuleFields) : List (List UInt8 × List UciEdit) :=
  [(ascii "name", setText (ascii "name") fields.name), (ascii "mode", setInt (ascii "mode") fields.mode),
    (ascii "user_mac", setText (ascii "user_mac") (fields.userMac.map CStr.bytes)),
    (ascii "user_name", setText (ascii "user_name") fields.userName),
    (ascii "enabled", setInt (ascii "enabled") fields.enabled),
    (ascii "filter_quic",
      setInt (ascii "filter_quic") (fields.filterQuic.map fun quic => if quic = 0 then 0 else 1))]

section Changed

variable {fields : RuleFields} {id : Int} {index : Nat}

theorem sets_eq : (fields.update id).sets = (changedGroups fields).flatMap Prod.snd := by
  simp only [changedGroups, UpdateFilterRuleRequest.sets, RuleFields.update, List.flatMap_cons, List.flatMap_nil,
    List.append_assoc, List.append_nil]

/-- The writes of an update, with all the texts of its lists. -/
theorem filterEdits_eq (hindex : index < 2 ^ 31) (hok : fields.Ok) :
    filterEdits index (fields.update id) = (changedGroups fields).flatMap Prod.snd ++
      [.delete (ascii "time_rule"), .delete (ascii "app_id")] ++
      ((fields.times.getD []).map ClockRule.line).map (UciEdit.add (ascii "time_rule")) ++
      ((fields.appIds.getD []).filterMap normalizeAppIdToken).map (UciEdit.add (ascii "app_id")) := by
  have htimes : (fields.update id).timeRules.getD [] = (fields.times.getD []).map ClockRule.asked := by
    rw [RuleFields.update]
    cases fields.times <;> rfl
  have happs : (fields.update id).appIds.getD [] = (fields.appIds.getD []).map some := by
    rw [RuleFields.update]
    cases fields.appIds <;> rfl
  have hlines : ∀ rule ∈ fields.times.getD [], rule.weekdays.length ≤ 122 := by
    intro rule hrule
    cases ht : fields.times with
    | none => exact absurd (ht ▸ hrule) List.not_mem_nil
    | some times => exact hok.times times ht rule (by rwa [ht] at hrule)
  rw [filterEdits, htimes, happs, addTexts_eq hindex (by decide) (length_timeText hlines), reduceOption_times,
    addTexts_eq hindex (by decide) length_appIdText, reduceOption_appIds, sets_eq]

/-- Texts that are added to one option. -/
theorem runEdits_textAdds (name : List UInt8) (texts : List (List UInt8)) (options : UciOptions) :
    runEdits uci (texts.map (UciEdit.add name)) options name =
      (texts.map (UciEdit.add name)).foldl (fun value edit => edit.value uci value) (options name) := by
  have hnamed : ∀ group ∈ [(name, texts.map (UciEdit.add name))], ∀ edit ∈ group.2, edit.name = group.1 :=
    List.forall_mem_singleton.mpr fun _ => name_of_mem_add
  have hnodup : ([(name, texts.map (UciEdit.add name))].map Prod.fst).Nodup := List.nodup_singleton name
  have hgroup := @runEdits_groups uci _ hnodup hnamed name _ (List.mem_singleton.mpr rfl) options
  rwa [List.flatMap_singleton] at hgroup

theorem not_mem_adds {name n : List UInt8} {texts : List (List UInt8)} (h : n ≠ name) :
    n ∉ (texts.map (UciEdit.add name)).map UciEdit.name := by
  intro hmem
  obtain ⟨edit, hedit, rfl⟩ := List.mem_map.mp hmem
  exact h (name_of_mem_add hedit)

/-- An option that is written over. -/
theorem runEdits_changed (hindex : index < 2 ^ 31) (hok : fields.Ok) {n : List UInt8} {edits : List UciEdit}
    (hmem : (n, edits) ∈ changedGroups fields) (htimes : n ≠ ascii "time_rule") (happs : n ≠ ascii "app_id")
    (options : UciOptions) :
    runEdits uci (filterEdits index (fields.update id)) options n =
      edits.foldl (fun value edit => edit.value uci value) (options n) := by
  have hdeletes : n ∉ [UciEdit.delete (ascii "time_rule"), .delete (ascii "app_id")].map UciEdit.name := by
    simp [UciEdit.name, htimes, happs]
  rw [filterEdits_eq hindex hok, runEdits_append, runEdits_of_not_mem (not_mem_adds happs), runEdits_append,
    runEdits_of_not_mem (not_mem_adds htimes), runEdits_append, runEdits_of_not_mem hdeletes]
  refine runEdits_groups ?_ ?_ hmem _
  · simp only [changedGroups, List.map_cons, List.map_nil]
    decide
  · simp only [changedGroups, List.forall_mem_cons]
    exact ⟨fun _ => name_of_mem_setText, fun _ => name_of_mem_setText, fun _ => name_of_mem_setText,
      fun _ => name_of_mem_setText, fun _ => name_of_mem_setText, fun _ => name_of_mem_setText,
      fun _ h => absurd h List.not_mem_nil⟩

/-- **An updated rule** has the fields that it was given. -/
theorem shows_updated (huci : uci.KeepsTexts) (hok : fields.Ok) (hindex : index < 2 ^ 31) {s : UciSection}
    {rule : AskedRule} (h : Shows s rule) :
    Shows { s with options := runEdits uci (filterEdits index (fields.update id)) s.options }
      (rule.given fields) := by
  have hchanged : ∀ (i : Nat) {n : List UInt8} {edits : List UciEdit},
      (changedGroups fields)[i]? = some (n, edits) → n ≠ ascii "time_rule" → n ≠ ascii "app_id" →
      runEdits uci (filterEdits index (fields.update id)) s.options n =
        edits.foldl (fun value edit => edit.value uci value) (s.options n) :=
    fun i _ _ hi htimes happs => runEdits_changed hindex hok (List.mem_of_getElem? hi) htimes happs _
  refine ⟨h.bounds, ?_, ?_, ?_, ?_, ?_, ?_, ?_⟩
  all_goals dsimp only
  · have hgiven : ¬ (fields.update id).Given (ascii "id") := by
      rintro (h | h | h | h | h | h | h | h) <;> exact absurd h.1 (by decide)
    exact (filterEdits_rest hgiven (by decide) (by decide) s.options).trans h.id
  · refine (hchanged 1 rfl (by decide) (by decide)).trans ?_
    rw [h.mode]
    exact foldl_setInt huci _ _ _
  · refine (hchanged 4 rfl (by decide) (by decide)).trans ?_
    rw [h.enabled]
    exact foldl_setInt huci _ _ _
  · refine (hchanged 5 rfl (by decide) (by decide)).trans ?_
    rw [h.filterQuic, foldl_setInt huci]
    cases hquic : fields.filterQuic with
    | none => simp [AskedRule.given, hquic]
    | some quic => by_cases h0 : quic = 0 <;> simp [AskedRule.given, hquic, h0]
  · refine (hchanged 2 rfl (by decide) (by decide)).trans ?_
    rw [h.userMac]
    exact foldl_setMac huci _ hok.userMac _
  · have hother : ascii "time_rule" ∉ [UciEdit.delete (ascii "app_id")].map UciEdit.name := by decide
    rw [filterEdits_eq hindex hok, runEdits_append, runEdits_of_not_mem (not_mem_adds (by decide)), runEdits_append,
      runEdits_textAdds, runEdits_delete _ hother]
    exact foldl_times huci _ _
  · rw [filterEdits_eq hindex hok, runEdits_append, runEdits_textAdds]
    have hsplit : (changedGroups fields).flatMap Prod.snd ++ [.delete (ascii "time_rule"), .delete (ascii "app_id")] ++
        ((fields.times.getD []).map ClockRule.line).map (UciEdit.add (ascii "time_rule")) =
        ((changedGroups fields).flatMap Prod.snd ++ [.delete (ascii "time_rule")]) ++ .delete (ascii "app_id") ::
          ((fields.times.getD []).map ClockRule.line).map (UciEdit.add (ascii "time_rule")) := by
      simp only [List.append_assoc, List.cons_append, List.nil_append]
    rw [hsplit, runEdits_delete _ (not_mem_adds (by decide))]
    exact foldl_appIds huci _ _

end Changed

/-! ## 6. What is loaded of a section -/

/-- A number is read back. -/
theorem luaTonumber_printInt (i : Int) : luaTonumber (printInt i) = some (i : Rat) := by
  have hnat : ∀ n : Nat, MacFilter.luaUnsigned (printNat n) = some (n : Rat) := by
    intro n
    have hne := printNat_ne_nil n
    have hdigits : ∀ c ∈ printNat n, isdigit c = true := fun c hc => isdigit_of_mem_printNat hc
    have hread := MacFilter.luaTonumber_number hne hdigits
    have hvalue : MacFilter.tonumber (printNat n) = n := ofDigits_printNat n
    rw [luaTonumber, MacFilter.takeSign_number hne hdigits, hvalue] at hread
    simpa using hread
  have hspace : ∀ c, isdigit c = true ∨ c = 45 → isspace c = false := by
    rintro c (hdigit | rfl)
    · exact isspace_of_isdigit hdigit
    · decide
  have htrim : trimSpaces (printInt i) = printInt i := trimSpaces_of_forall fun c hc => hspace c (mem_printInt hc)
  have hsign := takeSign_printInt i []
  rw [Kernel.dropWhile_printInt hspace, List.append_nil, List.append_nil] at hsign
  rw [luaTonumber, htrim, hsign]
  dsimp only
  rw [hnat, Option.map_some]
  by_cases hneg : i < 0
  · obtain ⟨n, rfl⟩ := Int.eq_negSucc_of_lt_zero hneg
    simp
  · obtain ⟨n, rfl⟩ := Int.eq_ofNat_of_zero_le (not_lt.mp hneg)
    simp

theorem luaNumberOr_printInt (i : Int) (default : Rat) :
    luaNumberOr (some (.string (printInt i))) default = i := by
  rw [luaNumberOr, luaTonumber_printInt, Option.getD_some]

/-- The time rule as the manager has it. -/
def ClockRule.timeRule (rule : ClockRule) : TimeRule Int where
  weekdays := rule.weekdays.map fun d => (d.val : Int)
  startTime := rule.startTime.text
  endTime := rule.endTime.text

/-- The same as Lua has it. -/
def ClockRule.lua (rule : ClockRule) : LuaTimeRule :=
  ⟨(rule.weekdays.map fun d => (d.val : Int)).map fun d : Int => (d : Rat), rule.startTime.text, rule.endTime.text⟩

/-- **A time rule** without weekdays is passed over; any other is read back. -/
theorem loadTimeRule_line (rule : ClockRule) :
    loadTimeRule rule.line = if rule.weekdays = [] then none else some rule.lua := by
  have hstart := rule.startTime.isClock
  have hstop := rule.endTime.isClock
  have hwords := @words_of_weekdays (rule.weekdays.map fun d => (d.val : Int)) _ _ hstart hstop
  have hnumbers : ((rule.weekdays.map fun d => (d.val : Int)).map printInt).filterMap luaTonumber =
      (rule.weekdays.map fun d => (d.val : Int)).map fun d : Int => (d : Rat) := by
    induction rule.weekdays.map fun d => (d.val : Int) with
    | nil => rfl
    | cons i days ih => rw [List.map_cons, List.filterMap_cons_some (luaTonumber_printInt i), ih, List.map_cons]
  have hscan : MacFilter.scanToLast luaTonumber none none []
      ((rule.weekdays.map fun d => (d.val : Int)).map printInt ++ [rule.startTime.text, rule.endTime.text]) =
      (some rule.startTime.text, some rule.endTime.text, rule.lua.weekdays) := by
    rw [MacFilter.scanToLast_numbers (not_mem_weekdays (by decide) (by decide)), List.nil_append, hnumbers,
      MacFilter.scanToLast, if_pos hstart.part.2.2, MacFilter.scanToLast, if_pos hstop.part.2.2]
    rfl
  rw [loadTimeRule, ClockRule.line, hwords, hscan]
  by_cases hdays : rule.weekdays = []
  · rw [if_neg (by simp [hdays]), if_pos hdays]
  · have hlen := List.length_pos_iff.mpr hdays
    rw [if_pos ⟨by simp, by simp; omega⟩, if_neg hdays]
    dsimp only
    rw [if_neg (by simp [ClockRule.lua, hdays])]
    rfl

theorem isOf_timeRules : ∀ times : List ClockRule,
    List.Forall₂ (fun lua rule => TimeRule.IsOf rule lua) (times.filterMap fun time => loadTimeRule time.line)
      ((times.filter fun time => time.weekdays ≠ []).map ClockRule.timeRule)
  | [] => .nil
  | time :: times => by
    by_cases hdays : time.weekdays = []
    · rw [List.filterMap_cons_none (by rw [loadTimeRule_line, if_pos hdays]), List.filter_cons_of_neg (by simp [hdays])]
      exact isOf_timeRules times
    · rw [List.filterMap_cons_some (by rw [loadTimeRule_line, if_neg hdays]), List.filter_cons_of_pos (by simp [hdays])]
      exact .cons ⟨rfl, rfl, rfl⟩ (isOf_timeRules times)

/-- The rule as the manager has it. -/
def AskedRule.appRule (rule : AskedRule) : AppRule where
  id := rule.id
  mode := rule.mode
  enabled := rule.enabled
  filterQuic := if rule.quic then 1 else 0
  userMac := rule.userMac
  timeRules := (rule.times.filter fun time => time.weekdays ≠ []).map ClockRule.timeRule
  appIds := (rule.appIds.filterMap normalizeAppIdToken).map CStr.ofBytes

/-- **A stored rule is loaded as it was asked for.** -/
theorem isOf_loadAppfilterRule {s : UciSection} {rule : AskedRule} (h : Shows s rule) :
    rule.appRule.IsOf (loadAppfilterRule s) := by
  have hitems : ∀ texts : List (List UInt8), ((listValue texts).map MacFilter.UciValue.items).getD [] = texts := by
    intro texts
    rw [listValue]
    split
    · rename_i hnil
      exact hnil.symm
    · rfl
  refine ⟨?_, ?_, ?_, ?_, ?_, ?_, ?_⟩
  · rw [loadAppfilterRule, h.id, luaNumberOr_printInt]
    rfl
  · rw [loadAppfilterRule, h.mode, luaNumberOr_printInt]
    rfl
  · rw [loadAppfilterRule, h.enabled, luaNumberOr_printInt]
    rfl
  · rw [loadAppfilterRule, h.filterQuic, luaNumberOr_printInt]
    rfl
  · rw [loadAppfilterRule, h.userMac]
    dsimp only [AskedRule.appRule]
    split
    · rename_i hempty
      rw [hempty]
      rfl
    · rfl
  · rw [loadAppfilterRule, h.times]
    dsimp only
    rw [loadAppTimeRules, hitems, List.filterMap_map]
    exact isOf_timeRules rule.times
  · rw [loadAppfilterRule, h.appIds]
    dsimp only [AskedRule.appRule]
    have hall : ∀ text ∈ rule.appIds.filterMap normalizeAppIdToken, text ≠ [] ∧ (CStr.ofBytes text).bytes = text := by
      intro text htext
      obtain ⟨raw, -, hraw⟩ := List.mem_filterMap.mp htext
      obtain ⟨hne, hprintable, -⟩ := normalizeAppIdToken_shape hraw
      exact ⟨hne, CStr.ofBytes_of_noNul fun h0 => absurd (hprintable 0 h0).1 (by decide)⟩
    rw [hitems, List.map_map, List.filter_eq_self.mpr fun text htext => decide_eq_true (hall text htext).1]
    exact (List.map_id _).symm.trans (List.map_congr_left fun text htext => (hall text htext).2.symm)

/-! ## 7. What the manager wants of a rule -/

/-- **A rule is in force** when a window of a selected weekday is open. -/
theorem timeRuleMatches_timeRule (rule : ClockRule) (weekday : Fin 7) (minutes : Nat) :
    timeRuleMatches (weekday.val : Int) minutes rule.timeRule = true ↔
      rule.OpenOn weekday minutes ∨ weekday ∈ rule.weekdays ∧ rule.StillOpen minutes := by
  rw [timeRuleMatches_iff, ← rule.decides_iff]
  simp only [ClockRule.timeRule, MacFilter.weekday_mem_int]

theorem shouldActive_appRule (rule : AskedRule) (weekday : Fin 7) (minutes : Nat) :
    rule.appRule.shouldActive ⟨weekday.val, minutes⟩ = true ↔ rule.OnAt weekday minutes := by
  rw [AppRule.shouldActive, Bool.and_eq_true, isTimeInRange, List.any_eq_true, AskedRule.OnAt]
  refine and_congr beq_iff_eq ?_
  simp only [AskedRule.appRule, List.mem_map, List.mem_filter, decide_eq_true_eq]
  constructor
  · rintro ⟨-, ⟨time, ⟨htime, -⟩, rfl⟩, hmatch⟩
    exact ⟨time, htime, (timeRuleMatches_timeRule time weekday minutes).mp hmatch⟩
  · rintro ⟨time, htime, hopen⟩
    have hdays : time.weekdays ≠ [] := by
      intro hnil
      rcases hopen with ⟨hmem, -⟩ | ⟨hmem, -⟩ <;> simp [hnil] at hmem
    exact ⟨_, ⟨time, ⟨htime, hdays⟩, rfl⟩, (timeRuleMatches_timeRule time weekday minutes).mpr hopen⟩

/-- The white space of `vsscanf` stands in no printed number. -/
theorem dropWhile_printed (i : Int) (rest : List UInt8) :
    (printInt i ++ rest).dropWhile Kernel.isspace = printInt i ++ rest :=
  Kernel.dropWhile_printInt (fun _ hc => Kernel.isspace_of_digit hc) i rest

theorem scanD_printed {i : Int} (h1 : -2 ^ 31 ≤ i) (h2 : i < 2 ^ 31) :
    Kernel.scanD ((printInt i).dropWhile Kernel.isspace) = some (i, []) := by
  have hdrop := dropWhile_printed i []
  have hscan := Kernel.scanD_printInt h1 h2 noDigitHead_nil
  rw [List.append_nil] at hdrop hscan
  rw [hdrop, hscan]

/-- Two printed numbers are read as the range between them. -/
theorem textRange_range {start stop : Int} (h0 : 0 < start) (hle : start ≤ stop) (hstop : stop < 2 ^ 31) {token : CStr}
    (htoken : token.bytes = printInt start ++ 45 :: printInt stop) :
    textRange token = some (start.toNat, stop.toNat) := by
  have hminus : NoDigitHead (45 :: printInt stop) := noDigitHead_cons (by decide)
  have hstart : Kernel.scanD (printInt start ++ 45 :: printInt stop) = some (start, 45 :: printInt stop) :=
    Kernel.scanD_printInt (by omega) (by omega) hminus
  have hend : Kernel.scanD ((printInt stop).dropWhile Kernel.isspace) = some (stop, []) :=
    scanD_printed (by omega) hstop
  have hscan : Kernel.vsscanf Kernel.isspace [.d, .lit 45, .d] token.bytes = [start, stop] := by
    rw [htoken]
    simp only [Kernel.vsscanf, dropWhile_printed, hstart, hend, if_true]
  rw [textRange, hscan]
  dsimp only
  rw [if_neg (by omega)]

/-- A printed number is read as itself. -/
theorem textRange_single {val : Int} (h0 : 0 < val) (hval : val < 2 ^ 31) {token : CStr}
    (htoken : token.bytes = printInt val) : textRange token = some (val.toNat, val.toNat) := by
  have hscan : Kernel.vsscanf Kernel.isspace [.d, .lit 45, .d] token.bytes = [val] := by
    rw [htoken, Kernel.vsscanf, scanD_printed (by omega) hval]
    rfl
  have hnumber : kstrtoint10 token = some val := by
    have hlong := Kernel.kstrtol10_printNat (n := val.toNat) (by omega)
    rw [kstrtoint10, htoken, printInt_of_nonneg (by omega), hlong, Int.toNat_of_nonneg (by omega)]
    exact Option.filter_eq_some_iff.mpr ⟨rfl, by simp; omega⟩
  rw [textRange, hscan, hnumber]
  dsimp only
  rw [if_pos h0]

theorem sscanfInt_lt {text rest : List UInt8} {i : Int} (h : MacFilter.sscanfInt text = some (i, rest)) :
    i < 2 ^ 31 := by
  rw [MacFilter.sscanfInt] at h
  split at h
  · cases h
  · obtain ⟨rfl, -⟩ := Prod.mk.inj (Option.some.inj h)
    exact Int.bmod_lt (by decide)

/-- The ids that a rule has by a text of UCI. -/
def storedIds (text : List UInt8) : Finset Nat := (idsOf (tokenRange (textToken (CStr.ofBytes text)))).toFinset

theorem storedIds_of_textRange {text : List UInt8} (hprintable : IsPrintable text) {start stop : Nat}
    (h : ∀ token : CStr, token.bytes = text → textRange token = some (start, stop)) :
    storedIds text = Finset.Icc start stop := by
  have hbytes : (CStr.ofBytes text).bytes = text :=
    CStr.ofBytes_of_noNul fun h0 => absurd (hprintable 0 h0).1 (by decide)
  have hrange : tokenRange (textToken (CStr.ofBytes text)) = some (start, stop) := h _ hbytes
  rw [storedIds, hrange, idsOf]
  ext id
  simp only [List.mem_toFinset, List.mem_range'_1, Finset.mem_Icc]
  omega

/-- **The ids of a text of the request** are those of the text that is stored for it. -/
theorem namedIds_eq (raw : List UInt8) :
    namedIds raw = ((normalizeAppIdToken raw).map storedIds).getD ∅ := by
  rw [namedIds, normalizeAppIdToken]
  rcases hfirst : MacFilter.sscanfInt raw with _ | ⟨start, _ | ⟨c, rest⟩⟩
  · rfl
  · have hlt := sscanfInt_lt hfirst
    by_cases hpos : 0 < start
    · have hids := @storedIds_of_textRange _ (isPrintable_printInt start) start.toNat start.toNat
        fun _ htoken => textRange_single hpos hlt htoken
      simp only [hpos, if_true, Option.map_some, Option.getD_some, hids, Finset.Icc_self]
    · simp only [hpos, if_false, Option.map_none, Option.getD_none]
  · by_cases hc : c = 45
    · subst hc
      rcases hsecond : MacFilter.sscanfInt rest with _ | ⟨stop, _ | ⟨d, behind⟩⟩
      · simp only [hsecond, Option.map_none, Option.getD_none]
      · have hlt := sscanfInt_lt hsecond
        by_cases hpos : 0 < start ∧ 0 < stop ∧ start ≤ stop
        · have hprintable := isPrintable_append (isPrintable_printInt start)
            (isPrintable_cons (by decide : 32 ≤ (45 : UInt8) ∧ (45 : UInt8) < 127) (isPrintable_printInt stop))
          have hids := @storedIds_of_textRange _ hprintable start.toNat stop.toNat
            fun _ htoken => textRange_range hpos.1 hpos.2.2 hlt htoken
          simp only [hsecond, hpos, and_self, if_true, Option.map_some, Option.getD_some, hids]
        · have hempty : 0 < start → Finset.Icc start.toNat stop.toNat = ∅ := fun h0 =>
            Finset.Icc_eq_empty (by omega)
          simp only [hsecond, hpos, if_false, Option.map_none, Option.getD_none, ite_eq_right_iff]
          exact hempty
      · simp only [hsecond, Option.map_none, Option.getD_none]
    · simp [hc]

/-- **The policy of a rule** is that of the rule that is loaded. -/
theorem policy_appRule (rule : AskedRule) : rule.appRule.policy = rule.policy := by
  have hquic : decide ((if rule.quic then (1 : Int) else 0) = 1) = rule.quic := by cases rule.quic <;> rfl
  have hmacs : ((rule.appRule.macList.map some).filterMap macStrToBin).toFinset =
      if rule.mode = 2 then (macStrToBin (some rule.userMac)).toFinset else ∅ := by
    have hnone : macStrToBin (some .empty) = none := rfl
    have hlist : rule.appRule.macList =
        if rule.mode = 2 ∧ rule.userMac ≠ .empty then [rule.userMac] else [] := rfl
    rw [hlist]
    by_cases hmode : rule.mode = 2
    · by_cases hmac : rule.userMac = .empty
      · simp [hmac, hnone]
      · rw [if_pos hmode, if_pos ⟨hmode, hmac⟩, List.map_singleton]
        cases hbin : macStrToBin (some rule.userMac) <;> simp [hbin]
    · simp [hmode]
  have hids : tokenIds (rule.appRule.appIds.map textToken) = rule.appIds.toFinset.biUnion namedIds := by
    have hstored : ∀ texts : List (List UInt8), tokenIds ((texts.map CStr.ofBytes).map textToken) =
        texts.toFinset.biUnion storedIds := by
      intro texts
      induction texts with
      | nil => rfl
      | cons text texts ih =>
        rw [List.map_cons, List.map_cons, tokenIds_cons, ih, List.toFinset_cons, Finset.biUnion_insert]
        rfl
    rw [AskedRule.appRule]
    dsimp only
    rw [hstored]
    ext id
    simp only [Finset.mem_biUnion, List.mem_toFinset, List.mem_filterMap, namedIds_eq]
    constructor
    · rintro ⟨text, ⟨raw, hraw, htext⟩, hid⟩
      exact ⟨raw, hraw, by rw [htext]; exact hid⟩
    · rintro ⟨raw, hraw, hid⟩
      cases htext : normalizeAppIdToken raw with
      | none => rw [htext] at hid; exact absurd hid (Finset.notMem_empty id)
      | some text => exact ⟨text, ⟨raw, hraw, htext⟩, by rw [htext] at hid; exact hid⟩
  rw [AppRule.policy, AskedRule.policy, hmacs, hids]
  exact congrArg (fun quic => PolicyRule.mk true quic _ _) hquic

/-! ## 8. Runs -/

/-- Every section is that of the rule at its place in the ledger, and no two rules have one id. -/
structure LedgerRecorded (s : PageState) : Prop where
  shows : List.Forall₂ Shows s.store.rules s.ledger
  distinct : (s.ledger.map AskedRule.id).Nodup

theorem LedgerRecorded.matches {s : PageState} (h : LedgerRecorded s) :
    Matches ⟨s.store, s.ledger.map AskedRule.id, 0⟩ := by
  refine ⟨?_, h.distinct⟩
  rw [List.map_map]
  refine List.forall₂_eq_eq_eq ▸ (List.forall₂_map_left_iff.mpr (List.forall₂_map_right_iff.mpr ?_))
  exact h.shows.imp fun section' rule hshow => ruleId_printed hshow.bounds.1 hshow.bounds.2 hshow.id

/-- A call finds every rule of the ledger. -/
theorem LedgerRecorded.not_mem_ledger {s : PageState} (h : LedgerRecorded s) {id : Int}
    (hfind : findRuleIndexById s.store.visible id = none) : id ∉ s.ledger.map AskedRule.id := by
  intro hmem
  obtain ⟨index, hindex⟩ := List.mem_iff_getElem?.mp hmem
  have hthere := h.matches.find.mpr hindex
  exact absurd (hfind.symm.trans hthere) (by simp)

section Lists

variable {α κ : Type} [DecidableEq κ] {key : α → κ} {f : α → α} {k : κ}

/-- Of a list without repeated keys, the element at an index is the one with its key. -/
theorem modify_eq_map : ∀ {l : List α} {i : Nat}, (l.map key).Nodup → (l.map key)[i]? = some k →
    l.modify i f = l.map fun a => if key a = k then f a else a
  | [], _, _, h => by simp at h
  | a :: l, 0, hnodup, h => by
    obtain ⟨hfirst, -⟩ := List.nodup_cons.mp hnodup
    obtain rfl : key a = k := by simpa using h
    have hother : ∀ b ∈ l, key b ≠ key a := fun b hb heq => hfirst (heq ▸ List.mem_map_of_mem hb)
    have hrest : l.map (fun b => if key b = key a then f b else b) = l.map id :=
      List.map_congr_left fun b hb => if_neg (hother b hb)
    rw [List.modify_zero_cons, List.map_cons, if_pos rfl, hrest, List.map_id]
  | a :: l, i + 1, hnodup, h => by
    obtain ⟨hfirst, hnodup⟩ := List.nodup_cons.mp hnodup
    have hi : (l.map key)[i]? = some k := by simpa using h
    have hne : key a ≠ k := fun heq => hfirst (heq ▸ List.mem_of_getElem? hi)
    rw [List.modify_succ_cons, List.map_cons, if_neg hne, modify_eq_map hnodup hi]

theorem eraseIdx_eq_filter : ∀ {l : List α} {i : Nat}, (l.map key).Nodup → (l.map key)[i]? = some k →
    l.eraseIdx i = l.filter fun a => key a ≠ k
  | [], _, _, h => by simp at h
  | a :: l, 0, hnodup, h => by
    obtain ⟨hfirst, -⟩ := List.nodup_cons.mp hnodup
    obtain rfl : key a = k := by simpa using h
    have hrest : l.filter (fun b => key b ≠ key a) = l := by
      refine List.filter_eq_self.mpr fun b hb => decide_eq_true ?_
      intro heq
      exact hfirst (heq ▸ List.mem_map_of_mem hb)
    rw [List.eraseIdx_cons_zero, List.filter_cons_of_neg (by simp), hrest]
  | a :: l, i + 1, hnodup, h => by
    obtain ⟨hfirst, hnodup⟩ := List.nodup_cons.mp hnodup
    have hi : (l.map key)[i]? = some k := by simpa using h
    have hne : key a ≠ k := fun heq => hfirst (heq ▸ List.mem_of_getElem? hi)
    rw [List.eraseIdx_cons_succ, List.filter_cons_of_pos (by simpa using hne), eraseIdx_eq_filter hnodup hi]

variable {β : Type} {R : α → β → Prop}

theorem forall₂_modify {g : β → β} (hstep : ∀ a b, R a b → R (f a) (g b)) : ∀ {l : List α} {l' : List β} (i : Nat),
    List.Forall₂ R l l' → List.Forall₂ R (l.modify i f) (l'.modify i g)
  | _, _, _, .nil => by simp
  | _, _, 0, .cons h hrest => .cons (hstep _ _ h) hrest
  | _, _, i + 1, .cons h hrest => .cons h (forall₂_modify hstep i hrest)

theorem forall₂_eraseIdx : ∀ {l : List α} {l' : List β} (i : Nat),
    List.Forall₂ R l l' → List.Forall₂ R (l.eraseIdx i) (l'.eraseIdx i)
  | _, _, _, .nil => .nil
  | _, _, 0, .cons _ hrest => hrest
  | _, _, i + 1, .cons h hrest => .cons h (forall₂_eraseIdx i hrest)

end Lists

/-- **The step.** -/
theorem LedgerRecorded.step (huci : uci.KeepsTexts) {s t : PageState} {call : PageCall} (h : LedgerRecorded s)
    (hok : call.Ok s) (hstep : pageStep uci s call t) : LedgerRecorded t := by
  obtain rfl := hstep
  cases call with
  | add now fields =>
    obtain ⟨hok, hfresh⟩ := hok
    by_cases hcomplete : fields.Complete
    · have hledger : (PageCall.add now fields).onLedger s.ledger =
          s.ledger ++ [({ id := newRuleId now } : AskedRule).given fields] := if_pos hcomplete
      obtain ⟨hname, hmode, htimes, happs⟩ := hcomplete
      obtain ⟨name, hname⟩ := Option.isSome_iff_exists.mp hname
      obtain ⟨mode, hmode⟩ := Option.isSome_iff_exists.mp hmode
      obtain ⟨times, htimes⟩ := Option.isSome_iff_exists.mp htimes
      obtain ⟨appIds, happs⟩ := Option.isSome_iff_exists.mp happs
      have hrules : ((PageCall.add now fields).onStore uci s.store).rules = _ :=
        (@rules_added uci (newRuleId now) s.store fields.add name mode _ _ hname hmode
          (congrArg (Option.map _) htimes) (congrArg (Option.map _) happs)).2
      constructor
      · rw [hledger, hrules]
        exact List.rel_append h.shows (.cons (shows_added huci hok (newRuleId_bounds now) hmode htimes happs) .nil)
      · rw [hledger, List.map_append]
        exact h.distinct.append (List.nodup_singleton _) (List.disjoint_singleton.mpr hfresh)
    · have hledger : (PageCall.add now fields).onLedger s.ledger = s.ledger := if_neg hcomplete
      have hstore : (PageCall.add now fields).onStore uci s.store = s.store := by
        refine congrArg Prod.fst (@add_refused uci _ _ fields.add fun hreq => hcomplete ?_)
        simpa [AddFilterRuleRequest.Complete, RuleFields.add, RuleFields.Complete] using hreq
      constructor
      · rw [hledger, hstore]
        exact h.shows
      · rw [hledger]
        exact h.distinct
  | update id fields =>
    obtain ⟨hok, hlen⟩ := hok
    cases hfind : findRuleIndexById s.store.visible id with
    | none =>
      have hledger : (PageCall.update id fields).onLedger s.ledger = s.ledger := by
        refine (List.map_congr_left fun rule hrule => if_neg fun heq => ?_).trans (List.map_id _)
        exact h.not_mem_ledger hfind (heq ▸ List.mem_map_of_mem hrule)
      have hstore : (PageCall.update id fields).onStore uci s.store = s.store := by
        simp only [PageCall.onStore, fwxApiUpdateFilterRule, RuleFields.update, hfind]
      exact ⟨by rw [hledger, hstore]; exact h.shows, by rw [hledger]; exact h.distinct⟩
    | some index =>
      have hindex := h.matches.find.mp hfind
      have hlt : index < 2 ^ 31 := by
        obtain ⟨hlt, -⟩ := List.getElem?_eq_some_iff.mp hindex
        rw [List.length_map] at hlt
        omega
      have hrules : ((PageCall.update id fields).onStore uci s.store).rules = _ :=
        (@update_rules uci s.store (fields.update id) id index rfl hfind).1
      have hledger : (PageCall.update id fields).onLedger s.ledger =
          s.ledger.modify index fun rule => rule.given fields := (modify_eq_map h.distinct hindex).symm
      constructor
      · rw [hrules, hledger]
        exact forall₂_modify (fun _ _ => shows_updated huci hok hlt) index h.shows
      · have hsame := @map_modify_same _ _ AskedRule.id (fun rule => rule.given fields) (fun _ => rfl)
          s.ledger index
        rw [hledger, hsame]
        exact h.distinct
  | delete id =>
    cases hfind : findRuleIndexById s.store.visible id with
    | none =>
      have hledger : (PageCall.delete id).onLedger s.ledger = s.ledger := by
        refine List.filter_eq_self.mpr fun rule hrule => decide_eq_true fun heq : rule.id = id => ?_
        exact h.not_mem_ledger hfind (heq ▸ List.mem_map_of_mem hrule)
      have hstore : (PageCall.delete id).onStore uci s.store = s.store := by
        simp only [PageCall.onStore, fwxApiDeleteFilterRule, MacFilter.fwxApiDeleteMacFilterRule, hfind]
      exact ⟨by rw [hledger, hstore]; exact h.shows, by rw [hledger]; exact h.distinct⟩
    | some index =>
      have hindex := h.matches.find.mp hfind
      have hrules : ((PageCall.delete id).onStore uci s.store).rules = _ := (delete_rules hfind).1
      have hledger : (PageCall.delete id).onLedger s.ledger = s.ledger.eraseIdx index :=
        (eraseIdx_eq_filter h.distinct hindex).symm
      constructor
      · rw [hrules, hledger]
        exact forall₂_eraseIdx index h.shows
      · exact h.distinct.sublist ((List.filter_sublist).map AskedRule.id)

/-- **What is loaded** of a recorded ledger. -/
theorem LedgerRecorded.loadedAs {s : PageState} (h : LedgerRecorded s) :
    LoadedAs s.store.visible s.ledger (s.ledger.map AskedRule.appRule) := by
  constructor
  · rw [loadAppfilterRules]
    refine List.forall₂_map_left_iff.mpr (List.forall₂_map_right_iff.mpr ?_)
    exact h.shows.imp fun _ _ hshow => isOf_loadAppfilterRule hshow
  · rw [List.map_map]
    rfl
  · intro weekday minutes id p
    rw [wantedPolicy, Option.map_eq_some_iff]
    constructor
    · rintro ⟨found, hfound, hp⟩
      obtain ⟨rule, hrule, rfl⟩ := List.mem_map.mp (List.mem_of_find?_eq_some hfound)
      have hcond := List.find?_some hfound
      rw [Bool.and_eq_true, beq_iff_eq, shouldActive_appRule] at hcond
      exact ⟨rule, hrule, hcond.1, hcond.2, (policy_appRule rule).symm.trans hp⟩
    · rintro ⟨rule, hrule, hid, hon, hp⟩
      have hthere : (s.ledger.map AskedRule.appRule).find? (fun r => r.id == id && r.shouldActive ⟨weekday.val, minutes⟩) =
          some rule.appRule := by
        cases hfind : (s.ledger.map AskedRule.appRule).find?
            (fun r => r.id == id && r.shouldActive ⟨weekday.val, minutes⟩) with
        | none =>
          have hnot := List.find?_eq_none.mp hfind rule.appRule (List.mem_map_of_mem hrule)
          rw [Bool.and_eq_true, beq_iff_eq, shouldActive_appRule] at hnot
          exact absurd ⟨hid, hon⟩ hnot
        | some found =>
          obtain ⟨other, hother, rfl⟩ := List.mem_map.mp (List.mem_of_find?_eq_some hfind)
          have hcond := List.find?_some hfind
          rw [Bool.and_eq_true, beq_iff_eq] at hcond
          rw [List.inj_on_of_nodup_map h.distinct hother hrule (hcond.1.trans hid.symm)]
      exact ⟨_, hthere, (policy_appRule rule).trans hp⟩

/-- **What is asked for is what is wanted.**  In every run of the calls, the manager loads the rules that were asked
for and not deleted, each under its id, and at every moment the policy that it wants is theirs. -/
theorem asked_rules_loaded (huci : uci.KeepsTexts) {s t : PageState} (hstart : LedgerRecorded s)
    (hrun : Reaches (pageStep uci) (fun s call => call.Ok s) s t) :
    ∃ rules, LoadedAs t.store.visible t.ledger rules :=
  ⟨_, (hrun.invariant (fun _ _ _ h hok hstep => h.step huci hok hstep) hstart).loadedAs⟩

theorem plainUci_keepsTexts : MacFilter.plainUci.KeepsTexts where
  set _ _ hne _ := if_neg hne
  setEmpty _ := rfl
  addNone _ _ _ := rfl
  addList _ _ _ _ := rfl

/-- Games on school nights, for one user. -/
def gamesFields : RuleFields where
  name := some (ascii "games")
  mode := some 2
  userMac := some (.lit "02:00:00:00:00:a7")
  times := some [⟨(List.finRange 7).take 5, fridayNight.startTime, fridayNight.endTime⟩]
  appIds := some [ascii "2001-2020", ascii "QQ"]

/-- The same for all users, and with one more app. -/
def moreFields : RuleFields where
  mode := some 1
  times := some [⟨(List.finRange 7).take 5, fridayNight.startTime, fridayNight.endTime⟩]
  appIds := some [ascii "2001-2020", ascii "3005"]

/-- After the first call, and after both. -/
def gamesAdded : PageState :=
  ⟨(PageCall.add 1700000000 gamesFields).onStore MacFilter.plainUci ⟨[], []⟩,
    (PageCall.add 1700000000 gamesFields).onLedger []⟩

def gamesChanged : PageState :=
  ⟨(PageCall.update 1700000000 moreFields).onStore MacFilter.plainUci gamesAdded.store,
    (PageCall.update 1700000000 moreFields).onLedger gamesAdded.ledger⟩

theorem asked_rules_loaded_games :
    ∃ rules, LoadedAs gamesChanged.store.visible gamesChanged.ledger rules := by
  have hadd : (PageCall.add 1700000000 gamesFields).Ok ⟨⟨[], []⟩, []⟩ := by
    refine ⟨⟨fun mac hmac => ?_, fun times htimes => ?_⟩, List.not_mem_nil⟩
    · obtain rfl := Option.some.inj hmac
      decide
    · obtain rfl := Option.some.inj htimes
      decide
  have hupdate : (PageCall.update 1700000000 moreFields).Ok gamesAdded := by
    have hmac : ∀ mac ∈ moreFields.userMac, IsPrintable mac.bytes := fun _ h => nomatch h
    refine ⟨⟨hmac, fun times htimes => ?_⟩, by decide⟩
    obtain rfl := Option.some.inj htimes
    decide
  exact asked_rules_loaded plainUci_keepsTexts (s := ⟨⟨[], []⟩, []⟩) ⟨.nil, List.nodup_nil⟩
    (.tail (.tail .refl hadd rfl) hupdate rfl)

end Oaf
