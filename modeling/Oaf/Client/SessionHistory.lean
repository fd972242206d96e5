/-
# The history of connection counts

Every 5 seconds `fwx_session_stat_tick` reads how many connections there are.  The last 60 of these counts are
kept in one ring, and every 12th in another one, for a day.  `fwx_api_get_history_session` lists the last of
them, for 5 minutes from the first ring and for longer ones from the second.

A ring without a sample is listed as the count that is read now, and the request's minutes are only looked at
if they are positive.

* `runSession_spec`: what the rings hold after any run of ticks and requests.
* `historySession_eq`: **the answer in terms of the ticks.**
-/
import Oaf.Lib.Lines
import Oaf.Lib.Ring

namespace Oaf

open CLib

def SESSION_MAX_POINTS : Nat := 24 * 60
def SESSION_SAMPLE_INTERVAL_SEC : Nat := 5
def SESSION_DETAIL_MAX_POINTS : Nat := 5 * 60 / SESSION_SAMPLE_INTERVAL_SEC
def SESSION_SAMPLES_PER_MINUTE : Nat := 60 / SESSION_SAMPLE_INTERVAL_SEC

/-! ## 1. The ticks -/

/-- `fwx_stat_read_conntrack_count`, with what is in the file if it can be opened. -/
def fwxStatReadConntrackCount (file : Option (List UInt8)) : Int :=
  match file.bind fun text => (fgetsLines 64 text).head? with
  | none => 0
  | some line =>
    let v := strtol10 (CStr.ofBytes line).bytes
    if v.rest = (CStr.ofBytes line).bytes ∨ v.value < 0 then 0 else Kernel.toInt32 v.value

/-- `session_ring_t`. -/
abbrev SessionRing (n : Nat) := RingBuffer Int n

/-- `session_stat_ctx_t`, when it is initialized. -/
structure SessionStatCtx where
  minuteRing : SessionRing SESSION_MAX_POINTS
  detailRing : SessionRing SESSION_DETAIL_MAX_POINTS
  detailSampleCount : Nat

/-- `session_stat_init`; `none` is the zeroed memory before. -/
def sessionStatInit (ctx : Option SessionStatCtx) : SessionStatCtx :=
  ctx.getD ⟨.empty (by decide) 0, .empty (by decide) 0, 0⟩

/-- `session_ring_append`, of a ring that is initialized. -/
def sessionRingAppend {n : Nat} (ring : SessionRing n) (value : Int) : SessionRing n := ring.append value

/-- `fwx_session_stat_tick`. -/
def fwxSessionStatTick (ctx : Option SessionStatCtx) (file : Option (List UInt8)) : SessionStatCtx :=
  let current := fwxStatReadConntrackCount file
  let ctx := sessionStatInit ctx
  let ctx := { ctx with
    detailRing := sessionRingAppend ctx.detailRing current
    detailSampleCount := ctx.detailSampleCount + 1 }
  if SESSION_SAMPLES_PER_MINUTE ≤ ctx.detailSampleCount then
    { ctx with minuteRing := sessionRingAppend ctx.minuteRing current, detailSampleCount := 0 }
  else ctx

/-! ## 2. The request -/

/-- What json-c reads in a request: the text of `range` and the integer of `minutes`, if they are there. -/
structure HistoryRequest where
  range : Option (List UInt8)
  minutes : Option Int

/-- The answer. -/
structure SessionHistory where
  range : List UInt8
  minutes : Int
  current : Int
  avg : Int
  peak : Int
  list : List Int
deriving DecidableEq

/-- What the loop over the points keeps. -/
structure HistoryScan where
  list : List Int := []
  sum : Int := 0
  sampleCount : Nat := 0
  peak : Int := 0

def HistoryScan.add (scan : HistoryScan) (value : Int) : HistoryScan where
  list := scan.list ++ [value]
  sum := scan.sum + value
  sampleCount := scan.sampleCount + 1
  peak := if scan.sampleCount + 1 = 1 ∨ scan.peak < value then value else scan.peak

/-- The loop over the points, from `start_offset` on. -/
def historyScan {n : Nat} (ring : SessionRing n) (startOffset : Nat) : HistoryScan :=
  (List.range' startOffset (ring.count - startOffset)).foldl
    (fun scan i => scan.add (ring.points (ring.place i))) {}

/-- `range`, which is `hour` without a text. -/
def HistoryRequest.rangeStr (req : HistoryRequest) : List UInt8 :=
  match req.range with
  | some rangeStr => if rangeStr = [] then ascii "hour" else rangeStr
  | none => ascii "hour"

/-- `is_5min`. -/
def HistoryRequest.is5min (req : HistoryRequest) : Bool :=
  req.rangeStr = ascii "5min" || req.rangeStr = ascii "5m"

/-- `minutes`, before it is brought into the size of the ring. -/
def HistoryRequest.minutesOf (req : HistoryRequest) : Int :=
  if req.is5min then 5
  else
    match req.minutes with
    | some tmp => if 0 < tmp then tmp else 60
    | none => if req.rangeStr = ascii "day" then 24 * 60 else 60

/-- The answer, from what the loop has. -/
def sessionAnswer (is5min : Bool) (minutes current : Int) (scan : HistoryScan) : SessionHistory where
  range := if is5min then ascii "5min" else if 24 * 60 ≤ minutes then ascii "day" else ascii "hour"
  minutes := if is5min then 5 else minutes
  current := current
  avg :=
    if scan.sampleCount = 0 then current
    else Kernel.toInt32 ((scan.sum + (scan.sampleCount / 2 : Nat)).tdiv scan.sampleCount)
  peak := if scan.sampleCount = 0 then current else if scan.peak < current then current else scan.peak
  list := if scan.sampleCount = 0 then scan.list ++ [current] else scan.list

/-- `fwx_api_get_history_session`: the answer, and what it leaves. -/
def fwxApiGetHistorySession (ctx : Option SessionStatCtx) (req : HistoryRequest)
    (file : Option (List UInt8)) : SessionHistory × SessionStatCtx :=
  let ctx := sessionStatInit ctx
  let current := fwxStatReadConntrackCount file
  if req.is5min then
    let totalCount := ctx.detailRing.count
    let startOffset :=
      if SESSION_DETAIL_MAX_POINTS < totalCount then totalCount - SESSION_DETAIL_MAX_POINTS else 0
    (sessionAnswer true req.minutesOf current (historyScan ctx.detailRing startOffset), ctx)
  else
    let minutes := if (SESSION_MAX_POINTS : Int) < req.minutesOf then (SESSION_MAX_POINTS : Int) else req.minutesOf
    let minutes := if minutes < 1 then 1 else minutes
    let totalCount := ctx.minuteRing.count
    let startOffset := if minutes < totalCount then totalCount - minutes.toNat else 0
    (sessionAnswer false minutes current (historyScan ctx.minuteRing startOffset), ctx)

/-- A tick, or a request. -/
inductive SessionEvent where
  | tick (file : Option (List UInt8))
  | request (req : HistoryRequest) (file : Option (List UInt8))

def SessionEvent.run (ctx : Option SessionStatCtx) : SessionEvent → SessionStatCtx
  | .tick file => fwxSessionStatTick ctx file
  | .request req file => (fwxApiGetHistorySession ctx req file).2

/-- The context after a run; it begins with the zeroed memory. -/
def runSession (events : List SessionEvent) : Option SessionStatCtx :=
  events.foldl (fun ctx event => some (event.run ctx)) none

/-! ## 3. In terms of the ticks -/

/-- The counts that the ticks read. -/
def tickValues (events : List SessionEvent) : List Int :=
  events.filterMap fun event =>
    match event with
    | .tick file => some (fwxStatReadConntrackCount file)
    | .request _ _ => none

/-- Every 12th of them. -/
def minuteSamples (values : List Int) : List Int :=
  (List.range (values.length / SESSION_SAMPLES_PER_MINUTE)).filterMap fun k =>
    values[SESSION_SAMPLES_PER_MINUTE * k + (SESSION_SAMPLES_PER_MINUTE - 1)]?

/-- The 5-minute range is asked for. -/
def HistoryRequest.fiveMinutes (req : HistoryRequest) : Bool :=
  req.range = some (ascii "5min") || req.range = some (ascii "5m")

/-- The minutes asked for. -/
def HistoryRequest.minutesAsked (req : HistoryRequest) : Int :=
  match req.minutes with
  | some tmp => if 0 < tmp then tmp else 60
  | none => if req.range = some (ascii "day") then 24 * 60 else 60

/-- The samples asked for. -/
def HistoryRequest.samples (req : HistoryRequest) (values : List Int) : List Int :=
  if req.fiveMinutes then values.rtake SESSION_DETAIL_MAX_POINTS
  else (minuteSamples values).rtake (min req.minutesAsked (SESSION_MAX_POINTS : Int)).toNat

/-- The rounded mean, and the count that is read now when there is no sample. -/
def sessionAvg (samples : List Int) (current : Int) : Int :=
  if samples = [] then current
  else (samples.sum + (samples.length / 2 : Nat)).tdiv samples.length

theorem minuteSamples_snoc (values : List Int) (v : Int) :
    minuteSamples (values ++ [v]) =
      if values.length % SESSION_SAMPLES_PER_MINUTE + 1 = SESSION_SAMPLES_PER_MINUTE
      then minuteSamples values ++ [v] else minuteSamples values := by
  have hfront : (List.range (values.length / 12)).filterMap (fun k => (values ++ [v])[12 * k + 11]?) =
      minuteSamples values := by
    refine List.filterMap_congr fun k hk => List.getElem?_append_left ?_
    have := List.mem_range.mp hk
    omega
  have hunfold : minuteSamples (values ++ [v]) = (List.range ((values.length + 1) / 12)).filterMap
      fun k => (values ++ [v])[12 * k + 11]? := by
    rw [minuteSamples, List.length_append, List.length_singleton]
    rfl
  rw [hunfold]
  show _ = if values.length % 12 + 1 = 12 then _ else _
  split
  · have hdiv : (values.length + 1) / 12 = values.length / 12 + 1 := by omega
    have hlast : 12 * (values.length / 12) + 11 = values.length := by omega
    rw [hdiv, List.range_succ, List.filterMap_append, hfront, List.filterMap_cons_some (b := v) (by
      rw [hlast, List.getElem?_concat_length]), List.filterMap_nil]
  · have hdiv : (values.length + 1) / 12 = values.length / 12 := by omega
    rw [hdiv, hfront]

/-- What the rings hold after the ticks. -/
structure HoldsTicks (ctx : SessionStatCtx) (values : List Int) : Prop where
  detail : ctx.detailRing.toList = values.rtake SESSION_DETAIL_MAX_POINTS
  minute : ctx.minuteRing.toList = (minuteSamples values).rtake SESSION_MAX_POINTS
  phase : ctx.detailSampleCount = values.length % SESSION_SAMPLES_PER_MINUTE

theorem holdsTicks_init : HoldsTicks (sessionStatInit none) [] := ⟨rfl, rfl, rfl⟩

/-- **One tick.** -/
theorem holdsTicks_tick {ctx : Option SessionStatCtx} {values : List Int}
    (h : HoldsTicks (sessionStatInit ctx) values) (file : Option (List UInt8)) :
    HoldsTicks (fwxSessionStatTick ctx file) (values ++ [fwxStatReadConntrackCount file]) := by
  generalize hv : fwxStatReadConntrackCount file = v
  have hdetail : (sessionRingAppend (sessionStatInit ctx).detailRing v).toList =
      (values ++ [v]).rtake SESSION_DETAIL_MAX_POINTS := RingBuffer.toList_foldl_append h.detail [v]
  have hminute : (sessionRingAppend (sessionStatInit ctx).minuteRing v).toList =
      (minuteSamples values ++ [v]).rtake SESSION_MAX_POINTS := RingBuffer.toList_foldl_append h.minute [v]
  have hphase : (sessionStatInit ctx).detailSampleCount = values.length % 12 := h.phase
  have hlen : (values ++ [v]).length = values.length + 1 := List.length_append
  unfold fwxSessionStatTick
  simp only [hv, hphase]
  by_cases hfull : SESSION_SAMPLES_PER_MINUTE ≤ values.length % 12 + 1
  · have hlast : values.length % 12 + 1 = 12 :=
      Nat.le_antisymm (Nat.mod_lt _ (by decide)) hfull
    rw [if_pos hfull]
    refine ⟨hdetail, ?_, ?_⟩
    · rw [(minuteSamples_snoc values v).trans (if_pos hlast)]
      exact hminute
    · show 0 = (values ++ [v]).length % 12
      omega
  · have hother : ¬ values.length % 12 + 1 = 12 := fun heq => hfull heq.ge
    have hlt : ¬ 12 ≤ values.length % 12 + 1 := hfull
    rw [if_neg hfull]
    refine ⟨hdetail, ?_, ?_⟩
    · rw [(minuteSamples_snoc values v).trans (if_neg hother)]
      exact h.minute
    · show values.length % 12 + 1 = (values ++ [v]).length % 12
      omega

/-- A request initializes the context and changes nothing else. -/
theorem fwxApiGetHistorySession_ctx (ctx : Option SessionStatCtx) (req : HistoryRequest)
    (file : Option (List UInt8)) : (fwxApiGetHistorySession ctx req file).2 = sessionStatInit ctx := by
  unfold fwxApiGetHistorySession
  split <;> rfl

/-- **After any run**, the rings hold the last of the counts. -/
theorem runSession_spec (events : List SessionEvent) :
    HoldsTicks (sessionStatInit (runSession events)) (tickValues events) := by
  induction events using List.reverseRecOn with
  | nil => exact holdsTicks_init
  | append_singleton events event ih =>
    have hrun : runSession (events ++ [event]) = some (event.run (runSession events)) := by
      rw [runSession, List.foldl_append]
      rfl
    rw [hrun, tickValues, List.filterMap_append]
    cases event with
    | tick file => exact holdsTicks_tick ih file
    | request req file =>
      rw [List.filterMap_cons_none rfl, List.filterMap_nil, List.append_nil, SessionEvent.run,
        fwxApiGetHistorySession_ctx]
      exact ih

/-! ## 4. The answer -/

/-- What the loop has after these points. -/
theorem scan_add (values : List Int) :
    values.foldl HistoryScan.add {} =
      { list := values, sum := values.sum, sampleCount := values.length
        peak := values.tail.foldl max (values.headD 0) } := by
  induction values using List.reverseRecOn with
  | nil => rfl
  | append_singleton values v ih =>
    rw [List.foldl_append, List.foldl_cons, List.foldl_nil, ih, HistoryScan.add]
    cases values with
    | nil => simp
    | cons w values => simp [List.foldl_append, max_def_lt, add_assoc]

/-- The loop from an offset on. -/
theorem historyScan_eq {n : Nat} {ring : SessionRing n} {samples : List Int} (offset : Nat)
    (h : ring.toList.drop offset = samples) :
    historyScan ring offset =
      { list := samples, sum := samples.sum, sampleCount := samples.length
        peak := samples.tail.foldl max (samples.headD 0) } := by
  rw [← scan_add, ← h, ← RingBuffer.toList_drop, List.foldl_map]
  rfl

/-- The last `m` elements of a ring, behind the offset that the code computes. -/
theorem drop_offset {n m : Nat} {ring : SessionRing n} {values : List Int} (h : ring.toList = values.rtake n) :
    ring.toList.drop (if m < ring.count then ring.count - m else 0) = values.rtake (min m n) := by
  rw [← RingBuffer.rtake_rtake, ← h, List.rtake, RingBuffer.length_toList]
  congr 1
  split <;> omega

theorem fwxStatReadConntrackCount_range (file : Option (List UInt8)) :
    -2 ^ 31 ≤ fwxStatReadConntrackCount file ∧ fwxStatReadConntrackCount file < 2 ^ 31 := by
  have hwrap (v : Int) : -2 ^ 31 ≤ Kernel.toInt32 v ∧ Kernel.toInt32 v < 2 ^ 31 := by
    rw [Kernel.toInt32, Int.bmod_def]
    omega
  unfold fwxStatReadConntrackCount
  split
  · decide
  · dsimp only
    split
    · decide
    · exact hwrap _

/-- Sums of up to a day's samples are far from the ends of a `long long`. -/
theorem sum_range {samples : List Int} (h : ∀ v ∈ samples, -2 ^ 31 ≤ v ∧ v < 2 ^ 31) :
    -2 ^ 31 * (samples.length : Int) ≤ samples.sum ∧ samples.sum ≤ (2 ^ 31 - 1) * (samples.length : Int) := by
  induction samples with
  | nil => decide
  | cons v samples ih =>
    obtain ⟨hlow, hhigh⟩ := ih fun w hw => h w (List.mem_cons_of_mem _ hw)
    obtain ⟨hv, hv'⟩ := h v List.mem_cons_self
    rw [List.sum_cons, List.length_cons, Int.natCast_succ]
    omega

/-- The mean is an `int`. -/
theorem sessionAvg_toInt32 {samples : List Int} (h : ∀ v ∈ samples, -2 ^ 31 ≤ v ∧ v < 2 ^ 31)
    (hne : samples ≠ []) :
    Kernel.toInt32 ((samples.sum + (samples.length / 2 : Nat)).tdiv samples.length) =
      (samples.sum + (samples.length / 2 : Nat)).tdiv samples.length := by
  obtain ⟨hlow, hhigh⟩ := sum_range h
  have hpos := List.length_pos_of_ne_nil hne
  generalize samples.sum = sum at hlow hhigh ⊢
  generalize samples.length = n at hlow hhigh hpos ⊢
  refine Kernel.toInt32_self (Int.le_tdiv_of_mul_le (by omega) (by omega)) ?_
  rcases Int.lt_or_le (sum + (n / 2 : Nat)) 0 with hneg | hnonneg
  · have hle := @Int.tdiv_le_of_le_mul (sum + (n / 2 : Nat)) 0 n (by omega) (by omega)
    split at hle <;> omega
  · rw [Int.tdiv_eq_ediv_of_nonneg hnonneg]
    exact Int.ediv_lt_of_lt_mul (by omega) (by omega)

theorem minuteSamples_subset {values : List Int} {v : Int} (h : v ∈ minuteSamples values) : v ∈ values := by
  obtain ⟨k, -, hk⟩ := List.mem_filterMap.mp h
  exact List.mem_of_getElem? hk

/-- What is asked for are counts that a tick read. -/
theorem samples_range (req : HistoryRequest) (events : List SessionEvent) :
    ∀ v ∈ req.samples (tickValues events), -2 ^ 31 ≤ v ∧ v < 2 ^ 31 := by
  intro v hv
  have hmem : v ∈ tickValues events := by
    unfold HistoryRequest.samples at hv
    split at hv
    · exact List.mem_of_mem_drop hv
    · exact minuteSamples_subset (List.mem_of_mem_drop hv)
  obtain ⟨event, -, hevent⟩ := List.mem_filterMap.mp hmem
  cases event with
  | tick file => exact Option.some.inj hevent ▸ fwxStatReadConntrackCount_range file
  | request req file => cases hevent

/-- The largest of some samples and the count that is read now. -/
theorem peak_eq (v : Int) (samples : List Int) (current : Int) :
    (if samples.foldl max v < current then current else samples.foldl max v) =
      (v :: samples).foldl max current := by
  rw [List.foldl_cons, List.foldl_assoc, max_comm, max_def_lt]

theorem is5min_eq (req : HistoryRequest) : req.is5min = req.fiveMinutes := by
  unfold HistoryRequest.is5min HistoryRequest.fiveMinutes HistoryRequest.rangeStr
  cases req.range with
  | none => rfl
  | some text =>
    by_cases hnil : text = []
    · subst hnil
      rfl
    · simp [hnil]

theorem minutesOf_eq (req : HistoryRequest) :
    req.minutesOf = if req.fiveMinutes then 5 else req.minutesAsked := by
  have hday : req.rangeStr = ascii "day" ↔ req.range = some (ascii "day") := by
    unfold HistoryRequest.rangeStr
    cases req.range with
    | none => simp [show ascii "hour" ≠ ascii "day" by decide]
    | some text =>
      by_cases hnil : text = []
      · subst hnil
        simp [show ascii "hour" ≠ ascii "day" by decide, show [] ≠ ascii "day" by decide]
      · simp [hnil]
  unfold HistoryRequest.minutesOf HistoryRequest.minutesAsked
  rw [is5min_eq]
  simp only [hday]

theorem minutesAsked_pos (req : HistoryRequest) : 0 < req.minutesAsked := by
  unfold HistoryRequest.minutesAsked
  split
  · split <;> omega
  · split <;> decide

/-- The answer, from samples that are `int`s. -/
theorem sessionAnswer_eq (is5min : Bool) (minutes current : Int) {samples : List Int}
    (h : ∀ v ∈ samples, -2 ^ 31 ≤ v ∧ v < 2 ^ 31) :
    sessionAnswer is5min minutes current
        { list := samples, sum := samples.sum, sampleCount := samples.length
          peak := samples.tail.foldl max (samples.headD 0) } =
      { range := if is5min then ascii "5min" else if 24 * 60 ≤ minutes then ascii "day" else ascii "hour"
        minutes := if is5min then 5 else minutes
        current := current
        avg := sessionAvg samples current
        peak := samples.foldl max current
        list := if samples = [] then [current] else samples } := by
  cases samples with
  | nil => rfl
  | cons v samples =>
    have havg := sessionAvg_toInt32 h (List.cons_ne_nil v samples)
    simp only [sessionAnswer, sessionAvg, List.length_cons, Nat.succ_ne_zero, if_false, List.cons_ne_nil,
      List.tail_cons, List.headD_cons]
    rw [← List.length_cons (a := v), havg]
    exact congrArg (fun peak => (⟨_, _, _, _, peak, _⟩ : SessionHistory)) (peak_eq v samples current)

/-- **The history of connection counts**, after any run of ticks and requests: what is listed are the last 60
counts for the 5-minute range, else the last of every 12th count, as many as minutes are asked for and at most
a day's; without a sample, the count that is read now. -/
theorem historySession_eq (events : List SessionEvent) (req : HistoryRequest) (file : Option (List UInt8)) :
    (fwxApiGetHistorySession (runSession events) req file).1 =
      { range := if req.fiveMinutes then ascii "5min"
          else if SESSION_MAX_POINTS ≤ req.minutesAsked then ascii "day" else ascii "hour"
        minutes := if req.fiveMinutes then 5 else min req.minutesAsked SESSION_MAX_POINTS
        current := fwxStatReadConntrackCount file
        avg := sessionAvg (req.samples (tickValues events)) (fwxStatReadConntrackCount file)
        peak := (req.samples (tickValues events)).foldl max (fwxStatReadConntrackCount file)
        list := if req.samples (tickValues events) = [] then [fwxStatReadConntrackCount file]
          else req.samples (tickValues events) } := by
  obtain ⟨hdetail, hminute, -⟩ := runSession_spec events
  have hvalues := samples_range req events
  have hasked := minutesOf_eq req
  unfold HistoryRequest.samples at hvalues ⊢
  rw [fwxApiGetHistorySession, is5min_eq]
  cases hfive : req.fiveMinutes with
  | true =>
    simp only [hfive, if_true] at hvalues ⊢
    rw [historyScan_eq _ (drop_offset hdetail), sessionAnswer_eq _ _ _ (by rwa [Nat.min_self])]
    rw [Nat.min_self]
    rfl
  | false =>
    rw [hfive, if_neg Bool.false_ne_true] at hasked
    simp only [hfive, Bool.false_eq_true, if_false, hasked] at hvalues ⊢
    have hpos := minutesAsked_pos req
    have hclamp : (if (SESSION_MAX_POINTS : Int) < req.minutesAsked then (SESSION_MAX_POINTS : Int)
        else req.minutesAsked) = min req.minutesAsked SESSION_MAX_POINTS := by omega
    have hmin : 0 < min req.minutesAsked (SESSION_MAX_POINTS : Int) := by
      have : (0 : Int) < SESSION_MAX_POINTS := by decide
      omega
    rw [hclamp, if_neg (by omega)]
    generalize hm : min req.minutesAsked (SESSION_MAX_POINTS : Int) = m at hvalues hmin ⊢
    have hoffset : (if m < ((sessionStatInit (runSession events)).minuteRing.count : Int)
        then (sessionStatInit (runSession events)).minuteRing.count - m.toNat else 0) =
        if m.toNat < (sessionStatInit (runSession events)).minuteRing.count
        then (sessionStatInit (runSession events)).minuteRing.count - m.toNat else 0 :=
      if_congr (by omega) rfl rfl
    have hm' : min m.toNat SESSION_MAX_POINTS = m.toNat := by omega
    have hdrop := drop_offset (m := m.toNat) hminute
    rw [hm'] at hdrop
    rw [hoffset, historyScan_eq _ hdrop, sessionAnswer_eq _ _ _ hvalues]
    have hday : (24 * 60 ≤ m) = ((SESSION_MAX_POINTS : Int) ≤ req.minutesAsked) := by
      have : (SESSION_MAX_POINTS : Int) = 24 * 60 := rfl
      exact propext (by omega)
    simp only [Bool.false_eq_true, if_false, hday]

/-- Before the first tick there is no sample, and 7 connections are listed. -/
theorem historySession_without_samples :
    (fwxApiGetHistorySession (runSession []) ⟨none, some 60⟩ (some (ascii "7\n"))).1.list ≠
      (minuteSamples (tickValues [])).rtake (min 60 SESSION_MAX_POINTS) := by
  decide

end Oaf
