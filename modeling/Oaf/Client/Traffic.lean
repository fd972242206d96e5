/-
# Traffic accounting

The hooks add every packet of a client to `flow`; every two seconds `af_update_client_status` adds what
came since to `period_flow`; every minute `__af_visit_info_report` sends that in KiB and clears it, and
`fwx_netlink_handler` credits it to the hour and to the online session.

Two things are lost on the way.  A report drops what is left over of the last KiB.  And a tick counts
nothing while `last_flow` is 0, which it is until a tick has seen some bytes: what the first such
tick finds is in no period.

* `Runs`: the events of a client, the last one first, and what they come to, in their own terms.
* `traffic_state`: **the four counters** after any run.
* `credited_eq`: what fwxd has credited, to the byte.
* `traffic_conserved_iff`: exactly when the loss stays under a KiB for each report.
-/
import Oaf.Lib.CText
import Mathlib.Data.UInt

namespace Oaf

open CLib

/-! ## 1. The kernel's client -/

inductive Dir where
  | up | down
deriving DecidableEq

/-- `flow_stat_t`.  The counters are `long long` and do not come near their bound. -/
structure FlowStat where
  bytes : Dir → Int
  pkts : Dir → Int

def FlowStat.zero : FlowStat := ⟨fun _ => 0, fun _ => 0⟩

/-- `flow_rate_t`. -/
structure FlowRate where
  rate : Dir → UInt32
  pktRate : Dir → UInt32

/-- What the accounting uses of an `af_client_info_t`. -/
structure TrafficClient where
  flow : FlowStat
  lastFlow : FlowStat
  periodFlow : FlowStat
  rate : FlowRate
  activeTime : Int
  inactiveTime : Int
  active : Bool

/-- `nf_client_add`. -/
def TrafficClient.new : TrafficClient where
  flow := .zero
  lastFlow := .zero
  periodFlow := .zero
  rate := ⟨fun _ => 0, fun _ => 0⟩
  activeTime := 0
  inactiveTime := 0
  active := false

/-- The hooks: a packet of `len` bytes. -/
def countPacket (client : TrafficClient) (dir : Dir) (len : UInt32) : TrafficClient :=
  { client with
    flow :=
      { bytes := Function.update client.flow.bytes dir (client.flow.bytes dir + len.toNat)
        pkts := Function.update client.flow.pkts dir (client.flow.pkts dir + 1) } }

/-- `af_update_client_status`; `blocked` is what `is_client_mac_filter_blocked` says. -/
def afUpdateClientStatus (client : TrafficClient) (blocked : Bool) : TrafficClient :=
  let period := fun d =>
    if 0 < client.lastFlow.bytes d then
      client.periodFlow.bytes d + (client.flow.bytes d - client.lastFlow.bytes d)
    else client.periodFlow.bytes d
  let rate : FlowRate :=
    { rate := fun d => UInt32.ofInt ((client.flow.bytes d - client.lastFlow.bytes d) >>> (1 : Nat))
      pktRate := fun d => UInt32.ofInt ((client.flow.pkts d - client.lastFlow.pkts d) >>> (1 : Nat)) }
  let client :=
    { client with
      periodFlow := { client.periodFlow with bytes := period }
      rate := rate
      lastFlow := client.flow }
  if blocked then { client with active := false, activeTime := 0, inactiveTime := 0 }
  else if 20 < rate.pktRate .down then
    { client with activeTime := client.activeTime + 1, inactiveTime := 0, active := true }
  else
    { client with
      inactiveTime := client.inactiveTime + 1
      activeTime := 0
      active := client.active && decide (client.inactiveTime + 1 ≤ 30) }

/-- The numbers of a report.  They are JSON numbers, which the kernel prints as `int`. -/
structure TrafficReport where
  flow : Dir → Int
  active : Int

/-- `(u32)(bytes >> 10)`, printed as an `int`. -/
def reportedKib (bytes : Int) : Int := Kernel.toInt32 ((bytes >>> (10 : Nat)) % 2 ^ 32)

/-- `__af_visit_info_report`: the message, and the client with an empty period. -/
def afVisitInfoReport (client : TrafficClient) : TrafficReport × TrafficClient :=
  ({ flow := fun d => reportedKib (client.periodFlow.bytes d)
     active := if client.active then 1 else 0 },
    { client with periodFlow := .zero })

/-! ## 2. `fwx_netlink_handler` -/

def HOURS_PER_DAY : Nat := 24
def REPORT_INTERVAL_SECS : Nat := 60

/-- `daily_hourly_stat_t`, less the top apps. -/
structure DailyHourlyStat where
  date : Nat
  isToday : Bool
  hourlyTraffic : Fin HOURS_PER_DAY → Dir → Nat
  hourlyOnlineTime : Fin HOURS_PER_DAY → Nat
  hourlyActiveTime : Fin HOURS_PER_DAY → Nat

/-- `online_session_stat_t`, less the start time and the recent apps. -/
structure OnlineSession where
  bytes : Dir → Nat
  onlineDuration : Nat
  activeDuration : Nat

/-- What the accounting uses of a `client_node_t`; `saved` is what `save_daily_stats_to_file` wrote. -/
structure TrafficNode where
  online : Bool
  active : Int
  dailyStats : DailyHourlyStat
  saved : List DailyHourlyStat
  session : OnlineSession

/-- The time of a report: the seconds, the start of the day, and the hour. -/
structure ReportTime where
  now : Nat
  today : Nat
  hour : Fin HOURS_PER_DAY

/-- `get_today_stat`. -/
def getTodayStat (node : TrafficNode) (today : Nat) : TrafficNode :=
  if node.dailyStats.date = today ∧ node.dailyStats.isToday then node
  else
    { node with
      saved :=
        if node.dailyStats.date ≠ 0 ∧ node.dailyStats.date ≠ today then
          node.saved ++ [node.dailyStats]
        else node.saved
      dailyStats :=
        { date := today, isToday := true, hourlyTraffic := fun _ _ => 0,
          hourlyOnlineTime := fun _ => 0, hourlyActiveTime := fun _ => 0 } }

/-- `(unsigned long long)kib * 1024`. -/
def reportedBytes (kib : Int) : Nat := ((kib * 1024) % 2 ^ 64).toNat

/-- The first two minutes of a day, when a report is dropped. -/
def ReportTime.dropped (time : ReportTime) : Bool :=
  decide (time.today ≤ time.now ∧ time.now - time.today < 120)

/-- `update_online_session_activity` and `update_online_session_flow`. -/
def updateOnlineSession (node : TrafficNode) (bytes : Dir → Nat) : TrafficNode :=
  if node.online then
    { node with
      session :=
        { bytes := fun d => node.session.bytes d + bytes d
          onlineDuration := node.session.onlineDuration + REPORT_INTERVAL_SECS
          activeDuration := node.session.activeDuration +
            (if node.active = 1 then REPORT_INTERVAL_SECS else 0) } }
  else node

/-- `fwx_netlink_handler` for a known client, up to the visited apps. -/
def fwxNetlinkHandler (node : TrafficNode) (report : TrafficReport) (time : ReportTime) :
    TrafficNode :=
  let node := { node with active := report.active }
  let total := fun d => reportedBytes (report.flow d)
  if time.dropped then node
  else
    let node := getTodayStat node time.today
    let stat := node.dailyStats
    let stat :=
      if node.online then
        { stat with
          hourlyOnlineTime := Function.update stat.hourlyOnlineTime time.hour
            (stat.hourlyOnlineTime time.hour + REPORT_INTERVAL_SECS) }
      else stat
    let stat :=
      if node.active = 1 then
        { stat with
          hourlyActiveTime := Function.update stat.hourlyActiveTime time.hour
            (stat.hourlyActiveTime time.hour + REPORT_INTERVAL_SECS) }
      else stat
    let stat :=
      if 0 < total .up ∨ 0 < total .down then
        { stat with
          hourlyTraffic := Function.update stat.hourlyTraffic time.hour
            (fun d => stat.hourlyTraffic time.hour d + total d) }
      else stat
    updateOnlineSession { node with dailyStats := stat } total

/-! ## 3. Runs -/

inductive TrafficEvent where
  | packet (dir : Dir) (len : UInt32)
  | tick (blocked : Bool)
  | report (time : ReportTime)

/-- The client, its node, and what its node was credited with in the hours and in the session. -/
structure Accounting where
  client : TrafficClient
  node : TrafficNode
  hourlyCredit : Dir → Int
  sessionCredit : Dir → Int

/-- One event.  The credits are read off the node: a report may begin a new day first. -/
def trafficStep (s : Accounting) : TrafficEvent → Accounting
  | .packet dir len => { s with client := countPacket s.client dir len }
  | .tick blocked => { s with client := afUpdateClientStatus s.client blocked }
  | .report time =>
    let r := afVisitInfoReport s.client
    let node := fwxNetlinkHandler s.node r.1 time
    { client := r.2
      node := node
      hourlyCredit := fun d => s.hourlyCredit d +
        (node.dailyStats.hourlyTraffic time.hour d -
          (getTodayStat s.node time.today).dailyStats.hourlyTraffic time.hour d)
      sessionCredit := fun d => s.sessionCredit d + (node.session.bytes d - s.node.session.bytes d) }

/-- A run from a new client, the last event first. -/
def runTraffic (node : TrafficNode) : List TrafficEvent → Accounting
  | [] => ⟨.new, node, fun _ => 0, fun _ => 0⟩
  | event :: earlier => trafficStep (runTraffic node earlier) event

namespace Traffic

/-- The bytes of the packets. -/
def seen (d : Dir) : List TrafficEvent → Int
  | [] => 0
  | .packet dir len :: es => seen d es + (if dir = d then (len.toNat : Int) else 0)
  | .tick _ :: es => seen d es
  | .report _ :: es => seen d es

/-- The bytes seen up to the last tick. -/
def ticked (d : Dir) : List TrafficEvent → Int
  | [] => 0
  | .tick _ :: es => seen d es
  | .packet _ _ :: es => ticked d es
  | .report _ :: es => ticked d es

/-- What the ticks passed over: the bytes of the first tick that saw any. -/
def skipped (d : Dir) : List TrafficEvent → Int
  | [] => 0
  | .tick _ :: es => if ticked d es = 0 then seen d es else skipped d es
  | .packet _ _ :: es => skipped d es
  | .report _ :: es => skipped d es

/-- The bytes seen up to the last tick before the last report. -/
def reported (d : Dir) : List TrafficEvent → Int
  | [] => 0
  | .report _ :: es => ticked d es
  | .packet _ _ :: es => reported d es
  | .tick _ :: es => reported d es

/-- What the ticks before the last report passed over. -/
def reportedSkipped (d : Dir) : List TrafficEvent → Int
  | [] => 0
  | .report _ :: es => skipped d es
  | .packet _ _ :: es => reportedSkipped d es
  | .tick _ :: es => reportedSkipped d es

/-- The bytes for the next report: those counted since the last one. -/
def period (d : Dir) (es : List TrafficEvent) : Int :=
  (ticked d es - skipped d es) - (reported d es - reportedSkipped d es)

/-- What the reports cut off. -/
def remainders (d : Dir) : List TrafficEvent → Int
  | [] => 0
  | .report _ :: es => remainders d es + period d es % 1024
  | .packet _ _ :: es => remainders d es
  | .tick _ :: es => remainders d es

def reports : List TrafficEvent → Nat
  | [] => 0
  | .report _ :: es => reports es + 1
  | .packet _ _ :: es => reports es
  | .tick _ :: es => reports es

/-- No report is about 2 TiB or more, which its number of KiB has no room for. -/
def PeriodsFit (d : Dir) : List TrafficEvent → Prop
  | [] => True
  | .report _ :: es => period d es < 2 ^ 41 ∧ PeriodsFit d es
  | .packet _ _ :: es => PeriodsFit d es
  | .tick _ :: es => PeriodsFit d es

/-- Every report is outside the first 120 seconds of its day. -/
def Delivered (es : List TrafficEvent) : Prop :=
  ∀ time, .report time ∈ es → time.dropped = false

/-! ## 4. The counters of a run -/

theorem ticked_bounds (d : Dir) (es : List TrafficEvent) :
    0 ≤ ticked d es ∧ ticked d es ≤ seen d es := by
  induction es with
  | nil => exact ⟨le_rfl, le_rfl⟩
  | cons e es ih =>
    cases e with
    | packet dir len =>
      have hlen : (0 : Int) ≤ if dir = d then (len.toNat : Int) else 0 := by split <;> omega
      exact ⟨ih.1, by simp only [ticked, seen]; omega⟩
    | tick _ => exact ⟨by simp only [ticked]; omega, le_rfl⟩
    | report _ => exact ih

/-- The ticks pass over nothing that they do not see, and nothing at all if they see nothing. -/
theorem skipped_bounds (d : Dir) (es : List TrafficEvent) :
    0 ≤ skipped d es ∧ skipped d es ≤ ticked d es := by
  induction es with
  | nil => exact ⟨le_rfl, le_rfl⟩
  | cons e es ih =>
    cases e with
    | packet dir len => exact ih
    | report _ => exact ih
    | tick _ =>
      have hb := ticked_bounds d es
      simp only [skipped, ticked]
      split <;> omega

/-- Between two ticks the counted bytes only grow. -/
theorem counted_tick (d : Dir) (blocked : Bool) (es : List TrafficEvent) :
    ticked d es - skipped d es ≤ ticked d (.tick blocked :: es) - skipped d (.tick blocked :: es) := by
  have hb := ticked_bounds d es
  have hs := skipped_bounds d es
  simp only [skipped, ticked]
  split <;> omega

theorem period_nonneg (d : Dir) (es : List TrafficEvent) : 0 ≤ period d es := by
  induction es with
  | nil => exact le_rfl
  | cons e es ih =>
    cases e with
    | packet dir len => exact ih
    | report _ => simp [period, ticked, skipped, reported, reportedSkipped]
    | tick blocked =>
      have hc := counted_tick d blocked es
      simp only [period, reported, reportedSkipped] at ih ⊢
      omega

/-- The kernel's counters after a run. -/
structure CountersOf (client : TrafficClient) (es : List TrafficEvent) (d : Dir) : Prop where
  flow : client.flow.bytes d = seen d es
  last : client.lastFlow.bytes d = ticked d es
  period : client.periodFlow.bytes d = period d es

end Traffic

open Traffic

/-- What a tick does to the counters, whichever way it goes on. -/
theorem afUpdateClientStatus_counters (client : TrafficClient) (blocked : Bool) (d : Dir) :
    (afUpdateClientStatus client blocked).flow = client.flow ∧
    (afUpdateClientStatus client blocked).lastFlow = client.flow ∧
    (afUpdateClientStatus client blocked).periodFlow.bytes d =
      if 0 < client.lastFlow.bytes d then
        client.periodFlow.bytes d + (client.flow.bytes d - client.lastFlow.bytes d)
      else client.periodFlow.bytes d := by
  unfold afUpdateClientStatus
  dsimp only
  split
  · exact ⟨rfl, rfl, rfl⟩
  · split
    · exact ⟨rfl, rfl, rfl⟩
    · exact ⟨rfl, rfl, rfl⟩

/-- **The four counters**: the total, what the last tick saw, and the period, after any run. -/
theorem traffic_state (node : TrafficNode) (es : List TrafficEvent) (d : Dir) :
    CountersOf (runTraffic node es).client es d := by
  induction es with
  | nil => exact ⟨rfl, rfl, rfl⟩
  | cons e es ih =>
    obtain ⟨hflow, hlast, hperiod⟩ := ih
    cases e with
    | packet dir len =>
      refine ⟨?_, hlast, hperiod⟩
      show (countPacket (runTraffic node es).client dir len).flow.bytes d = _
      by_cases hd : d = dir
      · subst hd
        simp [countPacket, seen, hflow]
      · simp [countPacket, seen, hflow, Function.update_of_ne hd, Ne.symm hd]
    | tick blocked =>
      obtain ⟨h1, h2, h3⟩ := afUpdateClientStatus_counters (runTraffic node es).client blocked d
      refine ⟨(congrArg (·.bytes d) h1).trans hflow, (congrArg (·.bytes d) h2).trans hflow,
        h3.trans ?_⟩
      have hb := ticked_bounds d es
      have hs := skipped_bounds d es
      rw [hflow, hlast, hperiod]
      simp only [period, ticked, skipped, reported, reportedSkipped]
      -- nothing was ticked before: the whole of it is passed over
      by_cases h0 : ticked d es = 0
      · rw [if_neg (by omega), if_pos h0]
        omega
      · rw [if_pos (by omega), if_neg h0]
        omega
    | report time =>
      refine ⟨hflow, hlast, ?_⟩
      simp [runTraffic, trafficStep, afVisitInfoReport, FlowStat.zero, period, ticked, skipped,
        reported, reportedSkipped]

/-! ## 5. What is credited -/

/-- A period that fits comes back as whole KiB. -/
theorem reportedBytes_reportedKib {bytes : Int} (h0 : 0 ≤ bytes) (h1 : bytes < 2 ^ 41) :
    (reportedBytes (reportedKib bytes) : Int) = bytes - bytes % 1024 := by
  have hshift : bytes >>> (10 : Nat) = bytes / 1024 := Int.shiftRight_eq_div_pow bytes 10
  have hkib : reportedKib bytes = bytes / 1024 := by
    unfold reportedKib
    rw [hshift, Int.emod_eq_of_lt (by omega) (by omega), Kernel.toInt32_self (by omega) (by omega)]
  rw [hkib, reportedBytes, Int.emod_eq_of_lt (by omega) (by omega)]
  omega

theorem getTodayStat_online (node : TrafficNode) (today : Nat) :
    (getTodayStat node today).online = node.online := by
  unfold getTodayStat
  split <;> rfl

theorem getTodayStat_session (node : TrafficNode) (today : Nat) :
    (getTodayStat node today).session = node.session := by
  unfold getTodayStat
  split <;> rfl

/-- The day is chosen without looking at whether the client is active. -/
theorem getTodayStat_active (node : TrafficNode) (active : Int) (today : Nat) :
    (getTodayStat { node with active := active } today).dailyStats =
      (getTodayStat node today).dailyStats := by
  unfold getTodayStat
  split <;> rfl

theorem fwxNetlinkHandler_online (node : TrafficNode) (report : TrafficReport) (time : ReportTime) :
    (fwxNetlinkHandler node report time).online = node.online := by
  unfold fwxNetlinkHandler updateOnlineSession
  dsimp only
  split
  · rfl
  · split <;> simp only [getTodayStat_online]

/-- A delivered report is credited to its hour and to the session of a client that is online. -/
theorem fwxNetlinkHandler_credit {node : TrafficNode} {report : TrafficReport} {time : ReportTime}
    (hon : node.online = true) (htime : time.dropped = false) (d : Dir) :
    (fwxNetlinkHandler node report time).dailyStats.hourlyTraffic time.hour d =
        (getTodayStat node time.today).dailyStats.hourlyTraffic time.hour d +
          reportedBytes (report.flow d) ∧
      (fwxNetlinkHandler node report time).session.bytes d =
        node.session.bytes d + reportedBytes (report.flow d) := by
  have hon' : (getTodayStat { node with active := report.active } time.today).online = true :=
    (getTodayStat_online _ _).trans hon
  have hsession := getTodayStat_session { node with active := report.active } time.today
  have hstat := getTodayStat_active node report.active time.today
  unfold fwxNetlinkHandler updateOnlineSession
  simp only [htime, hon', Bool.false_eq_true, if_false, if_true, hsession, hstat, and_true]
  by_cases htotal : 0 < reportedBytes (report.flow .up) ∨ 0 < reportedBytes (report.flow .down)
  · rw [if_pos htotal]
    split <;> simp
  · -- a report of nothing leaves the hour alone, and is worth nothing
    have hzero : reportedBytes (report.flow d) = 0 := by cases d <;> omega
    rw [if_neg htotal]
    split <;> simp [hzero]

/-- What a run credited, in the hours and in the session: a delivered report adds the same to both. -/
theorem trafficStep_report {s : Accounting} {time : ReportTime} (hon : s.node.online = true)
    (htime : time.dropped = false) (d : Dir) :
    (trafficStep s (.report time)).hourlyCredit d =
        s.hourlyCredit d + reportedBytes (reportedKib (s.client.periodFlow.bytes d)) ∧
      (trafficStep s (.report time)).sessionCredit d =
        s.sessionCredit d + reportedBytes (reportedKib (s.client.periodFlow.bytes d)) := by
  obtain ⟨h1, h2⟩ := @fwxNetlinkHandler_credit _ (afVisitInfoReport s.client).1 _ hon htime d
  simp only [trafficStep, h1, h2]
  constructor <;> (push_cast [afVisitInfoReport]; omega)

theorem runTraffic_online {node : TrafficNode} (hon : node.online = true)
    (es : List TrafficEvent) : (runTraffic node es).node.online = true := by
  induction es with
  | nil => exact hon
  | cons e es ih =>
    cases e with
    | packet dir len => exact ih
    | tick blocked => exact ih
    | report time => exact (fwxNetlinkHandler_online _ _ _).trans ih

/-- **What is credited**: what was counted up to the last tick before the last report, less what
each report cut off. -/
theorem credited_eq {node : TrafficNode} (hon : node.online = true) {es : List TrafficEvent}
    (hdelivered : Delivered es) {d : Dir} (hfit : PeriodsFit d es) :
    (runTraffic node es).hourlyCredit d = reported d es - reportedSkipped d es - remainders d es ∧
    (runTraffic node es).sessionCredit d = reported d es - reportedSkipped d es - remainders d es := by
  induction es with
  | nil => exact ⟨rfl, rfl⟩
  | cons e es ih =>
    have hdelivered' : Delivered es := fun time h => hdelivered time (List.mem_cons_of_mem _ h)
    cases e with
    | packet dir len => exact ih hdelivered' hfit
    | tick blocked => exact ih hdelivered' hfit
    | report time =>
      obtain ⟨ih1, ih2⟩ := ih hdelivered' hfit.2
      obtain ⟨h1, h2⟩ := trafficStep_report (runTraffic_online hon es)
        (hdelivered time (List.mem_cons_self ..)) d
      rw [(traffic_state node es d).period,
        reportedBytes_reportedKib (period_nonneg d es) hfit.1] at h1 h2
      constructor
      · refine h1.trans ?_
        rw [ih1]
        simp only [reported, reportedSkipped, remainders, period]
        omega
      · refine h2.trans ?_
        rw [ih2]
        simp only [reported, reportedSkipped, remainders, period]
        omega

theorem remainders_nonneg (d : Dir) (es : List TrafficEvent) : 0 ≤ remainders d es := by
  induction es with
  | nil => exact le_rfl
  | cons e es ih =>
    cases e with
    | packet dir len => exact ih
    | tick blocked => exact ih
    | report time =>
      have := Int.emod_nonneg (period d es) (by decide : (1024 : Int) ≠ 0)
      simp only [remainders]
      omega

theorem reportedSkipped_nonneg (d : Dir) (es : List TrafficEvent) : 0 ≤ reportedSkipped d es := by
  induction es with
  | nil => exact le_rfl
  | cons e es ih =>
    cases e with
    | packet dir len => exact ih
    | tick blocked => exact ih
    | report time => exact (skipped_bounds d es).1

/-- The credit of `es` keeps to its bytes: none too many, and under 1024 too few for each report. -/
def Conserved (credit : Int) (d : Dir) (es : List TrafficEvent) : Prop :=
  credit ≤ reported d es ∧ (0 < reports es → reported d es < credit + 1024 * reports es)

/-- **Traffic is conserved exactly when the ticks passed over little enough** to be made up for by
what the reports could have cut off and did not. -/
theorem traffic_conserved_iff {node : TrafficNode} (hon : node.online = true)
    {es : List TrafficEvent} (hdelivered : Delivered es) (d : Dir) (hfit : PeriodsFit d es) :
    (Conserved ((runTraffic node es).hourlyCredit d) d es ∧
      Conserved ((runTraffic node es).sessionCredit d) d es) ↔
    (0 < reports es → reportedSkipped d es + remainders d es < 1024 * reports es) := by
  obtain ⟨h1, h2⟩ := credited_eq hon hdelivered hfit
  have hr := remainders_nonneg d es
  have hs := reportedSkipped_nonneg d es
  unfold Conserved
  rw [h1, h2]
  constructor
  · rintro ⟨⟨-, h⟩, -⟩ hpos
    have := h hpos
    omega
  · intro h
    have hboth : 0 < reports es →
        reported d es < reported d es - reportedSkipped d es - remainders d es + 1024 * reports es := by
      intro hpos
      have := h hpos
      omega
    exact ⟨⟨by omega, hboth⟩, ⟨by omega, hboth⟩⟩

/-- A client online since before eight in the evening of day 86400. -/
def eveningNode : TrafficNode where
  online := true
  active := 0
  dailyStats := ⟨86400, true, fun _ _ => 0, fun _ => 0, fun _ => 0⟩
  saved := []
  session := ⟨fun _ => 0, 0, 0⟩

def evening : ReportTime := ⟨158400, 86400, ⟨20, by decide⟩⟩

/-- Sixty bytes before the first tick, three thousand before the second: the report of two KiB is
less than a KiB short. -/
def quietStart : List TrafficEvent :=
  [.report evening, .tick false, .packet .down 1500, .packet .down 1500, .tick false, .packet .down 60]

/-- The same bytes, with all of them before the first tick. -/
def busyStart : List TrafficEvent :=
  [.report evening, .tick false, .packet .down 60, .packet .down 1500, .packet .down 1500]

theorem delivered_quietStart : Delivered quietStart := by
  intro time h
  simp only [quietStart, List.mem_cons, reduceCtorEq, TrafficEvent.report.injEq, List.not_mem_nil,
    or_false] at h
  rw [h]
  decide

theorem traffic_conserved_quietStart :
    Conserved ((runTraffic eveningNode quietStart).hourlyCredit .down) .down quietStart ∧
      Conserved ((runTraffic eveningNode quietStart).sessionCredit .down) .down quietStart :=
  (traffic_conserved_iff rfl delivered_quietStart .down ⟨by decide, trivial⟩).mpr (by decide)

/-- **A busy first tick is lost**: of 3060 bytes before it nothing is credited. -/
theorem traffic_lost_busyStart :
    eveningNode.online = true ∧ evening.dropped = false ∧ reports busyStart = 1 ∧
    reported .down busyStart = 3060 ∧
    (runTraffic eveningNode busyStart).hourlyCredit .down = 0 ∧
    (runTraffic eveningNode busyStart).sessionCredit .down = 0 ∧
    ¬ Conserved ((runTraffic eveningNode busyStart).hourlyCredit .down) .down busyStart := by
  refine ⟨rfl, by decide, by decide, by decide, by decide, by decide, ?_⟩
  rintro ⟨-, h⟩
  exact absurd (h (by decide)) (by decide)

end Oaf
