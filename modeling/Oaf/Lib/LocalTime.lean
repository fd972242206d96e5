/-
# Local time

`localtime` and `mktime` of a zone, and the seconds of an interval by the local hour they are in.

* `TimeZone.Steady`: one offset from UTC over an interval, on which the two functions agree.
* `mktime_nextHour`: what `mktime` makes of the hour that comes next.
* `secondsIn_add`, `sum_secondsIn`, `secondsIn_le`: the seconds of an hour are additive, they are all
  there over the 24 hours, and an interval of a day has at most 3600 of each.
-/
import Mathlib.Algebra.BigOperators.Fin
import Mathlib.Algebra.Order.BigOperators.Group.Finset
import Mathlib.Data.Int.ConditionallyCompleteOrder
import Mathlib.Data.Int.Interval
import Mathlib.Order.ConditionallyCompleteLattice.Indexed

namespace CLib

/-! ## 1. Zones -/

/-- `struct tm`.  `tmDate` is the day that `tm_year`, `tm_mon` and `tm_mday` name, as a count. -/
structure Tm where
  tmDate : Int
  tmHour : Int
  tmMin : Int
  tmSec : Int
deriving DecidableEq

/-- The fields of a count of local seconds. -/
def Tm.ofSeconds (s : Int) : Tm := ⟨s / 86400, s / 3600 % 24, s / 60 % 60, s % 60⟩

/-- The local seconds that the fields come to, also when they are out of their ranges. -/
def Tm.seconds (tm : Tm) : Int := tm.tmDate * 86400 + tm.tmHour * 3600 + tm.tmMin * 60 + tm.tmSec

/-- The two functions of a zone.  `localtime` may fail. -/
structure TimeZone where
  localtime : Int → Option Tm
  mktime : Tm → Int

/-- From `lo` to `hi` the zone keeps one offset: the times that `mktime` gives there are those that
`localtime` reads so.  An hour after `hi` begins at most an hour later than the offset says. -/
structure TimeZone.Steady (zone : TimeZone) (offset lo hi : Int) : Prop where
  localtime_eq : ∀ t, lo ≤ t → t ≤ hi → zone.localtime t = some (.ofSeconds (t + offset))
  mktime_eq_iff : ∀ tm t, lo ≤ t → t ≤ hi → (zone.mktime tm = t ↔ tm.seconds = t + offset)
  mktime_le : ∀ tm : Tm, hi < tm.seconds - offset → tm.seconds - offset ≤ hi + 3600 →
    zone.mktime tm ≤ hi + 7200

/-- A zone with one offset for all time. -/
def TimeZone.fixed (offset : Int) : TimeZone :=
  ⟨fun t => some (.ofSeconds (t + offset)), fun tm => tm.seconds - offset⟩

theorem TimeZone.fixed_steady (offset lo hi : Int) : (fixed offset).Steady offset lo hi where
  localtime_eq _ _ _ := rfl
  mktime_eq_iff tm t _ _ := by
    simp only [fixed]
    omega
  mktime_le tm _ h := by
    simp only [fixed]
    omega

/-! ## 2. Hours -/

/-- The local hour of a time. -/
def hourOf (offset t : Int) : Int := (t + offset) / 3600 % 24

theorem hourOf_nonneg (offset t : Int) : 0 ≤ hourOf offset t := by
  simp only [hourOf]
  omega

theorem hourOf_lt (offset t : Int) : hourOf offset t < 24 := by
  simp only [hourOf]
  omega

/-- When the local hour after that of `t` begins. -/
def nextHour (offset t : Int) : Int := t + 3600 - (t + offset) % 3600

theorem lt_nextHour (offset t : Int) : t < nextHour offset t := by
  simp only [nextHour]
  omega

theorem nextHour_le (offset t : Int) : nextHour offset t ≤ t + 3600 := by
  simp only [nextHour]
  omega

/-- Up to the next hour it is the same hour. -/
theorem hourOf_eq_of_lt_nextHour {offset t u : Int} (h : t ≤ u) (hu : u < nextHour offset t) :
    hourOf offset u = hourOf offset t := by
  simp only [hourOf, nextHour] at *
  omega

/-- The fields with which `mktime` is asked for the next hour. -/
def Tm.nextHour (tm : Tm) : Tm := { tm with tmMin := 0, tmSec := 0, tmHour := tm.tmHour + 1 }

theorem Tm.seconds_nextHour (offset t : Int) :
    (Tm.ofSeconds (t + offset)).nextHour.seconds = CLib.nextHour offset t + offset := by
  simp only [Tm.seconds, Tm.nextHour, Tm.ofSeconds, CLib.nextHour]
  omega

/-- The next hour is found if it begins in the interval.  If not, what is found is not in the
interval either. -/
theorem TimeZone.Steady.mktime_nextHour {zone : TimeZone} {offset lo hi t : Int}
    (hz : zone.Steady offset lo hi) (hlo : lo ≤ t) (hhi : t ≤ hi) :
    let next := zone.mktime (Tm.ofSeconds (t + offset)).nextHour
    if nextHour offset t ≤ hi then next = nextHour offset t
    else next < lo ∨ hi < next ∧ next ≤ hi + 7200 := by
  have hsec := Tm.seconds_nextHour offset t
  have hlt := lt_nextHour offset t
  have hle := nextHour_le offset t
  split
  · rename_i hin
    exact (hz.mktime_eq_iff _ _ (by omega) hin).mpr hsec
  · rename_i hout
    have hbound := hz.mktime_le (Tm.ofSeconds (t + offset)).nextHour (by omega) (by omega)
    by_contra hcon
    have heq := (hz.mktime_eq_iff (Tm.ofSeconds (t + offset)).nextHour _ (by omega) (by omega)).mp rfl
    omega

/-! ## 3. The seconds of an hour -/

/-- How many seconds from `a` to `b` are in the local hour `h` of some day. -/
noncomputable def secondsIn (offset a b h : Int) : Nat :=
  ((Finset.Ico a b).filter fun t => hourOf offset t = h).card

theorem secondsIn_self (offset a h : Int) : secondsIn offset a a h = 0 := by
  simp [secondsIn]

theorem secondsIn_add {a m b : Int} (offset h : Int) (ham : a ≤ m) (hmb : m ≤ b) :
    secondsIn offset a b h = secondsIn offset a m h + secondsIn offset m b h := by
  unfold secondsIn
  rw [← Finset.Ico_union_Ico_eq_Ico ham hmb, Finset.filter_union, Finset.card_union_of_disjoint]
  refine Finset.disjoint_filter_filter ?_
  exact Finset.Ico_disjoint_Ico_consecutive a m b

/-- Within one hour all the seconds are in that hour. -/
theorem secondsIn_of_le_nextHour {a b : Int} (offset h : Int) (hb : b ≤ nextHour offset a) :
    secondsIn offset a b h = if hourOf offset a = h then (b - a).toNat else 0 := by
  have hsame : ∀ t ∈ Finset.Ico a b, hourOf offset t = hourOf offset a := by
    intro t ht
    obtain ⟨hat, htb⟩ := Finset.mem_Ico.mp ht
    exact hourOf_eq_of_lt_nextHour hat (by omega)
  unfold secondsIn
  split
  · rename_i heq
    rw [Finset.filter_true_of_mem fun t ht => (hsame t ht).trans heq, Int.card_Ico]
  · rename_i hne
    rw [Finset.filter_false_of_mem fun t ht heq => hne ((hsame t ht).symm.trans heq)]
    rfl

/-- The 24 hours have all the seconds between them. -/
theorem sum_secondsIn (offset a b : Int) :
    ∑ h : Fin 24, secondsIn offset a b h = (b - a).toNat := by
  rw [← Int.card_Ico]
  let hour : Int → Fin 24 := fun t =>
    ⟨(hourOf offset t).toNat, by
      have := hourOf_lt offset t
      have := hourOf_nonneg offset t
      omega⟩
  rw [Finset.card_eq_sum_card_fiberwise (f := hour) (t := Finset.univ) fun _ _ => Finset.mem_univ _]
  refine Finset.sum_congr rfl fun h _ => congrArg Finset.card (Finset.filter_congr fun t _ => ?_)
  have := hourOf_nonneg offset t
  simp only [hour, Fin.ext_iff]
  omega

/-- In at most a day, an hour has at most its 3600 seconds. -/
theorem secondsIn_le {a b : Int} (offset h : Int) (hday : b - a ≤ 86400) :
    secondsIn offset a b h ≤ 3600 := by
  have hcard : (Finset.Ico (h * 3600) (h * 3600 + 3600)).card = 3600 := by
    rw [Int.card_Ico]
    omega
  unfold secondsIn
  rw [← hcard]
  refine Finset.card_le_card_of_injOn (fun t => (t + offset) % 86400) ?_ ?_
  · intro t ht
    have hh := (Finset.mem_filter.mp ht).2
    simp only [hourOf] at hh
    simp only [Finset.coe_Ico, Set.mem_Ico]
    omega
  · intro t ht u hu heq
    have ht := Finset.mem_Ico.mp (Finset.mem_filter.mp ht).1
    have hu := Finset.mem_Ico.mp (Finset.mem_filter.mp hu).1
    simp only at heq
    omega

end CLib
