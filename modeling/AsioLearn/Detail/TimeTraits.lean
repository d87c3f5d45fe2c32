import AsioLearn.Detail.TimerQueue
import Mathlib.Algebra.Order.Group.Int
import Mathlib.Data.Int.Order.Basic
import Mathlib.Order.Basic

/-!
# `chrono_time_traits` and the timeouts of the reactor

Times and durations are numbers of ticks of 64 bits, where an overflow is undefined.

* `nearest`: sums and differences saturate, and nothing overflows on the way.
* `durationCast_iff`: what a duration is in other units, and when it cannot be calculated.
* `getTimeout_spec`: the timer descriptor wakes the reactor up in time for the first wait.
* `waitTimeout_spec`: so does the timeout of `epoll_wait` where there is no timer descriptor.
-/

namespace AsioLearn.Detail

/-! ## Ticks -/

def minTicks : ℤ := -9223372036854775808

def maxTicks : ℤ := 9223372036854775807

/-- A `time_point` or a `duration`. -/
@[ext]
structure Ticks where
  val : ℤ
  fits : minTicks ≤ val ∧ val ≤ maxTicks

namespace Ticks

instance : LinearOrder Ticks :=
  @LinearOrder.lift' Ticks ℤ Int.instLinearOrder Ticks.val fun _ _ => Ticks.ext

theorem le_iff {t u : Ticks} : t ≤ u ↔ t.val ≤ u.val := Iff.rfl

theorem lt_iff {t u : Ticks} : t < u ↔ t.val < u.val := Iff.rfl

def zero : Ticks := ⟨0, by unfold minTicks maxTicks; omega⟩

def min : Ticks := ⟨minTicks, by unfold minTicks maxTicks; omega⟩

def max : Ticks := ⟨maxTicks, by unfold minTicks maxTicks; omega⟩

/-- The result of a calculation, unless it overflows. -/
def ofInt (z : ℤ) : Option Ticks :=
  if h : minTicks ≤ z ∧ z ≤ maxTicks then some ⟨z, h⟩ else none

/-- The nearest number of ticks. -/
def clamp (z : ℤ) : Ticks :=
  if hlow : z < minTicks then min else if hhigh : maxTicks < z then max else ⟨z, by omega⟩

theorem ofInt_eq_clamp {z : ℤ} (hlow : minTicks ≤ z) (hhigh : z ≤ maxTicks) :
    ofInt z = some (clamp z) := by
  unfold ofInt clamp
  rw [dif_pos ⟨hlow, hhigh⟩, dif_neg (by omega), dif_neg (by omega)]

theorem clamp_of_le {z : ℤ} (h : z ≤ minTicks) : clamp z = min := by
  unfold clamp
  split_ifs with hlow hhigh
  · rfl
  · unfold minTicks maxTicks at *
    omega
  · exact Ticks.ext (by show z = minTicks; omega)

theorem clamp_of_gt {z : ℤ} (h : maxTicks < z) : clamp z = max := by
  unfold clamp
  rw [dif_neg (by unfold minTicks maxTicks at *; omega), dif_pos h]

/-- A positive number of ticks is not more than what it stands for. -/
theorem clamp_le_of_pos {z : ℤ} (h : 0 < (clamp z).val) : (clamp z).val ≤ z := by
  unfold clamp at h ⊢
  split_ifs with hlow hhigh
  · rw [dif_pos hlow] at h
    exact absurd h (by decide)
  · exact le_of_lt hhigh
  · exact le_refl _

/-- No number of ticks is nearer. -/
theorem clamp_nearest (z : ℤ) (x : Ticks) : |(clamp z).val - z| ≤ |x.val - z| := by
  obtain ⟨x, hlow, hhigh⟩ := x
  unfold clamp
  split_ifs with hmin hmax
  · show |minTicks - z| ≤ |x - z|
    rw [abs_of_pos (by omega), abs_of_pos (by omega)]
    omega
  · show |maxTicks - z| ≤ |x - z|
    rw [abs_of_neg (by omega), abs_of_neg (by omega)]
    omega
  · show |z - z| ≤ |x - z|
    rw [Int.sub_self, abs_zero]
    exact abs_nonneg _

end Ticks

open Ticks (ofInt clamp ofInt_eq_clamp clamp_of_le clamp_of_gt clamp_le_of_pos)

/-! ## `chrono_time_traits` -/

/-- `add`. -/
def add (t d : Ticks) : Option Ticks :=
  if Ticks.zero ≤ t then do
    let room ← ofInt (maxTicks - t.val)
    if room < d then return Ticks.max
    ofInt (t.val + d.val)
  else do
    let depth ← ofInt (t.val - minTicks)
    let room ← ofInt (-depth.val)
    if d < room then return Ticks.min
    ofInt (t.val + d.val)

/-- `subtract`. -/
def subtract (t1 t2 : Ticks) : Option Ticks :=
  if Ticks.zero ≤ t1 then
    if Ticks.zero ≤ t2 then ofInt (t1.val - t2.val)
    else if t2 = Ticks.min then some Ticks.max
    else do
      let room ← ofInt (maxTicks - t1.val)
      let depth ← ofInt (0 - t2.val)
      if room < depth then return Ticks.max
      ofInt (t1.val - t2.val)
  else
    if t2 < Ticks.zero then ofInt (t1.val - t2.val)
    else if t1 = Ticks.min then some Ticks.min
    else do
      let room ← ofInt (maxTicks - t2.val)
      let depth ← ofInt (0 - t1.val)
      if room < depth then return Ticks.min
      let difference ← ofInt (t2.val - t1.val)
      ofInt (-difference.val)

theorem ofInt_bind {α : Type} {z : ℤ} (h : minTicks ≤ z ∧ z ≤ maxTicks) (f : Ticks → Option α) :
    (ofInt z >>= f) = f ⟨z, h⟩ := by
  unfold ofInt
  rw [dif_pos h]
  rfl

/-- The sum of a time and a duration saturates. -/
theorem add_eq (t d : Ticks) : add t d = some (clamp (t.val + d.val)) := by
  obtain ⟨t, ht⟩ := t
  obtain ⟨d, hd⟩ := d
  have hmin : minTicks = -maxTicks - 1 := by decide
  have hmax : 0 < maxTicks := by decide
  unfold add
  simp only [Ticks.zero, Ticks.le_iff, Ticks.lt_iff]
  split_ifs with h0
  · rw [ofInt_bind (by omega)]
    dsimp only
    split_ifs with hroom
    · rw [clamp_of_gt (by omega)]
      rfl
    · exact ofInt_eq_clamp (by omega) (by omega)
  · rw [ofInt_bind (by omega), ofInt_bind (by dsimp only; omega)]
    dsimp only
    split_ifs with hroom
    · rw [clamp_of_le (by omega)]
      rfl
    · exact ofInt_eq_clamp (by omega) (by omega)

/-- The difference of two times saturates. -/
theorem subtract_eq (t1 t2 : Ticks) : subtract t1 t2 = some (clamp (t1.val - t2.val)) := by
  obtain ⟨t1, h1⟩ := t1
  obtain ⟨t2, h2⟩ := t2
  have hmin : minTicks = -maxTicks - 1 := by decide
  have hmax : 0 < maxTicks := by decide
  unfold subtract
  simp only [Ticks.zero, Ticks.min, Ticks.le_iff, Ticks.lt_iff, Ticks.mk.injEq]
  split_ifs with hpos1 hpos2 hleast hneg2 hleast
  · exact ofInt_eq_clamp (by omega) (by omega)
  · rw [clamp_of_gt (by omega)]
  · rw [ofInt_bind (by omega), ofInt_bind (by omega)]
    dsimp only
    split_ifs with hroom
    · rw [clamp_of_gt (by omega)]
      rfl
    · exact ofInt_eq_clamp (by omega) (by omega)
  · exact ofInt_eq_clamp (by omega) (by omega)
  · rw [clamp_of_le (by omega)]
    rfl
  · rw [ofInt_bind (by omega), ofInt_bind (by omega)]
    dsimp only
    split_ifs with hroom
    · rw [clamp_of_le (by omega)]
      rfl
    · rw [ofInt_bind (by omega)]
      dsimp only
      rw [ofInt_eq_clamp (by omega) (by omega)]
      congr 2
      omega

/-- **Saturating.** A sum or a difference is calculated without an overflow, and no other number of
ticks is nearer to the exact value. -/
theorem nearest (t u : Ticks) :
    (∃ sum, add t u = some sum ∧
      ∀ x : Ticks, |sum.val - (t.val + u.val)| ≤ |x.val - (t.val + u.val)|) ∧
    ∃ difference, subtract t u = some difference ∧
      ∀ x : Ticks, |difference.val - (t.val - u.val)| ≤ |x.val - (t.val - u.val)| :=
  ⟨⟨_, add_eq t u, Ticks.clamp_nearest _⟩, ⟨_, subtract_eq t u, Ticks.clamp_nearest _⟩⟩

/-! ## `duration_cast` -/

/-- The template `gcd`. -/
def gcd (v1 v2 : ℕ) : ℕ :=
  if h : v2 = 0 then v1
  else
    have := Nat.mod_lt v1 (Nat.pos_of_ne_zero h)
    gcd v2 (v1 % v2)
termination_by v2

theorem gcd_eq (v1 v2 : ℕ) : gcd v1 v2 = Nat.gcd v1 v2 := by
  fun_induction gcd v1 v2 with
  | case1 v1 => rw [Nat.gcd_zero_right]
  | case2 v1 v2 h _ ih => rw [ih, Nat.gcd_comm v1 v2, Nat.gcd_rec v2 v1, Nat.gcd_comm]

/-- The units of a clock, of which `den` are `num` seconds. -/
structure Period where
  num : ℕ
  den : ℕ
  num_pos : 0 < num
  den_pos : 0 < den

/-- The factors by which `duration_cast` multiplies and divides. -/
def castNum (period : Period) (unit : Period) : ℕ :=
  period.num / gcd period.num unit.num * (unit.den / gcd period.den unit.den)

def castDen (period : Period) (unit : Period) : ℕ :=
  unit.num / gcd period.num unit.num * (period.den / gcd period.den unit.den)

/-- `duration_cast`: a number of ticks in the given unit. -/
def durationCast (period unit : Period) (d : Ticks) : Option Ticks :=
  let num : ℤ := castNum period unit
  let den : ℤ := castDen period unit
  if num = 1 ∧ den = 1 then some d
  else if num ≠ 1 ∧ den = 1 then ofInt (d.val * num)
  else if num = 1 ∧ period.den ≠ 1 then ofInt (d.val.tdiv den)
  else do
    let product ← ofInt (d.val * num)
    ofInt (product.val.tdiv den)

theorem castNum_mul (period unit : Period) :
    castNum period unit * (gcd period.num unit.num * gcd period.den unit.den) =
      period.num * unit.den := by
  unfold castNum
  rw [gcd_eq, gcd_eq, Nat.mul_mul_mul_comm, Nat.div_mul_cancel (Nat.gcd_dvd_left ..),
    Nat.div_mul_cancel (Nat.gcd_dvd_right ..)]

theorem castDen_mul (period unit : Period) :
    castDen period unit * (gcd period.num unit.num * gcd period.den unit.den) =
      unit.num * period.den := by
  unfold castDen
  rw [gcd_eq, gcd_eq, Nat.mul_mul_mul_comm, Nat.div_mul_cancel (Nat.gcd_dvd_right ..),
    Nat.div_mul_cancel (Nat.gcd_dvd_left ..)]

/-- The factors are those of the two units. -/
theorem tdiv_castDen (period unit : Period) (z : ℤ) :
    (z * (period.num * unit.den)).tdiv (unit.num * period.den) =
      (z * castNum period unit).tdiv (castDen period unit) := by
  have hpos : 0 < gcd period.num unit.num * gcd period.den unit.den := by
    rw [gcd_eq, gcd_eq]
    exact Nat.mul_pos (Nat.gcd_pos_of_pos_left _ period.num_pos)
      (Nat.gcd_pos_of_pos_left _ period.den_pos)
  have hnum : (period.num * unit.den : ℤ) =
      castNum period unit * (gcd period.num unit.num * gcd period.den unit.den : ℕ) := by
    exact_mod_cast (castNum_mul period unit).symm
  have hden : (unit.num * period.den : ℤ) =
      castDen period unit * (gcd period.num unit.num * gcd period.den unit.den : ℕ) := by
    exact_mod_cast (castDen_mul period unit).symm
  rw [hnum, hden, ← Int.mul_assoc, Int.mul_tdiv_mul_of_pos_left _ _ (by exact_mod_cast hpos)]

/-- A quotient fits where the dividend does. -/
theorem ofInt_tdiv {z : ℤ} (h : minTicks ≤ z ∧ z ≤ maxTicks) (n : ℕ) :
    (ofInt (z.tdiv n)).map Ticks.val = some (z.tdiv n) := by
  have hle : minTicks ≤ z.tdiv n ∧ z.tdiv n ≤ maxTicks := by
    have habs := Int.natAbs_tdiv_le_natAbs z n
    have hmin : minTicks ≤ 0 := by decide
    have hmax : 0 ≤ maxTicks := by decide
    rcases Int.le_total 0 z with hz | hz
    · have hpos := Int.tdiv_nonneg hz (Int.natCast_nonneg n)
      omega
    · have hneg := Int.tdiv_nonneg (Int.neg_nonneg.mpr hz) (Int.natCast_nonneg n)
      rw [Int.neg_tdiv] at hneg
      omega
  unfold ofInt
  rw [dif_pos hle]
  rfl

/-- A duration in another unit is cut off towards zero, unless the product overflows on the way. -/
theorem durationCast_eq (period unit : Period) (d : Ticks)
    (hfits : minTicks ≤ d.val * castNum period unit ∧ d.val * castNum period unit ≤ maxTicks) :
    (durationCast period unit d).map Ticks.val =
      some ((d.val * (period.num * unit.den)).tdiv (unit.num * period.den)) := by
  have hcast := ofInt_tdiv hfits (castDen period unit)
  rw [tdiv_castDen]
  unfold durationCast
  dsimp only
  split_ifs with hboth hdone hnum
  · rw [hboth.1, hboth.2, Int.mul_one, Int.tdiv_one]
    rfl
  · rwa [hdone.2, Int.tdiv_one] at hcast ⊢
  · rwa [hnum.1, Int.mul_one] at hcast ⊢
  · rwa [ofInt_bind hfits]

/-- The ticks of `std::chrono::steady_clock`. -/
def nanoseconds : Period := ⟨1, 1000000000, by decide, by decide⟩

def microseconds : Period := ⟨1, 1000000, by decide, by decide⟩

def milliseconds : Period := ⟨1, 1000, by decide, by decide⟩

/-- `to_usec`, and `to_msec` with milliseconds as the unit. -/
def toUnit (unit : Period) (d : Ticks) (maxDuration : ℤ) : Option ℤ :=
  if d ≤ Ticks.zero then some 0
  else do
    let n ← durationCast nanoseconds unit d
    if n.val = 0 then return 1
    if maxDuration < n.val then return maxDuration
    return n.val

/-- `wait_duration_usec`, and `wait_duration_msec` with milliseconds as the unit. -/
def waitDuration {ι : Type*} (unit : Period) (maxDuration : ℤ) (now : Ticks)
    (queue : TimerQueue.State ι Ticks) : Option ℤ :=
  match queue.heap with
  | [] => some maxDuration
  | entry :: _ => do
    let d ← subtract entry.time now
    toUnit unit d maxDuration

/-- A unit of so many nanoseconds. -/
def Lasts (unit : Period) (length : ℕ) : Prop :=
  0 < length ∧ castNum nanoseconds unit = 1 ∧ castDen nanoseconds unit = length

theorem lasts_microseconds : Lasts microseconds 1000 := by
  unfold Lasts castNum castDen
  simp only [gcd_eq]
  decide

theorem lasts_milliseconds : Lasts milliseconds 1000000 := by
  unfold Lasts castNum castDen
  simp only [gcd_eq]
  decide

section

variable {unit : Period} {length : ℕ} {maxDuration : ℤ}

theorem durationCast_unit (hunit : Lasts unit length) (d : Ticks) :
    (durationCast nanoseconds unit d).map Ticks.val = some (d.val.tdiv length) := by
  obtain ⟨-, hnum, hden⟩ := hunit
  have hcast := durationCast_eq nanoseconds unit d
    (by rw [hnum, Int.ofNat_one, Int.mul_one]; exact d.fits)
  rw [hcast, tdiv_castDen, hnum, hden, Int.ofNat_one, Int.mul_one]

/-- How long to wait: not at all exactly if the time is over, and less than a unit too long. -/
theorem toUnit_spec (hunit : Lasts unit length) (d : Ticks) (hmax : 0 ≤ maxDuration) :
    ∃ n, toUnit unit d maxDuration = some n ∧ 0 ≤ n ∧ n ≤ max 1 maxDuration ∧
      (d.val ≤ 0 → n = 0) ∧ (0 < d.val → n * length < d.val + length) := by
  have hlength := hunit.1
  unfold toUnit
  split_ifs with hover
  · have hd : d.val ≤ 0 := hover
    exact ⟨0, rfl, le_refl _, by omega, fun _ => rfl, by omega⟩
  · have hd : 0 < d.val := not_le.mp hover
    obtain ⟨n, hn, hval⟩ := Option.map_eq_some_iff.mp (durationCast_unit hunit d)
    rw [Int.tdiv_eq_ediv_of_nonneg (le_of_lt hd)] at hval
    have hle : n.val * length ≤ d.val := by
      rw [hval]
      exact Int.ediv_mul_le _ (by omega)
    have hnonneg : 0 ≤ n.val := by
      rw [hval]
      exact Int.ediv_nonneg (le_of_lt hd) (by omega)
    rw [hn, Option.bind_eq_bind, Option.bind_some]
    split_ifs with hzero hlong
    · exact ⟨1, rfl, by omega, by omega, by omega, by omega⟩
    · have hless : maxDuration * length ≤ n.val * length :=
        Int.mul_le_mul_of_nonneg_right (le_of_lt hlong) (by omega)
      exact ⟨maxDuration, rfl, hmax, by omega, by omega, by omega⟩
    · exact ⟨n.val, rfl, hnonneg, by omega, by omega, by omega⟩

/-- The wait for the first timer is never longer than asked for, and it is less than a unit too
long for it. -/
theorem waitDuration_spec {ι : Type*} (hunit : Lasts unit length) (hmax : 0 ≤ maxDuration)
    (now : Ticks) (queue : TimerQueue.State ι Ticks) :
    ∃ n, waitDuration unit maxDuration now queue = some n ∧ 0 ≤ n ∧ n ≤ max 1 maxDuration ∧
      ∀ first, TimerQueue.earliest queue = some first →
        n = 0 ∨ n * length < first.val - now.val + length := by
  unfold waitDuration TimerQueue.earliest
  cases hheap : queue.heap with
  | nil => exact ⟨maxDuration, rfl, hmax, le_max_right .., by simp⟩
  | cons entry rest =>
    obtain ⟨n, hn, hnonneg, hle, hzero, htight⟩ :=
      toUnit_spec hunit (clamp (entry.time.val - now.val)) hmax
    refine ⟨n, ?_, hnonneg, hle, ?_⟩
    · dsimp only
      rw [subtract_eq]
      exact hn
    · intro first heq
      obtain rfl := Option.some.inj heq
      rcases lt_or_ge 0 (clamp (entry.time.val - now.val)).val with hpos | hneg
      · have hclamp := clamp_le_of_pos hpos
        have := htight hpos
        exact Or.inr (by omega)
      · exact Or.inl (hzero hneg)

end

/-- `get_timeout` without a timer descriptor: for how many milliseconds `epoll_wait` may block. -/
def getTimeoutMsec {ι : Type*} (msec : ℤ) (now : Ticks) (queue : TimerQueue.State ι Ticks) :
    Option ℤ :=
  let maxMsec := 5 * 60 * 1000
  waitDuration milliseconds (if msec < 0 ∨ maxMsec < msec then maxMsec else msec) now queue

/-- The conversion of a `long` to an `int`, which has 32 bits. -/
def toInt (n : ℤ) : ℤ := n.bmod 4294967296

theorem toInt_le {n : ℤ} (h : 0 ≤ n) : toInt n ≤ n ∧ (toInt n < 0 → 2147483648 ≤ n) := by
  unfold toInt
  rw [Int.bmod_def]
  split_ifs <;> omega

/-- For how many milliseconds `run` lets `epoll_wait` block: without end if it is negative. -/
def waitTimeout {ι : Type*} (timerFd : Bool) (usec : ℤ) (now : Ticks)
    (queue : TimerQueue.State ι Ticks) : Option ℤ :=
  if usec = 0 then some 0
  else
    let timeout := toInt (if usec < 0 then -1 else (usec - 1).tdiv 1000 + 1)
    if timerFd then some timeout else getTimeoutMsec timeout now queue

/-- **No timer descriptor.** `epoll_wait` does not block for longer than asked for, rounded up to a
millisecond, nor for more than five minutes, nor for a millisecond too long for the first wait. -/
theorem waitTimeout_spec {ι : Type*} (usec : ℤ) (now : Ticks) (queue : TimerQueue.State ι Ticks) :
    ∃ msec, waitTimeout false usec now queue = some msec ∧ 0 ≤ msec ∧ msec ≤ 300000 ∧
      (0 ≤ usec → msec * 1000 < usec + 1000) ∧
      ∀ first, TimerQueue.earliest queue = some first →
        msec = 0 ∨ msec * 1000000 < first.val - now.val + 1000000 := by
  by_cases hpoll : usec = 0
  · refine ⟨0, ?_, le_refl _, by omega, by omega, ?_⟩
    · unfold waitTimeout
      rw [if_pos hpoll]
    · intro _ _
      exact Or.inl rfl
  · obtain ⟨timeout, htimeout⟩ :
        ∃ timeout, timeout = toInt (if usec < 0 then -1 else (usec - 1).tdiv 1000 + 1) := ⟨_, rfl⟩
    -- a timeout that does not fit in an `int` has become a smaller one or the limit
    have hint : 0 < usec → timeout ≤ (usec - 1) / 1000 + 1 ∧
        (timeout < 0 → 2147483648 ≤ (usec - 1) / 1000 + 1) := by
      intro hpos
      rw [htimeout, if_neg (by omega), Int.tdiv_eq_ediv_of_nonneg (by omega)]
      exact toInt_le (by omega)
    obtain ⟨limit, hlimit, hpos, hmost, hasked⟩ :
        ∃ limit, waitTimeout false usec now queue = waitDuration milliseconds limit now queue ∧
          0 ≤ limit ∧ limit ≤ 300000 ∧ (0 < usec → limit ≤ (usec - 1) / 1000 + 1) := by
      refine ⟨if timeout < 0 ∨ 300000 < timeout then 300000 else timeout, ?_, ?_, ?_, ?_⟩
      · rw [htimeout]
        exact if_neg hpoll
      · split_ifs <;> omega
      · split_ifs <;> omega
      · split_ifs <;> omega
    obtain ⟨msec, hmsec, hnonneg, hle, hfirst⟩ :=
      waitDuration_spec lasts_milliseconds hpos now queue
    exact ⟨msec, hlimit.trans hmsec, hnonneg, by omega, fun h => by omega, hfirst⟩

/-- An `itimerspec`, which says when the timer descriptor is to become ready: never if it is zero.
`TFD_TIMER_ABSTIME` makes it a time instead of a duration. -/
structure TimerSpec where
  sec : ℤ
  nsec : ℤ
  absolute : Bool
  deriving DecidableEq, Repr

/-- `get_timeout`. -/
def getTimeout {ι : Type*} (now : Ticks) (queue : TimerQueue.State ι Ticks) : Option TimerSpec := do
  let usec ← waitDuration microseconds (5 * 60 * 1000 * 1000) now queue
  return { sec := usec.tdiv 1000000
           nsec := if usec ≠ 0 then usec.tmod 1000000 * 1000 else 1
           absolute := usec = 0 }

/-- When the timer descriptor becomes ready after `timerfd_settime`. -/
def TimerSpec.wakeTime (spec : TimerSpec) (now : Ticks) : ℤ :=
  if spec.absolute then spec.sec * 1000000000 + spec.nsec
  else now.val + (spec.sec * 1000000000 + spec.nsec)

section

variable {ι : Type*} (now : Ticks) (queue : TimerQueue.State ι Ticks)

/-- The timer descriptor is always armed: with a value that `timerfd_settime` takes for a time and
not for none, at most five minutes ahead. -/
theorem getTimeout_spec : ∃ spec, getTimeout now queue = some spec ∧
    0 ≤ spec.sec ∧ 0 ≤ spec.nsec ∧ spec.nsec < 1000000000 ∧ ¬ (spec.sec = 0 ∧ spec.nsec = 0) ∧
    spec.wakeTime now ≤ max 1 (now.val + 300000000000) ∧
    ∀ first, TimerQueue.earliest queue = some first →
      spec.wakeTime now ≤ 1 ∨ spec.wakeTime now < first.val + 1000 := by
  obtain ⟨usec, husec, hnonneg, hlong, hfirst⟩ := waitDuration_spec lasts_microseconds
    (show (0 : ℤ) ≤ 5 * 60 * 1000 * 1000 by omega) now queue
  have hdiv := Int.tdiv_eq_ediv_of_nonneg (b := 1000000) hnonneg
  have hmod := Int.tmod_eq_emod_of_nonneg (b := 1000000) hnonneg
  by_cases hzero : usec = 0
  · refine ⟨⟨0, 1, true⟩, ?_, by simp, by simp, by simp, by simp, ?_, ?_⟩
    · unfold getTimeout
      rw [husec, hzero]
      rfl
    · exact le_max_left ..
    · intro first _
      exact Or.inl (le_refl _)
  · have hspec : getTimeout now queue =
        some ⟨usec.tdiv 1000000, usec.tmod 1000000 * 1000, false⟩ := by
      unfold getTimeout
      rw [husec]
      show some (TimerSpec.mk _ _ _) = _
      rw [if_pos hzero, decide_eq_false hzero]
    have hwake : TimerSpec.wakeTime ⟨usec.tdiv 1000000, usec.tmod 1000000 * 1000, false⟩ now =
        now.val + usec * 1000 := by
      show now.val + (usec.tdiv 1000000 * 1000000000 + usec.tmod 1000000 * 1000) = _
      rw [hdiv, hmod]
      omega
    refine ⟨_, hspec, ?_, ?_, ?_, ?_, ?_, ?_⟩
    · dsimp only
      omega
    · dsimp only
      omega
    · dsimp only
      omega
    · dsimp only
      omega
    · rw [hwake]
      exact le_trans (by omega) (le_max_right ..)
    · intro first heq
      rw [hwake]
      have := hfirst first heq
      omega

end

end AsioLearn.Detail
