import Mathlib.Algebra.Order.Field.Rat
import Mathlib.Tactic.NormNum
import LibDronecan.Machinery.Loop
import LibDronecan.Pal.Deadline

/-!
# Pal/TimedLock — a mutex wait with a deadline

    clock 0 ──trylock──▸ sleep ──clock 1──▸ trylock ──▸ sleep ──▸ …

`pthread_mutex_timedlock` is made up from `trylock` where the platform has none.  Its loop is to go
on while the clock is before the deadline, and its condition says the reverse: before the deadline
the loop is not entered at all and one failed attempt is the end of it, and past the deadline it
tries for ever.  `waitsUntil_iff`: it is right only where that makes no difference.
-/

open Machinery

namespace LibDronecan

namespace TimedLock

/-- `time_diff_us`, in exact arithmetic. -/
def timeDiffUs (ts1 ts2 : Timespec) : ℚ := ((ts1.ns - ts2.ns : ℤ) : ℚ) / 1000

variable (clock : ℕ → Timespec) (trylock : ℕ → ℤ) (ts : Timespec)

/-- The loop of `pthread_mutex_timedlock`, and the attempt behind it.  Reading `k` of the clock is
followed by attempt `k` at the mutex, and the result says which was the last. -/
def lockTurn (k : ℕ) : Turn ℕ (ℕ × ℤ) :=
  if timeDiffUs (clock k) ts > 0 then
    if trylock k = 0 then .leave (k, 0) else .again (k + 1)
  else .leave (k, trylock k)

/-- `pthread_mutex_timedlock`, with the readings of the clock and the results of `trylock` that it
comes by. -/
def pthreadMutexTimedlock (n : ℕ) : Option (ℕ × ℤ) := loop (lockTurn clock trylock ts) n 0

/-- **What a wait with a deadline is**: every attempt but the last failed, with the clock before the
deadline; the last one is the result, and a failure only from the deadline on; and the wait ends,
if an attempt succeeds or the deadline comes. -/
structure WaitsUntil : Prop where
  retries : ∀ n k r, pthreadMutexTimedlock clock trylock ts n = some (k, r) →
    ∀ j < k, trylock j ≠ 0 ∧ (clock j).ns < ts.ns
  result : ∀ n k r, pthreadMutexTimedlock clock trylock ts n = some (k, r) → r = trylock k
  patient : ∀ n k r, pthreadMutexTimedlock clock trylock ts n = some (k, r) →
    (clock k).ns < ts.ns → r = 0
  returns : ∀ j, trylock j = 0 ∨ ts.ns ≤ (clock j).ns →
    ∃ n k r, pthreadMutexTimedlock clock trylock ts n = some (k, r)

variable {clock trylock ts}

/-- The loop goes on past the deadline. -/
theorem timeDiffUs_pos_iff {ts1 ts2 : Timespec} : timeDiffUs ts1 ts2 > 0 ↔ ts2.ns < ts1.ns := by
  rw [timeDiffUs, gt_iff_lt, lt_div_iff₀ (by norm_num), zero_mul, Int.cast_pos, sub_pos]

theorem lockTurn_of_past {k : ℕ} (h : ts.ns < (clock k).ns) :
    lockTurn clock trylock ts k = if trylock k = 0 then .leave (k, 0) else .again (k + 1) :=
  if_pos (timeDiffUs_pos_iff.mpr h)

theorem lockTurn_of_not_past {k : ℕ} (h : ¬ ts.ns < (clock k).ns) :
    lockTurn clock trylock ts k = .leave (k, trylock k) :=
  if_neg fun hpos => h (timeDiffUs_pos_iff.mp hpos)

/-- Attempts are counted upwards. -/
theorem le_of_loop_lockTurn {i n k : ℕ} {r : ℤ}
    (h : loop (lockTurn clock trylock ts) n i = some (k, r)) : i ≤ k := by
  refine loop_induct (P := fun j => i ≤ j) (Q := fun r => i ≤ r.1) (fun j t hj hturn => ?_)
    (fun j r hj hturn => ?_) le_rfl h
  · unfold lockTurn at hturn
    split_ifs at hturn
    obtain rfl := Turn.again.inj hturn
    exact Nat.le_succ_of_le hj
  · unfold lockTurn at hturn
    split_ifs at hturn <;> exact Turn.leave.inj hturn ▸ hj

/-- Where the first attempt is the last, it has to be a success or at the deadline. -/
theorem waitsUntil_of_leave (h : lockTurn clock trylock ts 0 = .leave (0, trylock 0))
    (hpatient : (clock 0).ns < ts.ns → trylock 0 = 0) : WaitsUntil clock trylock ts := by
  have hret : pthreadMutexTimedlock clock trylock ts 1 = some (0, trylock 0) := loop_of_leave h 0
  have honly {n k : ℕ} {r : ℤ} (hr : pthreadMutexTimedlock clock trylock ts n = some (k, r)) :
      (k, r) = (0, trylock 0) := loop_unique hr hret
  refine ⟨fun n k r hr j hj => ?_, fun n k r hr => ?_, fun n k r hr => ?_,
    fun _ _ => ⟨1, 0, _, hret⟩⟩
  · obtain ⟨rfl, rfl⟩ := Prod.mk.inj (honly hr)
    exact absurd hj (Nat.not_lt_zero j)
  · obtain ⟨rfl, rfl⟩ := Prod.mk.inj (honly hr)
    rfl
  · obtain ⟨rfl, rfl⟩ := Prod.mk.inj (honly hr)
    exact hpatient

variable (clock trylock ts)

/-- **`pthread_mutex_timedlock` waits until its deadline exactly if it need not**: its first attempt
succeeds, or its first reading of the clock is the deadline. -/
theorem waitsUntil_iff : WaitsUntil clock trylock ts ↔ trylock 0 = 0 ∨ (clock 0).ns = ts.ns := by
  constructor
  · intro h
    by_contra hne
    obtain ⟨hfail, hns⟩ := not_or.mp hne
    obtain hbefore | hpast := lt_or_gt_of_ne hns
    · -- given up before the deadline
      have hleave : lockTurn clock trylock ts 0 = .leave (0, trylock 0) :=
        lockTurn_of_not_past hbefore.le.not_gt
      exact hfail (h.patient 1 0 _ (loop_of_leave hleave 0) hbefore)
    · -- still trying after it
      have hagain : lockTurn clock trylock ts 0 = .again 1 := by
        rw [lockTurn_of_past hpast, if_neg hfail]
      obtain ⟨n, k, r, hret⟩ := h.returns 0 (Or.inr hpast.le)
      cases n with
      | zero => cases hret
      | succ n =>
        have hrest : loop (lockTurn clock trylock ts) n 1 = some (k, r) :=
          (loop_of_again hagain n).symm.trans hret
        exact hpast.not_gt (h.retries (n + 1) k r hret 0 (le_of_loop_lockTurn hrest)).2
  · rintro (hok | hns)
    · refine waitsUntil_of_leave ?_ fun _ => hok
      by_cases hpast : ts.ns < (clock 0).ns
      · rw [lockTurn_of_past hpast, if_pos hok, hok]
      · exact lockTurn_of_not_past hpast
    · exact waitsUntil_of_leave (lockTurn_of_not_past hns.not_gt)
        fun hlt => absurd hns hlt.ne

/-- **A taken mutex is given up at once**, a second before the deadline. -/
theorem not_forall_waitsUntil : ¬ ∀ (clock : ℕ → Timespec) (trylock : ℕ → ℤ) (ts : Timespec),
    (∀ j k, j ≤ k → (clock j).ns ≤ (clock k).ns) → WaitsUntil clock trylock ts := by
  intro h
  have hleave : lockTurn (fun _ => ⟨0, 0⟩) (fun _ => 16) ⟨1, 0⟩ 0 = .leave (0, 16) :=
    lockTurn_of_not_past (by decide)
  have hwaits := h (fun _ => ⟨0, 0⟩) (fun _ => 16) ⟨1, 0⟩ fun _ _ _ => Int.le_refl _
  exact absurd (hwaits.patient 1 0 16 (loop_of_leave hleave 0) (by decide)) (by decide)

end TimedLock

end LibDronecan
