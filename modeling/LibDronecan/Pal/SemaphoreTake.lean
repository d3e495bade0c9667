import LibDronecan.Pal.Deadline

/-!
# Pal/SemaphoreTake — the deadline of `Semaphore::take`

    tv_sec  += timeout_us / 1000000
    tv_nsec += (timeout_us % 1000000) * 1000        and no carry

The timeout is split into seconds and nanoseconds before it is added, which keeps every product
small.  But both fractions may come to a second or more together, and nothing moves that second over
as `Thread::wait_any` does.  The sum is the right time all the same (`ns_takeDeadline`); it is a
valid `timespec` only if the fractions stay below a second (`validDeadline_iff`), and the call is
refused if they do not.
-/

namespace LibDronecan

namespace Semaphore

/-- The calls `take` may make. -/
inductive MutexCall where
  | lock
  | trylock
  | timedlock (ts : Timespec)

/-- The two lines that add the timeout to the time read. -/
def takeDeadline (ts : Timespec) (timeoutUs : BitVec 32) : Timespec :=
  ⟨ts.tvSec + (timeoutUs.sdiv 1000000).signExtend 64,
    ts.tvNsec + (timeoutUs.srem 1000000 * 1000).signExtend 64⟩

/-- The call that `take` makes, at the time read. -/
def takeCall (now : Timespec) (timeoutUs : BitVec 32) : MutexCall :=
  if timeoutUs = -1 then .lock
  else if timeoutUs = 0 then .trylock
  else .timedlock (takeDeadline now timeoutUs)

/-- `Semaphore::take`, with what its call returns. -/
def take (ret : MutexCall → ℤ) (now : Timespec) (timeoutUs : BitVec 32) : Bool :=
  ret (takeCall now timeoutUs) == 0

/-- **The deadline is valid**: normalised, and the timeout after the time read. -/
def ValidDeadline (now : Timespec) (timeoutUs : BitVec 32) : Prop :=
  ∃ ts, takeCall now timeoutUs = .timedlock ts ∧ ts.Normal ∧
    ts.ns = now.ns + timeoutUs.toInt * 1000

/-- The fractions stay below a second, and the seconds within 64 bits. -/
def NoCarry (now : Timespec) (timeoutUs : BitVec 32) : Prop :=
  now.tvNsec.toInt + timeoutUs.toInt % 1000000 * 1000 < 1000000000 ∧
    now.tvSec.toInt + timeoutUs.toInt / 1000000 < 2 ^ 63

instance (now : Timespec) (timeoutUs : BitVec 32) : Decidable (NoCarry now timeoutUs) :=
  inferInstanceAs (Decidable (_ ∧ _))

variable {now : Timespec} {timeoutUs : BitVec 32}

theorem takeCall_of_pos (hpos : 0 < timeoutUs.toInt) :
    takeCall now timeoutUs = .timedlock (takeDeadline now timeoutUs) := by
  rw [takeCall, if_neg, if_neg]
  · rintro rfl
    exact absurd hpos (by decide)
  · rintro rfl
    exact absurd hpos (by decide)

/-- The seconds of the timeout. -/
theorem toInt_seconds (hpos : 0 < timeoutUs.toInt) :
    ((timeoutUs.sdiv 1000000).signExtend 64).toInt = timeoutUs.toInt / 1000000 := by
  have hmax := BitVec.toInt_lt (x := timeoutUs)
  have hmillion : (1000000 : BitVec 32).toInt = 1000000 := by decide
  rw [BitVec.toInt_signExtend_of_le (by decide), BitVec.toInt_sdiv, hmillion,
    Int.tdiv_eq_ediv_of_nonneg hpos.le, Int.bmod_eq_of_le] <;> omega

/-- The rest of it in nanoseconds, which 32 bits hold. -/
theorem toInt_fraction (hpos : 0 < timeoutUs.toInt) :
    ((timeoutUs.srem 1000000 * 1000).signExtend 64).toInt = timeoutUs.toInt % 1000000 * 1000 := by
  have hmillion : (1000000 : BitVec 32).toInt = 1000000 := by decide
  have hthousand : (1000 : BitVec 32).toInt = 1000 := by decide
  rw [BitVec.toInt_signExtend_of_le (by decide), BitVec.toInt_mul, BitVec.toInt_srem, hmillion,
    hthousand, Int.tmod_eq_emod_of_nonneg hpos.le, Int.bmod_eq_of_le] <;> omega

theorem tvNsec_takeDeadline (h : now.Normal) (hpos : 0 < timeoutUs.toInt) :
    (takeDeadline now timeoutUs).tvNsec.toInt
      = now.tvNsec.toInt + timeoutUs.toInt % 1000000 * 1000 := by
  have hnonneg := h.nonneg
  have hlt := h.lt
  rw [takeDeadline, BitVec.toInt_add, toInt_fraction hpos, Int.bmod_eq_of_le] <;> omega

theorem tvSec_takeDeadline (hpos : 0 < timeoutUs.toInt) :
    (takeDeadline now timeoutUs).tvSec.toInt
      = (now.tvSec.toInt + timeoutUs.toInt / 1000000).bmod (2 ^ 64) := by
  rw [takeDeadline, BitVec.toInt_add, toInt_seconds hpos]

/-- **The sum is the right time**, or a turn of the seconds before it. -/
theorem ns_takeDeadline (h : now.Normal) (hpos : 0 < timeoutUs.toInt) :
    (takeDeadline now timeoutUs).ns = now.ns + timeoutUs.toInt * 1000
      - if now.tvSec.toInt + timeoutUs.toInt / 1000000 < 2 ^ 63 then 0
        else 2 ^ 64 * 1000000000 := by
  have hlow := BitVec.le_toInt now.tvSec
  have hhigh := BitVec.toInt_lt (x := now.tvSec)
  have hmax := BitVec.toInt_lt (x := timeoutUs)
  rw [Timespec.ns, tvNsec_takeDeadline h hpos, tvSec_takeDeadline hpos, Timespec.ns]
  split_ifs with hfits
  · rw [Int.bmod_eq_of_le] <;> omega
  · have hwrap : (now.tvSec.toInt + timeoutUs.toInt / 1000000).bmod (2 ^ 64)
        = now.tvSec.toInt + timeoutUs.toInt / 1000000 - 2 ^ 64 := by
      rw [← Int.sub_bmod_right, Int.bmod_eq_of_le] <;> omega
    rw [hwrap]
    omega

theorem normal_takeDeadline_iff (h : now.Normal) (hpos : 0 < timeoutUs.toInt) :
    (takeDeadline now timeoutUs).Normal
      ↔ now.tvNsec.toInt + timeoutUs.toInt % 1000000 * 1000 < 1000000000 := by
  have hnonneg := h.nonneg
  have hnsec := tvNsec_takeDeadline h hpos
  constructor
  · intro hnormal
    rw [← hnsec]
    exact hnormal.lt
  · intro hlt
    exact ⟨by omega, by omega⟩

/-- **The deadline of `take` is valid exactly where nothing is to be carried** into the seconds. -/
theorem validDeadline_iff (h : now.Normal) (hpos : 0 < timeoutUs.toInt) :
    ValidDeadline now timeoutUs ↔ NoCarry now timeoutUs := by
  have hns := ns_takeDeadline h hpos
  constructor
  · rintro ⟨ts, hcall, hnormal, htime⟩
    rw [takeCall_of_pos hpos] at hcall
    obtain rfl := MutexCall.timedlock.inj hcall
    refine ⟨(normal_takeDeadline_iff h hpos).mp hnormal, ?_⟩
    by_contra hlate
    rw [if_neg hlate] at hns
    omega
  · rintro ⟨hlt, hfits⟩
    rw [if_pos hfits, sub_zero] at hns
    exact ⟨_, takeCall_of_pos hpos, (normal_takeDeadline_iff h hpos).mpr hlt, hns⟩

/-- A second and a half from the middle of a second, less a microsecond. -/
theorem validDeadline_middle :
    (⟨7, 500000000⟩ : Timespec).Normal ∧ ValidDeadline ⟨7, 500000000⟩ 1499999 := by
  have hnormal : (⟨7, 500000000⟩ : Timespec).Normal := ⟨by decide, by decide⟩
  exact ⟨hnormal, (validDeadline_iff hnormal (by decide)).mpr (by decide)⟩

/-- **A microsecond from the last of a second is no valid time.** -/
theorem not_forall_validDeadline : ¬ ∀ (now : Timespec) (timeoutUs : BitVec 32),
    now.Normal → 0 < timeoutUs.toInt → ValidDeadline now timeoutUs := by
  intro h
  have hnormal : (⟨0, 999999999⟩ : Timespec).Normal := ⟨by decide, by decide⟩
  obtain ⟨ts, hcall, hvalid, -⟩ := h ⟨0, 999999999⟩ 1 hnormal (by decide)
  rw [takeCall_of_pos (by decide)] at hcall
  obtain rfl := MutexCall.timedlock.inj hcall
  exact absurd hvalid.lt (by decide)

/-- Where times that are not valid are refused, `take` fails at once if there is a carry. -/
theorem take_eq_false {ret : MutexCall → ℤ}
    (hret : ∀ ts : Timespec, ¬ ts.Normal → ret (.timedlock ts) ≠ 0) (h : now.Normal)
    (hpos : 0 < timeoutUs.toInt)
    (hcarry : 1000000000 ≤ now.tvNsec.toInt + timeoutUs.toInt % 1000000 * 1000) :
    take ret now timeoutUs = false := by
  rw [take, takeCall_of_pos hpos, beq_eq_false_iff_ne]
  exact hret _ ((normal_takeDeadline_iff h hpos).not.mpr hcarry.not_gt)

end Semaphore

end LibDronecan
