import LibDronecan.Pal.Thread

/-!
# Pal/Deadline — the deadline of a wait

    tv_nsec += timeout_us * 1000        a uint32_t product, added to 64 bits
    tv_sec  += tv_nsec / 1000000000
    tv_nsec %= 1000000000

`wait_any` and `wait_all` add their timeout to the time they read.  The carry into the seconds is
right (`ns_deadline`), but the product is made before it is widened: from 4294968 µs on it wraps at
2³² ns, and a wait of any length ends within 4.3 s (`exact_deadline_iff`).
-/

namespace LibDronecan

/-- `struct timespec`, with 64-bit fields. -/
structure Timespec where
  tvSec : BitVec 64
  tvNsec : BitVec 64

namespace Timespec

/-- The time it stands for, in nanoseconds. -/
def ns (ts : Timespec) : ℤ := ts.tvSec.toInt * 1000000000 + ts.tvNsec.toInt

/-- `0 <= tv_nsec < 10^9`. -/
structure Normal (ts : Timespec) : Prop where
  nonneg : 0 ≤ ts.tvNsec.toInt
  lt : ts.tvNsec.toInt < 1000000000

/-- The three lines that add a timeout to a time. -/
def deadline (ts : Timespec) (timeoutUs : BitVec 32) : Timespec :=
  let tvNsec := ts.tvNsec + (timeoutUs * 1000).setWidth 64
  ⟨ts.tvSec + tvNsec.sdiv 1000000000, tvNsec.srem 1000000000⟩

end Timespec

/-- The `ts` that `Thread::wait_any` passes to `pthread_cond_timedwait`. -/
def Thread.waitAnyDeadline (now : Timespec) (timeoutUs : BitVec 32) : Timespec :=
  now.deadline timeoutUs

/-- The one of `Thread::wait_all`. -/
def Thread.waitAllDeadline (now : Timespec) (timeoutUs : BitVec 32) : Timespec :=
  now.deadline timeoutUs

namespace Timespec

/-- **A deadline is exact**: normalised, and the timeout after the time it starts from; so no
shorter timeout ends later. -/
structure Exact (deadline : Timespec → BitVec 32 → Timespec) (now : Timespec)
    (timeoutUs : BitVec 32) : Prop where
  normal : (deadline now timeoutUs).Normal
  ns_eq : (deadline now timeoutUs).ns = now.ns + timeoutUs.toNat * 1000
  mono : ∀ us ≤ timeoutUs, (deadline now us).ns ≤ (deadline now timeoutUs).ns

/-- The timeout in nanoseconds fits 32 bits, and the seconds of the deadline fit 64. -/
def Fits (now : Timespec) (timeoutUs : BitVec 32) : Prop :=
  timeoutUs.toNat * 1000 < 2 ^ 32 ∧
    now.tvSec.toInt + (now.tvNsec.toInt + timeoutUs.toNat * 1000) / 1000000000 < 2 ^ 63

instance (now : Timespec) (timeoutUs : BitVec 32) : Decidable (Fits now timeoutUs) :=
  inferInstanceAs (Decidable (_ ∧ _))

variable {now : Timespec} {us timeoutUs : BitVec 32}

/-- The product as the code has it. -/
theorem toNat_product (timeoutUs : BitVec 32) :
    (timeoutUs * 1000).toNat = timeoutUs.toNat * 1000 % 2 ^ 32 := by
  rw [BitVec.toNat_mul]
  rfl

/-- Nanoseconds below one second, and a product, stay far from 64 bits. -/
theorem toInt_sum (h : now.Normal) (timeoutUs : BitVec 32) :
    (now.tvNsec + (timeoutUs * 1000).setWidth 64).toInt
      = now.tvNsec.toInt + (timeoutUs * 1000).toNat := by
  have hlt := (timeoutUs * 1000).isLt
  have hnonneg := h.nonneg
  have hlt' := h.lt
  have hproduct : ((timeoutUs * 1000).setWidth 64).toInt = ((timeoutUs * 1000).toNat : ℤ) := by
    rw [BitVec.toInt_eq_toNat_of_lt (by rw [BitVec.toNat_setWidth]; omega), BitVec.toNat_setWidth,
      Nat.mod_eq_of_lt (by omega)]
  rw [BitVec.toInt_add, hproduct, Int.bmod_eq_of_le] <;> omega

theorem tvNsec_deadline (h : now.Normal) (timeoutUs : BitVec 32) :
    (now.deadline timeoutUs).tvNsec.toInt
      = (now.tvNsec.toInt + (timeoutUs * 1000).toNat) % 1000000000 := by
  have hnonneg := h.nonneg
  have hbillion : (1000000000 : BitVec 64).toInt = 1000000000 := by decide
  rw [deadline, BitVec.toInt_srem, toInt_sum h, hbillion, Int.tmod_eq_emod_of_nonneg (by omega)]

theorem tvSec_deadline (h : now.Normal) (timeoutUs : BitVec 32) :
    (now.deadline timeoutUs).tvSec.toInt = (now.tvSec.toInt
      + (now.tvNsec.toInt + (timeoutUs * 1000).toNat) / 1000000000).bmod (2 ^ 64) := by
  have hnonneg := h.nonneg
  have hlt := (timeoutUs * 1000).isLt
  have hlt' := h.lt
  have hbillion : (1000000000 : BitVec 64).toInt = 1000000000 := by decide
  have hcarry : ((now.tvNsec + (timeoutUs * 1000).setWidth 64).sdiv 1000000000).toInt
      = (now.tvNsec.toInt + (timeoutUs * 1000).toNat) / 1000000000 := by
    rw [BitVec.toInt_sdiv, toInt_sum h, hbillion, Int.tdiv_eq_ediv_of_nonneg (by omega),
      Int.bmod_eq_of_le] <;> omega
  rw [deadline, BitVec.toInt_add, hcarry]

/-- **The deadline is normalised**, whatever the timeout. -/
theorem normal_deadline (h : now.Normal) (timeoutUs : BitVec 32) :
    (now.deadline timeoutUs).Normal := by
  constructor
  · rw [tvNsec_deadline h]
    omega
  · rw [tvNsec_deadline h]
    omega

/-- **The carry is right**: the deadline is the product after the start, or a turn of the seconds
before that. -/
theorem ns_deadline (h : now.Normal) (timeoutUs : BitVec 32) :
    (now.deadline timeoutUs).ns = now.ns + (timeoutUs * 1000).toNat
      - if now.tvSec.toInt + (now.tvNsec.toInt + (timeoutUs * 1000).toNat) / 1000000000 < 2 ^ 63
        then 0 else 2 ^ 64 * 1000000000 := by
  have hlt := (timeoutUs * 1000).isLt
  have hlt' := h.lt
  have hnonneg := h.nonneg
  have hlow := BitVec.le_toInt now.tvSec
  have hhigh := BitVec.toInt_lt (x := now.tvSec)
  rw [ns, tvNsec_deadline h, tvSec_deadline h, ns]
  split_ifs with hfits
  · rw [Int.bmod_eq_of_le] <;> omega
  · have hwrap : (now.tvSec.toInt + (now.tvNsec.toInt + (timeoutUs * 1000).toNat) / 1000000000).bmod
        (2 ^ 64) = now.tvSec.toInt + (now.tvNsec.toInt + (timeoutUs * 1000).toNat) / 1000000000
          - 2 ^ 64 := by
      rw [← Int.sub_bmod_right, Int.bmod_eq_of_le] <;> omega
    rw [hwrap]
    omega

/-- A timeout that fits is added as it is. -/
theorem Fits.ns_deadline (hfits : Fits now timeoutUs) (h : now.Normal) :
    (now.deadline timeoutUs).ns = now.ns + timeoutUs.toNat * 1000 := by
  obtain ⟨hlt, hsec⟩ := hfits
  have hproduct := toNat_product timeoutUs
  rw [Nat.mod_eq_of_lt hlt] at hproduct
  rw [Timespec.ns_deadline h, hproduct, if_pos (by omega)]
  omega

/-- …and so is every shorter one. -/
theorem Fits.of_le (hfits : Fits now timeoutUs) (hus : us ≤ timeoutUs) : Fits now us := by
  obtain ⟨hproduct, hsec⟩ := hfits
  have hle : us.toNat * 1000 ≤ timeoutUs.toNat * 1000 :=
    Nat.mul_le_mul_right 1000 (BitVec.le_def.mp hus)
  refine ⟨hle.trans_lt hproduct, ?_⟩
  omega

/-- **A deadline is exact exactly when the timeout in nanoseconds fits 32 bits**, and the deadline
the fields of a `timespec`. -/
theorem exact_deadline_iff (h : now.Normal) (timeoutUs : BitVec 32) :
    Exact deadline now timeoutUs ↔ Fits now timeoutUs := by
  constructor
  · intro hexact
    have hns := hexact.ns_eq
    have hproduct := toNat_product timeoutUs
    rw [ns_deadline h] at hns
    split_ifs at hns with hsec
    · have hfits : timeoutUs.toNat * 1000 < 2 ^ 32 := by omega
      exact ⟨hfits, by omega⟩
    · omega
  · intro hfits
    refine ⟨normal_deadline h timeoutUs, hfits.ns_deadline h, fun us hus => ?_⟩
    rw [hfits.ns_deadline h, (hfits.of_le hus).ns_deadline h]
    rw [BitVec.le_def] at hus
    omega

end Timespec

/-- **The deadlines of `wait_any` and `wait_all` are exact for the timeouts that fit**, and for no
others. -/
theorem Thread.exact_deadlines_iff {now : Timespec} (h : now.Normal) (timeoutUs : BitVec 32) :
    (Timespec.Exact Thread.waitAnyDeadline now timeoutUs ↔ now.Fits timeoutUs) ∧
      (Timespec.Exact Thread.waitAllDeadline now timeoutUs ↔ now.Fits timeoutUs) :=
  ⟨Timespec.exact_deadline_iff h timeoutUs, Timespec.exact_deadline_iff h timeoutUs⟩

/-- Four seconds from the last nanosecond of one. -/
theorem Thread.exact_deadlines_four :
    Timespec.Exact Thread.waitAnyDeadline ⟨7, 999999999⟩ 4000000 ∧
      Timespec.Exact Thread.waitAllDeadline ⟨7, 999999999⟩ 4000000 :=
  have hnormal : (⟨7, 999999999⟩ : Timespec).Normal := ⟨by decide, by decide⟩
  have hiff := Thread.exact_deadlines_iff hnormal 4000000
  ⟨hiff.1.mpr (by decide), hiff.2.mpr (by decide)⟩

/-- **A wait for ever is one of 4.3 s**, and so is one of an hour. -/
theorem Thread.not_forall_exact_deadlines : ¬ ∀ (now : Timespec) (timeoutUs : BitVec 32),
    now.Normal → Timespec.Exact Thread.waitAnyDeadline now timeoutUs ∧
      Timespec.Exact Thread.waitAllDeadline now timeoutUs := by
  intro h
  have hns := (h ⟨0, 0⟩ (-1) ⟨by decide, by decide⟩).1.ns_eq
  revert hns
  decide

end LibDronecan
