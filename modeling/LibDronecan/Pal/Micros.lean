import Mathlib.Data.BitVec
import Mathlib.Data.List.Chain

/-!
# Pal/Micros — 64 bits of microseconds from a counter of 32 bits of ticks

    ticks   ──mod 2³²──▸ counter ──· 10⁶/F, mod 2³²──▸ micros32 ──┬──▸ micros64
                                                   overflow_count ┘

The product wraps more often than the counter does, but both wrap at the same power of two, so
`micros32` is the elapsed time modulo `2³²` whatever the counter has done.  `micros64` counts a wrap
whenever the value is less than the last one.  Two calls less than `2³²` µs apart have at most one
wrap between them, and it shows; so what the statics hold after each call is the quotient and the
remainder of the time of that call (`Statics.At`).
-/

namespace LibDronecan

/-- `micros32`, at `ticks` ticks of frequency `F` since the start. -/
def micros32 (F ticks : ℕ) : BitVec 32 := BitVec.ofNat 32 ticks * BitVec.ofNat 32 (1000000 / F)

/-- The statics of `micros64`. -/
structure Statics where
  lastTime : BitVec 32
  overflowCount : BitVec 32
  deriving DecidableEq

namespace Statics

/-- As the program starts. -/
def start : Statics := ⟨0, 0⟩

/-- `micros64` from a reading of `micros32` on. -/
def update (s : Statics) (time : BitVec 32) : BitVec 64 × Statics :=
  let overflowCount := if time < s.lastTime then s.overflowCount + 1 else s.overflowCount
  (overflowCount.setWidth 64 <<< 32 ||| time.setWidth 64, ⟨time, overflowCount⟩)

end Statics

/-- `micros64`, at `ticks` ticks since the start. -/
def micros64 (F : ℕ) (s : Statics) (ticks : ℕ) : BitVec 64 × Statics := s.update (micros32 F ticks)

/-- What calls at these times return, one after the other. -/
def readings (F : ℕ) : Statics → List ℕ → List (BitVec 64)
  | _, [] => []
  | s, ticks :: l => (micros64 F s ticks).1 :: readings F (micros64 F s ticks).2 l

/-- The microseconds that so many ticks take. -/
def elapsed (F ticks : ℕ) : ℕ := ticks * (1000000 / F)

/-- The factor is exact if the frequency divides it. -/
theorem elapsed_mul {F : ℕ} (hF : F ∣ 1000000) (ticks : ℕ) :
    elapsed F ticks * F = ticks * 1000000 := by
  rw [elapsed, Nat.mul_assoc, Nat.div_mul_cancel hF]

variable {F ticks u : ℕ} {s : Statics}

/-- **Both wraps together are one.** -/
theorem toNat_micros32 (F ticks : ℕ) : (micros32 F ticks).toNat = elapsed F ticks % 2 ^ 32 := by
  rw [micros32, BitVec.toNat_mul, BitVec.toNat_ofNat, BitVec.toNat_ofNat, ← Nat.mul_mod, elapsed]

/-- The two halves of a result do not overlap. -/
theorem toNat_halves (high low : BitVec 32) :
    (high.setWidth 64 <<< 32 ||| low.setWidth 64).toNat = high.toNat * 2 ^ 32 + low.toNat := by
  have hhigh := high.isLt
  have hlow := low.isLt
  have hshift : (high.setWidth 64 <<< 32).toNat = high.toNat <<< 32 := by
    rw [BitVec.toNat_shiftLeft, BitVec.toNat_setWidth, Nat.shiftLeft_eq, Nat.shiftLeft_eq]
    omega
  rw [BitVec.toNat_or, hshift, BitVec.toNat_setWidth, Nat.mod_eq_of_lt (by omega),
    ← Nat.shiftLeft_add_eq_or_of_lt hlow, Nat.shiftLeft_eq]

namespace Statics

/-- The statics as a call at `u` microseconds leaves them. -/
def At (s : Statics) (u : ℕ) : Prop :=
  s.lastTime.toNat = u % 2 ^ 32 ∧ s.overflowCount.toNat = u / 2 ^ 32

/-- **One call**: it returns the time, and leaves the statics so. -/
theorem At.update {u' : ℕ} {time : BitVec 32} (h : s.At u) (htime : time.toNat = u' % 2 ^ 32)
    (hle : u ≤ u') (hlt : u' < u + 2 ^ 32) (hmax : u' < 2 ^ 64) :
    (s.update time).1.toNat = u' ∧ (s.update time).2.At u' := by
  obtain ⟨hlast, hcount⟩ := h
  have hcount' : (s.update time).2.overflowCount.toNat = u' / 2 ^ 32 := by
    simp only [Statics.update]
    split_ifs with hwrap
    · rw [BitVec.lt_def, htime, hlast] at hwrap
      rw [BitVec.toNat_add, hcount]
      change (u / 2 ^ 32 + 1) % 2 ^ 32 = _
      omega
    · rw [BitVec.lt_def, htime, hlast] at hwrap
      omega
  refine ⟨?_, htime, hcount'⟩
  change ((s.update time).2.overflowCount.setWidth 64 <<< 32 ||| time.setWidth 64).toNat = u'
  rw [toNat_halves, hcount', htime]
  omega

end Statics

/-! ## Calls one after the other -/

/-- Calls in order, the first less than `2³²` µs after the start and each less than `2³²` µs after
the one before. -/
def Sampled (F : ℕ) (l : List ℕ) : Prop :=
  (0 :: l).IsChain fun t t' => t ≤ t' ∧ elapsed F t' < elapsed F t + 2 ^ 32

theorem readings_of_at {l : List ℕ} {t : ℕ} (hs : s.At (elapsed F t))
    (hl : (t :: l).IsChain fun t t' => t ≤ t' ∧ elapsed F t' < elapsed F t + 2 ^ 32)
    (hmax : ∀ t ∈ l, elapsed F t < 2 ^ 64) :
    (readings F s l).map BitVec.toNat = l.map (elapsed F) := by
  induction l generalizing s t with
  | nil => rfl
  | cons t' l ih =>
    obtain ⟨⟨hle, hlt⟩, hl⟩ := List.isChain_cons_cons.mp hl
    obtain ⟨hval, hs'⟩ := hs.update (toNat_micros32 F t') (Nat.mul_le_mul_right _ hle) hlt
      (hmax t' List.mem_cons_self)
    rw [readings, List.map_cons, List.map_cons, micros64, hval,
      ih hs' hl fun t ht => hmax t (List.mem_cons_of_mem t' ht)]

/-- **`micros64` is exact across the wraps of the counter**, and so the results neither decrease nor
skip or repeat a wrap. -/
theorem map_toNat_readings {l : List ℕ} (hl : Sampled F l) (hmax : ∀ t ∈ l, elapsed F t < 2 ^ 64) :
    (readings F .start l).map BitVec.toNat = l.map (elapsed F) ∧
      ((readings F .start l).map BitVec.toNat).IsChain fun v v' => v ≤ v' ∧ v' < v + 2 ^ 32 := by
  have hstart : Statics.start.At (elapsed F 0) := by
    rw [elapsed, Nat.zero_mul]
    exact ⟨rfl, rfl⟩
  have hval := readings_of_at hstart hl hmax
  refine ⟨hval, ?_⟩
  rw [hval, List.isChain_map]
  exact hl.tail.imp fun t t' h => ⟨Nat.mul_le_mul_right _ h.1, h.2⟩

/-- At 10 kHz, across a wrap of the microseconds. -/
theorem map_toNat_readings_wrap :
    (Sampled 10000 [42949672, 42949673] ∧
        ∀ t ∈ [42949672, 42949673], elapsed 10000 t < 2 ^ 64) ∧
      (readings 10000 .start [42949672, 42949673]).map BitVec.toNat
        = [42949672, 42949673].map (elapsed 10000) := by
  have hl : Sampled 10000 [42949672, 42949673] := by
    simp [Sampled, elapsed]
  have hmax : ∀ t ∈ [42949672, 42949673], elapsed 10000 t < 2 ^ 64 := by
    simp [elapsed]
  exact ⟨⟨hl, hmax⟩, (map_toNat_readings hl hmax).1⟩

end LibDronecan
