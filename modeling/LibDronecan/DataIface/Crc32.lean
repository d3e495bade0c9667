import LibDronecan.DataIface.LogFile
import LibDronecan.Machinery.Crc

/-!
# DataIface/Crc32 — the checksum of a record is CRC-32

    crc32   =   complement ∘ bit reversal ∘ (· mod G) ∘ (· x³²) ∘ complement of the first 32 bits

The two loops of `crc32` are a register of 32 bits with feedback word `0xEDB88320`, fed a byte at a
time, so the library's account of such registers applies: what they hold at the end is a remainder,
and no burst of 32 bits goes unnoticed.
-/

open Machinery Polynomial

namespace LibDronecan

/-! ## The standard -/

/-- The generator of CRC-32. -/
noncomputable def ieeeGenerator : (ZMod 2)[X] :=
  X ^ 32 + X ^ 26 + X ^ 23 + X ^ 22 + X ^ 16 + X ^ 12 + X ^ 11 + X ^ 10 + X ^ 8 + X ^ 7 + X ^ 5
    + X ^ 4 + X ^ 2 + X + 1

/-- **CRC-32 of a byte string**: its bits, each byte's low bit first, with 32 zeros after them and
the first 32 complemented; the remainder of that polynomial, bit-reversed and complemented. -/
noncomputable def standardCrc32 (data : List Byte) : Word :=
  ~~~ Crc.reversed 32 (Crc.bitsPoly (Crc.extended 32 data) %ₘ ieeeGenerator)

/-! ## The code -/

theorem crcByte_eq : crcByte = Crc.shiftIn 0xEDB88320 := rfl

theorem gen_eq : Crc.gen (0xEDB88320 : Word) = ieeeGenerator := by
  have hbits : Crc.wordBits (0xEDB88320 : Word) =
      [false, false, false, false, false, true, false, false, true, true, false, false, false,
        false, false, true, false, false, false, true, true, true, false, true, true, false, true,
        true, false, true, true, true] := by decide
  rw [Crc.gen, Crc.wordPoly, hbits, ieeeGenerator]
  simp only [Crc.bitsPoly, Crc.bit_true, Crc.bit_false, C_0, C_1, zero_mul, one_mul, zero_add,
    List.length_cons, List.length_nil]
  ring

/-- **`crc32` is CRC-32.** -/
theorem crc32_eq_standardCrc32 (data : List Byte) : crc32 data = standardCrc32 data := by
  have hinit : (0xFFFFFFFF : Word) = BitVec.allOnes 32 := by decide
  rw [crc32, crcByte_eq, hinit, Crc.foldl_shiftIn_allOnes (by norm_num), gen_eq, standardCrc32]

/-- The check value of the standard. -/
example : crc32 [0x31, 0x32, 0x33, 0x34, 0x35, 0x36, 0x37, 0x38, 0x39] = 0xCBF43926 := by
  decide +kernel

/-- Where the complemented bits are the message's own. -/
theorem standardCrc32_of_le {data : List Byte} (h : 4 ≤ data.length) :
    standardCrc32 data = ~~~ Crc.reversed 32
      (X ^ 32 * Crc.bitsPoly (Crc.complementFirst 32 (Crc.messageBits data)) %ₘ ieeeGenerator) := by
  rw [standardCrc32, Crc.bitsPoly_extended_of_le (by omega)]

/-! ## Bursts -/

theorem eq_of_crc32_eq {a b : List Byte} {s : ℕ} (hlen : a.length = b.length)
    (hburst : ∀ i, (Crc.messageBits a).getD i false ≠ (Crc.messageBits b).getD i false →
      s ≤ i ∧ i < s + 32)
    (h : crc32 a = crc32 b) : a = b := by
  have hreg : a.foldl crcByte 0xFFFFFFFF = b.foldl crcByte 0xFFFFFFFF :=
    BitVec.not_inj.mp h
  exact Crc.eq_of_foldl_shiftIn_eq (by norm_num) (by norm_num) (by decide) hlen hburst hreg

/-- An altered byte is a burst. -/
theorem crc32_modify_ne {data : List Byte} {i : ℕ} {g : Byte → Byte} (hi : i < data.length)
    (hg : ∀ b, g b ≠ b) : crc32 (data.modify i g) ≠ crc32 data := by
  intro h
  have heq : data.modify i g = data := by
    refine eq_of_crc32_eq (s := 8 * i) (by simp) (fun p hp => ?_) h
    rw [Crc.getD_messageBits (by norm_num), Crc.getD_messageBits (by norm_num)] at hp
    by_contra hout
    rw [List.getD, List.getElem?_modify_ne _ _ (by omega), ← List.getD] at hp
    exact hp rfl
  have hbyte : some (g data[i]) = some data[i] := by
    rw [← List.getElem?_eq_getElem hi, ← Option.map_some, ← List.getElem?_eq_getElem hi]
    exact (List.getElem?_modify_eq g i data).symm.trans (congrArg (·[i]?) heq)
  exact hg _ (Option.some.inj hbyte)

/-- **No burst of 32 bits goes unnoticed**: two byte strings of one length that differ, and only
within some 32 consecutive bits, have different checksums. -/
theorem crc32_ne_of_burst {a b : List Byte} {s : ℕ} (hlen : a.length = b.length) (hne : a ≠ b)
    (hburst : ∀ i, (Crc.messageBits a).getD i false ≠ (Crc.messageBits b).getD i false →
      s ≤ i ∧ i < s + 32) : crc32 a ≠ crc32 b :=
  fun h => hne (eq_of_crc32_eq hlen hburst h)

theorem crc32_ne_of_one_two : crc32 [0x00, 0x01] ≠ crc32 [0x00, 0x02] := by
  refine crc32_ne_of_burst (s := 8) rfl (by decide) fun i hi => ?_
  by_contra hout
  obtain h | h : i < 8 ∨ 16 ≤ i := by omega
  · revert hi
    interval_cases i <;> decide
  · rw [List.getD_eq_default _ _ (by simpa using h),
      List.getD_eq_default _ _ (by simpa using h)] at hi
    exact hi rfl

end LibDronecan
