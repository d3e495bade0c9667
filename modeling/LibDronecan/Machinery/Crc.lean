import Mathlib.Algebra.Field.ZMod
import Mathlib.Data.BitVec
import Mathlib.Data.List.GetD
import Mathlib.RingTheory.AdjoinRoot

/-!
# Machinery/Crc — shift registers as polynomial division

    bits      b₀ b₁ … bₙ₋₁   ↦   b₀ xⁿ⁻¹ + b₁ xⁿ⁻² + … + bₙ₋₁
    register  bit i           ↦   the coefficient of xⁿ⁻¹⁻ⁱ          (reflected: low bit first)

A string of bits is a polynomial over `GF(2)`, and a register is the string of its bits, low bit
first.  A step of the register shifts it down and adds the feedback word if a one fell out, which is
multiplication by `x` modulo the generator `xⁿ + feedback`; so the register holds a residue class,
and a message shifted in leaves its remainder there (`foldl_shiftIn_allOnes`).  A difference of two
messages that fits in the width of the register is no multiple of the generator
(`eq_zero_of_gen_dvd`).
-/

open Polynomial

namespace Machinery

namespace Crc

/-! ## Strings of bits -/

def bit (b : Bool) : ZMod 2 := if b then 1 else 0

@[simp] theorem bit_false : bit false = 0 := rfl

@[simp] theorem bit_true : bit true = 1 := rfl

theorem bit_injective : Function.Injective bit := by decide

@[simp] theorem bit_xor (a b : Bool) : bit (a ^^ b) = bit a + bit b := by
  cases a <;> cases b <;> decide

@[simp] theorem bit_not (b : Bool) : bit (!b) = bit b + 1 := by cases b <;> decide

@[simp] theorem bit_decide (c : ZMod 2) : bit (decide (c = 1)) = c := by
  revert c
  decide

/-- The polynomial of a string of bits, the first bit its highest coefficient. -/
noncomputable def bitsPoly : List Bool → (ZMod 2)[X]
  | [] => 0
  | b :: l => C (bit b) * X ^ l.length + bitsPoly l

theorem coeff_bitsPoly (l : List Bool) (d : ℕ) :
    (bitsPoly l).coeff d = bit (l.reverse.getD d false) := by
  induction l with
  | nil => simp [bitsPoly]
  | cons b l ih =>
    rw [bitsPoly, coeff_add, ih, coeff_C_mul_X_pow, List.reverse_cons]
    obtain h | rfl | h := lt_trichotomy d l.length
    · rw [if_neg h.ne, zero_add, List.getD_append _ _ _ _ (by simpa using h)]
    · rw [if_pos rfl, List.getD_eq_default _ _ (by simp),
        List.getD_append_right _ _ _ _ (by simp)]
      simp
    · rw [if_neg h.ne', zero_add, List.getD_eq_default _ _ (by simpa using h.le),
        List.getD_eq_default _ _ (by simpa using h)]

theorem degree_bitsPoly_lt (l : List Bool) : (bitsPoly l).degree < l.length := by
  refine (degree_lt_iff_coeff_zero _ _).mpr fun d hd => ?_
  rw [coeff_bitsPoly, List.getD_eq_default _ _ (by simpa using hd), bit_false]

theorem bitsPoly_append (l m : List Bool) :
    bitsPoly (l ++ m) = X ^ m.length * bitsPoly l + bitsPoly m := by
  induction l with
  | nil => simp [bitsPoly]
  | cons b l ih =>
    rw [List.cons_append, bitsPoly, bitsPoly, ih, List.length_append]
    ring

@[simp] theorem bitsPoly_zeros (n : ℕ) : bitsPoly (List.replicate n false) = 0 := by
  induction n with
  | zero => rfl
  | succ n ih => simp [List.replicate_succ, bitsPoly, ih]

/-- To complement a string is to add the string of ones. -/
theorem bitsPoly_not (l : List Bool) :
    bitsPoly (l.map not) = bitsPoly l + bitsPoly (List.replicate l.length true) := by
  induction l with
  | nil => simp [bitsPoly]
  | cons b l ih =>
    simp only [List.map_cons, List.length_cons, List.replicate_succ, bitsPoly, ih, List.length_map,
      List.length_replicate, bit_not, bit_true, C_add]
    ring

/-- The string with its first `k` bits complemented. -/
def complementFirst (k : ℕ) (l : List Bool) : List Bool := (l.take k).map not ++ l.drop k

theorem bitsPoly_complementFirst {k : ℕ} {l : List Bool} (hk : k ≤ l.length) :
    bitsPoly (complementFirst k l)
      = bitsPoly l + X ^ (l.length - k) * bitsPoly (List.replicate k true) := by
  calc bitsPoly (complementFirst k l)
      = X ^ (l.length - k) * (bitsPoly (l.take k) + bitsPoly (List.replicate k true))
          + bitsPoly (l.drop k) := by
        rw [complementFirst, bitsPoly_append, bitsPoly_not, List.length_take_of_le hk,
          List.length_drop]
    _ = X ^ (l.length - k) * bitsPoly (l.take k) + bitsPoly (l.drop k)
          + X ^ (l.length - k) * bitsPoly (List.replicate k true) := by ring
    _ = bitsPoly l + X ^ (l.length - k) * bitsPoly (List.replicate k true) := by
        rw [← List.length_drop, ← bitsPoly_append, List.take_append_drop]

/-! ## Words -/

variable {n k : ℕ}

/-- The bits of a word, the low bit first. -/
def wordBits (w : BitVec n) : List Bool := (List.range n).map w.getLsbD

@[simp] theorem length_wordBits (w : BitVec n) : (wordBits w).length = n := by simp [wordBits]

/-- The polynomial of a word: its low bit is the highest coefficient. -/
noncomputable def wordPoly (w : BitVec n) : (ZMod 2)[X] := bitsPoly (wordBits w)

theorem coeff_wordPoly (w : BitVec n) (d : ℕ) : (wordPoly w).coeff d = bit (w.getMsbD d) := by
  rw [wordPoly, coeff_bitsPoly, BitVec.getMsbD_eq_getLsbD]
  obtain h | h := Nat.lt_or_ge d n
  · rw [List.getD_eq_getElem _ _ (by simpa using h)]
    simp [wordBits, h]
  · rw [List.getD_eq_default _ _ (by simpa using h)]
    simp [h.not_gt]

theorem degree_wordPoly_lt (w : BitVec n) : (wordPoly w).degree < n :=
  (degree_bitsPoly_lt _).trans_eq (congrArg _ (length_wordBits w))

@[simp] theorem wordPoly_xor (v w : BitVec n) : wordPoly (v ^^^ w) = wordPoly v + wordPoly w := by
  ext d
  rw [coeff_add, coeff_wordPoly, coeff_wordPoly, coeff_wordPoly, BitVec.getMsbD_xor, bit_xor]

/-- A shorter word in a longer one. -/
theorem wordPoly_setWidth (hk : k ≤ n) (b : BitVec k) :
    wordPoly (b.setWidth n) = X ^ (n - k) * wordPoly b := by
  ext d
  rw [coeff_wordPoly, coeff_X_pow_mul', coeff_wordPoly, BitVec.getMsbD_setWidth]
  obtain h | h := Nat.lt_or_ge d (n - k)
  · rw [if_neg h.not_ge, decide_eq_false h.not_ge, Bool.false_and, bit_false]
  · rw [if_pos h, decide_eq_true h, Bool.true_and, show d + k - n = d - (n - k) by omega]

/-- The word of a polynomial: its highest coefficient is the low bit. -/
noncomputable def reversed (n : ℕ) (r : (ZMod 2)[X]) : BitVec n :=
  (BitVec.ofBoolListBE ((List.range n).map fun i => decide (r.coeff i = 1))).cast (by simp)

@[simp] theorem reversed_wordPoly (w : BitVec n) : reversed n (wordPoly w) = w := by
  refine BitVec.eq_of_getMsbD_eq fun i hi => bit_injective ?_
  rw [reversed, BitVec.getMsbD_cast, BitVec.getMsbD_ofBoolListBE,
    List.getD_eq_getElem _ _ (by simpa using hi), List.getElem_map, bit_decide, List.getElem_range,
    coeff_wordPoly]

/-! ## The register -/

/-- The generator: the feedback word below `xⁿ`. -/
noncomputable def gen (p : BitVec n) : (ZMod 2)[X] := X ^ n + wordPoly p

theorem monic_gen (p : BitVec n) : (gen p).Monic := monic_X_pow_add (degree_wordPoly_lt p)

theorem degree_gen (p : BitVec n) : (gen p).degree = n := by
  have hlt : (wordPoly p).degree < ((X : (ZMod 2)[X]) ^ n).degree :=
    (degree_wordPoly_lt p).trans_eq (degree_X_pow n).symm
  rw [gen, degree_add_eq_left_of_degree_lt hlt, degree_X_pow]

/-- Shift down, and add the feedback word if a one falls out. -/
def step (p w : BitVec n) : BitVec n := (w >>> 1) ^^^ (p &&& -(w &&& 1))

theorem step_eq (p w : BitVec n) :
    step p w = if w.getLsbD 0 then (w >>> 1) ^^^ p else w >>> 1 := by
  have hmask : w &&& 1 = (BitVec.ofBool (w.getLsbD 0)).setWidth n :=
    BitVec.and_one_eq_setWidth_ofBool_getLsbD
  rw [step, hmask]
  cases w.getLsbD 0 with
  | false => simp
  | true =>
    have hone : (BitVec.ofBool true).setWidth n = 1#n := BitVec.eq_of_toNat_eq (by simp)
    rw [hone, BitVec.neg_one_eq_allOnes, BitVec.and_allOnes, if_pos rfl]

theorem wordPoly_shift (w : BitVec n) :
    wordPoly (w >>> 1) = X * wordPoly w + C (bit (w.getLsbD 0)) * X ^ n := by
  ext d
  rw [coeff_add, coeff_C_mul_X_pow, coeff_wordPoly, BitVec.getMsbD_ushiftRight]
  cases d with
  | zero =>
    rw [coeff_X_mul_zero, decide_eq_true Nat.one_pos, Bool.not_true, Bool.false_and, Bool.and_false]
    split_ifs with hn
    · rw [BitVec.getLsbD_of_ge _ _ hn.ge, bit_false, add_zero]
    · rfl
  | succ d =>
    rw [coeff_X_mul, coeff_wordPoly, decide_eq_false (show ¬d + 1 < 1 by omega), Bool.not_false,
      Bool.true_and, Nat.add_sub_cancel]
    obtain h | rfl | h := lt_trichotomy (d + 1) n
    · rw [decide_eq_true h, Bool.true_and, if_neg h.ne, add_zero]
    · -- the bit that falls out
      rw [BitVec.getMsbD_eq_getLsbD, decide_eq_true (Nat.lt_succ_self d), Bool.true_and,
        show d + 1 - 1 - d = 0 by omega, if_pos rfl, CharTwo.add_self_eq_zero,
        decide_eq_false (by simp)]
      rfl
    · rw [decide_eq_false h.not_gt, if_neg h.ne', BitVec.getMsbD_of_ge _ _ (by omega)]
      rfl

/-- **A step multiplies by `x`**, up to a multiple of the generator. -/
theorem wordPoly_step (p w : BitVec n) :
    wordPoly (step p w) = X * wordPoly w + C (bit (w.getLsbD 0)) * gen p := by
  rw [step_eq]
  cases h : w.getLsbD 0 with
  | false => simp [wordPoly_shift, h]
  | true =>
    rw [if_pos rfl, wordPoly_xor, wordPoly_shift, h, gen, bit_true, C_1]
    ring

/-- The residue class a register holds. -/
noncomputable def residue (p w : BitVec n) : AdjoinRoot (gen p) :=
  AdjoinRoot.mk (gen p) (wordPoly w)

theorem residue_step (p w : BitVec n) :
    residue p (step p w) = AdjoinRoot.root (gen p) * residue p w := by
  rw [residue, wordPoly_step, map_add, map_mul, map_mul, AdjoinRoot.mk_self, mul_zero, add_zero,
    AdjoinRoot.mk_X]
  rfl

theorem residue_iterate_step (p w : BitVec n) (j : ℕ) :
    residue p ((step p)^[j] w) = AdjoinRoot.root (gen p) ^ j * residue p w := by
  induction j with
  | zero => simp
  | succ j ih => rw [Function.iterate_succ_apply', residue_step, ih, pow_succ', mul_assoc]

/-- A register holds the remainder of whatever lies in its residue class. -/
theorem wordPoly_eq_modByMonic {p w : BitVec n} {f : (ZMod 2)[X]}
    (h : residue p w = AdjoinRoot.mk (gen p) f) : wordPoly w = f %ₘ gen p := by
  have hself : wordPoly w %ₘ gen p = wordPoly w :=
    (modByMonic_eq_self_iff (monic_gen p)).mpr ((degree_wordPoly_lt w).trans_eq (degree_gen p).symm)
  rw [← hself]
  exact modByMonic_eq_of_dvd_sub (monic_gen p) (AdjoinRoot.mk_eq_mk.mp h)

/-! ## Messages -/

/-- Add a symbol to the low end of the register and shift it through. -/
def shiftIn (p w : BitVec n) (b : BitVec k) : BitVec n := (step p)^[k] (w ^^^ b.setWidth n)

theorem residue_shiftIn (hk : k ≤ n) (p w : BitVec n) (b : BitVec k) :
    residue p (shiftIn p w b)
      = AdjoinRoot.mk (gen p) (X ^ k * wordPoly w + X ^ n * wordPoly b) := by
  have hpow : (X : (ZMod 2)[X]) ^ n = X ^ k * X ^ (n - k) := by rw [← pow_add, Nat.add_sub_of_le hk]
  rw [shiftIn, residue_iterate_step, ← AdjoinRoot.mk_X, ← map_pow, residue, ← map_mul, wordPoly_xor,
    wordPoly_setWidth hk, hpow, mul_add, mul_assoc]

/-- The bits of a message, symbol by symbol. -/
def messageBits (l : List (BitVec k)) : List Bool := l.flatMap wordBits

@[simp] theorem length_messageBits (l : List (BitVec k)) :
    (messageBits l).length = l.length * k := by
  simp [messageBits, List.length_flatMap]

theorem getD_wordBits (w : BitVec k) (i : ℕ) : (wordBits w).getD i false = w.getLsbD i := by
  obtain h | h := Nat.lt_or_ge i k
  · rw [List.getD_eq_getElem _ _ (by simpa using h)]
    simp [wordBits]
  · rw [List.getD_eq_default _ _ (by simpa using h), BitVec.getLsbD_of_ge _ _ h]

/-- The bits of a message lie symbol behind symbol. -/
theorem getD_messageBits (hk : 0 < k) (l : List (BitVec k)) (i : ℕ) :
    (messageBits l).getD i false = (l.getD (i / k) 0).getLsbD (i % k) := by
  induction l generalizing i with
  | nil => simp [messageBits]
  | cons b l ih =>
    rw [messageBits, List.flatMap_cons, ← messageBits]
    obtain h | h := Nat.lt_or_ge i k
    · rw [List.getD_append _ _ _ _ (by simpa using h), getD_wordBits, Nat.div_eq_of_lt h,
        Nat.mod_eq_of_lt h, List.getD_cons_zero]
    · rw [List.getD_append_right _ _ _ _ (by simpa using h), length_wordBits, ih,
        Nat.div_eq_sub_div hk h, List.getD_cons_succ, Nat.mod_eq_sub_mod h]

theorem bitsPoly_messageBits_cons (b : BitVec k) (l : List (BitVec k)) :
    bitsPoly (messageBits (b :: l))
      = X ^ (l.length * k) * wordPoly b + bitsPoly (messageBits l) := by
  rw [messageBits, List.flatMap_cons, bitsPoly_append, ← messageBits, length_messageBits, wordPoly]

/-- **A message shifted in**: the register comes before the message, and the message before as many
zeros as the register is wide. -/
theorem residue_foldl_shiftIn (hk : k ≤ n) (p w : BitVec n) (l : List (BitVec k)) :
    residue p (l.foldl (shiftIn p) w)
      = AdjoinRoot.mk (gen p) (X ^ (l.length * k) * wordPoly w
          + X ^ n * bitsPoly (messageBits l)) := by
  induction l generalizing w with
  | nil => simp [residue, messageBits, bitsPoly]
  | cons b l ih =>
    calc residue p (l.foldl (shiftIn p) (shiftIn p w b))
        = AdjoinRoot.mk (gen p) (X ^ (l.length * k)) * residue p (shiftIn p w b)
            + AdjoinRoot.mk (gen p) (X ^ n * bitsPoly (messageBits l)) := by
          rw [ih, map_add, map_mul, residue]
      _ = AdjoinRoot.mk (gen p) (X ^ (l.length * k) * (X ^ k * wordPoly w + X ^ n * wordPoly b)
            + X ^ n * bitsPoly (messageBits l)) := by
          rw [residue_shiftIn hk, ← map_mul, ← map_add]
      _ = _ := by
          rw [bitsPoly_messageBits_cons, List.length_cons, Nat.succ_mul, pow_add]
          ring_nf

/-- The message with as many zeros after it as the register is wide, its first bits complemented. -/
def extended (n : ℕ) (l : List (BitVec k)) : List Bool :=
  complementFirst n (messageBits l ++ List.replicate n false)

theorem bitsPoly_extended (n : ℕ) (l : List (BitVec k)) :
    bitsPoly (extended n l)
      = X ^ (l.length * k) * bitsPoly (List.replicate n true)
        + X ^ n * bitsPoly (messageBits l) := by
  rw [extended, bitsPoly_complementFirst (by simp), bitsPoly_append, bitsPoly_zeros,
    List.length_append, List.length_replicate, length_messageBits, Nat.add_sub_cancel, add_zero,
    add_comm]

/-- On a message as long as the register is wide, the complemented bits are all its own. -/
theorem bitsPoly_extended_of_le {l : List (BitVec k)} (hn : n ≤ l.length * k) :
    bitsPoly (extended n l) = X ^ n * bitsPoly (complementFirst n (messageBits l)) := by
  rw [bitsPoly_extended, bitsPoly_complementFirst (by simpa using hn), length_messageBits, mul_add,
    ← mul_assoc, ← pow_add, Nat.add_sub_of_le hn, add_comm]

theorem wordPoly_allOnes : wordPoly (BitVec.allOnes n) = bitsPoly (List.replicate n true) := by
  refine congrArg bitsPoly (List.ext_getElem (by simp) fun i hi _ => ?_)
  simpa [wordBits] using hi

/-- **The register that starts with all ones ends with the remainder of the extended message.** -/
theorem foldl_shiftIn_allOnes (hk : k ≤ n) (p : BitVec n) (l : List (BitVec k)) :
    l.foldl (shiftIn p) (BitVec.allOnes n) = reversed n (bitsPoly (extended n l) %ₘ gen p) := by
  rw [← wordPoly_eq_modByMonic (w := l.foldl (shiftIn p) (BitVec.allOnes n)), reversed_wordPoly]
  rw [residue_foldl_shiftIn hk, wordPoly_allOnes, bitsPoly_extended]

/-! ## Bursts -/

theorem isCoprime_gen_X {p : BitVec n} (hp : p.msb = true) (hn : 0 < n) : IsCoprime (gen p) X := by
  have hzero : (gen p - 1).coeff 0 = 0 := by
    rw [gen, coeff_sub, coeff_add, coeff_X_pow, if_neg hn.ne, coeff_wordPoly, coeff_one_zero]
    change 0 + bit p.msb - 1 = 0
    rw [hp]
    decide
  obtain ⟨q, hq⟩ := X_dvd_iff.mpr hzero
  exact ⟨1, -q, by linear_combination hq⟩

/-- **A polynomial whose terms all lie within the width of the register is no multiple of the
generator.** -/
theorem eq_zero_of_gen_dvd {p : BitVec n} (hp : p.msb = true) {f : (ZMod 2)[X]} {e : ℕ}
    (hf : ∀ d, f.coeff d ≠ 0 → e ≤ d ∧ d < e + n) (hdvd : gen p ∣ f) : f = 0 := by
  have hn : 0 < n := BitVec.lt_of_getMsbD hp
  obtain ⟨g, rfl⟩ : X ^ e ∣ f := X_pow_dvd_iff.mpr fun d hd => by
    by_contra h
    exact hd.not_ge (hf d h).1
  have hg : g.degree < (gen p).degree := by
    rw [degree_gen]
    refine (degree_lt_iff_coeff_zero _ _).mpr fun d hd => ?_
    by_contra h
    rw [← coeff_X_pow_mul g e d] at h
    have := (hf _ h).2
    omega
  have hgdvd : gen p ∣ g := ((isCoprime_gen_X hp hn).pow_right).dvd_of_dvd_mul_left hdvd
  by_contra hne
  exact (monic_gen p).not_dvd_of_degree_lt (right_ne_zero_of_mul hne) hg hgdvd

theorem bitsPoly_injective {l m : List Bool} (hlen : l.length = m.length)
    (h : bitsPoly l = bitsPoly m) : l = m := by
  refine List.reverse_injective (List.ext_getElem (by simpa using hlen) fun i hi hi' => ?_)
  have hcoeff : (bitsPoly l).coeff i = (bitsPoly m).coeff i := by rw [h]
  rw [coeff_bitsPoly, coeff_bitsPoly, List.getD_eq_getElem _ _ hi,
    List.getD_eq_getElem _ _ hi'] at hcoeff
  exact bit_injective hcoeff

theorem messageBits_injective (hk : 0 < k) {a b : List (BitVec k)}
    (h : messageBits a = messageBits b) : a = b := by
  induction a generalizing b with
  | nil =>
    have hlen := congrArg List.length h
    rw [length_messageBits, length_messageBits, List.length_nil, Nat.zero_mul] at hlen
    exact (List.eq_nil_of_length_eq_zero ((Nat.mul_eq_zero.mp hlen.symm).resolve_right hk.ne')).symm
  | cons x a ih =>
    cases b with
    | nil =>
      have hlen := congrArg List.length h
      rw [length_messageBits, length_messageBits, List.length_nil, Nat.zero_mul] at hlen
      exact absurd ((Nat.mul_eq_zero.mp hlen).resolve_right hk.ne') (Nat.succ_ne_zero _)
    | cons y b =>
      obtain ⟨hxy, hab⟩ := List.append_inj h (by simp)
      have hword : wordPoly x = wordPoly y := congrArg bitsPoly hxy
      rw [ih hab, ← reversed_wordPoly x, hword, reversed_wordPoly]

/-- The terms of the difference of two strings stand where the strings differ. -/
theorem coeff_sub_ne_zero {l m : List Bool} (hlen : l.length = m.length) {d : ℕ}
    (h : (bitsPoly l - bitsPoly m).coeff d ≠ 0) :
    d < l.length ∧ l.getD (l.length - 1 - d) false ≠ m.getD (l.length - 1 - d) false := by
  rw [coeff_sub, coeff_bitsPoly, coeff_bitsPoly] at h
  obtain hd | hd := Nat.lt_or_ge d l.length
  · refine ⟨hd, fun heq => h ?_⟩
    rw [List.getD_reverse _ hd, List.getD_reverse _ (hlen ▸ hd), heq, ← hlen, sub_self]
  · rw [List.getD_eq_default _ _ (by simpa using hd),
      List.getD_eq_default _ _ (by simpa [← hlen] using hd), sub_self] at h
    exact absurd rfl h

/-- **Messages of one length that differ only within the width of the register do not leave it the
same.** -/
theorem eq_of_foldl_shiftIn_eq (hk : k ≤ n) (hpos : 0 < k) {p : BitVec n} (hp : p.msb = true)
    {w : BitVec n} {a b : List (BitVec k)} {s : ℕ} (hlen : a.length = b.length)
    (hburst : ∀ i, (messageBits a).getD i false ≠ (messageBits b).getD i false → s ≤ i ∧ i < s + n)
    (h : a.foldl (shiftIn p) w = b.foldl (shiftIn p) w) : a = b := by
  have hbits : (messageBits a).length = (messageBits b).length := by
    rw [length_messageBits, length_messageBits, hlen]
  have hres := congrArg (residue p) h
  rw [residue_foldl_shiftIn hk, residue_foldl_shiftIn hk, AdjoinRoot.mk_eq_mk, hlen,
    add_sub_add_left_eq_sub, ← mul_sub] at hres
  have hdvd : gen p ∣ bitsPoly (messageBits a) - bitsPoly (messageBits b) :=
    ((isCoprime_gen_X hp (BitVec.lt_of_getMsbD hp)).pow_right).dvd_of_dvd_mul_left hres
  refine messageBits_injective hpos (bitsPoly_injective hbits (sub_eq_zero.mp ?_))
  refine eq_zero_of_gen_dvd hp (e := (messageBits a).length - s - n) (fun d hd => ?_) hdvd
  obtain ⟨hlt, hne⟩ := coeff_sub_ne_zero hbits hd
  have := hburst _ hne
  omega

end Crc

end Machinery
