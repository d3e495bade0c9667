import Mathlib.Data.BitVec
import Mathlib.Data.Set.Basic

/-!
# Machinery/Mask — bit masks as finite sets

A `BitVec w` read as the set of its one bits: `i ∈ m`, `m ⊆ m'`.  The bitwise operations are the
set operations (`mem_and`, `mem_or`, `mem_not`), so a goal about masks becomes a goal about
membership by `ext_mem`, and an equation that a program tests (`m &&& k ≠ 0`, `m &&& k = k`) becomes
the set relation it stands for.
-/

namespace Machinery

namespace Mask

variable {w : ℕ} {a b c : BitVec w} {i : ℕ}

/-- A mask contains the positions of its one bits. -/
instance membership : Membership ℕ (BitVec w) := ⟨fun m i => m.getLsbD i = true⟩

instance hasSubset : HasSubset (BitVec w) := ⟨fun a b => ∀ i, i ∈ a → i ∈ b⟩

theorem mem_def : i ∈ a ↔ a.getLsbD i = true := Iff.rfl

theorem subset_def : a ⊆ b ↔ ∀ i, i ∈ a → i ∈ b := Iff.rfl

instance decidableMem : Decidable (i ∈ a) := inferInstanceAs (Decidable (_ = true))

theorem lt_of_mem (h : i ∈ a) : i < w := BitVec.lt_of_getLsbD h

@[simp] theorem mem_and : i ∈ a &&& b ↔ i ∈ a ∧ i ∈ b := by
  simp only [mem_def, BitVec.getLsbD_and, Bool.and_eq_true]

@[simp] theorem mem_or : i ∈ a ||| b ↔ i ∈ a ∨ i ∈ b := by
  simp only [mem_def, BitVec.getLsbD_or, Bool.or_eq_true]

theorem mem_not : i ∈ ~~~a ↔ i < w ∧ i ∉ a := by
  simp only [mem_def, BitVec.getLsbD_not, Bool.and_eq_true, decide_eq_true_eq,
    Bool.not_eq_true', Bool.not_eq_true]

/-- Clearing the bits of a mask is set difference. -/
@[simp] theorem mem_and_not : i ∈ a &&& ~~~b ↔ i ∈ a ∧ i ∉ b := by
  rw [mem_and, mem_not]
  exact ⟨fun h => ⟨h.1, h.2.2⟩, fun h => ⟨h.1, lt_of_mem h.1, h.2⟩⟩

@[simp] theorem notMem_zero : i ∉ (0 : BitVec w) := by simp [mem_def]

/-- Masks with the same bits are equal. -/
theorem ext_mem (h : ∀ i, i ∈ a ↔ i ∈ b) : a = b :=
  BitVec.eq_of_getLsbD_eq fun i _ => Bool.eq_iff_iff.mpr (h i)

@[refl, simp] theorem subset_refl (a : BitVec w) : a ⊆ a := fun _ h => h

theorem subset_trans (hab : a ⊆ b) (hbc : b ⊆ c) : a ⊆ c := fun i h => hbc i (hab i h)

theorem subset_antisymm (hab : a ⊆ b) (hba : b ⊆ a) : a = b :=
  ext_mem fun i => ⟨hab i, hba i⟩

theorem eq_zero_iff : a = 0 ↔ ∀ i, i ∉ a :=
  ⟨fun h => h ▸ fun _ => notMem_zero, fun h => ext_mem fun i => ⟨fun hi => absurd hi (h i),
    fun hi => absurd hi notMem_zero⟩⟩

theorem ne_zero_iff : a ≠ 0 ↔ ∃ i, i ∈ a := by
  rw [ne_eq, eq_zero_iff]
  push Not
  exact Iff.rfl

/-- **Two masks meet** exactly when the program's test `a & b` is nonzero. -/
theorem and_ne_zero_iff : a &&& b ≠ 0 ↔ ∃ i, i ∈ a ∧ i ∈ b := by
  simp only [ne_zero_iff, mem_and]

theorem and_ne_zero_mono {d : BitVec w} (h : a &&& b ≠ 0) (hac : a ⊆ c) (hbd : b ⊆ d) :
    c &&& d ≠ 0 := by
  obtain ⟨i, ha, hb⟩ := and_ne_zero_iff.mp h
  exact and_ne_zero_iff.mpr ⟨i, hac i ha, hbd i hb⟩

theorem and_eq_zero_iff : a &&& b = 0 ↔ ∀ i, i ∈ a → i ∉ b := by
  simp only [eq_zero_iff, mem_and, not_and]

/-- **One mask contains another** exactly when the program's test `(a & b) == b` succeeds. -/
theorem and_eq_right_iff : a &&& b = b ↔ b ⊆ a := by
  refine ⟨fun h i hi => ?_, fun h => ext_mem fun i => ?_⟩
  · rw [← h, mem_and] at hi
    exact hi.1
  · rw [mem_and]
    exact ⟨And.right, fun hi => ⟨h i hi, hi⟩⟩

theorem and_not_eq_zero_iff : a &&& ~~~b = 0 ↔ a ⊆ b := by
  simp only [eq_zero_iff, mem_and_not, not_and, not_not, subset_def]

instance decidableSubset : Decidable (a ⊆ b) :=
  decidable_of_iff (a &&& ~~~b = 0) and_not_eq_zero_iff

@[simp] theorem zero_subset (a : BitVec w) : 0 ⊆ a := fun _ h => absurd h notMem_zero

theorem subset_zero_iff : a ⊆ 0 ↔ a = 0 :=
  ⟨fun h => subset_antisymm h (zero_subset a), fun h => h ▸ subset_refl a⟩

theorem subset_or_left (a b : BitVec w) : a ⊆ a ||| b := fun _ h => mem_or.mpr (Or.inl h)

theorem zero_or_eq (a : BitVec w) : 0 ||| a = a := BitVec.zero_or

/-- The mask of one bit. -/
theorem mem_twoPow {j : ℕ} (hi : i < w) : j ∈ BitVec.twoPow w i ↔ j = i := by
  rw [mem_def, BitVec.getLsbD_twoPow, Bool.and_eq_true, decide_eq_true_eq, decide_eq_true_eq]
  exact ⟨fun h => h.2.symm, fun h => ⟨hi, h.symm⟩⟩

theorem twoPow_ne_zero (hi : i < w) : BitVec.twoPow w i ≠ 0 :=
  ne_zero_iff.mpr ⟨i, (mem_twoPow hi).mpr rfl⟩

theorem or_subset_or (h : a ⊆ b) (c : BitVec w) : a ||| c ⊆ b ||| c :=
  fun i hi => mem_or.mpr ((mem_or.mp hi).imp (h i) id)

end Mask

end Machinery
