import Mathlib.Data.BitVec
import Mathlib.Data.Set.Lattice
import Mathlib.Order.CompletePartialOrder

/-!
# Machinery/Memory — byte-addressed memory

    span p n  =  p, p + 1, …, p + (n - 1)      addresses wrap at the end of the address space

A memory is its bytes.  `read` and `write` move runs of bytes; a write changes nothing outside the
`span` it covers, so what lies in disjoint spans does not interfere (`read_write_of_disjoint`), and
writing what is there changes nothing at all (`write_read`).  Addresses are compared through their
distance from a base (`mem_span_iff`), which makes spans laid out behind one another disjoint even
where they wrap.
-/

namespace Machinery

/-- A byte for each address. -/
abbrev Memory (w : ℕ) := BitVec w → BitVec 8

variable {w : ℕ}

/-- The `n` addresses from `p` on. -/
def span (p : BitVec w) (n : ℕ) : Set (BitVec w) := {a | (a - p).toNat < n}

instance (p : BitVec w) (n : ℕ) : DecidablePred (· ∈ span p n) := fun a =>
  inferInstanceAs (Decidable ((a - p).toNat < n))

namespace Memory

/-- The `n` bytes from `p` on. -/
def read (m : Memory w) (p : BitVec w) (n : ℕ) : List (BitVec 8) :=
  (List.range n).map fun k => m (p + BitVec.ofNat w k)

/-- The bytes of `l` from `p` on, and what was there everywhere else. -/
def write (m : Memory w) (p : BitVec w) (l : List (BitVec 8)) : Memory w := fun a =>
  l[(a - p).toNat]?.getD (m a)

end Memory

variable {m m' : Memory w} {p q a : BitVec w} {l : List (BitVec 8)} {n k i j : ℕ}

@[simp] theorem mem_span : a ∈ span p n ↔ (a - p).toNat < n := Iff.rfl

theorem toNat_add_sub (p : BitVec w) (k : ℕ) : (p + BitVec.ofNat w k - p).toNat = k % 2 ^ w := by
  rw [add_sub_cancel_left, BitVec.toNat_ofNat]

theorem add_mem_span (h : k < n) : p + BitVec.ofNat w k ∈ span p n := by
  rw [mem_span, toNat_add_sub]
  exact (Nat.mod_le k _).trans_lt h

/-- An address is its distance from a base. -/
theorem eq_add_ofNat (a p : BitVec w) : a = p + BitVec.ofNat w (a - p).toNat := by
  rw [BitVec.ofNat_toNat, BitVec.setWidth_eq, add_sub_cancel]

theorem add_ofNat_inj (hi : i < 2 ^ w) (hj : j < 2 ^ w) :
    p + BitVec.ofNat w i = p + BitVec.ofNat w j ↔ i = j := by
  refine ⟨fun h => ?_, fun h => h ▸ rfl⟩
  have hnat := congrArg BitVec.toNat (add_left_cancel h)
  rwa [BitVec.toNat_ofNat, BitVec.toNat_ofNat, Nat.mod_eq_of_lt hi, Nat.mod_eq_of_lt hj] at hnat

/-- **A span at some distance from a base**, as distances from that base. -/
theorem mem_span_iff (h : i + n ≤ 2 ^ w) :
    a ∈ span (p + BitVec.ofNat w i) n ↔ i ≤ (a - p).toNat ∧ (a - p).toNat < i + n := by
  obtain rfl | hn := Nat.eq_zero_or_pos n
  · simp only [mem_span, Nat.not_lt_zero, Nat.add_zero, false_iff]
    omega
  have hi : i % 2 ^ w = i := Nat.mod_eq_of_lt (by omega)
  have hx := (a - p).isLt
  rw [mem_span, sub_add_eq_sub_sub, BitVec.toNat_sub, BitVec.toNat_ofNat, hi]
  generalize (a - p).toNat = x at hx
  rcases Nat.lt_or_ge x i with hlt | hge
  · rw [Nat.mod_eq_of_lt (by omega)]
    omega
  · rw [show 2 ^ w - i + x = x - i + 2 ^ w by omega, Nat.add_mod_right, Nat.mod_eq_of_lt (by omega)]
    omega

/-- **Spans behind one another are disjoint.** -/
theorem disjoint_span (hij : i + n ≤ j) (hj : j + k ≤ 2 ^ w) :
    Disjoint (span (p + BitVec.ofNat w i) n) (span (p + BitVec.ofNat w j) k) := by
  rw [Set.disjoint_left]
  intro a ha ha'
  rw [mem_span_iff (by omega)] at ha ha'
  omega

theorem span_subset (h : i + n ≤ k) (hk : k ≤ 2 ^ w) :
    span (p + BitVec.ofNat w i) n ⊆ span p k := by
  intro a ha
  rw [mem_span_iff (by omega)] at ha
  rw [mem_span]
  omega

namespace Memory

@[simp] theorem length_read (m : Memory w) (p : BitVec w) (n : ℕ) : (m.read p n).length = n := by
  rw [read, List.length_map, List.length_range]

theorem read_congr (h : ∀ a ∈ span p n, m a = m' a) : m.read p n = m'.read p n :=
  List.map_congr_left fun _ hk => h _ (add_mem_span (List.mem_range.mp hk))

theorem write_of_notMem (h : a ∉ span p l.length) : m.write p l a = m a := by
  rw [write, List.getElem?_eq_none (not_lt.mp h), Option.getD_none]

theorem write_add (hk : k < l.length) (hk' : k < 2 ^ w) :
    m.write p l (p + BitVec.ofNat w k) = l[k] := by
  rw [write, toNat_add_sub, Nat.mod_eq_of_lt hk', List.getElem?_eq_getElem hk, Option.getD_some]

/-- A byte written. -/
theorem write_singleton (m : Memory w) (p : BitVec w) (x : BitVec 8) :
    m.write p [x] = Function.update m p x := by
  funext a
  obtain rfl | ha := eq_or_ne a p
  · rw [Function.update_self, write, sub_self]
    rfl
  · rw [Function.update_of_ne ha]
    refine write_of_notMem fun hin => ha (sub_eq_zero.mp (BitVec.eq_of_toNat_eq ?_))
    exact (Nat.lt_one_iff.mp hin).trans BitVec.toNat_zero.symm

/-- **What lies elsewhere reads as before.** -/
theorem read_write_of_disjoint (h : Disjoint (span p n) (span q l.length)) :
    (m.write q l).read p n = m.read p n :=
  read_congr fun _ ha => write_of_notMem (Set.disjoint_left.mp h ha)

/-- **What was written is read back.** -/
theorem read_write (h : l.length ≤ 2 ^ w) : (m.write p l).read p l.length = l := by
  refine List.ext_getElem (length_read _ _ _) fun k hk hk' => ?_
  simp only [read, List.getElem_map, List.getElem_range]
  exact write_add hk' (by omega)

/-- **Writing what is there changes nothing.** -/
theorem write_read (m : Memory w) (p : BitVec w) (n : ℕ) : m.write p (m.read p n) = m := by
  funext a
  by_cases ha : (a - p).toNat < n
  · have hlen : (a - p).toNat < (m.read p n).length := by rwa [length_read]
    rw [write, List.getElem?_eq_getElem hlen, Option.getD_some]
    simp only [read, List.getElem_map, List.getElem_range, ← eq_add_ofNat]
  · exact write_of_notMem (by rwa [length_read])

end Memory

end Machinery
