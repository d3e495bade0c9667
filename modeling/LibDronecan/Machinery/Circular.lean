import Mathlib.Data.List.Range
import Mathlib.Logic.Function.Basic
import Mathlib.Order.Basic

/-!
# Machinery/Circular — windows of a circular array

`window mem n p len` is what a reader sees who walks `len` cells around a circle of `n` cells,
starting at `p`.  As long as the walk is shorter than one turn its cells are distinct, so writing
the next cell extends the window by one (`window_update_snoc`) and writing anywhere else leaves it
alone (`window_update_of_forall_ne`).
-/

namespace Machinery

variable {α : Type*}

/-- The `len` cells of a circle of `n` cells met from `p` on. -/
def window (mem : ℕ → α) (n p len : ℕ) : List α :=
  (List.range len).map fun k => mem ((p + k) % n)

@[simp] theorem length_window (mem : ℕ → α) (n p len : ℕ) : (window mem n p len).length = len := by
  simp [window]

@[simp] theorem window_zero (mem : ℕ → α) (n p : ℕ) : window mem n p 0 = [] := rfl

@[simp] theorem getElem_window (mem : ℕ → α) (n p len k : ℕ)
    (hk : k < (window mem n p len).length) :
    (window mem n p len)[k] = mem ((p + k) % n) := by
  simp [window]

theorem getElem?_window (mem : ℕ → α) {n p len k : ℕ} (hk : k < len) :
    (window mem n p len)[k]? = some (mem ((p + k) % n)) := by
  rw [List.getElem?_eq_getElem (by simpa using hk), getElem_window]

/-- A window splits where the walk is interrupted. -/
theorem window_add (mem : ℕ → α) (n p a b : ℕ) :
    window mem n p (a + b) = window mem n p a ++ window mem n (p + a) b := by
  simp only [window, List.range_add, List.map_append, List.map_map]
  refine congrArg _ (List.map_congr_left fun k _ => ?_)
  simp only [Function.comp_apply, Nat.add_assoc]

/-- The start of a walk only matters up to whole turns. -/
theorem window_mod (mem : ℕ → α) (n p len : ℕ) :
    window mem n (p % n) len = window mem n p len :=
  List.map_congr_left fun k _ => congrArg mem (Nat.mod_add_mod p n k)

/-- What is left of a window after its first cells. -/
theorem drop_window (mem : ℕ → α) (n p len k : ℕ) :
    (window mem n p len).drop k = window mem n (p + k) (len - k) := by
  rcases Nat.le_total k len with hk | hk
  · obtain ⟨m, rfl⟩ := Nat.exists_eq_add_of_le hk
    rw [window_add, Nat.add_sub_cancel_left, List.drop_left' (by simp)]
  · rw [List.drop_of_length_le (by simpa using hk), Nat.sub_eq_zero_of_le hk, window_zero]

/-- **Fewer than one turn apart, two steps of a walk are at different cells.** -/
theorem add_mod_ne {n p a b : ℕ} (hab : a < b) (hb : b < n + a) : (p + a) % n ≠ (p + b) % n := by
  intro h
  have hdvd : n ∣ b - a := by
    have := Nat.sub_mod_eq_zero_of_mod_eq h.symm
    rw [Nat.add_sub_add_left] at this
    exact Nat.dvd_of_mod_eq_zero this
  have := Nat.le_of_dvd (by omega) hdvd
  omega

/-- Writing a cell the walk does not meet is invisible. -/
theorem window_update_of_forall_ne (mem : ℕ → α) (n p len i : ℕ) (x : α)
    (h : ∀ k < len, (p + k) % n ≠ i) :
    window (Function.update mem i x) n p len = window mem n p len :=
  List.map_congr_left fun k hk => Function.update_of_ne (h k (List.mem_range.mp hk)) _ _

/-- **Writing the next cell extends the window by one**, short of a full turn. -/
theorem window_update_snoc (mem : ℕ → α) {n p len : ℕ} (x : α) (hlen : len < n) :
    window (Function.update mem ((p + len) % n) x) n p (len + 1) = window mem n p len ++ [x] := by
  rw [window_add, window_update_of_forall_ne _ _ _ _ _ _ fun k hk => add_mod_ne hk (by omega)]
  simp [window]

end Machinery
