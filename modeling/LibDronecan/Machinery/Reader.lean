import Mathlib.Data.List.ReduceOption
import Mathlib.Logic.Function.Iterate
import Mathlib.Order.Nat

/-!
# Machinery/Reader — a source that is polled until it runs dry

    s ──read──▸ s' ──read──▸ …        each call delivers at most one item, and makes `s` smaller

A call may take something off the source and deliver nothing (a torn item, say), so the number of
calls is not the number of items.  But every call that changes the source shrinks it, so a bounded
number of calls reaches the end: `all` is what they deliver, whatever number of further calls is
made (`delivered_eq_all`), and `all_eq` unfolds it one call at a time.
-/

namespace Machinery

/-- A reader: one call on a source, and the size each call takes from until nothing is left. -/
structure Reader (σ γ : Type*) where
  read : σ → Option γ × σ
  size : σ → ℕ
  shrinks : ∀ s, size (read s).2 < size s ∨ read s = (none, s)

namespace Reader

variable {σ γ : Type*} (R : Reader σ γ)

/-- The results of `n` calls. -/
def calls : ℕ → σ → List (Option γ)
  | 0, _ => []
  | n + 1, s => (R.read s).1 :: calls n (R.read s).2

/-- What `n` calls deliver. -/
def delivered (n : ℕ) (s : σ) : List γ := (R.calls n s).reduceOption

/-- What `n` calls leave of the source. -/
def after (n : ℕ) (s : σ) : σ := (fun s => (R.read s).2)^[n] s

/-- **What a reader delivers to the end of its source.** -/
def all (s : σ) : List γ := R.delivered (R.size s) s

variable {R} {s : σ}

theorem delivered_succ (n : ℕ) (s : σ) :
    R.delivered (n + 1) s = (R.read s).1.toList ++ R.delivered n (R.read s).2 := by
  change ((R.read s).1 :: R.calls n (R.read s).2).reduceOption = _
  cases (R.read s).1 with
  | none => exact List.reduceOption_cons_of_none _
  | some x => exact List.reduceOption_cons_of_some x _

/-- What is delivered, some call has delivered. -/
theorem mem_delivered {x : γ} {n : ℕ} :
    x ∈ R.delivered n s ↔ ∃ m < n, (R.read (R.after m s)).1 = some x := by
  induction n generalizing s with
  | zero => simp [delivered, calls]
  | succ n ih =>
    rw [delivered_succ, List.mem_append, Option.mem_toList, ih]
    constructor
    · rintro (h | ⟨m, hm, h⟩)
      · exact ⟨0, Nat.succ_pos n, h⟩
      · exact ⟨m + 1, Nat.succ_lt_succ hm, h⟩
    · rintro ⟨_ | m, hm, h⟩
      · exact Or.inl h
      · exact Or.inr ⟨m, Nat.lt_of_succ_lt_succ hm, h⟩

theorem after_succ (n : ℕ) (s : σ) : R.after (n + 1) s = (R.read (R.after n s)).2 :=
  Function.iterate_succ_apply' _ n s

/-- Nothing left, nothing delivered. -/
theorem calls_of_dry (h : R.read s = (none, s)) (n : ℕ) : R.calls n s = List.replicate n none := by
  induction n with
  | zero => rfl
  | succ n ih => rw [calls, h, ih, List.replicate_succ]

/-- **Enough calls deliver everything**, and further ones nothing more. -/
theorem delivered_eq_of_le {m n : ℕ} (hm : R.size s ≤ m) (hn : R.size s ≤ n) :
    R.delivered m s = R.delivered n s := by
  induction hk : R.size s using Nat.strong_induction_on generalizing s m n with
  | _ k ih =>
    obtain hlt | hdry := R.shrinks s
    · obtain ⟨m, rfl⟩ := Nat.exists_eq_add_one_of_ne_zero (show m ≠ 0 by omega)
      obtain ⟨n, rfl⟩ := Nat.exists_eq_add_one_of_ne_zero (show n ≠ 0 by omega)
      rw [delivered_succ, delivered_succ]
      refine congrArg _ (ih _ (hk ▸ hlt) ?_ ?_ rfl) <;> omega
    · simp only [delivered, calls_of_dry hdry]
      rw [List.reduceOption_replicate_none, List.reduceOption_replicate_none]

theorem delivered_eq_all {n : ℕ} (hn : R.size s ≤ n) : R.delivered n s = R.all s :=
  delivered_eq_of_le hn le_rfl

/-- **One call, then the rest.** -/
theorem all_eq (s : σ) : R.all s = (R.read s).1.toList ++ R.all (R.read s).2 := by
  have hle : R.size (R.read s).2 ≤ R.size s := by
    obtain hlt | hdry := R.shrinks s
    · exact hlt.le
    · rw [hdry]
  rw [← delivered_eq_all (Nat.le_succ (R.size s)), delivered_succ, delivered_eq_all hle]

theorem all_of_dry (h : R.read s = (none, s)) : R.all s = [] := by
  rw [all, delivered, calls_of_dry h, List.reduceOption_replicate_none]

/-- **Two readers in step deliver the same**: one whose sources stand for the other's. -/
theorem calls_eq_of_read_eq {τ : Type*} {R' : Reader τ γ} {e : τ → σ}
    (h : ∀ t, R.read (e t) = ((R'.read t).1, e (R'.read t).2)) (n : ℕ) (t : τ) :
    R.calls n (e t) = R'.calls n t := by
  induction n generalizing t with
  | zero => rfl
  | succ n ih => rw [calls, calls, h t, ih]

end Reader

end Machinery
