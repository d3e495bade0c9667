import Mathlib.Data.Fintype.Card
import Mathlib.Order.WellFounded
import LibDronecan.Machinery.Run

/-!
# Machinery/Deadlock — waiting in a circle

    x ──waits──▸ y ──waits──▸ z ──waits──▸ x

Finitely many parties of whom each waits for another wait in a circle somewhere, and a circle is a
set in which each waits for another (`exists_transGen_self_iff`).  So if a machine that is not at
rest can always either come closer to it or has such a set, and nothing ever waits in a circle, then
it can come to rest from wherever it is (`Machine.exists_run_of_acyclic`).

`Owned` is the table of a set of locks: each has the holder that owns it, so no two own one.
-/

open Relation

namespace Machinery

variable {τ : Type*} {r : τ → τ → Prop}

/-- A circle is a set in which everyone has a successor. -/
theorem exists_transGen_self_iff [Finite τ] :
    (∃ x, TransGen r x x) ↔ ∃ D : Set τ, D.Nonempty ∧ ∀ x ∈ D, ∃ y ∈ D, r x y := by
  constructor
  · rintro ⟨w, hw⟩
    refine ⟨{x | TransGen r w x ∧ TransGen r x w}, ⟨w, hw, hw⟩, ?_⟩
    rintro x ⟨hwx, hxw⟩
    obtain ⟨y, hxy, hyw⟩ := TransGen.head'_iff.mp hxw
    have hwy : TransGen r w y := hwx.tail hxy
    exact ⟨y, ⟨hwy, TransGen.trans_right hyw hw⟩, hxy⟩
  · rintro ⟨D, hne, hsucc⟩
    by_contra hacyclic
    have : Std.Irrefl (TransGen (Function.swap r)) :=
      ⟨fun x hx => hacyclic ⟨x, transGen_swap.mp hx⟩⟩
    have hwf : WellFounded (TransGen (Function.swap r)) := Finite.wellFounded_of_trans_of_irrefl _
    obtain ⟨x, hx, hmin⟩ := hwf.has_min D hne
    obtain ⟨y, hy, hxy⟩ := hsucc x hx
    exact hmin y hy (.single hxy)

/-! ## Coming to rest -/

namespace Machine

variable {σ α : Type*} {M : Machine σ α} {J Q : σ → Prop} {A : α → Prop} {s : σ}

/-- What comes closer to `Q` at some step `A` wherever it is not there gets there by such steps. -/
theorem exists_run_of_decreasing (μ : σ → ℕ)
    (hstep : ∀ s, J s → ¬Q s → ∃ a t, A a ∧ M.step s a = some t ∧ J t ∧ μ t < μ s) (hs : J s) :
    ∃ as t, M.run s as = some t ∧ (∀ a ∈ as, A a) ∧ Q t := by
  induction hn : μ s using Nat.strong_induction_on generalizing s with
  | _ n ih =>
    by_cases hQ : Q s
    · exact ⟨[], s, rfl, fun _ h => absurd h List.not_mem_nil, hQ⟩
    · obtain ⟨a, t, ha, hst, ht, hlt⟩ := hstep s hs hQ
      obtain ⟨as, u, hrun, has, hu⟩ := ih (μ t) (hn ▸ hlt) ht rfl
      exact ⟨a :: as, u, by rw [run_cons, hst, Option.bind_some, hrun],
        List.forall_mem_cons.mpr ⟨ha, has⟩, hu⟩

/-- **Without a circle to wait in, a machine can come to rest.** -/
theorem exists_run_of_acyclic [Finite τ] (hacyclic : ∀ x, ¬TransGen r x x) (μ : σ → ℕ)
    (hstep : ∀ s, J s → ¬Q s → (∃ a t, A a ∧ M.step s a = some t ∧ J t ∧ μ t < μ s) ∨
      ∃ D : Set τ, D.Nonempty ∧ ∀ x ∈ D, ∃ y ∈ D, r x y) (hs : J s) :
    ∃ as t, M.run s as = some t ∧ (∀ a ∈ as, A a) ∧ Q t := by
  refine exists_run_of_decreasing μ (fun s hs hQ => (hstep s hs hQ).resolve_right fun hD => ?_) hs
  obtain ⟨x, hx⟩ := exists_transGen_self_iff.mpr hD
  exact hacyclic x hx

end Machine

/-! ## Locks and their holders -/

variable {L : Type*} [DecidableEq L] [DecidableEq τ] {holder : L → Option τ} {owns : τ → Set L}
  {l : L} {x : τ}

omit [DecidableEq L] [DecidableEq τ] in
/-- Every lock has the holder that owns it. -/
def Owned (holder : L → Option τ) (owns : τ → Set L) : Prop :=
  ∀ l x, holder l = some x ↔ l ∈ owns x

theorem Owned.take (h : Owned holder owns) (hfree : holder l = none ∨ holder l = some x) :
    Owned (Function.update holder l (some x)) (Function.update owns x (insert l (owns x))) := by
  intro m y
  have hm := h m y
  obtain rfl | hne := eq_or_ne m l <;> obtain rfl | hy := eq_or_ne y x
  · simp
  · have hnot : holder m ≠ some y := by
      obtain hnone | hx := hfree
      · rw [hnone]
        exact nofun
      · rw [hx]
        exact fun heq => hy (Option.some.inj heq).symm
    simp only [Function.update_self, Function.update_of_ne hy, Option.some.injEq, hy.symm,
      false_iff]
    exact fun hin => hnot (hm.mpr hin)
  · simp [hm, hne]
  · rwa [Function.update_of_ne hne, Function.update_of_ne hy]

theorem Owned.give (h : Owned holder owns) (hl : l ∈ owns x) :
    Owned (Function.update holder l none) (Function.update owns x (owns x \ {l})) := by
  intro m y
  have hm := h m y
  obtain rfl | hne := eq_or_ne m l <;> obtain rfl | hy := eq_or_ne y x
  · simp
  · have hnot : m ∉ owns y := fun hin =>
      hy (Option.some.inj ((hm.mpr hin).symm.trans ((h m x).mpr hl)))
    simpa [Function.update_of_ne hy] using hnot
  · simp [hm, hne]
  · rwa [Function.update_of_ne hne, Function.update_of_ne hy]

end Machinery
