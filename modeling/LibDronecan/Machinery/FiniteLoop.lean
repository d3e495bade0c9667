import LibDronecan.Machinery.Loop
import Mathlib.Data.Fintype.Pigeonhole

/-!
# Machinery/FiniteLoop — loops with finitely many places to be

    s ──body──▸ · ──body──▸ ·    two of n + 1 places are the same, and then the loop goes round

`after body n s` is where a loop is after `n` turns, if it has not left.  Where it goes on from is
read off a key below `n`, so a loop that has not left within `n` turns never does
(`loop_of_key`).
-/

namespace Machinery

variable {σ ρ : Type*} {body : σ → Turn σ ρ}

/-- The state of a loop after `n` turns, `none` if it has left. -/
def after (body : σ → Turn σ ρ) : ℕ → σ → Option σ
  | 0, s => some s
  | n + 1, s =>
      match body s with
      | .again t => after body n t
      | .leave _ => none

@[simp] theorem after_zero (s : σ) : after body 0 s = some s := rfl

theorem after_of_again {s t : σ} (h : body s = .again t) (n : ℕ) :
    after body (n + 1) s = after body n t := by rw [after, h]

/-- A loop is still going round, or it has left. -/
theorem loop_eq_none_iff {n : ℕ} {s : σ} : loop body n s = none ↔ ∃ t, after body n s = some t := by
  induction n generalizing s with
  | zero => exact ⟨fun _ => ⟨s, rfl⟩, fun _ => rfl⟩
  | succ n ih =>
    cases hb : body s with
    | again t => rw [loop_of_again hb, after_of_again hb, ih]
    | leave r => simp [loop, after, hb]

/-- Turns add up. -/
theorem after_add (m n : ℕ) (s : σ) :
    after body (m + n) s = (after body m s).bind (after body n) := by
  induction m generalizing s with
  | zero => rw [Nat.zero_add, after_zero, Option.bind_some]
  | succ m ih =>
    rw [Nat.succ_add]
    cases hb : body s with
    | again t => rw [after_of_again hb, after_of_again hb, ih]
    | leave r => simp only [after, hb, Option.bind_none]

/-- A loop that has not left after `m + n` turns had not after `m`. -/
theorem exists_after_of_le {m n : ℕ} (hmn : m ≤ n) {s u : σ} (h : after body n s = some u) :
    ∃ t, after body m s = some t ∧ after body (n - m) t = some u := by
  rw [← Nat.add_sub_cancel' hmn, after_add] at h
  exact Option.bind_eq_some_iff.mp h

/-- …and so do the turns of a loop that leaves. -/
theorem loop_of_after {m n : ℕ} {s t : σ} (h : after body m s = some t) :
    loop body (m + n) s = loop body n t := by
  induction m generalizing s with
  | zero => rw [Nat.zero_add, Option.some.inj h]
  | succ m ih =>
    rw [Nat.succ_add]
    cases hb : body s with
    | again u => rw [loop_of_again hb, ih (after_of_again hb m ▸ h)]
    | leave r => simp [after, hb] at h

/-- What every turn keeps holds after any number of turns. -/
theorem after_induct {P : σ → Prop} (hP : ∀ s t, P s → body s = .again t → P t) {n : ℕ} {s t : σ}
    (hs : P s) (h : after body n s = some t) : P t := by
  induction n generalizing s with
  | zero => exact Option.some.inj h ▸ hs
  | succ n ih =>
    cases hb : body s with
    | again u => exact ih (hP s u hs hb) (after_of_again hb n ▸ h)
    | leave r => simp [after, hb] at h

variable {P : σ → Prop} {key : σ → ℕ}

/-- Loops at the same key keep step. -/
theorem after_key (hP : ∀ s t, P s → body s = .again t → P t)
    (hdet : ∀ s s' t, P s → P s' → key s = key s' → body s = .again t →
      ∃ t', body s' = .again t' ∧ key t = key t') {n : ℕ} {s s' t : σ} (hs : P s) (hs' : P s')
    (hkey : key s = key s') (h : after body n s = some t) :
    ∃ t', after body n s' = some t' ∧ key t = key t' := by
  induction n generalizing s s' with
  | zero => exact ⟨s', rfl, Option.some.inj h ▸ hkey⟩
  | succ n ih =>
    cases hb : body s with
    | again u =>
      obtain ⟨u', hb', hu⟩ := hdet s s' u hs hs' hkey hb
      rw [after_of_again hb] at h
      rw [after_of_again hb']
      exact ih (hP s u hs hb) (hP s' u' hs' hb') hu h
    | leave r => simp [after, hb] at h

/-- **A loop back where it was goes round for ever.** -/
theorem exists_after_of_cycle (hP : ∀ s t, P s → body s = .again t → P t)
    (hdet : ∀ s s' t, P s → P s' → key s = key s' → body s = .again t →
      ∃ t', body s' = .again t' ∧ key t = key t') {p : ℕ} (hp : 0 < p) {s u : σ} (hs : P s)
    (hu : after body p s = some u) (hkey : key u = key s) (n : ℕ) :
    ∃ t, after body n s = some t := by
  induction n using Nat.strong_induction_on with
  | _ n ih =>
    rcases Nat.lt_or_ge n p with hlt | hge
    · obtain ⟨t, ht, -⟩ := exists_after_of_le hlt.le hu
      exact ⟨t, ht⟩
    · -- the turns left after one round are fewer, and start at the same key
      obtain ⟨t, ht⟩ := ih (n - p) (by omega)
      obtain ⟨t', ht', -⟩ := after_key hP hdet hs (after_induct hP hs hu) hkey.symm ht
      refine ⟨t', ?_⟩
      rw [← Nat.add_sub_cancel' hge, after_add, hu, Option.bind_some, ht']

/-- **A loop whose turns are decided by a key below `n` ends within `n` turns or not at all.** -/
theorem loop_of_key (hP : ∀ s t, P s → body s = .again t → P t) {n : ℕ}
    (hlt : ∀ s, P s → key s < n)
    (hdet : ∀ s s' t, P s → P s' → key s = key s' → body s = .again t →
      ∃ t', body s' = .again t' ∧ key t = key t') {s : σ} (hs : P s) {m : ℕ} {r : ρ}
    (h : loop body m s = some r) : loop body n s = some r := by
  cases hn : loop body n s with
  | some r' => rw [loop_unique h hn]
  | none =>
    obtain ⟨u, hu⟩ := loop_eq_none_iff.mp hn
    have hreach (i : Fin (n + 1)) : ∃ t, after body i s = some t :=
      (exists_after_of_le (Nat.lt_succ_iff.mp i.isLt) hu).imp fun _ ht => ht.1
    choose f hf using hreach
    obtain ⟨i, j, hij, heq⟩ := Fintype.exists_ne_map_eq_of_card_lt
      (fun i => (⟨key (f i), hlt _ (after_induct hP hs (hf i))⟩ : Fin n)) (by simp)
    wlog hlt' : i < j generalizing i j
    · exact this j i hij.symm heq.symm (lt_of_le_of_ne (not_lt.mp hlt') hij.symm)
    have hcycle : after body (j - i) (f i) = some (f j) := by
      obtain ⟨t, ht, htj⟩ := exists_after_of_le (Fin.le_def.mp hlt'.le) (hf j)
      rw [hf i] at ht
      rwa [← Option.some.inj ht] at htj
    obtain ⟨t, ht⟩ := exists_after_of_cycle hP hdet (Nat.sub_pos_of_lt (Fin.lt_def.mp hlt'))
      (after_induct hP hs (hf i)) hcycle (Fin.mk.inj heq).symm m
    have hnone : loop body (i + m) s = none := by
      rw [loop_of_after (hf i)]
      exact loop_eq_none_iff.mpr ⟨t, ht⟩
    rw [loop_of_le (Nat.le_add_left m i) h] at hnone
    cases hnone

end Machinery
