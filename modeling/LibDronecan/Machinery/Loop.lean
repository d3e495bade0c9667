import Mathlib.Data.Nat.Notation

/-!
# Machinery/Loop — loops that may not end

    s ──body──▸ t ──body──▸ … ──body──▸ result

A loop is its body, and a run of it is given a number of turns: `loop body n s` is `none` while it
is still going round.  Turns beyond those it needs change nothing (`loop_of_le`), so what a loop
`Ends` with is unique, and a body that keeps some states among themselves never ends from them
(`loop_eq_none`).
-/

namespace Machinery

/-- One turn of a loop: go round again, or leave with a result. -/
inductive Turn (σ ρ : Type*) where
  | again (s : σ)
  | leave (r : ρ)

/-- How code that follows pointers comes back: through a null one, or with a state. -/
inductive Exit (σ : Type*) where
  | nullDeref
  | returned (s : σ)

/-- One piece of such code after another. -/
def Exit.bind {σ τ : Type*} (r : Option (Exit σ)) (f : σ → Option (Exit τ)) : Option (Exit τ) :=
  match r with
  | none => none
  | some .nullDeref => some .nullDeref
  | some (.returned s) => f s

theorem Exit.bind_eq_returned {σ τ : Type*} {r : Option (Exit σ)} {f : σ → Option (Exit τ)}
    {t : τ} : Exit.bind r f = some (.returned t)
      ↔ ∃ s, r = some (.returned s) ∧ f s = some (.returned t) := by
  match r with
  | none => simp [Exit.bind]
  | some .nullDeref => simp [Exit.bind]
  | some (.returned s) => simp [Exit.bind]

variable {σ ρ : Type*} {body : σ → Turn σ ρ}

/-- The result of a loop that leaves within `n` turns. -/
def loop (body : σ → Turn σ ρ) : ℕ → σ → Option ρ
  | 0, _ => none
  | n + 1, s =>
      match body s with
      | .again t => loop body n t
      | .leave r => some r

theorem loop_of_leave {s : σ} {r : ρ} (h : body s = .leave r) (n : ℕ) :
    loop body (n + 1) s = some r := by rw [loop, h]

theorem loop_of_again {s t : σ} (h : body s = .again t) (n : ℕ) :
    loop body (n + 1) s = loop body n t := by rw [loop, h]

/-- Further turns change nothing. -/
theorem loop_of_le {m n : ℕ} (hmn : m ≤ n) {s : σ} {r : ρ} (h : loop body m s = some r) :
    loop body n s = some r := by
  induction m generalizing n s with
  | zero => cases h
  | succ m ih =>
    obtain ⟨n, rfl⟩ : ∃ k, n = k + 1 := ⟨n - 1, by omega⟩
    cases hb : body s with
    | leave r' => rwa [loop_of_leave hb] at h ⊢
    | again t =>
      rw [loop_of_again hb] at h ⊢
      exact ih (by omega) h

/-- **A loop ends with one result**, however many turns it is given. -/
theorem loop_unique {m n : ℕ} {s : σ} {r r' : ρ} (h : loop body m s = some r)
    (h' : loop body n s = some r') : r = r' := by
  have hm := loop_of_le (Nat.le_max_left m n) h
  rw [loop_of_le (Nat.le_max_right m n) h'] at hm
  exact (Option.some.inj hm).symm

/-- **The invariant rule of a loop**: what every turn keeps it leaves with. -/
theorem loop_induct {P : σ → Prop} {Q : ρ → Prop}
    (hagain : ∀ s t, P s → body s = .again t → P t) (hleave : ∀ s r, P s → body s = .leave r → Q r)
    {s : σ} (hs : P s) {n : ℕ} {r : ρ} (h : loop body n s = some r) : Q r := by
  induction n generalizing s with
  | zero => cases h
  | succ n ih =>
    cases hb : body s with
    | leave r' =>
      rw [loop_of_leave hb] at h
      exact Option.some.inj h ▸ hleave s r' hs hb
    | again t =>
      rw [loop_of_again hb] at h
      exact ih (hagain s t hs hb) h

/-- **A loop that goes round and round**: no number of turns is enough where every turn leads to
such a state again. -/
theorem loop_eq_none {P : σ → Prop} (hP : ∀ s, P s → ∃ t, body s = .again t ∧ P t) {s : σ}
    (hs : P s) (n : ℕ) : loop body n s = none := by
  induction n generalizing s with
  | zero => rfl
  | succ n ih =>
    obtain ⟨t, hb, ht⟩ := hP s hs
    rw [loop_of_again hb, ih ht]

/-- **A loop that takes one object of a list each turn** ends with the list. -/
theorem loop_of_list {ι : Type*} {I : List ι → σ → Prop} {Q : ρ → Prop}
    (hstep : ∀ a l s, I (a :: l) s → ∃ t, body s = .again t ∧ I l t)
    (hend : ∀ s, I [] s → ∃ r, body s = .leave r ∧ Q r) {l : List ι} {s : σ} (h : I l s) :
    ∃ r, loop body (l.length + 1) s = some r ∧ Q r := by
  induction l generalizing s with
  | nil =>
    obtain ⟨r, hb, hr⟩ := hend s h
    exact ⟨r, loop_of_leave hb 0, hr⟩
  | cons a l ih =>
    obtain ⟨t, hb, ht⟩ := hstep a l s h
    obtain ⟨r, hr, hQ⟩ := ih ht
    exact ⟨r, (loop_of_again hb _).trans hr, hQ⟩

/-- …and the same with the objects it has taken, of the whole list. -/
theorem loop_of_walk {ι : Type*} {I : List ι → List ι → σ → Prop} {Q : ρ → Prop} {l : List ι}
    (hstep : ∀ done a todo s, done ++ a :: todo = l → I done (a :: todo) s →
      ∃ t, body s = .again t ∧ I (done ++ [a]) todo t)
    (hend : ∀ s, I l [] s → ∃ r, body s = .leave r ∧ Q r) {s : σ} (h : I [] l s) :
    ∃ r, loop body (l.length + 1) s = some r ∧ Q r := by
  refine loop_of_list (I := fun todo s => ∃ done, done ++ todo = l ∧ I done todo s) ?_ ?_
    ⟨[], rfl, h⟩
  · rintro a todo s ⟨done, hl, hs⟩
    obtain ⟨t, hb, ht⟩ := hstep done a todo s hl hs
    refine ⟨t, hb, done ++ [a], ?_, ht⟩
    rw [← hl, List.append_assoc, List.singleton_append]
  · rintro s ⟨done, hl, hs⟩
    rw [List.append_nil] at hl
    exact hend s (hl ▸ hs)

/-! ## Two loops in step -/

/-- Two turns in step: both go round again, or both leave. -/
inductive Turn.Rel {σ σ' ρ ρ' : Type*} (R : σ → σ' → Prop) (S : ρ → ρ' → Prop) :
    Turn σ ρ → Turn σ' ρ' → Prop where
  | again {s : σ} {s' : σ'} (h : R s s') : Turn.Rel R S (.again s) (.again s')
  | leave {r : ρ} {r' : ρ'} (h : S r r') : Turn.Rel R S (.leave r) (.leave r')

/-- **The two-run rule of a loop**: bodies that keep two states related come to related results in
the same number of turns, or neither does. -/
theorem loop_rel {σ' ρ' : Type*} {body' : σ' → Turn σ' ρ'} {R : σ → σ' → Prop}
    {S : ρ → ρ' → Prop} (hbody : ∀ s s', R s s' → Turn.Rel R S (body s) (body' s')) {s : σ}
    {s' : σ'} (h : R s s') (n : ℕ) : Option.Rel S (loop body n s) (loop body' n s') := by
  induction n generalizing s s' with
  | zero => exact .none
  | succ n ih =>
    have hturn := hbody s s' h
    rw [loop, loop]
    generalize body s = t at hturn ⊢
    generalize body' s' = t' at hturn ⊢
    cases hturn with
    | again ht => exact ih ht
    | leave hr => exact .some hr

/-- …also where a loop within the turn may be the one that does not end. -/
theorem loop_join_rel {σ' ρ' : Type*} {body : σ → Turn σ (Option ρ)}
    {body' : σ' → Turn σ' (Option ρ')} {R : σ → σ' → Prop} {S : ρ → ρ' → Prop}
    (hbody : ∀ s s', R s s' → Turn.Rel R (Option.Rel S) (body s) (body' s')) {s : σ} {s' : σ'}
    (h : R s s') (n : ℕ) : Option.Rel S (loop body n s).join (loop body' n s').join := by
  have hrel := loop_rel hbody h n
  generalize loop body n s = r at hrel ⊢
  generalize loop body' n s' = r' at hrel ⊢
  cases hrel with
  | none => exact .none
  | some hr => exact hr

/-! ## Code with several loops -/

/-- **Code whose turns do not matter**: however many each of its loops is given, if it comes back,
it does so in one way. -/
def TurnFree (f : ℕ → Option ρ) : Prop := ∀ ⦃m n r r'⦄, f m = some r → f n = some r' → r = r'

theorem turnFree_some (r : ρ) : TurnFree fun _ => some r := fun _ _ _ _ h h' =>
  Option.some.inj (h.symm.trans h')

theorem turnFree_loop (body : σ → Turn σ ρ) (s : σ) : TurnFree fun n => loop body n s :=
  fun _ _ _ _ h h' => loop_unique h h'

/-- A loop whose turns come back from more of their own loops ends the same way. -/
theorem loop_nested_mono {body body' : σ → Turn σ (Option ρ)}
    (hbody : ∀ s, body s = .leave none ∨ body' s = body s) {s : σ} {n : ℕ} {r : ρ}
    (h : loop body n s = some (some r)) : loop body' n s = some (some r) := by
  induction n generalizing s with
  | zero => cases h
  | succ n ih =>
    obtain hb | hb := hbody s
    · rw [loop_of_leave hb] at h
      cases h
    · rw [loop] at h ⊢
      rw [hb]
      cases hs : body s with
      | leave r' => rwa [hs] at h
      | again t =>
        rw [hs] at h
        exact ih h

/-- **Loops within a loop**, all of them given as many turns, are such code. -/
theorem turnFree_nested {body : ℕ → σ → Turn σ (Option ρ)}
    (hbody : ∀ ⦃m n⦄, m ≤ n → ∀ s, body m s = .leave none ∨ body n s = body m s) (s : σ) :
    TurnFree fun n => (loop (body n) n s).join := by
  have hmono ⦃m n : ℕ⦄ (hmn : m ≤ n) {r : ρ} (h : (loop (body m) m s).join = some r) :
      loop (body n) n s = some (some r) :=
    loop_of_le hmn (loop_nested_mono (hbody hmn) (Option.join_eq_some_iff.mp h))
  intro m n r r' h h'
  have hm := hmono (Nat.le_max_left m n) h
  rw [hmono (Nat.le_max_right m n) h'] at hm
  exact (Option.some.inj (Option.some.inj hm)).symm

theorem TurnFree.map {τ : Type*} {f : ℕ → Option ρ} (hf : TurnFree f) (g : ρ → τ) :
    TurnFree fun n => (f n).map g := by
  intro m n r r' h h'
  obtain ⟨x, hx, rfl⟩ := Option.map_eq_some_iff.mp h
  obtain ⟨y, hy, rfl⟩ := Option.map_eq_some_iff.mp h'
  rw [hf hx hy]

theorem TurnFree.bind {τ : Type*} {f : ℕ → Option (Exit σ)} {g : ℕ → σ → Option (Exit τ)}
    (hf : TurnFree f) (hg : ∀ s, TurnFree fun n => g n s) :
    TurnFree fun n => Exit.bind (f n) (g n) := by
  intro m n r r' h h'
  cases hm : f m with
  | none => simp only [Exit.bind, hm, reduceCtorEq] at h
  | some x =>
    cases hn : f n with
    | none => simp only [Exit.bind, hn, reduceCtorEq] at h'
    | some y =>
      obtain rfl := hf hm hn
      cases x with
      | nullDeref =>
        simp only [Exit.bind, hm, hn] at h h'
        exact Option.some.inj (h.symm.trans h')
      | returned s =>
        simp only [Exit.bind, hm, hn] at h h'
        exact hg s h h'

end Machinery
