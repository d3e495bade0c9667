import Mathlib.Data.List.Basic
import Mathlib.Data.Option.Basic

/-!
# Machinery/Run — machines with partial steps, and what holds along their runs

    s ──a──▸ t ──b──▸ …        `step s a = none` where `a` is not enabled at `s`

Two readings of a run: a condition on the *steps* it takes (`Along`) and a property of the *states*
it goes through (`Always`).  The rules at the end turn one into the other through an invariant:
`always_of_along` is the induction every safety result goes by, and `along_iff_along`,
`always_iff_along` say when the step condition is exact.
-/

namespace Machinery

/-- A machine: the state an action leads to, where it is enabled. -/
structure Machine (σ α : Type*) where
  step : σ → α → Option σ

namespace Machine

variable {σ α : Type*} (M : Machine σ α)

/-- The state a run ends in, `none` once an action is not enabled. -/
def run : σ → List α → Option σ
  | s, [] => some s
  | s, a :: as => (M.step s a).bind fun t => run t as

/-- **A condition on the steps of a run**: it holds of each action, in the state that takes it. -/
def Along (C : σ → α → Prop) : σ → List α → Prop
  | _, [] => True
  | s, a :: as => C s a ∧ ∀ t ∈ M.step s a, Along C t as

/-- **A property of the states of a run**, its first state included. -/
def Always (P : σ → Prop) : σ → List α → Prop
  | s, [] => P s
  | s, a :: as => P s ∧ ∀ t ∈ M.step s a, Always P t as

instance decidableAlong (C : σ → α → Prop) [∀ s a, Decidable (C s a)] :
    ∀ (s : σ) (as : List α), Decidable (M.Along C s as)
  | _, [] => inferInstanceAs (Decidable True)
  | s, a :: as =>
      have (t : σ) : Decidable (M.Along C t as) := decidableAlong C t as
      inferInstanceAs (Decidable (C s a ∧ ∀ t ∈ M.step s a, M.Along C t as))

instance decidableAlways (P : σ → Prop) [DecidablePred P] :
    ∀ (s : σ) (as : List α), Decidable (M.Always P s as)
  | s, [] => inferInstanceAs (Decidable (P s))
  | s, a :: as =>
      have (t : σ) : Decidable (M.Always P t as) := decidableAlways P t as
      inferInstanceAs (Decidable (P s ∧ ∀ t ∈ M.step s a, M.Always P t as))

@[simp] theorem run_nil (s : σ) : M.run s [] = some s := rfl

@[simp] theorem run_cons (s : σ) (a : α) (as : List α) :
    M.run s (a :: as) = (M.step s a).bind fun t => M.run t as := rfl

variable {M} {C D : σ → α → Prop} {P Q J : σ → Prop} {s t : σ} {a : α} {as bs : List α}

@[simp] theorem along_cons :
    M.Along C s (a :: as) ↔ C s a ∧ ∀ t ∈ M.step s a, M.Along C t as := Iff.rfl

theorem run_append (s : σ) (as bs : List α) :
    M.run s (as ++ bs) = (M.run s as).bind fun t => M.run t bs := by
  induction as generalizing s with
  | nil => rfl
  | cons a as ih =>
    simp only [List.cons_append, run_cons, Option.bind_assoc]
    exact congrArg _ (funext fun t => ih t)

/-- Runs compose. -/
theorem run_trans {u : σ} (h : M.run s as = some t) (h' : M.run t bs = some u) :
    M.run s (as ++ bs) = some u := by rw [run_append, h, Option.bind_some, h']

/-- A run of one action is a step. -/
theorem run_singleton (h : M.step s a = some t) : M.run s [a] = some t := by
  rw [run_cons, h, Option.bind_some, run_nil]

theorem Always.head (h : M.Always P s as) : P s := by
  cases as with
  | nil => exact h
  | cons a as => exact h.1

theorem Always.mono (hPQ : ∀ s, P s → Q s) (h : M.Always P s as) : M.Always Q s as := by
  induction as generalizing s with
  | nil => exact hPQ s h
  | cons a as ih => exact ⟨hPQ s h.1, fun t ht => ih (h.2 t ht)⟩

theorem Along.mono (hCD : ∀ s a, C s a → D s a) (h : M.Along C s as) : M.Along D s as := by
  induction as generalizing s with
  | nil => trivial
  | cons a as ih => exact ⟨hCD s a h.1, fun t ht => ih (h.2 t ht)⟩

/-- What a property of the states says of the steps they take. -/
theorem Always.along (hPC : ∀ s a, P s → C s a) (h : M.Always P s as) : M.Along C s as := by
  induction as generalizing s with
  | nil => trivial
  | cons a as ih => exact ⟨hPC s a h.1, fun t ht => ih (h.2 t ht)⟩

/-- A condition on the actions alone, met by every action of the list. -/
theorem along_of_forall_mem (h : ∀ a ∈ as, ∀ s, C s a) : M.Along C s as := by
  induction as generalizing s with
  | nil => trivial
  | cons a as ih =>
    exact ⟨h a List.mem_cons_self s, fun t _ => ih fun b hb => h b (List.mem_cons_of_mem a hb)⟩

theorem along_and : M.Along (fun s a => C s a ∧ D s a) s as ↔ M.Along C s as ∧ M.Along D s as := by
  induction as generalizing s with
  | nil => exact ⟨fun _ => ⟨trivial, trivial⟩, fun _ => trivial⟩
  | cons a as ih =>
    refine ⟨fun h => ⟨⟨h.1.1, fun t ht => (ih.mp (h.2 t ht)).1⟩,
      ⟨h.1.2, fun t ht => (ih.mp (h.2 t ht)).2⟩⟩, fun h => ⟨⟨h.1.1, h.2.1⟩, fun t ht => ?_⟩⟩
    exact ih.mpr ⟨h.1.2 t ht, h.2.2 t ht⟩

/-- **`Always` is what it says**: the property holds wherever a prefix of the run leads. -/
theorem always_iff_forall_prefix :
    M.Always P s as ↔ ∀ bs, bs <+: as → ∀ t, M.run s bs = some t → P t := by
  induction as generalizing s with
  | nil =>
    refine ⟨fun h bs hbs t ht => ?_, fun h => h [] List.nil_prefix s rfl⟩
    obtain rfl := List.prefix_nil.mp hbs
    obtain rfl : s = t := Option.some.inj ht
    exact h
  | cons a as ih =>
    refine ⟨fun h bs hbs t ht => ?_, fun h => ⟨h [] List.nil_prefix s rfl, fun t ht => ?_⟩⟩
    · cases bs with
      | nil =>
        obtain rfl : s = t := Option.some.inj ht
        exact h.1
      | cons b bs =>
        obtain ⟨rfl, hpre⟩ := List.cons_prefix_cons.mp hbs
        obtain ⟨u, hu, hrun⟩ := Option.bind_eq_some_iff.mp ht
        exact ih.mp (h.2 u hu) bs hpre t hrun
    · refine ih.mpr fun bs hbs u hu => h (a :: bs) (List.cons_prefix_cons.mpr ⟨rfl, hbs⟩) u ?_
      rw [run_cons, Option.mem_def.mp ht, Option.bind_some, hu]

/-- Where a run leads, what always holds holds. -/
theorem Always.of_run (h : M.Always P s as) (hrun : M.run s as = some t) : P t :=
  always_iff_forall_prefix.mp h as (List.prefix_refl as) t hrun

/-- **A run that breaks a step condition has a first step that does.** -/
theorem exists_first_of_not_along (h : ¬ M.Along C s as) :
    ∃ bs a cs t, as = bs ++ a :: cs ∧ M.run s bs = some t ∧ M.Along C s bs ∧ ¬ C t a := by
  induction as generalizing s with
  | nil => exact absurd trivial h
  | cons a as ih =>
    by_cases hC : C s a
    · obtain ⟨t, ht, hne⟩ : ∃ t, t ∈ M.step s a ∧ ¬ M.Along C t as := by
        by_contra hne
        exact h ⟨hC, fun t ht => by_contra fun hn => hne ⟨t, ht, hn⟩⟩
      obtain ⟨bs, b, cs, u, rfl, hu, hbs, hb⟩ := ih hne
      rw [Option.mem_def] at ht
      refine ⟨a :: bs, b, cs, u, rfl, ?_, ⟨hC, fun t' ht' => ?_⟩, hb⟩
      · rw [run_cons, ht, Option.bind_some, hu]
      · rw [ht, Option.mem_some_iff] at ht'
        exact ht' ▸ hbs
    · exact ⟨[], a, as, s, rfl, rfl, trivial, hC⟩

/-- A step condition fails along a run exactly where some prefix leads to a step that breaks it. -/
theorem not_along_iff :
    ¬ M.Along C s as ↔ ∃ bs a cs t, as = bs ++ a :: cs ∧ M.run s bs = some t ∧ ¬ C t a := by
  constructor
  · intro h
    obtain ⟨bs, a, cs, t, heq, hrun, -, hC⟩ := exists_first_of_not_along h
    exact ⟨bs, a, cs, t, heq, hrun, hC⟩
  · rintro ⟨bs, a, cs, t, rfl, hrun, hC⟩ h
    induction bs generalizing s with
    | nil =>
      obtain rfl : s = t := Option.some.inj hrun
      exact hC h.1
    | cons b bs ih =>
      obtain ⟨u, hu, hrun⟩ := Option.bind_eq_some_iff.mp hrun
      exact ih hrun (h.2 u hu)

/-! ## The invariant rules -/

/-- **The invariant rule for guarded runs**: what every step meeting `C` preserves holds in every
state of a run whose steps all meet `C`. -/
theorem always_of_along (hs : J s)
    (hstep : ∀ s a t, J s → C s a → M.step s a = some t → J t) (h : M.Along C s as) :
    M.Always J s as := by
  induction as generalizing s with
  | nil => exact hs
  | cons a as ih => exact ⟨hs, fun t ht => ih (hstep s a t hs h.1 ht) (h.2 t ht)⟩

/-- **The invariant rule**: what every step preserves holds in every state. -/
theorem always_of_step (hs : J s) (hstep : ∀ s a t, J s → M.step s a = some t → J t)
    (as : List α) : M.Always J s as :=
  always_of_along (C := fun _ _ => True) hs (fun s a t h _ => hstep s a t h)
    (along_of_forall_mem fun _ _ _ => trivial)

/-- **Along a guarded run, what the invariant makes true of each step is true.** -/
theorem along_of_along (hs : J s) (hD : ∀ s a, J s → C s a → D s a)
    (hstep : ∀ s a t, J s → C s a → M.step s a = some t → J t) (h : M.Along C s as) :
    M.Along D s as := by
  induction as generalizing s with
  | nil => trivial
  | cons a as ih =>
    exact ⟨hD s a hs h.1, fun t ht => ih (hstep s a t hs h.1 ht) (h.2 t ht)⟩

/-- **Along any run, what the invariant makes true of each step is true.** -/
theorem along_of_step (hs : J s) (hD : ∀ s a, J s → D s a)
    (hstep : ∀ s a t, J s → M.step s a = some t → J t) (as : List α) : M.Along D s as :=
  along_of_along (C := fun _ _ => True) hs (fun s a h _ => hD s a h)
    (fun s a t h _ => hstep s a t h) (along_of_forall_mem fun _ _ _ => trivial)

/-- **The simulation rule**: a machine that keeps up with a function at each step keeps up with it
along every run. -/
theorem exists_run_of_simulation {τ : Type*} (R : σ → τ → Prop) (next : τ → α → τ) {u : τ}
    (hs : R s u) (hstep : ∀ s u a, R s u → ∃ t, M.step s a = some t ∧ R t (next u a))
    (as : List α) : ∃ t, M.run s as = some t ∧ R t (as.foldl next u) := by
  induction as generalizing s u with
  | nil => exact ⟨s, rfl, hs⟩
  | cons a as ih =>
    obtain ⟨v, hv, hR⟩ := hstep s u a hs
    obtain ⟨t, ht, hRt⟩ := ih hR
    exact ⟨t, by rw [run_cons, hv, Option.bind_some, ht], hRt⟩

/-- **The forward simulation rule**: a machine that answers each step of another one with a step of
its own follows it along every run. -/
theorem exists_run_of_forward {τ : Type*} {N : Machine τ α} (R : σ → τ → Prop) {u : τ} (hs : R s u)
    (hstep : ∀ s u a t, R s u → M.step s a = some t → ∃ v, N.step u a = some v ∧ R t v)
    (h : M.run s as = some t) : ∃ v, N.run u as = some v ∧ R t v := by
  induction as generalizing s u with
  | nil => exact ⟨u, rfl, Option.some.inj h ▸ hs⟩
  | cons a as ih =>
    obtain ⟨s', hs', hrun⟩ := Option.bind_eq_some_iff.mp h
    obtain ⟨u', hu', hR⟩ := hstep s u a s' hs hs'
    obtain ⟨v, hv, hRv⟩ := ih hR hrun
    exact ⟨v, by rw [run_cons, hu', Option.bind_some, hv], hRv⟩

/-- **The progress rule**: where each step is enabled and keeps the invariant, no run gets stuck. -/
theorem exists_run_of_step (hs : J s) (hstep : ∀ s a, J s → ∃ t, M.step s a = some t ∧ J t)
    (as : List α) : ∃ t, M.run s as = some t ∧ J t :=
  exists_run_of_simulation (fun s _ => J s) (fun u _ => u) (u := ()) hs
    (fun s _ a h => hstep s a h) as

/-- **Two step conditions that agree wherever the invariant holds agree on whole runs.** -/
theorem along_iff_along (hs : J s) (hCD : ∀ s a, J s → (C s a ↔ D s a))
    (hstep : ∀ s a t, J s → D s a → M.step s a = some t → J t) :
    M.Along C s as ↔ M.Along D s as := by
  induction as generalizing s with
  | nil => exact Iff.rfl
  | cons a as ih =>
    rw [along_cons, along_cons, hCD s a hs]
    exact and_congr_right fun hD =>
      forall_congr' fun t => imp_congr_right fun ht => ih (hstep s a t hs hD ht)

/-- **A step condition is exact for a state property** when it preserves an invariant that entails
the property, and breaking it leads out of the property at once. -/
theorem always_iff_along (hs : J s) (hP : ∀ s, J s → P s)
    (hstep : ∀ s a t, J s → C s a → M.step s a = some t → J t)
    (hfail : ∀ s a, J s → ¬ C s a → ∃ t, M.step s a = some t ∧ ¬ P t) :
    M.Always P s as ↔ M.Along C s as := by
  refine ⟨fun h => ?_, fun h => (always_of_along hs hstep h).mono hP⟩
  induction as generalizing s with
  | nil => trivial
  | cons a as ih =>
    have hC : C s a := by
      by_contra hne
      obtain ⟨t, ht, hPt⟩ := hfail s a hs hne
      exact hPt (h.2 t ht).head
    exact ⟨hC, fun t ht => ih (hstep s a t hs hC ht) (h.2 t ht)⟩

end Machine

end Machinery
