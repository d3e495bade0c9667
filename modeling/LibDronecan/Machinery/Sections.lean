import LibDronecan.Machinery.FiniteLoop
import LibDronecan.Machinery.Run

/-!
# Machinery/Sections — code under a lock is atomic

    i:  call ─────────▸ acquire ──turn──▸ … ──turn──▸ release
    j:       call ──────────────────────────────────────────▸ acquire ──turn──▸ …

Any number of threads make calls, each call a piece of code that takes one lock, works on what it
protects turn by turn, and lets go of it with a result.  Turns of the holder and steps of the others
come in any order.  Whenever the lock is free, what it protects is what the calls that have returned
make of it one at a time, in the order they returned and with the results they returned
(`serial_of_run`); while it is held, it is that and some turns of the holder.
-/

namespace Machinery

/-- Code that runs under a lock: where a call begins, and one turn of it. -/
structure LockedCode (σ κ μ ρ : Type*) where
  enter : κ → μ
  turn : μ × σ → Turn (μ × σ) (ρ × σ)

/-- What the lock protects, who holds it and how far it is in which call, who waits for it, and the
calls that have returned. -/
structure Sections (ι σ κ μ ρ : Type*) where
  shared : σ
  holder : Option (ι × κ × μ)
  waiting : ι → Option κ
  returned : List (ι × κ × ρ)

/-- A thread makes a call, gets the lock, or takes a turn under it. -/
inductive SectionAct (ι κ : Type*)
  | call (i : ι) (k : κ)
  | acquire (i : ι)
  | turn (i : ι)

namespace LockedCode

variable {ι σ κ μ ρ : Type*} (C : LockedCode σ κ μ ρ)

/-- Nobody in a call. -/
def start (s : σ) : Sections ι σ κ μ ρ := ⟨s, none, fun _ => none, []⟩

/-- The call does this when nobody else is about. -/
def Runs (k : κ) (s : σ) (r : ρ) (t : σ) : Prop :=
  ∃ n, loop C.turn n (C.enter k, s) = some (r, t)

/-- Calls one at a time. -/
def Serial : σ → List (ι × κ × ρ) → σ → Prop
  | s, [], t => s = t
  | s, (_, k, r) :: l, t => ∃ u, C.Runs k s r u ∧ Serial u l t

section Machine

variable [DecidableEq ι]

def step (s : Sections ι σ κ μ ρ) : SectionAct ι κ → Option (Sections ι σ κ μ ρ)
  | .call i k =>
      -- a thread is in one call at a time
      match s.waiting i, s.holder.map Prod.fst with
      | some _, _ => none
      | none, some j => if i = j then none
          else some { s with waiting := Function.update s.waiting i (some k) }
      | none, none => some { s with waiting := Function.update s.waiting i (some k) }
  | .acquire i =>
      match s.waiting i, s.holder with
      | some k, none => some { s with
          holder := some (i, k, C.enter k)
          waiting := Function.update s.waiting i none }
      | _, _ => none
  | .turn i =>
      match s.holder with
      | none => none
      | some (j, k, m) =>
          if i = j then
            match C.turn (m, s.shared) with
            | .again (m, shared) => some { s with shared, holder := some (i, k, m) }
            | .leave (r, shared) =>
                some { s with shared, holder := none, returned := s.returned ++ [(i, k, r)] }
          else none

def machine : Machine (Sections ι σ κ μ ρ) (SectionAct ι κ) := ⟨C.step⟩

end Machine

variable {C} {s t u : σ} {k : κ} {r : ρ} {i : ι} {l l' : List (ι × κ × ρ)}

/-- The code of a call does one thing. -/
theorem Runs.unique {r' : ρ} {t' : σ} (h : C.Runs k s r t) (h' : C.Runs k s r' t') :
    r = r' ∧ t = t' := by
  obtain ⟨m, hm⟩ := h
  obtain ⟨n, hn⟩ := h'
  exact Prod.mk.inj (loop_unique hm hn)

theorem Serial.append (h : C.Serial s l t) (h' : C.Serial t l' u) : C.Serial s (l ++ l') u := by
  induction l generalizing s with
  | nil => exact h ▸ h'
  | cons c l ih =>
    obtain ⟨v, hv, hl⟩ := h
    exact ⟨v, hv, ih hl⟩

theorem serial_singleton (h : C.Runs k s r t) : C.Serial s [(i, k, r)] t := ⟨t, h, rfl⟩

/-- **What the lock protects, at any time**: what the calls returned so far make of it, and, while
it is held, some turns of the holder. -/
def Explained (C : LockedCode σ κ μ ρ) (s₀ : σ) (s : Sections ι σ κ μ ρ) : Prop :=
  ∃ u, C.Serial s₀ s.returned u ∧
    match s.holder with
    | none => s.shared = u
    | some (_, k, m) => ∃ n, after C.turn n (C.enter k, u) = some (m, s.shared)

variable [DecidableEq ι] {S T : Sections ι σ κ μ ρ}

theorem Explained.step {s₀ : σ} (h : Explained C s₀ S) {a : SectionAct ι κ}
    (hst : C.step S a = some T) : Explained C s₀ T := by
  obtain ⟨u, hserial, hshared⟩ := h
  cases a with
  | call i k =>
    -- a new waiter, whoever holds the lock
    have hsame : T.shared = S.shared ∧ T.holder = S.holder ∧ T.returned = S.returned := by
      simp only [LockedCode.step] at hst
      split at hst
      · cases hst
      · split_ifs at hst
        exact Option.some.inj hst ▸ ⟨rfl, rfl, rfl⟩
      · exact Option.some.inj hst ▸ ⟨rfl, rfl, rfl⟩
    rw [Explained, hsame.1, hsame.2.1, hsame.2.2]
    exact ⟨u, hserial, hshared⟩
  | acquire i =>
    simp only [LockedCode.step] at hst
    split at hst
    · case _ k hk hfree =>
      obtain rfl := Option.some.inj hst
      rw [hfree] at hshared
      exact ⟨u, hserial, 0, by rw [after_zero, ← hshared]⟩
    · cases hst
  | turn i =>
    simp only [LockedCode.step] at hst
    cases hholder : S.holder with
    | none =>
      simp only [hholder] at hst
      cases hst
    | some held =>
      obtain ⟨j, k, m⟩ := held
      simp only [hholder] at hst hshared
      obtain ⟨n, hn⟩ := hshared
      split_ifs at hst with hij
      cases hturn : C.turn (m, S.shared) with
      | again next =>
        simp only [hturn] at hst
        obtain rfl := Option.some.inj hst
        refine ⟨u, hserial, n + 1, ?_⟩
        rw [after_add, hn, Option.bind_some, after_of_again hturn, after_zero]
      | leave result =>
        simp only [hturn] at hst
        obtain rfl := Option.some.inj hst
        -- the turns so far and this one are the whole call
        refine ⟨result.2, hserial.append (serial_singleton ⟨n + 1, ?_⟩), rfl⟩
        rw [loop_of_after hn, loop_of_leave hturn]

/-- **Calls under one lock take effect one at a time**, in the order they return. -/
theorem explained_of_run {s₀ : σ} {as : List (SectionAct ι κ)}
    (h : C.machine.run (start s₀) as = some S) : Explained C s₀ S :=
  (Machine.always_of_step (M := C.machine) (s := start s₀) (J := Explained C s₀) ⟨s₀, rfl, rfl⟩
    (fun _ _ _ h hst => h.step hst) as).of_run h

/-- A holder left alone comes to the end of its call. -/
theorem exists_run_of_loop {n : ℕ} {m : μ} (hholder : S.holder = some (i, k, m))
    (h : loop C.turn n (m, S.shared) = some (r, t)) :
    ∃ as T, C.machine.run S as = some T ∧ T.holder = none ∧ T.shared = t ∧
      T.returned = S.returned ++ [(i, k, r)] := by
  induction n generalizing S m with
  | zero => cases h
  | succ n ih =>
    cases hturn : C.turn (m, S.shared) with
    | again next =>
      have hst : C.machine.step S (.turn i)
          = some { S with shared := next.2, holder := some (i, k, next.1) } := by
        simp only [machine, step, hholder, if_true, hturn]
      rw [loop_of_again hturn] at h
      obtain ⟨as, T, hrun, hT⟩ :=
        ih (S := { S with shared := next.2, holder := some (i, k, next.1) }) rfl h
      exact ⟨[.turn i] ++ as, T, Machine.run_trans (Machine.run_singleton hst) hrun, hT⟩
    | leave result =>
      rw [loop_of_leave hturn] at h
      obtain rfl := Option.some.inj h
      refine ⟨[.turn i],
        { S with shared := t, holder := none, returned := S.returned ++ [(i, k, r)] },
        Machine.run_singleton ?_, rfl, rfl, rfl⟩
      simp only [machine, step, hholder, if_true, hturn]

/-- **The lock is never held for good**, where every call comes to an end when nobody else is
about. -/
theorem Explained.exists_release {s₀ : σ} (h : Explained C s₀ S)
    (htotal : ∀ k s, ∃ r t, C.Runs k s r t) : ∃ as T, C.machine.run S as = some T ∧
      T.holder = none := by
  obtain ⟨u, -, hshared⟩ := h
  cases hholder : S.holder with
  | none => exact ⟨[], S, rfl, hholder⟩
  | some held =>
    obtain ⟨i, k, m⟩ := held
    simp only [hholder] at hshared
    obtain ⟨n, hn⟩ := hshared
    obtain ⟨r, t, N, hN⟩ := htotal k u
    have hrest := loop_of_le (Nat.le_add_left N n) hN
    rw [loop_of_after hn] at hrest
    obtain ⟨as, T, hrun, hfree, -⟩ := exists_run_of_loop hholder hrest
    exact ⟨as, T, hrun, hfree⟩

/-! ## Calls that are functions -/

/-- Calls one at a time, by a function. -/
def Replays (f : κ → σ → ρ × σ) : σ → List (ι × κ × ρ) → σ → Prop
  | s, [], t => s = t
  | s, (_, k, r) :: l, t => (f k s).1 = r ∧ Replays f (f k s).2 l t

omit [DecidableEq ι] in
theorem Serial.replays {f : κ → σ → ρ × σ} (hf : ∀ k s, C.Runs k s (f k s).1 (f k s).2)
    (h : C.Serial s l t) : Replays f s l t := by
  induction l generalizing s with
  | nil => exact h
  | cons c l ih =>
    obtain ⟨u, hu, hl⟩ := h
    obtain ⟨hr, hs⟩ := (hf c.2.1 s).unique hu
    exact ⟨hr, ih (hs ▸ hl)⟩

omit [DecidableEq ι] in
/-- One more call. -/
theorem Replays.concat {f : κ → σ → ρ × σ} (h : Replays f s l t) (i : ι) (k : κ) :
    Replays f s (l ++ [(i, k, (f k t).1)]) (f k t).2 := by
  induction l generalizing s with
  | nil => exact h ▸ ⟨rfl, rfl⟩
  | cons c l ih => exact ⟨h.1, ih h.2⟩

omit [DecidableEq ι] in
/-- What every call keeps holds after any number of them. -/
theorem Replays.inv {f : κ → σ → ρ × σ} {P : σ → Prop} (hP : ∀ k s, P s → P (f k s).2)
    (hs : P s) (h : Replays f s l t) : P t := by
  induction l generalizing s with
  | nil => exact h ▸ hs
  | cons c l ih => exact ih (hP _ _ hs) h.2

end LockedCode

end Machinery
