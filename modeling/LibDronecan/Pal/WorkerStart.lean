import Mathlib.Data.Nat.Basic
import Mathlib.Order.Basic
import LibDronecan.Machinery.Run

/-!
# Pal/WorkerStart — `Worker::start`, and the thread that runs before it is known

    start:   take sem ─▸ threads.start ─▸ thread = … ─▸ give sem
                              ╰─▸ run:  take sem ─▸ pass ─▸ … ─▸ thread->get_registered_events()

The thread is in `run` as soon as it is created, when the worker's `thread` still holds what was
left in its memory; `run` reads that pointer, and without the semaphore.  It has to take the
semaphore first, which `start` keeps until it has assigned.  So every read finds a thread, whoever
starts the worker and how often — unless a start fails after one that did not, and returns, the
assertion being compiled out: that leaves a null pointer to the threads that run
(`always_readsMade_iff`).
-/

open Machinery

namespace LibDronecan

/-- `Worker::thread`: what was left in its memory, null, or one of the threads made. -/
inductive ThreadPtr where
  | junk
  | null
  | made (k : ℕ)
  deriving DecidableEq

/-- What whoever holds `sem` does. -/
inductive SemUser where
  /-- `start`, in `threads.start` -/
  | starting
  /-- …which has returned -/
  | assigning (r : ThreadPtr)
  /-- `run` in this thread -/
  | runner (k : ℕ)
  /-- another call on the worker -/
  | elsewhere
  deriving DecidableEq

/-- Where a thread that was made is in `run`. -/
inductive StartedPc where
  | locking
  | passing
  | choosing
  | scanning
  /-- about to call `thread->get_registered_events` -/
  | reading
  | waiting
  deriving DecidableEq

/-- A worker that is being started. -/
structure WorkerStart where
  thread : ThreadPtr
  sem : Option SemUser
  /-- calls of `threads.start` -/
  calls : ℕ
  /-- threads made -/
  made : ℕ
  runner : ℕ → StartedPc
  /-- some `start` has returned true -/
  started : Bool
  /-- what was read of `thread` -/
  reads : List ThreadPtr

inductive StartAct where
  /-- a thread calls `start`, and has `sem` -/
  | enter
  /-- `threads.start` -/
  | create
  /-- …is assigned, and `start` returns -/
  | assign
  /-- another call on the worker, and its return -/
  | call
  | leave
  /-- a made thread goes on -/
  | run (k : ℕ)
  /-- `signal` or `register_evt`, once the worker is started -/
  | use

namespace WorkerStart

/-- Nobody has called the worker, and `thread` is whatever it is. -/
def start (thread : ThreadPtr) : WorkerStart :=
  ⟨thread, none, 0, 0, fun _ => .locking, false, []⟩

def goto (s : WorkerStart) (k : ℕ) (pc : StartedPc) (sem : Option SemUser) : WorkerStart :=
  { s with sem := sem, runner := Function.update s.runner k pc }

/-- What the thread `k` does next. -/
def turn (s : WorkerStart) (k : ℕ) : Option WorkerStart :=
  match s.runner k with
  | .locking => if s.sem = none then some (s.goto k .passing (some (.runner k))) else none
  | .passing => if s.sem = some (.runner k) then some (s.goto k .choosing none) else none
  | .choosing => if s.sem = none then some (s.goto k .scanning (some (.runner k))) else none
  | .scanning => if s.sem = some (.runner k) then some (s.goto k .reading none) else none
  | .reading => some { s.goto k .waiting s.sem with reads := s.reads ++ [s.thread] }
  | .waiting => some (s.goto k .locking s.sem)

/-- `fails n`: the call number `n` of `threads.start` returns null. -/
def step (fails : ℕ → Bool) (s : WorkerStart) : StartAct → Option WorkerStart
  | .enter => if s.sem = none then some { s with sem := some .starting } else none
  | .create =>
      if s.sem = some .starting then
        if fails s.calls then
          some { s with sem := some (.assigning .null), calls := s.calls + 1 }
        else some { s with
          sem := some (.assigning (.made s.made))
          calls := s.calls + 1
          made := s.made + 1
          runner := Function.update s.runner s.made .locking }
      else none
  | .assign =>
      match s.sem with
      | some (.assigning r) =>
          some { s with thread := r, sem := none, started := s.started || r ≠ .null }
      | _ => none
  | .call => if s.sem = none then some { s with sem := some .elsewhere } else none
  | .leave => if s.sem = some .elsewhere then some { s with sem := none } else none
  | .run k => if k < s.made then s.turn k else none
  | .use => if s.started then some { s with reads := s.reads ++ [s.thread] } else none

def machine (fails : ℕ → Bool) : Machine WorkerStart StartAct := ⟨step fails⟩

/-- A thread that was made. -/
def Made (s : WorkerStart) (p : ThreadPtr) : Prop := ∃ k < s.made, p = .made k

/-- **Every read of `thread` found one that was made.** -/
def ReadsMade (s : WorkerStart) : Prop := ∀ p ∈ s.reads, s.Made p

/-! ## The invariant -/

/-- No thread reads the pointer yet: each has still to take `sem`, which whoever made it holds. -/
structure Pending (s : WorkerStart) : Prop where
  started : s.started = false
  locking : ∀ k < s.made, s.runner k = .locking
  assigning : 0 < s.made → ∃ k < s.made, s.sem = some (.assigning (.made k))

/-- **The invariant.** -/
structure Inv (fails : ℕ → Bool) (s : WorkerStart) : Prop where
  reads : s.ReadsMade
  succeeded : 0 < s.made → ∃ m < s.calls, fails m = false
  assigning : ∀ r, s.sem = some (.assigning r) → s.Made r ∨ r = .null ∧ s.made = 0
  thread : s.Made s.thread ∨ s.Pending

variable {fails : ℕ → Bool} {s t : WorkerStart} {k : ℕ} {p : ThreadPtr}

theorem inv_start (p : ThreadPtr) : Inv fails (start p) :=
  ⟨nofun, nofun, nofun, .inr ⟨rfl, nofun, nofun⟩⟩

theorem Made.pos (h : s.Made p) : 0 < s.made := by
  obtain ⟨k, hk, -⟩ := h
  omega

/-- While nobody is about to assign, the threads that were made find one. -/
theorem Pending.made_eq_zero (h : s.Pending) (hsem : ∀ r, s.sem ≠ some (.assigning r)) :
    s.made = 0 := by
  by_contra hne
  obtain ⟨k, -, hk⟩ := h.assigning (Nat.pos_of_ne_zero hne)
  exact hsem _ hk

/-- `sem` changes hands, and nobody assigns before or after. -/
theorem Inv.handover (h : Inv fails s) (hsem : ∀ r, s.sem ≠ some (.assigning r))
    {sem : Option SemUser} (hnew : ∀ r, sem ≠ some (.assigning r)) (runner : ℕ → StartedPc) :
    Inv fails { s with sem := sem, runner := runner } where
  reads := h.reads
  succeeded := h.succeeded
  assigning r hr := absurd hr (hnew r)
  thread := h.thread.imp_right fun hpending => by
    have hmade := hpending.made_eq_zero hsem
    exact ⟨hpending.started, fun k hk => absurd (hmade ▸ hk) (Nat.not_lt_zero k),
      fun hpos => absurd hmade hpos.ne'⟩

/-- A thread that is past its first section goes on, and may read. -/
theorem Inv.pass (h : Inv fails s) (hmade : s.Made s.thread) {reads : List ThreadPtr}
    (hreads : ∀ p ∈ reads, s.Made p) (runner : ℕ → StartedPc) :
    Inv fails { s with runner := runner, reads := reads } :=
  ⟨hreads, h.succeeded, h.assigning, .inl hmade⟩

theorem Inv.reads_concat (h : Inv fails s) (hmade : s.Made s.thread) :
    ∀ p ∈ s.reads ++ [s.thread], s.Made p := fun p hp => by
  obtain hold | hnew := List.mem_append.mp hp
  · exact h.reads p hold
  · exact List.mem_singleton.mp hnew ▸ hmade

/-- **Whoever is past its first section finds a thread**: `start` has let go of `sem`. -/
theorem Inv.made_thread (h : Inv fails s) (hk : k < s.made) (hpc : s.runner k ≠ .locking) :
    s.Made s.thread :=
  h.thread.resolve_right fun hpending => hpc (hpending.locking k hk)

theorem Inv.turn (h : Inv fails s) (hk : k < s.made) (hst : s.turn k = some t) : Inv fails t := by
  rw [WorkerStart.turn] at hst
  cases hpc : s.runner k with
  | locking | choosing =>
    simp only [hpc] at hst
    split_ifs at hst with hsem
    obtain rfl := Option.some.inj hst
    refine h.handover (by simp [hsem]) ?_ _
    nofun
  | passing | scanning =>
    simp only [hpc] at hst
    split_ifs at hst with hsem
    obtain rfl := Option.some.inj hst
    refine h.handover (by simp [hsem]) ?_ _
    nofun
  | reading =>
    simp only [hpc] at hst
    obtain rfl := Option.some.inj hst
    have hmade := h.made_thread hk (by simp [hpc])
    exact h.pass hmade (h.reads_concat hmade) _
  | waiting =>
    simp only [hpc] at hst
    obtain rfl := Option.some.inj hst
    exact h.pass (h.made_thread hk (by simp [hpc])) h.reads _

/-- **Where no call fails after one that did not**, a step keeps it so. -/
theorem Inv.step (hfails : ∀ m n, m < n → fails m = false → fails n = false) (h : Inv fails s)
    {a : StartAct} (hst : step fails s a = some t) : Inv fails t := by
  cases a with
  | enter | call | leave =>
    simp only [WorkerStart.step] at hst
    split_ifs at hst with hsem
    obtain rfl := Option.some.inj hst
    refine h.handover (by simp [hsem]) ?_ _
    nofun
  | create =>
    simp only [WorkerStart.step] at hst
    split_ifs at hst with hsem hfail
    · obtain rfl := Option.some.inj hst
      have hmade : s.made = 0 := by
        by_contra hne
        obtain ⟨m, hm, hok⟩ := h.succeeded (Nat.pos_of_ne_zero hne)
        rw [hfails m s.calls hm hok] at hfail
        cases hfail
      refine ⟨h.reads, fun hpos => absurd hmade hpos.ne', fun r hr => ?_, ?_⟩
      · injection hr with hr
        exact .inr ⟨(SemUser.assigning.inj hr).symm, hmade⟩
      · refine .inr ⟨?_, fun k hk => ?_, fun hpos => absurd hmade hpos.ne'⟩
        · exact (h.thread.resolve_left fun hthread => hthread.pos.ne' hmade).started
        · exact absurd (hmade ▸ hk) (Nat.not_lt_zero k)
    · obtain rfl := Option.some.inj hst
      have hmono {p : ThreadPtr} (hp : s.Made p) : ∃ k < s.made + 1, p = .made k :=
        hp.imp fun k hk => ⟨hk.1.trans (Nat.lt_succ_self _), hk.2⟩
      refine ⟨fun p hp => hmono (h.reads p hp),
        fun _ => ⟨s.calls, Nat.lt_succ_self _, Bool.eq_false_iff.mpr hfail⟩, fun r hr => ?_,
        h.thread.imp hmono fun hpending => ?_⟩
      · injection hr with hr
        exact .inl ⟨s.made, Nat.lt_succ_self _, (SemUser.assigning.inj hr).symm⟩
      · have hmade := hpending.made_eq_zero (by simp [hsem])
        refine ⟨hpending.started, fun k hk => ?_, fun _ => ⟨s.made, Nat.lt_succ_self _, rfl⟩⟩
        have hk : k = s.made := by
          dsimp only at hk
          omega
        exact hk ▸ Function.update_self _ _ _
  | assign =>
    simp only [WorkerStart.step] at hst
    split at hst
    · rename_i r hsem
      obtain rfl := Option.some.inj hst
      obtain hmade | ⟨rfl, hmade⟩ := h.assigning r hsem
      · exact ⟨h.reads, h.succeeded, nofun, .inl hmade⟩
      · refine ⟨h.reads, h.succeeded, nofun, .inr ⟨?_, fun k hk => ?_, fun hpos => ?_⟩⟩
        · simpa using (h.thread.resolve_left fun hthread => hthread.pos.ne' hmade).started
        · exact absurd (hmade ▸ hk) (Nat.not_lt_zero k)
        · exact absurd hmade hpos.ne'
    · cases hst
  | run k =>
    simp only [WorkerStart.step] at hst
    split_ifs at hst with hk
    exact h.turn hk hst
  | use =>
    simp only [WorkerStart.step] at hst
    split_ifs at hst with hstarted
    obtain rfl := Option.some.inj hst
    have hmade : s.Made s.thread := h.thread.resolve_right fun hpending => by
      rw [hpending.started] at hstarted
      cases hstarted
    exact h.pass hmade (h.reads_concat hmade) _

/-! ## A start that fails late -/

/-- After `n` starts, one behind the other: the threads made wait for `sem`, and `thread` is as the
last start left it. -/
structure Started (fails : ℕ → Bool) (n : ℕ) (s : WorkerStart) : Prop where
  sem : s.sem = none
  calls : s.calls = n
  locking : ∀ k, s.runner k = .locking
  made : ∀ m < n, fails m = false → 0 < s.made
  thread : ∀ m, n = m + 1 → fails m = true → s.thread = .null

theorem Started.exists_run {n : ℕ} (h : Started fails n s) :
    ∃ t, (machine fails).run s [.enter, .create, .assign] = some t ∧ Started fails (n + 1) t := by
  have hlast {m : ℕ} (hm : m < n + 1) (hne : m ≠ n) : m < n := by omega
  cases hfail : fails n with
  | true =>
    refine ⟨{ s with
      thread := .null, sem := none, calls := s.calls + 1, started := s.started || false }, ?_, rfl,
      congrArg Nat.succ h.calls, h.locking, fun m hm hok => ?_, fun _ _ _ => rfl⟩
    · simp [machine, WorkerStart.step, h.sem, h.calls, hfail]
    · refine h.made m (hlast hm fun hmn => ?_) hok
      rw [hmn, hfail] at hok
      cases hok
  | false =>
    refine ⟨{ s with
      thread := .made s.made, sem := none, calls := s.calls + 1, made := s.made + 1
      runner := Function.update s.runner s.made .locking, started := s.started || true }, ?_, rfl,
      congrArg Nat.succ h.calls, fun k => ?_, fun _ _ _ => Nat.succ_pos _, fun m hm hbad => ?_⟩
    · simp [machine, WorkerStart.step, h.sem, h.calls, hfail]
    · dsimp only
      obtain rfl | hk := eq_or_ne k s.made
      · exact Function.update_self _ _ _
      · exact (Function.update_of_ne hk _ _).trans (h.locking k)
    · obtain rfl := Nat.succ.inj hm
      rw [hfail] at hbad
      cases hbad

theorem exists_run_started (fails : ℕ → Bool) (p : ThreadPtr) (n : ℕ) :
    ∃ as s, (machine fails).run (start p) as = some s ∧ Started fails n s := by
  induction n with
  | zero => exact ⟨[], start p, rfl, rfl, rfl, fun _ => rfl, nofun, nofun⟩
  | succ n ih =>
    obtain ⟨as, s, hrun, hs⟩ := ih
    obtain ⟨t, hrun', ht⟩ := hs.exists_run
    exact ⟨_, t, Machine.run_trans hrun hrun', ht⟩

/-- A thread that has its turn comes to read the pointer. -/
theorem Started.exists_read {n : ℕ} (h : Started fails n s) (hmade : 0 < s.made) :
    ∃ t, (machine fails).run s (List.replicate 5 (.run 0)) = some t ∧ s.thread ∈ t.reads := by
  refine ⟨{ s with
    runner := Function.update s.runner 0 .waiting, reads := s.reads ++ [s.thread] }, ?_,
    List.mem_append_right _ List.mem_cons_self⟩
  simp [machine, WorkerStart.step, turn, goto, h.sem, h.locking, hmade, List.replicate_succ]

/-- **Whoever reads `thread` finds a thread that was made, in every run, just if no start fails
after one that did not.** -/
theorem always_readsMade_iff (fails : ℕ → Bool) (p : ThreadPtr) :
    (∀ as, (machine fails).Always ReadsMade (start p) as)
      ↔ ∀ m n, m < n → fails m = false → fails n = false := by
  constructor
  · intro h m n hmn hok
    by_contra hbad
    obtain ⟨as, s, hrun, hs⟩ := exists_run_started fails p (n + 1)
    obtain ⟨t, hread, hmem⟩ := hs.exists_read (hs.made m (hmn.trans (Nat.lt_succ_self n)) hok)
    rw [hs.thread n rfl (by simpa using hbad)] at hmem
    obtain ⟨k, -, hk⟩ := (h _).of_run (Machine.run_trans hrun hread) _ hmem
    cases hk
  · intro hfails as
    exact (Machine.always_of_step (inv_start p) (fun _ _ _ h hst => h.step hfails hst) as).mono
      fun _ h => h.reads

end WorkerStart

end LibDronecan
