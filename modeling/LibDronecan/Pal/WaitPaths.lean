import LibDronecan.Machinery.Run
import LibDronecan.Pal.Thread

/-!
# Pal/WaitPaths — the same signal, before a `wait_any` or during it

    signal S ──▸ wait_any M ─────────────────────────▸ (true, M),      P ∪ S less M pending
    wait_any M ──▸ blocked ──signal S──▸ resume ─────▸ (true, P ∪ S),  nothing pending

The fast path of `wait_any` takes the events it was asked for and leaves its in/out mask as the
caller set it; the path through the condition wait hands out whatever is pending and takes it all.
So the order of one signal and one wait shows in the answer, unless what is pending by then is
exactly what was asked for (`agree_iff`).
-/

open Machinery Machinery.Mask

namespace LibDronecan

/-- A `wait_any` call: still to come, blocked on its mask, or back with what it returned and what it
left in the mask. -/
inductive WaitAnyCall where
  | pending
  | blocked (evtMask : EventMask)
  | returned (ret : Bool) (evtMask : EventMask)
deriving DecidableEq

/-- A signal, the call, or the return of the condition wait it is blocked in. -/
inductive WaitAnyAct where
  | signal (events : EventMask)
  | call (evtMask : EventMask)
  | resume (ret : CondRet)

/-- A thread and one `wait_any` call of its owner. -/
structure WaitAnyRun where
  thread : Thread
  call : WaitAnyCall
deriving DecidableEq

namespace WaitAnyRun

/-- The state after a piece of the call. -/
def after (m : EventMask) (r : Thread × Option (Bool × EventMask)) : WaitAnyRun :=
  match r with
  | (t, none) => ⟨t, .blocked m⟩
  | (t, some (ret, out)) => ⟨t, .returned ret out⟩

def step (s : WaitAnyRun) : WaitAnyAct → Option WaitAnyRun
  | .signal e => some ⟨s.thread.signal e, s.call⟩
  | .call m =>
      match s.call with
      | .pending => some (after m (s.thread.waitAny m))
      | _ => none
  | .resume ret =>
      match s.call with
      | .blocked m => some (after m (s.thread.waitAnyResume m ret))
      | _ => none

def machine : Machine WaitAnyRun WaitAnyAct := ⟨step⟩

/-- `signal(S)` and then `wait_any(M)`. -/
def signalFirst (M S : EventMask) : List WaitAnyAct := [.signal S, .call M]

/-- `wait_any(M)`, woken `k` times for nothing, and then `signal(S)`. -/
def signalBlocked (M S : EventMask) (k : ℕ) : List WaitAnyAct :=
  .call M :: (List.replicate k (.resume .woken) ++ [.signal S, .resume .woken])

/-- **Both orders give one answer**: the same `true`, the same output mask, which names signalled
events only, and the same events left pending. -/
def Agree (t : Thread) (M S : EventMask) (k : ℕ) : Prop :=
  ∃ u out, machine.run ⟨t, .pending⟩ (signalFirst M S) = some ⟨u, .returned true out⟩ ∧
    machine.run ⟨t, .pending⟩ (signalBlocked M S k) = some ⟨u, .returned true out⟩ ∧
    out ⊆ t.signalledEvents ||| S

variable {t : Thread} {M S : EventMask}

/-- Signalled first, the wait returns through its fast path. -/
theorem run_signalFirst (hS : S ⊆ t.registeredEvents) (hmeet : S &&& M ≠ 0) :
    machine.run ⟨t, .pending⟩ (signalFirst M S)
      = some ⟨{ t.signal S with signalledEvents := (t.signalledEvents ||| S) &&& ~~~M },
          .returned true M⟩ := by
  have hne : (t.signal S).signalledEvents &&& M ≠ 0 := by
    obtain ⟨i, hi, hM⟩ := and_ne_zero_iff.mp hmeet
    rw [Thread.signal_of_subset hS]
    exact and_ne_zero_iff.mpr ⟨i, mem_or.mpr (Or.inr hi), hM⟩
  change some (after M ((t.signal S).waitAny M)) = _
  rw [Thread.waitAny_eq, if_pos hne, Thread.signal_of_subset hS]
  rfl

/-- A wake-up for nothing leaves the wait blocked. -/
theorem run_spurious (hM : t.signalledEvents &&& M = 0) (k : ℕ) :
    machine.run ⟨t, .blocked M⟩ (List.replicate k (.resume .woken)) = some ⟨t, .blocked M⟩ := by
  induction k with
  | zero => rfl
  | succ k ih =>
    have hstep : machine.step ⟨t, .blocked M⟩ (.resume .woken) = some ⟨t, .blocked M⟩ := by
      change some (after M (t.waitAnyResume M .woken)) = _
      rw [Thread.waitAnyResume_woken, if_neg (not_not.mpr hM)]
      rfl
    rw [List.replicate_succ, Machine.run_cons, hstep, Option.bind_some, ih]

/-- Signalled while blocked, the wait returns with all that is pending. -/
theorem run_signalBlocked (hM : t.signalledEvents &&& M = 0) (hS : S ⊆ t.registeredEvents)
    (hmeet : S &&& M ≠ 0) (k : ℕ) :
    machine.run ⟨t, .pending⟩ (signalBlocked M S k)
      = some ⟨(t.signal S).clear, .returned true (t.signalledEvents ||| S)⟩ := by
  have hcall : machine.step ⟨t, .pending⟩ (.call M) = some ⟨t, .blocked M⟩ := by
    change some (after M (t.waitAny M)) = _
    rw [Thread.waitAny_eq, if_neg (not_not.mpr hM)]
    rfl
  have hne : (t.signal S).signalledEvents &&& M ≠ 0 := by
    obtain ⟨i, hi, hiM⟩ := and_ne_zero_iff.mp hmeet
    rw [Thread.signal_of_subset hS]
    exact and_ne_zero_iff.mpr ⟨i, mem_or.mpr (Or.inr hi), hiM⟩
  rw [signalBlocked, Machine.run_cons, hcall, Option.bind_some, Machine.run_append,
    run_spurious hM, Option.bind_some]
  change some (after M ((t.signal S).waitAnyResume M .woken)) = _
  rw [Thread.waitAnyResume_woken, if_pos hne, Thread.signal_of_subset hS]
  rfl

/-- **The two orders agree exactly when nothing else is pending and the signal is the request.** -/
theorem agree_iff (hM : t.signalledEvents &&& M = 0) (hS : S ⊆ t.registeredEvents)
    (hmeet : S &&& M ≠ 0) (k : ℕ) : Agree t M S k ↔ t.signalledEvents = 0 ∧ S = M := by
  rw [Agree, run_signalFirst hS hmeet, run_signalBlocked hM hS hmeet]
  constructor
  · rintro ⟨u, out, hfirst, hblocked, -⟩
    cases hfirst
    have hout : t.signalledEvents ||| S = M := by
      injection Option.some.inj hblocked with _ hcall
      injection hcall
    have hzero : t.signalledEvents = 0 := by
      refine eq_zero_iff.mpr fun i hi => and_eq_zero_iff.mp hM i hi ?_
      exact hout ▸ mem_or.mpr (Or.inl hi)
    refine ⟨hzero, ?_⟩
    rwa [hzero, zero_or_eq] at hout
  · rintro ⟨hzero, rfl⟩
    have hpend : (t.signalledEvents ||| S) &&& ~~~S = 0 := by
      rw [hzero, zero_or_eq]
      exact and_not_eq_zero_iff.mpr (subset_refl S)
    refine ⟨(t.signal S).clear, S, ?_, ?_, ?_⟩
    · rw [hpend]
      rfl
    · rw [hzero, zero_or_eq]
    · rw [hzero, zero_or_eq]

/-- One event, asked for and signalled. -/
theorem agree_single : Agree ⟨3, 0⟩ 1 1 2 :=
  (agree_iff (t := ⟨3, 0⟩) (by decide) (by decide) (by decide) 2).mpr (by decide)

/-- **The two orders disagree**: asked for two events and given one, the fast path claims both and
the slow one tells which. -/
theorem not_forall_agree : ¬ ∀ (t : Thread) (M S : EventMask) (k : ℕ), M ≠ 0 →
    t.signalledEvents &&& M = 0 → S ⊆ t.registeredEvents → S &&& M ≠ 0 → Agree t M S k := by
  intro h
  obtain ⟨u, out, hfirst, hblocked, -⟩ :=
    h ⟨3, 0⟩ 3 1 0 (by decide) (by decide) (by decide) (by decide)
  have heq := hfirst.trans hblocked.symm
  revert heq
  decide

end WaitAnyRun

end LibDronecan
