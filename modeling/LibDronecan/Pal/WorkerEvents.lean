import LibDronecan.Pal.WorkerLoop

/-!
# Pal/WorkerEvents — the worker loop drops no event

    signal ──▸ signalledEvents ──wait_any──▸ evt_msk ──▸ the next dispatch pass

An event lives in one of two places: the thread's `signalledEvents`, or `run`'s `evt_msk` between
the return of `wait_any` and the pass that follows.  `kept` is their union.  One step takes nothing
out of it but what it passes to a dispatch pass (`kept_subset`): whichever exit `wait_any` takes,
what leaves `signalledEvents` is named in the mask it hands out.  And each step of the worker's own
brings a kept event nearer to its pass (`untilPassed_lt`), since `run` asks `wait_any` for every
registered event: four of them are enough, however the signals fall between.
-/

open Machinery Machinery.Mask

namespace LibDronecan

/-- `evt_msk` once `wait_any` has returned and until the pass it is meant for starts. -/
def RunPc.handed : RunPc → EventMask
  | .dispatching evtMsk => evtMsk
  | _ => 0

/-- What an action signals. -/
def RunAct.raised : RunAct → EventMask
  | .signal e => e
  | _ => 0

/-- The action is a step of `run`. -/
def RunAct.own : RunAct → Bool
  | .signal _ => false
  | _ => true

namespace WorkerRun

variable {s t : WorkerRun} {a : RunAct}

/-- The events pending, or handed out by `wait_any` and not dispatched yet. -/
def kept (s : WorkerRun) : EventMask := s.thread.signalledEvents ||| s.pc.handed

/-- The mask of the dispatch pass that an action starts. -/
def passed (s : WorkerRun) : RunAct → EventMask
  | .dispatch => s.pc.handed
  | _ => 0

/-- What is given to the dispatch passes that start along a run. -/
def dispatched : WorkerRun → List RunAct → EventMask
  | _, [] => 0
  | s, a :: as => s.passed a ||| ((s.step a).elim 0 fun t => dispatched t as)

theorem mem_kept {i : ℕ} : i ∈ s.kept ↔ i ∈ s.thread.signalledEvents ∨ i ∈ s.pc.handed := mem_or

/-- Entering `wait_any`, what leaves the pending events is in the mask it returns. -/
theorem signalledEvents_subset_afterWait_waitAny (m : EventMask) :
    s.thread.signalledEvents ⊆ (s.afterWait m (s.thread.waitAny m)).kept := by
  intro i hi
  rw [Thread.waitAny_eq]
  split_ifs
  · by_cases him : i ∈ m
    · exact mem_kept.mpr (Or.inr him)
    · exact mem_kept.mpr (Or.inl (mem_and_not.mpr ⟨hi, him⟩))
  · exact mem_kept.mpr (Or.inl hi)

/-- Resumed, by a wake-up or by a timeout, it hands out all it takes, or takes nothing. -/
theorem signalledEvents_subset_afterWait_resume (m : EventMask) (ret : CondRet) :
    s.thread.signalledEvents ⊆ (s.afterWait m (s.thread.waitAnyResume m ret)).kept := by
  intro i hi
  cases ret with
  | timedOut => exact mem_kept.mpr (Or.inr hi)
  | woken =>
    rw [Thread.waitAnyResume_woken]
    split_ifs
    · exact mem_kept.mpr (Or.inr hi)
    · exact mem_kept.mpr (Or.inl hi)

/-- **A step loses no event**: what it keeps no longer it has passed to a dispatch pass. -/
theorem kept_subset (hst : s.step a = some t) : s.kept ⊆ t.kept ||| s.passed a := by
  intro i hi
  rw [mem_or]
  rw [mem_kept] at hi
  obtain ⟨e, rfl, rfl⟩ | ⟨evt, rfl, hpc, rfl⟩ | ⟨rfl, hpc, rfl⟩ | ⟨m, rfl, hpc, rfl⟩
    | ⟨m, ret, rfl, hpc, rfl⟩ := step_cases hst
  · exact Or.inl (mem_kept.mpr (hi.imp_left fun h => s.thread.subset_signal e i h))
  · exact hi.imp (fun h => mem_kept.mpr (Or.inl h)) id
  · rw [hpc] at hi
    exact Or.inl (mem_kept.mpr (Or.inl (hi.resolve_right notMem_zero)))
  · rw [hpc] at hi
    exact Or.inl (signalledEvents_subset_afterWait_waitAny m i (hi.resolve_right notMem_zero))
  · rw [hpc] at hi
    exact Or.inl (signalledEvents_subset_afterWait_resume m ret i (hi.resolve_right notMem_zero))

/-- The registered events never change. -/
theorem registeredEvents_step (hst : s.step a = some t) :
    t.thread.registeredEvents = s.thread.registeredEvents := by
  obtain ⟨e, rfl, rfl⟩ | ⟨_, rfl, -, rfl⟩ | ⟨rfl, -, rfl⟩ | ⟨m, rfl, -, rfl⟩
    | ⟨m, ret, rfl, -, rfl⟩ := step_cases hst
  · exact s.thread.registeredEvents_signal e
  · rfl
  · rfl
  · rw [Thread.waitAny_eq]
    split_ifs <;> rfl
  · cases ret with
    | timedOut => rfl
    | woken =>
      rw [Thread.waitAnyResume_woken]
      split_ifs <;> rfl

theorem registeredEvents_run {acts : List RunAct} (hrun : machine.run s acts = some t) :
    t.thread.registeredEvents = s.thread.registeredEvents := by
  induction acts generalizing s with
  | nil =>
    obtain rfl := Option.some.inj hrun
    rfl
  | cons a acts ih =>
    obtain ⟨u, hu, hrun⟩ := Option.bind_eq_some_iff.mp hrun
    exact (ih hrun).trans (registeredEvents_step hu)

/-- **…and neither does a run.** -/
theorem kept_subset_of_run {acts : List RunAct} (hrun : machine.run s acts = some t) :
    s.kept ⊆ t.kept ||| s.dispatched acts := by
  induction acts generalizing s with
  | nil =>
    obtain rfl := Option.some.inj hrun
    exact subset_or_left _ _
  | cons a acts ih =>
    obtain ⟨u, hu, hrun⟩ := Option.bind_eq_some_iff.mp hrun
    have hstep : s.step a = some u := hu
    intro i hi
    rw [dispatched, hstep, Option.elim_some, mem_or, mem_or]
    rcases mem_or.mp (kept_subset hstep i hi) with hkept | hpassed
    · rcases mem_or.mp (ih hrun i hkept) with h | h
      · exact Or.inl h
      · exact Or.inr (Or.inr h)
    · exact Or.inr (Or.inl hpassed)

/-- A signal of registered events is kept. -/
theorem raised_subset_kept {e : EventMask} (he : e ⊆ s.thread.registeredEvents)
    (hst : s.step (.signal e) = some t) : e ⊆ t.kept := by
  obtain rfl := Option.some.inj hst
  intro i hi
  refine mem_kept.mpr (Or.inl ?_)
  rw [Thread.signal_of_subset he]
  exact mem_or.mpr (Or.inr hi)

/-! ## To the next pass -/

/-- `wait_any` is asked for every registered event. -/
def AsksAll (s : WorkerRun) : Prop :=
  ∀ m, s.pc = .entering m ∨ s.pc = .blocked m → m = s.thread.registeredEvents

theorem asksAll_start (t : Thread) : (start t).AsksAll := by
  rintro m (h | h) <;> cases h

theorem AsksAll.step (h : s.AsksAll) (hst : s.step a = some t) : t.AsksAll := by
  intro m ht
  rw [registeredEvents_step hst]
  obtain ⟨e, rfl, rfl⟩ | ⟨_, rfl, -, rfl⟩ | ⟨rfl, -, rfl⟩ | ⟨m', rfl, hpc, rfl⟩
    | ⟨m', ret, rfl, hpc, rfl⟩ := step_cases hst
  · exact h m ht
  · rcases ht with ht | ht <;> cases ht
  · rcases ht with ht | ht <;> cases ht
    rfl
  · rw [Thread.waitAny_eq] at ht
    split_ifs at ht
    · rcases ht with ht | ht <;> cases ht
    · rcases ht with ht | ht <;> cases ht
      exact h _ (Or.inl hpc)
  · cases ret with
    | timedOut => rcases ht with ht | ht <;> cases ht
    | woken =>
      rw [Thread.waitAnyResume_woken] at ht
      split_ifs at ht
      · rcases ht with ht | ht <;> cases ht
      · rcases ht with ht | ht <;> cases ht
        exact h _ (Or.inr hpc)

theorem AsksAll.run {acts : List RunAct} (h : s.AsksAll) (hrun : machine.run s acts = some t) :
    t.AsksAll :=
  (Machine.always_of_step (M := machine) h (fun _ _ _ hs hst => hs.step hst) acts).of_run hrun

/-- How many steps of its own the worker takes at most to pass on an event it keeps. -/
def untilPassed (s : WorkerRun) (i : ℕ) : ℕ :=
  match s.pc with
  | .dispatching evtMsk => if i ∈ evtMsk then 1 else 4
  | .deciding => 3
  | .entering _ => 2
  | .blocked _ => 2

theorem untilPassed_mem_Icc (s : WorkerRun) (i : ℕ) : s.untilPassed i ∈ Set.Icc 1 4 := by
  unfold untilPassed
  split
  · split_ifs <;> simp
  all_goals simp

/-- Handed out, an event is passed on by the next step of the worker. -/
theorem untilPassed_dispatching {evtMsk : EventMask} {i : ℕ} (hpc : s.pc = .dispatching evtMsk)
    (hi : i ∈ evtMsk) : s.untilPassed i = 1 := by
  simp only [untilPassed, hpc, if_pos hi]

/-- **The worker's own steps bring a kept event nearer to its pass**: whichever way a wait ends, it
hands out what it was asked for and is pending. -/
theorem untilPassed_lt (hs : s.AsksAll) {i : ℕ} (hreg : i ∈ s.thread.registeredEvents)
    (hkept : i ∈ s.kept) (ha : a.own = true) (hpassed : i ∉ s.passed a)
    (hst : s.step a = some t) : t.untilPassed i < s.untilPassed i := by
  rw [mem_kept] at hkept
  obtain ⟨e, rfl, rfl⟩ | ⟨evt, rfl, hpc, rfl⟩ | ⟨rfl, hpc, rfl⟩ | ⟨m, rfl, hpc, rfl⟩
    | ⟨m, ret, rfl, hpc, rfl⟩ := step_cases hst
  · cases ha
  · have hevt : i ∉ evt := by simpa only [passed, hpc, RunPc.handed] using hpassed
    simp only [untilPassed, hpc, if_neg hevt]
    omega
  · simp only [untilPassed, hpc]
    omega
  · have hpend : i ∈ s.thread.signalledEvents :=
      hkept.resolve_right (by rw [hpc]; exact notMem_zero)
    have him : i ∈ m := hs m (Or.inl hpc) ▸ hreg
    rw [Thread.waitAny_eq, if_pos (and_ne_zero_iff.mpr ⟨i, hpend, him⟩),
      untilPassed_dispatching (s := s.afterWait _ _) rfl him]
    simp only [untilPassed, hpc]
    omega
  · have hpend : i ∈ s.thread.signalledEvents :=
      hkept.resolve_right (by rw [hpc]; exact notMem_zero)
    have him : i ∈ m := hs m (Or.inr hpc) ▸ hreg
    have hout : s.thread.waitAnyResume m ret
        = (s.thread.clear, some (decide (ret = .woken), s.thread.signalledEvents)) := by
      cases ret with
      | timedOut => rfl
      | woken =>
        rw [Thread.waitAnyResume_woken, if_pos (and_ne_zero_iff.mpr ⟨i, hpend, him⟩)]
        rfl
    rw [hout, untilPassed_dispatching (s := s.afterWait _ _) rfl hpend]
    simp only [untilPassed, hpc]
    omega

/-- **A kept event reaches a dispatch pass** within the steps of the worker's own it takes at most,
whatever is signalled between them. -/
theorem mem_dispatched (hs : s.AsksAll) {i : ℕ} (hreg : i ∈ s.thread.registeredEvents)
    (hkept : i ∈ s.kept) {acts : List RunAct} (hrun : machine.run s acts = some t)
    (hown : s.untilPassed i ≤ acts.countP RunAct.own) : i ∈ s.dispatched acts := by
  induction acts generalizing s with
  | nil => exact absurd hown (Nat.not_le.mpr (s.untilPassed_mem_Icc i).1)
  | cons a acts ih =>
    obtain ⟨u, hu, hrun⟩ := Option.bind_eq_some_iff.mp hrun
    have hstep : s.step a = some u := hu
    rw [dispatched, hstep, Option.elim_some, mem_or]
    by_cases hpassed : i ∈ s.passed a
    · exact Or.inl hpassed
    have hkept' : i ∈ u.kept := (mem_or.mp (kept_subset hstep i hkept)).resolve_right hpassed
    refine Or.inr (ih (hs.step hstep) ((registeredEvents_step hstep).symm ▸ hreg) hkept' hrun ?_)
    cases ha : a.own with
    | true =>
      have hlt := untilPassed_lt hs hreg hkept ha hpassed hstep
      rw [List.countP_cons_of_pos ha] at hown
      omega
    | false =>
      -- a signal leaves the worker where it is
      rw [List.countP_cons_of_neg (by rw [ha]; exact Bool.false_ne_true)] at hown
      cases a with
      | signal e =>
        obtain rfl := Option.some.inj hstep
        exact hown
      | dispatch => cases ha
      | decide => cases ha
      | enter => cases ha
      | resume ret => cases ha

/-- A blocked wait can come back either way… -/
theorem isSome_step_resume {m : EventMask} (hpc : s.pc = .blocked m) (ret : CondRet) :
    (s.step (.resume ret)).isSome := by simp [WorkerRun.step, hpc]

/-- …and the worker can always go on. -/
theorem exists_own_step (s : WorkerRun) : ∃ a, a.own = true ∧ (s.step a).isSome := by
  cases hpc : s.pc with
  | dispatching evt => exact ⟨.dispatch, rfl, by simp [WorkerRun.step, hpc]⟩
  | deciding => exact ⟨.decide, rfl, by simp [WorkerRun.step, hpc]⟩
  | entering m => exact ⟨.enter, rfl, by simp [WorkerRun.step, hpc]⟩
  | blocked m => exact ⟨.resume .woken, rfl, isSome_step_resume hpc .woken⟩

end WorkerRun

/-- A worker, and the events signalled and not yet passed to a dispatch pass. -/
structure EventLedger where
  run : WorkerRun
  owed : EventMask

namespace EventLedger

/-- `run` begins, owing what is pending. -/
def start (t : Thread) : EventLedger := ⟨.start t, t.signalledEvents⟩

/-- A step of the worker, or a signal of registered events. -/
def step (s : EventLedger) (a : RunAct) : Option EventLedger :=
  if a.raised ⊆ s.run.thread.registeredEvents then
    (s.run.step a).map fun r => ⟨r, (s.owed ||| a.raised) &&& ~~~s.run.passed a⟩
  else none

def machine : Machine EventLedger RunAct := ⟨step⟩

/-- **What is owed is pending, or in `evt_msk` with its pass to come.** -/
def Conserved (s : EventLedger) : Prop := s.owed ⊆ s.run.kept

variable {s t : EventLedger} {a : RunAct}

theorem conserved_start (t : Thread) : Conserved (start t) := subset_or_left t.signalledEvents 0

theorem Conserved.step (h : Conserved s) (hst : s.step a = some t) : Conserved t := by
  simp only [EventLedger.step] at hst
  split_ifs at hst with ha
  obtain ⟨r, hr, rfl⟩ := Option.map_eq_some_iff.mp hst
  intro i hi
  obtain ⟨hi, hpassed⟩ := mem_and_not.mp hi
  rcases mem_or.mp hi with howed | hraised
  · exact (mem_or.mp (WorkerRun.kept_subset hr i (h i howed))).resolve_right hpassed
  · cases a with
    | signal e => exact WorkerRun.raised_subset_kept ha hr i hraised
    | dispatch => exact absurd hraised notMem_zero
    | decide => exact absurd hraised notMem_zero
    | enter => exact absurd hraised notMem_zero
    | resume ret => exact absurd hraised notMem_zero

/-- **The worker loop drops no event.**  In every state of every run, an event signalled and not yet
passed to a dispatch pass is pending or in `evt_msk`; from a signal to any later state, each of its
events is still there or in the mask of a dispatch pass that started since, and after four more
steps of the worker's own it is in such a mask; and wherever the worker is, it can take a step of
its own, blocked in `wait_any` by either way out of it. -/
theorem always_conserved (t : Thread) (acts : List RunAct) :
    machine.Always Conserved (start t) acts ∧
      (∀ pre e post s u, acts = pre ++ .signal e :: post → e ⊆ t.registeredEvents →
        WorkerRun.machine.run (.start t) pre = some s →
        WorkerRun.machine.run s (.signal e :: post) = some u →
        e ⊆ u.kept ||| s.dispatched (.signal e :: post) ∧
          (4 ≤ post.countP RunAct.own → e ⊆ s.dispatched (.signal e :: post))) ∧
      ∀ s, WorkerRun.machine.run (.start t) acts = some s →
        (∃ a, a.own = true ∧ (s.step a).isSome) ∧
          ∀ m ret, s.pc = .blocked m → (s.step (.resume ret)).isSome := by
  refine ⟨Machine.always_of_step (conserved_start t) (fun _ _ _ h hst => h.step hst) acts, ?_,
    fun s _ => ⟨s.exists_own_step, fun m ret hpc => WorkerRun.isSome_step_resume hpc ret⟩⟩
  rintro pre e post s u - he hpre hpost
  obtain ⟨v, hv, hrun⟩ := Option.bind_eq_some_iff.mp hpost
  have hstep : s.step (.signal e) = some v := hv
  have hreg : e ⊆ s.thread.registeredEvents := by
    rw [WorkerRun.registeredEvents_run hpre]
    exact he
  have hkept : e ⊆ v.kept := WorkerRun.raised_subset_kept hreg hstep
  have hasks : v.AsksAll := ((WorkerRun.asksAll_start t).run hpre).step hstep
  refine ⟨fun i hi => ?_, fun hown i hi => ?_⟩
  · rw [WorkerRun.dispatched, hstep, Option.elim_some, mem_or, mem_or]
    rcases mem_or.mp (WorkerRun.kept_subset_of_run hrun i (hkept i hi)) with h | h
    · exact Or.inl h
    · exact Or.inr (Or.inr h)
  · rw [WorkerRun.dispatched, hstep, Option.elim_some, mem_or]
    have hregv : i ∈ v.thread.registeredEvents :=
      (WorkerRun.registeredEvents_step hstep).symm ▸ hreg i hi
    exact Or.inr (WorkerRun.mem_dispatched hasks hregv (hkept i hi) hrun
      ((v.untilPassed_mem_Icc i).2.trans hown))

/-- An event that arrives as the wait times out. -/
example : (WorkerRun.start ⟨3, 0⟩).dispatched
    [.dispatch, .decide, .enter, .signal 1, .resume .timedOut, .dispatch] = 1 := by decide

end EventLedger

end LibDronecan
