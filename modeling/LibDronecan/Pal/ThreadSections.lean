import LibDronecan.Machinery.Sections
import LibDronecan.Pal.EventRegistry

/-!
# Pal/ThreadSections — the event calls of a POSIX `Thread`, one memory access at a time

    signalled_events |= events          read ──▸ or ──▸ write, with `sem` held from before to after

`Thread` has each call under `sem` as one function.  Here a call is the loads and stores that the
code makes, and calls by any number of threads run at once.  Each is under `WITH_SEMAPHORE(sem)`
all the way, so it comes to the same as the function (`runs_apply`), and any interleaving of their
accesses to the functions one after the other (`exists_replays_of_run`).  A wait is several
sections: `pthread_cond_timedwait` gives `sem` up, and has it again when it comes back.
-/

open Machinery Machinery.Mask

namespace LibDronecan

/-- What is done under `sem`: a call, or the part of a wait behind the condition wait. -/
inductive ThreadCall
  | signal (events : EventMask)
  | registerEvt
  | unregisterEvt (id : ℕ)
  | waitAny (evtMask : EventMask)
  | waitAnyResume (evtMask : EventMask) (ret : CondRet)
  | waitAll (evtMask : EventMask)
  | waitAllResume (evtMask : EventMask) (ret : CondRet)

/-- What comes back: for a wait, `none` where it goes to sleep. -/
inductive ThreadRet
  | signal
  | registerEvt (id : Option ℕ)
  | unregisterEvt
  | waitAny (ret : Option (Bool × EventMask))
  | waitAll (ret : Option Bool)

/-- What the call does as one function. -/
def ThreadCall.apply : ThreadCall → Thread → ThreadRet × Thread
  | .signal events, t => (.signal, t.signal events)
  | .registerEvt, t => (.registerEvt t.registerEvt.1, t.registerEvt.2)
  | .unregisterEvt id, t => (.unregisterEvt, t.unregisterEvt id)
  | .waitAny m, t => (.waitAny (t.waitAny m).2, (t.waitAny m).1)
  | .waitAnyResume m ret, t => (.waitAny (t.waitAnyResume m ret).2, (t.waitAnyResume m ret).1)
  | .waitAll m, t => (.waitAll (t.waitAll m).2, (t.waitAll m).1)
  | .waitAllResume m ret, t => (.waitAll (t.waitAllResume m ret).2, (t.waitAllResume m ret).1)

/-- The next access to the thread's two masks, and what the accesses before it have loaded. -/
inductive ThreadPc
  | signalTest (events : EventMask)
  | signalLoad (events : EventMask)
  | signalStore (events signalled : EventMask)
  | registerFull
  | registerScan (id : ℕ)
  | registerLoad (id : ℕ)
  | registerStore (id : ℕ) (registered : EventMask)
  | unregisterLoad (id : ℕ)
  | unregisterStore (id : ℕ) (registered : EventMask)
  | anyTest (evtMask : EventMask)
  | anyLoad (evtMask : EventMask)
  | anyStore (evtMask signalled : EventMask)
  | anyRetest (evtMask : EventMask)
  | anyTake (ret : Bool)
  | anyClear (ret : Bool) (evtMask : EventMask)
  | allTest (evtMask : EventMask)
  | allLoad (evtMask : EventMask)
  | allStore (evtMask signalled : EventMask)
  | allRetest (evtMask : EventMask)
  | allClear (ret : Bool)

namespace ThreadSections

/-- The first access of a call. -/
def enter : ThreadCall → ThreadPc
  | .signal events => .signalTest events
  | .registerEvt => .registerFull
  | .unregisterEvt id => .unregisterLoad id
  | .waitAny m => .anyTest m
  | .waitAnyResume m ret => if ret = .timedOut then .anyTake false else .anyRetest m
  | .waitAll m => .allTest m
  | .waitAllResume m ret => if ret = .timedOut then .allClear false else .allRetest m

/-- One access, and what is worked out from it until the next. -/
def turn : ThreadPc × Thread → Turn (ThreadPc × Thread) (ThreadRet × Thread)
  -- if (events & registered_events) { signalled_events |= events; }
  | (.signalTest events, t) =>
      if events &&& t.registeredEvents ≠ 0 then .again (.signalLoad events, t)
      else .leave (.signal, t)
  | (.signalLoad events, t) => .again (.signalStore events t.signalledEvents, t)
  | (.signalStore events signalled, t) =>
      .leave (.signal, { t with signalledEvents := signalled ||| events })
  -- if (registered_events == 0xFFFFFFFF) return -1; while ((registered_events & (1 << id)) && …) …
  | (.registerFull, t) =>
      if t.registeredEvents = 0xFFFFFFFF then .leave (.registerEvt none, t)
      else .again (.registerScan 0, t)
  | (.registerScan id, t) =>
      if t.registeredEvents &&& BitVec.twoPow 32 id ≠ 0 ∧ id < 32 then
        .again (.registerScan (id + 1), t)
      else if id = 32 then .leave (.registerEvt none, t)
      else .again (.registerLoad id, t)
  | (.registerLoad id, t) => .again (.registerStore id t.registeredEvents, t)
  | (.registerStore id registered, t) =>
      .leave (.registerEvt (some id),
        { t with registeredEvents := registered ||| BitVec.twoPow 32 id })
  -- registered_events &= ~(1 << id);
  | (.unregisterLoad id, t) => .again (.unregisterStore id t.registeredEvents, t)
  | (.unregisterStore id registered, t) =>
      .leave (.unregisterEvt,
        { t with registeredEvents := registered &&& ~~~BitVec.twoPow 32 id })
  -- if (signalled_events & evt_mask) { signalled_events &= ~evt_mask; return true; }
  | (.anyTest m, t) =>
      if t.signalledEvents &&& m ≠ 0 then .again (.anyLoad m, t) else .again (.anyRetest m, t)
  | (.anyLoad m, t) => .again (.anyStore m t.signalledEvents, t)
  | (.anyStore m signalled, t) =>
      .leave (.waitAny (some (true, m)), { t with signalledEvents := signalled &&& ~~~m })
  -- if (… && (evt_mask != 0)) { evt_mask = signalled_events; signalled_events = 0; return …; }
  | (.anyRetest m, t) =>
      if t.signalledEvents &&& m ≠ 0 ∧ m ≠ 0 then .again (.anyTake true, t)
      else .leave (.waitAny none, t)
  | (.anyTake ret, t) => .again (.anyClear ret t.signalledEvents, t)
  | (.anyClear ret m, t) => .leave (.waitAny (some (ret, m)), { t with signalledEvents := 0 })
  -- the same with all of the mask, and without handing it back
  | (.allTest m, t) =>
      if t.signalledEvents &&& m = m ∧ m ≠ 0 then .again (.allLoad m, t)
      else .again (.allRetest m, t)
  | (.allLoad m, t) => .again (.allStore m t.signalledEvents, t)
  | (.allStore m signalled, t) =>
      .leave (.waitAll (some true), { t with signalledEvents := signalled &&& ~~~m })
  | (.allRetest m, t) =>
      if t.signalledEvents &&& m = m ∧ m ≠ 0 then .again (.allClear true, t)
      else .leave (.waitAll none, t)
  | (.allClear ret, t) => .leave (.waitAll (some ret), { t with signalledEvents := 0 })

/-- The calls, under `sem`. -/
def code : LockedCode Thread ThreadCall ThreadPc ThreadRet := ⟨enter, turn⟩

variable {t : Thread} {m : EventMask}

/-! ## A call that nobody disturbs -/

theorem runs_signal (events : EventMask) (t : Thread) :
    code.Runs (.signal events) t .signal (t.signal events) := by
  refine ⟨3, ?_⟩
  by_cases h : events &&& t.registeredEvents ≠ 0
  · have hturn : turn (.signalTest events, t) = .again (.signalLoad events, t) := if_pos h
    rw [Thread.signal, if_pos h]
    exact loop_of_again hturn 2
  · have hturn : turn (.signalTest events, t) = .leave (.signal, t) := if_neg h
    rw [Thread.signal, if_neg h]
    exact loop_of_leave hturn 2

/-- The scan finds the first free id. -/
theorem loop_registerScan {i : ℕ} (hi : i < 32) (hfree : i ∉ t.registeredEvents)
    (hused : ∀ j < i, j ∈ t.registeredEvents) :
    loop turn (i + 3) (.registerScan 0, t) = some (.registerEvt (some i),
      { t with registeredEvents := t.registeredEvents ||| BitVec.twoPow 32 i }) := by
  have hfrom (d : ℕ) (hd : d ≤ i) : loop turn (d + 3) (.registerScan (i - d), t)
      = some (.registerEvt (some i),
        { t with registeredEvents := t.registeredEvents ||| BitVec.twoPow 32 i }) := by
    induction d with
    | zero =>
      have hbit := (Thread.and_twoPow_eq_zero_iff hi).mpr hfree
      have hturn : turn (.registerScan i, t) = .again (.registerLoad i, t) := by
        rw [turn, if_neg fun h => h.1 hbit, if_neg hi.ne]
      exact loop_of_again hturn 2
    | succ d ih =>
      have hmem := hused (i - (d + 1)) (by omega)
      have hbit := (Thread.and_twoPow_eq_zero_iff (m := t.registeredEvents)
        (show i - (d + 1) < 32 by omega)).not.mpr (not_not.mpr hmem)
      have hturn : turn (.registerScan (i - (d + 1)), t) = .again (.registerScan (i - d), t) := by
        have hnext : i - (d + 1) + 1 = i - d := by omega
        rw [turn, if_pos ⟨hbit, by omega⟩, hnext]
      rw [show d + 1 + 3 = d + 3 + 1 by omega, loop_of_again hturn]
      exact ih (by omega)
  simpa using hfrom i le_rfl

theorem runs_registerEvt (t : Thread) :
    code.Runs .registerEvt t (.registerEvt t.registerEvt.1) t.registerEvt.2 := by
  obtain ⟨hfull, -⟩ | ⟨i, hi, hfree, hused, hret, -⟩ := t.registerEvtLoop_cases
  · have hturn : turn (.registerFull, t) = .leave (.registerEvt none, t) := if_pos hfull
    refine ⟨1, ?_⟩
    rw [Thread.registerEvt, if_pos hfull]
    exact loop_of_leave hturn 0
  · have heq : t.registerEvt = (some i, { t with
        registeredEvents := t.registeredEvents ||| BitVec.twoPow 32 i }) :=
      Option.some.inj (hret 32 _ (t.registerEvtLoop_eq le_rfl))
    have hfull : t.registeredEvents ≠ 0xFFFFFFFF := fun hfull =>
      hfree (hfull ▸ Thread.mem_full.mpr hi)
    refine ⟨i + 4, ?_⟩
    have hturn : turn (.registerFull, t) = .again (.registerScan 0, t) := if_neg hfull
    rw [heq]
    exact (loop_of_again hturn (i + 3)).trans (loop_registerScan hi hfree hused)

theorem runs_unregisterEvt (id : ℕ) (t : Thread) :
    code.Runs (.unregisterEvt id) t .unregisterEvt (t.unregisterEvt id) := ⟨2, rfl⟩

/-- From its second test on, as the loop of `wait_any` repeats it. -/
theorem loop_anyRetest (t : Thread) (m : EventMask) :
    loop turn 3 (.anyRetest m, t)
      = some (.waitAny (t.waitAnyResume m .woken).2, (t.waitAnyResume m .woken).1) := by
  rw [Thread.waitAnyResume, if_neg (by decide)]
  by_cases h : t.signalledEvents &&& m ≠ 0 ∧ m ≠ 0
  · have hturn : turn (.anyRetest m, t) = .again (.anyTake true, t) := if_pos h
    rw [if_pos h]
    exact loop_of_again hturn 2
  · have hturn : turn (.anyRetest m, t) = .leave (.waitAny none, t) := if_neg h
    rw [if_neg h]
    exact loop_of_leave hturn 2

theorem runs_waitAny (m : EventMask) (t : Thread) :
    code.Runs (.waitAny m) t (.waitAny (t.waitAny m).2) (t.waitAny m).1 := by
  refine ⟨4, ?_⟩
  by_cases h : t.signalledEvents &&& m ≠ 0
  · have hturn : turn (.anyTest m, t) = .again (.anyLoad m, t) := if_pos h
    rw [Thread.waitAny_eq, if_pos h]
    exact loop_of_again hturn 3
  · have hturn : turn (.anyTest m, t) = .again (.anyRetest m, t) := if_neg h
    have hwoken : t.waitAnyResume m .woken = (t, none) := by
      rw [Thread.waitAnyResume_woken, if_neg h]
    refine (loop_of_again hturn 3).trans ?_
    rw [loop_anyRetest, hwoken, Thread.waitAny_eq, if_neg h]

theorem runs_waitAnyResume (m : EventMask) (ret : CondRet) (t : Thread) :
    code.Runs (.waitAnyResume m ret) t (.waitAny (t.waitAnyResume m ret).2)
      (t.waitAnyResume m ret).1 := by
  cases ret with
  | woken => exact ⟨3, loop_anyRetest t m⟩
  | timedOut => exact ⟨2, rfl⟩

theorem loop_allRetest (t : Thread) (m : EventMask) :
    loop turn 2 (.allRetest m, t)
      = some (.waitAll (t.waitAllResume m .woken).2, (t.waitAllResume m .woken).1) := by
  rw [Thread.waitAllResume, if_neg (by decide)]
  by_cases h : t.signalledEvents &&& m = m ∧ m ≠ 0
  · have hturn : turn (.allRetest m, t) = .again (.allClear true, t) := if_pos h
    rw [if_pos h]
    exact loop_of_again hturn 1
  · have hturn : turn (.allRetest m, t) = .leave (.waitAll none, t) := if_neg h
    rw [if_neg h]
    exact loop_of_leave hturn 1

theorem runs_waitAll (m : EventMask) (t : Thread) :
    code.Runs (.waitAll m) t (.waitAll (t.waitAll m).2) (t.waitAll m).1 := by
  refine ⟨3, ?_⟩
  by_cases h : t.signalledEvents &&& m = m ∧ m ≠ 0
  · have hturn : turn (.allTest m, t) = .again (.allLoad m, t) := if_pos h
    rw [Thread.waitAll_eq, if_pos h]
    exact loop_of_again hturn 2
  · have hturn : turn (.allTest m, t) = .again (.allRetest m, t) := if_neg h
    have hwoken : t.waitAllResume m .woken = (t, none) := by
      rw [Thread.waitAllResume_woken, if_neg h]
    refine (loop_of_again hturn 2).trans ?_
    rw [loop_allRetest, hwoken, Thread.waitAll_eq, if_neg h]

theorem runs_waitAllResume (m : EventMask) (ret : CondRet) (t : Thread) :
    code.Runs (.waitAllResume m ret) t (.waitAll (t.waitAllResume m ret).2)
      (t.waitAllResume m ret).1 := by
  cases ret with
  | woken => exact ⟨2, loop_allRetest t m⟩
  | timedOut => exact ⟨1, rfl⟩

/-- **Undisturbed, a call is the function it is taken for.** -/
theorem runs_apply (k : ThreadCall) (t : Thread) : code.Runs k t (k.apply t).1 (k.apply t).2 := by
  cases k with
  | signal events => exact runs_signal events t
  | registerEvt => exact runs_registerEvt t
  | unregisterEvt id => exact runs_unregisterEvt id t
  | waitAny m => exact runs_waitAny m t
  | waitAnyResume m ret => exact runs_waitAnyResume m ret t
  | waitAll m => exact runs_waitAll m t
  | waitAllResume m ret => exact runs_waitAllResume m ret t

/-! ## Any number of threads -/

variable {ι : Type*} [DecidableEq ι] {as : List (SectionAct ι ThreadCall)}
  {s : Sections ι Thread ThreadCall ThreadPc ThreadRet}

/-- **The event calls are atomic**: for any number of threads and every interleaving of their loads
and stores, the masks are, whenever nobody holds `sem`, what the functions make of them one call
after the other in the order the calls return, each with the result it returned; and whoever holds
`sem` lets go of it again. -/
theorem exists_replays_of_run (h : code.machine.run (LockedCode.start t) as = some s) :
    (∃ u, LockedCode.Replays ThreadCall.apply t s.returned u ∧ (s.holder = none → s.shared = u)) ∧
      ∃ as' s', code.machine.run s as' = some s' ∧ s'.holder = none := by
  have hexplained := LockedCode.explained_of_run h
  refine ⟨?_, hexplained.exists_release fun k t => ⟨_, _, runs_apply k t⟩⟩
  obtain ⟨u, hserial, hshared⟩ := hexplained
  refine ⟨u, hserial.replays runs_apply, fun hfree => ?_⟩
  rwa [hfree] at hshared

/-- Two signals at once: the second waits until the first has stored. -/
def signals2 : List (SectionAct Bool ThreadCall) :=
  [.call true (.signal 1), .call false (.signal 2), .acquire true, .turn true, .turn true,
    .turn true, .acquire false, .turn false]

theorem exists_replays_of_run_two : ∃ s : Sections Bool Thread ThreadCall ThreadPc ThreadRet,
    code.machine.run (LockedCode.start ⟨3, 0⟩) signals2 = some s ∧
    (∃ u, LockedCode.Replays ThreadCall.apply ⟨3, 0⟩ s.returned u ∧
      (s.holder = none → s.shared = u)) ∧
      ∃ as' s', code.machine.run s as' = some s' ∧ s'.holder = none :=
  have hrun : code.machine.run (LockedCode.start ⟨3, 0⟩) signals2 = some _ := rfl
  ⟨_, hrun, exists_replays_of_run hrun⟩

end ThreadSections

end LibDronecan
