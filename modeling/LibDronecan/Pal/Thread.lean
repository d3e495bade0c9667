import LibDronecan.Machinery.Mask

/-!
# Pal/Thread — the event calls of a POSIX `Thread`

    wait ──enter──▸ returned                      under `sem` throughout
           └─────▸ blocked ──resume──▸ returned   `pthread_cond_timedwait` gives `sem` up in between
                      ▲──────────┘

Every event call of `dronecan::posix::Thread` holds `sem` except inside `pthread_cond_timedwait`, so
a wait is two atomic pieces: its *entry*, up to a return or the first block, and its *resumption*
each time the condition wait comes back, with `ETIMEDOUT` or not.  The deadline is not part of the
state: a blocked wait may resume either way at any time.
-/

open Machinery.Mask

namespace LibDronecan

/-- `event_mask_t`. -/
abbrev EventMask := BitVec 32

/-- The event state of a `Thread`. -/
structure Thread where
  registeredEvents : EventMask
  signalledEvents : EventMask
deriving DecidableEq

/-- What `pthread_cond_timedwait` came back with. -/
inductive CondRet where
  | woken
  | timedOut
deriving DecidableEq

namespace Thread

/-- `Thread::signal`.  The condition is signalled in the same branch; a waiter that is not woken by
it may still resume at any time. -/
def signal (t : Thread) (events : EventMask) : Thread :=
  if events &&& t.registeredEvents ≠ 0 then
    { t with signalledEvents := t.signalledEvents ||| events }
  else t

/-- Take every pending event, as all the slow paths do. -/
def clear (t : Thread) : Thread := { t with signalledEvents := 0 }

/-- `Thread::register_evt`: the event registered, if one is free. -/
def registerEvt (t : Thread) : Option ℕ × Thread :=
  if t.registeredEvents = 0xFFFFFFFF then (none, t)
  else
    match (List.range 32).find? fun id => t.registeredEvents &&& BitVec.twoPow 32 id = 0 with
    | none => (none, t)
    | some id =>
        (some id, { t with registeredEvents := t.registeredEvents ||| BitVec.twoPow 32 id })

/-- `Thread::unregister_evt`. -/
def unregisterEvt (t : Thread) (id : ℕ) : Thread :=
  { t with registeredEvents := t.registeredEvents &&& ~~~BitVec.twoPow 32 id }

/-- `Thread::wait_any` up to its first block: `some (ret, evt_mask)` if it returns before. -/
def waitAny (t : Thread) (evtMask : EventMask) : Thread × Option (Bool × EventMask) :=
  if t.signalledEvents &&& evtMask ≠ 0 then
    ({ t with signalledEvents := t.signalledEvents &&& ~~~evtMask }, some (true, evtMask))
  else if t.signalledEvents &&& evtMask ≠ 0 ∧ evtMask ≠ 0 then
    (t.clear, some (true, t.signalledEvents))
  else (t, none)

/-- One round of the loop of `Thread::wait_any`, once the condition wait came back. -/
def waitAnyResume (t : Thread) (evtMask : EventMask) (ret : CondRet) :
    Thread × Option (Bool × EventMask) :=
  if ret = .timedOut then (t.clear, some (false, t.signalledEvents))
  else if t.signalledEvents &&& evtMask ≠ 0 ∧ evtMask ≠ 0 then
    (t.clear, some (true, t.signalledEvents))
  else (t, none)

/-- `Thread::wait_all` up to its first block: `some ret` if it returns before. -/
def waitAll (t : Thread) (evtMask : EventMask) : Thread × Option Bool :=
  if t.signalledEvents &&& evtMask = evtMask ∧ evtMask ≠ 0 then
    ({ t with signalledEvents := t.signalledEvents &&& ~~~evtMask }, some true)
  else if t.signalledEvents &&& evtMask = evtMask ∧ evtMask ≠ 0 then (t.clear, some true)
  else (t, none)

/-- One round of the loop of `Thread::wait_all`. -/
def waitAllResume (t : Thread) (evtMask : EventMask) (ret : CondRet) : Thread × Option Bool :=
  if ret = .timedOut then (t.clear, some false)
  else if t.signalledEvents &&& evtMask = evtMask ∧ evtMask ≠ 0 then (t.clear, some true)
  else (t, none)

variable {t : Thread} {m e : EventMask}

/-- A signal of registered events adds them all. -/
theorem signal_of_subset (h : e ⊆ t.registeredEvents) :
    (t.signal e).signalledEvents = t.signalledEvents ||| e := by
  unfold signal
  split_ifs with hmeet
  · rfl
  · have h0 : e = 0 := by
      rw [not_not] at hmeet
      rw [← hmeet]
      exact (and_eq_right_iff.mpr h).symm.trans (BitVec.and_comm _ _)
    rw [h0]
    exact BitVec.or_zero.symm

theorem registeredEvents_signal (t : Thread) (e : EventMask) :
    (t.signal e).registeredEvents = t.registeredEvents := by
  unfold signal
  split_ifs <;> rfl

theorem subset_signal (t : Thread) (e : EventMask) :
    t.signalledEvents ⊆ (t.signal e).signalledEvents := by
  unfold signal
  split_ifs
  · exact subset_or_left _ _
  · exact subset_refl _

theorem registerEvt_full (h : t.registeredEvents = 0xFFFFFFFF) : t.registerEvt.2 = t := by
  rw [registerEvt, if_pos h]

theorem signalledEvents_registerEvt (t : Thread) :
    t.registerEvt.2.signalledEvents = t.signalledEvents := by
  unfold registerEvt
  split_ifs
  · rfl
  · split <;> rfl

theorem subset_registerEvt (t : Thread) :
    t.registeredEvents ⊆ t.registerEvt.2.registeredEvents := by
  unfold registerEvt
  split_ifs
  · exact subset_refl _
  · split
    · exact subset_refl _
    · exact subset_or_left _ _

/-- The event that is registered was free. -/
theorem notMem_of_registerEvt {id : ℕ} (h : t.registerEvt.1 = some id) :
    id ∉ t.registeredEvents := by
  unfold registerEvt at h
  split_ifs at h
  split at h
  · cases h
  · case _ i hfind =>
    obtain rfl := Option.some.inj h
    have hfree := List.find?_some hfind
    intro hid
    exact and_eq_zero_iff.mp (of_decide_eq_true hfree) i hid ((mem_twoPow (lt_of_mem hid)).mpr rfl)

theorem mem_unregisterEvt {id i : ℕ} (hid : id ∈ t.registeredEvents) :
    i ∈ (t.unregisterEvt id).registeredEvents ↔ i ∈ t.registeredEvents ∧ i ≠ id := by
  rw [unregisterEvt, mem_and_not, mem_twoPow (lt_of_mem hid)]

/-- **The entry of `wait_any` has two exits**: its re-check after the clock reading repeats the test
that just failed under the same lock. -/
theorem waitAny_eq (t : Thread) (m : EventMask) :
    t.waitAny m = if t.signalledEvents &&& m ≠ 0 then
        ({ t with signalledEvents := t.signalledEvents &&& ~~~m }, some (true, m))
      else (t, none) := by
  unfold waitAny
  by_cases h : t.signalledEvents &&& m ≠ 0
  · rw [if_pos h, if_pos h]
  · rw [if_neg h, if_neg h, if_neg fun h' => h h'.1]

/-- …and so does that of `wait_all`. -/
theorem waitAll_eq (t : Thread) (m : EventMask) :
    t.waitAll m = if t.signalledEvents &&& m = m ∧ m ≠ 0 then
      ({ t with signalledEvents := t.signalledEvents &&& ~~~m }, some true) else (t, none) := by
  unfold waitAll
  split_ifs <;> rfl

/-- In `wait_any` the test for an empty mask adds nothing. -/
theorem waitAnyResume_woken (t : Thread) (m : EventMask) :
    t.waitAnyResume m .woken = if t.signalledEvents &&& m ≠ 0 then
      (t.clear, some (true, t.signalledEvents)) else (t, none) := by
  have hm : (t.signalledEvents &&& m ≠ 0 ∧ m ≠ 0) ↔ t.signalledEvents &&& m ≠ 0 := by
    refine ⟨And.left, fun h => ⟨h, ?_⟩⟩
    rintro rfl
    exact h BitVec.and_zero
  simp only [waitAnyResume, reduceCtorEq, if_false, hm]

@[simp] theorem waitAllResume_timedOut (t : Thread) (m : EventMask) :
    t.waitAllResume m .timedOut = (t.clear, some false) := rfl

theorem waitAllResume_woken (t : Thread) (m : EventMask) :
    t.waitAllResume m .woken = if t.signalledEvents &&& m = m ∧ m ≠ 0 then
      (t.clear, some true) else (t, none) := by
  simp only [waitAllResume, reduceCtorEq, if_false]

end Thread

end LibDronecan
