import LibDronecan.Pal.ThreadEvents

/-!
# Pal/EventIds — pending events and the ids they belong to

    register_evt ──▸ id registered ──signal──▸ id pending ──wait──▸ reported
                          └──unregister_evt──▸ free, for the next register_evt

A thread's events are handed out by `register_evt` and come back by `unregister_evt`, while other
threads signal and the owner waits.  Two of these calls may leave an event pending that nobody has
registered: `signal` asks for one registered event in its mask and then stores all of it, and
`unregister_evt` leaves the event pending that it frees.  The next `register_evt` gives such an
event away (`always_pendingRegistered_iff`).
-/

open Machinery Machinery.Mask

namespace LibDronecan

/-- A call by any thread, a wait of the owner, or the return of the condition wait it is in. -/
inductive EventIdAct where
  | register
  | unregister (id : ℕ)
  | signal (events : EventMask)
  | waitAny (evtMask : EventMask)
  | waitAll (evtMask : EventMask)
  | resume (ret : CondRet)

/-- A thread's events, and where its owner is. -/
structure EventIds where
  thread : Thread
  owner : Owner

namespace EventIds

/-- Nothing registered, and nothing pending. -/
def start : EventIds := ⟨⟨0, 0⟩, .running⟩

/-- The owner after a piece of a `wait_any`… -/
def afterAny (m : EventMask) (r : Thread × Option (Bool × EventMask)) : EventIds :=
  ⟨r.1, if r.2 = none then .inWaitAny m else .running⟩

/-- …and of a `wait_all`. -/
def afterAll (m : EventMask) (r : Thread × Option Bool) : EventIds :=
  ⟨r.1, if r.2 = none then .inWaitAll m else .running⟩

/-- One action.  Only what is registered is unregistered. -/
def step (s : EventIds) : EventIdAct → Option EventIds
  | .register => some { s with thread := s.thread.registerEvt.2 }
  | .unregister id =>
      if id ∈ s.thread.registeredEvents then some { s with thread := s.thread.unregisterEvt id }
      else none
  | .signal e => some { s with thread := s.thread.signal e }
  | .waitAny m =>
      match s.owner with
      | .running => some (afterAny m (s.thread.waitAny m))
      | _ => none
  | .waitAll m =>
      match s.owner with
      | .running => some (afterAll m (s.thread.waitAll m))
      | _ => none
  | .resume ret =>
      match s.owner with
      | .running => none
      | .inWaitAny m => some (afterAny m (s.thread.waitAnyResume m ret))
      | .inWaitAll m => some (afterAll m (s.thread.waitAllResume m ret))

def machine : Machine EventIds EventIdAct := ⟨step⟩

/-- **Pending events are registered ones.** -/
def PendingRegistered (s : EventIds) : Prop :=
  s.thread.signalledEvents ⊆ s.thread.registeredEvents

/-- **An event that is handed out is not pending.** -/
def HandsOutClear (s : EventIds) : EventIdAct → Prop
  | .register => ∀ id, s.thread.registerEvt.1 = some id → id ∉ s.thread.signalledEvents
  | _ => True

/-- A signal is of registered events only, or of none; and an event is unregistered while it is not
pending. -/
def Clean (s : EventIds) : EventIdAct → Prop
  | .signal e => e &&& s.thread.registeredEvents = 0 ∨ e ⊆ s.thread.registeredEvents
  | .unregister id => id ∈ s.thread.registeredEvents → id ∉ s.thread.signalledEvents
  | _ => True

instance (s : EventIds) : Decidable (PendingRegistered s) :=
  inferInstanceAs (Decidable (s.thread.signalledEvents ⊆ s.thread.registeredEvents))

variable {s t : EventIds} {a : EventIdAct}

/-- A piece of a wait registers nothing and signals nothing. -/
structure Takes (t t' : Thread) : Prop where
  registered : t'.registeredEvents = t.registeredEvents
  signalled : t'.signalledEvents ⊆ t.signalledEvents

theorem takes_refl (t : Thread) : Takes t t := ⟨rfl, subset_refl _⟩

theorem takes_clear (t : Thread) : Takes t t.clear := ⟨rfl, zero_subset _⟩

theorem takes_waitAny (t : Thread) (m : EventMask) : Takes t (t.waitAny m).1 := by
  rw [Thread.waitAny_eq]
  split_ifs
  · exact ⟨rfl, fun i hi => (mem_and_not.mp hi).1⟩
  · exact takes_refl t

theorem takes_waitAnyResume (t : Thread) (m : EventMask) (ret : CondRet) :
    Takes t (t.waitAnyResume m ret).1 := by
  unfold Thread.waitAnyResume
  split_ifs
  · exact takes_clear t
  · exact takes_clear t
  · exact takes_refl t

theorem takes_waitAll (t : Thread) (m : EventMask) : Takes t (t.waitAll m).1 := by
  rw [Thread.waitAll_eq]
  split_ifs
  · exact ⟨rfl, fun i hi => (mem_and_not.mp hi).1⟩
  · exact takes_refl t

theorem takes_waitAllResume (t : Thread) (m : EventMask) (ret : CondRet) :
    Takes t (t.waitAllResume m ret).1 := by
  unfold Thread.waitAllResume
  split_ifs
  · exact takes_clear t
  · exact takes_clear t
  · exact takes_refl t

/-- **What a step does** to the thread. -/
theorem step_cases (hst : s.step a = some t) :
    (a = .register ∧ t.thread = s.thread.registerEvt.2) ∨
    (∃ id, a = .unregister id ∧ id ∈ s.thread.registeredEvents ∧
      t.thread = s.thread.unregisterEvt id) ∨
    (∃ e, a = .signal e ∧ t.thread = s.thread.signal e) ∨ Takes s.thread t.thread := by
  cases a with
  | register => exact .inl ⟨rfl, Option.some.inj hst ▸ rfl⟩
  | unregister id =>
    simp only [step] at hst
    split_ifs at hst with hid
    exact .inr (.inl ⟨id, rfl, hid, Option.some.inj hst ▸ rfl⟩)
  | signal e => exact .inr (.inr (.inl ⟨e, rfl, Option.some.inj hst ▸ rfl⟩))
  | waitAny m =>
    simp only [step] at hst
    split at hst <;> cases hst
    exact .inr (.inr (.inr (takes_waitAny s.thread m)))
  | waitAll m =>
    simp only [step] at hst
    split at hst <;> cases hst
    exact .inr (.inr (.inr (takes_waitAll s.thread m)))
  | resume ret =>
    simp only [step] at hst
    split at hst <;> cases hst
    case _ m _ => exact .inr (.inr (.inr (takes_waitAnyResume s.thread m ret)))
    case _ m _ => exact .inr (.inr (.inr (takes_waitAllResume s.thread m ret)))

theorem PendingRegistered.step (h : PendingRegistered s) (hc : Clean s a)
    (hst : s.step a = some t) : PendingRegistered t := by
  obtain ⟨rfl, ht⟩ | ⟨id, rfl, hid, ht⟩ | ⟨e, rfl, ht⟩ | htakes := step_cases hst
  · rw [PendingRegistered, ht, Thread.signalledEvents_registerEvt]
    exact subset_trans h s.thread.subset_registerEvt
  · rw [PendingRegistered, ht]
    refine fun i hi => (Thread.mem_unregisterEvt hid).mpr ⟨h i hi, ?_⟩
    rintro rfl
    exact hc hid hi
  · rw [PendingRegistered, ht, Thread.registeredEvents_signal]
    rcases hc with hnone | hsub
    · rw [Thread.signal, if_neg (not_not.mpr hnone)]
      exact h
    · rw [Thread.signal_of_subset hsub]
      exact fun i hi => (mem_or.mp hi).elim (h i) (hsub i)
  · rw [PendingRegistered, htakes.registered]
    exact subset_trans htakes.signalled h

/-- Breaking the condition leaves an event pending that is not registered. -/
theorem exists_not_pendingRegistered (hc : ¬ Clean s a) :
    ∃ t, s.step a = some t ∧ ¬ PendingRegistered t := by
  cases a with
  | signal e =>
    obtain ⟨hmeet, hsub⟩ := not_or.mp hc
    obtain ⟨i, hi⟩ := not_forall.mp hsub
    obtain ⟨hie, hreg⟩ := Classical.not_imp.mp hi
    refine ⟨_, rfl, fun hp => hreg ?_⟩
    rw [← Thread.registeredEvents_signal s.thread e]
    refine hp i ?_
    change i ∈ (s.thread.signal e).signalledEvents
    rw [Thread.signal, if_pos hmeet]
    exact mem_or.mpr (Or.inr hie)
  | unregister id =>
    obtain ⟨hid, hpending⟩ := Classical.not_imp.mp hc
    refine ⟨_, if_pos hid, fun hp => ?_⟩
    exact ((Thread.mem_unregisterEvt hid).mp (hp id (not_not.mp hpending))).2 rfl
  | register => exact absurd trivial hc
  | waitAny m => exact absurd trivial hc
  | waitAll m => exact absurd trivial hc
  | resume ret => exact absurd trivial hc

/-- While pending events are registered, a new one is clear. -/
theorem PendingRegistered.handsOutClear (h : PendingRegistered s) (a : EventIdAct) :
    HandsOutClear s a := by
  cases a with
  | register => exact fun id hid hpending => Thread.notMem_of_registerEvt hid (h id hpending)
  | _ => trivial

/-- **Pending events are registered throughout a run, and every new one is clear, exactly when
signals are of registered events and only events that are not pending are unregistered.** -/
theorem always_pendingRegistered_iff (acts : List EventIdAct) :
    machine.Always PendingRegistered start acts ∧ machine.Along HandsOutClear start acts
      ↔ machine.Along Clean start acts := by
  rw [and_iff_left_of_imp fun h => h.along fun _ a hp => hp.handsOutClear a]
  exact Machine.always_iff_along (zero_subset _) (fun _ h => h)
    (fun _ _ _ h hc hst => h.step hc hst) fun _ _ _ hc => exists_not_pendingRegistered hc

/-- **An event is handed out that is pending already**: it was when its last owner unregistered
it. -/
theorem not_forall_always_pendingRegistered : ¬ ∀ acts : List EventIdAct,
    machine.Always PendingRegistered start acts ∧ machine.Along HandsOutClear start acts := by
  intro h
  have hrun := (h [.register, .signal 1, .unregister 0, .register]).1
  revert hrun
  decide

end EventIds

end LibDronecan
