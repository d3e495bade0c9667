import LibDronecan.Machinery.Run
import LibDronecan.Pal.Thread

/-!
# Pal/WorkerLoop — the loop of `Worker::run`, and what its passes are entitled to

    dispatching evt ──▸ deciding ──▸ entering mask ──┬──▸ blocked mask ──┐
          ▲                                          │ fast path         │ resume
          └──────────────────────────────────────────┴───────────────────┘

A pass hands `evt_msk` to every registered object; then `run` reads the registered events into
`evt_msk` and passes it to `wait_any` as the in/out mask, whatever comes back being the next pass's
events.  Other threads signal at any point.  `recent` is what was signalled since the last pass
began.

The slow paths of `wait_any` write the pending events to the mask; the fast path returns with the
request still in it.  So a pass can name events nobody signalled: `along_passOk` finds the exact
states in which `wait_any` must be entered for that not to happen.
-/

open Machinery Machinery.Mask

namespace LibDronecan

/-- The event side of an `EventWorkerObject`. -/
structure EventWorkerObject where
  evtMask : EventMask
  triggerAny : Bool

/-- `EventWorkerObject::operator()(event_mask_t)`: whether the function is called. -/
def EventWorkerObject.run (o : EventWorkerObject) (evtMask : EventMask) : Bool :=
  if o.evtMask &&& evtMask = o.evtMask then true
  else if o.evtMask &&& evtMask ≠ 0 ∧ o.triggerAny then true
  else false

/-- The events entitle the object to a call: one of its mask, or all of it. -/
def EventWorkerObject.Entitled (o : EventWorkerObject) (events : EventMask) : Prop :=
  if o.triggerAny then o.evtMask &&& events ≠ 0 else o.evtMask ⊆ events

instance (o : EventWorkerObject) (events : EventMask) : Decidable (o.Entitled events) := by
  unfold EventWorkerObject.Entitled
  infer_instance

/-- **A call on events is entitled by any events around them.** -/
theorem EventWorkerObject.entitled_of_run {o : EventWorkerObject} {evt events : EventMask}
    (h0 : o.evtMask ≠ 0) (hrun : o.run evt = true) (hsub : evt ⊆ events) : o.Entitled events := by
  unfold EventWorkerObject.run at hrun
  unfold Entitled
  split_ifs at hrun with hall hany
  · have hmask : o.evtMask ⊆ events := by
      rw [BitVec.and_comm, and_eq_right_iff] at hall
      exact subset_trans hall hsub
    split_ifs
    · obtain ⟨i, hi⟩ := ne_zero_iff.mp h0
      exact and_ne_zero_iff.mpr ⟨i, hi, hmask i hi⟩
    · exact hmask
  · obtain ⟨i, hi, hevt⟩ := and_ne_zero_iff.mp hany.1
    rw [if_pos hany.2]
    exact and_ne_zero_iff.mpr ⟨i, hi, hsub i hevt⟩

/-- The object that waits for one event. -/
def EventWorkerObject.single (i : ℕ) : EventWorkerObject := ⟨BitVec.twoPow 32 i, true⟩

theorem EventWorkerObject.run_single {i : ℕ} {evt : EventMask} (hi : i ∈ evt) :
    (single i).run evt = true := by
  have hsub : BitVec.twoPow 32 i ⊆ evt := fun j hj => by
    rwa [(mem_twoPow (lt_of_mem hi)).mp hj]
  rw [EventWorkerObject.run, if_pos]
  rw [BitVec.and_comm]
  exact and_eq_right_iff.mpr hsub

theorem EventWorkerObject.not_entitled_single {i : ℕ} {events : EventMask} (hlt : i < 32)
    (hi : i ∉ events) : ¬ (single i).Entitled events := by
  rw [Entitled, if_pos (show (single i).triggerAny = true from rfl), not_not, and_eq_zero_iff]
  intro j hj
  rwa [(mem_twoPow hlt).mp hj]

/-! ## The loop -/

/-- Where the worker thread is in `run`. -/
inductive RunPc where
  | dispatching (evtMsk : EventMask)
  | deciding
  | entering (evtMsk : EventMask)
  | blocked (evtMsk : EventMask)

/-- A signal by another thread, or a step of `run`. -/
inductive RunAct where
  | signal (events : EventMask)
  | dispatch
  | decide
  | enter
  | resume (ret : CondRet)

/-- The worker's thread, where it is, and what was signalled since the last pass began. -/
structure WorkerRun where
  thread : Thread
  pc : RunPc
  recent : EventMask

namespace WorkerRun

/-- `run` begins with a pass on no events. -/
def start (t : Thread) : WorkerRun := ⟨t, .dispatching 0, 0⟩

/-- The loop after a piece of `wait_any`: `run` ignores its result and keeps the mask. -/
def afterWait (s : WorkerRun) (m : EventMask) (r : Thread × Option (Bool × EventMask)) :
    WorkerRun :=
  match r with
  | (t, none) => ⟨t, .blocked m, s.recent⟩
  | (t, some (_, out)) => ⟨t, .dispatching out, s.recent⟩

/-- One step. -/
def step (s : WorkerRun) : RunAct → Option WorkerRun
  | .signal e => some ⟨s.thread.signal e, s.pc, s.recent ||| e⟩
  | .dispatch =>
      match s.pc with
      | .dispatching _ => some ⟨s.thread, .deciding, 0⟩
      | _ => none
  | .decide =>
      match s.pc with
      | .deciding => some ⟨s.thread, .entering s.thread.registeredEvents, s.recent⟩
      | _ => none
  | .enter =>
      match s.pc with
      | .entering m => some (s.afterWait m (s.thread.waitAny m))
      | _ => none
  | .resume ret =>
      match s.pc with
      | .blocked m => some (s.afterWait m (s.thread.waitAnyResume m ret))
      | _ => none

/-- `run`, with signals at any point. -/
def machine : Machine WorkerRun RunAct := ⟨step⟩

/-- **A pass calls only objects entitled by what was signalled since the previous pass began.** -/
def PassOk (objs : List EventWorkerObject) (s : WorkerRun) : RunAct → Prop
  | .dispatch =>
      match s.pc with
      | .dispatching evt => ∀ o ∈ objs, o.run evt = true → o.Entitled s.recent
      | _ => True
  | _ => True

/-- **`wait_any` is entered with nothing older than the last pass in play**: if one of the events
asked for is pending then all of them are recent, and otherwise whatever is pending is. -/
def Fresh (s : WorkerRun) : RunAct → Prop
  | .enter =>
      match s.pc with
      | .entering m =>
          if s.thread.signalledEvents &&& m ≠ 0 then m ⊆ s.recent
          else s.thread.signalledEvents ⊆ s.recent
      | _ => True
  | _ => True

instance (objs : List EventWorkerObject) (s : WorkerRun) (a : RunAct) :
    Decidable (PassOk objs s a) := by
  unfold PassOk
  split
  · split <;> infer_instance
  · infer_instance

/-- The events of the coming pass, and those it may still collect, are recent. -/
def Recent (s : WorkerRun) : Prop :=
  match s.pc with
  | .dispatching evt => evt ⊆ s.recent
  | .blocked _ => s.thread.signalledEvents ⊆ s.recent
  | _ => True

variable {s t : WorkerRun}

/-- **What a step does**: each action, where it is enabled and where it leads. -/
theorem step_cases {a : RunAct} (hst : s.step a = some t) :
    (∃ e, a = .signal e ∧ t = ⟨s.thread.signal e, s.pc, s.recent ||| e⟩) ∨
    (∃ evt, a = .dispatch ∧ s.pc = .dispatching evt ∧ t = ⟨s.thread, .deciding, 0⟩) ∨
    (a = .decide ∧ s.pc = .deciding ∧
      t = ⟨s.thread, .entering s.thread.registeredEvents, s.recent⟩) ∨
    (∃ m, a = .enter ∧ s.pc = .entering m ∧ t = s.afterWait m (s.thread.waitAny m)) ∨
    ∃ m ret, a = .resume ret ∧ s.pc = .blocked m ∧
      t = s.afterWait m (s.thread.waitAnyResume m ret) := by
  cases a with
  | signal e => exact .inl ⟨e, rfl, (Option.some.inj hst).symm⟩
  | dispatch =>
    simp only [WorkerRun.step] at hst
    split at hst <;> cases hst
    case _ evt hpc => exact .inr (.inl ⟨evt, rfl, hpc, rfl⟩)
  | decide =>
    simp only [WorkerRun.step] at hst
    split at hst <;> cases hst
    case _ hpc => exact .inr (.inr (.inl ⟨rfl, hpc, rfl⟩))
  | enter =>
    simp only [WorkerRun.step] at hst
    split at hst <;> cases hst
    case _ m hpc => exact .inr (.inr (.inr (.inl ⟨m, rfl, hpc, rfl⟩)))
  | resume ret =>
    simp only [WorkerRun.step] at hst
    split at hst <;> cases hst
    case _ m hpc => exact .inr (.inr (.inr (.inr ⟨m, ret, rfl, hpc, rfl⟩)))

theorem signalledEvents_signal_subset (t : Thread) (e : EventMask) :
    (t.signal e).signalledEvents ⊆ t.signalledEvents ||| e := by
  unfold Thread.signal
  split_ifs
  · exact subset_refl _
  · exact subset_or_left _ _

theorem Recent.signal (h : Recent s) (e : EventMask) :
    Recent ⟨s.thread.signal e, s.pc, s.recent ||| e⟩ := by
  unfold Recent at h ⊢
  cases hpc : s.pc with
  | dispatching evt =>
    simp only [hpc] at h ⊢
    exact subset_trans h (subset_or_left _ _)
  | blocked m =>
    simp only [hpc] at h ⊢
    exact subset_trans (signalledEvents_signal_subset _ _) (or_subset_or h e)
  | deciding => trivial
  | entering m => trivial

/-- A fast return hands out the request, a block keeps what is pending. -/
theorem recent_enter (m : EventMask) (hpc : s.pc = .entering m) (hf : Fresh s .enter) :
    Recent (s.afterWait m (s.thread.waitAny m)) := by
  simp only [Fresh, hpc] at hf
  rw [Thread.waitAny_eq]
  split_ifs at hf ⊢
  · exact hf
  · exact hf

/-- A resumption hands out what is pending. -/
theorem recent_resume (h : Recent s) (m : EventMask) (hpc : s.pc = .blocked m) (ret : CondRet) :
    Recent (s.afterWait m (s.thread.waitAnyResume m ret)) := by
  simp only [Recent, hpc] at h
  cases ret with
  | timedOut => exact h
  | woken =>
    rw [Thread.waitAnyResume_woken]
    split_ifs
    · exact h
    · exact h

theorem Recent.step (h : Recent s) {a : RunAct} (hf : Fresh s a) (hst : s.step a = some t) :
    Recent t := by
  obtain ⟨e, rfl, rfl⟩ | ⟨_, rfl, -, rfl⟩ | ⟨rfl, -, rfl⟩ | ⟨m, rfl, hpc, rfl⟩
    | ⟨m, ret, rfl, hpc, rfl⟩ := step_cases hst
  · exact h.signal e
  · trivial
  · trivial
  · exact recent_enter m hpc hf
  · exact recent_resume h m hpc ret

theorem Recent.passOk (h : Recent s) {objs : List EventWorkerObject}
    (hobjs : ∀ o ∈ objs, o.evtMask ≠ 0) (a : RunAct) : PassOk objs s a := by
  cases a with
  | dispatch =>
    cases hpc : s.pc with
    | dispatching evt =>
      simp only [Recent, hpc] at h
      simp only [PassOk, hpc]
      exact fun o ho hrun => o.entitled_of_run (hobjs o ho) hrun h
    | deciding => simp only [PassOk, hpc]
    | entering m => simp only [PassOk, hpc]
    | blocked m => simp only [PassOk, hpc]
  | signal e => trivial
  | decide => trivial
  | enter => trivial
  | resume ret => trivial

/-! ## The condition is exact -/

/-- The pass that is about to begin calls an object for an event that is not recent. -/
theorem not_passOk_dispatch {evt : EventMask} {i : ℕ} (hpc : s.pc = .dispatching evt) (hi : i ∈ evt)
    (hrec : i ∉ s.recent) : ¬ PassOk [.single i] s .dispatch := by
  simp only [PassOk, hpc, List.mem_singleton, forall_eq]
  exact fun h => EventWorkerObject.not_entitled_single (lt_of_mem hi) hrec
    (h (EventWorkerObject.run_single hi))

/-- **Entered with something stale in play, `wait_any` may lead to a pass on it** — at once through
the fast path, or through a timeout. -/
theorem exists_pass_of_not_fresh {a : RunAct} (hf : ¬ Fresh s a) :
    ∃ acts t i, machine.run s (a :: acts) = some t ∧ i < 32 ∧ ¬ PassOk [.single i] t .dispatch := by
  cases a with
  | enter =>
    cases hpc : s.pc with
    | entering m =>
      simp only [Fresh, hpc] at hf
      have hst : s.step .enter = some (s.afterWait m (s.thread.waitAny m)) := by
        simp only [WorkerRun.step, hpc]
      rw [Thread.waitAny_eq] at hst
      split_ifs at hf hst with hmeet
      · obtain ⟨i, hi⟩ := not_forall.mp hf
        obtain ⟨him, hrec⟩ := Classical.not_imp.mp hi
        exact ⟨[], _, i, Machine.run_singleton hst, lt_of_mem him, not_passOk_dispatch rfl him hrec⟩
      · obtain ⟨i, hi⟩ := not_forall.mp hf
        obtain ⟨his, hrec⟩ := Classical.not_imp.mp hi
        exact ⟨[.resume .timedOut],
          ⟨s.thread.clear, .dispatching s.thread.signalledEvents, s.recent⟩, i,
          Machine.run_trans (Machine.run_singleton hst) rfl, lt_of_mem his,
          not_passOk_dispatch rfl his hrec⟩
    | dispatching evt => exact absurd (by simp only [Fresh, hpc]) hf
    | deciding => exact absurd (by simp only [Fresh, hpc]) hf
    | blocked m => exact absurd (by simp only [Fresh, hpc]) hf
  | signal e => exact absurd trivial hf
  | dispatch => exact absurd trivial hf
  | decide => exact absurd trivial hf
  | resume ret => exact absurd trivial hf

/-- **Along a run that enters `wait_any` with nothing stale in play, every pass dispatches only what
was signalled since the previous one began; and from each step of a run that enters it otherwise,
it can go on to a pass that dispatches something else.** -/
theorem along_passOk (t : Thread) (acts : List RunAct) :
    (machine.Along Fresh (start t) acts → ∀ objs : List EventWorkerObject,
      (∀ o ∈ objs, o.evtMask ≠ 0) → machine.Along (PassOk objs) (start t) acts) ∧
    ∀ bs a cs s, acts = bs ++ a :: cs → machine.run (start t) bs = some s → ¬ Fresh s a →
      ∃ (ext : List RunAct) (o : EventWorkerObject),
        o.evtMask ≠ 0 ∧ ¬ machine.Along (PassOk [o]) s (a :: ext) := by
  constructor
  · intro h objs hobjs
    exact Machine.along_of_along (J := Recent) (zero_subset _)
      (fun s a hr _ => hr.passOk hobjs a) (fun _ _ _ hr hf hst => hr.step hf hst) h
  · rintro bs a cs s - - hf
    obtain ⟨ext, u, i, hext, hi, hu⟩ := exists_pass_of_not_fresh hf
    refine ⟨ext ++ [.dispatch], .single i, twoPow_ne_zero hi, ?_⟩
    exact Machine.not_along_iff.mpr ⟨a :: ext, .dispatch, [], u, rfl, hext, hu⟩

instance (s : WorkerRun) (a : RunAct) : Decidable (Fresh s a) := by
  unfold Fresh
  split
  · split <;> infer_instance
  · infer_instance

/-- An event that arrives while the worker is blocked is dispatched by right. -/
theorem along_passOk_blocked : machine.Along (PassOk [⟨1, true⟩, ⟨2, false⟩]) (start ⟨3, 0⟩)
    [.dispatch, .decide, .enter, .signal 1, .resume .woken, .dispatch] :=
  (along_passOk ⟨3, 0⟩ _).1 (by decide) [⟨1, true⟩, ⟨2, false⟩] (by simp)

/-- **A pass dispatches an event nobody signalled**: event 0 arrives while `run` decides, the fast
path returns the whole request, and the object of event 1 is called. -/
theorem not_forall_along_passOk : ¬ ∀ (t : Thread) (objs : List EventWorkerObject)
    (acts : List RunAct), (∀ o ∈ objs, o.evtMask ≠ 0) →
      machine.Along (PassOk objs) (start t) acts := by
  intro h
  have hrun := h ⟨3, 0⟩ [⟨2, true⟩] [.dispatch, .signal 1, .decide, .enter, .dispatch] (by simp)
  revert hrun
  decide

end WorkerRun

end LibDronecan
