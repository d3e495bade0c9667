import LibDronecan.Pal.WorkerEvents

/-!
# Pal/EventSets — when an all-of `EventWorkerObject` is called

    signal 1 ──▸ return ──▸ pass on 1          signal 1, signal 2 ──▸ return ──▸ pass on 1 and 2
    signal 2 ──▸ return ──▸ pass on 2          the object of both is called
    the object of both is not called

A pass shows an object the events of one return of `wait_any`, and neither the object nor `run`
remembers those of the passes before.  So the events of a mask are counted from one return to the
next: an all-of object is called when all of them were signalled in between, and, unless the fast
path returned what it was asked for, only then (`along_gathers`).
-/

open Machinery Machinery.Mask

namespace LibDronecan

/-- An all-of object is called on its whole mask. -/
theorem EventWorkerObject.run_iff_subset {o : EventWorkerObject} (hall : o.triggerAny = false)
    (evt : EventMask) : o.run evt = true ↔ o.evtMask ⊆ evt := by
  rw [← and_eq_right_iff, BitVec.and_comm, EventWorkerObject.run]
  split_ifs with hmask hany
  · exact ⟨fun _ => hmask, fun _ => rfl⟩
  · exact absurd hany.2 (by simp [hall])
  · exact ⟨False.elim, fun h => absurd h hmask⟩

/-- A registered event is pending once it is signalled. -/
theorem Thread.mem_signal {t : Thread} {i : ℕ} (hi : i ∈ t.registeredEvents) (e : EventMask) :
    i ∈ (t.signal e).signalledEvents ↔ i ∈ t.signalledEvents ∨ i ∈ e := by
  unfold Thread.signal
  split_ifs with hmeet
  · exact mem_or
  · rw [not_not] at hmeet
    exact ⟨Or.inl, fun h => h.resolve_right fun hie => and_eq_zero_iff.mp hmeet i hie hi⟩

/-- A signal or a step of `run`, or another thread that registers an event. -/
inductive SetAct where
  | run (a : RunAct)
  | registerEvt

/-- A worker, and what was signalled: since the object was last called, since `wait_any` last
returned, and between its last two returns; and whether the last was by the fast path. -/
structure SetRun where
  run : WorkerRun
  seen : EventMask
  since : EventMask
  gathered : EventMask
  fast : Bool

namespace SetRun

/-- From some point of `run` on.  What is pending there counts as signalled since, and what its next
pass is on as gathered. -/
def start (r : WorkerRun) : SetRun :=
  ⟨r, r.thread.signalledEvents, r.thread.signalledEvents, r.pc.handed, false⟩

/-- After a piece of `wait_any` that led to `r`. -/
def waited (s : SetRun) (r : WorkerRun) (fast : Bool) : SetRun :=
  match r.pc with
  | .dispatching _ => { s with run := r, since := 0, gathered := s.since, fast }
  | _ => { s with run := r }

/-- After a step that led to `r`. -/
def note (o : EventWorkerObject) (s : SetRun) (r : WorkerRun) : RunAct → SetRun
  | .signal e => { s with run := r, seen := s.seen ||| e, since := s.since ||| e }
  | .dispatch => { s with run := r, seen := if o.run s.run.pc.handed then 0 else s.seen }
  | .decide => { s with run := r }
  | .enter => s.waited r true
  | .resume _ => s.waited r false

def step (o : EventWorkerObject) (s : SetRun) : SetAct → Option SetRun
  | .run a => (s.run.step a).map fun r => s.note o r a
  | .registerEvt => some { s with run := { s.run with thread := s.run.thread.registerEvt.2 } }

/-- `run`, with signals and registrations at any point. -/
def machine (o : EventWorkerObject) : Machine SetRun SetAct := ⟨step o⟩

/-- A pass calls the object exactly when its mask was signalled since it was last called. -/
def Completes (o : EventWorkerObject) (s : SetRun) : SetAct → Prop
  | .run .dispatch =>
      match s.run.pc with
      | .dispatching evt => o.run evt = true ↔ o.evtMask ⊆ s.seen
      | _ => True
  | _ => True

/-- **A pass calls the object when its mask was signalled between the last two returns of
`wait_any`**, and only then if the last was not by the fast path. -/
def Gathers (o : EventWorkerObject) (s : SetRun) : SetAct → Prop
  | .run .dispatch =>
      match s.run.pc with
      | .dispatching evt =>
          (o.evtMask ⊆ s.gathered → o.run evt = true) ∧
            (s.fast = false → o.run evt = true → o.evtMask ⊆ s.gathered)
      | _ => True
  | _ => True

/-- The events of the object are registered, and are so for the `wait_any` about to be entered. -/
def Asked (o : EventWorkerObject) (r : WorkerRun) : Prop :=
  o.evtMask ⊆ r.thread.registeredEvents ∧
    match r.pc with
    | .entering m => o.evtMask ⊆ m
    | _ => True

instance (o : EventWorkerObject) (s : SetRun) (a : SetAct) : Decidable (Completes o s a) := by
  unfold Completes
  split
  · split <;> infer_instance
  · infer_instance

/-! ## The invariant -/

/-- What the mask of the coming pass, or the one to be asked for, has of the object's. -/
def PcOk (o : EventWorkerObject) (s : SetRun) : Prop :=
  match s.run.pc with
  | .dispatching evt =>
      (o.evtMask ⊆ s.gathered → o.evtMask ⊆ evt) ∧
        (s.fast = false → o.evtMask ⊆ evt → o.evtMask ⊆ s.gathered)
  | .entering m => o.evtMask ⊆ m
  | _ => True

/-- **The invariant**: the events of the object are registered, and those of them that are pending
were signalled since `wait_any` last returned. -/
structure Tracked (o : EventWorkerObject) (s : SetRun) : Prop where
  registered : o.evtMask ⊆ s.run.thread.registeredEvents
  pending : ∀ i ∈ o.evtMask, i ∈ s.run.thread.signalledEvents ↔ i ∈ s.since
  pcOk : PcOk o s

variable {o : EventWorkerObject} {s t : SetRun} {m : EventMask}

theorem tracked_start {r : WorkerRun} (hasked : Asked o r) : Tracked o (start r) := by
  obtain ⟨thread, pc, recent⟩ := r
  refine ⟨hasked.1, fun _ _ => Iff.rfl, ?_⟩
  cases pc with
  | dispatching evt => exact ⟨id, fun _ => id⟩
  | entering m => exact hasked.2
  | deciding => trivial
  | blocked m => trivial

theorem Tracked.signal (h : Tracked o s) (e : EventMask) :
    Tracked o (s.note o ⟨s.run.thread.signal e, s.run.pc, s.run.recent ||| e⟩ (.signal e)) := by
  refine ⟨?_, fun i hi => ?_, h.pcOk⟩
  · exact (s.run.thread.registeredEvents_signal e).symm ▸ h.registered
  · exact (Thread.mem_signal (h.registered i hi) e).trans ((or_congr_left (h.pending i hi)).trans
      mem_or.symm)

theorem Tracked.registerEvt (h : Tracked o s) :
    Tracked o { s with run := { s.run with thread := s.run.thread.registerEvt.2 } } := by
  refine ⟨subset_trans h.registered s.run.thread.subset_registerEvt, fun i hi => ?_, h.pcOk⟩
  change i ∈ s.run.thread.registerEvt.2.signalledEvents ↔ i ∈ s.since
  rw [s.run.thread.signalledEvents_registerEvt]
  exact h.pending i hi

/-- The fast path hands out the request, and takes it out of what is pending. -/
theorem Tracked.waited_fast (h : Tracked o s) (hm : o.evtMask ⊆ m) (recent : EventMask) :
    Tracked o (s.waited
      ⟨{ s.run.thread with signalledEvents := s.run.thread.signalledEvents &&& ~~~m },
        .dispatching m, recent⟩ true) := by
  refine ⟨h.registered, fun i hi => ?_, fun _ => hm, fun hfast => nomatch hfast⟩
  exact ⟨fun hin => absurd (hm i hi) (mem_and_not.mp hin).2, fun hin => absurd hin notMem_zero⟩

/-- The slow paths hand out what is pending. -/
theorem Tracked.waited_slow (h : Tracked o s) (recent : EventMask) :
    Tracked o (s.waited ⟨s.run.thread.clear, .dispatching s.run.thread.signalledEvents, recent⟩
      false) := by
  refine ⟨h.registered, fun i _ => ⟨fun hin => absurd hin notMem_zero,
    fun hin => absurd hin notMem_zero⟩, fun hsub i hi => ?_, fun _ hsub i hi => ?_⟩
  · exact (h.pending i hi).mpr (hsub i hi)
  · exact (h.pending i hi).mp (hsub i hi)

/-- A block changes nothing. -/
theorem Tracked.waited_blocked (h : Tracked o s) (m recent : EventMask) (fast : Bool) :
    Tracked o (s.waited ⟨s.run.thread, .blocked m, recent⟩ fast) :=
  ⟨h.registered, h.pending, trivial⟩

theorem Tracked.step (h : Tracked o s) {a : SetAct} (hst : (machine o).step s a = some t) :
    Tracked o t := by
  cases a with
  | registerEvt =>
    obtain rfl := Option.some.inj hst
    exact h.registerEvt
  | run a =>
    obtain ⟨r, hr, rfl⟩ := Option.map_eq_some_iff.mp hst
    obtain ⟨e, rfl, rfl⟩ | ⟨evt, rfl, -, rfl⟩ | ⟨rfl, -, rfl⟩ | ⟨m, rfl, hpc, rfl⟩
      | ⟨m, ret, rfl, -, rfl⟩ := WorkerRun.step_cases hr
    · exact h.signal e
    · exact ⟨h.registered, h.pending, trivial⟩
    · exact ⟨h.registered, h.pending, h.registered⟩
    · have hm : o.evtMask ⊆ m := by
        have hpcOk := h.pcOk
        simpa only [PcOk, hpc] using hpcOk
      simp only [note, Thread.waitAny_eq]
      split_ifs
      · exact h.waited_fast hm _
      · exact h.waited_blocked m _ true
    · simp only [note]
      cases ret with
      | timedOut => exact h.waited_slow _
      | woken =>
        rw [Thread.waitAnyResume_woken]
        split_ifs
        · exact h.waited_slow _
        · exact h.waited_blocked m _ false

theorem Tracked.gathers (h : Tracked o s) (hall : o.triggerAny = false) (a : SetAct) :
    Gathers o s a := by
  have hpcOk := h.pcOk
  unfold Gathers
  split
  · split
    · case _ evt hpc =>
      simp only [PcOk, hpc] at hpcOk
      rwa [o.run_iff_subset hall]
    · trivial
  · trivial

/-- **Once its events are registered, an all-of object is called in a pass when all of them were
signalled between the last two returns of `wait_any`, and, if the last one waited, only then**, over
every run. -/
theorem along_gathers {r : WorkerRun} (hall : o.triggerAny = false) (hasked : Asked o r)
    (acts : List SetAct) : (machine o).Along (Gathers o) (start r) acts :=
  Machine.along_of_step (tracked_start hasked) (fun _ a h => h.gathers hall a)
    (fun _ _ _ h hst => h.step hst) acts

/-- A worker that was blocked when the two events were registered, and another event registered
later. -/
theorem along_gathers_both :
    (machine ⟨3, false⟩).Along (Gathers ⟨3, false⟩) (start ⟨⟨3, 0⟩, .blocked 0, 0⟩)
      [.run (.signal 1), .run (.resume .timedOut), .run .dispatch, .run .decide, .run .enter,
        .registerEvt, .run (.signal 1), .run (.signal 2), .run (.resume .woken),
        .run .dispatch] :=
  along_gathers (o := ⟨3, false⟩) (r := ⟨⟨3, 0⟩, .blocked 0, 0⟩) rfl ⟨by decide, trivial⟩ _

/-- **Events that arrive in different wake-ups never meet**: with both signalled, and each shown to
a pass, the object of both is not called. -/
theorem not_forall_along_completes : ¬ ∀ (t : Thread) (o : EventWorkerObject)
    (acts : List SetAct), o.triggerAny = false → o.evtMask ≠ 0 →
      o.evtMask ⊆ t.registeredEvents →
      (machine o).Along (Completes o) (start (.start t)) acts := by
  intro h
  have hrun := h ⟨3, 0⟩ ⟨3, false⟩ [.run .dispatch, .run .decide, .run .enter, .run (.signal 1),
    .run (.resume .woken), .run .dispatch, .run .decide, .run .enter, .run (.signal 2),
    .run (.resume .woken), .run .dispatch] rfl (by decide) (by decide)
  revert hrun
  decide

end SetRun

end LibDronecan
