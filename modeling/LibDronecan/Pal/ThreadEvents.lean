import LibDronecan.Machinery.Run
import LibDronecan.Pal.Thread

/-!
# Pal/ThreadEvents — which waits lose events

    signal ⊆ registered ──▸ signalledEvents ──▸ reported to the owner, or cleared unseen

A `Thread` and its owner, with other threads signalling in between.  `owed` is what the owner has a
right to hear of: the bits signalled and not reported since.  Every wait keeps `owed` equal to
`signalledEvents` but two: a `wait_all` that times out clears what is pending without reporting it,
and one that is woken clears more than it was asked for — its fast path clears `evt_mask` only, and
`wait_any` hands out what it clears.  `always_noLoss_iff`: events are lost by exactly these.
-/

open Machinery Machinery.Mask

namespace LibDronecan

/-- Where the owning thread is: outside the wait calls, or blocked in one. -/
inductive Owner where
  | running
  | inWaitAny (evtMask : EventMask)
  | inWaitAll (evtMask : EventMask)

/-- A call, or the return of the condition wait the owner is blocked in. -/
inductive EventAct where
  | signal (events : EventMask)
  | waitAny (evtMask : EventMask)
  | waitAll (evtMask : EventMask)
  | wait
  | resume (ret : CondRet)

/-- A thread's events, its owner, and the bits signalled and not reported since. -/
structure EventRun where
  thread : Thread
  owner : Owner
  owed : EventMask

namespace EventRun

/-- The owner runs, and is owed what is pending. -/
def start (t : Thread) : EventRun := ⟨t, .running, t.signalledEvents⟩

/-- The owner after a piece of a `wait_any`: what the output mask names is reported. -/
def afterAny (s : EventRun) (m : EventMask) (r : Thread × Option (Bool × EventMask)) : EventRun :=
  match r with
  | (t, none) => ⟨t, .inWaitAny m, s.owed⟩
  | (t, some (_, out)) => ⟨t, .running, s.owed &&& ~~~out⟩

/-- The owner after a piece of a `wait_all`: `true` reports the mask it asked for. -/
def afterAll (s : EventRun) (m : EventMask) (r : Thread × Option Bool) : EventRun :=
  match r with
  | (t, none) => ⟨t, .inWaitAll m, s.owed⟩
  | (t, some true) => ⟨t, .running, s.owed &&& ~~~m⟩
  | (t, some false) => ⟨t, .running, s.owed⟩

/-- One action.  Other threads signal registered events; `wait` is `wait_all(0, ·)`. -/
def step (s : EventRun) : EventAct → Option EventRun
  | .signal e =>
      if e ⊆ s.thread.registeredEvents then
        some ⟨s.thread.signal e, s.owner, s.owed ||| e⟩
      else none
  | .waitAny m =>
      match s.owner with
      | .running => some (s.afterAny m (s.thread.waitAny m))
      | _ => none
  | .waitAll m =>
      match s.owner with
      | .running => some (s.afterAll m (s.thread.waitAll m))
      | _ => none
  | .wait =>
      match s.owner with
      | .running => some (s.afterAll 0 (s.thread.waitAll 0))
      | _ => none
  | .resume ret =>
      match s.owner with
      | .running => none
      | .inWaitAny m => some (s.afterAny m (s.thread.waitAnyResume m ret))
      | .inWaitAll m => some (s.afterAll m (s.thread.waitAllResume m ret))

/-- Signals and waits, in any order. -/
def machine : Machine EventRun EventAct := ⟨step⟩

/-- **No event is lost**: what is owed is still pending. -/
def NoLoss (s : EventRun) : Prop := s.owed ⊆ s.thread.signalledEvents

/-- **The two resumptions of `wait_all` that may lose events do not**: a timeout finds nothing
pending, and a wake-up that returns finds nothing pending but what was asked for. -/
def Keeps (s : EventRun) : EventAct → Prop
  | .resume ret =>
      match s.owner with
      | .inWaitAll m =>
          match ret with
          | .timedOut => s.thread.signalledEvents = 0
          | .woken => m ≠ 0 → m ⊆ s.thread.signalledEvents → s.thread.signalledEvents ⊆ m
      | _ => True
  | _ => True

instance (s : EventRun) : Decidable (NoLoss s) :=
  inferInstanceAs (Decidable (s.owed ⊆ s.thread.signalledEvents))

/-- **Nothing more and nothing less is owed than what is pending.** -/
def Settled (s : EventRun) : Prop := s.owed = s.thread.signalledEvents

variable {s t : EventRun}

theorem settled_start (t : Thread) : Settled (start t) := rfl

theorem Settled.noLoss (h : Settled s) : NoLoss s := by
  rw [NoLoss, h]

/-- A piece of a `wait_any` that clears what it reports, or nothing, settles. -/
theorem settled_afterAny_waitAny (h : Settled s) (m : EventMask) :
    Settled (s.afterAny m (s.thread.waitAny m)) := by
  rw [Thread.waitAny_eq]
  split_ifs
  · exact congrArg (· &&& ~~~m) h
  · exact h

theorem settled_afterAny_resume (h : Settled s) (m : EventMask) (ret : CondRet) :
    Settled (s.afterAny m (s.thread.waitAnyResume m ret)) := by
  have hclear (b : Bool) :
      Settled (s.afterAny m (s.thread.clear, some (b, s.thread.signalledEvents))) := by
    change s.owed &&& ~~~s.thread.signalledEvents = 0
    rw [and_not_eq_zero_iff, h]
  cases ret with
  | timedOut => exact hclear false
  | woken =>
    rw [Thread.waitAnyResume_woken]
    split_ifs
    · exact hclear true
    · exact h

theorem settled_afterAll_waitAll (h : Settled s) (m : EventMask) :
    Settled (s.afterAll m (s.thread.waitAll m)) := by
  rw [Thread.waitAll_eq]
  split_ifs
  · exact congrArg (· &&& ~~~m) h
  · exact h

/-- **A resumed `wait_all` loses nothing exactly when it meets the condition.** -/
theorem noLoss_afterAll_resume_iff (h : Settled s) (m : EventMask) (hs : s.owner = .inWaitAll m)
    (ret : CondRet) :
    NoLoss (s.afterAll m (s.thread.waitAllResume m ret)) ↔ Keeps s (.resume ret) := by
  cases ret with
  | timedOut =>
    simp only [Keeps, hs, Thread.waitAllResume_timedOut]
    change s.owed ⊆ 0 ↔ _
    rw [subset_zero_iff, h]
  | woken =>
    simp only [Keeps, hs, Thread.waitAllResume_woken, and_eq_right_iff]
    split_ifs with hret
    · change s.owed &&& ~~~m ⊆ 0 ↔ _
      rw [subset_zero_iff, and_not_eq_zero_iff, h]
      exact ⟨fun hsub _ _ => hsub, fun hsub => hsub hret.2 hret.1⟩
    · exact ⟨fun _ h0 hsub => absurd ⟨hsub, h0⟩ hret, fun _ => h.noLoss⟩

/-- …and what it leaves pending is owed. -/
theorem signalledEvents_afterAll_resume (h : Settled s) (m : EventMask) (ret : CondRet) :
    (s.afterAll m (s.thread.waitAllResume m ret)).thread.signalledEvents
      ⊆ (s.afterAll m (s.thread.waitAllResume m ret)).owed := by
  cases ret with
  | timedOut => exact zero_subset _
  | woken =>
    rw [Thread.waitAllResume_woken]
    split_ifs
    · exact zero_subset _
    · exact (Eq.symm h : s.thread.signalledEvents = s.owed) ▸ subset_refl _

/-- Every action that meets the condition settles. -/
theorem Settled.step (h : Settled s) {a : EventAct} (hk : Keeps s a) (hst : s.step a = some t) :
    Settled t := by
  cases a with
  | signal e =>
    simp only [EventRun.step] at hst
    split_ifs at hst with he
    obtain rfl := Option.some.inj hst
    change s.owed ||| e = (s.thread.signal e).signalledEvents
    rw [Thread.signal_of_subset he, h]
  | waitAny m =>
    simp only [EventRun.step] at hst
    split at hst <;> cases hst
    exact settled_afterAny_waitAny h m
  | waitAll m =>
    simp only [EventRun.step] at hst
    split at hst <;> cases hst
    exact settled_afterAll_waitAll h m
  | wait =>
    simp only [EventRun.step] at hst
    split at hst <;> cases hst
    exact settled_afterAll_waitAll h 0
  | resume ret =>
    simp only [EventRun.step] at hst
    split at hst <;> cases hst
    case _ m _ => exact settled_afterAny_resume h m ret
    case _ m hs =>
      exact subset_antisymm ((noLoss_afterAll_resume_iff h m hs ret).mpr hk)
        (signalledEvents_afterAll_resume h m ret)

/-- Breaking the condition loses an event at once. -/
theorem Settled.exists_loss (h : Settled s) {a : EventAct} (hk : ¬ Keeps s a) :
    ∃ t, s.step a = some t ∧ ¬ NoLoss t := by
  cases a with
  | resume ret =>
    cases hs : s.owner with
    | inWaitAll m =>
      exact ⟨s.afterAll m (s.thread.waitAllResume m ret), by simp only [EventRun.step, hs],
        fun hn => hk ((noLoss_afterAll_resume_iff h m hs ret).mp hn)⟩
    | running => exact absurd (by simp only [Keeps, hs]) hk
    | inWaitAny m => exact absurd (by simp only [Keeps, hs]) hk
  | signal e => exact absurd trivial hk
  | waitAny m => exact absurd trivial hk
  | waitAll m => exact absurd trivial hk
  | wait => exact absurd trivial hk

/-- **A run loses no event exactly when every `wait_all` that times out finds nothing pending, and
every `wait_all` that is woken to return finds nothing pending outside its mask.** -/
theorem always_noLoss_iff (t : Thread) (acts : List EventAct) :
    machine.Always NoLoss (start t) acts ↔ machine.Along Keeps (start t) acts :=
  Machine.always_iff_along (settled_start t) (fun _ h => h.noLoss)
    (fun _ _ _ h hk hst => h.step hk hst) fun _ _ h hk => h.exists_loss hk

/-- **A plain sleep discards a pending event.** -/
theorem not_forall_always_noLoss :
    ¬ ∀ (t : Thread) (acts : List EventAct), machine.Always NoLoss (start t) acts := by
  intro h
  have hrun := h ⟨1, 0⟩ [.signal 1, .wait, .resume .timedOut]
  revert hrun
  decide

end EventRun

end LibDronecan
