import LibDronecan.Machinery.Run
import LibDronecan.Pal.Thread
import LibDronecan.Pal.WorkerList

/-!
# Pal/WorkerWait — what a blocked worker waits for

    dispatching k ──▸ triggering ──▸ clock next ──▸ masking next curr ──▸ entering m next curr
      │     ▲  ▲                                                                  │         │
      ▼     │  └────────────────────────── fast path ─────────────────────────────┘         ▼
    calling k                                   ▲───────── resume ────────── blocked m deadline

`Worker::run` with the clock, the periodic objects, and other threads that register events and
objects.  The earliest trigger time, the clock and the registered events are read one after the
other, without a lock from the first to the return of `wait_any`, and a registration wakes nobody:
what is registered in between the worker does not wait for.  `run` also asks for the longest
timeout there is when a trigger time has already passed.  `always_blockedOk`: apart from these the
worker waits on what is registered.
-/

open Machinery Machinery.Mask

namespace LibDronecan

/-- The end of a wait of `timeout_us` that starts at `now` nanoseconds.  The product is a
`uint32_t`. -/
def waitDeadline (now : ℕ) (timeoutUs : BitVec 32) : ℕ := now + (timeoutUs * 1000).toNat

/-- The time side of a `PeriodicWorkerObject`. -/
structure PeriodicWorkerObject where
  periodUs : ℕ
  nextTriggerUs : ℕ

/-- `next_trigger_time_us = period_us + micros64()`. -/
def PeriodicWorkerObject.rearm (micros64 : ℕ) (o : PeriodicWorkerObject) : PeriodicWorkerObject :=
  { o with nextTriggerUs := o.periodUs + micros64 }

/-- Where the worker thread is in `run`. -/
inductive WaitPc
  | dispatching (k : ℕ)
  | calling (k : ℕ)
  | triggering
  | clock (next : ℕ)
  | masking (next curr : ℕ)
  | entering (evtMsk : EventMask) (next curr : ℕ)
  | blocked (evtMsk : EventMask) (deadline : ℕ)

/-- Time passes, another thread calls, or the worker goes on. -/
inductive WaitAct
  | tick (ns : ℕ)
  | signal (events : EventMask)
  | registerEvt
  | registerWorker (periodUs : ℕ)
  | run
  | resume (ret : CondRet)

/-- The time in nanoseconds, the worker's thread, its periodic objects in the order of its list, and
where it is. -/
structure WorkerWait where
  now : ℕ
  thread : Thread
  objs : List PeriodicWorkerObject
  pc : WaitPc

namespace WorkerWait

/-- What `get_next_trigger_us` returns for a list of periodic objects. -/
def getNextTriggerUs (objs : List PeriodicWorkerObject) : ℕ :=
  (objs.map (·.nextTriggerUs)).foldl WorkerList.earlier 0

/-- `micros64()`. -/
def micros64 (s : WorkerWait) : ℕ := s.now / 1000

/-- `run` begins with a pass, on whatever was registered before. -/
def start (t : Thread) (objs : List PeriodicWorkerObject) (now : ℕ) : WorkerWait :=
  ⟨now, t, objs, .dispatching 0⟩

/-- The loop after a piece of `wait_any`. -/
def afterWait (s : WorkerWait) (m : EventMask) (deadline : ℕ)
    (r : Thread × Option (Bool × EventMask)) : WorkerWait :=
  match r with
  | (t, none) => { s with thread := t, pc := .blocked m deadline }
  | (t, some _) => { s with thread := t, pc := .dispatching 0 }

/-- A step of `run`. -/
def runStep (s : WorkerWait) : Option WorkerWait :=
  match s.pc with
  | .dispatching k =>
      match s.objs[k]? with
      | none => some { s with pc := .triggering }
      | some o =>
          if s.micros64 ≥ o.nextTriggerUs then some { s with pc := .calling k }
          else some { s with pc := .dispatching (k + 1) }
  | .calling k =>
      -- the object's function has returned
      some { s with objs := s.objs.modify k (·.rearm s.micros64), pc := .dispatching (k + 1) }
  | .triggering => some { s with pc := .clock (getNextTriggerUs s.objs) }
  | .clock next => some { s with pc := .masking next s.micros64 }
  | .masking next curr => some { s with pc := .entering s.thread.registeredEvents next curr }
  | .entering m next curr =>
      let timeoutUs := if next < curr then -1 else BitVec.ofNat 32 (next - curr)
      some (s.afterWait m (waitDeadline s.now timeoutUs) (s.thread.waitAny m))
  | .blocked _ _ => none

def step (s : WorkerWait) : WaitAct → Option WorkerWait
  | .tick ns => some { s with now := s.now + ns }
  | .signal e => some { s with thread := s.thread.signal e }
  | .registerEvt => some { s with thread := s.thread.registerEvt.2 }
  | .registerWorker period =>
      match s.pc with
      -- a pass holds the worker's semaphore
      | .dispatching _ => none
      | .calling _ => none
      | _ => some { s with objs := s.objs ++ [⟨period, period + s.micros64⟩] }
  | .run => s.runStep
  | .resume ret =>
      match s.pc with
      | .blocked m deadline =>
          if ret = .timedOut ∧ s.now < deadline then none
          else some (s.afterWait m deadline (s.thread.waitAnyResume m ret))
      | _ => none

/-- `run`, with time passing and the calls of other threads at any point. -/
def machine : Machine WorkerWait WaitAct := ⟨step⟩

/-- **A blocked worker waits on what is registered**: its mask has every event registered, and its
timeout ends no later than the trigger time of any object. -/
def BlockedOk (s : WorkerWait) : Prop :=
  match s.pc with
  | .blocked m deadline =>
      s.thread.registeredEvents ⊆ m ∧ ∀ o ∈ s.objs, deadline / 1000 ≤ o.nextTriggerUs
  | _ => True

/-- An event is pending that `wait_any` is going to be asked for: it will not block. -/
def Due (s : WorkerWait) : Prop :=
  match s.pc with
  | .clock _ | .masking _ _ => s.thread.signalledEvents &&& s.thread.registeredEvents ≠ 0
  | .entering m _ _ => s.thread.signalledEvents &&& m ≠ 0
  | _ => False

/-- **The steps a worker keeps up with.**  An event is registered only before `run` reads the
registered ones, an object before `run` looks for the earliest trigger time or with a later one;
no trigger time has passed when `run` reads the clock, and `wait_any` is entered in that
microsecond. -/
def Prompt (s : WorkerWait) : WaitAct → Prop
  | .registerEvt =>
      match s.pc with
      | .entering _ _ _ | .blocked _ _ => s.Due ∨ s.thread.registeredEvents = 0xFFFFFFFF
      | _ => True
  | .registerWorker period =>
      match s.pc with
      | .clock next | .masking next _ | .entering _ next _ =>
          s.Due ∨ 0 < next ∧ next ≤ period + s.micros64
      | .blocked _ deadline => deadline / 1000 ≤ period + s.micros64
      | _ => True
  | .run =>
      match s.pc with
      | .clock _ => s.Due ∨ ∀ o ∈ s.objs, 0 < o.nextTriggerUs ∧ s.micros64 ≤ o.nextTriggerUs
      | .entering _ _ curr => s.Due ∨ s.objs = [] ∨ s.micros64 = curr
      | _ => True
  | _ => True

instance (s : WorkerWait) : Decidable s.BlockedOk := by
  unfold BlockedOk
  split <;> infer_instance

instance (s : WorkerWait) : Decidable s.Due := by
  unfold Due
  split <;> infer_instance

instance (s : WorkerWait) (a : WaitAct) : Decidable (s.Prompt a) := by
  unfold Prompt
  split
  · split <;> infer_instance
  · split <;> infer_instance
  · split <;> infer_instance
  · infer_instance

/-! ## The objects of a list -/

section WorkerList

variable {ι κ : Type*} [DecidableEq ι] {w : WorkerList ι κ} {l : List ι} {obj : ι}

omit [DecidableEq ι] in
/-- The time side of an object, if it is periodic. -/
def periodic (w : WorkerList ι κ) (a : ι) : Option PeriodicWorkerObject :=
  (w.periodUs a).map fun period => ⟨period, w.nextTriggerUs a⟩

omit [DecidableEq ι] in
/-- **The worker's list is read as its periodic objects**: `get_next_trigger_us` returns what it
does for them. -/
theorem getNextTriggerUs_list (h : Chain w.next w.workerObjHead l) :
    w.getNextTriggerUs (l.length + 1) = some (getNextTriggerUs (l.filterMap (periodic w))) := by
  rw [w.getNextTriggerUs_eq h, getNextTriggerUs, List.map_filterMap]
  refine congrArg (fun f => some ((l.filterMap f).foldl WorkerList.earlier 0)) (funext fun a => ?_)
  simp only [periodic, Option.map_map, Function.comp_def]

/-- …and registering one puts it behind the others, a period from now. -/
theorem filterMap_periodic_registered {period us : ℕ} (hobj : obj ∉ l)
    (hperiod : w.periodUs obj = some period) (this : κ) :
    (l ++ [obj]).filterMap (periodic (w.setWorker obj (some this) us))
      = l.filterMap (periodic w) ++ [⟨period, period + us⟩] := by
  rw [List.filterMap_append]
  congr 1
  · refine List.filterMap_congr fun a ha => ?_
    have hne : a ≠ obj := fun hae => hobj (hae ▸ ha)
    simp only [periodic, WorkerList.setWorker, hperiod, Function.update_of_ne hne]
  · simp only [List.filterMap_cons, List.filterMap_nil, periodic, WorkerList.setWorker, hperiod,
      Option.map_some, Function.update_self]

end WorkerList

/-! ## The earliest trigger time -/

variable {objs : List PeriodicWorkerObject} {next curr : ℕ}

/-- What `get_next_trigger_us` found out about the objects; 0 is the answer for no objects, and not
to be told from a trigger time of 0. -/
structure Earliest (objs : List PeriodicWorkerObject) (next : ℕ) : Prop where
  of_nil : objs = [] → next = 0
  mem : objs ≠ [] → (∀ o ∈ objs, 0 < o.nextTriggerUs) → ∃ o ∈ objs, o.nextTriggerUs = next
  le : (∀ o ∈ objs, 0 < o.nextTriggerUs) → ∀ o ∈ objs, next ≤ o.nextTriggerUs

/-- Of positive times, the fold finds the earliest. -/
theorem foldl_earlier {l : List ℕ} {us : ℕ} (hus : 0 < us) (hl : ∀ x ∈ l, 0 < x) :
    l.foldl WorkerList.earlier us ∈ us :: l ∧
      ∀ x ∈ us :: l, l.foldl WorkerList.earlier us ≤ x := by
  induction l generalizing us with
  | nil => simp
  | cons y l ih =>
    have hearlier : WorkerList.earlier us y = min us y := by
      unfold WorkerList.earlier
      split_ifs <;> omega
    have hy : 0 < y := hl y List.mem_cons_self
    have hpos : 0 < min us y := by omega
    obtain ⟨hmem, hle⟩ := ih hpos fun x hx => hl x (List.mem_cons_of_mem y hx)
    rw [List.foldl_cons, hearlier]
    have hmin := hle _ List.mem_cons_self
    refine ⟨?_, fun x hx => ?_⟩
    · rcases List.mem_cons.mp hmem with heq | htail
      · rcases Nat.le_total us y with h | h
        · rw [heq, Nat.min_eq_left h]
          exact List.mem_cons_self
        · rw [heq, Nat.min_eq_right h]
          exact List.mem_cons_of_mem us List.mem_cons_self
      · exact List.mem_cons_of_mem us (List.mem_cons_of_mem y htail)
    · rcases List.mem_cons.mp hx with rfl | hx
      · omega
      · rcases List.mem_cons.mp hx with rfl | hx
        · omega
        · exact hle x (List.mem_cons_of_mem _ hx)

theorem earliest_getNextTriggerUs (objs : List PeriodicWorkerObject) :
    Earliest objs (getNextTriggerUs objs) := by
  cases objs with
  | nil => exact ⟨fun _ => rfl, fun h => absurd rfl h, fun _ _ h => absurd h List.not_mem_nil⟩
  | cons o objs =>
    have hfold : getNextTriggerUs (o :: objs)
        = (objs.map (·.nextTriggerUs)).foldl WorkerList.earlier o.nextTriggerUs := rfl
    have hleast (hpos : ∀ o' ∈ o :: objs, 0 < o'.nextTriggerUs) :=
      foldl_earlier (hpos o List.mem_cons_self) (l := objs.map (·.nextTriggerUs)) fun x hx => by
        obtain ⟨o', ho', rfl⟩ := List.mem_map.mp hx
        exact hpos o' (List.mem_cons_of_mem o ho')
    refine ⟨fun h => absurd h (List.cons_ne_nil o objs), fun _ hpos => ?_, fun hpos o' ho' => ?_⟩
    · have hmem : getNextTriggerUs (o :: objs) ∈ (o :: objs).map (·.nextTriggerUs) :=
        (hleast hpos).1
      exact List.mem_map.mp hmem
    · exact hfold ▸ (hleast hpos).2 _ (List.mem_map_of_mem ho')

/-- An object with a later trigger time changes nothing. -/
theorem Earliest.snoc (h : Earliest objs next) (hpos : 0 < next) {o : PeriodicWorkerObject}
    (ho : next ≤ o.nextTriggerUs) : Earliest (objs ++ [o]) next := by
  have hne : objs ≠ [] := fun hnil => absurd (h.of_nil hnil) hpos.ne'
  refine ⟨fun hnil => absurd hnil (by simp), fun _ hall => ?_, fun hall o' ho' => ?_⟩
  · obtain ⟨o', ho', heq⟩ := h.mem hne fun o' ho' => hall o' (List.mem_append_left [o] ho')
    exact ⟨o', List.mem_append_left [o] ho', heq⟩
  · rcases List.mem_append.mp ho' with hin | hin
    · exact h.le (fun o'' ho'' => hall o'' (List.mem_append_left [o] ho'')) o' hin
    · exact List.mem_singleton.mp hin ▸ ho

/-- A timeout that fits the objects: none of them triggers before `next`, which is not past. -/
structure Timely (objs : List PeriodicWorkerObject) (next curr : ℕ) : Prop where
  of_nil : objs = [] → next = 0
  curr_le : objs ≠ [] → curr ≤ next
  le : ∀ o ∈ objs, next ≤ o.nextTriggerUs

theorem Earliest.timely (h : Earliest objs next)
    (hcurr : ∀ o ∈ objs, 0 < o.nextTriggerUs ∧ curr ≤ o.nextTriggerUs) :
    Timely objs next curr := by
  have hpos : ∀ o ∈ objs, 0 < o.nextTriggerUs := fun o ho => (hcurr o ho).1
  refine ⟨h.of_nil, fun hne => ?_, h.le hpos⟩
  obtain ⟨o, ho, rfl⟩ := h.mem hne hpos
  exact (hcurr o ho).2

theorem Timely.snoc (h : Timely objs next curr) (hpos : 0 < next) {o : PeriodicWorkerObject}
    (ho : next ≤ o.nextTriggerUs) : Timely (objs ++ [o]) next curr := by
  have hne : objs ≠ [] := fun hnil => absurd (h.of_nil hnil) hpos.ne'
  refine ⟨fun hnil => absurd hnil (by simp), fun _ => h.curr_le hne, fun o' ho' => ?_⟩
  rcases List.mem_append.mp ho' with hin | hin
  · exact h.le o' hin
  · exact List.mem_singleton.mp hin ▸ ho

/-- **A wait entered in time ends in time.** -/
theorem Timely.deadline_le (h : Timely objs next curr) {now : ℕ}
    (hnow : objs = [] ∨ now / 1000 = curr) :
    ∀ o ∈ objs, waitDeadline now (if next < curr then -1 else BitVec.ofNat 32 (next - curr)) / 1000
      ≤ o.nextTriggerUs := by
  intro o ho
  have hne : objs ≠ [] := List.ne_nil_of_mem ho
  have hcurr := h.curr_le hne
  have hnow := hnow.resolve_left hne
  have hproduct : (BitVec.ofNat 32 (next - curr) * 1000).toNat ≤ (next - curr) * 1000 := by
    rw [BitVec.toNat_mul, BitVec.toNat_ofNat]
    refine (Nat.mod_le _ _).trans (Nat.mul_le_mul (Nat.mod_le _ _) ?_)
    exact le_of_eq rfl
  refine le_trans ?_ (h.le o ho)
  rw [if_neg (by omega), waitDeadline]
  omega

/-! ## The invariant -/

variable {s t : WorkerWait} {a : WaitAct}

/-- **The invariant**: what `run` has read so far fits what is registered, unless it is not going to
block. -/
def Sound (s : WorkerWait) : Prop :=
  match s.pc with
  | .clock next => s.Due ∨ Earliest s.objs next
  | .masking next curr => s.Due ∨ Timely s.objs next curr
  | .entering m next curr => s.Due ∨ s.thread.registeredEvents ⊆ m ∧ Timely s.objs next curr
  | _ => s.BlockedOk

theorem Sound.blockedOk (h : Sound s) : BlockedOk s := by
  obtain ⟨now, thread, objs, pc⟩ := s
  cases pc with
  | blocked m deadline => exact h
  | _ => trivial

theorem Sound.signal (h : Sound s) (e : EventMask) :
    Sound { s with thread := s.thread.signal e } := by
  obtain ⟨now, thread, objs, pc⟩ := s
  have hreg := thread.registeredEvents_signal e
  have hsig := thread.subset_signal e
  cases pc with
  | clock next => exact h.imp_left fun hd => and_ne_zero_mono hd hsig (hreg ▸ subset_refl _)
  | masking next curr => exact h.imp_left fun hd => and_ne_zero_mono hd hsig (hreg ▸ subset_refl _)
  | entering m next curr =>
    exact h.imp (fun hd => and_ne_zero_mono hd hsig (subset_refl m)) fun hm => ⟨hreg ▸ hm.1, hm.2⟩
  | blocked m deadline => exact ⟨hreg ▸ h.1, h.2⟩
  | _ => trivial

theorem Sound.registerEvt (h : Sound s) (hp : Prompt s .registerEvt) :
    Sound { s with thread := s.thread.registerEvt.2 } := by
  obtain ⟨now, thread, objs, pc⟩ := s
  have hsig : thread.signalledEvents ⊆ thread.registerEvt.2.signalledEvents :=
    thread.signalledEvents_registerEvt ▸ subset_refl _
  have hreg := thread.subset_registerEvt
  cases pc with
  | clock next => exact h.imp_left fun hd => and_ne_zero_mono hd hsig hreg
  | masking next curr => exact h.imp_left fun hd => and_ne_zero_mono hd hsig hreg
  | entering m next curr =>
    rcases hp with hd | hfull
    · exact Or.inl (and_ne_zero_mono hd hsig (subset_refl m))
    · rwa [Thread.registerEvt_full hfull]
  | blocked m deadline =>
    have hfull := hp.resolve_left id
    rwa [Thread.registerEvt_full hfull]
  | _ => trivial

theorem Sound.registerWorker (h : Sound s) {period : ℕ} (hp : Prompt s (.registerWorker period))
    (hst : s.step (.registerWorker period) = some t) : Sound t := by
  obtain ⟨now, thread, objs, pc⟩ := s
  cases pc with
  | dispatching k => cases hst
  | calling k => cases hst
  | triggering =>
    obtain rfl := Option.some.inj hst
    trivial
  | clock next =>
    obtain rfl := Option.some.inj hst
    rcases hp with hd | ⟨hpos, hle⟩
    · exact Or.inl hd
    · exact h.imp_right fun he => he.snoc hpos hle
  | masking next curr =>
    obtain rfl := Option.some.inj hst
    rcases hp with hd | ⟨hpos, hle⟩
    · exact Or.inl hd
    · exact h.imp_right fun he => he.snoc hpos hle
  | entering m next curr =>
    obtain rfl := Option.some.inj hst
    rcases hp with hd | ⟨hpos, hle⟩
    · exact Or.inl hd
    · exact h.imp_right fun he => ⟨he.1, he.2.snoc hpos hle⟩
  | blocked m deadline =>
    obtain rfl := Option.some.inj hst
    refine ⟨h.1, fun o ho => ?_⟩
    rcases List.mem_append.mp ho with hin | hin
    · exact h.2 o hin
    · exact List.mem_singleton.mp hin ▸ hp

theorem Sound.run (h : Sound s) (hp : Prompt s .run) (hst : s.runStep = some t) : Sound t := by
  obtain ⟨now, thread, objs, pc⟩ := s
  cases pc with
  | dispatching k =>
    simp only [runStep] at hst
    split at hst
    · exact Option.some.inj hst ▸ trivial
    · split_ifs at hst
      · exact Option.some.inj hst ▸ trivial
      · exact Option.some.inj hst ▸ trivial
  | calling k => exact Option.some.inj hst ▸ trivial
  | triggering =>
    obtain rfl := Option.some.inj hst
    exact Or.inr (earliest_getNextTriggerUs objs)
  | clock next =>
    obtain rfl := Option.some.inj hst
    rcases hp with hd | hcurr
    · exact Or.inl hd
    · exact h.imp_right fun he => he.timely hcurr
  | masking next curr =>
    obtain rfl := Option.some.inj hst
    exact h.imp_right fun ht => ⟨subset_refl _, ht⟩
  | entering m next curr =>
    obtain rfl := Option.some.inj hst
    rw [Thread.waitAny_eq]
    by_cases hd : thread.signalledEvents &&& m ≠ 0
    · rw [if_pos hd]
      trivial
    · rw [if_neg hd]
      obtain ⟨hsub, htimely⟩ := h.resolve_left hd
      exact ⟨hsub, htimely.deadline_le (hp.resolve_left hd)⟩
  | blocked m deadline => cases hst

theorem Sound.resume (h : Sound s) {ret : CondRet} (hst : s.step (.resume ret) = some t) :
    Sound t := by
  obtain ⟨now, thread, objs, pc⟩ := s
  cases pc with
  | blocked m deadline =>
    simp only [WorkerWait.step] at hst
    split_ifs at hst
    obtain rfl := Option.some.inj hst
    cases ret with
    | timedOut => trivial
    | woken =>
      rw [Thread.waitAnyResume_woken]
      split_ifs
      · trivial
      · exact h
  | _ => cases hst

theorem Sound.step (h : Sound s) (hp : Prompt s a) (hst : machine.step s a = some t) :
    Sound t := by
  cases a with
  | tick ns =>
    obtain rfl := Option.some.inj hst
    exact h
  | signal e =>
    obtain rfl := Option.some.inj hst
    exact h.signal e
  | registerEvt =>
    obtain rfl := Option.some.inj hst
    exact h.registerEvt hp
  | registerWorker period => exact h.registerWorker hp hst
  | run => exact h.run hp hst
  | resume ret => exact h.resume hst

/-- **A worker that keeps up waits on what is registered**, whenever it is blocked. -/
theorem always_blockedOk (t : Thread) (objs : List PeriodicWorkerObject) (now : ℕ)
    (as : List WaitAct) (h : machine.Along Prompt (start t objs now) as) :
    machine.Always BlockedOk (start t objs now) as := by
  have hstart : Sound (start t objs now) := trivial
  exact (Machine.always_of_along hstart (fun _ _ _ h hp hst => h.step hp hst) h).mono
    fun _ h => h.blockedOk

/-- One object and one event, another object registered while the worker is blocked, and the timeout
on time. -/
theorem always_blockedOk_timeout : machine.Always BlockedOk (start ⟨1, 0⟩ [⟨100, 500⟩] 1000)
    [.run, .run, .run, .run, .run, .run, .registerWorker 600, .tick 499000, .resume .timedOut] :=
  always_blockedOk ⟨1, 0⟩ [⟨100, 500⟩] 1000 _ (by decide)

/-- **A worker that is started first waits for nothing**: the event registered afterwards is not in
the mask it is blocked on. -/
theorem not_forall_always_blockedOk : ¬ ∀ (t : Thread) (objs : List PeriodicWorkerObject)
    (now : ℕ) (as : List WaitAct), machine.Always BlockedOk (start t objs now) as := by
  intro h
  have hrun := h ⟨0, 0⟩ [] 1000 [.run, .run, .run, .run, .run, .registerEvt]
  revert hrun
  decide

end WorkerWait

end LibDronecan
