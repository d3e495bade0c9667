import LibDronecan.Machinery.Run
import LibDronecan.Pal.WorkerList
import LibDronecan.Pal.WorkerLoop

/-!
# Pal/WorkerRate — how often a periodic object is called

    read t ──▸ t ≥ next_trigger? ──▸ call … return ──▸ next_trigger = period + micros64()
        ╰────────── the clock goes on between any two of these ──────────╯

A pass of `run` hands every object the clock and then the events.  The clock is read before the
call and again after it, and the function called takes what time it takes, while other threads
register and unregister objects and signal events.  Yet `next_trigger_time_us` is never less than a
period after the registration or the last return (`RateInv.armed`), except between a return and the
assignment that follows it, when the object is not called.  Times are as read and not yet wrapped.
-/

open Machinery

namespace LibDronecan

/-- Where a pass of `run` is. -/
inductive PassPc (ι : Type*) where
  | waiting
  | visiting (currWorker : Option ι)
  | comparing (obj : ι) (currTime : ℕ)
  | running (obj : ι)
  | rearming (obj : ι)
  | dispatching (obj : ι)
  | moving (obj : ι)

/-- The object the pass stands at, or goes to next. -/
def PassPc.obj {ι : Type*} : PassPc ι → Option ι
  | .waiting => none
  | .visiting currWorker => currWorker
  | .comparing obj _ => some obj
  | .running obj => some obj
  | .rearming obj => some obj
  | .dispatching obj => some obj
  | .moving obj => some obj

/-- A call by any thread, time passing, or a step of `run`. -/
inductive RateAct (ι : Type*) where
  | tick (us : ℕ)
  | register (obj : ι) (turns : ℕ)
  | unregister (obj : ι) (turns : ℕ)
  | pass
  | read
  | compare
  | ret
  | rearm
  | dispatch (evtMask : EventMask)
  | move

/-- A worker's list, the event side of its event objects, the clock, where `run` is, and when each
object was registered or its function last returned. -/
structure WorkerRate (ι κ : Type*) where
  list : WorkerList ι κ
  evts : ι → EventWorkerObject
  micros64 : ℕ
  pc : PassPc ι
  since : ι → Option ℕ

namespace WorkerRate

variable {ι κ : Type*} [DecidableEq ι]

omit [DecidableEq ι] in
/-- A worker without objects, and objects that are not linked to any. -/
def start (worker : ι → Option κ) (periodUs : ι → Option ℕ) (nextTriggerUs : ι → ℕ)
    (evts : ι → EventWorkerObject) (micros64 : ℕ) : WorkerRate ι κ :=
  ⟨⟨none, fun _ => none, worker, periodUs, nextTriggerUs⟩, evts, micros64, .waiting, fun _ => none⟩

omit [DecidableEq ι] in
/-- `operator()(uint64_t)`: whether the function is called.  An event object takes no notice. -/
def callsAt (s : WorkerRate ι κ) (obj : ι) (currTime : ℕ) : Bool :=
  match s.list.periodUs obj with
  | none => false
  | some _ => decide (currTime ≥ s.list.nextTriggerUs obj)

omit [DecidableEq ι] in
/-- `operator()(event_mask_t)`: whether the function is called.  A periodic object takes no
notice. -/
def callsOn (s : WorkerRate ι κ) (obj : ι) (evtMask : EventMask) : Bool :=
  match s.list.periodUs obj with
  | none => (s.evts obj).run evtMask
  | some _ => false

/-- `next_trigger_time_us = period_us + micros64()`. -/
def rearmed (s : WorkerRate ι κ) (obj : ι) : WorkerList ι κ :=
  match s.list.periodUs obj with
  | none => s.list
  | some period =>
      { s.list with
        nextTriggerUs := Function.update s.list.nextTriggerUs obj (period + s.micros64) }

/-- One step. -/
def step (this : κ) (s : WorkerRate ι κ) : RateAct ι → Option (WorkerRate ι κ)
  | .tick us => some { s with micros64 := s.micros64 + us }
  | .register obj n =>
      (s.list.registerWorker this s.micros64 obj n).map fun r =>
        { s with list := r.2, since := Function.update s.since obj (some s.micros64) }
  | .unregister obj n =>
      (s.list.unregisterWorker s.micros64 obj n).map fun list => { s with list := list }
  | .pass =>
      match s.pc with
      | .waiting => some { s with pc := .visiting s.list.workerObjHead }
      | _ => none
  | .read =>
      match s.pc with
      | .visiting none => some { s with pc := .waiting }
      | .visiting (some obj) => some { s with pc := .comparing obj s.micros64 }
      | _ => none
  | .compare =>
      match s.pc with
      | .comparing obj currTime =>
          some { s with pc := if s.callsAt obj currTime then .running obj else .dispatching obj }
      | _ => none
  | .ret =>
      match s.pc with
      | .running obj =>
          some { s with
            pc := .rearming obj
            since := Function.update s.since obj (some s.micros64) }
      | _ => none
  | .rearm =>
      match s.pc with
      | .rearming obj => some { s with list := s.rearmed obj, pc := .dispatching obj }
      | _ => none
  | .dispatch _ =>
      match s.pc with
      | .dispatching obj => some { s with pc := .moving obj }
      | _ => none
  | .move =>
      match s.pc with
      | .moving obj => some { s with pc := .visiting (s.list.next obj) }
      | _ => none

/-- `run`, with calls by other threads and time passing at any point. -/
def machine (this : κ) : Machine (WorkerRate ι κ) (RateAct ι) := ⟨step this⟩

omit [DecidableEq ι] in
/-- The step begins a call of the function of `obj`. -/
def Begins (s : WorkerRate ι κ) (obj : ι) : RateAct ι → Prop
  | .compare => ∃ currTime, s.pc = .comparing obj currTime ∧ s.callsAt obj currTime = true
  | .dispatch evtMask => s.pc = .dispatching obj ∧ s.callsOn obj evtMask = true
  | _ => False

omit [DecidableEq ι] in
/-- **A periodic object is called no earlier than a period after** it was registered and after its
last call returned. -/
def RateOk (s : WorkerRate ι κ) (a : RateAct ι) : Prop :=
  ∀ obj period, s.Begins obj a → s.list.periodUs obj = some period →
    ∃ t, s.since obj = some t ∧ t + period ≤ s.micros64

/-! ## The trigger time -/

/-- **The invariant.**  A periodic object that was ever registered is armed with its period, unless
its function has just returned; and whatever a pass can come by was registered. -/
structure RateInv (s : WorkerRate ι κ) : Prop where
  armed : ∀ o period t, s.list.periodUs o = some period → s.since o = some t →
    s.pc ≠ .rearming o → t + period ≤ s.list.nextTriggerUs o
  past : ∀ o t, s.since o = some t → t ≤ s.micros64
  readPast : ∀ o t, s.pc = .comparing o t → t ≤ s.micros64
  head : ∀ o, s.list.workerObjHead = some o → s.since o ≠ none
  next : ∀ a o, s.list.next a = some o → s.since o ≠ none
  atObj : ∀ o, s.pc.obj = some o → s.since o ≠ none

variable {this : κ} {s t : WorkerRate ι κ} {obj : ι}

omit [DecidableEq ι] in
theorem rateInv_start (worker : ι → Option κ) (periodUs : ι → Option ℕ) (nextTriggerUs : ι → ℕ)
    (evts : ι → EventWorkerObject) (micros64 : ℕ) :
    RateInv (start worker periodUs nextTriggerUs evts micros64) where
  armed _ _ _ _ h := nomatch h
  past _ _ h := nomatch h
  readPast _ _ h := nomatch h
  head _ h := nomatch h
  next _ _ h := nomatch h
  atObj _ h := nomatch h

/-- What `set_worker` does to the trigger times. -/
theorem nextTriggerUs_setWorker {w : WorkerList ι κ} {worker : Option κ} {us period : ℕ} {o : ι}
    (ho : w.periodUs o = some period) :
    (w.setWorker obj worker us).nextTriggerUs o
      = if o = obj then period + us else w.nextTriggerUs o := by
  unfold WorkerList.setWorker
  split_ifs with hobj
  · subst hobj
    simp only [ho, Function.update_self]
  · cases w.periodUs obj with
    | none => rfl
    | some p => exact Function.update_of_ne hobj _ _

@[simp] theorem periodUs_rearmed : (s.rearmed obj).periodUs = s.list.periodUs := by
  unfold rearmed
  split <;> rfl

@[simp] theorem next_rearmed : (s.rearmed obj).next = s.list.next := by
  unfold rearmed
  split <;> rfl

@[simp] theorem workerObjHead_rearmed :
    (s.rearmed obj).workerObjHead = s.list.workerObjHead := by
  unfold rearmed
  split <;> rfl

theorem nextTriggerUs_rearmed {period : ℕ} {o : ι} (ho : s.list.periodUs o = some period) :
    (s.rearmed obj).nextTriggerUs o
      = if o = obj then period + s.micros64 else s.list.nextTriggerUs o := by
  unfold rearmed
  split_ifs with hobj
  · subst hobj
    simp only [ho, Function.update_self]
  · cases s.list.periodUs obj with
    | none => rfl
    | some p => exact Function.update_of_ne hobj _ _

omit [DecidableEq ι] in
/-- **A step of the rest of the system keeps the invariant if** it leaves the periods alone, arms
whatever it touches, and knows whatever it points to. -/
theorem RateInv.of_list (h : RateInv s) {list : WorkerList ι κ} {since : ι → Option ℕ}
    (hperiod : list.periodUs = s.list.periodUs)
    (htrig : ∀ o period, s.list.periodUs o = some period →
      list.nextTriggerUs o = s.list.nextTriggerUs o ∧ since o = s.since o ∨
        list.nextTriggerUs o = period + s.micros64)
    (hpast : ∀ o t, since o = some t → t ≤ s.micros64)
    (hsince : ∀ o, s.since o ≠ none → since o ≠ none)
    (hhead : ∀ o, list.workerObjHead = some o → since o ≠ none)
    (hnext : ∀ a o, list.next a = some o → since o ≠ none) :
    RateInv { s with list := list, since := since } where
  armed o period t ho ht hpc := by
    change list.periodUs o = some period at ho
    rw [hperiod] at ho
    change t + period ≤ list.nextTriggerUs o
    obtain ⟨hsame, hst⟩ | hnew := htrig o period ho
    · rw [hsame]
      exact h.armed o period t ho (hst.symm.trans ht) hpc
    · have := hpast o t ht
      omega
  past := hpast
  readPast := h.readPast
  head := hhead
  next := hnext
  atObj o ho := hsince o (h.atObj o ho)

theorem update_ne_none {since : ι → Option ℕ} {us : ℕ} {o : ι} (h : since o ≠ none) :
    Function.update since obj (some us) o ≠ none := by
  rw [Function.update_apply]
  split_ifs
  · exact Option.some_ne_none us
  · exact h

/-- What was noted until now, and now. -/
theorem RateInv.past_update (h : RateInv s) {o : ι} {t : ℕ}
    (ht : Function.update s.since obj (some s.micros64) o = some t) : t ≤ s.micros64 := by
  rw [Function.update_apply] at ht
  split_ifs at ht
  · exact (Option.some.inj ht).ge
  · exact h.past o t ht

theorem RateInv.register (h : RateInv s) {n : ℕ} {r : Bool × WorkerList ι κ}
    (hret : s.list.registerWorker this s.micros64 obj n = some r) :
    RateInv { s with list := r.2, since := Function.update s.since obj (some s.micros64) } := by
  have htrig : ∀ o period, s.list.periodUs o = some period →
      (s.list.setWorker obj (some this) s.micros64).nextTriggerUs o = s.list.nextTriggerUs o ∧
          Function.update s.since obj (some s.micros64) o = s.since o ∨
        (s.list.setWorker obj (some this) s.micros64).nextTriggerUs o = period + s.micros64 := by
    intro o period ho
    rw [nextTriggerUs_setWorker ho]
    split_ifs with hobj
    · exact Or.inr rfl
    · exact Or.inl ⟨rfl, Function.update_of_ne hobj _ _⟩
  have hself : Function.update s.since obj (some s.micros64) obj ≠ none := by
    rw [Function.update_self]
    exact Option.some_ne_none _
  obtain ⟨-, rfl⟩ | ⟨c, -, -, rfl⟩ := WorkerList.registerWorker_cases hret
  · refine h.of_list rfl htrig (fun o t => h.past_update) (fun o => update_ne_none) ?_
      (fun a o ho => update_ne_none (h.next a o ho))
    rintro o ⟨⟩
    exact hself
  · refine h.of_list rfl htrig (fun o t => h.past_update) (fun o => update_ne_none)
      (fun o ho => update_ne_none (h.head o ho)) ?_
    intro a o ho
    change Function.update s.list.next c (some obj) a = some o at ho
    rw [Function.update_apply] at ho
    split_ifs at ho
    · exact Option.some.inj ho ▸ hself
    · exact update_ne_none (h.next a o ho)

theorem RateInv.unregister (h : RateInv s) {n : ℕ} {list : WorkerList ι κ}
    (hret : s.list.unregisterWorker s.micros64 obj n = some list) :
    RateInv { s with list := list } := by
  have htrig : ∀ o period, s.list.periodUs o = some period →
      (s.list.setWorker obj none s.micros64).nextTriggerUs o = s.list.nextTriggerUs o ∧
          s.since o = s.since o ∨
        (s.list.setWorker obj none s.micros64).nextTriggerUs o = period + s.micros64 := by
    intro o period ho
    rw [nextTriggerUs_setWorker ho]
    split_ifs
    · exact Or.inr rfl
    · exact Or.inl ⟨rfl, rfl⟩
  obtain ⟨-, rfl⟩ | ⟨-, rfl⟩ | ⟨a, -, -, -, rfl⟩ := WorkerList.unregisterWorker_cases hret
  · exact h
  · exact h.of_list rfl htrig h.past (fun _ => id) (fun o ho => h.next obj o ho) h.next
  · refine h.of_list rfl htrig h.past (fun _ => id) h.head ?_
    intro b o ho
    change Function.update s.list.next a (s.list.next obj) b = some o at ho
    rw [Function.update_apply] at ho
    split_ifs at ho
    · exact h.next obj o ho
    · exact h.next b o ho

omit [DecidableEq ι] in
/-- A step of `run` that only moves on. -/
theorem RateInv.move (h : RateInv s) {pc : PassPc ι} (hrearm : ∀ o, s.pc ≠ .rearming o)
    (hread : ∀ o t, pc = .comparing o t → t ≤ s.micros64)
    (hobj : ∀ o, pc.obj = some o → s.since o ≠ none) : RateInv { s with pc := pc } where
  armed o period t ho ht _ := h.armed o period t ho ht (hrearm o)
  past := h.past
  readPast := hread
  head := h.head
  next := h.next
  atObj := hobj

/-- The return of the function opens the gap in `armed`… -/
theorem RateInv.ret (h : RateInv s) (hpc : s.pc = .running obj) :
    RateInv { s with
      pc := .rearming obj
      since := Function.update s.since obj (some s.micros64) } where
  armed o period t ho ht hne := by
    have hobj : o ≠ obj := fun hobj => hne (hobj ▸ rfl)
    change Function.update s.since obj (some s.micros64) o = some t at ht
    rw [Function.update_of_ne hobj] at ht
    exact h.armed o period t ho ht fun hre => nomatch hpc.symm.trans hre
  past _ _ := h.past_update
  readPast _ _ ho := nomatch ho
  head o ho := update_ne_none (h.head o ho)
  next a o ho := update_ne_none (h.next a o ho)
  atObj := by
    rintro o ⟨⟩
    exact update_ne_none (h.atObj obj (by rw [hpc]; rfl))

/-- …and the assignment that follows it closes it. -/
theorem RateInv.rearm (h : RateInv s) (hpc : s.pc = .rearming obj) :
    RateInv { s with list := s.rearmed obj, pc := .dispatching obj } where
  armed o period t ho ht _ := by
    simp only [periodUs_rearmed] at ho
    change t + period ≤ (s.rearmed obj).nextTriggerUs o
    rw [nextTriggerUs_rearmed ho]
    split_ifs with hobj
    · have := h.past o t ht
      omega
    · exact h.armed o period t ho ht fun hre =>
        hobj (PassPc.rearming.inj (hpc.symm.trans hre)).symm
  past := h.past
  readPast _ _ ho := nomatch ho
  head o ho := h.head o (by simpa using ho)
  next a o ho := h.next a o (by simpa using ho)
  atObj := by
    rintro o ⟨⟩
    exact h.atObj obj (by rw [hpc]; rfl)

theorem RateInv.step (h : RateInv s) {a : RateAct ι} (hst : (machine this).step s a = some t) :
    RateInv t := by
  cases a with
  | tick us =>
    obtain rfl := Option.some.inj hst
    refine { h with past := fun o t ht => ?_, readPast := fun o t ht => ?_ }
    · exact (h.past o t ht).trans (Nat.le_add_right _ us)
    · exact (h.readPast o t ht).trans (Nat.le_add_right _ us)
  | register obj n =>
    obtain ⟨r, hr, rfl⟩ := Option.map_eq_some_iff.mp hst
    exact h.register hr
  | unregister obj n =>
    obtain ⟨list, hr, rfl⟩ := Option.map_eq_some_iff.mp hst
    exact h.unregister hr
  | pass =>
    simp only [machine, WorkerRate.step] at hst
    split at hst <;> cases hst
    case _ hpc =>
      exact h.move (fun o ho => nomatch hpc.symm.trans ho) (fun _ _ ho => nomatch ho) h.head
  | read =>
    simp only [machine, WorkerRate.step] at hst
    split at hst <;> cases hst
    case _ hpc =>
      exact h.move (fun o ho => nomatch hpc.symm.trans ho) (fun _ _ ho => nomatch ho)
        fun _ ho => nomatch ho
    case _ obj hpc =>
      refine h.move (fun o ho => nomatch hpc.symm.trans ho) ?_ ?_
      · rintro o t ⟨⟩
        exact le_rfl
      · rintro o ⟨⟩
        exact h.atObj _ (by rw [hpc]; rfl)
  | compare =>
    simp only [machine, WorkerRate.step] at hst
    split at hst <;> cases hst
    case _ obj currTime hpc =>
      refine h.move (fun o ho => nomatch hpc.symm.trans ho) (fun o t ho => ?_) fun o ho => ?_
      · split_ifs at ho
      · refine h.atObj o ?_
        rw [hpc]
        split_ifs at ho
        · exact ho
        · exact ho
  | ret =>
    simp only [machine, WorkerRate.step] at hst
    split at hst <;> cases hst
    case _ obj hpc => exact h.ret hpc
  | rearm =>
    simp only [machine, WorkerRate.step] at hst
    split at hst <;> cases hst
    case _ obj hpc => exact h.rearm hpc
  | dispatch evtMask =>
    simp only [machine, WorkerRate.step] at hst
    split at hst <;> cases hst
    case _ obj hpc =>
      refine h.move (fun o ho => nomatch hpc.symm.trans ho) (fun _ _ ho => nomatch ho) ?_
      rintro o ⟨⟩
      exact h.atObj _ (by rw [hpc]; rfl)
  | move =>
    simp only [machine, WorkerRate.step] at hst
    split at hst <;> cases hst
    case _ obj hpc =>
      exact h.move (fun o ho => nomatch hpc.symm.trans ho) (fun _ _ ho => nomatch ho) (h.next obj)

omit [DecidableEq ι] in
theorem RateInv.rateOk (h : RateInv s) (a : RateAct ι) : RateOk s a := by
  intro obj period hbegins hperiod
  cases a with
  | compare =>
    obtain ⟨currTime, hpc, hcalls⟩ := hbegins
    simp only [callsAt, hperiod, decide_eq_true_eq] at hcalls
    obtain ⟨t, ht⟩ := Option.ne_none_iff_exists'.mp (h.atObj obj (by rw [hpc]; rfl))
    have harmed := h.armed obj period t hperiod ht fun ho => nomatch hpc.symm.trans ho
    exact ⟨t, ht, harmed.trans (hcalls.trans (h.readPast obj currTime hpc))⟩
  | dispatch evtMask =>
    obtain ⟨-, hcalls⟩ := hbegins
    simp only [callsOn, hperiod, Bool.false_eq_true] at hcalls
  | tick | register | unregister | pass | read | ret | rearm | move => exact hbegins.elim

/-- **Periodic workers are rate limited**, in every run of a worker and whatever else goes on. -/
theorem along_rateOk (this : κ) (worker : ι → Option κ) (periodUs : ι → Option ℕ)
    (nextTriggerUs : ι → ℕ) (evts : ι → EventWorkerObject) (micros64 : ℕ)
    (acts : List (RateAct ι)) :
    (machine this).Along RateOk (start worker periodUs nextTriggerUs evts micros64) acts :=
  Machine.along_of_step (rateInv_start worker periodUs nextTriggerUs evts micros64)
    (fun _ a h => h.rateOk a) (fun _ _ _ h hst => h.step hst) acts

end WorkerRate

end LibDronecan
