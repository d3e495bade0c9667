import LibDronecan.Machinery.Run
import LibDronecan.Pal.WorkerList

/-!
# Pal/WorkerEnd — `~Worker`, and the objects it leaves behind

    thread        worker_obj_head ──▸ obj ──▸ obj ──▸ null      each unregistered, first to last
    no thread     the list stays, and every obj.worker with it

An object keeps a pointer to its worker and calls `unregister_worker` through it when it is
destroyed.  Whatever happens to a list, every object that points to the worker is met from the head
(`always_owned`), so the walk of the destructor reaches all of them — if the list comes to an end,
and if there is a walk: it is made for a worker with a thread only.  `always_noneLeft_iff`: these
are the two ways to leave an object behind.
-/

open Machinery

namespace LibDronecan

/-- A `Worker` and its objects; `thread` is whether that pointer is not null. -/
structure WorkerLife (ι κ : Type*) where
  list : WorkerList ι κ
  thread : Bool

/-- A call: `start`, with or without success, or one on the list, with what `micros64` reads. -/
inductive WorkerCall (ι : Type*) where
  | start (ok : Bool)
  | register (obj : ι) (micros64 : ℕ)
  | unregister (obj : ι) (micros64 : ℕ)

namespace WorkerLife

variable {ι κ : Type*} [DecidableEq ι] (this : κ)

omit [DecidableEq ι] in
/-- A worker without objects that is not started, and objects without a worker, whatever list they
may have been on. -/
def start (w : WorkerList ι κ) : WorkerLife ι κ :=
  ⟨{ w with workerObjHead := none, worker := fun _ => none }, false⟩

/-- The call, given `n` turns of its loop. -/
def exec (n : ℕ) (s : WorkerLife ι κ) : WorkerCall ι → Option (WorkerLife ι κ)
  | .start ok => some { s with thread := ok }
  | .register obj us => (s.list.registerWorker this us obj n).map fun r => { s with list := r.2 }
  | .unregister obj us => (s.list.unregisterWorker us obj n).map fun list => { s with list }

/-- Calls that return, each with the turns it is given. -/
def machine : Machine (WorkerLife ι κ) (WorkerCall ι × ℕ) where
  step s a := exec this a.2 s a.1

/-- The loop of the destructor, at `curr_worker`.  Its `next` is read first; `micros64` says what
the clock reads when it is unregistered. -/
def destroyTurn (micros64 : ι → ℕ) (n : ℕ) :
    Option ι × WorkerList ι κ → Turn (Option ι × WorkerList ι κ) (Option (WorkerList ι κ))
  | (none, w) => .leave (some w)
  | (some curr, w) =>
      match w.unregisterWorker (micros64 curr) curr n with
      | none => .leave none
      | some w' => .again (w.next curr, w')

/-- `Worker::~Worker`, as far as the objects go. -/
def destroy (micros64 : ι → ℕ) (s : WorkerLife ι κ) (n : ℕ) : Option (WorkerList ι κ) :=
  if s.thread then (loop (destroyTurn micros64 n) n (s.list.workerObjHead, s.list)).join
  else some s.list

/-- **No object is left behind**: the destructor returns, and none points to the worker. -/
def NoneLeft (s : WorkerLife ι κ) : Prop :=
  ∀ micros64, ∃ n w, s.destroy micros64 n = some w ∧ ∀ o, w.worker o ≠ some this

omit [DecidableEq ι] in
/-- The worker has its thread and the list comes to an end; or no object points to the worker. -/
def Ends (s : WorkerLife ι κ) : Prop :=
  if s.thread then ∃ l, Chain s.list.next s.list.workerObjHead l
  else ∀ o, s.list.worker o ≠ some this

/-! ## The invariant -/

omit [DecidableEq ι] in
/-- **The invariant**: every object that points to the worker is met from the head of its list. -/
def Owned (w : WorkerList ι κ) : Prop :=
  ∀ o, w.worker o = some this → Meets w.next w.workerObjHead o

variable {this} {s t : WorkerLife ι κ} {w w' : WorkerList ι κ} {obj : ι} {us n : ℕ} {l : List ι}

omit [DecidableEq ι] in
theorem owned_start (w : WorkerList ι κ) : Owned this (start w).list := fun _ h => nomatch h

theorem Owned.register (h : Owned this w) {r : Bool × WorkerList ι κ}
    (hret : w.registerWorker this us obj n = some r) : Owned this r.2 := by
  obtain ⟨hhead, rfl⟩ | ⟨c, hc, hnull, rfl⟩ := WorkerList.registerWorker_cases hret
  · intro o ho
    obtain rfl | hold := WorkerList.worker_of_update_some ho
    · exact .here o
    · have hmet := h o hold
      rw [hhead] at hmet
      cases hmet
  · intro o ho
    obtain rfl | hold := WorkerList.worker_of_update_some ho
    · exact (hc.assign hnull _).step (Function.update_self _ _ _)
    · exact (h o hold).assign hnull _

theorem Owned.unregister (h : Owned this w) (hret : w.unregisterWorker us obj n = some w') :
    Owned this w' := by
  obtain ⟨-, rfl⟩ | ⟨hhead, rfl⟩ | ⟨a, -, hne, ha, rfl⟩ := WorkerList.unregisterWorker_cases hret
  · exact h
  · intro o ho
    obtain ⟨hobj, hold⟩ := WorkerList.worker_of_update_none ho
    have hmet := h o hold
    rw [hhead] at hmet
    exact hmet.tail hobj
  · intro o ho
    obtain ⟨hobj, hold⟩ := WorkerList.worker_of_update_none ho
    exact (h o hold).unlink ha hne hobj

theorem Owned.step (h : Owned this s.list) {a : WorkerCall ι × ℕ}
    (hst : (machine this).step s a = some t) : Owned this t.list := by
  obtain ⟨call, n⟩ := a
  cases call with
  | start ok =>
    obtain rfl := Option.some.inj hst
    exact h
  | register obj us =>
    obtain ⟨r, hr, rfl⟩ := Option.map_eq_some_iff.mp hst
    exact h.register hr
  | unregister obj us =>
    obtain ⟨w', hw', rfl⟩ := Option.map_eq_some_iff.mp hst
    exact h.unregister hw'

/-- **Whatever is registered and unregistered, the worker can find its objects.** -/
theorem always_owned (this : κ) (w : WorkerList ι κ) (calls : List (WorkerCall ι × ℕ)) :
    (machine this).Always (fun s => Owned this s.list) (start w) calls :=
  Machine.always_of_step (J := fun s => Owned this s.list) (owned_start w)
    (fun _ _ _ h hst => h.step hst) calls

/-! ## The destructor -/

variable {micros64 : ι → ℕ}

/-- At the head of the list, a turn takes the object off and goes on to the next. -/
theorem destroyTurn_head {a : ι} (h : w.workerObjHead = some a) :
    destroyTurn micros64 n (some a, w) = .again (w.next a,
      { w.setWorker a none (micros64 a) with workerObjHead := w.next a }) := by
  simp only [destroyTurn, WorkerList.unregisterWorker_head h]

/-- **Down a chain, the destructor unregisters every object it meets.** -/
theorem exists_destroy (h : Chain s.list.next s.list.workerObjHead l)
    (howned : Owned this s.list) (hthread : s.thread = true) (micros64 : ι → ℕ) :
    ∃ n w, s.destroy micros64 n = some w ∧ ∀ o, w.worker o ≠ some this := by
  have hloop : ∃ r, loop (destroyTurn micros64 (l.length + 1)) (l.length + 1)
      (s.list.workerObjHead, s.list) = some r ∧
        ∃ w, r = some w ∧ ∀ o, w.worker o ≠ some this := by
    refine loop_of_list (I := fun todo p => p.1 = p.2.workerObjHead ∧
      Chain p.2.next p.2.workerObjHead todo ∧ ∀ o, p.2.worker o = some this → o ∈ todo) ?_ ?_
      ⟨rfl, h, fun o ho => h.mem_of_meets (howned o ho)⟩
    · rintro a todo ⟨curr, w⟩ ⟨hcurr, hchain, hmem⟩
      obtain rfl : curr = w.workerObjHead := hcurr
      have hhead : w.workerObjHead = some a := hchain.1
      refine ⟨_, hhead ▸ destroyTurn_head hhead, rfl, hchain.2, fun o ho => ?_⟩
      obtain ⟨hne, hold⟩ := WorkerList.worker_of_update_none ho
      exact List.mem_of_ne_of_mem hne (hmem o hold)
    · rintro ⟨curr, w⟩ ⟨hcurr, hchain, hmem⟩
      obtain rfl : curr = w.workerObjHead := hcurr
      have hhead : w.workerObjHead = none := hchain
      refine ⟨some w, ?_, w, rfl, fun o ho => List.not_mem_nil (hmem o ho)⟩
      simp only [destroyTurn, hhead]
  obtain ⟨_, hloop, w, rfl, hnone⟩ := hloop
  refine ⟨l.length + 1, w, ?_, hnone⟩
  rw [destroy, if_pos hthread, hloop]
  rfl

/-- **A walk that comes back has gone down a chain.** -/
theorem exists_chain_of_loop {k : ℕ} (h : loop (destroyTurn micros64 n) k (w.workerObjHead, w)
    = some (some w')) : ∃ l, Chain w.next w.workerObjHead l := by
  induction k generalizing w with
  | zero => cases h
  | succ k ih =>
    cases hhead : w.workerObjHead with
    | none => exact ⟨[], rfl⟩
    | some a =>
      rw [hhead, loop_of_again (destroyTurn_head hhead)] at h
      obtain ⟨l, hl⟩ :=
        ih (w := { w.setWorker a none (micros64 a) with workerObjHead := w.next a }) h
      exact ⟨a :: l, rfl, hl⟩

theorem Owned.noneLeft_iff (h : Owned this s.list) : NoneLeft this s ↔ Ends this s := by
  cases hthread : s.thread with
  | false =>
    simp only [NoneLeft, Ends, destroy, hthread, Bool.false_eq_true, if_false, Option.some.injEq]
    constructor
    · intro hnone
      obtain ⟨-, w, rfl, hw⟩ := hnone fun _ => 0
      exact hw
    · exact fun hnone _ => ⟨0, s.list, rfl, hnone⟩
  | true =>
    simp only [Ends, hthread, if_true]
    constructor
    · intro hnone
      obtain ⟨n, w, hret, -⟩ := hnone fun _ => 0
      rw [destroy, if_pos hthread, Option.join_eq_some_iff] at hret
      exact exists_chain_of_loop hret
    · rintro ⟨l, hl⟩ micros64
      exact exists_destroy hl h hthread micros64

/-- **After any history, a worker that is destroyed leaves no object behind exactly if it has its
thread and its list comes to an end**, or, without a thread, if no object points to it any more. -/
theorem always_noneLeft_iff (this : κ) (w : WorkerList ι κ) (calls : List (WorkerCall ι × ℕ)) :
    (machine this).Always (fun s => NoneLeft this s ↔ Ends this s) (start w) calls :=
  (always_owned this w calls).mono fun _ h => h.noneLeft_iff

/-- **A worker that was never started leaves its objects behind.** -/
theorem not_forall_always_noneLeft : ¬ ∀ (w : WorkerList ℕ Unit) (calls : List (WorkerCall ℕ × ℕ)),
    (machine ()).Always (NoneLeft ()) (start w) calls := by
  intro h
  have hrun := h { WorkerList.three with next := fun _ => none } [(.register 0 0, 1)]
  obtain ⟨n, w, hret, hnone⟩ := hrun.of_run rfl fun _ => 0
  obtain rfl := Option.some.inj hret
  exact hnone 0 rfl

end WorkerLife

end LibDronecan
