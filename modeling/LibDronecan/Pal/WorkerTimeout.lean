import LibDronecan.Pal.Deadline
import LibDronecan.Pal.WorkerWait

/-!
# Pal/WorkerTimeout — the timeout `Worker::run` chooses

    next ≥ curr    wait_any(evt_msk, next - curr)
    next < curr    wait_any(evt_msk, -1)             no object at all, or an overdue one

`run` compares the earliest trigger time with a clock it reads afterwards.  What
`get_next_trigger_us` returns for no objects is 0, and `next < curr` is how `run` tells that case;
but an object whose time has come between the pass and the clock looks the same, and the worker is
sent to sleep without a bound.  Otherwise the timeout is right (`exists_punctual_iff`).
-/

open Machinery

namespace LibDronecan

/-- The second argument that `run` passes to `wait_any`: the literal `-1`, or a number. -/
inductive RunTimeout where
  | unbounded
  | within (us : BitVec 32)

/-- It as a `uint32_t`. -/
def RunTimeout.us : RunTimeout → BitVec 32
  | .unbounded => -1
  | .within us => us

/-- The choice of `Worker::run`.  The difference of two `uint64_t` is cut to 32 bits. -/
def runTimeout (nextTriggerUs currTimeUs : ℕ) : RunTimeout :=
  if nextTriggerUs < currTimeUs then .unbounded
  else .within (BitVec.ofNat 32 (nextTriggerUs - currTimeUs))

/-- What `run` does between a pass and `wait_any`: the earliest trigger time of the list, then the
clock, then the choice. -/
def WorkerList.chooseTimeout {ι κ : Type*} (w : WorkerList ι κ) (n currTimeUs : ℕ) :
    Option RunTimeout :=
  (w.getNextTriggerUs n).map fun next => runTimeout next currTimeUs

/-- **A punctual timeout** at `curr` for these objects: it ends at no trigger time too late, exactly
at the earliest if that is to come, and is unbounded only for no objects. -/
structure Punctual (objs : List PeriodicWorkerObject) (curr : ℕ) (T : RunTimeout) : Prop where
  le : ∀ o ∈ objs, T.us.toNat ≤ o.nextTriggerUs - curr
  eq : ∀ o ∈ objs, (∀ o' ∈ objs, o.nextTriggerUs ≤ o'.nextTriggerUs) → curr < o.nextTriggerUs →
    T.us.toNat = o.nextTriggerUs - curr
  bounded : T = .unbounded → objs = []

variable {objs : List PeriodicWorkerObject} {next curr : ℕ}

theorem runTimeout_of_lt (h : next < curr) : runTimeout next curr = .unbounded := if_pos h

/-- A difference of 32 bits is passed as it is. -/
theorem runTimeout_of_le (h : curr ≤ next) (hfits : next - curr < 2 ^ 32) :
    ∃ us : BitVec 32, runTimeout next curr = .within us ∧ us.toNat = next - curr := by
  refine ⟨BitVec.ofNat 32 (next - curr), if_neg (by omega), ?_⟩
  rw [BitVec.toNat_ofNat, Nat.mod_eq_of_lt hfits]

/-- **The choice is punctual exactly while no object is overdue.** -/
theorem WorkerWait.Earliest.punctual_iff (h : WorkerWait.Earliest objs next)
    (hpos : ∀ o ∈ objs, 0 < o.nextTriggerUs)
    (hfits : ∀ o ∈ objs, o.nextTriggerUs ≤ curr + (2 ^ 32 - 1)) :
    Punctual objs curr (runTimeout next curr) ↔ ∀ o ∈ objs, curr ≤ o.nextTriggerUs := by
  constructor
  · intro hpunctual o ho
    by_contra hlate
    have hnext : next < curr := (h.le hpos o ho).trans_lt (by omega)
    have hnil := hpunctual.bounded (runTimeout_of_lt hnext)
    exact List.ne_nil_of_mem ho hnil
  · intro hcurr
    by_cases hne : objs = []
    · subst hne
      exact ⟨fun o ho => absurd ho List.not_mem_nil, fun o ho => absurd ho List.not_mem_nil,
        fun _ => rfl⟩
    · obtain ⟨e, he, rfl⟩ := h.mem hne hpos
      have hsmall := hfits e he
      obtain ⟨us, hus, hval⟩ := runTimeout_of_le (hcurr e he) (by omega)
      rw [hus]
      refine ⟨fun o ho => ?_, fun o ho hleast _ => ?_, fun hT => by cases hT⟩
      · have hle := h.le hpos o ho
        change us.toNat ≤ _
        omega
      · have hle := h.le hpos o ho
        have hge := hleast e he
        change us.toNat = _
        omega

/-- The step of `run` that enters `wait_any` passes this timeout. -/
theorem WorkerWait.runStep_entering {s : WorkerWait} {m : EventMask}
    (hpc : s.pc = .entering m next curr) :
    s.runStep = some (s.afterWait m (waitDeadline s.now (runTimeout next curr).us)
      (s.thread.waitAny m)) := by
  simp only [runStep, hpc, runTimeout]
  split_ifs <;> rfl

/-- …and what `wait_any` makes of it is the deadline of a `timespec`. -/
theorem ns_deadline_eq_waitDeadline {now : Timespec} (h : now.Normal) (hnow : 0 ≤ now.ns)
    (timeoutUs : BitVec 32) (hsec : now.tvSec.toInt
      + (now.tvNsec.toInt + (timeoutUs * 1000).toNat) / 1000000000 < 2 ^ 63) :
    (now.deadline timeoutUs).ns = waitDeadline now.ns.toNat timeoutUs := by
  rw [Timespec.ns_deadline h, if_pos hsec, waitDeadline, Nat.cast_add, Int.toNat_of_nonneg hnow]
  omega

namespace WorkerList

variable {ι κ : Type*} {w : WorkerList ι κ} {l : List ι}

theorem chooseTimeout_eq (h : Chain w.next w.workerObjHead l) (curr : ℕ) :
    w.chooseTimeout (l.length + 1) curr
      = some (runTimeout (WorkerWait.getNextTriggerUs (l.filterMap (WorkerWait.periodic w)))
        curr) := by
  rw [chooseTimeout, WorkerWait.getNextTriggerUs_list h, Option.map_some]

/-- Whatever turns it is given, the choice is the same. -/
theorem turnFree_chooseTimeout (w : WorkerList ι κ) (curr : ℕ) :
    TurnFree fun n => w.chooseTimeout n curr :=
  (turnFree_loop _ _).map _

/-- **The worker chooses a punctual timeout exactly while none of its periodic objects is
overdue.** -/
theorem exists_punctual_iff (h : Chain w.next w.workerObjHead l)
    (hpos : ∀ o ∈ l.filterMap (WorkerWait.periodic w), 0 < o.nextTriggerUs)
    (hfits : ∀ o ∈ l.filterMap (WorkerWait.periodic w), o.nextTriggerUs ≤ curr + (2 ^ 32 - 1)) :
    (∃ n T, w.chooseTimeout n curr = some T ∧
        Punctual (l.filterMap (WorkerWait.periodic w)) curr T) ↔
      ∀ o ∈ l.filterMap (WorkerWait.periodic w), curr ≤ o.nextTriggerUs := by
  rw [← (WorkerWait.earliest_getNextTriggerUs _).punctual_iff hpos hfits]
  constructor
  · rintro ⟨n, T, hT, hpunctual⟩
    rwa [turnFree_chooseTimeout w curr hT (chooseTimeout_eq h curr)] at hpunctual
  · exact fun hpunctual => ⟨_, _, chooseTimeout_eq h curr, hpunctual⟩

/-- An object every 100 µs, one for events, and one an hour off. -/
def mixed : WorkerList ℕ Unit where
  workerObjHead := some 0
  next a := if a < 2 then some (a + 1) else none
  worker _ := some ()
  periodUs a := if a = 0 then some 100 else if a = 2 then some 3600000000 else none
  nextTriggerUs a := if a = 0 then 100 else 3600000000

/-- On the microsecond, the first object is not overdue. -/
theorem exists_punctual_mixed : ∃ n T, mixed.chooseTimeout n 100 = some T ∧
    Punctual ([0, 1, 2].filterMap (WorkerWait.periodic mixed)) 100 T :=
  (exists_punctual_iff (w := mixed) (l := [0, 1, 2]) (by decide) (by decide) (by decide)).mpr
    (by decide)

/-- **A microsecond later it is, and the worker sleeps without a bound**: a pass that looked at 99
has not called it. -/
theorem not_forall_exists_punctual : ¬ ∀ (w : WorkerList ℕ Unit) (l : List ℕ) (curr : ℕ),
    Chain w.next w.workerObjHead l →
    (∀ o ∈ l.filterMap (WorkerWait.periodic w), 0 < o.nextTriggerUs) →
    (∀ o ∈ l.filterMap (WorkerWait.periodic w), o.nextTriggerUs ≤ curr + (2 ^ 32 - 1)) →
    ∃ n T, w.chooseTimeout n curr = some T ∧
      Punctual (l.filterMap (WorkerWait.periodic w)) curr T := by
  intro h
  have hchain : Chain mixed.next mixed.workerObjHead [0, 1, 2] := by decide
  obtain ⟨n, T, hT, hpunctual⟩ := h mixed [0, 1, 2] 101 hchain (by decide) (by decide)
  obtain rfl := turnFree_chooseTimeout mixed 101 hT (chooseTimeout_eq hchain 101)
  exact absurd (hpunctual.bounded rfl) (by decide)

end WorkerList

end LibDronecan
