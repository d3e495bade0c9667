import Mathlib.Data.Fintype.Defs
import LibDronecan.Machinery.Run
import LibDronecan.Pal.Thread

/-!
# Pal/ThreadWaits — each thread waits on its own `Thread`

    x ──key──▸ o ◂──signal──        x sleeps on o, and is woken
    x ──key──▸ o ◂──signal──        y sleeps on o as well: the signal may wake y,
    y ─────────┘                    and x sleeps on beside its events

`Thread::signal` calls `pthread_cond_signal`, which wakes one of those that sleep on the `Thread`,
whichever.  That is enough because `Threads::wait_any` and `wait_all` look the caller's own `Thread`
up by a pthread key: no other thread has it, as long as it is there (`Inv.same`).  So whoever waits
for what has been signalled gets out of the wait by itself (`always_leavesAlone`).
-/

open Machinery

namespace LibDronecan

/-- `wait_any` or `wait_all`, and its `evt_mask`. -/
inductive ThreadWait where
  | any (evtMask : EventMask)
  | all (evtMask : EventMask)
  deriving DecidableEq

namespace ThreadWait

/-- The call, up to its first block: `some ret` if it returns before. -/
def enter (t : Thread) : ThreadWait → Thread × Option Bool
  | .any m => ((t.waitAny m).1, (t.waitAny m).2.map Prod.fst)
  | .all m => t.waitAll m

/-- One round of its loop. -/
def resume (t : Thread) (ret : CondRet) : ThreadWait → Thread × Option Bool
  | .any m => ((t.waitAnyResume m ret).1, (t.waitAnyResume m ret).2.map Prod.fst)
  | .all m => t.waitAllResume m ret

/-- What is waited for has been signalled. -/
def Met (t : Thread) : ThreadWait → Prop
  | .any m => t.signalledEvents &&& m ≠ 0
  | .all m => t.signalledEvents &&& m = m ∧ m ≠ 0

variable {t t' : Thread} {w : ThreadWait} {ret : CondRet}

/-- A call that blocks has nothing to take. -/
theorem not_met_enter (h : (w.enter t).2 = none) : ¬ w.Met (w.enter t).1 := by
  cases w with
  | any m =>
    simp only [enter, Thread.waitAny_eq, Met] at h ⊢
    split_ifs at h ⊢ with hm
    · cases h
    · exact hm
  | all m =>
    simp only [enter, Thread.waitAll_eq, Met] at h ⊢
    split_ifs at h ⊢ with hm
    exact hm

/-- …and one that goes round again has nothing either. -/
theorem not_met_resume (h : (w.resume t ret).2 = none) : ¬ w.Met (w.resume t ret).1 := by
  cases ret with
  | timedOut => cases w <;> cases h
  | woken =>
    cases w with
    | any m =>
      simp only [resume, Thread.waitAnyResume_woken, Met] at h ⊢
      split_ifs at h ⊢ with hm
      · cases h
      · exact hm
    | all m =>
      simp only [resume, Thread.waitAllResume_woken, Met] at h ⊢
      split_ifs at h ⊢ with hm
      exact hm

/-- One that finds what it waits for returns. -/
theorem resume_of_met (h : w.Met t) : (w.resume t ret).2 ≠ none := by
  cases ret with
  | timedOut => cases w <;> nofun
  | woken =>
    cases w with
    | any m =>
      simp only [resume, Thread.waitAnyResume_woken, if_pos (show _ ≠ _ from h)]
      nofun
    | all m =>
      simp only [resume, Thread.waitAllResume_woken, if_pos (show _ ∧ _ from h)]
      nofun

theorem met_congr (h : t'.signalledEvents = t.signalledEvents) : w.Met t' ↔ w.Met t := by
  cases w <;> simp only [Met, h]

end ThreadWait

/-- Where a thread is. -/
inductive WaiterPc (ι : Type*) where
  /-- not created, or gone -/
  | absent
  /-- created, and about to set the key -/
  | entering
  /-- in no call -/
  | free
  /-- in the condition wait of this `Thread` -/
  | asleep (o : ι) (w : ThreadWait)
  /-- …which has come back, and has to have `sem` again -/
  | up (o : ι) (w : ThreadWait) (ret : CondRet)
  deriving DecidableEq

def WaiterPc.sleepsOn {ι : Type*} [DecidableEq ι] (o : ι) : WaiterPc ι → Bool
  | .asleep p _ => p = o
  | _ => false

/-- The threads of a program, and the `Thread`s there are. -/
structure ThreadWaits (τ ι : Type*) where
  thread : ι → Option Thread
  /-- what a thread has under `Threads::key` -/
  current : τ → Option ι
  /-- the `Thread` that a thread was created for -/
  entry : τ → Option ι
  pc : τ → WaiterPc ι

inductive WaitsAct (τ ι : Type*) where
  /-- `Threads::start`, with what was left of the masks in the memory of the new `Thread` -/
  | start (x : τ) (o : ι) (t : Thread)
  /-- the new thread sets the key -/
  | enter (x : τ)
  | registerMainThread (x : τ) (o : ι) (t : Thread)
  | stop (o : ι)
  /-- `Thread::signal`, and whom the condition wakes -/
  | signal (o : ι) (events : EventMask) (woken : Option τ)
  | registerEvt (o : ι)
  | unregisterEvt (o : ι) (id : ℕ)
  /-- `Threads::wait_any` or `wait_all` -/
  | wait (x : τ) (w : ThreadWait)
  /-- `Thread::wait_any` or `wait_all` -/
  | waitOn (x : τ) (o : ι) (w : ThreadWait)
  /-- a condition wait comes back: in time, or for nothing -/
  | back (x : τ) (ret : CondRet)
  /-- …and its round of the loop -/
  | resume (x : τ)

namespace ThreadWaits

variable {τ ι : Type*}

/-- The threads of the program's own, and none created yet. -/
def start (main : τ → Bool) : ThreadWaits τ ι where
  thread _ := none
  current _ := none
  entry _ := none
  pc x := if main x then .free else .absent

/-- A thread in a wait. -/
def Waits (s : ThreadWaits τ ι) (x : τ) (o : ι) (w : ThreadWait) : Prop :=
  s.pc x = .asleep o w ∨ ∃ ret, s.pc x = .up o w ret

section
variable [Fintype τ] [DecidableEq τ] [DecidableEq ι]

def setThread (s : ThreadWaits τ ι) (o : ι) (t : Thread) : ThreadWaits τ ι :=
  { s with thread := Function.update s.thread o (some t) }

def goto (s : ThreadWaits τ ι) (x : τ) (pc : WaiterPc ι) : ThreadWaits τ ι :=
  { s with pc := Function.update s.pc x pc }

/-- A wait has come to this: a return, or a block. -/
def afterWait (s : ThreadWaits τ ι) (x : τ) (o : ι) (w : ThreadWait) (r : Thread × Option Bool) :
    ThreadWaits τ ι :=
  (s.setThread o r.1).goto x (if r.2 = none then .asleep o w else .free)

/-- `pthread_cond_signal`: it wakes one of those that sleep, if any do. -/
def condSignal (s : ThreadWaits τ ι) (o : ι) : Option τ → Option (ThreadWaits τ ι)
  | none => if ∀ x, (s.pc x).sleepsOn o = false then some s else none
  | some x =>
      match s.pc x with
      | .asleep p w => if p = o then some (s.goto x (.up o w .woken)) else none
      | _ => none

def step (s : ThreadWaits τ ι) : WaitsAct τ ι → Option (ThreadWaits τ ι)
  | .start x o t =>
      if s.thread o = none ∧ s.pc x = .absent then
        some { (s.setThread o t).goto x .entering with
          entry := Function.update s.entry x (some o) }
      else none
  | .enter x =>
      if s.pc x = .entering then
        some { s.goto x .free with current := Function.update s.current x (s.entry x) }
      else none
  | .registerMainThread x o t =>
      if s.thread o = none ∧ s.pc x = .free then
        some { s.setThread o t with current := Function.update s.current x (some o) }
      else none
  | .stop o =>
      -- the thread that it was created for is cancelled and joined
      if s.thread o = none then none
      else some {
        thread := Function.update s.thread o none
        current x := if s.entry x = some o then none else s.current x
        entry x := if s.entry x = some o then none else s.entry x
        pc x := if s.entry x = some o then .absent else s.pc x }
  | .signal o events woken =>
      (s.thread o).bind fun t =>
        if events &&& t.registeredEvents = 0 then some s
        else (s.setThread o (t.signal events)).condSignal o woken
  | .registerEvt o => (s.thread o).map fun t => s.setThread o t.registerEvt.2
  | .unregisterEvt o id => (s.thread o).map fun t => s.setThread o (t.unregisterEvt id)
  | .wait x w =>
      if s.pc x = .free then
        match s.current x with
        | none => some s
        | some o => (s.thread o).map fun t => s.afterWait x o w (w.enter t)
      else none
  | .waitOn x o w =>
      if s.pc x = .free then (s.thread o).map fun t => s.afterWait x o w (w.enter t) else none
  | .back x ret =>
      match s.pc x with
      | .asleep o w => some (s.goto x (.up o w ret))
      | _ => none
  | .resume x =>
      match s.pc x with
      | .up o w ret => (s.thread o).map fun t => s.afterWait x o w (w.resume t ret)
      | _ => none

def machine : Machine (ThreadWaits τ ι) (WaitsAct τ ι) := ⟨step⟩

/-- **Whoever waits, waits on a `Thread` that is there, and gets out alone** once what it waits for
has been signalled: it is not asleep, and returns from the round it is in. -/
def LeavesAlone (s : ThreadWaits τ ι) : Prop :=
  ∀ x o w, s.Waits x o w → ∃ t, s.thread o = some t ∧
    (w.Met t → ∃ u, s.step (.resume x) = some u ∧ u.pc x = .free)

/-- **The waits are on the callers' own `Thread`s**, and none is stopped that another thread still
has as its own. -/
def OwnWaits (s : ThreadWaits τ ι) : WaitsAct τ ι → Prop
  | .waitOn x o _ => s.current x = some o
  | .stop o => ∀ x, s.current x = some o → s.entry x = some o
  | _ => True

end

/-! ## The invariant -/

/-- `o` is what `x` has as its own, or was created for. -/
def Holds (s : ThreadWaits τ ι) (x : τ) (o : ι) : Prop := s.current x = some o ∨ s.entry x = some o

/-- **The invariant.** -/
structure Inv (s : ThreadWaits τ ι) : Prop where
  there : ∀ x o, s.Holds x o → ∃ t, s.thread o = some t
  same : ∀ x y o, s.Holds x o → s.Holds y o → x = y
  own : ∀ x o w, s.Waits x o w → s.current x = some o
  /-- whoever sleeps has nothing to get up for -/
  unmet : ∀ x o w t, s.pc x = .asleep o w → s.thread o = some t → ¬ w.Met t

variable {s u : ThreadWaits τ ι} {x y : τ} {o p : ι} {t : Thread} {w : ThreadWait}

theorem inv_start (main : τ → Bool) : Inv (start main : ThreadWaits τ ι) := by
  have hpc (x : τ) : (start main : ThreadWaits τ ι).pc x = .free ∨
      (start main : ThreadWaits τ ι).pc x = .absent := by
    simp only [start]
    split_ifs
    · exact .inl rfl
    · exact .inr rfl
  refine ⟨fun x o h => ?_, fun x y o h => ?_, fun x o w h => ?_, fun x o w t h => ?_⟩
  · obtain h | h := h <;> cases h
  · obtain h | h := h <;> cases h
  · obtain hx | hx := hpc x <;> obtain h | ⟨ret, h⟩ := h <;> rw [hx] at h <;> cases h
  · obtain hx | hx := hpc x <;> rw [hx] at h <;> cases h

theorem Waits.ne_free (h : s.Waits x o w) : s.pc x ≠ .free := by
  obtain h | ⟨ret, h⟩ := h <;> rw [h] <;> nofun

/-- Nobody else sleeps where a thread has its own. -/
theorem Inv.eq_of_asleep (h : Inv s) (hx : s.current x = some o) (hy : s.pc y = .asleep o w) :
    y = x :=
  h.same y x o (.inl (h.own y o w (.inl hy))) (.inl hx)

/-- Nobody comes to have another `Thread`, and whoever waits is where it was. -/
theorem Inv.keep (h : Inv s)
    (hholds : ∀ x o, u.Holds x o → s.Holds x o ∧ u.thread o = s.thread o)
    (hwaits : ∀ x o w, u.Waits x o w →
      u.pc x = s.pc x ∧ u.current x = s.current x ∧ u.thread o = s.thread o) : Inv u where
  there x o ho := by
    obtain ⟨hold, hthread⟩ := hholds x o ho
    rw [hthread]
    exact h.there x o hold
  same x y o hx hy := h.same x y o (hholds x o hx).1 (hholds y o hy).1
  own x o w hx := by
    obtain ⟨hpc, hcurrent, -⟩ := hwaits x o w hx
    rw [Waits, hpc] at hx
    rw [hcurrent]
    exact h.own x o w hx
  unmet x o w t hx ht := by
    obtain ⟨hpc, -, hthread⟩ := hwaits x o w (.inl hx)
    exact h.unmet x o w t (hpc.symm.trans hx) (hthread.symm.trans ht)

section
variable [DecidableEq ι]

@[simp] theorem setThread_thread_self (s : ThreadWaits τ ι) (o : ι) (t : Thread) :
    (s.setThread o t).thread o = some t := Function.update_self _ _ _

theorem setThread_thread_of_ne (s : ThreadWaits τ ι) (h : p ≠ o) (t : Thread) :
    (s.setThread o t).thread p = s.thread p := Function.update_of_ne h _ _

/-- The events of a `Thread` change, and nobody sleeps on it that has to get up. -/
theorem Inv.setThread (h : Inv s) (ho : s.thread o = some t) {t' : Thread}
    (hunmet : ∀ x w, s.pc x = .asleep o w → ¬ w.Met t') : Inv (s.setThread o t') where
  there x p hp := by
    obtain rfl | hne := eq_or_ne p o
    · exact ⟨t', setThread_thread_self s p t'⟩
    · rw [setThread_thread_of_ne s hne]
      exact h.there x p hp
  same := h.same
  own := h.own
  unmet x p w r hx hr := by
    obtain rfl | hne := eq_or_ne p o
    · obtain rfl := Option.some.inj ((setThread_thread_self s p t').symm.trans hr)
      exact hunmet x w hx
    · exact h.unmet x p w r hx ((setThread_thread_of_ne s hne t').symm.trans hr)

/-- A new `Thread`, which only `x` has. -/
theorem Inv.new (h : Inv s) (ho : s.thread o = none) (t : Thread) {current entry : τ → Option ι}
    {pc : τ → WaiterPc ι}
    (hholds : ∀ y p, current y = some p ∨ entry y = some p → y = x ∧ p = o ∨ s.Holds y p)
    (hwaits : ∀ y p w, (pc y = .asleep p w ∨ ∃ ret, pc y = .up p w ret) →
      s.pc y = pc y ∧ current y = s.current y) :
    Inv ⟨Function.update s.thread o (some t), current, entry, pc⟩ where
  there y p hp := by
    obtain rfl | hne := eq_or_ne p o
    · exact ⟨t, Function.update_self _ _ _⟩
    · obtain ⟨-, rfl⟩ | hold := hholds y p hp
      · exact absurd rfl hne
      · obtain ⟨r, hr⟩ := h.there y p hold
        exact ⟨r, (Function.update_of_ne hne _ _).trans hr⟩
  same y z p hy hz := by
    have hnew {y : τ} (hy : s.Holds y o) : False := by
      obtain ⟨r, hr⟩ := h.there y o hy
      rw [ho] at hr
      cases hr
    obtain ⟨rfl, rfl⟩ | hold := hholds y p hy
    · obtain ⟨rfl, -⟩ | hold := hholds z p hz
      · rfl
      · exact (hnew hold).elim
    · obtain ⟨-, rfl⟩ | hold' := hholds z p hz
      · exact (hnew hold).elim
      · exact h.same y z p hold hold'
  own y p w hy := by
    obtain ⟨hpc, hcurrent⟩ := hwaits y p w hy
    refine hcurrent.trans (h.own y p w ?_)
    rw [Waits, hpc]
    exact hy
  unmet y p w r hy hr := by
    obtain ⟨hpc, hcurrent⟩ := hwaits y p w (.inl hy)
    have hold : s.pc y = .asleep p w := hpc.trans hy
    obtain rfl | hne := eq_or_ne p o
    · obtain ⟨q, hq⟩ := h.there y p (.inl (h.own y p w (.inl hold)))
      rw [ho] at hq
      cases hq
    · exact h.unmet y p w r hold ((Function.update_of_ne hne _ _).symm.trans hr)

/-- Whoever has the `Thread` that is stopped goes with it. -/
theorem Inv.stop (h : Inv s) (hstop : ∀ x, s.current x = some o → s.entry x = some o) :
    Inv (τ := τ) {
      thread := Function.update s.thread o none
      current x := if s.entry x = some o then none else s.current x
      entry x := if s.entry x = some o then none else s.entry x
      pc x := if s.entry x = some o then .absent else s.pc x } := by
  refine h.keep (fun y p hp => ?_) fun y p w hp => ?_
  · simp only [Holds] at hp
    split_ifs at hp with hentry
    · simp at hp
    · refine ⟨hp, Function.update_of_ne ?_ _ _⟩
      rintro rfl
      obtain hp | hp := hp
      · exact hentry (hstop y hp)
      · exact hentry hp
  · simp only [Waits] at hp
    split_ifs at hp with hentry
    · simp at hp
    · refine ⟨if_neg hentry, if_neg hentry, Function.update_of_ne ?_ _ _⟩
      rintro rfl
      exact hentry (hstop y (h.own y p w hp))

end

section
variable [DecidableEq τ]

@[simp] theorem goto_pc_self (s : ThreadWaits τ ι) (x : τ) (pc : WaiterPc ι) :
    (s.goto x pc).pc x = pc := Function.update_self _ _ _

theorem goto_pc_of_ne (s : ThreadWaits τ ι) (h : y ≠ x) (pc : WaiterPc ι) :
    (s.goto x pc).pc y = s.pc y := Function.update_of_ne h _ _

/-- A thread goes on: it waits on its own, or does not wait. -/
theorem Inv.goto (h : Inv s) {pc : WaiterPc ι}
    (hown : ∀ p w, (pc = .asleep p w ∨ ∃ ret, pc = .up p w ret) → s.current x = some p)
    (hunmet : ∀ p w t, pc = .asleep p w → s.thread p = some t → ¬ w.Met t) : Inv (s.goto x pc) where
  there := h.there
  same := h.same
  own y p w hy := by
    obtain rfl | hne := eq_or_ne y x
    · rw [Waits, goto_pc_self] at hy
      exact hown p w hy
    · rw [Waits, goto_pc_of_ne s hne] at hy
      exact h.own y p w hy
  unmet y p w r hy hr := by
    obtain rfl | hne := eq_or_ne y x
    · exact hunmet p w r ((goto_pc_self s y pc).symm.trans hy) hr
    · exact h.unmet y p w r ((goto_pc_of_ne s hne pc).symm.trans hy) hr

/-- A condition wait comes back. -/
theorem Inv.up (h : Inv s) (hx : s.pc x = .asleep o w) (ret : CondRet) :
    Inv (s.goto x (.up o w ret)) := by
  refine h.goto (fun p v hp => ?_) fun p v t hp => ?_
  · obtain hp | ⟨ret, hp⟩ := hp <;> cases hp
    exact h.own x o w (.inl hx)
  · cases hp

theorem Inv.enter (h : Inv s) (x : τ) :
    Inv { s.goto x .free with current := Function.update s.current x (s.entry x) } := by
  refine h.keep (fun y p hp => ⟨?_, rfl⟩) fun y p w hp => ?_
  · obtain rfl | hne := eq_or_ne y x
    · obtain hp | hp := hp
      · exact .inr ((Function.update_self y (s.entry y) s.current).symm.trans hp)
      · exact .inr hp
    · obtain hp | hp := hp
      · exact .inl ((Function.update_of_ne hne (s.entry x) s.current).symm.trans hp)
      · exact .inr hp
  · obtain rfl | hne := eq_or_ne y x
    · exact absurd (goto_pc_self s y .free) hp.ne_free
    · exact ⟨goto_pc_of_ne s hne .free, Function.update_of_ne hne _ _, rfl⟩

variable [DecidableEq ι]

/-- **A wait on the caller's own `Thread`** comes to something. -/
theorem Inv.afterWait (h : Inv s) (ho : s.thread o = some t) (hx : s.current x = some o)
    (hpc : ∀ w, s.pc x ≠ .asleep o w) {r : Thread × Option Bool}
    (hr : r.2 = none → ¬ w.Met r.1) : Inv (s.afterWait x o w r) := by
  have hset : Inv (s.setThread o r.1) := h.setThread ho fun y w hy => by
    obtain rfl := h.eq_of_asleep hx hy
    exact absurd hy (hpc w)
  refine hset.goto (fun p w hp => ?_) fun p w t hp ht => ?_
  · split_ifs at hp with hnone
    · obtain hp | ⟨ret, hp⟩ := hp <;> cases hp
      exact hx
    · obtain hp | ⟨ret, hp⟩ := hp <;> cases hp
  · split_ifs at hp with hnone
    cases hp
    obtain rfl := Option.some.inj ((setThread_thread_self s o r.1).symm.trans ht)
    exact hr hnone

theorem Inv.start (h : Inv s) (ho : s.thread o = none) (x : τ) (t : Thread) :
    Inv { (s.setThread o t).goto x .entering with
      entry := Function.update s.entry x (some o) } := by
  refine h.new (x := x) ho t (fun y p hp => ?_) fun y p w hp => ?_
  · obtain rfl | hne := eq_or_ne y x
    · obtain hp | hp := hp
      · exact .inr (.inl hp)
      · rw [Function.update_self] at hp
        exact .inl ⟨rfl, (Option.some.inj hp).symm⟩
    · rw [Function.update_of_ne hne] at hp
      exact .inr hp
  · obtain rfl | hne := eq_or_ne y x
    · rw [goto_pc_self] at hp
      obtain hp | ⟨ret, hp⟩ := hp <;> cases hp
    · exact ⟨(goto_pc_of_ne _ hne .entering).symm, rfl⟩

theorem Inv.registerMainThread (h : Inv s) (ho : s.thread o = none) (hx : s.pc x = .free)
    (t : Thread) :
    Inv { s.setThread o t with current := Function.update s.current x (some o) } := by
  refine h.new (x := x) ho t (fun y p hp => ?_) fun y p w hp => ⟨rfl, ?_⟩
  · obtain rfl | hne := eq_or_ne y x
    · obtain hp | hp := hp
      · rw [Function.update_self] at hp
        exact .inl ⟨rfl, (Option.some.inj hp).symm⟩
      · exact .inr (.inr hp)
    · rw [Function.update_of_ne hne] at hp
      exact .inr hp
  · refine Function.update_of_ne ?_ _ _
    rintro rfl
    exact Waits.ne_free hp hx

variable [Fintype τ] {a : WaitsAct τ ι}

/-- The one that is woken has the `Thread` as its own, and nobody else sleeps there. -/
theorem Inv.signal (h : Inv s) (ho : s.thread o = some t) {t' : Thread} {woken : Option τ}
    (hst : (s.setThread o t').condSignal o woken = some u) : Inv u := by
  cases woken with
  | none =>
    simp only [condSignal] at hst
    split_ifs at hst with hnobody
    obtain rfl := Option.some.inj hst
    refine h.setThread ho fun x w hx => ?_
    have hsleeps : (s.pc x).sleepsOn o = true := by rw [hx, WaiterPc.sleepsOn, decide_eq_true rfl]
    exact absurd (hnobody x) (by simp [ThreadWaits.setThread, hsleeps])
  | some x =>
    simp only [condSignal] at hst
    split at hst
    · rename_i p w hx
      split_ifs at hst with hp
      obtain rfl := Option.some.inj hst
      subst hp
      have hown := h.own x p w (.inl hx)
      -- all but the sleeper on `p` are as before, and that one gets up
      have hup : Inv (s.goto x (.up p w .woken)) := by
        refine h.goto (fun q v hq => ?_) nofun
        obtain hq | ⟨ret, hq⟩ := hq <;> cases hq
        exact hown
      refine hup.setThread ho fun y v hy => ?_
      obtain rfl | hne := eq_or_ne y x
      · rw [goto_pc_self] at hy
        cases hy
      · rw [goto_pc_of_ne s hne] at hy
        exact absurd (h.eq_of_asleep hown hy) hne
    · cases hst

/-- **Every action keeps the invariant**, if the waits are on the callers' own `Thread`s. -/
theorem Inv.step (h : Inv s) (ha : s.OwnWaits a) (hst : s.step a = some u) : Inv u := by
  cases a with
  | start x o t =>
    simp only [ThreadWaits.step] at hst
    split_ifs at hst with hnew
    obtain rfl := Option.some.inj hst
    exact h.start hnew.1 x t
  | enter x =>
    simp only [ThreadWaits.step] at hst
    split_ifs at hst
    obtain rfl := Option.some.inj hst
    exact h.enter x
  | registerMainThread x o t =>
    simp only [ThreadWaits.step] at hst
    split_ifs at hst with hnew
    obtain rfl := Option.some.inj hst
    exact h.registerMainThread hnew.1 hnew.2 t
  | stop o =>
    simp only [ThreadWaits.step] at hst
    split_ifs at hst
    obtain rfl := Option.some.inj hst
    exact h.stop ha
  | signal o events woken =>
    obtain ⟨t, ho, hst⟩ := Option.bind_eq_some_iff.mp hst
    split_ifs at hst
    · obtain rfl := Option.some.inj hst
      exact h
    · exact h.signal ho hst
  | registerEvt o =>
    obtain ⟨t, ho, rfl⟩ := Option.map_eq_some_iff.mp hst
    refine h.setThread ho fun x w hx => ?_
    exact fun hmet =>
      h.unmet x o w t hx ho ((ThreadWait.met_congr t.signalledEvents_registerEvt).mp hmet)
  | unregisterEvt o id =>
    obtain ⟨t, ho, rfl⟩ := Option.map_eq_some_iff.mp hst
    refine h.setThread ho fun x w hx => ?_
    exact fun hmet => h.unmet x o w t hx ho ((ThreadWait.met_congr rfl).mp hmet)
  | wait x w =>
    simp only [ThreadWaits.step] at hst
    split_ifs at hst with hx
    split at hst
    · obtain rfl := Option.some.inj hst
      exact h
    · rename_i o hcurrent
      obtain ⟨t, ho, rfl⟩ := Option.map_eq_some_iff.mp hst
      exact h.afterWait ho hcurrent (fun v hv => by simp [hx] at hv) ThreadWait.not_met_enter
  | waitOn x o w =>
    simp only [ThreadWaits.step] at hst
    split_ifs at hst with hx
    obtain ⟨t, ho, rfl⟩ := Option.map_eq_some_iff.mp hst
    exact h.afterWait ho ha (fun v hv => by simp [hx] at hv) ThreadWait.not_met_enter
  | back x ret =>
    simp only [ThreadWaits.step] at hst
    split at hst
    · rename_i o w hx
      obtain rfl := Option.some.inj hst
      exact h.up hx ret
    · cases hst
  | resume x =>
    simp only [ThreadWaits.step] at hst
    split at hst
    · rename_i o w ret hx
      obtain ⟨t, ho, rfl⟩ := Option.map_eq_some_iff.mp hst
      exact h.afterWait ho (h.own x o w (.inr ⟨ret, hx⟩)) (fun v hv => by simp [hx] at hv)
        ThreadWait.not_met_resume
    · cases hst

/-- A thread that has what it waits for is up, and returns. -/
theorem Inv.leavesAlone (h : Inv s) : s.LeavesAlone := by
  intro x o w hx
  obtain ⟨t, ho⟩ := h.there x o (.inl (h.own x o w hx))
  refine ⟨t, ho, fun hmet => ?_⟩
  obtain hx | ⟨ret, hx⟩ := hx
  · exact absurd hmet (h.unmet x o w t hx ho)
  · refine ⟨s.afterWait x o w (w.resume t ret), ?_, ?_⟩
    · simp only [ThreadWaits.step, hx, ho, Option.map_some]
    · exact (goto_pc_self _ x _).trans (if_neg (ThreadWait.resume_of_met hmet))

/-- **Whoever waits for what has been signalled gets out of the wait by itself**, in every
interleaving, whoever is woken by each signal, as long as the waits are on the callers' own
`Thread`s. -/
theorem always_leavesAlone (main : τ → Bool) (as : List (WaitsAct τ ι))
    (h : machine.Along OwnWaits (start main) as) : machine.Always LeavesAlone (start main) as :=
  (Machine.always_of_along (inv_start main) (fun _ _ _ hs ha hst => hs.step ha hst) h).mono
    fun _ => Inv.leavesAlone

end

/-- The main thread makes another, which waits for its event; it is signalled. -/
def signalled : List (WaitsAct Bool Bool) :=
  [.registerMainThread false false ⟨0, 0⟩, .start true true ⟨0, 0⟩, .enter true, .registerEvt true,
    .wait true (.any 1), .signal true 1 (some true)]

theorem always_leavesAlone_signalled : ∃ s : ThreadWaits Bool Bool,
    machine.run (start not) signalled = some s ∧ s.pc true = .up true (.any 1) .woken ∧
      s.LeavesAlone := by
  have hup : (machine.run (start not) signalled).map (fun s => s.pc true)
      = some (.up true (.any 1) .woken) := by decide
  obtain ⟨s, hrun, hpc⟩ := Option.map_eq_some_iff.mp hup
  have halong : machine.Along OwnWaits (start not : ThreadWaits Bool Bool) signalled :=
    Machine.along_of_forall_mem fun a ha s => by
      simp only [signalled, List.mem_cons, List.not_mem_nil, or_false] at ha
      obtain rfl | rfl | rfl | rfl | rfl | rfl := ha <;> trivial
  exact ⟨s, hrun, hpc, (always_leavesAlone not signalled halong).of_run hrun⟩

/-- Another thread waits on the main thread's `Thread` for an event of its own, and the main thread
is woken by it. -/
def shared : List (WaitsAct Bool Bool) :=
  [.registerMainThread false false ⟨0, 0⟩, .registerEvt false, .registerEvt false,
    .wait false (.any 1), .waitOn true false (.any 2), .signal false 2 (some false)]

/-- **A thread that waits on another's** sleeps on beside its event. -/
theorem not_leavesAlone_shared : ∃ s : ThreadWaits Bool Bool,
    machine.run (start fun _ => true) shared = some s ∧ ¬ s.LeavesAlone := by
  have hend : (machine.run (start fun _ => true) shared).map
      (fun s => (s.pc true, s.thread false)) = some (.asleep false (.any 2), some ⟨3, 2⟩) := by
    decide
  obtain ⟨s, hrun, hs⟩ := Option.map_eq_some_iff.mp hend
  obtain ⟨hpc, hthread⟩ := Prod.mk.inj hs
  refine ⟨s, hrun, fun h => ?_⟩
  obtain ⟨t, ht, hleaves⟩ := h true false (.any 2) (.inl hpc)
  obtain rfl := Option.some.inj (hthread.symm.trans ht)
  obtain ⟨u, hu, -⟩ := hleaves (show (2 : EventMask) &&& 2 ≠ 0 by decide)
  simp only [step, hpc] at hu
  cases hu

end ThreadWaits

end LibDronecan
