import Mathlib.Algebra.BigOperators.Group.Finset.Basic
import Mathlib.Algebra.Order.BigOperators.Group.Finset
import Mathlib.Data.Fintype.EquivFin
import LibDronecan.Machinery.Deadlock

/-!
# Pal/WorkerLocks — the semaphores of workers, and who waits for whom

    run:   locking ──pass──▸ passing ─▸ choosing ─▸ scanning ─▸ entering ─▸ checking ─▸ sleeping
              ▲               │   ▲                                ▲         │             │
              │               ▼   │                                ╰─────────│─────────────╯
              │               inside                                         │
              ╰──────────────────────────────────────────────────────────────╯

`run` holds `sem` of its worker while it calls the objects' functions, and these call other workers,
whose functions may be calling back.  Every other semaphore is held for a few statements that wait
for nothing.  So all semaphores can become free from wherever the workers are just if no circle of
them calls from each to the next (`always_quiet_iff`).

Events and times are not in the state.  Which objects are due or signalled decides which calls a
pass makes, and in what order: a pass makes any sequence of calls in `passes`, and once it has begun
it leaves none out.  What is pending decides how `wait_any` goes on from its test: either way, as
`check` says.  The calls are those that return; `start`, which takes the semaphore of the list of
threads inside that of the worker, is left out.
-/

open Machinery Relation

namespace LibDronecan

/-- A semaphore: `sem` of a `Worker`, or of its `Thread`. -/
inductive Sem (κ : Type*) where
  | worker (w : κ)
  | thread (w : κ)
  deriving DecidableEq

/-- Where the thread of a worker is in `run`. -/
inductive RunnerPc (κ : Type*) where
  /-- about to take `sem` for a pass -/
  | locking
  /-- in a pass, whose functions have still to make these calls, each taking a semaphore -/
  | passing (todo : List (Sem κ))
  /-- …in a call, with its semaphore -/
  | inside (l : Sem κ) (todo : List (Sem κ))
  /-- in `get_next_trigger_us`, about to take `sem` -/
  | choosing
  | scanning
  /-- in `wait_any`, about to take `sem` of the thread -/
  | entering
  | checking
  /-- in `pthread_cond_timedwait` -/
  | sleeping
  deriving DecidableEq

/-- The semaphores the thread of `w` holds there. -/
def RunnerPc.holds {κ : Type*} (w : κ) : RunnerPc κ → Set (Sem κ)
  | passing _ | scanning => {.worker w}
  | inside l _ => {l, .worker w}
  | checking => {.thread w}
  | locking | choosing | entering | sleeping => ∅

/-- The calls that are left of a pass. -/
def RunnerPc.todo {κ : Type*} : RunnerPc κ → List (Sem κ)
  | passing todo | inside _ todo => todo
  | locking | choosing | scanning | entering | checking | sleeping => []

/-- How many steps are left until it holds nothing. -/
def RunnerPc.left {κ : Type*} : RunnerPc κ → ℕ
  | locking | choosing | entering | sleeping => 0
  | scanning | checking => 1
  | passing todo => 2 * todo.length + 1
  | inside _ todo => 2 * todo.length + 2

/-- Where another thread is, which calls a worker or signals it. -/
inductive OtherPc (κ : Type*) where
  | away
  | asking (l : Sem κ)
  | inside (l : Sem κ)
  deriving DecidableEq

def OtherPc.holds {κ : Type*} : OtherPc κ → Set (Sem κ)
  | away | asking _ => ∅
  | inside l => {l}

/-- How many steps are left, at most, to be away. -/
def OtherPc.left {κ : Type*} : OtherPc κ → ℕ
  | away => 0
  | inside _ => 1
  | asking _ => 2

/-- The threads of the workers `κ` and the other threads `ι`, and who holds which semaphore. -/
structure WorkerLocks (κ ι : Type*) where
  holder : Sem κ → Option (κ ⊕ ι)
  runner : κ → RunnerPc κ
  other : ι → OtherPc κ

inductive LockAct (κ ι : Type*) where
  /-- a worker takes `sem` for a pass that makes these calls -/
  | pass (w : κ) (todo : List (Sem κ))
  /-- its thread goes on -/
  | turn (w : κ)
  /-- …in `wait_any`, with an event pending or none -/
  | check (w : κ) (pending : Bool)
  /-- another thread calls -/
  | ask (i : ι) (l : Sem κ)
  /-- …and goes on -/
  | move (i : ι)

namespace WorkerLocks

variable {κ ι : Type*} [DecidableEq κ] [DecidableEq ι]

/-- Every worker is started. -/
def start : WorkerLocks κ ι := ⟨fun _ => none, fun _ => .locking, fun _ => .away⟩

/-- `pthread_mutex_lock` on a recursive mutex, where it does not block. -/
def take (s : WorkerLocks κ ι) (x : κ ⊕ ι) (l : Sem κ) : Option (Sem κ → Option (κ ⊕ ι)) :=
  if s.holder l = none ∨ s.holder l = some x then some (Function.update s.holder l (some x))
  else none

/-- `pthread_mutex_unlock`. -/
def give (s : WorkerLocks κ ι) (l : Sem κ) : Sem κ → Option (κ ⊕ ι) :=
  Function.update s.holder l none

def goto (s : WorkerLocks κ ι) (w : κ) (pc : RunnerPc κ) (holder : Sem κ → Option (κ ⊕ ι)) :
    WorkerLocks κ ι :=
  { s with holder := holder, runner := Function.update s.runner w pc }

def gotoOther (s : WorkerLocks κ ι) (i : ι) (pc : OtherPc κ) (holder : Sem κ → Option (κ ⊕ ι)) :
    WorkerLocks κ ι :=
  { s with holder := holder, other := Function.update s.other i pc }

/-- What the thread of `w` does next, where nothing but the semaphores decides.  A worker function
that calls its own worker leaves with `sem` still taken once. -/
def turn (s : WorkerLocks κ ι) (w : κ) : Option (WorkerLocks κ ι) :=
  match s.runner w with
  | .locking | .checking => none
  | .passing [] => some (s.goto w .choosing (s.give (.worker w)))
  | .passing (l :: todo) => (s.take (.inl w) l).map (s.goto w (.inside l todo))
  | .inside l todo =>
      some (s.goto w (.passing todo) (if l = .worker w then s.holder else s.give l))
  | .choosing => (s.take (.inl w) (.worker w)).map (s.goto w .scanning)
  | .scanning => some (s.goto w .entering (s.give (.worker w)))
  | .entering => (s.take (.inl w) (.thread w)).map (s.goto w .checking)
  | .sleeping => some (s.goto w .entering s.holder)

/-- `passes w todo`: the functions of the objects of `w` may make these calls, in this order, in a
pass. -/
def step (passes : κ → List (Sem κ) → Bool) (s : WorkerLocks κ ι) :
    LockAct κ ι → Option (WorkerLocks κ ι)
  | .pass w todo =>
    if s.runner w = .locking ∧ passes w todo = true then
      (s.take (.inl w) (.worker w)).map (s.goto w (.passing todo))
    else none
  | .turn w => s.turn w
  | .check w pending =>
    if s.runner w = .checking then
      some (s.goto w (if pending then .locking else .sleeping) (s.give (.thread w)))
    else none
  | .ask i l => if s.other i = .away then some (s.gotoOther i (.asking l) s.holder) else none
  | .move i =>
    match s.other i with
    | .away => none
    | .asking l => (s.take (.inr i) l).map (s.gotoOther i (.inside l))
    | .inside l => some (s.gotoOther i .away (s.give l))

def machine (passes : κ → List (Sem κ) → Bool) : Machine (WorkerLocks κ ι) (LockAct κ ι) :=
  ⟨step passes⟩

/-- No semaphore is held, every worker is between its passes, and every call has returned. -/
structure Quiet (s : WorkerLocks κ ι) : Prop where
  holder : ∀ l, s.holder l = none
  runner : ∀ w, (s.runner w).holds w = ∅
  other : ∀ i, s.other i = .away

/-- What has begun goes on: no further pass or call, and each `wait_any` as what is pending has
it. -/
def GoesOn (pending : κ → Bool) : LockAct κ ι → Prop
  | .pass _ _ | .ask _ _ => False
  | .turn _ | .move _ => True
  | .check w b => b = pending w

/-- A function of an object of `w` makes a call that takes `l`, in some pass. -/
def Calls (passes : κ → List (Sem κ) → Bool) (w : κ) (l : Sem κ) : Prop :=
  ∃ todo, passes w todo = true ∧ l ∈ todo

/-- …a call on the worker `v`. -/
def CallsInto (passes : κ → List (Sem κ) → Bool) (w v : κ) : Prop :=
  w ≠ v ∧ Calls passes w (.worker v)

/-! ## Who holds what -/

variable {passes : κ → List (Sem κ) → Bool} {s t : WorkerLocks κ ι} {w : κ} {i : ι} {l : Sem κ}
  {h : Sem κ → Option (κ ⊕ ι)}

theorem take_eq_some {x : κ ⊕ ι} (htake : s.take x l = some h) :
    (s.holder l = none ∨ s.holder l = some x) ∧ h = Function.update s.holder l (some x) := by
  rw [take] at htake
  split_ifs at htake with hfree
  exact ⟨hfree, (Option.some.inj htake).symm⟩

theorem take_eq_none {x : κ ⊕ ι} (htake : s.take x l = none) :
    ∃ y, s.holder l = some y ∧ y ≠ x := by
  rw [take] at htake
  split_ifs at htake with hfree
  cases hl : s.holder l with
  | none => exact absurd (.inl hl) hfree
  | some y => exact ⟨y, rfl, fun hy => hfree (.inr (hy ▸ hl))⟩

/-- What a thread holds. -/
def owns (s : WorkerLocks κ ι) : κ ⊕ ι → Set (Sem κ)
  | .inl w => (s.runner w).holds w
  | .inr i => (s.other i).holds

theorem owns_goto (pc : RunnerPc κ) :
    (s.goto w pc h).owns = Function.update s.owns (.inl w) (pc.holds w) := by
  funext x
  cases x with
  | inl v =>
    obtain rfl | hv := eq_or_ne v w
    · simp [owns, goto]
    · simp [owns, goto, hv]
  | inr j => simp [owns, goto]

theorem owns_gotoOther (pc : OtherPc κ) :
    (s.gotoOther i pc h).owns = Function.update s.owns (.inr i) pc.holds := by
  funext x
  cases x with
  | inl v => simp [owns, gotoOther]
  | inr j =>
    obtain rfl | hj := eq_or_ne j i
    · simp [owns, gotoOther]
    · simp [owns, gotoOther, hj]

/-- **Mutual exclusion**: a semaphore has the holder whose code is between taking and giving it. -/
structure Inv (passes : κ → List (Sem κ) → Bool) (s : WorkerLocks κ ι) : Prop where
  owned : Owned s.holder s.owns
  calls : ∀ w, ∀ l ∈ (s.runner w).todo, Calls passes w l

omit [DecidableEq κ] [DecidableEq ι] in
theorem inv_start : Inv passes (start : WorkerLocks κ ι) where
  owned _ x := ⟨nofun, fun hx => by cases x <;> exact hx.elim⟩
  calls _ _ hl := absurd hl List.not_mem_nil

omit [DecidableEq ι] in
theorem Inv.calls_goto (hs : Inv passes s) {pc : RunnerPc κ}
    (hcalls : ∀ l ∈ pc.todo, Calls passes w l) (v : κ) :
    ∀ l ∈ ((s.goto w pc h).runner v).todo, Calls passes v l := by
  obtain rfl | hv := eq_or_ne v w
  · simpa [goto] using hcalls
  · simpa [goto, hv] using hs.calls v

/-- The thread of `w` goes on with the semaphores it has. -/
theorem Inv.goto (hs : Inv passes s) {pc : RunnerPc κ} (hholds : pc.holds w = (s.runner w).holds w)
    (hcalls : ∀ l ∈ pc.todo, Calls passes w l) : Inv passes (s.goto w pc s.holder) := by
  refine ⟨?_, hs.calls_goto hcalls⟩
  rw [owns_goto, hholds, show (s.runner w).holds w = s.owns (.inl w) from rfl,
    Function.update_eq_self]
  exact hs.owned

/-- …with one more. -/
theorem Inv.goto_take (hs : Inv passes s) {pc : RunnerPc κ} (htake : s.take (.inl w) l = some h)
    (hholds : pc.holds w = insert l ((s.runner w).holds w))
    (hcalls : ∀ l ∈ pc.todo, Calls passes w l) : Inv passes (s.goto w pc h) := by
  obtain ⟨hfree, rfl⟩ := take_eq_some htake
  refine ⟨?_, hs.calls_goto hcalls⟩
  rw [owns_goto, hholds]
  exact hs.owned.take hfree

/-- …with one less. -/
theorem Inv.goto_give (hs : Inv passes s) {pc : RunnerPc κ} (hl : l ∈ (s.runner w).holds w)
    (hholds : pc.holds w = (s.runner w).holds w \ {l})
    (hcalls : ∀ l ∈ pc.todo, Calls passes w l) : Inv passes (s.goto w pc (s.give l)) := by
  refine ⟨?_, hs.calls_goto hcalls⟩
  rw [owns_goto, hholds]
  exact hs.owned.give hl

omit [DecidableEq κ] in
theorem calls_of_todo_eq_nil {pc : RunnerPc κ} (hpc : pc.todo = []) :
    ∀ l ∈ pc.todo, Calls passes w l := by
  rw [hpc]
  exact fun _ hl => absurd hl List.not_mem_nil

theorem Inv.turn (hs : Inv passes s) (hst : s.turn w = some t) : Inv passes t := by
  have hcalls := hs.calls w
  rw [WorkerLocks.turn] at hst
  cases hpc : s.runner w with
  | locking | checking =>
    rw [hpc] at hst
    cases hst
  | passing todo =>
    rw [hpc] at hst hcalls
    cases todo with
    | nil =>
      obtain rfl := Option.some.inj hst
      exact hs.goto_give (by simp [hpc, RunnerPc.holds]) (by simp [hpc, RunnerPc.holds])
        (calls_of_todo_eq_nil rfl)
    | cons l todo =>
      obtain ⟨h, htake, rfl⟩ := Option.map_eq_some_iff.mp hst
      exact hs.goto_take htake (by simp [hpc, RunnerPc.holds])
        fun m hm => hcalls m (List.mem_cons_of_mem l hm)
  | inside l todo =>
    rw [hpc] at hst hcalls
    obtain rfl := Option.some.inj hst
    split_ifs with hl
    · exact hs.goto (by simp [hpc, RunnerPc.holds, hl]) hcalls
    · refine hs.goto_give (by simp [hpc, RunnerPc.holds]) ?_ hcalls
      have hnot : l ∉ RunnerPc.holds w (RunnerPc.passing todo) := hl
      rw [hpc]
      exact (Set.insert_sdiff_self_of_notMem hnot).symm
  | choosing =>
    rw [hpc] at hst
    obtain ⟨h, htake, rfl⟩ := Option.map_eq_some_iff.mp hst
    exact hs.goto_take htake (by simp [hpc, RunnerPc.holds]) (calls_of_todo_eq_nil rfl)
  | scanning =>
    rw [hpc] at hst
    obtain rfl := Option.some.inj hst
    exact hs.goto_give (by simp [hpc, RunnerPc.holds]) (by simp [hpc, RunnerPc.holds])
      (calls_of_todo_eq_nil rfl)
  | entering =>
    rw [hpc] at hst
    obtain ⟨h, htake, rfl⟩ := Option.map_eq_some_iff.mp hst
    exact hs.goto_take htake (by simp [hpc, RunnerPc.holds]) (calls_of_todo_eq_nil rfl)
  | sleeping =>
    rw [hpc] at hst
    obtain rfl := Option.some.inj hst
    exact hs.goto (by simp [hpc, RunnerPc.holds]) (calls_of_todo_eq_nil rfl)

theorem Inv.move (hs : Inv passes s) (hst : step passes s (.move i) = some t) : Inv passes t := by
  rw [step] at hst
  cases hpc : s.other i with
  | away =>
    rw [hpc] at hst
    cases hst
  | asking l =>
    rw [hpc] at hst
    obtain ⟨h, htake, rfl⟩ := Option.map_eq_some_iff.mp hst
    obtain ⟨hfree, rfl⟩ := take_eq_some htake
    refine ⟨?_, hs.calls⟩
    rw [owns_gotoOther, show OtherPc.holds (.inside l) = insert l (s.owns (.inr i)) by
      simp [owns, hpc, OtherPc.holds]]
    exact hs.owned.take hfree
  | inside l =>
    rw [hpc] at hst
    obtain rfl := Option.some.inj hst
    refine ⟨?_, hs.calls⟩
    rw [owns_gotoOther, show OtherPc.holds .away = s.owns (.inr i) \ {l} by
      simp [owns, hpc, OtherPc.holds]]
    exact hs.owned.give (by simp [owns, hpc, OtherPc.holds])

theorem Inv.step (hs : Inv passes s) {a : LockAct κ ι} (hst : step passes s a = some t) :
    Inv passes t := by
  cases a with
  | pass w todo =>
    rw [WorkerLocks.step] at hst
    split_ifs at hst with hpass
    obtain ⟨h, htake, rfl⟩ := Option.map_eq_some_iff.mp hst
    exact hs.goto_take htake (by simp [hpass.1, RunnerPc.holds]) fun l hl => ⟨todo, hpass.2, hl⟩
  | turn w => exact hs.turn hst
  | check w pending =>
    rw [WorkerLocks.step] at hst
    split_ifs at hst with hpc
    all_goals
      obtain rfl := Option.some.inj hst
      exact hs.goto_give (by simp [hpc, RunnerPc.holds]) (by simp [hpc, RunnerPc.holds])
        (calls_of_todo_eq_nil rfl)
  | ask i l =>
    rw [WorkerLocks.step] at hst
    split_ifs at hst with hpc
    obtain rfl := Option.some.inj hst
    refine ⟨?_, hs.calls⟩
    rw [owns_gotoOther, show OtherPc.holds (.asking l) = s.owns (.inr i) by
      simp [owns, hpc, OtherPc.holds], Function.update_eq_self]
    exact hs.owned
  | move i => exact hs.move hst

/-! ## Without a circle -/

section Quiet

variable [Fintype κ] [Fintype ι]

def left (s : WorkerLocks κ ι) : ℕ := ∑ w, (s.runner w).left + ∑ i, (s.other i).left

omit [DecidableEq ι] in
theorem left_goto_lt {pc : RunnerPc κ} (hlt : pc.left < (s.runner w).left) :
    (s.goto w pc h).left < s.left := by
  refine Nat.add_lt_add_right (Finset.sum_lt_sum (fun v _ => ?_) ⟨w, Finset.mem_univ w, ?_⟩) _
  · obtain rfl | hv := eq_or_ne v w
    · simpa [goto] using hlt.le
    · simp [goto, hv]
  · simpa [goto] using hlt

omit [DecidableEq κ] in
theorem left_gotoOther_lt {pc : OtherPc κ} (hlt : pc.left < (s.other i).left) :
    (s.gotoOther i pc h).left < s.left := by
  refine Nat.add_lt_add_left (Finset.sum_lt_sum (fun j _ => ?_) ⟨i, Finset.mem_univ i, ?_⟩) _
  · obtain rfl | hj := eq_or_ne j i
    · simpa [gotoOther] using hlt.le
    · simp [gotoOther, hj]
  · simpa [gotoOther] using hlt

variable {pending : κ → Bool}

/-- The next step of a thread that holds something and does not wait brings it closer to the end of
that. -/
def Forward (passes : κ → List (Sem κ) → Bool) (pending : κ → Bool) (s : WorkerLocks κ ι) : Prop :=
  ∃ a t, GoesOn pending a ∧ step passes s a = some t ∧ t.left < s.left

theorem forward_of_turn {pc : RunnerPc κ} (hturn : s.turn w = some (s.goto w pc h))
    (hlt : pc.left < (s.runner w).left) : Forward passes pending s :=
  ⟨.turn w, _, trivial, hturn, left_goto_lt hlt⟩

/-- If there is no step forward, a worker is between its passes, or waits in one for what another
thread has. -/
theorem runner_of_not_forward (hforward : ¬Forward passes pending s) (w : κ) :
    (s.runner w).holds w = ∅ ∨
      ∃ l todo x, s.runner w = .passing (l :: todo) ∧ s.holder l = some x ∧ x ≠ .inl w := by
  cases hpc : s.runner w with
  | locking | choosing | entering | sleeping => exact .inl rfl
  | passing todo =>
    cases todo with
    | nil =>
      exact absurd (forward_of_turn (by rw [turn, hpc]) (by simp [hpc, RunnerPc.left])) hforward
    | cons l todo =>
      have hturn : s.turn w = (s.take (.inl w) l).map (s.goto w (.inside l todo)) := by
        rw [turn, hpc]
      cases htake : s.take (.inl w) l with
      | none =>
        obtain ⟨x, hx, hne⟩ := take_eq_none htake
        exact .inr ⟨l, todo, x, rfl, hx, hne⟩
      | some h =>
        rw [htake] at hturn
        refine absurd (forward_of_turn hturn ?_) hforward
        simp only [hpc, RunnerPc.left, List.length_cons]
        omega
  | inside l todo =>
    exact absurd (forward_of_turn (by rw [turn, hpc]) (by simp [hpc, RunnerPc.left])) hforward
  | scanning =>
    exact absurd (forward_of_turn (by rw [turn, hpc]) (by simp [hpc, RunnerPc.left])) hforward
  | checking =>
    have hcheck : step passes s (.check w (pending w)) = some (s.goto w
        (if pending w then .locking else .sleeping) (s.give (.thread w))) := if_pos hpc
    refine absurd ⟨.check w (pending w), _, rfl, hcheck, left_goto_lt ?_⟩ hforward
    rw [hpc]
    split_ifs <;> exact Nat.one_pos

theorem other_of_not_forward (hforward : ¬Forward passes pending s) (i : ι) :
    s.other i = .away ∨ ∃ l x, s.other i = .asking l ∧ s.holder l = some x := by
  cases hpc : s.other i with
  | away => exact .inl rfl
  | asking l =>
    cases htake : s.take (.inr i) l with
    | none =>
      obtain ⟨x, hx, -⟩ := take_eq_none htake
      exact .inr ⟨l, x, rfl, hx⟩
    | some h =>
      have hmove : step passes s (.move i) = some (s.gotoOther i (.inside l) h) := by
        rw [step, hpc]
        exact congrArg (Option.map _) htake
      refine absurd ⟨.move i, _, trivial, hmove, left_gotoOther_lt ?_⟩ hforward
      simp [hpc, OtherPc.left]
  | inside l =>
    have hmove : step passes s (.move i) = some (s.gotoOther i .away (s.give l)) := by
      rw [step, hpc]
    refine absurd ⟨.move i, _, trivial, hmove, left_gotoOther_lt ?_⟩ hforward
    simp [hpc, OtherPc.left]

/-- **No step forward**: nothing is held, or there are workers each of which calls the next. -/
theorem exists_callsInto (hs : Inv passes s) (hforward : ¬Forward passes pending s)
    (hquiet : ¬s.Quiet) :
    ∃ D : Set κ, D.Nonempty ∧ ∀ w ∈ D, ∃ v ∈ D, CallsInto passes w v := by
  have hholder (l : Sem κ) (x : κ ⊕ ι) (hl : s.holder l = some x) :
      ∃ u m todo, x = .inl u ∧ l = .worker u ∧ s.runner u = .passing (m :: todo) := by
    have hown := (hs.owned l x).mp hl
    cases x with
    | inl u =>
      rw [owns] at hown
      obtain hnone | ⟨m, todo, -, hpc, -⟩ := runner_of_not_forward hforward u
      · rw [hnone] at hown
        exact hown.elim
      · rw [hpc] at hown
        exact ⟨u, m, todo, rfl, hown, hpc⟩
    | inr i =>
      obtain haway | ⟨m, y, hask, -⟩ := other_of_not_forward hforward i
      · rw [owns, haway] at hown
        exact hown.elim
      · rw [owns, hask] at hown
        exact hown.elim
  have hlocked : ∃ l x, s.holder l = some x := by
    by_contra hnone
    refine hquiet ⟨fun l => ?_, fun w => ?_, fun i => ?_⟩
    · exact Option.eq_none_iff_forall_ne_some.mpr fun x hx => hnone ⟨l, x, hx⟩
    · obtain hbetween | ⟨l, -, x, -, hl, -⟩ := runner_of_not_forward hforward w
      · exact hbetween
      · exact absurd ⟨l, x, hl⟩ hnone
    · obtain haway | ⟨l, x, -, hl⟩ := other_of_not_forward hforward i
      · exact haway
      · exact absurd ⟨l, x, hl⟩ hnone
  obtain ⟨l, x, hl⟩ := hlocked
  obtain ⟨u, m, todo, rfl, rfl, hu⟩ := hholder l x hl
  refine ⟨{w | ∃ m todo, s.runner w = .passing (m :: todo)}, ⟨u, m, todo, hu⟩, ?_⟩
  rintro w ⟨m, todo, hw⟩
  obtain hnone | ⟨l, todo, x, hw, hl, hne⟩ := runner_of_not_forward hforward w
  · rw [hw] at hnone
    exact absurd hnone (Set.singleton_ne_empty _)
  · obtain ⟨v, m', todo', rfl, rfl, hv⟩ := hholder l x hl
    have hcall := hs.calls w (.worker v) (by rw [hw]; exact List.mem_cons_self)
    exact ⟨v, ⟨m', todo', hv⟩, fun heq => hne (congrArg Sum.inl heq.symm), hcall⟩

end Quiet

/-- Without a circle of workers that call each other, all that has begun comes to an end. -/
theorem exists_run_quiet [Fintype κ] [Fintype ι] (hs : Inv passes s)
    (hacyclic : ∀ w, ¬TransGen (CallsInto passes) w w) (pending : κ → Bool) :
    ∃ as t, (machine passes).run s as = some t ∧ (∀ a ∈ as, GoesOn pending a) ∧ t.Quiet := by
  refine Machine.exists_run_of_acyclic hacyclic left (fun s hs hquiet => ?_) hs
  by_cases hforward : Forward passes pending s
  · obtain ⟨a, t, ha, hst, hlt⟩ := hforward
    exact .inl ⟨a, t, ha, hst, hs.step hst, hlt⟩
  · exact .inr (exists_callsInto hs hforward hquiet)

/-! ## In a circle -/

/-- The workers of `D` each wait for another of them. -/
def Circle (D : Set κ) (s : WorkerLocks κ ι) : Prop :=
  ∀ w ∈ D, ∃ v ∈ D, v ≠ w ∧ ∃ todo, s.runner w = .passing (.worker v :: todo)

variable {D : Set κ}

/-- A thread moves no one but itself. -/
theorem exists_goto_of_turn (hst : s.turn w = some t) : ∃ pc h, t = s.goto w pc h := by
  rw [turn] at hst
  split at hst
  all_goals
    first
    | cases hst
      done
    | exact ⟨_, _, (Option.some.inj hst).symm⟩
    | obtain ⟨h, -, rfl⟩ := Option.map_eq_some_iff.mp hst
      exact ⟨_, _, rfl⟩

theorem runner_of_move (hst : step passes s (.move i) = some t) : t.runner = s.runner := by
  rw [step] at hst
  split at hst
  · cases hst
  · obtain ⟨h, -, rfl⟩ := Option.map_eq_some_iff.mp hst
    rfl
  · obtain rfl := Option.some.inj hst
    rfl

/-- **A circle stays**: none of its workers gets the semaphore it waits for. -/
theorem Circle.step (hcircle : Circle D s) (hs : Inv passes s) {a : LockAct κ ι}
    (hst : step passes s a = some t) : Circle D t := by
  intro w hw
  obtain ⟨v, hv, hne, todo, hpc⟩ := hcircle w hw
  refine ⟨v, hv, hne, todo, ?_⟩
  have hkeep {u : κ} {pc : RunnerPc κ} {h : Sem κ → Option (κ ⊕ ι)} (hu : u ≠ w) :
      (s.goto u pc h).runner w = .passing (.worker v :: todo) := by
    rw [goto]
    exact (Function.update_of_ne hu.symm ..).trans hpc
  cases a with
  | pass u p =>
    rw [WorkerLocks.step] at hst
    split_ifs at hst with hpass
    obtain ⟨h, -, rfl⟩ := Option.map_eq_some_iff.mp hst
    refine hkeep fun hu => ?_
    rw [hu, hpc] at hpass
    cases hpass.1
  | turn u =>
    obtain rfl | hu := eq_or_ne u w
    · -- the one it waits for holds it
      obtain ⟨_, -, -, todo', hv'⟩ := hcircle v hv
      have hheld : s.holder (.worker v) = some (.inl v) := by
        refine (hs.owned _ _).mpr ?_
        rw [owns, hv']
        rfl
      have htake : s.take (.inl u) (.worker v) = none := by
        rw [take, hheld, if_neg]
        simpa using hne
      simp [WorkerLocks.step, turn, hpc, htake] at hst
    · obtain ⟨pc, h, rfl⟩ := exists_goto_of_turn hst
      exact hkeep hu
  | check u pending =>
    rw [WorkerLocks.step] at hst
    split_ifs at hst with hcheck <;> obtain rfl := Option.some.inj hst <;>
      exact hkeep fun hu => by rw [hu, hpc] at hcheck; cases hcheck
  | ask i l =>
    rw [WorkerLocks.step] at hst
    split_ifs at hst
    obtain rfl := Option.some.inj hst
    exact hpc
  | move i => rwa [runner_of_move hst]

/-- A call on what is free returns, and so does one on the worker itself. -/
theorem run_call {todo : List (Sem κ)} (hpc : s.runner w = .passing (l :: todo))
    (hown : s.holder (.worker w) = some (.inl w)) (hfree : l = .worker w ∨ s.holder l = none) :
    (machine passes).run s [.turn w, .turn w] = some (s.goto w (.passing todo) s.holder) := by
  have hholder : s.holder l = none ∨ s.holder l = some (.inl w) := by
    obtain rfl | hnone := hfree
    · exact .inr hown
    · exact .inl hnone
  have htake : s.turn w = some (s.goto w (.inside l todo)
      (Function.update s.holder l (some (.inl w)))) := by
    rw [turn, hpc]
    simp only [take, if_pos hholder, Option.map_some]
  set u := s.goto w (.inside l todo) (Function.update s.holder l (some (.inl w)))
  have hback : (if l = .worker w then u.holder else u.give l) = s.holder := by
    split_ifs with hl
    · subst hl
      exact Function.update_eq_self_iff.mpr hown.symm
    · have hnone := hfree.resolve_left hl
      simp only [u, give, goto, Function.update_idem]
      exact Function.update_eq_self_iff.mpr hnone.symm
  have hu : u.runner w = .inside l todo := Function.update_self ..
  have hgive : u.turn w = some (s.goto w (.passing todo) s.holder) := by
    rw [turn, hu]
    simp only [hback]
    simp only [u, goto, Function.update_idem]
  have hstep : (machine passes).step s (.turn w) = some u := htake
  rw [Machine.run_cons, hstep, Option.bind_some]
  exact Machine.run_singleton hgive

/-- The calls on what is free return, one after the other. -/
theorem exists_run_todo {pre todo : List (Sem κ)} (hpc : s.runner w = .passing (pre ++ todo))
    (hown : s.holder (.worker w) = some (.inl w))
    (hfree : ∀ l ∈ pre, l = .worker w ∨ s.holder l = none) :
    ∃ as, (machine passes).run s as = some (s.goto w (.passing todo) s.holder) := by
  induction pre generalizing s with
  | nil =>
    refine ⟨[], congrArg some ?_⟩
    obtain ⟨holder, runner, other⟩ := s
    exact congrArg (WorkerLocks.mk holder · other) (Function.update_eq_self_iff.mpr hpc.symm).symm
  | cons l pre ih =>
    set u := s.goto w (.passing (pre ++ todo)) s.holder
    have hcall : (machine passes).run s [.turn w, .turn w] = some u :=
      run_call hpc hown (hfree l List.mem_cons_self)
    obtain ⟨as, hrun⟩ := ih (s := u) (by simp [u, goto]) hown
      fun m hm => hfree m (List.mem_cons_of_mem l hm)
    refine ⟨[.turn w, .turn w] ++ as, (Machine.run_trans hcall hrun).trans ?_⟩
    simp [u, goto]

/-- **A worker goes to wait for another of `D`**: to its first call of one of them. -/
theorem exists_run_waiting (hD : ∃ v ∈ D, CallsInto passes w v) (hpc : s.runner w = .locking)
    (hfree : s.holder (.worker w) = none)
    (hother : ∀ l, s.holder l ≠ none → ∃ v ∈ D, v ≠ w ∧ l = .worker v) :
    ∃ as v todo, v ∈ D ∧ v ≠ w ∧ (machine passes).run s as = some (s.goto w
      (.passing (.worker v :: todo)) (Function.update s.holder (.worker w) (some (.inl w)))) := by
  classical
  obtain ⟨v, hv, hne, todo, htodo, hmem⟩ := hD
  set isD : Sem κ → Bool := fun l => decide (∃ v ∈ D, v ≠ w ∧ l = .worker v)
  obtain ⟨l, hl⟩ : ∃ l, todo.find? isD = some l := by
    rw [← Option.isSome_iff_exists, List.find?_isSome]
    exact ⟨_, hmem, decide_eq_true ⟨v, hv, hne.symm, rfl⟩⟩
  obtain ⟨hisD, pre, post, rfl, hpre⟩ := List.find?_eq_some_iff_append.mp hl
  obtain ⟨v, hv, hne, rfl⟩ := of_decide_eq_true hisD
  set u := s.goto w (.passing (pre ++ .worker v :: post))
    (Function.update s.holder (.worker w) (some (.inl w)))
  have hpass : (machine passes).step s (.pass w (pre ++ .worker v :: post)) = some u := by
    refine (if_pos ⟨hpc, htodo⟩).trans ?_
    rw [take, if_pos (.inl hfree), Option.map_some]
  have hfree' (l : Sem κ) (hl : l ∈ pre) : l = .worker w ∨ u.holder l = none := by
    obtain heq | hne := eq_or_ne l (.worker w)
    · exact .inl heq
    · have hnot : isD l = false := by simpa using hpre l hl
      refine .inr ((Function.update_of_ne hne ..).trans ?_)
      by_contra hheld
      exact of_decide_eq_false hnot (hother l hheld)
  have hu : u.runner w = .passing (pre ++ .worker v :: post) := Function.update_self ..
  have hown : u.holder (.worker w) = some (.inl w) := Function.update_self ..
  obtain ⟨as, hrun⟩ : ∃ as, (machine passes).run u as
      = some (u.goto w (.passing (.worker v :: post)) u.holder) := exists_run_todo hu hown hfree'
  refine ⟨[.pass w (pre ++ .worker v :: post)] ++ as, v, post, hv, hne,
    (Machine.run_trans (Machine.run_singleton hpass) hrun).trans ?_⟩
  simp [u, goto]

/-- …one after the other, and none of them gets any further. -/
theorem exists_run_all_waiting (hsucc : ∀ w ∈ D, ∃ v ∈ D, CallsInto passes w v) {l : List κ}
    (hl : l.Nodup) (hsub : ∀ w ∈ l, w ∈ D) (hpc : ∀ w ∈ l, s.runner w = .locking)
    (hheld : ∀ m, s.holder m ≠ none → ∃ v ∈ D, v ∉ l ∧ m = .worker v) :
    ∃ as t, (machine passes).run s as = some t ∧ (∀ w ∉ l, t.runner w = s.runner w) ∧
      ∀ w ∈ l, ∃ v ∈ D, v ≠ w ∧ ∃ todo, t.runner w = .passing (.worker v :: todo) := by
  induction l generalizing s with
  | nil => exact ⟨[], s, rfl, fun _ _ => rfl, fun _ hw => absurd hw List.not_mem_nil⟩
  | cons w l ih =>
    obtain ⟨hnot, hl⟩ := List.nodup_cons.mp hl
    have hw := hsub w List.mem_cons_self
    have hother (m : Sem κ) (hm : s.holder m ≠ none) : ∃ v ∈ D, v ≠ w ∧ m = .worker v := by
      obtain ⟨v, hv, hvl, rfl⟩ := hheld m hm
      exact ⟨v, hv, fun heq => hvl (heq ▸ List.mem_cons_self), rfl⟩
    have hfree : s.holder (.worker w) = none := by
      by_contra hm
      obtain ⟨v, -, hne, heq⟩ := hother _ hm
      exact hne (Sem.worker.inj heq).symm
    obtain ⟨as, v, todo, hv, hne, hrun⟩ :=
      exists_run_waiting (hsucc w hw) (hpc w List.mem_cons_self) hfree hother
    set u := s.goto w (.passing (.worker v :: todo))
      (Function.update s.holder (.worker w) (some (.inl w)))
    have hpc' (x : κ) (hx : x ∈ l) : u.runner x = .locking :=
      (Function.update_of_ne (fun heq : x = w => hnot (heq ▸ hx)) ..).trans
        (hpc x (List.mem_cons_of_mem w hx))
    have hheld' (m : Sem κ) (hm : u.holder m ≠ none) : ∃ v ∈ D, v ∉ l ∧ m = .worker v := by
      obtain rfl | hmw := eq_or_ne m (.worker w)
      · exact ⟨w, hw, hnot, rfl⟩
      · obtain ⟨x, hx, hxl, rfl⟩ := hheld m fun hnone =>
          hm ((Function.update_of_ne hmw ..).trans hnone)
        exact ⟨x, hx, fun hin => hxl (List.mem_cons_of_mem w hin), rfl⟩
    obtain ⟨bs, t, hrun', hsame, hwait⟩ :=
      ih hl (fun x hx => hsub x (List.mem_cons_of_mem w hx)) hpc' hheld'
    refine ⟨as ++ bs, t, Machine.run_trans hrun hrun', fun x hx => ?_, fun x hx => ?_⟩
    · rw [hsame x fun hin => hx (List.mem_cons_of_mem w hin)]
      exact Function.update_of_ne (fun heq : x = w => hx (heq ▸ List.mem_cons_self)) ..
    · obtain rfl | hxl := List.mem_cons.mp hx
      · exact ⟨v, hv, hne, todo, (hsame _ hnot).trans (Function.update_self ..)⟩
      · exact hwait x hxl

/-- Workers each of which calls another of them end up in a circle. -/
theorem exists_run_circle [Fintype κ] (hsucc : ∀ w ∈ D, ∃ v ∈ D, CallsInto passes w v) :
    ∃ as t, (machine passes).run (start : WorkerLocks κ ι) as = some t ∧ Circle D t := by
  classical
  set l := (Finset.univ.filter fun w => w ∈ D).toList
  have hmem (w : κ) : w ∈ l ↔ w ∈ D := by simp [l]
  obtain ⟨as, t, hrun, -, hwait⟩ := exists_run_all_waiting (s := (start : WorkerLocks κ ι)) hsucc
    (Finset.nodup_toList _ : l.Nodup) (fun w hw => (hmem w).mp hw) (fun _ _ => rfl)
    fun _ hm => absurd rfl hm
  exact ⟨as, t, hrun, fun w hw => hwait w ((hmem w).mpr hw)⟩

/-- **Workers deadlock just if they call each other in a circle**: without one, all that has begun
can come to an end from every state they can reach, whatever the waits find pending, and leave every
semaphore free; with one they can reach a state from which it never does. -/
theorem always_quiet_iff [Fintype κ] [Fintype ι] (passes : κ → List (Sem κ) → Bool) :
    (∀ as s, (machine passes).run (start : WorkerLocks κ ι) as = some s → ∀ pending : κ → Bool,
      ∃ bs t, (machine passes).run s bs = some t ∧ (∀ a ∈ bs, GoesOn pending a) ∧ t.Quiet) ↔
      ∀ w, ¬TransGen (CallsInto passes) w w := by
  have hinv {as : List (LockAct κ ι)} {s : WorkerLocks κ ι}
      (hrun : (machine passes).run start as = some s) : Inv passes s :=
    (Machine.always_of_step inv_start (fun _ _ _ hs hst => hs.step hst) as).of_run hrun
  refine ⟨fun h w hw => ?_, fun hacyclic as s hrun => exists_run_quiet (hinv hrun) hacyclic⟩
  obtain ⟨D, ⟨v, hv⟩, hsucc⟩ := exists_transGen_self_iff.mp ⟨w, hw⟩
  obtain ⟨as, s, hrun, hcircle⟩ := exists_run_circle (ι := ι) hsucc
  obtain ⟨bs, t, hrun', -, hquiet⟩ := h as s hrun fun _ => false
  have hstay : (machine passes).Always (fun s => Inv passes s ∧ Circle D s) s bs :=
    Machine.always_of_step ⟨hinv hrun, hcircle⟩
      (fun _ _ _ hs hst => ⟨hs.1.step hst, hs.2.step hs.1 hst⟩) bs
  obtain ⟨u, -, -, todo, hpc⟩ := (hstay.of_run hrun').2 v hv
  have hholds := hquiet.runner v
  rw [hpc] at hholds
  exact Set.singleton_ne_empty _ hholds

end WorkerLocks

end LibDronecan
