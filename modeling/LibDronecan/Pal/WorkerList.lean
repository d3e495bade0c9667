import LibDronecan.Machinery.Chain

/-!
# Pal/WorkerList — the list of a `Worker`, linked through its objects

    worker_obj_head ──▸ obj ──next──▸ obj ──next──▸ null

A `Worker` keeps its objects in a list threaded through their own `next` fields.  The code is
modelled field by field over a heap of objects; a call with a loop is given a number of turns.  On
a chain, `registerWorker` links the object behind the last one (`registerWorker_eq`) and leaves that
object's own `next` as it is.  `unregisterWorker` does not advance in its search: it takes out the
first two objects (`unregisterWorker_head`, `unregisterWorker_second`) and goes round for ever on
any other (`unregisterWorker_eq_none`), so it returns exactly on those (`removes_iff`).
-/

open Machinery

namespace LibDronecan

/-- The list side of a `Worker`, and the fields of the `WorkerObject`s it may meet.  `periodUs` is
null for an `EventWorkerObject`. -/
structure WorkerList (ι κ : Type*) where
  workerObjHead : Option ι
  next : ι → Option ι
  worker : ι → Option κ
  periodUs : ι → Option ℕ
  nextTriggerUs : ι → ℕ

namespace WorkerList

variable {ι κ : Type*} [DecidableEq ι]

/-- `WorkerObject::set_worker`; a `PeriodicWorkerObject` also starts its period. -/
def setWorker (w : WorkerList ι κ) (obj : ι) (worker : Option κ) (micros64 : ℕ) :
    WorkerList ι κ :=
  { w with
    worker := Function.update w.worker obj worker
    nextTriggerUs := match w.periodUs obj with
      | none => w.nextTriggerUs
      | some period => Function.update w.nextTriggerUs obj (period + micros64) }

/-- The loop of `register_worker`: to the last object, and link behind it. -/
def registerTurn (w : WorkerList ι κ) (obj : ι) (curr : ι) : Turn ι (Bool × WorkerList ι κ) :=
  match w.next curr with
  | none => .leave (true, { w with next := Function.update w.next curr (some obj) })
  | some c => .again c

/-- `Worker::register_worker`. -/
def registerWorker (this : κ) (micros64 : ℕ) (w : WorkerList ι κ) (obj : ι) (n : ℕ) :
    Option (Bool × WorkerList ι κ) :=
  let w := w.setWorker obj (some this) micros64
  match w.workerObjHead with
  | none => some (true, { w with workerObjHead := some obj })
  | some head => loop (w.registerTurn obj) n head

/-- The loop of `unregister_worker`.  It never moves on to the next object. -/
def unregisterTurn (micros64 : ℕ) (w : WorkerList ι κ) (obj : ι) (curr : ι) :
    Turn ι (WorkerList ι κ) :=
  if w.next curr = some obj then
    .leave { w.setWorker obj none micros64 with
      next := Function.update w.next curr (w.next obj) }
  else .again curr

/-- `Worker::unregister_worker`. -/
def unregisterWorker (micros64 : ℕ) (w : WorkerList ι κ) (obj : ι) (n : ℕ) :
    Option (WorkerList ι κ) :=
  match w.workerObjHead with
  | none => some w
  | some head =>
      if head = obj then some { w.setWorker obj none micros64 with workerObjHead := w.next obj }
      else loop (w.unregisterTurn micros64 obj) n head

/-- What `get_next_trigger_us` makes of one more trigger time; 0 stands for none yet. -/
def earlier (nextTriggerUs trigger : ℕ) : ℕ :=
  if nextTriggerUs = 0 ∨ nextTriggerUs > trigger then trigger else nextTriggerUs

omit [DecidableEq ι] in
/-- `Worker::get_next_trigger_us`. -/
def getNextTriggerUs (w : WorkerList ι κ) (n : ℕ) : Option ℕ :=
  loop (visit w.next fun us a => match w.periodUs a with
    | none => us
    | some _ => earlier us (w.nextTriggerUs a)) n (w.workerObjHead, 0)

omit [DecidableEq ι] in
/-- The objects that a pass of `run` calls, in order. -/
def called (w : WorkerList ι κ) (n : ℕ) : Option (List ι) :=
  loop (visit w.next fun l a => l ++ [a]) n (w.workerObjHead, [])

variable {this : κ} {us : ℕ} {w w' : WorkerList ι κ} {obj a : ι} {l : List ι}

@[simp] theorem setWorker_workerObjHead (w : WorkerList ι κ) (obj : ι) (worker : Option κ) :
    (w.setWorker obj worker us).workerObjHead = w.workerObjHead := rfl

@[simp] theorem setWorker_next (w : WorkerList ι κ) (obj : ι) (worker : Option κ) :
    (w.setWorker obj worker us).next = w.next := rfl

/-- An object that still has a worker is not the one whose was cleared. -/
theorem worker_of_update_none {worker : ι → Option κ} {o : ι}
    (h : Function.update worker obj none o = some this) : o ≠ obj ∧ worker o = some this := by
  rw [Function.update_apply] at h
  split_ifs at h with hne
  exact ⟨hne, h⟩

theorem worker_of_update_some {worker : ι → Option κ} {o : ι}
    (h : Function.update worker obj (some this) o = some this) :
    o = obj ∨ worker o = some this := by
  rw [Function.update_apply] at h
  split_ifs at h with heq
  · exact Or.inl heq
  · exact Or.inr h

/-! ## Registering -/

/-- An object behind the last one of a list, or at the head of an empty one. -/
def linked (w : WorkerList ι κ) (l : List ι) (obj : ι) : WorkerList ι κ :=
  match l.getLast? with
  | none => { w with workerObjHead := some obj }
  | some last => { w with next := Function.update w.next last (some obj) }

variable (this us obj) in
/-- **`register_worker` returns**, having linked the object behind the last one. -/
theorem registerWorker_eq (h : Chain w.next w.workerObjHead l) {n : ℕ} (hn : l.length ≤ n) :
    w.registerWorker this us obj n
      = some (true, (w.setWorker obj (some this) us).linked l obj) := by
  rcases List.eq_nil_or_concat' l with rfl | ⟨l, last, rfl⟩
  · simp only [registerWorker, setWorker_workerObjHead, chain_nil.mp h]
    rfl
  · obtain ⟨head, hhead⟩ := h.exists_eq_some
    have hlast : w.next last = none := h.next_last
    rw [hhead] at h
    have hwalk : loop ((w.setWorker obj (some this) us).registerTurn obj) (l.length + 1) head
        = loop ((w.setWorker obj (some this) us).registerTurn obj) 1 last :=
      h.loop_eq (fun x _ y _ hy => by simp only [registerTurn, setWorker_next, hy]) 1
    simp only [registerWorker, setWorker_workerObjHead, hhead]
    refine loop_of_le (by simpa using hn) (hwalk.trans ?_)
    simp only [loop, registerTurn, setWorker_next, hlast, linked, List.getLast?_concat]

theorem turnFree_registerWorker (this : κ) (us : ℕ) (w : WorkerList ι κ) (obj : ι) :
    TurnFree (w.registerWorker this us obj) := by
  unfold registerWorker
  simp only [setWorker_workerObjHead]
  split
  · exact turnFree_some _
  · exact turnFree_loop _ _

/-- Whatever turns it is given, that is what it returns with. -/
theorem of_registerWorker (h : Chain w.next w.workerObjHead l) {n : ℕ} {r : Bool × WorkerList ι κ}
    (hret : w.registerWorker this us obj n = some r) :
    r = (true, (w.setWorker obj (some this) us).linked l obj) :=
  turnFree_registerWorker this us w obj hret (registerWorker_eq this us obj h le_rfl)

/-- On any list, a call that returns has found the end of it, and linked the object there. -/
theorem registerWorker_cases {n : ℕ} {r : Bool × WorkerList ι κ}
    (hret : w.registerWorker this us obj n = some r) :
    (w.workerObjHead = none ∧
      r = (true, { w.setWorker obj (some this) us with workerObjHead := some obj })) ∨
    ∃ c, Meets w.next w.workerObjHead c ∧ w.next c = none ∧
      r = (true, { w.setWorker obj (some this) us with
        next := Function.update w.next c (some obj) }) := by
  cases hhead : w.workerObjHead with
  | none =>
    simp only [registerWorker, setWorker_workerObjHead, hhead] at hret
    exact Or.inl ⟨rfl, (Option.some.inj hret).symm⟩
  | some head =>
    simp only [registerWorker, setWorker_workerObjHead, hhead] at hret
    refine Or.inr ?_
    have hhere : Meets w.next (some head) head := .here head
    refine loop_induct (P := fun c => Meets w.next (some head) c)
      (Q := fun r => ∃ c, Meets w.next (some head) c ∧ w.next c = none ∧
        r = (true, { w.setWorker obj (some this) us with
          next := Function.update w.next c (some obj) })) ?_ ?_ hhere hret
    · intro c d hc hturn
      simp only [registerTurn, setWorker_next] at hturn
      split at hturn <;> cases hturn
      case _ hnext => exact hc.step hnext
    · intro c r hc hturn
      simp only [registerTurn, setWorker_next] at hturn
      split at hturn <;> cases hturn
      case _ hnext => exact ⟨c, hc, hnext, rfl⟩

/-- **What is linked is a list again exactly when the object's own `next` is null.** -/
theorem chain_linked_iff (h : Chain w.next w.workerObjHead l) (hobj : obj ∉ l) :
    Chain (w.linked l obj).next (w.linked l obj).workerObjHead (l ++ [obj])
      ↔ w.next obj = none := by
  rcases List.eq_nil_or_concat' l with rfl | ⟨l, last, rfl⟩
  · exact ⟨fun h' => h'.2, fun h' => ⟨rfl, h'⟩⟩
  · simp only [linked, List.getLast?_concat]
    exact h.snoc_iff hobj

/-! ## Traversals -/

omit [DecidableEq ι] in
/-- **`get_next_trigger_us` returns** the earliest of the trigger times of the periodic objects. -/
theorem getNextTriggerUs_eq (h : Chain w.next w.workerObjHead l) :
    w.getNextTriggerUs (l.length + 1)
      = some ((l.filterMap fun a => (w.periodUs a).map fun _ => w.nextTriggerUs a).foldl earlier
          0) := by
  rw [getNextTriggerUs, h.loop_visit, List.foldl_filterMap]
  refine congrArg some (congrArg (fun f => l.foldl f 0) (funext fun us => funext fun a => ?_))
  cases w.periodUs a <;> rfl

omit [DecidableEq ι] in
/-- **A pass of `run` ends**, and calls the objects of the list in order. -/
theorem called_eq (h : Chain w.next w.workerObjHead l) : w.called (l.length + 1) = some l := by
  rw [called, h.loop_visit]
  rw [List.foldl_append_eq_append, List.nil_append, ← List.flatMap_def, List.flatMap_singleton']

/-! ## Unregistering -/

theorem unregisterWorker_nil (h : w.workerObjHead = none) (us : ℕ) (obj : ι) (n : ℕ) :
    w.unregisterWorker us obj n = some w := by simp only [unregisterWorker, h]

theorem unregisterWorker_head (h : w.workerObjHead = some obj) (us n : ℕ) :
    w.unregisterWorker us obj n
      = some { w.setWorker obj none us with workerObjHead := w.next obj } := by
  simp only [unregisterWorker, h, if_true]

theorem unregisterWorker_second (h : w.workerObjHead = some a) (ha : w.next a = some obj)
    (hne : a ≠ obj) (us n : ℕ) :
    w.unregisterWorker us obj (n + 1)
      = some { w.setWorker obj none us with next := Function.update w.next a (w.next obj) } := by
  simp only [unregisterWorker, h, if_neg hne]
  exact loop_of_leave (by simp only [unregisterTurn, ha, if_true]) n

/-- **Neither first nor second, the object is looked for for ever.** -/
theorem unregisterWorker_eq_none (h : w.workerObjHead = some a) (ha : w.next a ≠ some obj)
    (hne : a ≠ obj) (us n : ℕ) : w.unregisterWorker us obj n = none := by
  simp only [unregisterWorker, h, if_neg hne]
  refine loop_eq_none (P := fun c => c = a) ?_ rfl n
  rintro c rfl
  exact ⟨c, if_neg ha, rfl⟩

/-- **What `unregister_worker` is for**: it returns, with the object out of the list and its worker
null, and every other worker as it was; an object that was not there leaves all as it was. -/
def Removes (us : ℕ) (w : WorkerList ι κ) (l : List ι) (obj : ι) : Prop :=
  ∃ n w', w.unregisterWorker us obj n = some w' ∧
    Chain w'.next w'.workerObjHead (l.erase obj) ∧ (∀ o ≠ obj, w'.worker o = w.worker o) ∧
    (obj ∈ l → w'.worker obj = none) ∧ (obj ∉ l → w' = w)

/-- On any list, a call that returns has met the object first or second, or nothing. -/
theorem unregisterWorker_cases {n : ℕ} (hret : w.unregisterWorker us obj n = some w') :
    (w.workerObjHead = none ∧ w' = w) ∨
    (w.workerObjHead = some obj ∧
      w' = { w.setWorker obj none us with workerObjHead := w.next obj }) ∨
    (∃ a, w.workerObjHead = some a ∧ a ≠ obj ∧ w.next a = some obj ∧
      w' = { w.setWorker obj none us with next := Function.update w.next a (w.next obj) }) := by
  cases hhead : w.workerObjHead with
  | none =>
    rw [unregisterWorker_nil hhead] at hret
    exact Or.inl ⟨rfl, (Option.some.inj hret).symm⟩
  | some a =>
    obtain rfl | hne := eq_or_ne a obj
    · rw [unregisterWorker_head hhead] at hret
      exact Or.inr (Or.inl ⟨rfl, (Option.some.inj hret).symm⟩)
    by_cases ha : w.next a = some obj
    · cases n with
      | zero =>
        simp only [unregisterWorker, hhead, if_neg hne, loop] at hret
        cases hret
      | succ n =>
        rw [unregisterWorker_second hhead ha hne] at hret
        exact Or.inr (Or.inr ⟨a, rfl, hne, ha, (Option.some.inj hret).symm⟩)
    · rw [unregisterWorker_eq_none hhead ha hne] at hret
      cases hret

/-- …which on a chain is where it stands. -/
theorem of_unregisterWorker (h : Chain w.next w.workerObjHead l) {n : ℕ}
    (hret : w.unregisterWorker us obj n = some w') :
    (l = [] ∧ w' = w) ∨
    (∃ l', l = obj :: l' ∧ w' = { w.setWorker obj none us with workerObjHead := w.next obj }) ∨
    (∃ a l', l = a :: obj :: l' ∧
      w' = { w.setWorker obj none us with next := Function.update w.next a (w.next obj) }) := by
  obtain ⟨hhead, rfl⟩ | ⟨hhead, rfl⟩ | ⟨a, hhead, -, ha, rfl⟩ := unregisterWorker_cases hret
  · exact Or.inl ⟨List.head?_eq_none_iff.mp (h.eq_head?.symm.trans hhead), rfl⟩
  · obtain ⟨l', rfl⟩ := List.head?_eq_some_iff.mp (h.eq_head?.symm.trans hhead)
    exact Or.inr (Or.inl ⟨l', rfl, rfl⟩)
  · obtain ⟨l, rfl⟩ := List.head?_eq_some_iff.mp (h.eq_head?.symm.trans hhead)
    obtain ⟨l', rfl⟩ := List.head?_eq_some_iff.mp ((h.2.eq_head?).symm.trans ha)
    exact Or.inr (Or.inr ⟨a, l', rfl, rfl⟩)

/-- On an empty list, or for its first two objects, the call returns. -/
theorem exists_unregisterWorker (h : Chain w.next w.workerObjHead l) (us : ℕ)
    (hobj : l = [] ∨ obj ∈ l.take 2) : ∃ n w', w.unregisterWorker us obj n = some w' := by
  cases l with
  | nil => exact ⟨0, w, unregisterWorker_nil h us obj 0⟩
  | cons a l =>
    obtain rfl | hne := eq_or_ne a obj
    · exact ⟨0, _, unregisterWorker_head h.1 us 0⟩
    · have hmem : obj ∈ l.take 1 := by simpa [Ne.symm hne] using hobj
      cases l with
      | nil => exact absurd hmem List.not_mem_nil
      | cons b l =>
        obtain rfl := List.mem_singleton.mp hmem
        exact ⟨1, _, unregisterWorker_second h.1 h.2.1 hne us 0⟩

/-- **`unregister_worker` keeps the chain**, less the object. -/
theorem chain_of_unregisterWorker (h : Chain w.next w.workerObjHead l) {n : ℕ}
    (hret : w.unregisterWorker us obj n = some w') :
    Chain w'.next w'.workerObjHead (l.erase obj) := by
  obtain ⟨rfl, rfl⟩ | ⟨l', rfl, rfl⟩ | ⟨a, l', rfl, rfl⟩ := of_unregisterWorker h hret
  · exact h
  · rw [List.erase_cons_head]
    exact h.2
  · have hfront : Chain w.next w.workerObjHead ([] ++ a :: obj :: l') := h
    exact hfront.erase_eq ▸ hfront.unlink

/-- **`unregister_worker` does what it is for exactly on the first two objects of the list**, and on
an empty list. -/
theorem removes_iff (h : Chain w.next w.workerObjHead l) (us : ℕ) (obj : ι) :
    w.Removes us l obj ↔ l = [] ∨ obj ∈ l.take 2 := by
  constructor
  · rintro ⟨n, w', hret, -⟩
    obtain ⟨rfl, -⟩ | ⟨l', rfl, -⟩ | ⟨a, l', rfl, -⟩ := of_unregisterWorker h hret
    · exact Or.inl rfl
    · exact Or.inr (by simp)
    · exact Or.inr (by simp)
  · intro hobj
    obtain ⟨n, w', hret⟩ := exists_unregisterWorker h us hobj
    refine ⟨n, w', hret, chain_of_unregisterWorker h hret, ?_⟩
    obtain ⟨rfl, rfl⟩ | ⟨l', rfl, rfl⟩ | ⟨a, l', rfl, rfl⟩ := of_unregisterWorker h hret
    · exact ⟨fun _ _ => rfl, fun hmem => absurd hmem List.not_mem_nil, fun _ => rfl⟩
    · exact ⟨fun o ho => Function.update_of_ne ho _ _, fun _ => Function.update_self _ _ _,
        fun hmem => absurd List.mem_cons_self hmem⟩
    · exact ⟨fun o ho => Function.update_of_ne ho _ _, fun _ => Function.update_self _ _ _,
        fun hmem => absurd (by simp) hmem⟩

/-- Three objects in a list, numbered. -/
def three : WorkerList ℕ Unit where
  workerObjHead := some 0
  next a := if a < 2 then some (a + 1) else none
  worker a := if a < 3 then some () else none
  periodUs _ := none
  nextTriggerUs _ := 0

theorem three_removes : three.Removes 0 [0, 1, 2] 1 :=
  (removes_iff (w := three) (by decide) 0 1).mpr (by decide)

/-- **The third object of a list cannot be unregistered**: the call does not return. -/
theorem not_forall_removes : ¬ ∀ (w : WorkerList ℕ Unit) (l : List ℕ) (us obj : ℕ),
    Chain w.next w.workerObjHead l → w.Removes us l obj := by
  intro h
  obtain ⟨n, w', hret, -⟩ := h three [0, 1, 2] 0 2 (by decide)
  rw [unregisterWorker_eq_none (a := 0) rfl (by decide) (by decide)] at hret
  cases hret

end WorkerList

end LibDronecan
