import LibDronecan.Machinery.Observed
import LibDronecan.Pal.FreshThread
import LibDronecan.Pal.WorkerList

/-!
# Pal/FreshWorker — a `Worker` and its objects in blocks that were used before

    Worker()          running ░  worker_obj_head ░  thread ░
    WorkerObject(f)   next = null   worker ░                    ~WorkerObject: if (worker) …

The constructor of `Worker` writes `thread_func` and the semaphore, that of `WorkerObject` all but
`worker`, which `register_worker` sets later if it is ever called.  A call on either starts from
what is left: a head that is not null is an object that was never registered, a worker that is not
null is one that the object never had.  `fresh_independent_iff`: what the calls return and whom they
call is independent of the blocks just if these agree on those fields and, for a `Thread`, on those
of `FreshThread`.  The trigger time of a periodic object is not written either, and not read before
it is.
-/

open Machinery

namespace LibDronecan

/-- What the blocks hold where the constructors do not write. -/
structure WorkerBlocks (ι κ τ : Type*) where
  running : Bool
  workerObjHead : Option ι
  thread : Option τ
  worker : ι → Option κ
  nextTriggerUs : ι → ℕ

/-- A `Worker` and the `WorkerObject`s there are. -/
structure FreshWorker (ι κ τ : Type*) where
  list : WorkerList ι κ
  running : Bool
  thread : Option τ

/-- A call on the worker, or the destructor of an object or of the worker, with what `micros64`
reads. -/
inductive WorkerOp (ι : Type*) where
  | isRunning
  | register (obj : ι) (micros64 : ℕ)
  | unregister (obj : ι) (micros64 : ℕ)
  | destroyObj (obj : ι) (micros64 : ℕ)
  | destroy (micros64 : ι → ℕ)

/-- A call made on another object. -/
inductive OutCall (ι κ τ : Type*) where
  | setWorker (obj : ι) (worker : Option κ)
  | unregisterWorker (worker : κ) (obj : ι)
  | deallocate (thread : τ)

namespace FreshWorker

variable {ι κ τ : Type*}

/-- `Worker::Worker` in a block, and objects of these periods in theirs. -/
def construct (periodUs : ι → Option ℕ) (b : WorkerBlocks ι κ τ) : FreshWorker ι κ τ :=
  ⟨⟨b.workerObjHead, fun _ => none, b.worker, periodUs, b.nextTriggerUs⟩, b.running, b.thread⟩

/-- The call that `unregister_worker` makes, if it returns. -/
def taken (w : WorkerList ι κ) (obj : ι) : List (OutCall ι κ τ) :=
  match w.workerObjHead with
  | none => []
  | some _ => [.setWorker obj none]

variable [DecidableEq ι]

/-- The loop of `~Worker`, at `curr_worker`, with the calls made so far. -/
def destroyTurn (micros64 : ι → ℕ) (n : ℕ) :
    Option ι × WorkerList ι κ × List (OutCall ι κ τ) →
      Turn (Option ι × WorkerList ι κ × List (OutCall ι κ τ))
        (Option (List (OutCall ι κ τ) × WorkerList ι κ))
  | (none, w, calls) => .leave (some (calls, w))
  | (some curr, w, calls) =>
      match w.unregisterWorker (micros64 curr) curr n with
      | none => .leave none
      | some w' => .again (w.next curr, w', calls ++ taken w curr)

variable [DecidableEq κ] in
/-- The call, given `n` turns of its loops: what it returns, the calls it makes, and what it
leaves. -/
def exec (this : κ) (n : ℕ) (s : FreshWorker ι κ τ) :
    WorkerOp ι → Option ((Option Bool × List (OutCall ι κ τ)) × FreshWorker ι κ τ)
  | .isRunning => some ((some s.running, []), s)
  | .register obj us =>
      (s.list.registerWorker this us obj n).map fun r =>
        ((some r.1, [.setWorker obj (some this)]), { s with list := r.2 })
  | .unregister obj us =>
      (s.list.unregisterWorker us obj n).map fun w =>
        ((none, taken s.list obj), { s with list := w })
  | .destroyObj obj us =>
      match s.list.worker obj with
      | none => some ((none, []), s)
      | some k =>
          if k = this then
            (s.list.unregisterWorker us obj n).map fun w =>
              ((none, .unregisterWorker k obj :: taken s.list obj), { s with list := w })
          else some ((none, [.unregisterWorker k obj]), s)
  | .destroy micros64 =>
      match s.thread with
      | none => some ((none, []), s)
      | some t =>
          (loop (destroyTurn micros64 n) n (s.list.workerObjHead, s.list, [])).join.map fun r =>
            ((none, r.1 ++ [.deallocate t]), { s with list := r.2 })

variable [DecidableEq κ] in
/-- A worker and its objects as their callers see them. -/
def observed (this : κ) :
    Observed (FreshWorker ι κ τ) (WorkerOp ι) (Option Bool × List (OutCall ι κ τ)) where
  exec := exec this

/-! ## Trigger times are not read -/

omit [DecidableEq ι] in
/-- The same lists, but for the trigger times. -/
def SameList (w w' : WorkerList ι κ) : Prop := ∃ trig, w' = { w with nextTriggerUs := trig }

omit [DecidableEq ι] in
/-- The same workers, but for the trigger times of the objects. -/
def SameWorker (s s' : FreshWorker ι κ τ) : Prop :=
  SameList s.list s'.list ∧ s.running = s'.running ∧ s.thread = s'.thread

variable {this : κ} {w w' : WorkerList ι κ} {s s' : FreshWorker ι κ τ} {obj : ι} {us n : ℕ}

omit [DecidableEq ι] in
theorem SameWorker.symm (h : SameWorker s s') : SameWorker s' s := by
  obtain ⟨⟨trig, hlist⟩, hr, ht⟩ := h
  exact ⟨⟨s.list.nextTriggerUs, by rw [hlist]⟩, hr.symm, ht.symm⟩

omit [DecidableEq ι] in
theorem SameList.workerObjHead_eq (h : SameList w w') : w'.workerObjHead = w.workerObjHead := by
  obtain ⟨trig, rfl⟩ := h
  rfl

omit [DecidableEq ι] in
theorem SameList.next_eq (h : SameList w w') : w'.next = w.next := by
  obtain ⟨trig, rfl⟩ := h
  rfl

omit [DecidableEq ι] in
theorem SameList.worker_eq (h : SameList w w') : w'.worker = w.worker := by
  obtain ⟨trig, rfl⟩ := h
  rfl

theorem SameList.setWorker (h : SameList w w') (obj : ι) (worker : Option κ) (us : ℕ) :
    SameList (w.setWorker obj worker us) (w'.setWorker obj worker us) := by
  obtain ⟨trig, rfl⟩ := h
  exact ⟨_, rfl⟩

theorem SameList.registerTurn (h : SameList w w') (obj curr : ι) :
    Turn.Rel Eq (fun r r' => r.1 = r'.1 ∧ SameList r.2 r'.2) (w.registerTurn obj curr)
      (w'.registerTurn obj curr) := by
  obtain ⟨trig, rfl⟩ := h
  simp only [WorkerList.registerTurn]
  cases w.next curr with
  | none => exact .leave ⟨rfl, trig, rfl⟩
  | some c => exact .again rfl

theorem SameList.registerWorker (h : SameList w w') (this : κ) (us : ℕ) (obj : ι) (n : ℕ) :
    Option.Rel (fun r r' => r.1 = r'.1 ∧ SameList r.2 r'.2) (w.registerWorker this us obj n)
      (w'.registerWorker this us obj n) := by
  have hset := h.setWorker obj (some this) us
  simp only [WorkerList.registerWorker, WorkerList.setWorker_workerObjHead, h.workerObjHead_eq]
  cases w.workerObjHead with
  | none =>
    obtain ⟨trig, htrig⟩ := hset
    exact .some ⟨rfl, trig, by rw [htrig]⟩
  | some head =>
    refine loop_rel (R := Eq) (fun c c' hc => ?_) rfl n
    exact hc ▸ hset.registerTurn obj c

theorem SameList.unregisterTurn (h : SameList w w') (us : ℕ) (obj curr : ι) :
    Turn.Rel Eq SameList (w.unregisterTurn us obj curr) (w'.unregisterTurn us obj curr) := by
  obtain ⟨trig', hset⟩ := h.setWorker obj none us
  obtain ⟨trig, rfl⟩ := h
  simp only [WorkerList.unregisterTurn]
  split_ifs
  · exact .leave ⟨trig', by rw [hset]⟩
  · exact .again rfl

theorem SameList.unregisterWorker (h : SameList w w') (us : ℕ) (obj : ι) (n : ℕ) :
    Option.Rel SameList (w.unregisterWorker us obj n) (w'.unregisterWorker us obj n) := by
  obtain ⟨trig', hset⟩ := h.setWorker obj none us
  simp only [WorkerList.unregisterWorker, h.workerObjHead_eq, h.next_eq]
  cases w.workerObjHead with
  | none => exact .some h
  | some head =>
    dsimp only
    split_ifs
    · exact .some ⟨trig', by rw [hset]⟩
    · refine loop_rel (R := Eq) (fun c c' hc => ?_) rfl n
      exact hc ▸ h.unregisterTurn us obj c

omit [DecidableEq ι] in
theorem SameList.taken_eq (h : SameList w w') (obj : ι) :
    (taken w obj : List (OutCall ι κ τ)) = taken w' obj := by
  obtain ⟨trig, rfl⟩ := h
  rfl

omit [DecidableEq ι] in
/-- The same place in the walk of the destructor, with the same calls made. -/
def SameWalk (p p' : Option ι × WorkerList ι κ × List (OutCall ι κ τ)) : Prop :=
  p.1 = p'.1 ∧ SameList p.2.1 p'.2.1 ∧ p.2.2 = p'.2.2

theorem SameWalk.destroyTurn (micros64 : ι → ℕ) (n : ℕ)
    (p p' : Option ι × WorkerList ι κ × List (OutCall ι κ τ)) (h : SameWalk p p') :
    Turn.Rel SameWalk (Option.Rel fun r r' => r.1 = r'.1 ∧ SameList r.2 r'.2)
      (destroyTurn micros64 n p) (destroyTurn micros64 n p') := by
  obtain ⟨curr, w, calls⟩ := p
  obtain ⟨curr', w', calls'⟩ := p'
  obtain ⟨rfl, hlist, rfl⟩ : curr = curr' ∧ SameList w w' ∧ calls = calls' := h
  cases curr with
  | none => exact .leave (.some ⟨rfl, hlist⟩)
  | some curr =>
    have hnext : w.next curr = w'.next curr := (congrFun hlist.next_eq curr).symm
    have hrel := hlist.unregisterWorker (micros64 curr) curr n
    simp only [FreshWorker.destroyTurn]
    generalize w.unregisterWorker (micros64 curr) curr n = r at hrel ⊢
    generalize w'.unregisterWorker (micros64 curr) curr n = r' at hrel ⊢
    cases hrel with
    | none => exact .leave .none
    | some hr => exact .again ⟨hnext, hr, by rw [hlist.taken_eq]⟩

variable [DecidableEq κ] in
/-- The calls read no trigger time. -/
theorem SameWorker.exec (h : SameWorker s s') (a : WorkerOp ι) :
    Observed.InStep SameWorker (exec this n s a) (exec this n s' a) := by
  obtain ⟨list, running, thread⟩ := s
  obtain ⟨list', running', thread'⟩ := s'
  obtain ⟨hlist, rfl, rfl⟩ : SameList list list' ∧ running = running' ∧ thread = thread' := h
  have hsame {l l' : WorkerList ι κ} (hl : SameList l l') :
      SameWorker (⟨l, running, thread⟩ : FreshWorker ι κ τ) ⟨l', running, thread⟩ := ⟨hl, rfl, rfl⟩
  have htaken (obj : ι) := hlist.taken_eq (τ := τ) obj
  cases a with
  | isRunning => exact .some ⟨rfl, hsame hlist⟩
  | register obj us =>
    refine Observed.InStep.map (hlist.registerWorker this us obj n) ?_
    exact fun r r' hr => ⟨by rw [hr.1], hsame hr.2⟩
  | unregister obj us =>
    refine Observed.InStep.map (hlist.unregisterWorker us obj n) ?_
    exact fun r r' hr => ⟨by rw [htaken], hsame hr⟩
  | destroyObj obj us =>
    simp only [FreshWorker.exec, hlist.worker_eq]
    cases list.worker obj with
    | none => exact .some ⟨rfl, hsame hlist⟩
    | some k =>
      dsimp only
      split_ifs
      · refine Observed.InStep.map (hlist.unregisterWorker us obj n) ?_
        exact fun r r' hr => ⟨by rw [htaken], hsame hr⟩
      · exact .some ⟨rfl, hsame hlist⟩
  | destroy micros64 =>
    cases thread with
    | none => exact .some ⟨rfl, hsame hlist⟩
    | some t =>
      have hstart : SameWalk (τ := τ) (list.workerObjHead, list, [])
          (list'.workerObjHead, list', []) := ⟨hlist.workerObjHead_eq.symm, hlist, rfl⟩
      refine Observed.InStep.map (loop_join_rel (SameWalk.destroyTurn micros64 n) hstart n) ?_
      exact fun r r' hr => ⟨by rw [hr.1], hsame hr.2⟩

variable [DecidableEq κ] in
theorem agreeOn_of_sameWorker (h : SameWorker s s') (A : WorkerOp ι → Prop) :
    (observed this).AgreeOn A s s' :=
  Observed.agreeOn_of_rel (R := SameWorker) (fun _ _ h => h.symm) (fun _ _ _ a _ h => h.exec a) h

/-! ## Telling workers apart -/

omit [DecidableEq ι] in
theorem taken_of_head {a : ι} (h : w.workerObjHead = some a) (obj : ι) :
    (taken w obj : List (OutCall ι κ τ)) = [.setWorker obj none] := by rw [taken, h]

/-- Where no object has a next one, only the first can be taken out. -/
theorem workerObjHead_of_unregisterWorker (hnext : ∀ o, w.next o = none)
    (hret : w.unregisterWorker us obj n = some w') (hhead : w.workerObjHead ≠ none) :
    w.workerObjHead = some obj := by
  obtain ⟨hnone, -⟩ | ⟨hobj, -⟩ | ⟨a, -, -, ha, -⟩ := WorkerList.unregisterWorker_cases hret
  · exact absurd hnone hhead
  · exact hobj
  · cases (hnext a).symm.trans ha

variable [DecidableEq κ]

/-- The destructor of an object first calls the worker it finds there. -/
theorem head?_destroyObj {out : Option Bool × List (OutCall ι κ τ)} {t : FreshWorker ι κ τ}
    (hret : exec this n s (.destroyObj obj us) = some (out, t)) :
    out.2.head? = (s.list.worker obj).map fun k => .unregisterWorker k obj := by
  simp only [exec] at hret
  cases hk : s.list.worker obj with
  | none =>
    simp only [hk] at hret
    obtain ⟨rfl, rfl⟩ := Prod.mk.inj (Option.some.inj hret)
    rfl
  | some k =>
    simp only [hk] at hret
    split_ifs at hret
    · obtain ⟨w, -, hw⟩ := Option.map_eq_some_iff.mp hret
      obtain ⟨rfl, rfl⟩ := Prod.mk.inj hw
      rfl
    · obtain ⟨rfl, rfl⟩ := Prod.mk.inj (Option.some.inj hret)
      rfl

/-- It returns if that is not this one. -/
theorem exists_destroyObj (hne : s.list.worker obj ≠ some this) (us : ℕ) :
    ∃ out, exec this 0 s (.destroyObj obj us) = some (out, s) := by
  simp only [exec]
  cases hk : s.list.worker obj with
  | none => exact ⟨_, rfl⟩
  | some k =>
    have hthis : k ≠ this := fun hthis => hne (hk.trans (congrArg some hthis))
    exact ⟨_, if_neg hthis⟩

/-- The destructor of a worker gives its thread back last, having walked at most one object where
none has a next one. -/
theorem exists_destroy (hnext : ∀ o, s.list.next o = none) {t : τ} (ht : s.thread = some t) :
    ∃ n calls u, exec this n s (.destroy fun _ => 0)
      = some ((none, calls ++ [.deallocate t]), u) := by
  simp only [exec, ht]
  cases hhead : s.list.workerObjHead with
  | none => exact ⟨1, _, _, rfl⟩
  | some a =>
    have hfirst : destroyTurn (fun _ => 0) 2 (some a, s.list, ([] : List (OutCall ι κ τ)))
        = .again (none, { s.list.setWorker a none 0 with workerObjHead := none },
          [.setWorker a none]) := by
      simp only [destroyTurn, WorkerList.unregisterWorker_head hhead, taken_of_head hhead, hnext,
        List.nil_append]
    have hwalk : loop (destroyTurn (fun _ => 0) 2) 2 (some a, s.list, [])
        = some (some (([.setWorker a none] : List (OutCall ι κ τ)),
          { s.list.setWorker a none 0 with workerObjHead := none })) :=
      (loop_of_again hfirst 1).trans (loop_of_leave rfl 0)
    exact ⟨2, _, _, by rw [hwalk]; rfl⟩

/-- Whom it gives back is seen. -/
theorem thread_of_exec {calls : List (OutCall ι κ τ)} {t : τ} {u : FreshWorker ι κ τ}
    {micros64 : ι → ℕ}
    (hret : exec this n s (.destroy micros64) = some ((none, calls ++ [.deallocate t]), u)) :
    s.thread = some t := by
  simp only [exec] at hret
  cases ht : s.thread with
  | none =>
    simp only [ht] at hret
    have hcalls : [] = calls ++ [.deallocate t] := congrArg (fun r => r.1.2) (Option.some.inj hret)
    simp at hcalls
  | some t' =>
    simp only [ht] at hret
    obtain ⟨r, -, hr⟩ := Option.map_eq_some_iff.mp hret
    have hcalls : r.1 ++ [.deallocate t'] = calls ++ [.deallocate t] :=
      congrArg (fun r => r.1.2) hr
    have hlast := List.append_inj_right' hcalls rfl
    rw [OutCall.deallocate.inj (List.singleton_inj.mp hlast)]

section

variable (h : (observed this).AgreeOn (fun _ => True) s s')

include h

theorem exec_of_agreeOn {a : WorkerOp ι} {out : Option Bool × List (OutCall ι κ τ)}
    {t : FreshWorker ι κ τ} (hs : exec this n s a = some (out, t)) :
    ∃ m t', exec this m s' a = some (out, t') :=
  Observed.AgreeOn.exec h trivial hs

theorem running_eq : s.running = s'.running := by
  obtain ⟨m, t', hs'⟩ := exec_of_agreeOn h (a := .isRunning) (n := 0) rfl
  have hout := congrArg (fun r => r.1.1) (Option.some.inj hs')
  exact (Option.some.inj hout).symm

theorem workerObjHead_of_agreeOn (hnext : ∀ o, s'.list.next o = none)
    (hhead : s.list.workerObjHead = some obj) : s'.list.workerObjHead = some obj := by
  have hs : exec this 0 s (.unregister obj 0) = some ((none, [.setWorker obj none]), { s with
      list := { s.list.setWorker obj none 0 with workerObjHead := s.list.next obj } }) := by
    simp only [exec, WorkerList.unregisterWorker_head hhead, taken_of_head hhead,
      Option.map_some]
  obtain ⟨m, t', hs'⟩ := exec_of_agreeOn h hs
  obtain ⟨w', hret, hw'⟩ := Option.map_eq_some_iff.mp hs'
  refine workerObjHead_of_unregisterWorker hnext hret fun hnone => ?_
  have hcalls : (taken s'.list obj : List (OutCall ι κ τ)) = [.setWorker obj none] :=
    congrArg (fun r => r.1.2) hw'
  rw [taken, hnone] at hcalls
  cases hcalls

theorem worker_of_agreeOn (hne : s.list.worker obj ≠ some this) :
    s'.list.worker obj = s.list.worker obj := by
  obtain ⟨out, hs⟩ := exists_destroyObj hne 0
  obtain ⟨m, t', hs'⟩ := exec_of_agreeOn h hs
  have hworker := (head?_destroyObj hs').symm.trans (head?_destroyObj hs)
  refine Option.map_injective (fun k k' hk => ?_) hworker
  exact (OutCall.unregisterWorker.inj hk).1

theorem thread_of_agreeOn (hnext : ∀ o, s.list.next o = none) {t : τ} (ht : s.thread = some t) :
    s'.thread = some t := by
  obtain ⟨n, calls, u, hs⟩ := exists_destroy hnext ht
  obtain ⟨m, u', hs'⟩ := exec_of_agreeOn h hs
  exact thread_of_exec hs'

end

variable {periodUs : ι → Option ℕ} {b b' : WorkerBlocks ι κ τ}

/-- **Blocks make a worker and objects that no call tells apart** exactly if they agree on what the
constructors leave. -/
theorem agreeOn_construct_iff :
    (observed this).AgreeOn (fun _ => True) (construct periodUs b) (construct periodUs b') ↔
      b.running = b'.running ∧ b.workerObjHead = b'.workerObjHead ∧ b.thread = b'.thread ∧
        b.worker = b'.worker := by
  constructor
  · intro h
    have hnext (b : WorkerBlocks ι κ τ) (o : ι) : (construct periodUs b).list.next o = none := rfl
    refine ⟨running_eq h, Option.ext fun a => ⟨?_, ?_⟩, Option.ext fun t => ⟨?_, ?_⟩,
      funext fun o => ?_⟩
    · exact fun ha => workerObjHead_of_agreeOn h (hnext b') ha
    · exact fun ha => workerObjHead_of_agreeOn h.symm (hnext b) ha
    · exact fun ht => thread_of_agreeOn h (hnext b) ht
    · exact fun ht => thread_of_agreeOn h.symm (hnext b') ht
    · by_cases hb : b.worker o = some this
      · by_cases hb' : b'.worker o = some this
        · exact hb.trans hb'.symm
        · exact worker_of_agreeOn h.symm hb'
      · exact (worker_of_agreeOn h hb).symm
  · rintro ⟨hr, hhead, ht, hworker⟩
    refine agreeOn_of_sameWorker ⟨⟨b'.nextTriggerUs, ?_⟩, hr, ht⟩ _
    simp only [construct, hhead, hworker]

end FreshWorker

section

variable {ι κ τ : Type*} [DecidableEq ι] [DecidableEq κ] {γ π α : Type*}

/-- **What a fresh thread or worker does depends on the old contents of its block**, exactly through
the fields that nothing has written: calls on the thread through its masks and, before it is
started, its condition variable; its destruction also through what it finds of its flags, and what
it hands over; and calls on the worker and its objects through the other four. -/
theorem fresh_independent_iff (P : CondVar γ) (threadFunc : Bool) (t t' : ThreadBlock γ π α)
    (periodUs : ι → Option ℕ) (this : κ) (b b' : WorkerBlocks ι κ τ) :
    ((FreshThread.observed P).AgreeOn FreshThread.EventCall (FreshThread.construct threadFunc t)
        (FreshThread.construct threadFunc t') ↔
      FreshThread.SameMasks t t' ∧ t.cond = t'.cond) ∧
    ((FreshThread.observed P).AgreeOn (fun _ => True) (FreshThread.construct threadFunc t)
        (FreshThread.construct threadFunc t') ↔
      (FreshThread.SameMasks t t' ∧ t.cond = t'.cond) ∧ (threadFunc = true → t.thread = t'.thread) ∧
        (t.attrInit = t'.attrInit ∧ (t.attrInit = true → t.attr = t'.attr)) ∧
          t.condInit = t'.condInit) ∧
    (∀ p : PthreadInit γ π α, ((FreshThread.construct threadFunc t).start p).1 = true →
      ((FreshThread.observed P).AgreeOn FreshThread.EventCall
          ((FreshThread.construct threadFunc t).start p).2
          ((FreshThread.construct threadFunc t').start p).2 ↔
        FreshThread.SameMasks t t') ∧
      ((FreshThread.observed P).AgreeOn (fun _ => True)
          ((FreshThread.construct threadFunc t).start p).2
          ((FreshThread.construct threadFunc t').start p).2 ↔
        FreshThread.SameMasks t t' ∧ (threadFunc = false →
          t.attrInit = t'.attrInit ∧ (t.attrInit = true → t.attr = t'.attr)))) ∧
    ((FreshWorker.observed this).AgreeOn (fun _ => True) (FreshWorker.construct periodUs b)
        (FreshWorker.construct periodUs b') ↔
      b.running = b'.running ∧ b.workerObjHead = b'.workerObjHead ∧ b.thread = b'.thread ∧
        b.worker = b'.worker) :=
  ⟨FreshThread.agreeOn_construct_iff, FreshThread.agreeOn_construct_destroy_iff,
    fun _ hstart => FreshThread.agreeOn_start_iff hstart, FreshWorker.agreeOn_construct_iff⟩

end

/-- A started thread whose block held zeros has no event registered, and one whose block held a bit
there has that event; of a worker whose object's block held an address, that object's end is a
call. -/
theorem not_forall_fresh_independent :
    (¬ ∀ (P : CondVar Bool) (p : PthreadInit Bool Bool Bool) (t t' : ThreadBlock Bool Bool Bool),
      (FreshThread.observed P).AgreeOn FreshThread.EventCall
        ((FreshThread.construct true t).start p).2 ((FreshThread.construct true t').start p).2) ∧
    ¬ ∀ b b' : WorkerBlocks (Fin 1) (Fin 2) (Fin 1),
      (FreshWorker.observed 0).AgreeOn (fun _ => True) (FreshWorker.construct (fun _ => none) b)
        (FreshWorker.construct (fun _ => none) b') := by
  constructor
  · intro hall
    have hagree := hall ⟨id, id, fun _ => id⟩ ⟨some true, some true, some, some true⟩
      ⟨0, 0, false, false, false, false, false⟩ ⟨1, 0, false, false, false, false, false⟩
    exact absurd ((FreshThread.agreeOn_start_iff rfl).1.mp hagree).1 (by decide)
  · intro hall
    obtain ⟨-, -, -, hworker⟩ := FreshWorker.agreeOn_construct_iff.mp
      (hall ⟨false, none, none, fun _ => none, fun _ => 0⟩
        ⟨false, none, none, fun _ => some 1, fun _ => 0⟩)
    cases congrFun hworker 0

end LibDronecan
