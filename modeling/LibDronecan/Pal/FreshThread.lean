import LibDronecan.Machinery.Observed
import LibDronecan.Pal.Thread

/-!
# Pal/FreshThread — a `Thread` in a block that was used before

    DC_MALLOC ──▸ ░░░░░░ ──Thread(thread_func)──▸ thread_func ░░░░░ ──start──▸ cond thread attr ░░

The constructor writes `thread_func` and the semaphore.  All other fields are what the block held,
until `start` writes `cond` and `cond_init` and, for a thread with a function, `attr`, `attr_init`
and `thread`; nothing ever writes `registered_events` and `signalled_events` before they are read.
Each of them can be told by calling, by what is returned or by what the pthread calls are handed:
two blocks make the same thread just if they agree there (`agreeOn_construct_iff`), and once it is
started less is left of them (`agreeOn_start_iff`).
-/

open Machinery Machinery.Mask

namespace LibDronecan

/-- What the block holds where the constructor does not write. -/
structure ThreadBlock (κ π α : Type*) where
  registeredEvents : EventMask
  signalledEvents : EventMask
  cond : κ
  thread : π
  attr : α
  attrInit : Bool
  condInit : Bool

/-- The owner's wait, if it is blocked in one. -/
inductive OwnWait where
  | idle
  | inAny (evtMask : EventMask)
  | inAll (evtMask : EventMask)

/-- A `Thread` with the fields its calls and its destructor read; `threadFunc` is whether that
pointer is not null. -/
structure FreshThread (κ π α : Type*) where
  events : Thread
  wait : OwnWait
  cond : κ
  thread : π
  threadFunc : Bool
  attr : α
  attrInit : Bool
  condInit : Bool

/-- A call, by any thread or by the owner, the return of the condition wait, or the destructor. -/
inductive ThreadOp where
  | signal (events : EventMask)
  | registerEvt
  | unregisterEvt (id : ℕ)
  | getRegisteredEvents
  | waitAny (evtMask : EventMask)
  | waitAll (evtMask : EventMask)
  | resume (ret : CondRet)
  | destroy

/-- A pthread call, with what it is handed. -/
inductive PthreadCall (κ π α : Type*) where
  | condSignal (cond : κ)
  | condTimedwait (cond : κ)
  | cancel (thread : π)
  | join (thread : π)
  | attrDestroy (attr : α)
  | condDestroy (cond : κ)

/-- What a call returns, if it does not block. -/
inductive ThreadOut where
  | done
  | event (id : Option ℕ)
  | mask (m : EventMask)
  | any (r : Bool × EventMask)
  | all (ret : Bool)
  | blocked

/-- What the pthread calls leave of a condition variable: a signal, going into a wait, and coming
back from it. -/
structure CondVar (κ : Type*) where
  signal : κ → κ
  timedwait : κ → κ
  wake : CondRet → κ → κ

/-- The pthread calls of `start`: what they write, `none` where they fail.  `attrSet` is all those
that set an attribute. -/
structure PthreadInit (κ π α : Type*) where
  attrInit : Option α
  condInit : Option κ
  attrSet : α → Option α
  create : Option π

namespace FreshThread

variable {κ π α : Type*}

/-- `Thread::Thread` in a block. -/
def construct (threadFunc : Bool) (b : ThreadBlock κ π α) : FreshThread κ π α :=
  ⟨⟨b.registeredEvents, b.signalledEvents⟩, .idle, b.cond, b.thread, threadFunc, b.attr, b.attrInit,
    b.condInit⟩

/-- `Thread::start`. -/
def start (p : PthreadInit κ π α) (s : FreshThread κ π α) : Bool × FreshThread κ π α :=
  if s.threadFunc then
    match p.attrInit with
    | none => (false, s)
    | some a =>
        match p.condInit with
        | none => (false, { s with attr := a, attrInit := true })
        | some c =>
            match p.attrSet a with
            | none => (false, { s with attr := a, attrInit := true, cond := c, condInit := true })
            | some a =>
                match p.create with
                | none =>
                    (false, { s with attr := a, attrInit := true, cond := c, condInit := true })
                | some t =>
                    (true, { s with
                      attr := a, attrInit := true, cond := c, condInit := true, thread := t })
  else
    match p.condInit with
    | none => (false, s)
    | some c => (true, { s with cond := c, condInit := true })

/-- `Thread::~Thread`: its calls. -/
def destroyCalls (s : FreshThread κ π α) : List (PthreadCall κ π α) :=
  (if s.threadFunc then [.cancel s.thread, .join s.thread] else []) ++
    ((if s.attrInit then [.attrDestroy s.attr] else []) ++
      if s.condInit then [.condDestroy s.cond] else [])

variable (P : CondVar κ)

/-- The owner after a piece of a wait: it returns, or goes into the condition wait. -/
def afterWait (s : FreshThread κ π α) (w : OwnWait) (t : Thread) :
    Option ThreadOut → (ThreadOut × List (PthreadCall κ π α)) × FreshThread κ π α
  | some out => ((out, []), { s with events := t, wait := .idle })
  | none =>
      ((.blocked, [.condTimedwait s.cond]),
        { s with events := t, wait := w, cond := P.timedwait s.cond })

/-- The condition wait has come back. -/
def wake (s : FreshThread κ π α) (ret : CondRet) : FreshThread κ π α :=
  { s with cond := P.wake ret s.cond }

/-- One call.  The owner makes none while it is blocked, and the condition wait returns only
then. -/
def call (s : FreshThread κ π α) :
    ThreadOp → (ThreadOut × List (PthreadCall κ π α)) × FreshThread κ π α
  | .signal e =>
      if e &&& s.events.registeredEvents ≠ 0 then
        ((.done, [.condSignal s.cond]),
          { s with events := s.events.signal e, cond := P.signal s.cond })
      else ((.done, []), s)
  | .registerEvt =>
      ((.event s.events.registerEvt.1, []), { s with events := s.events.registerEvt.2 })
  | .unregisterEvt id => ((.done, []), { s with events := s.events.unregisterEvt id })
  | .getRegisteredEvents => ((.mask s.events.registeredEvents, []), s)
  | .waitAny m =>
      match s.wait with
      | .idle => s.afterWait P (.inAny m) (s.events.waitAny m).1 ((s.events.waitAny m).2.map .any)
      | _ => ((.done, []), s)
  | .waitAll m =>
      match s.wait with
      | .idle => s.afterWait P (.inAll m) (s.events.waitAll m).1 ((s.events.waitAll m).2.map .all)
      | _ => ((.done, []), s)
  | .resume ret =>
      match s.wait with
      | .idle => ((.done, []), s)
      | .inAny m =>
          (s.wake P ret).afterWait P (.inAny m) (s.events.waitAnyResume m ret).1
            ((s.events.waitAnyResume m ret).2.map .any)
      | .inAll m =>
          (s.wake P ret).afterWait P (.inAll m) (s.events.waitAllResume m ret).1
            ((s.events.waitAllResume m ret).2.map .all)
  | .destroy => ((.done, s.destroyCalls), s)

/-- A thread as its callers and the pthread library see it. -/
def observed : Observed (FreshThread κ π α) ThreadOp (ThreadOut × List (PthreadCall κ π α)) where
  exec _ s a := some (s.call P a)

/-- The calls other than the destructor. -/
def EventCall : ThreadOp → Prop
  | .destroy => False
  | _ => True

variable {P} {s s' : FreshThread κ π α} {A : ThreadOp → Prop}

/-! ## What the calls go by -/

/-- The same events, the same wait and the same condition variable: all that the event calls go
by. -/
def SameEvents (s s' : FreshThread κ π α) : Prop :=
  s.events = s'.events ∧ s.wait = s'.wait ∧ s.cond = s'.cond

/-- The same of what else the destructor goes by: what it does not hand over may differ. -/
structure SameEnd (s s' : FreshThread κ π α) : Prop where
  threadFunc : s.threadFunc = s'.threadFunc
  thread : s.threadFunc = true → s.thread = s'.thread
  attrInit : s.attrInit = s'.attrInit
  attr : s.attrInit = true → s.attr = s'.attr
  condInit : s.condInit = s'.condInit

theorem SameEvents.symm (h : SameEvents s s') : SameEvents s' s :=
  ⟨h.1.symm, h.2.1.symm, h.2.2.symm⟩

theorem SameEvents.afterWait (h : SameEvents s s') (w : OwnWait) (t : Thread)
    (out : Option ThreadOut) :
    (s.afterWait P w t out).1 = (s'.afterWait P w t out).1 ∧
      SameEvents (s.afterWait P w t out).2 (s'.afterWait P w t out).2 := by
  obtain ⟨-, -, hcond⟩ := h
  cases out with
  | some out => exact ⟨rfl, rfl, rfl, hcond⟩
  | none =>
    refine ⟨?_, rfl, rfl, ?_⟩
    · simp only [FreshThread.afterWait, hcond]
    · exact congrArg P.timedwait hcond

theorem SameEvents.call (h : SameEvents s s') {a : ThreadOp} (ha : EventCall a) :
    (s.call P a).1 = (s'.call P a).1 ∧ SameEvents (s.call P a).2 (s'.call P a).2 := by
  obtain ⟨t, w, c, thread, func, attr, ai, ci⟩ := s
  obtain ⟨t', w', c', thread', func', attr', ai', ci'⟩ := s'
  have hsame {c c' : κ} (hc : c = c') : SameEvents (⟨t, w, c, thread, func, attr, ai, ci⟩ :
      FreshThread κ π α) ⟨t, w, c', thread', func', attr', ai', ci'⟩ := ⟨rfl, rfl, hc⟩
  obtain ⟨rfl, rfl, rfl⟩ : t = t' ∧ w = w' ∧ c = c' := h
  cases a with
  | signal e =>
    simp only [FreshThread.call]
    split_ifs
    · exact ⟨rfl, rfl, rfl, rfl⟩
    · exact ⟨rfl, hsame rfl⟩
  | registerEvt | unregisterEvt | getRegisteredEvents => exact ⟨rfl, rfl, rfl, rfl⟩
  | waitAny | waitAll =>
    cases w with
    | idle => exact (hsame rfl).afterWait _ _ _
    | inAny | inAll => exact ⟨rfl, hsame rfl⟩
  | resume =>
    cases w with
    | idle => exact ⟨rfl, hsame rfl⟩
    | inAny | inAll => exact (hsame rfl).afterWait _ _ _
  | destroy => exact ha.elim

theorem exists_afterWait (s : FreshThread κ π α) (w : OwnWait) (t : Thread)
    (out : Option ThreadOut) : ∃ w' c,
      (s.afterWait P w t out).2 = { s with events := t, wait := w', cond := c } := by
  cases out with
  | some out => exact ⟨_, _, rfl⟩
  | none => exact ⟨_, _, rfl⟩

/-- No call touches what the destructor goes by, the condition variable apart. -/
theorem exists_call (s : FreshThread κ π α) (a : ThreadOp) : ∃ t w c,
    (s.call P a).2 = { s with events := t, wait := w, cond := c } := by
  cases a with
  | signal e =>
    simp only [FreshThread.call]
    split_ifs
    · exact ⟨_, _, _, rfl⟩
    · exact ⟨_, _, _, rfl⟩
  | registerEvt | unregisterEvt | getRegisteredEvents | destroy => exact ⟨_, _, _, rfl⟩
  | waitAny | waitAll =>
    cases hw : s.wait with
    | idle =>
      simp only [FreshThread.call, hw]
      exact ⟨_, exists_afterWait s _ _ _⟩
    | inAny | inAll =>
      simp only [FreshThread.call, hw]
      exact ⟨_, _, _, rfl⟩
  | resume ret =>
    cases hw : s.wait with
    | idle =>
      simp only [FreshThread.call, hw]
      exact ⟨_, _, _, rfl⟩
    | inAny | inAll =>
      simp only [FreshThread.call, hw]
      exact ⟨_, exists_afterWait (s.wake P ret) _ _ _⟩

theorem SameEnd.symm (h : SameEnd s s') : SameEnd s' s where
  threadFunc := h.threadFunc.symm
  thread hf := (h.thread (h.threadFunc.trans hf)).symm
  attrInit := h.attrInit.symm
  attr ha := (h.attr (h.attrInit.trans ha)).symm
  condInit := h.condInit.symm

theorem SameEnd.call (h : SameEnd s s') (a : ThreadOp) :
    SameEnd (s.call P a).2 (s'.call P a).2 := by
  obtain ⟨t, w, c, hs⟩ := exists_call (P := P) s a
  obtain ⟨t', w', c', hs'⟩ := exists_call (P := P) s' a
  rw [hs, hs']
  exact ⟨h.threadFunc, h.thread, h.attrInit, h.attr, h.condInit⟩

theorem SameEnd.destroyCalls_eq (h : SameEnd s s') (hcond : s.cond = s'.cond) :
    s.destroyCalls = s'.destroyCalls := by
  have hthread : (if s.threadFunc then [.cancel s.thread, .join s.thread] else [] :
      List (PthreadCall κ π α)) = if s'.threadFunc then [.cancel s'.thread, .join s'.thread]
        else [] :=
    ite_congr (by rw [h.threadFunc]) (fun hf => by rw [h.thread (h.threadFunc.trans hf)])
      fun _ => rfl
  have hattr : (if s.attrInit then [.attrDestroy s.attr] else [] : List (PthreadCall κ π α))
      = if s'.attrInit then [.attrDestroy s'.attr] else [] :=
    ite_congr (by rw [h.attrInit]) (fun ha => by rw [h.attr (h.attrInit.trans ha)]) fun _ => rfl
  rw [destroyCalls, destroyCalls, hthread, hattr, h.condInit, hcond]

theorem agreeOn_of_sameEvents (h : SameEvents s s') : (observed P).AgreeOn EventCall s s' :=
  Observed.agreeOn_of_rel (R := SameEvents) (fun _ _ h => h.symm)
    (fun _ _ _ _ ha h => .some (h.call ha)) h

theorem agreeOn_of_sameEnd (h : SameEvents s s') (hend : SameEnd s s') :
    (observed P).AgreeOn (fun _ => True) s s' := by
  refine Observed.agreeOn_of_rel (R := fun s s' => SameEvents s s' ∧ SameEnd s s')
    (fun _ _ h => ⟨h.1.symm, h.2.symm⟩) (fun _ s s' a _ h => ?_) ⟨h, hend⟩
  obtain ⟨h, hend⟩ := h
  by_cases ha : EventCall a
  · exact .some ⟨(h.call ha).1, (h.call ha).2, hend.call a⟩
  · cases a with
    | destroy => exact .some ⟨congrArg (Prod.mk _) (hend.destroyCalls_eq h.2.2), h, hend⟩
    | signal | registerEvt | unregisterEvt | getRegisteredEvents => exact absurd trivial ha
    | waitAny | waitAll | resume => exact absurd trivial ha

/-! ## Telling threads apart -/

/-- What is seen of a call is seen of it in a thread that agrees. -/
theorem call_eq_of_agreeOn (h : (observed P).AgreeOn A s s') {a : ThreadOp} (ha : A a) :
    (s.call P a).1 = (s'.call P a).1 := by
  obtain ⟨_, t', hs'⟩ := h.exec (n := 0) (t := (s.call P a).2) ha rfl
  exact (congrArg Prod.fst (Option.some.inj hs')).symm

theorem registeredEvents_eq (h : (observed P).AgreeOn A s s') (hA : A .getRegisteredEvents) :
    s.events.registeredEvents = s'.events.registeredEvents :=
  ThreadOut.mask.inj (congrArg Prod.fst (call_eq_of_agreeOn h hA))

/-- Waiting for one event tells whether it is pending. -/
theorem call_waitAny_twoPow (hs : s.wait = .idle) {i : ℕ} (hi : i < 32) :
    (s.call P (.waitAny (BitVec.twoPow 32 i))).1.1
      = if i ∈ s.events.signalledEvents then .any (true, BitVec.twoPow 32 i) else .blocked := by
  have hmeet : s.events.signalledEvents &&& BitVec.twoPow 32 i ≠ 0 ↔
      i ∈ s.events.signalledEvents := by
    rw [and_ne_zero_iff]
    constructor
    · rintro ⟨j, hj, hji⟩
      rwa [← (mem_twoPow hi).mp hji]
    · exact fun hmem => ⟨i, hmem, (mem_twoPow hi).mpr rfl⟩
  simp only [FreshThread.call, hs, Thread.waitAny_eq, hmeet]
  split_ifs <;> rfl

theorem signalledEvents_eq (h : (observed P).AgreeOn A s s') (hA : ∀ m, A (.waitAny m))
    (hs : s.wait = .idle) (hs' : s'.wait = .idle) :
    s.events.signalledEvents = s'.events.signalledEvents := by
  refine BitVec.eq_of_getLsbD_eq fun i hi => Bool.eq_iff_iff.mpr ?_
  have hout := congrArg Prod.fst (call_eq_of_agreeOn h (hA (BitVec.twoPow 32 i)))
  rw [call_waitAny_twoPow hs hi, call_waitAny_twoPow hs' hi] at hout
  change i ∈ s.events.signalledEvents ↔ i ∈ s'.events.signalledEvents
  split_ifs at hout with h₁ h₂ h₂
  · exact iff_of_true h₁ h₂
  · exact iff_of_false h₁ h₂

/-- Waiting for no event blocks, on the condition variable there is. -/
theorem call_waitAny_zero (hs : s.wait = .idle) :
    (s.call P (.waitAny 0)).1.2 = [.condTimedwait s.cond] := by
  have hblock : s.events.waitAny 0 = (s.events, none) := by
    rw [Thread.waitAny_eq, if_neg (not_not.mpr (and_eq_zero_iff.mpr fun _ _ => notMem_zero))]
  simp only [FreshThread.call, hs, hblock]
  rfl

theorem cond_eq (h : (observed P).AgreeOn A s s') (hA : ∀ m, A (.waitAny m))
    (hs : s.wait = .idle) (hs' : s'.wait = .idle) : s.cond = s'.cond := by
  have hout := congrArg Prod.snd (call_eq_of_agreeOn h (hA 0))
  rw [call_waitAny_zero hs, call_waitAny_zero hs'] at hout
  exact PthreadCall.condTimedwait.inj (List.singleton_inj.mp hout)

/-- The destructor tells its flags, and what they guard. -/
theorem sameEnd_of_agreeOn (h : (observed P).AgreeOn A s s') (hA : A .destroy)
    (hfunc : s.threadFunc = s'.threadFunc) : SameEnd s s' := by
  have hout : s.destroyCalls = s'.destroyCalls := congrArg Prod.snd (call_eq_of_agreeOn h hA)
  rw [destroyCalls, destroyCalls, ← hfunc] at hout
  obtain ⟨hthread, hrest⟩ := List.append_inj hout (by split_ifs <;> rfl)
  have hattr : (s.attrInit = s'.attrInit ∧ (s.attrInit = true → s.attr = s'.attr)) ∧
      s.condInit = s'.condInit := by
    revert hrest
    cases s.attrInit <;> cases s'.attrInit <;> cases s.condInit <;> cases s'.condInit <;>
      simp +contextual
  refine ⟨hfunc, fun hf => ?_, hattr.1.1, hattr.1.2, hattr.2⟩
  rw [if_pos hf, if_pos hf] at hthread
  exact PthreadCall.cancel.inj (List.cons.inj hthread).1

/-! ## Made in a block, and started -/

/-- **Two idle threads are told apart by no event call** exactly if they have the same events and
the same condition variable… -/
theorem agreeOn_event_iff (hs : s.wait = .idle) (hs' : s'.wait = .idle) :
    (observed P).AgreeOn EventCall s s' ↔ s.events = s'.events ∧ s.cond = s'.cond := by
  constructor
  · intro h
    refine ⟨?_, cond_eq h (fun _ => trivial) hs hs'⟩
    have hr := registeredEvents_eq h trivial
    have hp := signalledEvents_eq h (fun _ => trivial) hs hs'
    obtain ⟨⟨r, e⟩, _⟩ := s
    obtain ⟨⟨r', e'⟩, _⟩ := s'
    exact congrArg₂ Thread.mk hr hp
  · exact fun h => agreeOn_of_sameEvents ⟨h.1, hs.trans hs'.symm, h.2⟩

/-- …and by no call at all if, besides, their destructors go by the same. -/
theorem agreeOn_iff (hs : s.wait = .idle) (hs' : s'.wait = .idle)
    (hfunc : s.threadFunc = s'.threadFunc) : (observed P).AgreeOn (fun _ => True) s s' ↔
      (s.events = s'.events ∧ s.cond = s'.cond) ∧ SameEnd s s' := by
  constructor
  · intro h
    have hevent : (observed P).AgreeOn EventCall s s' := fun as bs _ => h as bs fun _ _ => trivial
    exact ⟨(agreeOn_event_iff hs hs').mp hevent, sameEnd_of_agreeOn h trivial hfunc⟩
  · exact fun ⟨h, hend⟩ => agreeOn_of_sameEnd ⟨h.1, hs.trans hs'.symm, h.2⟩ hend

variable {b b' : ThreadBlock κ π α} {func : Bool} {p : PthreadInit κ π α}

/-- The blocks agree where the two masks come to lie. -/
def SameMasks (b b' : ThreadBlock κ π α) : Prop :=
  b.registeredEvents = b'.registeredEvents ∧ b.signalledEvents = b'.signalledEvents

/-- **Two blocks make threads that no event call tells apart** exactly if they agree where the two
masks and the condition variable come to lie… -/
theorem agreeOn_construct_iff :
    (observed P).AgreeOn EventCall (construct func b) (construct func b') ↔
      SameMasks b b' ∧ b.cond = b'.cond :=
  (agreeOn_event_iff rfl rfl).trans (and_congr_left' (Thread.mk.injEq _ _ _ _ ▸ Iff.rfl))

/-- **…and threads whose destruction does not tell them apart either** if they also agree where the
flags do, and what is handed over if these are set. -/
theorem agreeOn_construct_destroy_iff :
    (observed P).AgreeOn (fun _ => True) (construct func b) (construct func b') ↔
      (SameMasks b b' ∧ b.cond = b'.cond) ∧ (func = true → b.thread = b'.thread) ∧
        (b.attrInit = b'.attrInit ∧ (b.attrInit = true → b.attr = b'.attr)) ∧
          b.condInit = b'.condInit := by
  refine Iff.trans (agreeOn_iff rfl rfl rfl) (and_congr ?_ ?_)
  · exact and_congr_left' (Thread.mk.injEq _ _ _ _ ▸ Iff.rfl)
  · exact ⟨fun h => ⟨h.thread, ⟨h.attrInit, h.attr⟩, h.condInit⟩,
      fun h => ⟨rfl, h.1, h.2.1.1, h.2.1.2, h.2.2⟩⟩

/-- Started, a thread is as if its block had held what `start` writes. -/
theorem exists_start (h : ((construct func b).start p).1 = true) :
    ∃ c a t, ∀ b : ThreadBlock κ π α, ((construct func b).start p).2 = construct func { b with
      cond := c, condInit := true, attr := if func then a else b.attr,
      attrInit := func || b.attrInit, thread := if func then t else b.thread } := by
  cases func with
  | false =>
    cases hc : p.condInit with
    | none => simp [start, construct, hc] at h
    | some c => exact ⟨c, b.attr, b.thread, fun b => by simp [start, construct, hc]⟩
  | true =>
    cases ha : p.attrInit with
    | none => simp [start, construct, ha] at h
    | some a =>
      cases hc : p.condInit with
      | none => simp [start, construct, ha, hc] at h
      | some c =>
        cases hset : p.attrSet a with
        | none => simp [start, construct, ha, hc, hset] at h
        | some a' =>
          cases ht : p.create with
          | none => simp [start, construct, ha, hc, hset, ht] at h
          | some t => exact ⟨c, a', t, fun b => by simp [start, construct, ha, hc, hset, ht]⟩

/-- **Of a thread that was started, the event calls tell the masks only**, and its destruction
besides, for one without a function, what it finds of the attributes. -/
theorem agreeOn_start_iff (h : ((construct func b).start p).1 = true) :
    ((observed P).AgreeOn EventCall ((construct func b).start p).2 ((construct func b').start p).2 ↔
      SameMasks b b') ∧
    ((observed P).AgreeOn (fun _ => True) ((construct func b).start p).2
        ((construct func b').start p).2 ↔
      SameMasks b b' ∧ (func = false →
        b.attrInit = b'.attrInit ∧ (b.attrInit = true → b.attr = b'.attr))) := by
  obtain ⟨c, a, t, hstart⟩ := exists_start h
  rw [hstart b, hstart b', agreeOn_construct_iff, agreeOn_construct_destroy_iff]
  refine ⟨and_iff_left rfl, and_congr (and_iff_left rfl) ?_⟩
  cases func with
  | false => exact ⟨fun hend _ => hend.2.1, fun hend => ⟨fun hf => (by cases hf), hend rfl, rfl⟩⟩
  | true => exact ⟨fun _ hf => (by cases hf), fun _ => ⟨fun _ => rfl, ⟨rfl, fun _ => rfl⟩, rfl⟩⟩

end FreshThread

end LibDronecan
