import LibDronecan.DataIface.HwSemaphore

/-!
# DataIface/ShMemRx — `ShMemIface::update_rx` against a sender on the other core

    registerMask ──▸ enable ──▸ wait ──▸ disable ──▸ lock, pop ──▸ release ──▸ clear ──▸ callback
                       ▲                                ▲                        │ empty    │
                       │                                └────────────────────────┼──────────┘
                       └─────────────────────────────────────────────────────────┘

The receiver pops until the queue is empty and goes back to sleep; a sender's release raises the
flag that wakes it.  The flag is cleared by the receiver's own destructor *after* it has released,
so a sender that locks, pushes and releases in between raises a flag that is cleared unseen.  Every
other window is covered, by the flag, the event it turns into, or a sender about to raise it
(`Kept`): `always_not_stuck`.
-/

open Machinery Machinery.Mask

namespace LibDronecan

def Core.other : Core → Core
  | .cm7 => .cm4
  | .cm4 => .cm7

/-- `RX_HSEM_INDEX`. -/
def rxHsemIndex : Core → Fin 32
  | .cm7 => ⟨1, by decide⟩
  | .cm4 => ⟨0, by decide⟩

/-- `TX_HSEM_INDEX`. -/
def txHsemIndex : Core → Fin 32
  | .cm7 => ⟨0, by decide⟩
  | .cm4 => ⟨1, by decide⟩

/-- What a core sends under is what the other one receives under. -/
theorem txHsemIndex_other (c : Core) : txHsemIndex c.other = rxHsemIndex c := by cases c <;> rfl

theorem Core.other_ne (c : Core) : c.other ≠ c := by cases c <;> decide

/-- The two threads of a link. -/
inductive Side
  | rx
  | tx
  deriving DecidableEq

/-- The receiving thread runs on `c`, the sending one on the other core. -/
def sideCore (c : Core) : Side → Core
  | .rx => c
  | .tx => c.other

/-- Where the receiver is in `update_rx`; in `lock` it is in the constructor, and then pops. -/
inductive RxPc
  | registerMask
  | enableRead
  | enableWrite (ier : Word)
  | wait
  | disableRead
  | disableWrite (ier : Word)
  | lock
  | release (popped : Option CanardCANFrame)
  | clear (popped : Option CanardCANFrame)
  | callback (frame : CanardCANFrame)

/-- Where the sender is in `send`; in `lock` it is in the constructor, and then pushes. -/
inductive TxPc
  | idle
  | lock
  | release
  | clear
  deriving DecidableEq

/-- The link: the semaphores, the two threads, and the buffer as the queue it stands for. -/
structure Link where
  sem : Hsem Side
  rx : RxPc
  tx : TxPc
  queue : List CanardCANFrame

/-- A step of the receiver; a call of `send`, a step of it, its `push`, which may find no room; a
step of a core's handler. -/
inductive LinkAct
  | rx
  | send
  | tx
  | push (frame : CanardCANFrame) (accepted : Bool)
  | handler (c : Core)

namespace Link

variable (c : Core)

/-- Nothing queued, and `update_rx` about to start; flags may be raised. -/
def start (isr : Core → Word) : Link := ⟨Hsem.start isr, .registerMask, .idle, []⟩

/-- A step of `update_rx`. -/
def rxStep (s : Link) : Option Link :=
  match s.rx with
  | .registerMask => (s.sem.step (sideCore c) (.registerMask .rx (bit (rxHsemIndex c)))).map
      fun sem => { s with sem := sem, rx := .enableRead }
  | .enableRead => (s.sem.step (sideCore c) (.pass .rx)).map
      fun sem => { s with sem := sem, rx := .enableWrite (s.sem.ier c) }
  | .enableWrite ier =>
      (s.sem.step (sideCore c) (.writeIer .rx (ier ||| bit (rxHsemIndex c)))).map
        fun sem => { s with sem := sem, rx := .wait }
  | .wait => (s.sem.step (sideCore c) (.waitAny .rx (bit (rxHsemIndex c)))).map
      fun sem => { s with sem := sem, rx := .disableRead }
  | .disableRead => (s.sem.step (sideCore c) (.pass .rx)).map
      fun sem => { s with sem := sem, rx := .disableWrite (s.sem.ier c) }
  | .disableWrite ier =>
      (s.sem.step (sideCore c) (.writeIer .rx (ier &&& ~~~bit (rxHsemIndex c)))).map
        fun sem => { s with sem := sem, rx := .lock }
  | .lock =>
      match s.sem.pc .rx with
      | .outside => (s.sem.step (sideCore c) (.enter .rx (rxHsemIndex c))).map
          fun sem => { s with sem := sem }
      | .inside _ _ => (s.sem.step (sideCore c) (.pass .rx)).map
          fun sem => { s with sem := sem, rx := .release s.queue.head?, queue := s.queue.tail }
      | _ => (s.sem.step (sideCore c) (.access .rx)).map fun sem => { s with sem := sem }
  | .release popped => (s.sem.step (sideCore c) (.access .rx)).map
      fun sem => { s with sem := sem, rx := .clear popped }
  | .clear none => (s.sem.step (sideCore c) (.access .rx)).map
      fun sem => { s with sem := sem, rx := .enableRead }
  | .clear (some frame) => (s.sem.step (sideCore c) (.access .rx)).map
      fun sem => { s with sem := sem, rx := .callback frame }
  | .callback _ => (s.sem.step (sideCore c) (.pass .rx)).map
      fun sem => { s with sem := sem, rx := .lock }

/-- A step of `send` up to its `push`, and after it. -/
def txStep (s : Link) : Option Link :=
  match s.tx with
  | .idle => none
  | .lock =>
      match s.sem.pc .tx with
      | .inside _ _ => none
      | _ => (s.sem.step (sideCore c) (.access .tx)).map fun sem => { s with sem := sem }
  | .release => (s.sem.step (sideCore c) (.access .tx)).map
      fun sem => { s with sem := sem, tx := .clear }
  | .clear => (s.sem.step (sideCore c) (.access .tx)).map
      fun sem => { s with sem := sem, tx := .idle }

def step (s : Link) : LinkAct → Option Link
  | .rx => s.rxStep c
  | .send =>
      match s.tx with
      | .idle => (s.sem.step (sideCore c) (.enter .tx (txHsemIndex c.other))).map
          fun sem => { s with sem := sem, tx := .lock }
      | _ => none
  | .tx => s.txStep c
  | .push frame accepted =>
      match s.tx, s.sem.pc .tx with
      | .lock, .inside _ _ => (s.sem.step (sideCore c) (.pass .tx)).map
          fun sem => { s with
            sem := sem, tx := .release
            queue := if accepted then s.queue ++ [frame] else s.queue }
      | _, _ => none
  | .handler c' => (s.sem.step (sideCore c) (.handler c')).map fun sem => { s with sem := sem }

/-- One receiver, one sender, and the handlers, in any interleaving. -/
def machine : Machine Link LinkAct := ⟨step c⟩

/-- **A lost wake-up**: frames are queued and the semaphore is free, the receiver is blocked, and
nothing on its core is left to wake it. -/
def Stuck (s : Link) : Prop :=
  s.rx = .wait ∧ (rxHsemIndex c : ℕ) ∉ s.sem.pending .rx ∧ s.sem.owner (rxHsemIndex c) = none ∧
    s.queue ≠ [] ∧ s.sem.handler c = .off ∧ (rxHsemIndex c : ℕ) ∉ s.sem.isr c

end Link

end LibDronecan
