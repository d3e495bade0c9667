import LibDronecan.DataIface.ShMemRx

/-!
# DataIface/ShMemWake — no wake-up is lost, but in one window

    queue ≠ []  ⟹   holding ∨ pending ∨ handler about to signal ∨ flag raised
                     sender    receiver's      of the receiver's core

From the moment the receiver stops popping until it is woken, frames in the queue are owed a
wake-up, and one of four things still stands for it.  Each turns into the next: the sender's release
raises the flag, the flag starts the handler, the handler makes the event pending.  The receiver's
destructor takes the flag away, so between its release and that write the flag does not count.
-/

open Machinery Machinery.Mask

namespace LibDronecan

/-! ## What an access leaves alone -/

theorem mem_bit (i : Fin 32) : (i : ℕ) ∈ bit i := (mem_twoPow i.isLt).mpr rfl

/-- The semaphore whose constructor a thread is in, or has returned from. -/
def SemPc.constructing : SemPc → Option (Fin 32)
  | .outside => none
  | .enableRead i => some i
  | .enableWrite i _ => some i
  | .register i => some i
  | .lockTest i => some i
  | .ownerTest i => some i
  | .wait i => some i
  | .unregister i => some i
  | .disableRead i => some i
  | .disableWrite i _ => some i
  | .keyRead i => some i
  | .inside i _ => some i
  | .clear _ => none

/-- The listener that the constructor has registered. -/
def SemPc.listened : SemPc → List Word
  | .lockTest i => [bit i]
  | .ownerTest i => [bit i]
  | .wait i => [bit i]
  | .unregister i => [bit i]
  | _ => []

/-- The thread that takes a step. -/
def SemAct.thread {T : Type*} : SemAct T → Option T
  | .enter t _ => some t
  | .access t => some t
  | .handler _ => none
  | .registerMask t _ => some t
  | .writeIer t _ => some t
  | .waitAny t _ => some t
  | .pass t => some t

namespace Hsem

variable {T : Type*} (core : T → Core)

theorem readRlr_listeners (s : Hsem T) (c : Core) (i : Fin 32) :
    (s.readRlr c i).2.listeners = s.listeners := by
  unfold readRlr
  split <;> rfl

theorem writeR_listeners (s : Hsem T) (i : Fin 32) (value : Word) :
    (s.writeR i value).listeners = s.listeners := by
  unfold writeR
  split
  · rfl
  · split_ifs <;> rfl

theorem writeR_handler (s : Hsem T) (i : Fin 32) (value : Word) :
    (s.writeR i value).handler = s.handler := by
  unfold writeR
  split
  · rfl
  · split_ifs <;> rfl

/-- **Seen from one thread, nothing has happened** but that flags may have been raised. -/
structure SameFor (t : T) (s s' : Hsem T) : Prop where
  pc : s'.pc t = s.pc t
  listeners : s'.listeners t = s.listeners t
  pending : s'.pending t = s.pending t
  ier : s'.ier (core t) = s.ier (core t)
  handler : s'.handler (core t) = s.handler (core t)
  isr : s.isr (core t) ⊆ s'.isr (core t)

variable {core} {s s' : Hsem T} {t t' : T} {i : Fin 32}

theorem SameFor.refl (t : T) (s : Hsem T) : SameFor core t s s :=
  ⟨rfl, rfl, rfl, rfl, rfl, subset_refl _⟩

theorem SameFor.readRlr (h : SameFor core t s s') (c : Core) (i : Fin 32) :
    SameFor core t s (s'.readRlr c i).2 := by
  unfold Hsem.readRlr
  split
  · exact ⟨h.pc, h.listeners, h.pending, h.ier, h.handler, h.isr⟩
  · exact h

theorem SameFor.writeR (h : SameFor core t s s') (i : Fin 32) (value : Word) :
    SameFor core t s (s'.writeR i value) := by
  unfold Hsem.writeR
  split
  · exact h
  · split_ifs
    · exact ⟨h.pc, h.listeners, h.pending, h.ier, h.handler,
        subset_trans h.isr (subset_or_left _ _)⟩
    · exact h

theorem SameFor.writeIcr (h : SameFor core t s s') {c : Core} (hc : core t ≠ c) (flags : Word) :
    SameFor core t s (s'.writeIcr c flags) :=
  ⟨h.pc, h.listeners, h.pending, h.ier, h.handler, by
    change _ ⊆ Function.update s'.isr c _ (core t)
    rw [Function.update_of_ne hc]
    exact h.isr⟩

theorem SameFor.setIer (h : SameFor core t s s') {c : Core} (hc : core t ≠ c) (ier : Word) :
    SameFor core t s (s'.setIer c ier) :=
  ⟨h.pc, h.listeners, h.pending, (Function.update_of_ne hc _ _).trans h.ier, h.handler, h.isr⟩

/-- **A core's handler leaves threads of the other core alone.** -/
theorem sameFor_handlerStep {c : Core} (hc : core t ≠ c) (hst : s.handlerStep core c = some s') :
    SameFor core t s s' ∧ s'.pc = s.pc := by
  have hhandler (pc : HandlerPc) : Function.update s.handler c pc (core t) = s.handler (core t) :=
    Function.update_of_ne hc pc s.handler
  unfold Hsem.handlerStep at hst
  cases hpc : s.handler c with
  | off =>
    simp only [hpc] at hst
    split_ifs at hst
    obtain rfl := Option.some.inj hst
    exact ⟨⟨rfl, rfl, rfl, rfl, hhandler _, subset_refl _⟩, rfl⟩
  | broadcast =>
    simp only [hpc] at hst
    obtain rfl := Option.some.inj hst
    exact ⟨⟨rfl, rfl, if_neg hc, rfl, hhandler _, subset_refl _⟩, rfl⟩
  | reread =>
    simp only [hpc] at hst
    obtain rfl := Option.some.inj hst
    exact ⟨⟨rfl, rfl, rfl, rfl, hhandler _, subset_refl _⟩, rfl⟩
  | clear flags =>
    simp only [hpc] at hst
    obtain rfl := Option.some.inj hst
    exact ⟨⟨rfl, rfl, rfl, rfl, hhandler _, ((SameFor.refl t s).writeIcr hc flags).isr⟩, rfl⟩

variable [DecidableEq T]

theorem SameFor.setPc (h : SameFor core t s s') (ht : t ≠ t') (pc : SemPc) :
    SameFor core t s (s'.setPc t' pc) :=
  ⟨(setPc_pc_of_ne ht s' pc).trans h.pc, h.listeners, h.pending, h.ier, h.handler, h.isr⟩

theorem SameFor.setPending (h : SameFor core t s s') (ht : t ≠ t') (events : Word) :
    SameFor core t s (s'.setPending t' events) :=
  ⟨h.pc, h.listeners, (Function.update_of_ne ht _ _).trans h.pending, h.ier, h.handler, h.isr⟩

theorem SameFor.setListeners (h : SameFor core t s s') (ht : t ≠ t') (ls : List Word) :
    SameFor core t s (s'.setListeners t' ls) :=
  ⟨h.pc, (Function.update_of_ne ht _ _).trans h.listeners, h.pending, h.ier, h.handler, h.isr⟩

/-- **An access leaves threads of the other core alone.** -/
theorem sameFor_access (ht : t ≠ t') (hc : core t ≠ core t') (hst : s.access core t' = some s') :
    SameFor core t s s' := by
  have h : SameFor core t s s := SameFor.refl t s
  unfold Hsem.access at hst
  cases hpc : s.pc t' with
  | outside => simp only [hpc, reduceCtorEq] at hst
  | enableRead i | disableRead i =>
    simp only [hpc, Option.some.injEq] at hst
    exact hst ▸ h.setPc ht _
  | enableWrite i ier | disableWrite i ier =>
    simp only [hpc, Option.some.injEq] at hst
    exact hst ▸ (h.setIer hc _).setPc ht _
  | register i | unregister i =>
    simp only [hpc, Option.some.injEq] at hst
    exact hst ▸ (h.setListeners ht _).setPc ht _
  | lockTest i | ownerTest i | keyRead i =>
    simp only [hpc, Option.some.injEq] at hst
    exact hst ▸ (h.readRlr _ _).setPc ht _
  | wait i =>
    simp only [hpc] at hst
    split_ifs at hst
    exact Option.some.inj hst ▸ (h.setPending ht _).setPc ht _
  | inside i k =>
    simp only [hpc, Option.some.injEq] at hst
    exact hst ▸ (h.writeR _ _).setPc ht _
  | clear i =>
    simp only [hpc, Option.some.injEq] at hst
    exact hst ▸ (h.writeIcr hc _).setPc ht _

/-- **A step of a thread leaves threads of the other core alone.** -/
theorem sameFor_step (ht : t ≠ t') (hc : core t ≠ core t') {a : SemAct T}
    (ha : a.thread = some t') (hst : s.step core a = some s') : SameFor core t s s' := by
  have h : SameFor core t s s := SameFor.refl t s
  cases a with
  | handler c => cases ha
  | enter _ i =>
    obtain rfl := Option.some.inj ha
    obtain ⟨-, hst⟩ := onThread_eq_some.mp hst
    split_ifs at hst
    exact Option.some.inj hst ▸ h.setPc ht _
  | access _ =>
    obtain rfl := Option.some.inj ha
    exact sameFor_access ht hc (onThread_eq_some.mp hst).2
  | registerMask _ events =>
    obtain rfl := Option.some.inj ha
    exact Option.some.inj (onThread_eq_some.mp hst).2 ▸ h.setListeners ht _
  | writeIer _ ier =>
    obtain rfl := Option.some.inj ha
    exact Option.some.inj (onThread_eq_some.mp hst).2 ▸ h.setIer hc _
  | waitAny _ events =>
    obtain rfl := Option.some.inj ha
    obtain ⟨-, hst⟩ := onThread_eq_some.mp hst
    split_ifs at hst
    exact Option.some.inj hst ▸ h.setPending ht _
  | pass _ => exact Option.some.inj (onThread_eq_some.mp hst).2 ▸ h

/-- A thread's access does not touch the handlers. -/
theorem handler_access (hst : s.access core t = some s') : s'.handler = s.handler := by
  unfold Hsem.access at hst
  cases hp : s.pc t with
  | outside => simp only [hp, reduceCtorEq] at hst
  | lockTest | ownerTest | keyRead =>
    simp only [hp, Option.some.injEq] at hst
    exact hst ▸ readRlr_handler _ _ _
  | wait =>
    simp only [hp] at hst
    split_ifs at hst
    exact Option.some.inj hst ▸ rfl
  | inside =>
    simp only [hp, Option.some.injEq] at hst
    exact hst ▸ writeR_handler _ _ _
  | enableRead | enableWrite | register | unregister | disableRead | disableWrite | clear =>
    simp only [hp, Option.some.injEq] at hst
    exact hst ▸ rfl

/-- Nor does any other step of it, which its own core's handler being off allows. -/
theorem handler_step {a : SemAct T} (ha : a.thread = some t) (hst : s.step core a = some s') :
    s.handler (core t) = .off ∧ s'.handler = s.handler := by
  cases a with
  | handler c => cases ha
  | access _ =>
    obtain rfl := Option.some.inj ha
    obtain ⟨hoff, hst⟩ := onThread_eq_some.mp hst
    exact ⟨hoff, handler_access hst⟩
  | enter _ i =>
    obtain rfl := Option.some.inj ha
    obtain ⟨hoff, hst⟩ := onThread_eq_some.mp hst
    split_ifs at hst
    exact ⟨hoff, Option.some.inj hst ▸ rfl⟩
  | waitAny _ events =>
    obtain rfl := Option.some.inj ha
    obtain ⟨hoff, hst⟩ := onThread_eq_some.mp hst
    split_ifs at hst
    exact ⟨hoff, Option.some.inj hst ▸ rfl⟩
  | registerMask _ events | writeIer _ ier | pass _ =>
    obtain rfl := Option.some.inj ha
    obtain ⟨hoff, hst⟩ := onThread_eq_some.mp hst
    exact ⟨hoff, Option.some.inj hst ▸ rfl⟩

/-- Inside the constructor, an access stays inside it. -/
theorem constructing_access (hpc : (s.pc t).constructing = some i) (hin : ∀ k, s.pc t ≠ .inside i k)
    (hst : s.access core t = some s') : (s'.pc t).constructing = some i := by
  unfold Hsem.access at hst
  cases hp : s.pc t with
  | outside | clear => rw [hp] at hpc; cases hpc
  | inside j k =>
    rw [hp] at hpc
    cases hpc
    exact absurd hp (hin k)
  | lockTest j | ownerTest j =>
    rw [hp] at hpc
    cases hpc
    simp only [hp, Option.some.injEq] at hst
    rw [← hst, setPc_pc_self]
    split_ifs <;> rfl
  | wait j =>
    rw [hp] at hpc
    cases hpc
    simp only [hp] at hst
    split_ifs at hst
    rw [← Option.some.inj hst, setPc_pc_self]
    rfl
  | enableRead j | enableWrite j | register j | unregister j | disableRead j | disableWrite j
  | keyRead j =>
    rw [hp] at hpc
    cases hpc
    simp only [hp, Option.some.injEq] at hst
    rw [← hst, setPc_pc_self]
    rfl

/-- A thread that takes a semaphore takes it until its release. -/
theorem owned_access (hpc : (s.pc t).owned = some i) (hin : ∀ k, s.pc t ≠ .inside i k)
    (hst : s.access core t = some s') : (s'.pc t).owned = some i := by
  unfold Hsem.access at hst
  cases hp : s.pc t with
  | outside | enableRead | enableWrite | register | lockTest | ownerTest | wait | clear =>
    rw [hp] at hpc
    cases hpc
  | inside j k =>
    rw [hp] at hpc
    cases hpc
    exact absurd hp (hin k)
  | unregister j | disableRead j | disableWrite j | keyRead j =>
    rw [hp] at hpc
    cases hpc
    simp only [hp, Option.some.injEq] at hst
    rw [← hst, setPc_pc_self]
    rfl

/-- The constructor's listener comes and goes on top of the thread's own. -/
theorem listeners_access {ls : List Word} (h : s.listeners t = (s.pc t).listened ++ ls)
    (hst : s.access core t = some s') : s'.listeners t = (s'.pc t).listened ++ ls := by
  unfold Hsem.access at hst
  cases hp : s.pc t with
  | outside => simp only [hp, reduceCtorEq] at hst
  | lockTest j | ownerTest j =>
    simp only [hp, Option.some.injEq] at hst
    rw [← hst, setPc_pc_self]
    rw [hp] at h
    split_ifs <;> exact (congrFun (readRlr_listeners _ _ _) t).trans h
  | keyRead j =>
    simp only [hp, Option.some.injEq] at hst
    rw [← hst, setPc_pc_self]
    rw [hp] at h
    exact (congrFun (readRlr_listeners _ _ _) t).trans h
  | wait j =>
    simp only [hp] at hst
    split_ifs at hst
    rw [← Option.some.inj hst, setPc_pc_self]
    rw [hp] at h
    exact h
  | register j =>
    simp only [hp, Option.some.injEq] at hst
    rw [← hst, setPc_pc_self]
    rw [hp] at h
    exact (Function.update_self _ _ _).trans (congrArg _ h)
  | unregister j =>
    simp only [hp, Option.some.injEq] at hst
    rw [← hst, setPc_pc_self]
    rw [hp] at h
    refine (Function.update_self _ _ _).trans ?_
    rw [h]
    exact List.erase_cons_head _ _
  | inside j k =>
    simp only [hp, Option.some.injEq] at hst
    rw [← hst, setPc_pc_self]
    rw [hp] at h
    exact (congrFun (writeR_listeners _ _ _) t).trans h
  | enableRead j | enableWrite j | disableRead j | disableWrite j | clear j =>
    simp only [hp, Option.some.injEq] at hst
    rw [← hst, setPc_pc_self]
    rw [hp] at h
    exact h

theorem access_inside {k : Word} (hpc : s.pc t = .inside i k) :
    s.access core t = some ((s.writeR i k).setPc t (.clear i)) := by
  simp only [access, hpc]

theorem access_clear (hpc : s.pc t = .clear i) :
    s.access core t = some ((s.writeIcr (core t) (bit i)).setPc t .outside) := by
  simp only [access, hpc]

omit [DecidableEq T] in
theorem notMem_writeIcr (s : Hsem T) (c : Core) (i : Fin 32) :
    (i : ℕ) ∉ (s.writeIcr c (bit i)).isr c := by
  have hisr : (s.writeIcr c (bit i)).isr c = s.isr c &&& ~~~bit i := Function.update_self _ _ _
  rw [hisr, mem_and_not]
  exact fun hm => hm.2 (mem_bit i)

/-- A broadcast signals a registered listener's events. -/
theorem mem_foldl_or {ls : List Word} {j : ℕ} {events : Word} (he : events ∈ ls) (hj : j ∈ events)
    (pending : Word) : j ∈ ls.foldl (· ||| ·) pending := by
  have hmono (ls : List Word) (p : Word) (hp : j ∈ p) : j ∈ ls.foldl (· ||| ·) p := by
    induction ls generalizing p with
    | nil => exact hp
    | cons l ls ih => exact ih (p ||| l) (mem_or.mpr (Or.inl hp))
  induction ls generalizing pending with
  | nil => cases he
  | cons l ls ih =>
    obtain rfl | he := List.mem_cons.mp he
    · exact hmono ls _ (mem_or.mpr (Or.inr hj))
    · exact ih he (pending ||| l)

end Hsem

/-! ## The invariant -/

/-- Where a thread is with regard to its scope of a semaphore. -/
inductive Scope
  | out
  | constructor
  | body
  | destructor

/-- The scope, by its accesses.  A constructor that has returned is still in its scope's first part,
up to the operation it protects. -/
def Scope.Fits (i : Fin 32) : Scope → SemPc → Prop
  | .out, pc => pc = .outside
  | .constructor, pc => pc = .outside ∨ pc.constructing = some i
  | .body, pc => ∃ k, pc = .inside i k
  | .destructor, pc => pc = .clear i

def RxPc.scope : RxPc → Scope
  | .lock => .constructor
  | .release _ => .body
  | .clear _ => .destructor
  | _ => .out

def TxPc.scope : TxPc → Scope
  | .idle => .out
  | .lock => .constructor
  | .release => .body
  | .clear => .destructor

namespace Link

variable (c : Core)

/-- **Something is about to wake the receiver**, or has: its event, the handler on the way to it, or
the sender, whose release will raise the flag. -/
def Waking (s : Link) : Prop :=
  (rxHsemIndex c : ℕ) ∈ s.sem.pending .rx ∨ s.sem.handler c = .broadcast ∨
    (s.sem.pc .tx).owned = some (rxHsemIndex c)

/-- **What stands for the frames in the queue**, by where the receiver is: nothing while it is still
to pop, and after that a wake-up that it cannot clear. -/
def Kept (s : Link) : Prop :=
  match s.rx with
  | .release none => s.queue = []
  | .clear none => s.queue ≠ [] → s.Waking c
  | .registerMask | .enableRead | .enableWrite _ | .wait =>
      s.queue ≠ [] → s.Waking c ∨ (rxHsemIndex c : ℕ) ∈ s.sem.isr c
  | _ => True

structure Inv (s : Link) : Prop where
  sem : s.sem.Inv (sideCore c)
  rx : s.rx.scope.Fits (rxHsemIndex c) (s.sem.pc .rx)
  tx : s.tx.scope.Fits (rxHsemIndex c) (s.sem.pc .tx)
  asleep : s.rx = .registerMask →
    s.sem.ier c = 0 ∧ s.sem.handler c = .off ∧ s.sem.listeners .rx = []
  listening : s.rx ≠ .registerMask →
    s.sem.listeners .rx = (s.sem.pc .rx).listened ++ [bit (rxHsemIndex c)]
  signalled : s.sem.handler c ≠ .off → s.sem.handler c ≠ .broadcast →
    (rxHsemIndex c : ℕ) ∈ s.sem.pending .rx
  kept : s.Kept c

/-- **The sender's release is not lost on the receiver**: it does not fall between the receiver's
own release, after a pop that found nothing, and its write to `ICR`, with frames in the queue and no
event to wake it. -/
def Heard (s : Link) : LinkAct → Prop
  | .tx => s.tx = .release → s.rx = .clear none → s.sem.handler c = .off →
      s.sem.handler c.other = .off → s.queue ≠ [] → (rxHsemIndex c : ℕ) ∈ s.sem.pending .rx
  | _ => True

theorem inv_start (isr : Core → Word) : (start isr).Inv c where
  sem := Hsem.inv_start isr
  rx := rfl
  tx := rfl
  asleep _ := ⟨rfl, rfl, rfl⟩
  listening hne := absurd rfl hne
  signalled hne := absurd rfl hne
  kept hne := absurd rfl hne

variable {c} {s s' : Link}

theorem Inv.not_stuck (h : s.Inv c) : ¬ s.Stuck c := by
  rintro ⟨hrx, hpend, hown, hq, hoff, hflag⟩
  have hkept := h.kept
  unfold Kept at hkept
  rw [hrx] at hkept
  obtain (hw | hw | hw) | hw := hkept hq
  · exact hpend hw
  · rw [hoff] at hw
    cases hw
  · rw [h.sem.owner .tx _ hw] at hown
    cases hown
  · exact hflag hw

/-- Nothing that mattered is gone. -/
theorem Kept.mono (h : s.Kept c) (hrx : s'.rx = s.rx) (hq : s'.queue = s.queue)
    (hw : s.Waking c → s'.Waking c)
    (hf : (rxHsemIndex c : ℕ) ∈ s.sem.isr c → s'.Waking c ∨ (rxHsemIndex c : ℕ) ∈ s'.sem.isr c) :
    s'.Kept c := by
  unfold Kept at h ⊢
  rw [hrx]
  cases hpc : s.rx with
  | release popped =>
    cases popped with
    | none =>
      rw [hpc] at h
      exact hq.trans h
    | some f => trivial
  | clear popped =>
    cases popped with
    | none =>
      rw [hpc] at h
      exact fun hne => hw (h (hq ▸ hne))
    | some f => trivial
  | registerMask | enableRead | enableWrite | wait =>
    rw [hpc] at h
    exact fun hne => (h (hq ▸ hne)).elim (fun hw' => Or.inl (hw hw')) hf
  | disableRead | disableWrite | lock | callback => trivial

/-- A wake-up under way is enough, unless the receiver still stands for an empty queue. -/
theorem Kept.of_waking (hw : s'.Waking c) (hrel : s'.rx = .release none → s'.queue = []) :
    s'.Kept c := by
  unfold Kept
  cases hpc : s'.rx with
  | release popped =>
    cases popped with
    | none => exact hrel hpc
    | some f => trivial
  | clear popped =>
    cases popped with
    | none => exact fun _ => hw
    | some f => trivial
  | registerMask | enableRead | enableWrite | wait => exact fun _ => Or.inl hw
  | disableRead | disableWrite | lock | callback => trivial

theorem sideCore_ne {t t' : Side} (h : t' ≠ t) : sideCore c t' ≠ sideCore c t := by
  cases t <;> cases t'
  · exact absurd rfl h
  · exact c.other_ne
  · exact c.other_ne.symm
  · exact absurd rfl h

/-- With one thread to a core, nobody asks for a semaphore that another of its core takes. -/
theorem soleTaker (sem : Hsem Side) (a : SemAct Side) : sem.SoleTaker (sideCore c) a := by
  cases a with
  | access t => exact fun i _ _ t' ht hcore => absurd hcore (sideCore_ne ht)
  | enter | handler | registerMask | writeIer | waitAny | pass => trivial

/-! ## A step of the sender -/

/-- What the sender does concerns the receiver through the flag and the queue only. -/
theorem Inv.of_tx (h : s.Inv c) {a : SemAct Side} {sem : Hsem Side} (ha : a.thread = some .tx)
    (hst : s.sem.step (sideCore c) a = some sem) {tx : TxPc} {queue : List CanardCANFrame}
    (htx : tx.scope.Fits (rxHsemIndex c) (sem.pc .tx))
    (hkept : Kept c { s with sem := sem, tx := tx, queue := queue }) :
    Inv c { s with sem := sem, tx := tx, queue := queue } := by
  have hne : Side.rx ≠ .tx := by decide
  have hsame := Hsem.sameFor_step hne (sideCore_ne hne) ha hst
  have hhandler : sem.handler c = s.sem.handler c := hsame.handler
  have hier : sem.ier c = s.sem.ier c := hsame.ier
  refine ⟨h.sem.step (soleTaker _ _) hst, ?_, htx, fun hrx => ?_, fun hrx => ?_, ?_, hkept⟩
  · rw [hsame.pc]
    exact h.rx
  · rw [hier, hhandler, hsame.listeners]
    exact h.asleep hrx
  · rw [hsame.pc, hsame.listeners]
    exact h.listening hrx
  · rw [hhandler, hsame.pending]
    exact h.signalled

/-- Short of the release, nothing that stands for the queue is gone. -/
theorem Inv.kept_tx (h : s.Inv c) {a : SemAct Side} {sem : Hsem Side} (ha : a.thread = some .tx)
    (hst : s.sem.step (sideCore c) a = some sem) (tx : TxPc)
    (howned : (s.sem.pc .tx).owned = some (rxHsemIndex c) →
      (sem.pc .tx).owned = some (rxHsemIndex c)) :
    Kept c { s with sem := sem, tx := tx } := by
  have hne : Side.rx ≠ .tx := by decide
  have hsame := Hsem.sameFor_step hne (sideCore_ne hne) ha hst
  refine h.kept.mono rfl rfl (fun hw => ?_) fun hf => Or.inr (hsame.isr _ hf)
  obtain hp | hb | ho := hw
  · exact Or.inl (by rw [hsame.pending]; exact hp)
  · exact Or.inr (Or.inl (hsame.handler.trans hb))
  · exact Or.inr (Or.inr (howned ho))

/-- **The release raises the flag**, and does so where the flag will be heard. -/
theorem Inv.kept_release (h : s.Inv c) {k : Word}
    (hpc : s.sem.pc .tx = .inside (rxHsemIndex c) k)
    (hheard : s.rx = .clear none → s.sem.handler c = .off → s.queue ≠ [] →
      (rxHsemIndex c : ℕ) ∈ s.sem.pending .rx) :
    Kept c { s with
      sem := (s.sem.writeR (rxHsemIndex c) k).setPc .tx (.clear (rxHsemIndex c))
      tx := .clear } := by
  have hflag : (rxHsemIndex c : ℕ) ∈ (s.sem.free (rxHsemIndex c)).isr c :=
    mem_or.mpr (Or.inr (mem_bit _))
  have hkept := h.kept
  rw [h.sem.writeR_eq hpc]
  unfold Kept at hkept ⊢
  cases hrx : s.rx with
  | release popped =>
    rw [hrx] at hkept
    cases popped with
    | none => exact hkept
    | some f => trivial
  | clear popped =>
    cases popped with
    | none =>
      intro hq
      by_cases hoff : s.sem.handler c = .off
      · exact Or.inl (hheard hrx hoff hq)
      by_cases hb : s.sem.handler c = .broadcast
      · exact Or.inr (Or.inl hb)
      · exact Or.inl (h.signalled hoff hb)
    | some f => trivial
  | registerMask | enableRead | enableWrite | wait => exact fun _ => Or.inr hflag
  | disableRead | disableWrite | lock | callback => trivial

theorem Inv.txStep (h : s.Inv c) (hheard : s.Heard c .tx) (hst : s.txStep c = some s') :
    s'.Inv c := by
  have htx := h.tx
  unfold Link.txStep at hst
  cases hpc : s.tx with
  | idle => simp only [hpc, reduceCtorEq] at hst
  | lock =>
    rw [hpc] at htx
    simp only [hpc] at hst
    have hin : ∀ k, s.sem.pc .tx ≠ .inside (rxHsemIndex c) k := fun k hk => by
      simp only [hk, reduceCtorEq] at hst
    have hmap : (s.sem.step (sideCore c) (.access .tx)).map
        (fun sem => { s with sem := sem }) = some s' := by
      split at hst
      · cases hst
      · rwa [← hpc] at hst
    obtain ⟨sem, hsem, hacc, rfl⟩ := Hsem.exists_of_map_step hmap rfl
    have hctor : (s.sem.pc .tx).constructing = some (rxHsemIndex c) := by
      refine htx.resolve_left fun hout => ?_
      simp only [Hsem.access, hout, reduceCtorEq] at hacc
    refine h.of_tx rfl hsem ?_ (h.kept_tx rfl hsem _ fun ho => Hsem.owned_access ho hin hacc)
    rw [hpc]
    exact Or.inr (Hsem.constructing_access hctor hin hacc)
  | release =>
    rw [hpc] at htx
    obtain ⟨k, hk⟩ := htx
    simp only [hpc] at hst
    obtain ⟨sem, hsem, rfl⟩ := Option.map_eq_some_iff.mp hst
    obtain ⟨hoff, hacc⟩ := Hsem.onThread_eq_some.mp hsem
    rw [Hsem.access_inside hk] at hacc
    obtain rfl := Option.some.inj hacc
    exact h.of_tx rfl hsem (Hsem.setPc_pc_self _ _ _)
      (h.kept_release hk fun hrx hc => hheard hpc hrx hc hoff)
  | clear =>
    rw [hpc] at htx
    simp only [hpc] at hst
    obtain ⟨sem, hsem, hacc, rfl⟩ := Hsem.exists_of_map_step hst rfl
    have hpc' : s.sem.pc .tx = .clear (rxHsemIndex c) := htx
    rw [Hsem.access_clear hpc'] at hacc
    obtain rfl := Option.some.inj hacc
    refine h.of_tx rfl hsem (Hsem.setPc_pc_self _ _ _) (h.kept_tx rfl hsem _ fun ho => ?_)
    rw [hpc'] at ho
    cases ho

theorem Inv.send (h : s.Inv c) (hst : s.step c .send = some s') : s'.Inv c := by
  unfold Link.step at hst
  cases hpc : s.tx with
  | lock | release | clear => simp only [hpc, reduceCtorEq] at hst
  | idle =>
    simp only [hpc, txHsemIndex_other] at hst
    obtain ⟨sem, hsem, hacc, rfl⟩ := Hsem.exists_of_map_step hst rfl
    split_ifs at hacc with hout
    obtain rfl := Option.some.inj hacc
    refine h.of_tx rfl hsem (Or.inr ?_) (h.kept_tx rfl hsem _ fun ho => ?_)
    · rw [Hsem.setPc_pc_self]
      rfl
    · rw [hout] at ho
      cases ho

/-- A push finds the receiver outside, and the sender still to release. -/
theorem Inv.push (h : s.Inv c) {frame : CanardCANFrame} {accepted : Bool}
    (hst : s.step c (.push frame accepted) = some s') : s'.Inv c := by
  have htx := h.tx
  unfold Link.step at hst
  cases hpc : s.tx with
  | idle | release | clear => simp only [hpc, reduceCtorEq] at hst
  | lock =>
    rw [hpc] at htx
    simp only [hpc] at hst
    cases hin : s.sem.pc .tx with
    | outside | enableRead | enableWrite | register | lockTest | ownerTest | wait | unregister
    | disableRead | disableWrite | keyRead | clear => simp only [hin, reduceCtorEq] at hst
    | inside j k =>
      simp only [hin] at hst
      obtain ⟨sem, hsem, hacc, rfl⟩ := Hsem.exists_of_map_step hst rfl
      obtain rfl := Option.some.inj hacc
      rw [hin] at htx
      obtain rfl : j = rxHsemIndex c :=
        Option.some.inj (htx.resolve_left fun hout => by cases hout)
      refine h.of_tx rfl hsem ⟨k, hin⟩ (Kept.of_waking ?_ fun hrx => ?_)
      · exact Or.inr (Or.inr (congrArg SemPc.owned hin))
      · have hfits := h.rx
        rw [show s.rx = _ from hrx] at hfits
        obtain ⟨k', hk'⟩ := hfits
        cases h.sem.exclusive _ _ _ _ _ hk' hin

/-! ## A step of a handler -/

/-- The handler of the receiver's core makes the event pending before it clears the flag. -/
theorem Inv.handler_self (h : s.Inv c) {sem : Hsem Side}
    (hst : s.sem.step (sideCore c) (.handler c) = some sem) :
    Inv c { s with sem := sem } := by
  have hsem := h.sem.step (soleTaker _ _) hst
  have hkept (hw : Waking c { s with sem := sem }) : Kept c { s with sem := sem } := by
    refine Kept.of_waking hw fun hrx => ?_
    have hold := h.kept
    unfold Kept at hold
    rwa [show s.rx = _ from hrx] at hold
  have hself (f : Core → HandlerPc) (pc : HandlerPc) : Function.update f c pc c = pc :=
    Function.update_self c pc f
  have hasleep : s.rx = .registerMask → False := by
    intro hrx
    obtain ⟨hier, hoff, -⟩ := h.asleep hrx
    change s.sem.handlerStep (sideCore c) c = some sem at hst
    unfold Hsem.handlerStep at hst
    simp only [hoff, hier] at hst
    split_ifs at hst with hflag
    exact hflag BitVec.and_zero
  change s.sem.handlerStep (sideCore c) c = some sem at hst
  unfold Hsem.handlerStep at hst
  cases hpc : s.sem.handler c with
  | off =>
    simp only [hpc] at hst
    split_ifs at hst
    obtain rfl := Option.some.inj hst
    exact ⟨hsem, h.rx, h.tx, fun hrx => (hasleep hrx).elim, h.listening,
      fun _ hb => absurd (hself _ _) hb, hkept (Or.inr (Or.inl (hself _ _)))⟩
  | broadcast =>
    simp only [hpc] at hst
    obtain rfl := Option.some.inj hst
    have hmem : (rxHsemIndex c : ℕ) ∈ (s.sem.broadcastFlagsI (sideCore c) c).pending .rx := by
      have hmine : sideCore c .rx = c := rfl
      change _ ∈ if sideCore c .rx = c then _ else _
      rw [if_pos hmine, h.listening hasleep]
      exact Hsem.mem_foldl_or (List.mem_append_right _ List.mem_cons_self) (mem_bit _) _
    exact ⟨hsem, h.rx, h.tx, fun hrx => (hasleep hrx).elim, h.listening, fun _ _ => hmem,
      hkept (Or.inl hmem)⟩
  | reread =>
    simp only [hpc] at hst
    obtain rfl := Option.some.inj hst
    have hmem := h.signalled (by rw [hpc]; simp) (by rw [hpc]; simp)
    exact ⟨hsem, h.rx, h.tx, fun hrx => (hasleep hrx).elim, h.listening, fun _ _ => hmem,
      hkept (Or.inl hmem)⟩
  | clear flags =>
    simp only [hpc] at hst
    obtain rfl := Option.some.inj hst
    have hmem := h.signalled (by rw [hpc]; simp) (by rw [hpc]; simp)
    exact ⟨hsem, h.rx, h.tx, fun hrx => (hasleep hrx).elim, h.listening, fun _ _ => hmem,
      hkept (Or.inl hmem)⟩

/-- The other core's handler does not concern the receiver. -/
theorem Inv.handler_other (h : s.Inv c) {sem : Hsem Side} {c' : Core} (hc : c ≠ c')
    (hst : s.sem.step (sideCore c) (.handler c') = some sem) :
    Inv c { s with sem := sem } := by
  obtain ⟨hsame, hpc⟩ := Hsem.sameFor_handlerStep (t := .rx) hc hst
  have hhandler : sem.handler c = s.sem.handler c := hsame.handler
  have hier : sem.ier c = s.sem.ier c := hsame.ier
  refine ⟨h.sem.step (soleTaker _ _) hst, ?_, ?_, fun hrx => ?_, fun hrx => ?_, ?_,
    h.kept.mono rfl rfl (fun hw => ?_) fun hf => Or.inr (hsame.isr _ hf)⟩
  · rw [hpc]
    exact h.rx
  · rw [hpc]
    exact h.tx
  · rw [hier, hhandler, hsame.listeners]
    exact h.asleep hrx
  · rw [hpc, hsame.listeners]
    exact h.listening hrx
  · rw [hhandler, hsame.pending]
    exact h.signalled
  · unfold Waking
    rw [hhandler, hsame.pending, hpc]
    exact hw

/-! ## A step of the receiver -/

/-- What the receiver does concerns itself and the queue: its own handler is off. -/
theorem Inv.of_rx (h : s.Inv c) {a : SemAct Side} {sem : Hsem Side} (ha : a.thread = some .rx)
    (hst : s.sem.step (sideCore c) a = some sem) {rx : RxPc} {queue : List CanardCANFrame}
    (hne : rx ≠ .registerMask) (hrx : rx.scope.Fits (rxHsemIndex c) (sem.pc .rx))
    (hlisten : sem.listeners .rx = (sem.pc .rx).listened ++ [bit (rxHsemIndex c)])
    (hkept : Kept c { s with sem := sem, rx := rx, queue := queue }) :
    Inv c { s with sem := sem, rx := rx, queue := queue } := by
  have htx : Side.tx ≠ .rx := by decide
  have hsame := Hsem.sameFor_step htx (sideCore_ne htx) ha hst
  obtain ⟨hoff, hhandler⟩ := Hsem.handler_step ha hst
  have hoff' : sem.handler c = .off := (congrFun hhandler c).trans hoff
  refine ⟨h.sem.step (soleTaker _ _) hst, hrx, ?_, fun hr => absurd hr hne, fun _ => hlisten,
    fun hn => absurd hoff' hn, hkept⟩
  rw [hsame.pc]
  exact h.tx

/-- As long as no event is taken, a wake-up under way stays so. -/
theorem waking_rx {a : SemAct Side} {sem : Hsem Side} {rx : RxPc} {queue : List CanardCANFrame}
    (ha : a.thread = some .rx) (hst : s.sem.step (sideCore c) a = some sem)
    (hpend : sem.pending .rx = s.sem.pending .rx) (hw : s.Waking c) :
    Waking c { s with sem := sem, rx := rx, queue := queue } := by
  have htx : Side.tx ≠ .rx := by decide
  have hsame := Hsem.sameFor_step htx (sideCore_ne htx) ha hst
  obtain ⟨-, hhandler⟩ := Hsem.handler_step ha hst
  unfold Waking
  rw [hpend, hhandler, hsame.pc]
  exact hw

/-- In the constructor the queue is the sender's; the pop that follows finds it empty or not. -/
theorem Inv.rxLock (h : s.Inv c) (hrx : s.rx = .lock) (hst : s.rxStep c = some s') : s'.Inv c := by
  have hfits := h.rx
  have hlistening := h.listening (by rw [hrx]; simp)
  rw [hrx] at hfits
  unfold Link.rxStep at hst
  simp only [hrx] at hst
  cases hpc : s.sem.pc .rx with
  | outside =>
    simp only [hpc] at hst
    obtain ⟨sem, hsem, hacc, rfl⟩ := Hsem.exists_of_map_step hst rfl
    rw [if_pos hpc] at hacc
    obtain rfl := Option.some.inj hacc
    refine h.of_rx rfl hsem (by simp) (Or.inr ?_) ?_ trivial
    · rw [Hsem.setPc_pc_self]
      rfl
    · rw [Hsem.setPc_pc_self]
      rw [hpc] at hlistening
      exact hlistening
  | inside j k =>
    simp only [hpc] at hst
    obtain ⟨sem, hsem, hacc, rfl⟩ := Hsem.exists_of_map_step hst rfl
    obtain rfl := Option.some.inj hacc
    rw [hpc] at hfits
    obtain rfl : j = rxHsemIndex c :=
      Option.some.inj (hfits.resolve_left fun hout => by cases hout)
    refine h.of_rx rfl hsem (by simp) ⟨k, hpc⟩ hlistening ?_
    cases hq : s.queue with
    | nil => exact List.tail_nil
    | cons f fs => trivial
  | clear j =>
    rw [hpc] at hfits
    obtain hout | hctor := hfits
    · cases hout
    · cases hctor
  | enableRead | enableWrite | register | lockTest | ownerTest | wait | unregister | disableRead
  | disableWrite | keyRead =>
    simp only [hpc] at hst
    obtain ⟨sem, hsem, hacc, rfl⟩ := Hsem.exists_of_map_step hst rfl
    have hin : ∀ k, s.sem.pc .rx ≠ .inside (rxHsemIndex c) k := fun k hk => by
      rw [hk] at hpc
      cases hpc
    have hctor := hfits.resolve_left fun hout => by rw [hout] at hpc; cases hpc
    exact h.of_rx rfl hsem (by simp) (Or.inr (Hsem.constructing_access hctor hin hacc))
      (Hsem.listeners_access hlistening hacc) trivial

theorem Inv.rxStep (h : s.Inv c) (hst : s.rxStep c = some s') : s'.Inv c := by
  have hfits := h.rx
  have hkept := h.kept
  unfold Link.rxStep at hst
  unfold Kept at hkept
  cases hrx : s.rx with
  | registerMask =>
    rw [hrx] at hfits hkept
    have hout : s.sem.pc .rx = .outside := hfits
    simp only [hrx] at hst
    obtain ⟨sem, hsem, hacc, rfl⟩ := Hsem.exists_of_map_step hst rfl
    obtain rfl := Option.some.inj hacc
    refine h.of_rx rfl hsem (by simp) hout ?_ fun hq => ?_
    · change Function.update s.sem.listeners .rx _ .rx = (s.sem.pc .rx).listened ++ _
      rw [hout, Function.update_self, (h.asleep hrx).2.2]
      rfl
    · exact (hkept hq).imp_left (waking_rx rfl hsem rfl)
  | enableRead =>
    rw [hrx] at hfits hkept
    simp only [hrx] at hst
    obtain ⟨sem, hsem, hacc, rfl⟩ := Hsem.exists_of_map_step hst rfl
    obtain rfl := Option.some.inj hacc
    exact h.of_rx rfl hsem (by simp) hfits (h.listening (by rw [hrx]; simp)) hkept
  | enableWrite ier =>
    rw [hrx] at hfits hkept
    simp only [hrx] at hst
    obtain ⟨sem, hsem, hacc, rfl⟩ := Hsem.exists_of_map_step hst rfl
    obtain rfl := Option.some.inj hacc
    exact h.of_rx rfl hsem (by simp) hfits (h.listening (by rw [hrx]; simp)) hkept
  | wait =>
    rw [hrx] at hfits
    simp only [hrx] at hst
    obtain ⟨sem, hsem, hacc, rfl⟩ := Hsem.exists_of_map_step hst rfl
    split_ifs at hacc
    obtain rfl := Option.some.inj hacc
    exact h.of_rx rfl hsem (by simp) hfits (h.listening (by rw [hrx]; simp)) trivial
  | disableRead =>
    rw [hrx] at hfits
    simp only [hrx] at hst
    obtain ⟨sem, hsem, hacc, rfl⟩ := Hsem.exists_of_map_step hst rfl
    obtain rfl := Option.some.inj hacc
    exact h.of_rx rfl hsem (by simp) hfits (h.listening (by rw [hrx]; simp)) trivial
  | disableWrite ier =>
    rw [hrx] at hfits
    simp only [hrx] at hst
    obtain ⟨sem, hsem, hacc, rfl⟩ := Hsem.exists_of_map_step hst rfl
    obtain rfl := Option.some.inj hacc
    exact h.of_rx rfl hsem (by simp) (Or.inl hfits) (h.listening (by rw [hrx]; simp)) trivial
  | lock => exact h.rxLock hrx hst
  | release popped =>
    rw [hrx] at hfits hkept
    obtain ⟨k, hin⟩ := hfits
    simp only [hrx] at hst
    obtain ⟨sem, hsem, hacc, rfl⟩ := Hsem.exists_of_map_step hst rfl
    have hlisten := Hsem.listeners_access (h.listening (by rw [hrx]; simp)) hacc
    rw [Hsem.access_inside hin] at hacc
    obtain rfl := Option.some.inj hacc
    refine h.of_rx rfl hsem (by simp) (Hsem.setPc_pc_self _ _ _) hlisten ?_
    cases popped with
    | none => exact fun hq => absurd hkept hq
    | some f => trivial
  | clear popped =>
    rw [hrx] at hfits hkept
    have hclear : s.sem.pc .rx = .clear (rxHsemIndex c) := hfits
    cases popped with
    | none =>
      simp only [hrx] at hst
      obtain ⟨sem, hsem, hacc, rfl⟩ := Hsem.exists_of_map_step hst rfl
      have hlisten := Hsem.listeners_access (h.listening (by rw [hrx]; simp)) hacc
      rw [Hsem.access_clear hclear] at hacc
      obtain rfl := Option.some.inj hacc
      exact h.of_rx rfl hsem (by simp) (Hsem.setPc_pc_self _ _ _) hlisten
        fun hq => Or.inl (waking_rx rfl hsem rfl (hkept hq))
    | some f =>
      simp only [hrx] at hst
      obtain ⟨sem, hsem, hacc, rfl⟩ := Hsem.exists_of_map_step hst rfl
      have hlisten := Hsem.listeners_access (h.listening (by rw [hrx]; simp)) hacc
      rw [Hsem.access_clear hclear] at hacc
      obtain rfl := Option.some.inj hacc
      exact h.of_rx rfl hsem (by simp) (Hsem.setPc_pc_self _ _ _) hlisten trivial
  | callback frame =>
    rw [hrx] at hfits
    simp only [hrx] at hst
    obtain ⟨sem, hsem, hacc, rfl⟩ := Hsem.exists_of_map_step hst rfl
    obtain rfl := Option.some.inj hacc
    exact h.of_rx rfl hsem (by simp) (Or.inl hfits) (h.listening (by rw [hrx]; simp)) trivial

/-! ## Runs -/

/-- **A step keeps what stands for the queue**, if the release it may be is heard. -/
theorem Inv.step (h : s.Inv c) {a : LinkAct} (hheard : s.Heard c a) (hst : s.step c a = some s') :
    s'.Inv c := by
  cases a with
  | rx => exact h.rxStep hst
  | send => exact h.send hst
  | tx => exact h.txStep hheard hst
  | push frame accepted => exact h.push hst
  | handler c' =>
    obtain ⟨sem, hsem, rfl⟩ := Option.map_eq_some_iff.mp hst
    obtain rfl | hc := eq_or_ne c c'
    · exact h.handler_self hsem
    · exact h.handler_other hc hsem

/-- With nothing but a flag to wake it, the receiver clears the flag and waits. -/
theorem exists_run_stuck_of_clear (hrx : s.rx = .clear none)
    (hpc : s.sem.pc .rx = .clear (rxHsemIndex c)) (hown : s.sem.owner (rxHsemIndex c) = none)
    (hoff : s.sem.handler c = .off) (hq : s.queue ≠ [])
    (hpend : (rxHsemIndex c : ℕ) ∉ s.sem.pending .rx) :
    ∃ u, (machine c).run s [.rx, .rx, .rx] = some u ∧ u.Stuck c := by
  obtain ⟨s₁, hs₁⟩ : ∃ sem, sem = (s.sem.writeIcr c (bit (rxHsemIndex c))).setPc .rx .outside :=
    ⟨_, rfl⟩
  have hoff₁ : s₁.handler (sideCore c .rx) = .off := hs₁ ▸ hoff
  have hclear : (machine c).step s .rx = some { s with sem := s₁, rx := .enableRead } := by
    have hstep : s.sem.step (sideCore c) (.access .rx) = some s₁ :=
      Hsem.onThread_eq_some.mpr ⟨hoff, hs₁ ▸ Hsem.access_clear hpc⟩
    simp only [machine, Link.step, Link.rxStep, hrx, hstep, Option.map_some]
  have hread : (machine c).step { s with sem := s₁, rx := .enableRead } .rx
      = some { s with sem := s₁, rx := .enableWrite (s₁.ier c) } := by
    have hstep : s₁.step (sideCore c) (.pass .rx) = some s₁ :=
      Hsem.onThread_eq_some.mpr ⟨hoff₁, rfl⟩
    simp only [machine, Link.step, Link.rxStep, hstep, Option.map_some]
  have hwrite : (machine c).step { s with sem := s₁, rx := .enableWrite (s₁.ier c) } .rx
      = some { s with
          sem := s₁.setIer c (s₁.ier c ||| bit (rxHsemIndex c)), rx := .wait } := by
    have hstep : s₁.step (sideCore c) (.writeIer .rx (s₁.ier c ||| bit (rxHsemIndex c)))
        = some (s₁.setIer c (s₁.ier c ||| bit (rxHsemIndex c))) :=
      Hsem.onThread_eq_some.mpr ⟨hoff₁, rfl⟩
    simp only [machine, Link.step, Link.rxStep, hstep, Option.map_some]
  refine ⟨_, Machine.run_trans (Machine.run_singleton hclear)
    (Machine.run_trans (Machine.run_singleton hread) (Machine.run_singleton hwrite)), rfl, ?_, ?_,
    hq, hoff₁, ?_⟩
  · exact hs₁ ▸ hpend
  · exact hs₁ ▸ hown
  · exact hs₁ ▸ Hsem.notMem_writeIcr _ _ _

/-- **Unheard, the release leads to a lost wake-up.** -/
theorem Inv.exists_run_stuck (h : s.Inv c) {a : LinkAct} (hheard : ¬ s.Heard c a) :
    ∃ acts u, (machine c).run s (a :: acts) = some u ∧ u.Stuck c := by
  cases a with
  | rx | send | push | handler => exact absurd trivial hheard
  | tx =>
    unfold Heard at hheard
    push Not at hheard
    obtain ⟨htx, hrx, hoff, hoff', hq, hpend⟩ := hheard
    have hrxFits := h.rx
    have htxFits := h.tx
    rw [hrx] at hrxFits
    rw [htx] at htxFits
    have hclear : s.sem.pc .rx = .clear (rxHsemIndex c) := hrxFits
    obtain ⟨k, hin⟩ := htxFits
    have hstep : s.sem.step (sideCore c) (.access .tx)
        = some ((s.sem.free (rxHsemIndex c)).setPc .tx (.clear (rxHsemIndex c))) :=
      Hsem.onThread_eq_some.mpr ⟨hoff', by rw [Hsem.access_inside hin, h.sem.writeR_eq hin]⟩
    have htxStep : (machine c).step s .tx = some { s with
        sem := (s.sem.free (rxHsemIndex c)).setPc .tx (.clear (rxHsemIndex c)), tx := .clear } := by
      simp only [machine, Link.step, Link.txStep, htx, hstep, Option.map_some]
    obtain ⟨u, hrun, hu⟩ := exists_run_stuck_of_clear (s := { s with
        sem := (s.sem.free (rxHsemIndex c)).setPc .tx (.clear (rxHsemIndex c)), tx := .clear })
      hrx ((Hsem.setPc_pc_of_ne (by decide) _ _).trans hclear) (Function.update_self _ _ _) hoff hq
      hpend
    exact ⟨_, u, Machine.run_trans (Machine.run_singleton htxStep) hrun, hu⟩

/-- **No wake-up is lost, of those that are heard**: along a run in which no release of the sender
falls into the receiver's one deaf moment, the receiver is never stuck; and from the first release
of a run that does, it can go on to a stuck receiver. -/
theorem always_not_stuck (c : Core) (isr : Core → Word) (acts : List LinkAct) :
    ((machine c).Along (Heard c) (start isr) acts →
      (machine c).Always (fun s => ¬ s.Stuck c) (start isr) acts) ∧
    ∀ bs a cs s, acts = bs ++ a :: cs → (machine c).run (start isr) bs = some s →
      (machine c).Along (Heard c) (start isr) bs → ¬ s.Heard c a →
      ∃ ext, ¬ (machine c).Always (fun s => ¬ s.Stuck c) s (a :: ext) := by
  have hstep : ∀ s a s', Inv c s → s.Heard c a → (machine c).step s a = some s' → Inv c s' :=
    fun _ _ _ hi hheard hst => hi.step hheard hst
  constructor
  · intro h
    exact (Machine.always_of_along (inv_start c isr) hstep h).mono fun _ => Inv.not_stuck
  · rintro bs a cs s - hrun halong hheard
    have hi : Inv c s := (Machine.always_of_along (inv_start c isr) hstep halong).of_run hrun
    obtain ⟨ext, u, hext, hu⟩ := hi.exists_run_stuck hheard
    exact ⟨ext, fun hall => hall.of_run hext hu⟩

instance (pc : RxPc) : Decidable (pc = .wait) :=
  match pc with
  | .wait => isTrue rfl
  | .registerMask | .enableRead | .disableRead | .lock => isFalse (by simp)
  | .enableWrite _ | .disableWrite _ => isFalse (by simp)
  | .release _ | .clear _ | .callback _ => isFalse (by simp)

instance (c : Core) (s : Link) : Decidable (s.Stuck c) := inferInstanceAs (Decidable (_ ∧ _))

/-- A call of `send` up to its release. -/
def sendOne : List LinkAct :=
  .send :: List.replicate 9 .tx ++ [.push ⟨0, 0, fun _ => 0⟩ true, .tx]

/-- The receiver is woken by a first frame, takes it, and finds the queue empty; a second one is
sent before its destructor has written `ICR`. -/
def sentUnheard : List LinkAct :=
  List.replicate 3 .rx ++ sendOne ++ List.replicate 4 (.handler .cm7) ++ .tx ::
    List.replicate 29 .rx ++ sendOne ++ .tx :: List.replicate 3 .rx

/-- **A frame is queued and nobody wakes the receiver**, with the handlers of both cores off. -/
theorem not_forall_always_not_stuck : ¬ ∀ (c : Core) (isr : Core → Word) (acts : List LinkAct),
    (machine c).Always (fun s => ¬ (s.Stuck c ∧ s.sem.handler c.other = .off)) (start isr)
      acts := by
  intro h
  have hstuck : ((machine .cm7).run (start fun _ => 0) sentUnheard).map
      (fun s => decide (s.Stuck .cm7 ∧ s.sem.handler .cm4 = .off)) = some true := by decide
  obtain ⟨s, hrun, hs⟩ := Option.map_eq_some_iff.mp hstuck
  exact (h .cm7 (fun _ => 0) sentUnheard).of_run hrun (of_decide_eq_true hs)

end Link

end LibDronecan
