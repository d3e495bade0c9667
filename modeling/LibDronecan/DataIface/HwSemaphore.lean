import Mathlib.Logic.Function.Basic
import LibDronecan.DataIface.Frame
import LibDronecan.Machinery.Mask
import LibDronecan.Machinery.Run

/-!
# DataIface/HwSemaphore — `ShMemIface::HWSemaphore` over the HSEM registers

    enable ──▸ register ──▸ lockTest ──▸ ownerTest ──▸ unregister ──▸ disable ──▸ keyRead ──▸ inside
                               ▲            │ not ours                                          │
                               └── wait ◂───┘                            outside ◂── clear ◂────┘

Any number of threads on two cores, one register access a step; a core's interrupt handler runs
ahead of its threads.  A read of `RLR[i]` locks a free semaphore for the reading *core*, and the
constructor asks no more than whose core holds it.  So it keeps the other core out, and lets in any
number of threads of its own: `always_exclusive` is exclusion for the runs in which no thread asks
while another of its core already has the answer, and every other run can be led to two inside.
-/

open Machinery Machinery.Mask

namespace LibDronecan

inductive Core
  | cm7
  | cm4
  deriving DecidableEq

/-- `HSEM_CORE_ID`. -/
def Core.id : Core → Word
  | .cm7 => 0x3
  | .cm4 => 0x1

/-- `HSEM_RLR_LOCK`. -/
def hsemRlrLock : Word := 0x80000000

/-- What `RLR[i]` reads when the semaphore is held by a core. -/
def rlr (c : Core) : Word := hsemRlrLock ||| c.id <<< 8

/-- `1U << i`. -/
def bit (i : Fin 32) : Word := BitVec.twoPow 32 i

/-- Where a thread is in the constructor or the destructor of a semaphore.  For an index of 32 or
more the constructor returns before its first access; no caller passes one. -/
inductive SemPc
  | outside
  | enableRead (i : Fin 32)
  | enableWrite (i : Fin 32) (ier : Word)
  | register (i : Fin 32)
  | lockTest (i : Fin 32)
  | ownerTest (i : Fin 32)
  | wait (i : Fin 32)
  | unregister (i : Fin 32)
  | disableRead (i : Fin 32)
  | disableWrite (i : Fin 32) (ier : Word)
  | keyRead (i : Fin 32)
  | inside (i : Fin 32) (unlockKey : Word)
  | clear (i : Fin 32)
  deriving DecidableEq

/-- The semaphore a thread takes for its own: past its owner test, and not yet at its release. -/
def SemPc.owned : SemPc → Option (Fin 32)
  | .unregister i => some i
  | .disableRead i => some i
  | .disableWrite i _ => some i
  | .keyRead i => some i
  | .inside i _ => some i
  | _ => none

/-- Where a core is in `sem_free_it`. -/
inductive HandlerPc
  | off
  | broadcast
  | reread
  | clear (isr : Word)
  deriving DecidableEq

/-- **The HSEM registers**, the events of each thread, and where every core and thread is. -/
structure Hsem (T : Type*) where
  owner : Fin 32 → Option Core
  ier : Core → Word
  isr : Core → Word
  handler : Core → HandlerPc
  pending : T → Word
  listeners : T → List Word
  pc : T → SemPc

/-- A step of a thread or of a core's handler.  The last four are what a thread does outside: a
listener of its own, a write to `IER`, a wait for events, anything that touches none of these. -/
inductive SemAct (T : Type*)
  | enter (t : T) (i : Fin 32)
  | access (t : T)
  | handler (c : Core)
  | registerMask (t : T) (events : Word)
  | writeIer (t : T) (ier : Word)
  | waitAny (t : T) (events : Word)
  | pass (t : T)

namespace Hsem

variable {T : Type*} [DecidableEq T] (core : T → Core)

/-- All semaphores free, no interrupt enabled, every thread outside; flags may be raised. -/
def start (isr : Core → Word) : Hsem T where
  owner _ := none
  ier _ := 0
  isr := isr
  handler _ := .off
  pending _ := 0
  listeners _ := []
  pc _ := .outside

def setPc (s : Hsem T) (t : T) (pc : SemPc) : Hsem T := { s with pc := Function.update s.pc t pc }

def setIer (s : Hsem T) (c : Core) (ier : Word) : Hsem T :=
  { s with ier := Function.update s.ier c ier }

def setPending (s : Hsem T) (t : T) (events : Word) : Hsem T :=
  { s with pending := Function.update s.pending t events }

def setListeners (s : Hsem T) (t : T) (ls : List Word) : Hsem T :=
  { s with listeners := Function.update s.listeners t ls }

/-! ## The registers -/

/-- A read of `RLR[i]` by a core: it locks the semaphore if that is free. -/
def readRlr (s : Hsem T) (c : Core) (i : Fin 32) : Word × Hsem T :=
  match s.owner i with
  | none => (rlr c, { s with owner := Function.update s.owner i (some c) })
  | some c' => (rlr c', s)

/-- Freeing a semaphore raises its status flag on both cores. -/
def free (s : Hsem T) (i : Fin 32) : Hsem T :=
  { s with owner := Function.update s.owner i none, isr := fun c => s.isr c ||| bit i }

/-- A write to `R[i]`: with the owner's core id and `LOCK` clear it frees the semaphore. -/
def writeR (s : Hsem T) (i : Fin 32) (value : Word) : Hsem T :=
  match s.owner i with
  | none => s
  | some c =>
      if value &&& hsemRlrLock = 0 ∧ (value >>> 8) &&& 0xFF = c.id then s.free i else s

/-- A write to `ICR`: it clears exactly the flags written. -/
def writeIcr (s : Hsem T) (c : Core) (flags : Word) : Hsem T :=
  { s with isr := Function.update s.isr c (s.isr c &&& ~~~flags) }

/-- `evt_src.broadcastFlagsI` on a core: every registered listener is signalled. -/
def broadcastFlagsI (s : Hsem T) (c : Core) : Hsem T :=
  { s with pending := fun t =>
      if core t = c then (s.listeners t).foldl (· ||| ·) (s.pending t) else s.pending t }

/-! ## The steps -/

/-- One access of the constructor or the destructor. -/
def access (s : Hsem T) (t : T) : Option (Hsem T) :=
  match s.pc t with
  | .outside => none
  | .enableRead i => some (s.setPc t (.enableWrite i (s.ier (core t))))
  | .enableWrite i ier => some ((s.setIer (core t) (ier ||| bit i)).setPc t (.register i))
  | .register i => some ((s.setListeners t (bit i :: s.listeners t)).setPc t (.lockTest i))
  | .lockTest i =>
      some ((s.readRlr (core t) i).2.setPc t
        (if (s.readRlr (core t) i).1 &&& hsemRlrLock = 0 then .wait i else .ownerTest i))
  | .ownerTest i =>
      some ((s.readRlr (core t) i).2.setPc t
        (if ((s.readRlr (core t) i).1 >>> 8) &&& 0xFF ≠ (core t).id then .wait i
          else .unregister i))
  | .wait i =>
      if s.pending t &&& bit i = 0 then none
      else some ((s.setPending t (s.pending t &&& ~~~bit i)).setPc t (.lockTest i))
  | .unregister i => some ((s.setListeners t ((s.listeners t).erase (bit i))).setPc t
      (.disableRead i))
  | .disableRead i => some (s.setPc t (.disableWrite i (s.ier (core t))))
  | .disableWrite i ier => some ((s.setIer (core t) (ier &&& ~~~bit i)).setPc t (.keyRead i))
  | .keyRead i =>
      some ((s.readRlr (core t) i).2.setPc t (.inside i ((s.readRlr (core t) i).1 &&& 0xFFFF)))
  | .inside i unlockKey => some ((s.writeR i unlockKey).setPc t (.clear i))
  | .clear i => some ((s.writeIcr (core t) (bit i)).setPc t .outside)

/-- One step of `sem_free_it`, which an enabled flag starts. -/
def handlerStep (s : Hsem T) (c : Core) : Option (Hsem T) :=
  match s.handler c with
  | .off =>
      if s.isr c &&& s.ier c = 0 then none
      else some { s with handler := Function.update s.handler c .broadcast }
  | .broadcast =>
      some { s.broadcastFlagsI core c with handler := Function.update s.handler c .reread }
  | .reread => some { s with handler := Function.update s.handler c (.clear (s.isr c)) }
  | .clear isr =>
      some { s.writeIcr c isr with handler := Function.update s.handler c .off }

/-- A thread runs only while its core's handler does not. -/
def onThread (s : Hsem T) (t : T) (next : Option (Hsem T)) : Option (Hsem T) :=
  if s.handler (core t) = .off then next else none

def step (s : Hsem T) : SemAct T → Option (Hsem T)
  | .enter t i =>
      s.onThread core t (if s.pc t = .outside then some (s.setPc t (.enableRead i)) else none)
  | .access t => s.onThread core t (s.access core t)
  | .handler c => s.handlerStep core c
  | .registerMask t events => s.onThread core t (some (s.setListeners t (events :: s.listeners t)))
  | .writeIer t ier => s.onThread core t (some (s.setIer (core t) ier))
  | .waitAny t events =>
      s.onThread core t (if s.pending t &&& events = 0 then none
        else some (s.setPending t (s.pending t &&& ~~~events)))
  | .pass t => s.onThread core t (some s)

/-- Threads on two cores over the semaphores, in any interleaving. -/
def machine : Machine (Hsem T) (SemAct T) := ⟨step core⟩

/-! ## The words -/

theorem rlr_id (c c' : Core) : (rlr c >>> 8) &&& 0xFF = c'.id ↔ c = c' := by
  cases c <;> cases c' <;> decide

/-- What the constructor keeps of `RLR[i]` is a key to the semaphore of its core. -/
theorem key_opens (c : Core) :
    rlr c &&& 0xFFFF &&& hsemRlrLock = 0 ∧ ((rlr c &&& 0xFFFF) >>> 8) &&& 0xFF = c.id := by
  cases c <;> decide

/-! ## Exclusion -/

/-- At most one thread at a time is between the constructor's return and the release. -/
def Exclusive (s : Hsem T) : Prop :=
  ∀ i t k t' k', s.pc t = .inside i k → s.pc t' = .inside i k' → t = t'

/-- **No thread asks whose the semaphore is while another of its core takes it for its own.** -/
def SoleTaker (s : Hsem T) : SemAct T → Prop
  | .access t => ∀ i, s.handler (core t) = .off → s.pc t = .ownerTest i →
      ∀ t', t' ≠ t → core t' = core t → (s.pc t').owned ≠ some i
  | _ => True

/-- **Whoever takes a semaphore for its own holds it for its core**, alone there, with its key. -/
structure Inv (s : Hsem T) : Prop where
  owner : ∀ t i, (s.pc t).owned = some i → s.owner i = some (core t)
  sole : ∀ t t' i, (s.pc t).owned = some i → (s.pc t').owned = some i → core t = core t' → t = t'
  key : ∀ t i k, s.pc t = .inside i k → k = rlr (core t) &&& 0xFFFF

variable {core} {s s' : Hsem T} {t : T} {i : Fin 32}

section

omit [DecidableEq T]

theorem inv_start (isr : Core → Word) : Inv core (start isr : Hsem T) :=
  ⟨fun _ _ h => (by cases h), fun _ _ _ h => (by cases h), fun _ _ _ h => (by cases h)⟩

theorem Inv.exclusive (h : Inv core s) : Exclusive s := by
  intro i t k t' k' ht ht'
  have ho : (s.pc t).owned = some i := by rw [ht]; rfl
  have ho' : (s.pc t').owned = some i := by rw [ht']; rfl
  exact h.sole t t' i ho ho' (Option.some.inj ((h.owner t i ho).symm.trans (h.owner t' i ho')))

/-- The invariant is about owners and places only. -/
theorem Inv.of_eq (h : Inv core s) (howner : s'.owner = s.owner) (hpc : s'.pc = s.pc) :
    Inv core s' :=
  ⟨by rw [howner, hpc]; exact h.owner, by rw [hpc]; exact h.sole, by rw [hpc]; exact h.key⟩

@[simp] theorem readRlr_pc (s : Hsem T) (c : Core) (i : Fin 32) :
    (s.readRlr c i).2.pc = s.pc := by
  unfold readRlr
  split <;> rfl

theorem readRlr_handler (s : Hsem T) (c : Core) (i : Fin 32) :
    (s.readRlr c i).2.handler = s.handler := by
  unfold readRlr
  split <;> rfl

/-- After a read the semaphore is held, by the core the read tells. -/
theorem exists_readRlr (s : Hsem T) (c : Core) (i : Fin 32) :
    ∃ c', (s.readRlr c i).1 = rlr c' ∧ (s.readRlr c i).2.owner i = some c' := by
  unfold readRlr
  split
  · exact ⟨c, rfl, Function.update_self i (some c) s.owner⟩
  case _ c' ho => exact ⟨c', rfl, ho⟩

theorem readRlr_of_owner {c c' : Core} (ho : s.owner i = some c') :
    s.readRlr c i = (rlr c', s) := by
  unfold readRlr
  rw [ho]

/-- A read locks a free semaphore only, which nobody takes for its own. -/
theorem Inv.readRlr (h : Inv core s) (c : Core) (i : Fin 32) : Inv core (s.readRlr c i).2 := by
  cases ho : s.owner i with
  | some c' => rwa [readRlr_of_owner ho]
  | none =>
    refine ⟨fun t j hj => ?_, by rw [readRlr_pc]; exact h.sole, by rw [readRlr_pc]; exact h.key⟩
    rw [readRlr_pc] at hj
    have hown := h.owner t j hj
    have hne : j ≠ i := fun hji => by rw [hji, ho] at hown; cases hown
    unfold Hsem.readRlr
    rw [ho]
    exact (Function.update_of_ne hne _ _).trans hown

/-- A semaphore that nobody takes for its own may be freed. -/
theorem Inv.free (h : Inv core s) (hne : ∀ t, (s.pc t).owned ≠ some i) : Inv core (s.free i) :=
  ⟨fun t j hj => (Function.update_of_ne (fun hji : j = i => hne t (hji ▸ hj)) _ _).trans
    (h.owner t j hj), h.sole, h.key⟩

/-- The key of the owner's core opens. -/
theorem writeR_key {c : Core} (ho : s.owner i = some c) :
    s.writeR i (rlr c &&& 0xFFFF) = s.free i := by
  unfold writeR
  rw [ho]
  exact if_pos (key_opens c)

/-- **The destructor's write frees the semaphore**: it is its core's, and the key fits. -/
theorem Inv.writeR_eq (h : Inv core s) {k : Word} (hpc : s.pc t = .inside i k) :
    s.writeR i k = s.free i := by
  rw [h.key t i k hpc]
  exact writeR_key (h.owner t i (by rw [hpc]; rfl))

theorem Inv.setIer (h : Inv core s) (c : Core) (ier : Word) : Inv core (s.setIer c ier) :=
  h.of_eq rfl rfl

theorem Inv.writeIcr (h : Inv core s) (c : Core) (flags : Word) : Inv core (s.writeIcr c flags) :=
  h.of_eq rfl rfl

theorem Inv.handlerStep (h : Inv core s) {c : Core} (hst : s.handlerStep core c = some s') :
    Inv core s' := by
  unfold Hsem.handlerStep at hst
  split at hst
  · split_ifs at hst
    exact Option.some.inj hst ▸ h.of_eq rfl rfl
  · exact Option.some.inj hst ▸ h.of_eq rfl rfl
  · exact Option.some.inj hst ▸ h.of_eq rfl rfl
  · exact Option.some.inj hst ▸ h.of_eq rfl rfl

/-- A thread's step, seen past the handler of its core. -/
theorem onThread_eq_some {next : Option (Hsem T)} :
    s.onThread core t next = some s' ↔ s.handler (core t) = .off ∧ next = some s' := by
  unfold onThread
  split_ifs with hoff <;> simp [hoff]

end

/-- **What a thread's step within a larger one comes to**: the semaphores it leaves, and the state
around them. -/
theorem exists_of_map_step {σ : Type*} {a : SemAct T} {next : Option (Hsem T)} {g : Hsem T → σ}
    {u : σ} (hst : (s.step core a).map g = some u)
    (ha : s.step core a = s.onThread core t next) :
    ∃ sem, s.step core a = some sem ∧ next = some sem ∧ u = g sem := by
  obtain ⟨sem, hsem, rfl⟩ := Option.map_eq_some_iff.mp hst
  exact ⟨sem, hsem, (onThread_eq_some.mp (ha ▸ hsem)).2, rfl⟩

theorem Inv.setPending (h : Inv core s) (t : T) (events : Word) :
    Inv core (s.setPending t events) := h.of_eq rfl rfl

theorem Inv.setListeners (h : Inv core s) (t : T) (ls : List Word) :
    Inv core (s.setListeners t ls) := h.of_eq rfl rfl

@[simp] theorem setPc_pc_self (s : Hsem T) (t : T) (pc : SemPc) : (s.setPc t pc).pc t = pc := by
  simp only [Hsem.setPc, Function.update_self]

theorem setPc_pc_of_ne {t' : T} (h : t' ≠ t) (s : Hsem T) (pc : SemPc) :
    (s.setPc t pc).pc t' = s.pc t' := by
  simp only [Hsem.setPc, Function.update_of_ne h]

/-- A thread that does not take a semaphore is in nobody's way. -/
theorem Inv.setPc_of_none (h : Inv core s) {pc : SemPc} (hpc : pc.owned = none) :
    Inv core (s.setPc t pc) := by
  have hne : ∀ t' i, ((s.setPc t pc).pc t').owned = some i → (s.setPc t pc).pc t' = s.pc t' := by
    intro t' i ho
    obtain rfl | ht := eq_or_ne t' t
    · rw [setPc_pc_self, hpc] at ho
      cases ho
    · exact setPc_pc_of_ne ht s pc
  refine ⟨fun t' i ho => ?_, fun t₁ t₂ i h₁ h₂ => ?_, fun t' i k hk => ?_⟩
  · rw [hne t' i ho] at ho
    exact h.owner t' i ho
  · rw [hne t₁ i h₁] at h₁
    rw [hne t₂ i h₂] at h₂
    exact h.sole t₁ t₂ i h₁ h₂
  · rw [hne t' i (by rw [hk]; rfl)] at hk
    exact h.key t' i k hk

/-- A thread may go on with a semaphore that is its core's and that no other of its core takes. -/
theorem Inv.setPc (h : Inv core s) {pc : SemPc} (hpc : pc.owned = some i)
    (howner : s.owner i = some (core t))
    (hsole : ∀ t', t' ≠ t → core t' = core t → (s.pc t').owned ≠ some i)
    (hkey : ∀ j k, pc = .inside j k → k = rlr (core t) &&& 0xFFFF) :
    Inv core (s.setPc t pc) := by
  refine ⟨fun t' j ho => ?_, fun t₁ t₂ j h₁ h₂ hcore => ?_, fun t' j k hk => ?_⟩
  · obtain rfl | ht := eq_or_ne t' t
    · rw [setPc_pc_self, hpc] at ho
      obtain rfl := Option.some.inj ho
      exact howner
    · rw [setPc_pc_of_ne ht] at ho
      exact h.owner t' j ho
  · obtain rfl | ht₁ := eq_or_ne t t₁ <;> obtain rfl | ht₂ := eq_or_ne t t₂
    · rfl
    · rw [setPc_pc_self, hpc] at h₁
      rw [setPc_pc_of_ne ht₂.symm, ← h₁] at h₂
      exact absurd h₂ (hsole t₂ ht₂.symm hcore.symm)
    · rw [setPc_pc_self, hpc] at h₂
      rw [setPc_pc_of_ne ht₁.symm, ← h₂] at h₁
      exact absurd h₁ (hsole t₁ ht₁.symm hcore)
    · rw [setPc_pc_of_ne ht₁.symm] at h₁
      rw [setPc_pc_of_ne ht₂.symm] at h₂
      exact h.sole t₁ t₂ j h₁ h₂ hcore
  · obtain rfl | ht := eq_or_ne t' t
    · rw [setPc_pc_self] at hk
      exact hkey j k hk
    · rw [setPc_pc_of_ne ht] at hk
      exact h.key t' j k hk

/-- On the way in and out, nothing of this changes hands. -/
theorem Inv.setPc_of_owned (h : Inv core s) {pc : SemPc} (hold : (s.pc t).owned = some i)
    (hpc : pc.owned = some i) (hkey : ∀ j k, pc = .inside j k → k = rlr (core t) &&& 0xFFFF) :
    Inv core (s.setPc t pc) :=
  h.setPc hpc (h.owner t i hold)
    (fun t' ht hcore ho => ht (h.sole t' t i ho hold hcore)) hkey

theorem Inv.release (h : Inv core s) {k : Word} (hpc : s.pc t = .inside i k) :
    Inv core ((s.writeR i k).setPc t (.clear i)) := by
  have hown : (s.pc t).owned = some i := by rw [hpc]; rfl
  rw [h.writeR_eq hpc]
  change Inv core ((s.setPc t (.clear i)).free i)
  refine (h.setPc_of_none rfl).free fun t' ho => ?_
  obtain rfl | ht := eq_or_ne t t'
  · rw [setPc_pc_self] at ho
    cases ho
  · rw [setPc_pc_of_ne ht.symm] at ho
    have hcore := (h.owner t i hown).symm.trans (h.owner t' i ho)
    exact ht (h.sole t t' i hown ho (Option.some.inj hcore))

/-- A semaphore asked for and found to be the core's is the thread's to take. -/
theorem Inv.ownerTest (h : Inv core s) (hsole : ∀ t', t' ≠ t → core t' = core t →
    (s.pc t').owned ≠ some i) :
    Inv core ((s.readRlr (core t) i).2.setPc t
      (if ((s.readRlr (core t) i).1 >>> 8) &&& 0xFF ≠ (core t).id then .wait i
        else .unregister i)) := by
  obtain ⟨c, hval, ho⟩ := exists_readRlr s (core t) i
  rw [hval]
  split_ifs with hid
  · exact (h.readRlr (core t) i).setPc_of_none rfl
  · rw [not_not, rlr_id] at hid
    rw [hid] at ho
    exact (h.readRlr (core t) i).setPc rfl ho (by rw [readRlr_pc]; exact hsole)
      (fun j k hk => by cases hk)

/-- The key read of a thread that takes the semaphore reads its core's key. -/
theorem Inv.keyRead (h : Inv core s) (hpc : s.pc t = .keyRead i) :
    Inv core ((s.readRlr (core t) i).2.setPc t
      (.inside i ((s.readRlr (core t) i).1 &&& 0xFFFF))) := by
  have hown : (s.pc t).owned = some i := by rw [hpc]; rfl
  rw [readRlr_of_owner (h.owner t i hown)]
  refine h.setPc_of_owned hown rfl fun j k hk => ?_
  cases hk
  rfl

theorem Inv.access (h : Inv core s)
    (hsole : ∀ i, s.pc t = .ownerTest i → ∀ t', t' ≠ t → core t' = core t →
      (s.pc t').owned ≠ some i)
    (hst : s.access core t = some s') : Inv core s' := by
  unfold Hsem.access at hst
  cases hpc : s.pc t with
  | outside => simp only [hpc, reduceCtorEq] at hst
  | enableRead i =>
    simp only [hpc, Option.some.injEq] at hst
    exact hst ▸ h.setPc_of_none rfl
  | enableWrite i ier =>
    simp only [hpc, Option.some.injEq] at hst
    exact hst ▸ (h.setIer _ _).setPc_of_none rfl
  | register i =>
    simp only [hpc, Option.some.injEq] at hst
    exact hst ▸ (h.setListeners _ _).setPc_of_none rfl
  | lockTest i =>
    simp only [hpc, Option.some.injEq] at hst
    exact hst ▸ (h.readRlr (core t) i).setPc_of_none (by split_ifs <;> rfl)
  | ownerTest i =>
    simp only [hpc, Option.some.injEq] at hst
    exact hst ▸ h.ownerTest (hsole i hpc)
  | wait i =>
    simp only [hpc] at hst
    split_ifs at hst
    exact Option.some.inj hst ▸ (h.setPending _ _).setPc_of_none rfl
  | unregister i =>
    simp only [hpc, Option.some.injEq] at hst
    exact hst ▸ (h.setListeners _ _).setPc_of_owned (congrArg SemPc.owned hpc) rfl
      (fun j k hk => by cases hk)
  | disableRead i =>
    simp only [hpc, Option.some.injEq] at hst
    exact hst ▸ h.setPc_of_owned (congrArg SemPc.owned hpc) rfl (fun j k hk => by cases hk)
  | disableWrite i ier =>
    simp only [hpc, Option.some.injEq] at hst
    exact hst ▸ (h.setIer _ _).setPc_of_owned (congrArg SemPc.owned hpc) rfl
      (fun j k hk => by cases hk)
  | keyRead i =>
    simp only [hpc, Option.some.injEq] at hst
    exact hst ▸ h.keyRead hpc
  | inside i k =>
    simp only [hpc, Option.some.injEq] at hst
    exact hst ▸ h.release hpc
  | clear i =>
    simp only [hpc, Option.some.injEq] at hst
    exact hst ▸ (h.writeIcr _ _).setPc_of_none rfl

/-- **A step keeps the invariant**, if no one asks for what another of its core takes. -/
theorem Inv.step (h : Inv core s) {a : SemAct T} (hsole : SoleTaker core s a)
    (hst : s.step core a = some s') : Inv core s' := by
  cases a with
  | enter t i =>
    obtain ⟨-, hst⟩ := onThread_eq_some.mp hst
    split_ifs at hst
    exact Option.some.inj hst ▸ h.setPc_of_none rfl
  | access t =>
    obtain ⟨hoff, hst⟩ := onThread_eq_some.mp hst
    exact h.access (fun i => hsole i hoff) hst
  | handler c => exact h.handlerStep hst
  | registerMask t events =>
    obtain ⟨-, hst⟩ := onThread_eq_some.mp hst
    exact Option.some.inj hst ▸ h.setListeners _ _
  | writeIer t ier =>
    obtain ⟨-, hst⟩ := onThread_eq_some.mp hst
    exact Option.some.inj hst ▸ h.setIer _ _
  | waitAny t events =>
    obtain ⟨-, hst⟩ := onThread_eq_some.mp hst
    split_ifs at hst
    exact Option.some.inj hst ▸ h.setPending _ _
  | pass t =>
    obtain ⟨-, hst⟩ := onThread_eq_some.mp hst
    exact Option.some.inj hst ▸ h

/-! ## The condition is exact -/

/-- The thread can go on, alone, until its constructor returns. -/
def CanEnter (core : T → Core) (t : T) (i : Fin 32) (s : Hsem T) : Prop :=
  ∃ acts u k, (machine core).run s acts = some u ∧ u.pc t = .inside i k ∧
    (∀ t', t' ≠ t → u.pc t' = s.pc t') ∧ u.handler = s.handler

theorem CanEnter.of_access (hoff : s.handler (core t) = .off) {pc : SemPc}
    (hst : s.access core t = some (s'.setPc t pc)) (hpc : s'.pc = s.pc)
    (hh : s'.handler = s.handler) (h : CanEnter core t i (s'.setPc t pc)) :
    CanEnter core t i s := by
  obtain ⟨acts, u, k, hrun, hin, hother, hhandler⟩ := h
  have hstep : (machine core).step s (.access t) = some (s'.setPc t pc) :=
    onThread_eq_some.mpr ⟨hoff, hst⟩
  refine ⟨.access t :: acts, u, k, ?_, hin, fun t' ht => ?_, hhandler.trans hh⟩
  · rw [Machine.run_cons, hstep, Option.bind_some, hrun]
  · rw [hother t' ht, setPc_pc_of_ne ht, hpc]

theorem canEnter_inside {k : Word} (hpc : s.pc t = .inside i k) : CanEnter core t i s :=
  ⟨[], s, k, rfl, hpc, fun _ _ => rfl, rfl⟩

theorem canEnter_keyRead (hoff : s.handler (core t) = .off) (hpc : s.pc t = .keyRead i) :
    CanEnter core t i s := by
  have hst : s.access core t = some ((s.readRlr (core t) i).2.setPc t
      (.inside i ((s.readRlr (core t) i).1 &&& 0xFFFF))) := by
    simp only [access, hpc]
  exact CanEnter.of_access hoff hst (readRlr_pc _ _ _) (readRlr_handler _ _ _)
    (canEnter_inside (setPc_pc_self _ _ _))

theorem canEnter_disableWrite (hoff : s.handler (core t) = .off) {ier : Word}
    (hpc : s.pc t = .disableWrite i ier) : CanEnter core t i s := by
  have hst : s.access core t
      = some ((s.setIer (core t) (ier &&& ~~~bit i)).setPc t (.keyRead i)) := by
    simp only [access, hpc]
  exact CanEnter.of_access hoff hst rfl rfl (canEnter_keyRead hoff (setPc_pc_self _ _ _))

theorem canEnter_disableRead (hoff : s.handler (core t) = .off) (hpc : s.pc t = .disableRead i) :
    CanEnter core t i s := by
  have hst : s.access core t = some (s.setPc t (.disableWrite i (s.ier (core t)))) := by
    simp only [access, hpc]
  exact CanEnter.of_access hoff hst rfl rfl (canEnter_disableWrite hoff (setPc_pc_self _ _ _))

theorem canEnter_unregister (hoff : s.handler (core t) = .off) (hpc : s.pc t = .unregister i) :
    CanEnter core t i s := by
  have hst : s.access core t
      = some ((s.setListeners t ((s.listeners t).erase (bit i))).setPc t (.disableRead i)) := by
    simp only [access, hpc]
  exact CanEnter.of_access hoff hst rfl rfl (canEnter_disableRead hoff (setPc_pc_self _ _ _))

/-- **A thread that takes a semaphore for its own waits for nothing any more.** -/
theorem canEnter_of_owned (hoff : s.handler (core t) = .off) (hown : (s.pc t).owned = some i) :
    CanEnter core t i s := by
  cases hpc : s.pc t with
  | unregister j =>
    rw [hpc] at hown
    cases hown
    exact canEnter_unregister hoff hpc
  | disableRead j =>
    rw [hpc] at hown
    cases hown
    exact canEnter_disableRead hoff hpc
  | disableWrite j ier =>
    rw [hpc] at hown
    cases hown
    exact canEnter_disableWrite hoff hpc
  | keyRead j =>
    rw [hpc] at hown
    cases hown
    exact canEnter_keyRead hoff hpc
  | inside j k =>
    rw [hpc] at hown
    cases hown
    exact canEnter_inside hpc
  | outside | enableRead | enableWrite | register | lockTest | ownerTest | wait | clear =>
    rw [hpc] at hown
    cases hown

/-- **Asked while another thread of the core has the answer, the semaphore lets both in.** -/
theorem Inv.exists_run_not_exclusive (h : Inv core s) {a : SemAct T}
    (hsole : ¬ SoleTaker core s a) :
    ∃ acts u, (machine core).run s (a :: acts) = some u ∧ ¬ Exclusive u := by
  cases a with
  | access t =>
    unfold SoleTaker at hsole
    push Not at hsole
    obtain ⟨i, hoff, hpc, t', ht, hcore, hown⟩ := hsole
    have ho : s.owner i = some (core t) := hcore ▸ h.owner t' i hown
    have hst : s.access core t = some (s.setPc t (.unregister i)) := by
      simp only [Hsem.access, hpc, readRlr_of_owner ho]
      rw [if_neg (not_not.mpr ((rlr_id _ _).mpr rfl))]
    have hask : (machine core).step s (.access t) = some (s.setPc t (.unregister i)) :=
      onThread_eq_some.mpr ⟨hoff, hst⟩
    obtain ⟨acts, u, k, hrun, hin, hother, hhandler⟩ : CanEnter core t i
      (s.setPc t (.unregister i)) := canEnter_unregister hoff (setPc_pc_self _ _ _)
    have hown' : (u.pc t').owned = some i := by rw [hother t' ht, setPc_pc_of_ne ht, hown]
    have hoff' : u.handler (core t') = .off := by
      rw [hhandler, hcore]
      exact hoff
    obtain ⟨acts', v, k', hrun', hin', hother', -⟩ := canEnter_of_owned hoff' hown'
    have hfirst : (machine core).run s (.access t :: acts) = some u := by
      rw [Machine.run_cons, hask, Option.bind_some, hrun]
    exact ⟨acts ++ acts', v, Machine.run_trans hfirst hrun',
      fun hex => ht (hex i t' k' t k hin' ((hother' t ht.symm).trans hin))⟩
  | enter t i => exact absurd trivial hsole
  | handler c => exact absurd trivial hsole
  | registerMask t events => exact absurd trivial hsole
  | writeIer t ier => exact absurd trivial hsole
  | waitAny t events => exact absurd trivial hsole
  | pass t => exact absurd trivial hsole

/-- **Mutual exclusion, for threads of different cores**: along a run in which no thread asks whose
a semaphore is while another of its core takes it for its own, at most one is inside; and from the
first step of a run at which one does, it can go on to two inside. -/
theorem always_exclusive (core : T → Core) (isr : Core → Word) (acts : List (SemAct T)) :
    ((machine core).Along (SoleTaker core) (start isr) acts →
      (machine core).Always Exclusive (start isr) acts) ∧
    ∀ bs a cs s, acts = bs ++ a :: cs → (machine core).run (start isr) bs = some s →
      (machine core).Along (SoleTaker core) (start isr) bs → ¬ SoleTaker core s a →
      ∃ ext, ¬ (machine core).Always Exclusive s (a :: ext) := by
  have hstep : ∀ s a s', Inv core s → SoleTaker core s a →
      (machine core).step s a = some s' → Inv core s' :=
    fun _ _ _ hi hsole hst => hi.step hsole hst
  constructor
  · intro h
    exact (Machine.always_of_along (inv_start isr) hstep h).mono fun _ => Inv.exclusive
  · rintro bs a cs s - hrun halong hsole
    have hi : Inv core s := (Machine.always_of_along (inv_start isr) hstep halong).of_run hrun
    obtain ⟨ext, u, hext, hu⟩ := hi.exists_run_not_exclusive hsole
    exact ⟨ext, fun hall => hu (hall.of_run hext)⟩

/-- Two threads of one core, one after the other, and the first does not leave. -/
def twoInside : List (SemAct Bool) :=
  .enter false 0 :: List.replicate 9 (.access false) ++
    .enter true 0 :: List.replicate 9 (.access true)

/-- **Two threads of a core are inside at once**: the second finds the semaphore locked by its core,
and takes that for its own lock. -/
theorem not_forall_always_exclusive : ¬ ∀ (core : Bool → Core) (isr : Core → Word)
    (acts : List (SemAct Bool)), (machine core).Always Exclusive (start isr) acts := by
  intro h
  have hpc : ((machine fun _ => .cm7).run (start fun _ => 0) twoInside).map
      (fun s => (s.pc false, s.pc true)) = some (.inside 0 0x300, .inside 0 0x300) := by decide
  obtain ⟨s, hrun, hs⟩ := Option.map_eq_some_iff.mp hpc
  obtain ⟨hf, ht⟩ := Prod.mk.inj hs
  have hex := (h (fun _ => .cm7) (fun _ => 0) twoInside).of_run hrun
  exact Bool.false_ne_true (hex 0 false _ true _ hf ht)

end Hsem

end LibDronecan
