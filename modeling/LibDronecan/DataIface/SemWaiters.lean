import LibDronecan.DataIface.ShMemWake

/-!
# DataIface/SemWaiters — whoever waits for a semaphore that is free

    wait i, owner i = none  ⟹  i ∈ pending ∨ handler about to signal ∨ i ∈ isr
                                                                        (i ∈ ier)

A constructor that finds its semaphore taken sleeps until an interrupt tells it that one was freed.
That the interrupt comes is up to the other threads of its core: the enable bits are in one register
that each changes by reading and writing it, and the flag is cleared by any destructor for that
semaphore.  While they spare those in a constructor, nobody sleeps beside a free semaphore: alone
with its core's handler, it gets in (`always_entersAlone`).  That is so for any number of threads
and semaphores; with one thread on each core nothing else can happen (`spares_of_injective`), but
with a sender and a receiver on one core it can (`exists_run_asleep`).
-/

open Machinery Machinery.Mask

namespace LibDronecan

/-- The semaphore whose interrupt a constructor has enabled, to be woken by it. -/
def SemPc.awaits : SemPc → Option (Fin 32)
  | .register i | .lockTest i | .ownerTest i | .wait i => some i
  | .outside | .enableRead _ | .enableWrite _ _ | .unregister _ | .disableRead _
  | .disableWrite _ _ | .keyRead _ | .inside _ _ | .clear _ => none

namespace Hsem

variable {T : Type*} [DecidableEq T] (core : T → Core)

/-- **A step of a thread spares those in a constructor**: of what is to wake them, it turns off no
interrupt, clears no flag, and takes no event but the constructor's own. -/
def Spares (s : Hsem T) (a : SemAct T) : Prop :=
  a.thread ≠ none → ∀ s' ∈ s.step core a, ∀ t i,
    (s.pc t).awaits = some i → (s'.pc t).awaits = some i →
      ((i : ℕ) ∈ s.ier (core t) → (i : ℕ) ∈ s'.ier (core t)) ∧
      ((i : ℕ) ∈ s.isr (core t) → (i : ℕ) ∈ s'.isr (core t)) ∧
      (a ≠ .access t → (i : ℕ) ∈ s.pending t → (i : ℕ) ∈ s'.pending t)

/-- Alone with its core's handler, the thread comes to the end of its constructor. -/
def EntersAlone (t : T) (i : Fin 32) (s : Hsem T) : Prop :=
  ∃ acts u k, (∀ a ∈ acts, a = .access t ∨ a = .handler (core t)) ∧
    (machine core).run s acts = some u ∧ u.pc t = .inside i k

/-- **The invariant**: who may go to sleep is listening with its interrupt enabled, and beside a
free semaphore something is about to wake it, or has. -/
structure Woken (s : Hsem T) : Prop where
  listening : ∀ t, ∀ e ∈ (s.pc t).listened, e ∈ s.listeners t
  enabled : ∀ t i, (s.pc t).awaits = some i → (i : ℕ) ∈ s.ier (core t)
  signalled : ∀ t i, s.pc t = .wait i → s.handler (core t) ≠ .off →
    s.handler (core t) ≠ .broadcast → (i : ℕ) ∈ s.pending t
  waking : ∀ t i, s.pc t = .wait i → s.owner i = none →
    (i : ℕ) ∈ s.pending t ∨ s.handler (core t) = .broadcast ∨ (i : ℕ) ∈ s.isr (core t)

variable {core} {s s' : Hsem T} {t t' : T} {i : Fin 32}

omit [DecidableEq T] in
theorem woken_start (isr : Core → Word) : Woken core (start isr : Hsem T) :=
  ⟨nofun, nofun, nofun, nofun⟩

/-! ## What an access does -/

omit [DecidableEq T] in
theorem writeR_pc (s : Hsem T) (i : Fin 32) (value : Word) : (s.writeR i value).pc = s.pc := by
  unfold writeR
  split
  · rfl
  · split_ifs <;> rfl

omit [DecidableEq T] in
theorem readRlr_isr (s : Hsem T) (c : Core) (i : Fin 32) : (s.readRlr c i).2.isr = s.isr := by
  unfold readRlr
  split <;> rfl

omit [DecidableEq T] in
theorem readRlr_ier (s : Hsem T) (c : Core) (i : Fin 32) : (s.readRlr c i).2.ier = s.ier := by
  unfold readRlr
  split <;> rfl

omit [DecidableEq T] in
/-- A read frees nothing. -/
theorem owner_of_readRlr {c : Core} {j : Fin 32} (h : (s.readRlr c j).2.owner i = none) :
    s.owner i = none := by
  obtain rfl | hne := eq_or_ne i j
  · obtain ⟨c', -, hc'⟩ := exists_readRlr s c i
    rw [hc'] at h
    cases h
  · unfold readRlr at h
    split at h
    · exact (Function.update_of_ne hne _ _).symm.trans h
    · exact h

omit [DecidableEq T] in
/-- What is freed has its flags up. -/
theorem owner_of_writeR {j : Fin 32} {value : Word} (h : (s.writeR j value).owner i = none) :
    s.owner i = none ∨ ∀ c, (i : ℕ) ∈ (s.writeR j value).isr c := by
  unfold writeR at h ⊢
  split at h
  · exact .inl h
  · split_ifs at h ⊢
    · obtain rfl | hne := eq_or_ne i j
      · exact .inr fun c => mem_or.mpr (.inr (mem_bit i))
      · exact .inl ((Function.update_of_ne hne _ _).symm.trans h)
    · exact .inl h

/-- An access leaves the other threads where they are. -/
theorem access_of_ne (ht : t ≠ t') (hst : s.access core t' = some s') :
    s'.pc t = s.pc t ∧ s'.listeners t = s.listeners t := by
  unfold Hsem.access at hst
  cases hpc : s.pc t' with
  | outside => simp only [hpc, reduceCtorEq] at hst
  | enableRead | disableRead | enableWrite | disableWrite | clear =>
    simp only [hpc, Option.some.injEq] at hst
    exact hst ▸ ⟨setPc_pc_of_ne ht _ _, rfl⟩
  | register | unregister =>
    simp only [hpc, Option.some.injEq] at hst
    exact hst ▸ ⟨setPc_pc_of_ne ht _ _, Function.update_of_ne ht _ _⟩
  | lockTest | ownerTest | keyRead =>
    simp only [hpc, Option.some.injEq] at hst
    exact hst ▸ ⟨(setPc_pc_of_ne ht _ _).trans (congrFun (readRlr_pc _ _ _) t),
      congrFun (readRlr_listeners _ _ _) t⟩
  | wait =>
    simp only [hpc] at hst
    split_ifs at hst
    exact Option.some.inj hst ▸ ⟨setPc_pc_of_ne ht _ _, rfl⟩
  | inside =>
    simp only [hpc, Option.some.injEq] at hst
    exact hst ▸ ⟨(setPc_pc_of_ne ht _ _).trans (congrFun (writeR_pc _ _ _) t),
      congrFun (writeR_listeners _ _ _) t⟩

/-- A semaphore that is free was so before, or its flags are up. -/
theorem owner_of_access (hst : s.access core t = some s') (h : s'.owner i = none) :
    s.owner i = none ∨ ∀ c, (i : ℕ) ∈ s'.isr c := by
  unfold Hsem.access at hst
  cases hpc : s.pc t with
  | outside => simp only [hpc, reduceCtorEq] at hst
  | enableRead | disableRead | enableWrite | disableWrite | clear | register | unregister =>
    simp only [hpc, Option.some.injEq] at hst
    subst hst
    exact .inl h
  | lockTest | ownerTest | keyRead =>
    simp only [hpc, Option.some.injEq] at hst
    subst hst
    exact .inl (owner_of_readRlr h)
  | wait =>
    simp only [hpc] at hst
    split_ifs at hst
    obtain rfl := Option.some.inj hst
    exact .inl h
  | inside =>
    simp only [hpc, Option.some.injEq] at hst
    subst hst
    exact owner_of_writeR h

/-- **What an access of the constructor leaves to be woken by**: its listener is registered, its
interrupt enabled, and when it goes to sleep the semaphore is taken. -/
theorem awaits_access (hlisten : ∀ e ∈ (s.pc t).listened, e ∈ s.listeners t)
    (hst : s.access core t = some s') :
    (∀ e ∈ (s'.pc t).listened, e ∈ s'.listeners t) ∧
    (∀ i, (s'.pc t).awaits = some i → (s.pc t).awaits = some i ∨ (i : ℕ) ∈ s'.ier (core t)) ∧
    ∀ i, s'.pc t = .wait i → s'.owner i ≠ none := by
  unfold Hsem.access at hst
  cases hpc : s.pc t with
  | outside => simp only [hpc, reduceCtorEq] at hst
  | enableRead | disableRead | disableWrite | clear =>
    simp only [hpc, Option.some.injEq] at hst
    subst hst
    rw [setPc_pc_self]
    exact ⟨nofun, nofun, nofun⟩
  | enableWrite j =>
    simp only [hpc, Option.some.injEq] at hst
    subst hst
    rw [setPc_pc_self]
    refine ⟨nofun, fun i hi => .inr ?_, nofun⟩
    obtain rfl := Option.some.inj hi
    change (j : ℕ) ∈ Function.update s.ier (core t) _ (core t)
    rw [Function.update_self]
    exact mem_or.mpr (.inr (mem_bit j))
  | register j =>
    simp only [hpc, Option.some.injEq] at hst
    subst hst
    rw [setPc_pc_self]
    refine ⟨fun e he => ?_, fun i hi => .inl hi, nofun⟩
    change e ∈ Function.update s.listeners t _ t
    rw [Function.update_self, List.mem_singleton.mp he]
    exact List.mem_cons_self
  | lockTest j | ownerTest j =>
    simp only [hpc, Option.some.injEq] at hst
    subst hst
    have hold : ∀ e ∈ [bit j], e ∈ s.listeners t := by rwa [hpc] at hlisten
    have hlistening : ∀ e ∈ [bit j], e ∈ (s.readRlr (core t) j).2.listeners t := by
      rwa [readRlr_listeners]
    obtain ⟨c, -, howner⟩ := exists_readRlr s (core t) j
    rw [setPc_pc_self]
    refine ⟨?_, fun i hi => .inl ?_, fun i hi => ?_⟩
    · split_ifs <;> exact hlistening
    · split_ifs at hi <;> cases hi <;> rfl
    · split_ifs at hi
      cases hi
      exact fun hnone => nomatch howner.symm.trans hnone
  | wait j =>
    simp only [hpc] at hst
    split_ifs at hst
    obtain rfl := Option.some.inj hst
    rw [setPc_pc_self]
    rw [hpc] at hlisten
    exact ⟨hlisten, fun i hi => .inl hi, nofun⟩
  | unregister | keyRead =>
    simp only [hpc, Option.some.injEq] at hst
    subst hst
    rw [setPc_pc_self]
    exact ⟨nofun, nofun, nofun⟩
  | inside =>
    simp only [hpc, Option.some.injEq] at hst
    subst hst
    rw [setPc_pc_self]
    exact ⟨nofun, nofun, nofun⟩

/-! ## The invariant, step by step -/

/-- A step of a thread other than an access leaves all where they are, but the one that enters. -/
theorem of_thread_step {a : SemAct T} (ha : a.thread = some t') (hacc : a ≠ .access t')
    (hst : s.step core a = some s') :
    s'.owner = s.owner ∧ (∀ t, s'.pc t = s.pc t ∨ ∃ i, s'.pc t = .enableRead i) ∧
      ∀ t, ∀ e ∈ s.listeners t, e ∈ s'.listeners t := by
  cases a with
  | handler c => cases ha
  | access _ => exact absurd (congrArg _ (Option.some.inj ha)) hacc
  | enter u i =>
    obtain ⟨-, hst⟩ := onThread_eq_some.mp hst
    split_ifs at hst
    obtain rfl := Option.some.inj hst
    refine ⟨rfl, fun t => ?_, fun _ _ he => he⟩
    obtain rfl | ht := eq_or_ne t u
    · exact .inr ⟨i, setPc_pc_self _ _ _⟩
    · exact .inl (setPc_pc_of_ne ht _ _)
  | registerMask u events =>
    obtain ⟨-, hst⟩ := onThread_eq_some.mp hst
    obtain rfl := Option.some.inj hst
    refine ⟨rfl, fun _ => .inl rfl, fun t e he => ?_⟩
    change e ∈ Function.update s.listeners u _ t
    obtain rfl | ht := eq_or_ne t u
    · rw [Function.update_self]
      exact List.mem_cons_of_mem _ he
    · rwa [Function.update_of_ne ht]
  | writeIer u ier =>
    obtain ⟨-, hst⟩ := onThread_eq_some.mp hst
    obtain rfl := Option.some.inj hst
    exact ⟨rfl, fun _ => .inl rfl, fun _ _ he => he⟩
  | waitAny u events =>
    obtain ⟨-, hst⟩ := onThread_eq_some.mp hst
    split_ifs at hst
    obtain rfl := Option.some.inj hst
    exact ⟨rfl, fun _ => .inl rfl, fun _ _ he => he⟩
  | pass u =>
    obtain ⟨-, hst⟩ := onThread_eq_some.mp hst
    obtain rfl := Option.some.inj hst
    exact ⟨rfl, fun _ => .inl rfl, fun _ _ he => he⟩

/-- What a step of a thread leaves each thread to be woken by. -/
theorem Woken.awaits (h : Woken core s) {a : SemAct T} (ha : a.thread = some t')
    (hst : s.step core a = some s') (t : T) :
    (∀ e ∈ (s'.pc t).listened, e ∈ s'.listeners t) ∧
    (∀ i, (s'.pc t).awaits = some i → (s.pc t).awaits = some i ∨ (i : ℕ) ∈ s'.ier (core t)) ∧
    ∀ i, s'.pc t = .wait i →
      s.pc t = .wait i ∧ a ≠ .access t ∨ a = .access t ∧ s'.owner i ≠ none := by
  by_cases hacc : a = .access t'
  · subst hacc
    have hst := (onThread_eq_some.mp hst).2
    obtain rfl | ht := eq_or_ne t t'
    · obtain ⟨hlisten, hawaits, howner⟩ := awaits_access (h.listening t) hst
      exact ⟨hlisten, hawaits, fun i hi => .inr ⟨rfl, howner i hi⟩⟩
    · obtain ⟨hpc, hlisteners⟩ := access_of_ne ht hst
      rw [hpc, hlisteners]
      exact ⟨h.listening t, fun i hi => .inl hi,
        fun i hi => .inl ⟨hi, fun heq => ht (SemAct.access.inj heq).symm⟩⟩
  · have hne : a ≠ .access t := by
      rintro rfl
      exact hacc (congrArg _ (Option.some.inj ha))
    obtain ⟨-, hpc, hlisteners⟩ := of_thread_step ha hacc hst
    obtain hpc | ⟨j, hpc⟩ := hpc t
    · rw [hpc]
      exact ⟨fun e he => hlisteners t e (h.listening t e he), fun i hi => .inl hi,
        fun i hi => .inl ⟨hi, hne⟩⟩
    · rw [hpc]
      exact ⟨nofun, nofun, nofun⟩

/-- A thread frees a semaphore by raising its flags. -/
theorem owner_of_thread {a : SemAct T} (ha : a.thread = some t') (hst : s.step core a = some s')
    (h : s'.owner i = none) : s.owner i = none ∨ ∀ c, (i : ℕ) ∈ s'.isr c := by
  by_cases hacc : a = .access t'
  · subst hacc
    exact owner_of_access (onThread_eq_some.mp hst).2 h
  · exact .inl ((of_thread_step ha hacc hst).1 ▸ h)

/-- **A step of a thread** that spares the others. -/
theorem Woken.thread (h : Woken core s) {a : SemAct T} (ha : a.thread = some t')
    (hspares : Spares core s a) (hst : s.step core a = some s') : Woken core s' := by
  obtain ⟨hoff, hhandler⟩ := handler_step ha hst
  have hthread : a.thread ≠ none := by simp [ha]
  have hspared (t : T) (i : Fin 32) (hold : s.pc t = .wait i) (hnew : s'.pc t = .wait i) :=
    hspares hthread s' hst t i (by rw [hold]; rfl) (by rw [hnew]; rfl)
  refine ⟨fun t => (h.awaits ha hst t).1, fun t i hi => ?_, fun t i hi hrun hdone => ?_,
    fun t i hi hfree => ?_⟩
  · obtain hold | hon := (h.awaits ha hst t).2.1 i hi
    · exact (hspares hthread s' hst t i hold hi).1 (h.enabled t i hold)
    · exact hon
  · rw [hhandler] at hrun hdone
    obtain ⟨hold, hne⟩ | ⟨heq, -⟩ := (h.awaits ha hst t).2.2 i hi
    · exact (hspared t i hold hi).2.2 hne (h.signalled t i hold hrun hdone)
    · -- a thread takes steps only while its core's handler does not
      obtain rfl : t = t' := Option.some.inj ((heq ▸ rfl : a.thread = some t).symm.trans ha)
      exact absurd hoff hrun
  · obtain ⟨hold, hne⟩ | ⟨-, howner⟩ := (h.awaits ha hst t).2.2 i hi
    · obtain hfree | hraised := owner_of_thread ha hst hfree
      · rw [hhandler]
        obtain hpending | hbroadcast | hisr := h.waking t i hold hfree
        · exact .inl ((hspared t i hold hi).2.2 hne hpending)
        · exact .inr (.inl hbroadcast)
        · exact .inr (.inr ((hspared t i hold hi).2.1 hisr))
      · exact .inr (.inr (hraised _))
    · exact absurd hfree howner

omit [DecidableEq T] in
/-- What a handler does to its own core. -/
theorem of_handlerStep {c : Core} (hst : s.handlerStep core c = some s') :
    s'.pc = s.pc ∧ s'.owner = s.owner ∧ s'.listeners = s.listeners ∧ s'.ier = s.ier ∧
    (s'.handler c = .broadcast ∨
      s.handler c = .broadcast ∧ s'.handler c = .reread ∧ (∀ t, core t = c →
        s'.pending t = (s.listeners t).foldl (· ||| ·) (s.pending t)) ∨
      s.handler c ≠ .off ∧ s.handler c ≠ .broadcast ∧ s'.pending = s.pending) := by
  unfold Hsem.handlerStep at hst
  cases hpc : s.handler c with
  | off =>
    simp only [hpc] at hst
    split_ifs at hst
    obtain rfl := Option.some.inj hst
    exact ⟨rfl, rfl, rfl, rfl, .inl (Function.update_self _ _ _)⟩
  | broadcast =>
    simp only [hpc] at hst
    obtain rfl := Option.some.inj hst
    exact ⟨rfl, rfl, rfl, rfl, .inr (.inl ⟨rfl, Function.update_self _ _ _, fun t ht => if_pos ht⟩)⟩
  | reread | clear =>
    simp only [hpc] at hst
    obtain rfl := Option.some.inj hst
    exact ⟨rfl, rfl, rfl, rfl, .inr (.inr ⟨nofun, nofun, rfl⟩)⟩

omit [DecidableEq T] in
/-- **A step of a handler** turns a flag into an event. -/
theorem Woken.handler (h : Woken core s) {c : Core} (hst : s.handlerStep core c = some s') :
    Woken core s' := by
  obtain ⟨hpc, howner, hlisteners, hier, hown⟩ := of_handlerStep hst
  have hsame {t : T} (ht : core t ≠ c) : SameFor core t s s' := (sameFor_handlerStep ht hst).1
  -- the handler's own core: it is about to signal, or the event is pending
  have hcore {t : T} {i : Fin 32} (ht : core t = c) (hi : s.pc t = .wait i) :
      s'.handler (core t) = .broadcast ∨ (i : ℕ) ∈ s'.pending t := by
    rw [ht]
    obtain hstart | ⟨-, -, hpending⟩ | ⟨hrun, hdone, hpending⟩ := hown
    · exact .inl hstart
    · have hlisten : bit i ∈ s.listeners t := h.listening t _ (by rw [hi]; exact List.mem_cons_self)
      rw [hpending t ht]
      exact .inr (mem_foldl_or hlisten (mem_bit i) _)
    · rw [hpending]
      exact .inr (h.signalled t i hi (ht ▸ hrun) (ht ▸ hdone))
  refine ⟨by rw [hpc, hlisteners]; exact h.listening, by rw [hpc, hier]; exact h.enabled,
    fun t i hi hrun hdone => ?_, fun t i hi hfree => ?_⟩
  · rw [hpc] at hi
    by_cases ht : core t = c
    · exact (hcore ht hi).resolve_left hdone
    · rw [(hsame ht).handler] at hrun hdone
      rw [(hsame ht).pending]
      exact h.signalled t i hi hrun hdone
  · rw [hpc] at hi
    rw [howner] at hfree
    by_cases ht : core t = c
    · exact (hcore ht hi).elim (fun hb => .inr (.inl hb)) .inl
    · rw [(hsame ht).handler, (hsame ht).pending]
      exact (h.waking t i hi hfree).imp_right (Or.imp_right ((hsame ht).isr i))

theorem Woken.step (h : Woken core s) {a : SemAct T} (hspares : Spares core s a)
    (hst : s.step core a = some s') : Woken core s' := by
  cases ha : a.thread with
  | some t => exact h.thread ha hspares hst
  | none =>
    cases a with
    | handler c => exact h.handler hst
    | enter | access | registerMask | writeIer | waitAny | pass => cases ha

/-! ## Getting in -/

theorem EntersAlone.of_step {a : SemAct T} (ha : a = .access t ∨ a = .handler (core t))
    (hst : s.step core a = some s') (h : EntersAlone core t i s') : EntersAlone core t i s := by
  obtain ⟨acts, u, k, hacts, hrun, hin⟩ := h
  refine ⟨a :: acts, u, k, fun b hb => ?_, ?_, hin⟩
  · obtain rfl | hb := List.mem_cons.mp hb
    · exact ha
    · exact hacts b hb
  · rw [Machine.run_cons]
    exact (congrArg (Option.bind · _) hst).trans hrun

/-- With its event, and the semaphore free, a thread goes through its constructor. -/
theorem entersAlone_of_pending (hoff : s.handler (core t) = .off) (hpc : s.pc t = .wait i)
    (hfree : s.owner i = none) (hpending : (i : ℕ) ∈ s.pending t) : EntersAlone core t i s := by
  have hne : ¬ s.pending t &&& bit i = 0#32 := fun heq =>
    eq_zero_iff.mp heq i (mem_and.mpr ⟨hpending, mem_bit i⟩)
  have hlock : ¬ rlr (core t) &&& hsemRlrLock = 0#32 := by cases core t <;> decide
  have hid : rlr (core t) >>> 8 &&& 255#32 = (core t).id := (rlr_id _ _).mpr rfl
  have hrun : ((machine core).run s (List.replicate 7 (.access t))).map (·.pc t)
      = some (.inside i (rlr (core t) &&& 0xFFFF)) := by
    simp [machine, step, onThread, access, setPc, setPending, setListeners, setIer, readRlr,
      List.replicate_succ, hoff, hpc, hfree, hne, hlock, hid]
  obtain ⟨u, hrun, hin⟩ := Option.map_eq_some_iff.mp hrun
  exact ⟨_, u, _, fun a ha => .inl (List.eq_of_mem_replicate ha), hrun, hin⟩

theorem entersAlone_of_handlerStep (hst : s.handlerStep core (core t) = some s')
    (h : EntersAlone core t i s') : EntersAlone core t i s :=
  EntersAlone.of_step (.inr rfl) hst h

/-- The handler is at its end: the event is there. -/
theorem Woken.entersAlone_of_clear (h : Woken core s) (hpc : s.pc t = .wait i)
    (hfree : s.owner i = none) {isr : Word} (hhandler : s.handler (core t) = .clear isr) :
    EntersAlone core t i s := by
  have hpending := h.signalled t i hpc (by simp [hhandler]) (by simp [hhandler])
  have hst : s.handlerStep core (core t) = some { s.writeIcr (core t) isr with
      handler := Function.update s.handler (core t) .off } := by
    simp only [handlerStep, hhandler]
  exact entersAlone_of_handlerStep hst
    (entersAlone_of_pending (Function.update_self _ _ _) hpc hfree hpending)

theorem Woken.entersAlone_of_reread (h : Woken core s) (hpc : s.pc t = .wait i)
    (hfree : s.owner i = none) (hhandler : s.handler (core t) = .reread) :
    EntersAlone core t i s := by
  have hst : s.handlerStep core (core t) = some { s with
      handler := Function.update s.handler (core t) (.clear (s.isr (core t))) } := by
    simp only [handlerStep, hhandler]
  exact entersAlone_of_handlerStep hst
    ((h.handler hst).entersAlone_of_clear hpc hfree (Function.update_self _ _ _))

theorem Woken.entersAlone_of_broadcast (h : Woken core s) (hpc : s.pc t = .wait i)
    (hfree : s.owner i = none) (hhandler : s.handler (core t) = .broadcast) :
    EntersAlone core t i s := by
  have hst : s.handlerStep core (core t) = some { s.broadcastFlagsI core (core t) with
      handler := Function.update s.handler (core t) .reread } := by
    simp only [handlerStep, hhandler]
  exact entersAlone_of_handlerStep hst
    ((h.handler hst).entersAlone_of_reread hpc hfree (Function.update_self _ _ _))

/-- **Beside a free semaphore nobody sleeps**: the event is there, or the handler is on its way, or
a flag is up that starts it. -/
theorem Woken.entersAlone (h : Woken core s) (hpc : s.pc t = .wait i) (hfree : s.owner i = none) :
    EntersAlone core t i s := by
  cases hhandler : s.handler (core t) with
  | broadcast => exact h.entersAlone_of_broadcast hpc hfree hhandler
  | reread => exact h.entersAlone_of_reread hpc hfree hhandler
  | clear isr => exact h.entersAlone_of_clear hpc hfree hhandler
  | off =>
    obtain hpending | hbroadcast | hisr := h.waking t i hpc hfree
    · exact entersAlone_of_pending hhandler hpc hfree hpending
    · rw [hhandler] at hbroadcast
      cases hbroadcast
    · have hier := h.enabled t i (by rw [hpc]; rfl)
      have hne : ¬ s.isr (core t) &&& s.ier (core t) = 0 := fun heq =>
        eq_zero_iff.mp heq i (mem_and.mpr ⟨hisr, hier⟩)
      have hst : s.handlerStep core (core t) = some { s with
          handler := Function.update s.handler (core t) .broadcast } := by
        simp only [handlerStep, hhandler, if_neg hne]
      exact entersAlone_of_handlerStep hst
        ((h.handler hst).entersAlone_of_broadcast hpc hfree (Function.update_self _ _ _))

/-- **Whoever waits for a semaphore that is free gets in**, without the help of any other thread:
along every run whose steps spare those in a constructor. -/
theorem always_entersAlone (core : T → Core) (isr : Core → Word) (acts : List (SemAct T))
    (h : (machine core).Along (Spares core) (start isr) acts) :
    (machine core).Always (fun s => ∀ t i, s.pc t = .wait i → s.owner i = none →
      EntersAlone core t i s) (start isr) acts :=
  (Machine.always_of_along (woken_start isr) (fun _ _ _ h ha hst => h.step ha hst) h).mono
    fun _ h _ _ => h.entersAlone

/-! ## When threads spare each other -/

/-- An access of a constructor that goes on waiting touches neither register of its core. -/
theorem regs_of_access (hst : s.access core t = some s') (h : (s.pc t).awaits = some i) :
    s'.ier = s.ier ∧ s'.isr = s.isr := by
  unfold Hsem.access at hst
  cases hpc : s.pc t with
  | register =>
    simp only [hpc, Option.some.injEq] at hst
    exact hst ▸ ⟨rfl, rfl⟩
  | lockTest | ownerTest =>
    simp only [hpc, Option.some.injEq] at hst
    exact hst ▸ ⟨readRlr_ier _ _ _, readRlr_isr _ _ _⟩
  | wait =>
    simp only [hpc] at hst
    split_ifs at hst
    exact Option.some.inj hst ▸ ⟨rfl, rfl⟩
  | outside | enableRead | enableWrite | unregister | disableRead | disableWrite | keyRead | inside
  | clear =>
    rw [hpc] at h
    cases h

/-- **With one thread on each core**, which waits for events and writes `IER` nowhere else, there is
nobody to disturb. -/
theorem spares_of_injective (hcore : Function.Injective core) {a : SemAct T}
    (ha : ∀ t word, a ≠ .writeIer t word ∧ a ≠ .waitAny t word) : Spares core s a := by
  intro hthread s' hst t i hold hnew
  obtain ⟨t', ht'⟩ := Option.ne_none_iff_exists'.mp hthread
  obtain rfl | ht := eq_or_ne t t'
  · cases a with
    | handler c => exact absurd rfl hthread
    | access u =>
      obtain rfl := Option.some.inj ht'
      obtain ⟨hier, hisr⟩ := regs_of_access (onThread_eq_some.mp hst).2 hold
      rw [hier, hisr]
      exact ⟨id, id, fun hne => absurd rfl hne⟩
    | enter u j =>
      obtain ⟨-, hst⟩ := onThread_eq_some.mp hst
      split_ifs at hst
      exact Option.some.inj hst ▸ ⟨id, id, fun _ => id⟩
    | registerMask u events | pass u =>
      obtain ⟨-, hst⟩ := onThread_eq_some.mp hst
      exact Option.some.inj hst ▸ ⟨id, id, fun _ => id⟩
    | writeIer u ier => exact absurd rfl (ha u ier).1
    | waitAny u events => exact absurd rfl (ha u events).2
  · have hsame := sameFor_step ht (fun heq => ht (hcore heq)) ht' hst
    rw [hsame.ier, hsame.pending]
    exact ⟨id, hsame.isr i, fun _ => id⟩

/-- One thread on each core. -/
def sides : Bool → Core := fun t => if t then .cm4 else .cm7

/-- The one waits to receive until the other lets go of what it sends under. -/
def oneWaits : List (SemAct Bool) :=
  .enter false (txHsemIndex .cm7) :: List.replicate 9 (.access false) ++
    .enter true (rxHsemIndex .cm4) :: List.replicate 5 (.access true) ++ [.access false]

theorem always_entersAlone_sides : ∃ s : Hsem Bool,
    (machine sides).run (start fun _ => 0) oneWaits = some s ∧
      s.pc true = .wait (rxHsemIndex .cm4) ∧ s.owner (rxHsemIndex .cm4) = none ∧
        EntersAlone sides true (rxHsemIndex .cm4) s := by
  have hpc : ((machine sides).run (start fun _ => 0) oneWaits).map
      (fun s => (s.pc true, s.owner (rxHsemIndex .cm4)))
        = some (.wait (rxHsemIndex .cm4), none) := by decide
  obtain ⟨s, hrun, hs⟩ := Option.map_eq_some_iff.mp hpc
  obtain ⟨hwait, hfree⟩ := Prod.mk.inj hs
  have halong : (machine sides).Along (Spares sides) (start fun _ => 0) oneWaits :=
    Machine.along_of_forall_mem fun a ha s =>
      spares_of_injective (by decide) fun t word => by
        constructor <;> rintro rfl <;> simp [oneWaits] at ha
  exact ⟨s, hrun, hwait, hfree, (always_entersAlone sides (fun _ => 0) oneWaits halong).of_run hrun
    true _ hwait hfree⟩

/-! ## When they do not -/

/-- With the handler off, no flag up that is enabled and no event, a thread and its core's handler
come to nothing. -/
theorem not_entersAlone (hpc : s.pc t = .wait i) (hoff : s.handler (core t) = .off)
    (hflags : s.isr (core t) &&& s.ier (core t) = 0) (hpending : s.pending t &&& bit i = 0) :
    ¬ EntersAlone core t i s := by
  rintro ⟨acts, u, k, hacts, hrun, hin⟩
  have hstuck : ∀ a, a = .access t ∨ a = .handler (core t) → s.step core a = none := by
    rintro a (rfl | rfl)
    · simp only [Hsem.step, onThread, hoff, if_true, access, hpc, hpending]
    · simp only [Hsem.step, handlerStep, hoff, hflags, if_true]
  cases acts with
  | nil =>
    obtain rfl := Option.some.inj hrun
    rw [hpc] at hin
    cases hin
  | cons a acts =>
    rw [Machine.run_cons] at hrun
    rw [show (machine core).step s a = none from hstuck a (hacts a List.mem_cons_self)] at hrun
    cases hrun

/-- A sender on the one core, and a sender and a receiver on the other. -/
inductive Party where
  | peer
  | sender
  | receiver
  deriving DecidableEq

def cores : Party → Core
  | .peer => .cm7
  | .sender | .receiver => .cm4

/-- The sender reads `IER`, the receiver enables its interrupt and goes to sleep, and the sender
writes back what it has read. -/
def overwritten : List (SemAct Party) :=
  .enter .peer (txHsemIndex .cm7) :: List.replicate 9 (.access .peer) ++
    [.enter .sender (txHsemIndex .cm4), .access .sender] ++
      .enter .receiver (rxHsemIndex .cm4) :: List.replicate 5 (.access .receiver) ++
        List.replicate 8 (.access .sender) ++ [.access .peer]

/-- **A thread sleeps beside a free semaphore** after another of its core has written `IER` with
what was there before. -/
theorem exists_run_asleep : ∃ s : Hsem Party,
    (machine cores).run (start fun _ => 0) overwritten = some s ∧
      s.pc .receiver = .wait (rxHsemIndex .cm4) ∧ s.owner (rxHsemIndex .cm4) = none ∧
        ¬ EntersAlone cores .receiver (rxHsemIndex .cm4) s := by
  have hend : ((machine cores).run (start fun _ => 0) overwritten).map (fun s =>
      ((s.pc .receiver, s.owner (rxHsemIndex .cm4)), s.handler .cm4, s.isr .cm4 &&& s.ier .cm4,
        s.pending .receiver &&& bit (rxHsemIndex .cm4)))
        = some ((.wait (rxHsemIndex .cm4), none), .off, 0, 0) := by decide
  obtain ⟨s, hrun, hs⟩ := Option.map_eq_some_iff.mp hend
  obtain ⟨hplace, hrest⟩ := Prod.mk.inj hs
  obtain ⟨hwait, hfree⟩ := Prod.mk.inj hplace
  obtain ⟨hoff, hrest⟩ := Prod.mk.inj hrest
  obtain ⟨hflags, hpending⟩ := Prod.mk.inj hrest
  exact ⟨s, hrun, hwait, hfree, not_entersAlone hwait hoff hflags hpending⟩

end Hsem

end LibDronecan
