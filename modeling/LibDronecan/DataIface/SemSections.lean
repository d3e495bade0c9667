import LibDronecan.DataIface.SemWaiters
import LibDronecan.Machinery.Regions

/-!
# DataIface/SemSections — code under hardware semaphores

    t:  call ──▸ constructor ──▸ access ──▸ access ──▸ … ──▸ destructor ──▸
                 RLR, IER        of what the code is about   R, ICR

A scope that begins with `WITH_SEMAPHORE(i)`: the register accesses of the constructor, then what
the code does in memory access by access, then the registers of the destructor, all of it among the
steps of the other threads and of the handlers.  While no thread asks whose a semaphore is while
another of its core takes it for its own, the scopes are code under locks: what they do is a run of
`RegionCode` (`exists_region_run`).
-/

open Machinery

namespace LibDronecan

/-- The semaphore that a thread is under. -/
def SemPc.under : SemPc → Option (Fin 32)
  | .inside i _ => some i
  | _ => none

/-- The semaphores, and the memory; the call each thread is in, with what is left of its code; and
the calls that have given up their semaphore. -/
structure SemSections (T σ κ ρ : Type*) where
  sem : Hsem T
  shared : σ
  call : T → Option (κ × Accesses σ ρ)
  returned : List (T × κ × ρ)

/-- A thread makes a call; anything else is a step of the semaphores' machine. -/
inductive SemSectionsAct (T κ : Type*)
  | call (t : T) (k : κ)
  | sem (a : SemAct T)

namespace SemSections

variable {T σ κ ρ : Type*} [DecidableEq T]

section Machine

variable (core : T → Core) (C : RegionCode (Fin 32) σ κ ρ)

/-- Nobody in a call, and all semaphores free; flags may be raised. -/
def start (isr : Core → Word) (m : σ) : SemSections T σ κ ρ :=
  ⟨Hsem.start isr, m, fun _ => none, []⟩

/-- The next access of a thread: of the constructor or the destructor, or of the code between. -/
def access (s : SemSections T σ κ ρ) (t : T) : Option (SemSections T σ κ ρ) :=
  match (s.sem.pc t).under, s.call t with
  | none, _ => (s.sem.step core (.access t)).map fun sem => { s with sem := sem }
  | some _, none => none
  | some _, some (k, .access next effect) => (s.sem.step core (.pass t)).map fun sem => { s with
      sem := sem
      shared := effect s.shared
      call := Function.update s.call t (some (k, next s.shared)) }
  | some _, some (k, .ret r) => (s.sem.step core (.access t)).map fun sem => { s with
      sem := sem
      call := Function.update s.call t none
      returned := s.returned ++ [(t, k, r)] }

def step (s : SemSections T σ κ ρ) : SemSectionsAct T κ → Option (SemSections T σ κ ρ)
  | .call t k => (s.sem.step core (.enter t (C.lock k))).map fun sem => { s with
      sem := sem
      call := Function.update s.call t (some (k, C.code k)) }
  | .sem a =>
      match a with
      -- a constructor runs for a call
      | .enter _ _ => none
      | .access t => s.access core t
      | a => (s.sem.step core a).map fun sem => { s with sem := sem }

def machine : Machine (SemSections T σ κ ρ) (SemSectionsAct T κ) := ⟨step core C⟩

/-- **No thread asks whose the semaphore is while another of its core takes it for its own.** -/
def SoleTaker (s : SemSections T σ κ ρ) : SemSectionsAct T κ → Prop
  | .call _ _ => True
  | .sem a => s.sem.SoleTaker core a

end Machine

variable {core : T → Core} {C : RegionCode (Fin 32) σ κ ρ} {s s' : SemSections T σ κ ρ}
  {u : Regions T (Fin 32) σ κ ρ} {t : T} {i : Fin 32} {m : σ}

/-! ## Under a semaphore -/

theorem under_eq_some {pc : SemPc} : pc.under = some i ↔ ∃ k, pc = .inside i k := by
  constructor
  · intro h
    cases pc <;> cases h
    exact ⟨_, rfl⟩
  · rintro ⟨k, rfl⟩
    rfl

theorem constructing_of_under {pc : SemPc} (h : pc.under = some i) :
    pc.constructing = some i := by
  obtain ⟨k, rfl⟩ := under_eq_some.mp h
  rfl

omit [DecidableEq T] in
/-- One thread at a time. -/
theorem eq_of_under {sem : Hsem T} (h : Hsem.Inv core sem) {x y : T}
    (hx : (sem.pc x).under = some i) (hy : (sem.pc y).under = some i) : x = y := by
  obtain ⟨k, hk⟩ := under_eq_some.mp hx
  obtain ⟨k', hk'⟩ := under_eq_some.mp hy
  exact h.exclusive i x k y k' hk hk'

/-! ## The locks -/

/-- **The scopes as code under locks**: a lock is held by the thread that is under the semaphore,
with what is left of its code; a thread on its way there has all of it before it. -/
structure Follows (C : RegionCode (Fin 32) σ κ ρ) (s : SemSections T σ κ ρ)
    (u : Regions T (Fin 32) σ κ ρ) : Prop where
  shared : u.shared = s.shared
  returned : u.returned = s.returned
  inside : ∀ i x k c, u.inside i = some (x, k, c) ↔
    (s.sem.pc x).under = some i ∧ s.call x = some (k, c)
  begun : ∀ x i, (s.sem.pc x).constructing = some i → ∃ k c, s.call x = some (k, c) ∧
    C.lock k = i ∧ ((s.sem.pc x).under = none → c = C.code k)

omit [DecidableEq T] in
theorem follows_start (isr : Core → Word) :
    Follows C (start isr m : SemSections T σ κ ρ) (RegionCode.start m) where
  shared := rfl
  returned := rfl
  inside i x k c := by
    constructor
    · intro hnone
      cases hnone
    · intro hout
      cases hout.1
  begun _ _ h := by cases h

omit [DecidableEq T] in
/-- Nobody comes under a semaphore, and nobody leaves one. -/
theorem Follows.of_under (h : Follows C s u) (hshared : s'.shared = s.shared)
    (hreturned : s'.returned = s.returned)
    (hunder : ∀ x, (s'.sem.pc x).under = (s.sem.pc x).under)
    (hcall : ∀ x i, (s.sem.pc x).under = some i → s'.call x = s.call x)
    (hbegun : ∀ x i, (s'.sem.pc x).constructing = some i → ∃ k c, s'.call x = some (k, c) ∧
      C.lock k = i ∧ ((s'.sem.pc x).under = none → c = C.code k)) : Follows C s' u where
  shared := h.shared.trans hshared.symm
  returned := h.returned.trans hreturned.symm
  inside i x k c := by
    rw [h.inside, hunder]
    exact and_congr_right fun hx => by rw [hcall x i hx]
  begun := hbegun

omit [DecidableEq T] in
/-- Only the registers, the handlers and the events have changed. -/
theorem Follows.of_sem (h : Follows C s u) {sem : Hsem T} (hpc : sem.pc = s.sem.pc) :
    Follows C { s with sem := sem } u :=
  h.of_under rfl rfl (fun x => by rw [hpc]) (fun _ _ _ => rfl) fun x i hx => by
    simp only [hpc] at hx ⊢
    exact h.begun x i hx

/-! ## One step -/

omit [DecidableEq T] in
theorem some_eq_iff {P : Prop} (hP : P) {x : T} {k k' : κ} {c c' : Accesses σ ρ} :
    some (t, k, c) = some (x, k', c') ↔ x = t ∧ P ∧ some (k, c) = some (k', c') := by
  constructor
  · intro h
    cases h
    exact ⟨rfl, hP, rfl⟩
  · rintro ⟨rfl, -, h⟩
    cases h
    rfl

theorem Follows.call (h : Follows C s u) {k : κ} (hout : s.sem.pc t = .outside) :
    Follows C { s with
      sem := s.sem.setPc t (.enableRead (C.lock k))
      call := Function.update s.call t (some (k, C.code k)) } u := by
  refine h.of_under rfl rfl (fun x => ?_) (fun x i hx => ?_) fun x i hx => ?_
  · obtain rfl | hne := eq_or_ne x t
    · rw [Hsem.setPc_pc_self, hout]
      rfl
    · rw [Hsem.setPc_pc_of_ne hne]
  · have hne : x ≠ t := by
      rintro rfl
      rw [hout] at hx
      cases hx
    exact Function.update_of_ne hne _ _
  · dsimp only at hx ⊢
    obtain rfl | hne := eq_or_ne x t
    · rw [Hsem.setPc_pc_self] at hx
      cases hx
      exact ⟨k, C.code k, Function.update_self _ _ _, rfl, fun _ => rfl⟩
    · rw [Hsem.setPc_pc_of_ne hne] at hx ⊢
      rw [Function.update_of_ne hne]
      exact h.begun x i hx

omit [DecidableEq T] in
/-- A step of one thread, about one semaphore that nobody else is under. -/
theorem Follows.inside_update (h : Follows C s u) {sem : Hsem T}
    {call : T → Option (κ × Accesses σ ρ)} (hpc : ∀ x ≠ t, sem.pc x = s.sem.pc x)
    (hcall : ∀ x ≠ t, call x = s.call x) (halone : ∀ x ≠ t, (s.sem.pc x).under ≠ some i)
    (hnot : ∀ j ≠ i, (s.sem.pc t).under ≠ some j ∧ (sem.pc t).under ≠ some j)
    {held : Option (T × κ × Accesses σ ρ)} (hheld : ∀ x k c, held = some (x, k, c) ↔
      x = t ∧ (sem.pc t).under = some i ∧ call t = some (k, c)) (j : Fin 32) (x : T) (k : κ)
    (c : Accesses σ ρ) : Function.update u.inside i held j = some (x, k, c) ↔
      (sem.pc x).under = some j ∧ call x = some (k, c) := by
  obtain rfl | hj := eq_or_ne j i
  · rw [Function.update_self, hheld]
    obtain rfl | hx := eq_or_ne x t
    · exact and_iff_right rfl
    · rw [hpc x hx]
      exact ⟨fun h => absurd h.1 hx, fun h => absurd h.1 (halone x hx)⟩
  · rw [Function.update_of_ne hj, h.inside]
    obtain rfl | hx := eq_or_ne x t
    · exact ⟨fun h => absurd h.1 (hnot j hj).1, fun h => absurd h.1 (hnot j hj).2⟩
    · rw [hpc x hx, hcall x hx]

/-- Behind its release a destructor has one access left. -/
theorem constructing_access_none {sem sem' : Hsem T} (hpc : (sem.pc t).constructing = none)
    (hst : sem.access core t = some sem') : (sem'.pc t).constructing = none := by
  unfold Hsem.access at hst
  cases hp : sem.pc t with
  | outside => simp only [hp, reduceCtorEq] at hst
  | clear i =>
    simp only [hp, Option.some.injEq] at hst
    rw [← hst, Hsem.setPc_pc_self]
    rfl
  | enableRead | enableWrite | register | lockTest | ownerTest | wait | unregister | disableRead
  | disableWrite | keyRead | inside =>
    rw [hp] at hpc
    cases hpc

/-- Whoever is in a constructor after an access has been in it before. -/
theorem Follows.begun_access (h : Follows C s u) {sem : Hsem T}
    (hunder : (s.sem.pc t).under = none) (hst : s.sem.access core t = some sem) {x : T}
    (hx : (sem.pc x).constructing = some i) : ∃ k c, s.call x = some (k, c) ∧ C.lock k = i ∧
      ((s.sem.pc x).under = none → c = C.code k) := by
  refine h.begun x i ?_
  obtain rfl | hne := eq_or_ne x t
  · cases hc : (s.sem.pc x).constructing with
    | none =>
      rw [constructing_access_none hc hst] at hx
      cases hx
    | some j =>
      have hj := Hsem.constructing_access hc (fun k hk => by rw [hk] at hunder; cases hunder) hst
      exact hj.symm.trans hx
  · rwa [← (Hsem.access_of_ne hne hst).1]

/-- …with all of its code before it. -/
theorem Follows.begun_next (h : Follows C s u) {sem : Hsem T} (hunder : (s.sem.pc t).under = none)
    (hst : s.sem.access core t = some sem) (x : T) (i : Fin 32)
    (hx : (sem.pc x).constructing = some i) : ∃ k c, s.call x = some (k, c) ∧ C.lock k = i ∧
      ((sem.pc x).under = none → c = C.code k) := by
  obtain ⟨k, c, hcall, hlock, hcode⟩ := h.begun_access hunder hst hx
  refine ⟨k, c, hcall, hlock, fun hx => hcode ?_⟩
  obtain rfl | hne := eq_or_ne x t
  · exact hunder
  · rwa [← (Hsem.access_of_ne hne hst).1]

/-- **The constructor returns**: the thread is under the semaphore, and nobody has that lock. -/
theorem Follows.enter (h : Follows C s u) {sem : Hsem T} (hinv : Hsem.Inv core sem)
    (hunder : (s.sem.pc t).under = none) (hst : s.sem.access core t = some sem)
    (hnext : (sem.pc t).under = some i) :
    ∃ bs v, C.machine.run u bs = some v ∧ Follows C { s with sem := sem } v := by
  have hother (x : T) (hx : x ≠ t) : sem.pc x = s.sem.pc x := (Hsem.access_of_ne hx hst).1
  obtain ⟨k, c, hcall, rfl, hcode⟩ := h.begun_access hunder hst (constructing_of_under hnext)
  obtain rfl := hcode hunder
  have halone (x : T) (hx : x ≠ t) : (s.sem.pc x).under ≠ some (C.lock k) := fun hin =>
    hx (eq_of_under hinv ((congrArg _ (hother x hx)).trans hin) hnext)
  have hfree : u.inside (C.lock k) = none := by
    refine Option.eq_none_iff_forall_ne_some.mpr fun held hin => ?_
    obtain ⟨hx, -⟩ := (h.inside _ held.1 held.2.1 held.2.2).mp hin
    refine halone held.1 ?_ hx
    rintro heq
    rw [heq, hunder] at hx
    cases hx
  refine ⟨[.enter t k], _, Machine.run_singleton (?_ : C.step u (.enter t k) = some { u with
    inside := Function.update u.inside (C.lock k) (some (t, k, C.code k)) }), ?_⟩
  · simp only [RegionCode.step, hfree]
  · refine ⟨h.shared, h.returned, h.inside_update hother (fun _ _ => rfl) halone
      (fun j hj => ⟨?_, ?_⟩) fun x k' c' => ?_, h.begun_next hunder hst⟩
    · intro hj'
      rw [hunder] at hj'
      cases hj'
    · rw [hnext]
      exact fun heq => hj (Option.some.inj heq).symm
    · rw [hcall]
      exact some_eq_iff hnext

/-- **An access of the constructor** leads under the semaphore, or nowhere yet. -/
theorem Follows.construct (h : Follows C s u) {sem : Hsem T} (hinv : Hsem.Inv core sem)
    (hunder : (s.sem.pc t).under = none) (hst : s.sem.access core t = some sem) :
    ∃ bs v, C.machine.run u bs = some v ∧ Follows C { s with sem := sem } v := by
  cases hnext : (sem.pc t).under with
  | none =>
    refine ⟨[], u, rfl, h.of_under rfl rfl (fun x => ?_) (fun _ _ _ => rfl)
      (h.begun_next hunder hst)⟩
    obtain rfl | hne := eq_or_ne x t
    · exact hnext.trans hunder.symm
    · rw [(Hsem.access_of_ne hne hst).1]
  | some i => exact h.enter hinv hunder hst hnext

/-- **An access of the code.** -/
theorem Follows.body (h : Follows C s u) (hinv : Hsem.Inv core s.sem)
    (hunder : (s.sem.pc t).under = some i) {k : κ} {next : σ → Accesses σ ρ} {effect : σ → σ}
    (hcall : s.call t = some (k, .access next effect)) :
    ∃ bs v, C.machine.run u bs = some v ∧ Follows C { s with
      shared := effect s.shared
      call := Function.update s.call t (some (k, next s.shared)) } v := by
  have hin : u.inside i = some (t, k, .access next effect) :=
    (h.inside _ _ _ _).mpr ⟨hunder, hcall⟩
  have hnot (j : Fin 32) (hj : j ≠ i) : (s.sem.pc t).under ≠ some j := fun heq =>
    hj (Option.some.inj (heq.symm.trans hunder))
  refine ⟨[.turn i], _, Machine.run_singleton (?_ : C.step u (.turn i) = some { u with
    shared := effect u.shared
    inside := Function.update u.inside i (some (t, k, next u.shared)) }), ?_⟩
  · simp only [RegionCode.step, hin]
  · refine ⟨congrArg effect h.shared, h.returned, h.inside_update (fun _ _ => rfl)
      (fun x hx => Function.update_of_ne hx _ _)
      (fun x hx heq => hx (eq_of_under hinv heq hunder)) (fun j hj => ⟨hnot j hj, hnot j hj⟩)
      fun x k' c' => ?_, fun x i' hx => ?_⟩
    · dsimp only
      rw [h.shared, Function.update_self]
      exact some_eq_iff hunder
    · obtain rfl | hne := eq_or_ne x t
      · obtain ⟨k', c', hcall', hlock, -⟩ := h.begun x i' hx
        obtain ⟨rfl, -⟩ := Prod.mk.inj (Option.some.inj (hcall.symm.trans hcall'))
        refine ⟨k, _, Function.update_self _ _ _, hlock, fun hnone => ?_⟩
        rw [hunder] at hnone
        cases hnone
      · dsimp only
        rw [Function.update_of_ne hne]
        exact h.begun x i' hx

/-- **The destructor gives the semaphore up**, and the call has returned. -/
theorem Follows.release (h : Follows C s u) (hinv : Hsem.Inv core s.sem) {sem : Hsem T}
    (hunder : (s.sem.pc t).under = some i) {k : κ} {r : ρ} (hcall : s.call t = some (k, .ret r))
    (hst : s.sem.access core t = some sem) :
    ∃ bs v, C.machine.run u bs = some v ∧ Follows C { s with
      sem := sem
      call := Function.update s.call t none
      returned := s.returned ++ [(t, k, r)] } v := by
  have hin : u.inside i = some (t, k, .ret r) := (h.inside _ _ _ _).mpr ⟨hunder, hcall⟩
  have hother (x : T) (hx : x ≠ t) : sem.pc x = s.sem.pc x := (Hsem.access_of_ne hx hst).1
  have hout : sem.pc t = .clear i := by
    obtain ⟨key, hkey⟩ := under_eq_some.mp hunder
    simp only [Hsem.access, hkey, Option.some.injEq] at hst
    rw [← hst, Hsem.setPc_pc_self]
  refine ⟨[.turn i], _, Machine.run_singleton (?_ : C.step u (.turn i) = some { u with
    inside := Function.update u.inside i none
    returned := u.returned ++ [(t, k, r)] }), ?_⟩
  · simp only [RegionCode.step, hin]
  · refine ⟨h.shared, congrArg (· ++ [(t, k, r)]) h.returned, h.inside_update hother
      (fun x hx => Function.update_of_ne hx _ _)
      (fun x hx heq => hx (eq_of_under hinv heq hunder)) (fun j hj => ⟨?_, ?_⟩)
      fun x k' c' => ?_, fun x i' hx => ?_⟩
    · exact fun heq => hj (Option.some.inj (heq.symm.trans hunder))
    · intro hj'
      rw [hout] at hj'
      cases hj'
    · rw [hout]
      constructor
      · intro hnone
        cases hnone
      · intro hclear
        cases hclear.2.1
    · dsimp only at hx ⊢
      obtain rfl | hne := eq_or_ne x t
      · rw [hout] at hx
        cases hx
      · rw [hother x hne] at hx ⊢
        rw [Function.update_of_ne hne]
        exact h.begun x i' hx

/-- **An access of a thread** is one under the locks, or none. -/
theorem Follows.access (h : Follows C s u) (hinv : Hsem.Inv core s.sem)
    (hsole : s.sem.SoleTaker core (.access t)) (hst : s.access core t = some s') :
    Hsem.Inv core s'.sem ∧ ∃ bs v, C.machine.run u bs = some v ∧ Follows C s' v := by
  unfold SemSections.access at hst
  cases hunder : (s.sem.pc t).under with
  | none =>
    simp only [hunder] at hst
    obtain ⟨sem, hsem, rfl⟩ := Option.map_eq_some_iff.mp hst
    have hinv' := hinv.step hsole hsem
    exact ⟨hinv', h.construct hinv' hunder (Hsem.onThread_eq_some.mp hsem).2⟩
  | some i =>
    cases hcall : s.call t with
    | none =>
      simp only [hunder, hcall] at hst
      cases hst
    | some call =>
      obtain ⟨k, c⟩ := call
      cases c with
      | access next effect =>
        simp only [hunder, hcall] at hst
        obtain ⟨sem, hsem, rfl⟩ := Option.map_eq_some_iff.mp hst
        obtain rfl := Option.some.inj (Hsem.onThread_eq_some.mp hsem).2
        exact ⟨hinv, h.body hinv hunder hcall⟩
      | ret r =>
        simp only [hunder, hcall] at hst
        obtain ⟨sem, hsem, rfl⟩ := Option.map_eq_some_iff.mp hst
        exact ⟨hinv.step hsole hsem,
          h.release hinv hunder hcall (Hsem.onThread_eq_some.mp hsem).2⟩

/-- **Each step is one under the locks, or none.** -/
theorem Follows.step (h : Follows C s u) (hinv : Hsem.Inv core s.sem) {a : SemSectionsAct T κ}
    (hsole : SoleTaker core s a) (hst : step core C s a = some s') :
    Hsem.Inv core s'.sem ∧ ∃ bs v, C.machine.run u bs = some v ∧ Follows C s' v := by
  cases a with
  | call t k =>
    obtain ⟨sem, hsem, rfl⟩ := Option.map_eq_some_iff.mp hst
    refine ⟨hinv.step (a := .enter t (C.lock k)) trivial hsem, [], u, rfl, ?_⟩
    obtain ⟨-, hsem⟩ := Hsem.onThread_eq_some.mp hsem
    split_ifs at hsem with hout
    exact Option.some.inj hsem ▸ h.call hout
  | sem a =>
    change s.sem.SoleTaker core a at hsole
    cases a with
    | enter t i => cases hst
    | access t => exact h.access hinv hsole hst
    | handler c =>
      obtain ⟨sem, hsem, rfl⟩ := Option.map_eq_some_iff.mp hst
      exact ⟨hinv.step hsole hsem, [], u, rfl, h.of_sem (Hsem.of_handlerStep hsem).1⟩
    | registerMask t events | writeIer t ier | pass t =>
      obtain ⟨sem, hsem, rfl⟩ := Option.map_eq_some_iff.mp hst
      refine ⟨hinv.step hsole hsem, [], u, rfl, h.of_sem ?_⟩
      exact Option.some.inj (Hsem.onThread_eq_some.mp hsem).2 ▸ rfl
    | waitAny t events =>
      obtain ⟨sem, hsem, rfl⟩ := Option.map_eq_some_iff.mp hst
      refine ⟨hinv.step hsole hsem, [], u, rfl, h.of_sem ?_⟩
      obtain ⟨-, hsem⟩ := Hsem.onThread_eq_some.mp hsem
      split_ifs at hsem
      exact Option.some.inj hsem ▸ rfl

/-- **Scopes under hardware semaphores are code under locks**, along every run in which no thread
asks whose a semaphore is while another of its core takes it for its own. -/
theorem exists_region_run {isr : Core → Word} {acts : List (SemSectionsAct T κ)}
    (hsole : (machine core C).Along (SoleTaker core) (start isr m) acts)
    (hrun : (machine core C).run (start isr m) acts = some s) :
    ∃ bs v, C.machine.run (RegionCode.start m) bs = some v ∧ Follows C s v := by
  refine ((Machine.always_of_along (M := machine core C) (s := start isr m)
    (J := fun s => Hsem.Inv core s.sem ∧ ∃ bs v,
      C.machine.run (RegionCode.start m) bs = some v ∧ Follows C s v)
    ⟨Hsem.inv_start isr, [], _, rfl, follows_start isr⟩ ?_ hsole).of_run hrun).2
  rintro s a s' ⟨hinv, bs, v, hv, h⟩ hsole hst
  obtain ⟨hinv', bs', v', hv', h'⟩ := h.step hinv hsole hst
  exact ⟨hinv', bs ++ bs', v', Machine.run_trans hv hv', h'⟩

omit [DecidableEq T] in
/-- With one thread a core there is no other to ask. -/
theorem soleTaker_of_injective (hcore : Function.Injective core) (s : SemSections T σ κ ρ)
    (a : SemSectionsAct T κ) : SoleTaker core s a := by
  cases a with
  | call t k => trivial
  | sem a =>
    cases a with
    | access t => exact fun _ _ _ _ hne heq => absurd (hcore heq) hne
    | enter | handler | registerMask | writeIer | waitAny | pass => trivial

/-! ## The way out -/

/-- The call of a thread can return, by steps of that thread and of its core's handler. -/
def ReturnsAlone (core : T → Core) (C : RegionCode (Fin 32) σ κ ρ) (t : T) (k : κ)
    (s : SemSections T σ κ ρ) : Prop :=
  ∃ acts s' r, (machine core C).run s acts = some s' ∧ s'.returned = s.returned ++ [(t, k, r)] ∧
    ∀ a ∈ acts, a = .sem (.access t) ∨ a = .sem (.handler (core t))

theorem ReturnsAlone.of_step {k : κ} {a : SemSectionsAct T κ}
    (ha : a = .sem (.access t) ∨ a = .sem (.handler (core t)))
    (hst : SemSections.step core C s a = some s') (hreturned : s'.returned = s.returned)
    (h : ReturnsAlone core C t k s') : ReturnsAlone core C t k s := by
  obtain ⟨acts, v, r, hrun, hv, hacts⟩ := h
  refine ⟨a :: acts, v, r, Machine.run_trans (Machine.run_singleton hst) hrun, hreturned ▸ hv, ?_⟩
  intro b hb
  obtain rfl | hb := List.mem_cons.mp hb
  · exact ha
  · exact hacts b hb

/-- **A thread under a semaphore goes through its code to the destructor**, where its core's handler
is off. -/
theorem returnsAlone_of_off {k : κ} {c : Accesses σ ρ} (hoff : s.sem.handler (core t) = .off)
    (hunder : (s.sem.pc t).under = some i) (hcall : s.call t = some (k, c)) :
    ReturnsAlone core C t k s := by
  induction c generalizing s with
  | ret r =>
    obtain ⟨key, hkey⟩ := under_eq_some.mp hunder
    have hsem : s.sem.step core (.access t) = some ((s.sem.writeR i key).setPc t (.clear i)) :=
      Hsem.onThread_eq_some.mpr ⟨hoff, by simp only [Hsem.access, hkey]⟩
    refine ⟨[.sem (.access t)], _, r, Machine.run_singleton (?_ : s.access core t = some { s with
      sem := (s.sem.writeR i key).setPc t (.clear i)
      call := Function.update s.call t none
      returned := s.returned ++ [(t, k, r)] }), rfl, fun a ha => .inl (List.mem_singleton.mp ha)⟩
    simp only [SemSections.access, hunder, hcall, hsem, Option.map_some]
  | access next effect ih =>
    have hsem : s.sem.step core (.pass t) = some s.sem := Hsem.onThread_eq_some.mpr ⟨hoff, rfl⟩
    have hst : s.access core t = some { s with
        shared := effect s.shared
        call := Function.update s.call t (some (k, next s.shared)) } := by
      simp only [SemSections.access, hunder, hcall, hsem, Option.map_some]
    refine ReturnsAlone.of_step (.inl rfl) hst rfl (ih s.shared hoff hunder ?_)
    exact Function.update_self _ _ _

theorem returnsAlone_of_handlerStep {k : κ} {sem : Hsem T}
    (hst : s.sem.handlerStep core (core t) = some sem)
    (h : ReturnsAlone core C t k { s with sem := sem }) : ReturnsAlone core C t k s := by
  have hstep : SemSections.step core C s (.sem (.handler (core t)))
      = some { s with sem := sem } := by
    change (s.sem.handlerStep core (core t)).map _ = _
    rw [hst, Option.map_some]
  exact ReturnsAlone.of_step (.inr rfl) hstep rfl h

theorem returnsAlone_of_clear {k : κ} {c : Accesses σ ρ} {isr : Word}
    (hpc : s.sem.handler (core t) = .clear isr) (hunder : (s.sem.pc t).under = some i)
    (hcall : s.call t = some (k, c)) : ReturnsAlone core C t k s := by
  have hst : s.sem.handlerStep core (core t) = some { s.sem.writeIcr (core t) isr with
      handler := Function.update s.sem.handler (core t) .off } := by
    simp only [Hsem.handlerStep, hpc]
  exact returnsAlone_of_handlerStep hst
    (returnsAlone_of_off (Function.update_self _ _ _) hunder hcall)

theorem returnsAlone_of_reread {k : κ} {c : Accesses σ ρ}
    (hpc : s.sem.handler (core t) = .reread) (hunder : (s.sem.pc t).under = some i)
    (hcall : s.call t = some (k, c)) : ReturnsAlone core C t k s := by
  have hst : s.sem.handlerStep core (core t) = some { s.sem with
      handler := Function.update s.sem.handler (core t) (.clear (s.sem.isr (core t))) } := by
    simp only [Hsem.handlerStep, hpc]
  exact returnsAlone_of_handlerStep hst
    (returnsAlone_of_clear (Function.update_self _ _ _) hunder hcall)

/-- **Whoever is under a semaphore can return from its call**: a handler at work comes to its end
first. -/
theorem returnsAlone {k : κ} {c : Accesses σ ρ} (hunder : (s.sem.pc t).under = some i)
    (hcall : s.call t = some (k, c)) : ReturnsAlone core C t k s := by
  cases hpc : s.sem.handler (core t) with
  | off => exact returnsAlone_of_off hpc hunder hcall
  | clear isr => exact returnsAlone_of_clear hpc hunder hcall
  | reread => exact returnsAlone_of_reread hpc hunder hcall
  | broadcast =>
    have hst : s.sem.handlerStep core (core t) = some { s.sem.broadcastFlagsI core (core t) with
        handler := Function.update s.sem.handler (core t) .reread } := by
      simp only [Hsem.handlerStep, hpc]
    exact returnsAlone_of_handlerStep hst
      (returnsAlone_of_reread (Function.update_self _ _ _) hunder hcall)

end SemSections

end LibDronecan
