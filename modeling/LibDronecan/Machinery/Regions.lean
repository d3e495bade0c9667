import Mathlib.Data.Set.Function
import Mathlib.Data.Set.Lattice
import Mathlib.Order.CompletePartialOrder
import LibDronecan.Machinery.Sections

/-!
# Machinery/Regions — code under several locks, each for a region of one memory

    lock l:   ──▸ access ──▸ access ──▸ returns          in S l
    lock l':     ──▸ access ──────▸ access ──▸ returns    in S l'

Code is a tree of its accesses to the memory: each sees all of it and may change any of it
(`Accesses`).  `Stays` says of a piece of code that, from a given memory, it looks at a region only
and changes nothing else; so what happens elsewhere meanwhile makes no difference to it
(`Stays.congr`).  Calls that stay in the regions of the locks they are under take effect one at a
time, in the order they return, although calls under different locks are interleaved access by
access (`explained_of_run`).
-/

namespace Machinery

/-- A piece of code: it returns, or makes an access and goes on by what it saw. -/
inductive Accesses (σ α : Type*)
  | ret (a : α)
  | access (next : σ → Accesses σ α) (effect : σ → σ)

namespace Accesses

variable {σ α β : Type*}

def bind : Accesses σ α → (α → Accesses σ β) → Accesses σ β
  | ret a, f => f a
  | access next effect, f => access (fun s => (next s).bind f) effect

instance : Monad (Accesses σ) where
  pure := ret
  bind := bind

/-- What the code does when nobody else is about. -/
def exec : Accesses σ α → σ → α × σ
  | ret a, s => (a, s)
  | access next effect, s => (next s).exec (effect s)

@[simp] theorem exec_pure (a : α) (s : σ) : (pure a : Accesses σ α).exec s = (a, s) := rfl

@[simp] theorem exec_bind {α β : Type _} (x : Accesses σ α) (f : α → Accesses σ β) (s : σ) :
    (x >>= f).exec s = (f (x.exec s).1).exec (x.exec s).2 := by
  change (x.bind f).exec s = _
  induction x generalizing s with
  | ret a => rfl
  | access next effect ih => exact ih s (effect s)

end Accesses

open Accesses Set

/-! ## Code that stays in a region -/

section Stays

variable {A V α β : Type*} {S : Set A} {m m' : A → V}

/-- **From the memory `m` on, the code stays in `S`**: each access sees and makes the same on any
memory that is the same there, and changes nothing elsewhere. -/
def Stays (S : Set A) : Accesses (A → V) α → (A → V) → Prop
  | .ret _, _ => True
  | .access next effect, m =>
      (∀ m', EqOn m m' S →
        next m' = next m ∧ EqOn (effect m) (effect m') S ∧ EqOn (effect m') m' Sᶜ) ∧
      Stays S (next m) (effect m)

/-- **What happens elsewhere makes no difference.** -/
theorem Stays.congr {x : Accesses (A → V) α} (h : Stays S x m) (hm : EqOn m m' S) :
    Stays S x m' ∧ (x.exec m').1 = (x.exec m).1 ∧ EqOn (x.exec m).2 (x.exec m').2 S ∧
      EqOn (x.exec m').2 m' Sᶜ := by
  induction x generalizing m m' with
  | ret a => exact ⟨trivial, rfl, hm, eqOn_refl _ _⟩
  | access next effect ih =>
    obtain ⟨hsame, hrest⟩ := h
    obtain ⟨hnext, heffect, hout⟩ := hsame m' hm
    obtain ⟨hstays, hret, hin, helse⟩ := ih m hrest heffect
    simp only [exec, Stays, hnext]
    refine ⟨⟨fun n hn => ?_, hstays⟩, hret, hin, helse.trans hout⟩
    obtain ⟨hnext', heffect', hout'⟩ := hsame n (hm.trans hn)
    exact ⟨hnext', heffect.symm.trans heffect', hout'⟩

/-- The code changes nothing outside. -/
theorem Stays.eqOn {x : Accesses (A → V) α} (h : Stays S x m) : EqOn (x.exec m).2 m Sᶜ :=
  (h.congr (eqOn_refl m S)).2.2.2

theorem Stays.bind {α β : Type _} {x : Accesses (A → V) α} {f : α → Accesses (A → V) β}
    (hx : Stays S x m) (hf : Stays S (f (x.exec m).1) (x.exec m).2) : Stays S (x >>= f) m := by
  change Stays S (x.bind f) m
  induction x generalizing m with
  | ret a => exact hf
  | access next effect ih =>
    refine ⟨fun n hn => ?_, ih m hx.2 hf⟩
    obtain ⟨hnext, heffect, hout⟩ := hx.1 n hn
    exact ⟨congrArg (fun y => y.bind f) hnext, heffect, hout⟩

end Stays

/-! ## Calls under several locks -/

/-- Calls: what each of them does, and the lock it is under. -/
structure RegionCode (Λ σ κ ρ : Type*) where
  lock : κ → Λ
  code : κ → Accesses σ ρ

/-- The memory; for each lock, who is in which call under it, and what is left of that call; and the
calls that have returned. -/
structure Regions (ι Λ σ κ ρ : Type*) where
  shared : σ
  inside : Λ → Option (ι × κ × Accesses σ ρ)
  returned : List (ι × κ × ρ)

/-- A thread gets the lock of a call, or whoever is under a lock goes on. -/
inductive RegionAct (ι Λ κ : Type*)
  | enter (i : ι) (k : κ)
  | turn (l : Λ)

namespace RegionCode

variable {ι Λ A V κ ρ : Type*} [DecidableEq Λ]

section Machine

variable {σ : Type*} (C : RegionCode Λ σ κ ρ)

/-- Nobody in a call. -/
def start (s : σ) : Regions ι Λ σ κ ρ := ⟨s, fun _ => none, []⟩

def step (s : Regions ι Λ σ κ ρ) : RegionAct ι Λ κ → Option (Regions ι Λ σ κ ρ)
  | .enter i k =>
      match s.inside (C.lock k) with
      | none => some { s with
          inside := Function.update s.inside (C.lock k) (some (i, k, C.code k)) }
      | some _ => none
  | .turn l =>
      match s.inside l with
      | none => none
      | some (i, k, .ret r) => some { s with
          inside := Function.update s.inside l none
          returned := s.returned ++ [(i, k, r)] }
      | some (i, k, .access next effect) => some { s with
          shared := effect s.shared
          inside := Function.update s.inside l (some (i, k, next s.shared)) }

def machine : Machine (Regions ι Λ σ κ ρ) (RegionAct ι Λ κ) := ⟨C.step⟩

end Machine

/-- What a call does as one function. -/
def apply {σ : Type*} (C : RegionCode Λ σ κ ρ) (k : κ) (s : σ) : ρ × σ := (C.code k).exec s

/-- **The memory at any time**: `u` is what the calls returned so far make of it.  In the regions of
the free locks, and outside all of them, the memory is `u`; and whoever is under a lock will come to
what the call makes of `u`, as far as its region goes. -/
structure Explained (C : RegionCode Λ (A → V) κ ρ) (S : Λ → Set A) (m₀ u : A → V)
    (s : Regions ι Λ (A → V) κ ρ) : Prop where
  replays : LockedCode.Replays C.apply m₀ s.returned u
  idle : ∀ a, (∀ l, a ∈ S l → s.inside l = none) → s.shared a = u a
  busy : ∀ l i k x, s.inside l = some (i, k, x) → C.lock k = l ∧ Stays (S l) x s.shared ∧
    (x.exec s.shared).1 = (C.apply k u).1 ∧ EqOn (x.exec s.shared).2 (C.apply k u).2 (S l)

variable {C : RegionCode Λ (A → V) κ ρ} {S : Λ → Set A} {m₀ u : A → V}
  {s t : Regions ι Λ (A → V) κ ρ} {l : Λ} {i : ι} {k : κ}

/-- A call that begins finds its region as the calls before it left it. -/
theorem Explained.enter (h : Explained C S m₀ u s) (hdisj : ∀ l l', l ≠ l' → Disjoint (S l) (S l'))
    (hstays : Stays (S (C.lock k)) (C.code k) u) (hfree : s.inside (C.lock k) = none) :
    Explained C S m₀ u { s with
      inside := Function.update s.inside (C.lock k) (some (i, k, C.code k)) } where
  replays := h.replays
  idle a ha := h.idle a fun l hl => by
    obtain rfl | hne := eq_or_ne l (C.lock k)
    · exact hfree
    · exact (Function.update_of_ne hne _ _).symm.trans (ha l hl)
  busy l i' k' x hx := by
    obtain rfl | hne := eq_or_ne l (C.lock k)
    · dsimp only at hx
      rw [Function.update_self] at hx
      cases hx
      have hsame : EqOn u s.shared (S (C.lock k)) := fun a ha => (h.idle a fun l' hl' => by
        obtain rfl | hne := eq_or_ne l' (C.lock k)
        · exact hfree
        · exact (disjoint_left.mp (hdisj _ _ hne) hl' ha).elim).symm
      obtain ⟨hx, hret, hin, -⟩ := hstays.congr hsame
      exact ⟨rfl, hx, hret, hin.symm⟩
    · exact h.busy l i' k' x ((Function.update_of_ne hne _ _).symm.trans hx)

/-- An access makes no difference in the regions of the other locks. -/
theorem Explained.access (h : Explained C S m₀ u s)
    (hdisj : ∀ l l', l ≠ l' → Disjoint (S l) (S l')) {next : (A → V) → Accesses (A → V) ρ}
    {effect : (A → V) → A → V} (hl : s.inside l = some (i, k, .access next effect)) :
    Explained C S m₀ u { s with
      shared := effect s.shared
      inside := Function.update s.inside l (some (i, k, next s.shared)) } := by
  obtain ⟨hlock, ⟨hsame, hrest⟩, hret, hin⟩ := h.busy l i k _ hl
  obtain ⟨-, -, hout⟩ := hsame s.shared (eqOn_refl _ _)
  refine ⟨h.replays, fun a ha => ?_, fun l' i' k' x hx => ?_⟩
  · have hnot : a ∉ S l := fun hin => by
      have hnone := ha l hin
      dsimp only at hnone
      rw [Function.update_self] at hnone
      cases hnone
    refine (hout hnot).trans (h.idle a fun l' hl' => ?_)
    have hne : l' ≠ l := by
      rintro rfl
      exact hnot hl'
    exact (Function.update_of_ne hne _ _).symm.trans (ha l' hl')
  · obtain rfl | hne := eq_or_ne l' l
    · dsimp only at hx
      rw [Function.update_self] at hx
      cases hx
      exact ⟨hlock, hrest, hret, hin⟩
    · obtain ⟨hlock', hx', hret', hin'⟩ :=
        h.busy l' i' k' x ((Function.update_of_ne hne _ _).symm.trans hx)
      have hkept : EqOn s.shared (effect s.shared) (S l') := fun a ha =>
        (hout (disjoint_left.mp (hdisj l' l hne) ha)).symm
      obtain ⟨hx'', hret'', hin'', -⟩ := hx'.congr hkept
      exact ⟨hlock', hx'', hret''.trans hret', hin''.symm.trans hin'⟩

/-- **A call that returns has taken effect**, and those under other locks will come to what they
make of the memory with it. -/
theorem Explained.ret (h : Explained C S m₀ u s) (hdisj : ∀ l l', l ≠ l' → Disjoint (S l) (S l'))
    (hstays : ∀ k, Stays (S (C.lock k)) (C.code k) u) {r : ρ}
    (hl : s.inside l = some (i, k, .ret r)) :
    Explained C S m₀ (C.apply k u).2 { s with
      inside := Function.update s.inside l none
      returned := s.returned ++ [(i, k, r)] } := by
  obtain ⟨rfl, -, hret, hin⟩ := h.busy l i k _ hl
  have hout : EqOn (C.apply k u).2 u (S (C.lock k))ᶜ := (hstays k).eqOn
  refine ⟨?_, fun a ha => ?_, fun l' i' k' x hx => ?_⟩
  · rw [show r = (C.apply k u).1 from hret]
    exact h.replays.concat i k
  · by_cases hmem : a ∈ S (C.lock k)
    · exact hin hmem
    · refine (h.idle a fun l' hl' => ?_).trans (hout hmem).symm
      have hne : l' ≠ C.lock k := by
        rintro rfl
        exact hmem hl'
      exact (Function.update_of_ne hne _ _).symm.trans (ha l' hl')
  · obtain rfl | hne := eq_or_ne l' (C.lock k)
    · dsimp only at hx
      rw [Function.update_self] at hx
      cases hx
    · obtain ⟨rfl, hx', hret', hin'⟩ :=
        h.busy l' i' k' x ((Function.update_of_ne hne _ _).symm.trans hx)
      have hkept : EqOn u (C.apply k u).2 (S (C.lock k')) := fun a ha =>
        (hout (disjoint_left.mp (hdisj _ _ hne) ha)).symm
      obtain ⟨-, hret'', hin'', -⟩ := (hstays k').congr hkept
      exact ⟨rfl, hx', hret'.trans hret''.symm, hin'.trans hin''⟩

/-- **Calls that stay in the regions of their locks take effect one at a time**, in the order they
return, whatever the order of their accesses; `J` is what makes them stay, and they keep it. -/
theorem explained_of_run {J : (A → V) → Prop}
    (hdisj : ∀ l l', l ≠ l' → Disjoint (S l) (S l'))
    (hstays : ∀ k m, J m → Stays (S (C.lock k)) (C.code k) m)
    (hJ : ∀ k m, J m → J (C.apply k m).2) (h₀ : J m₀) {as : List (RegionAct ι Λ κ)}
    (hrun : C.machine.run (start m₀) as = some t) : ∃ u, J u ∧ Explained C S m₀ u t := by
  refine (Machine.always_of_step (M := C.machine) (s := start m₀)
    (J := fun s => ∃ u, J u ∧ Explained C S m₀ u s)
    ⟨m₀, h₀, rfl, fun _ _ => rfl, fun _ _ _ _ hx => by cases hx⟩ ?_ as).of_run hrun
  rintro s a t ⟨u, hu, h⟩ hst
  cases a with
  | enter i k =>
    simp only [machine, step] at hst
    split at hst
    · case _ hfree =>
      obtain rfl := Option.some.inj hst
      exact ⟨u, hu, h.enter hdisj (hstays k u hu) hfree⟩
    · cases hst
  | turn l =>
    simp only [machine, step] at hst
    split at hst
    · cases hst
    · case _ i k r hl =>
      obtain rfl := Option.some.inj hst
      exact ⟨_, hJ k u hu, h.ret hdisj (fun k => hstays k u hu) hl⟩
    · case _ i k next effect hl =>
      obtain rfl := Option.some.inj hst
      exact ⟨u, hu, h.access hdisj hl⟩

end RegionCode

end Machinery
