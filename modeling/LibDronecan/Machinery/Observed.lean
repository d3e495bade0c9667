import LibDronecan.Machinery.Loop

/-!
# Machinery/Observed — what can be told of an object by calling it

    s ──a──▸ b, t ──a'──▸ b', t' …        each call, if it returns, with what it lets be seen

Two states of an object agree on some calls if no sequence of these tells them apart: the same
sequences of what is seen, of the calls that return, are possible from both.  A relation that calls
keep, showing the same on both sides, is enough (`agreeOn_of_rel`); and two states that agree show
the same at their first call (`AgreeOn.exec`), which is how they are told apart.
-/

namespace Machinery

/-- An object: what a call lets be seen and the state it leaves, given a number of turns; `none` if
it has not returned by then. -/
structure Observed (σ α β : Type*) where
  exec : ℕ → σ → α → Option (β × σ)

namespace Observed

variable {σ α β : Type*} (O : Observed σ α β)

/-- Calls that all return, and what each of them lets be seen. -/
def Shows : σ → List α → List β → Prop
  | _, [], bs => bs = []
  | s, a :: as, bs => ∃ n b t cs, O.exec n s a = some (b, t) ∧ bs = b :: cs ∧ Shows t as cs

/-- **No sequence of such calls tells the states apart.** -/
def AgreeOn (A : α → Prop) (s s' : σ) : Prop :=
  ∀ as bs, (∀ a ∈ as, A a) → (O.Shows s as bs ↔ O.Shows s' as bs)

variable {O} {A : α → Prop} {s s' t : σ} {a : α} {b : β} {n : ℕ}

theorem AgreeOn.symm (h : O.AgreeOn A s s') : O.AgreeOn A s' s :=
  fun as bs hA => (h as bs hA).symm

/-- What one state shows at its first call, the other does. -/
theorem AgreeOn.exec (h : O.AgreeOn A s s') (ha : A a) (hs : O.exec n s a = some (b, t)) :
    ∃ m t', O.exec m s' a = some (b, t') := by
  have hshows : O.Shows s [a] [b] := ⟨n, b, t, [], hs, rfl, rfl⟩
  obtain ⟨m, b', t', cs, hs', hcons, -⟩ :=
    (h [a] [b] fun x hx => List.mem_singleton.mp hx ▸ ha).mp hshows
  obtain ⟨rfl, -⟩ := List.cons.inj hcons
  exact ⟨m, t', hs'⟩

/-- Both show the same at a call and are related after it, or neither returns. -/
def InStep (R : σ → σ → Prop) : Option (β × σ) → Option (β × σ) → Prop :=
  Option.Rel fun r r' => r.1 = r'.1 ∧ R r.2 r'.2

theorem InStep.exists_eq {R : σ → σ → Prop} {r r' : Option (β × σ)} (h : InStep R r r')
    (hr : r = some (b, t)) : ∃ t', r' = some (b, t') ∧ R t t' := by
  subst hr
  cases h with
  | @some _ r' h =>
    obtain ⟨b', t'⟩ := r'
    obtain rfl : b = b' := h.1
    exact ⟨t', rfl, h.2⟩

/-- What both let be seen of a computation that runs in step. -/
theorem InStep.map {ρ : Type*} {R : σ → σ → Prop} {S : ρ → ρ → Prop} {r r' : Option ρ}
    {g g' : ρ → β × σ} (h : Option.Rel S r r')
    (hg : ∀ x x', S x x' → (g x).1 = (g' x').1 ∧ R (g x).2 (g' x').2) :
    InStep R (r.map g) (r'.map g') := by
  cases h with
  | none => exact .none
  | some hx => exact .some (hg _ _ hx)

theorem shows_of_rel {R : σ → σ → Prop}
    (hstep : ∀ n s s' a, A a → R s s' → InStep R (O.exec n s a) (O.exec n s' a)) {as : List α}
    {bs : List β} (hA : ∀ a ∈ as, A a) (h : R s s') (hs : O.Shows s as bs) : O.Shows s' as bs := by
  induction as generalizing s s' bs with
  | nil => exact hs
  | cons a as ih =>
    obtain ⟨n, b, t, cs, hexec, rfl, ht⟩ := hs
    obtain ⟨t', hexec', ht'⟩ := (hstep n s s' a (hA a List.mem_cons_self) h).exists_eq hexec
    exact ⟨n, b, t', cs, hexec', rfl,
      ih (fun x hx => hA x (List.mem_cons_of_mem a hx)) ht' ht⟩

/-- **The two-run rule**: related states agree, if the calls keep them related and show the same. -/
theorem agreeOn_of_rel {R : σ → σ → Prop} (hsymm : ∀ s s', R s s' → R s' s)
    (hstep : ∀ n s s' a, A a → R s s' → InStep R (O.exec n s a) (O.exec n s' a)) (h : R s s') :
    O.AgreeOn A s s' :=
  fun _ _ hA => ⟨shows_of_rel hstep hA h, shows_of_rel hstep hA (hsymm s s' h)⟩

end Observed

end Machinery
