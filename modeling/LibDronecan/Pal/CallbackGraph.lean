import Mathlib.Logic.Relation
import LibDronecan.Pal.CallAll

/-!
# Pal/CallbackGraph — many interfaces, many heads, one graph of `next` fields

    rx_cbs ──▸ a ──▸ c ──▸ null
                     ▲
    rx_cbs ──▸ b ────╯         d ──▸ c      (d unregistered, its link stale)

Nothing keeps a callback out of a second list, or a head out of its own, and a callback that was
unregistered keeps its link; so the lists run into one another.  Still every assignment either links
the end of a chain to a callback whose own field is cleared, or links past a callback.  Neither
closes a circle, wherever the chain began: `Grounded`, a property of all `next` fields at once, is
the invariant, and every traversal walks down a finite chain.
-/

open Machinery

namespace LibDronecan

namespace Callback

variable {ι : Type*} [DecidableEq ι] {next next' : ι → Option ι} {n : ℕ}

omit [DecidableEq ι] in
/-- A callback is found behind `this`, or the end of the chain is. -/
theorem found_or_notFound (hg : Grounded next) (this cb : ι) :
    (∃ s a t, Chain next (some this) (s ++ a :: cb :: t)) ∨
      ∃ s last, Chain next (some this) (s ++ [last]) ∧ cb ∉ (s ++ [last]).tail := by
  obtain ⟨l, hl⟩ := hg.exists_chain (some this)
  cases l with
  | nil => cases hl
  | cons a l =>
    by_cases hin : cb ∈ l
    · obtain ⟨l₁, t, rfl⟩ := List.append_of_mem hin
      obtain ⟨s, b, hs, -⟩ := exists_cons_eq_concat a l₁
      refine Or.inl ⟨s, b, t, ?_⟩
      rwa [List.append_cons, ← hs]
    · obtain ⟨s, last, hs, -⟩ := exists_cons_eq_concat a l
      exact Or.inr ⟨s, last, hs ▸ hl, hs ▸ hin⟩

/-- **`register_cb` returns and closes no circle**, whichever callback it is given, `this` itself
included. -/
theorem exists_registerCb_of_grounded (hg : Grounded next) (this cb : ι) :
    ∃ n next', registerCb this next cb n = some (true, next') ∧ Grounded next' := by
  obtain ⟨s, a, t, h⟩ | ⟨s, last, h, hcb⟩ := found_or_notFound hg this cb
  · exact ⟨_, next, registerCb_of_mem h, hg⟩
  · exact ⟨_, _, registerCb_of_notMem h hcb, hg.link last cb⟩

/-- **…and so does `unregister_cb`.** -/
theorem exists_unregisterCb_of_grounded (hg : Grounded next) (this cb : ι) :
    ∃ n next', unregisterCb this next cb n = some next' ∧ Grounded next' := by
  obtain ⟨s, a, t, h⟩ | ⟨s, last, h, hcb⟩ := found_or_notFound hg this cb
  · exact ⟨_, _, unregisterCb_of_mem h, hg.unlink h.next_eq⟩
  · exact ⟨_, next, unregisterCb_of_notMem h hcb, hg⟩

theorem grounded_of_unregisterCb (hg : Grounded next) {this cb : ι}
    (h : unregisterCb this next cb n = some next') : Grounded next' := by
  obtain ⟨m, next'', hret, hg''⟩ := exists_unregisterCb_of_grounded hg this cb
  rwa [turnFree_unregisterCb this next cb h hret]

/-- A turn of `call_all` closes none either. -/
theorem grounded_of_callTurn {this : ι} {leaves : ι → Bool} {d d' : Delivery ι}
    (hg : Grounded d.next) (h : callTurn this leaves n d = .again d') : Grounded d'.next := by
  unfold callTurn at h
  split at h
  · cases h
  · split at h
    · cases h
    · case _ cb hcb _ next' hret =>
      cases h
      split_ifs at hret with hleaves
      · exact grounded_of_unregisterCb hg hret
      · cases hret
        exact hg

/-- **`call_all` returns**, and the callbacks that leave in their calls close no circle. -/
theorem exists_callAll_of_grounded (hg : Grounded next) (this : ι) (leaves : ι → Bool) :
    ∃ n d, callAll this leaves next n = some d ∧ Grounded d.next := by
  obtain ⟨l, hl⟩ := hg.exists_chain (next this)
  have hchain : Chain next (some this) (this :: l) := ⟨rfl, hl⟩
  obtain ⟨n, next', hret, -⟩ := exists_callAll hchain leaves
  refine ⟨n, _, hret, ?_⟩
  have hloop := Option.join_eq_some_iff.mp hret
  refine loop_induct (P := fun d => Grounded d.next) (Q := fun r => ∀ d ∈ r, Grounded d.next)
    (fun d d' hd hb => grounded_of_callTurn hd hb) (fun d r hd hb => ?_) hg hloop _ rfl
  -- the turn that leaves has no callback left to call
  unfold callTurn at hb
  split at hb
  · cases hb
    rintro d' ⟨⟩
    exact hd
  · split at hb
    · cases hb
      exact fun d' hd' => nomatch hd'
    · cases hb

end Callback

/-- A call on an interface `c` or on a head `this`. -/
inductive GraphOp (κ ι : Type*) where
  | canRegister (c : κ) (cb : ι)
  | canUnregister (c : κ) (cb : ι)
  | register (this cb : ι)
  | unregister (this cb : ι)
  | callAll (this : ι) (leaves : ι → Bool)

/-- The interfaces' first callbacks, and the `next` fields of all callbacks. -/
structure CallbackGraph (κ ι : Type*) where
  rxCbs : κ → Option ι
  next : ι → Option ι

namespace CallbackGraph

variable {κ ι : Type*} [DecidableEq κ] [DecidableEq ι]

omit [DecidableEq κ] [DecidableEq ι] in
/-- Nothing registered anywhere. -/
def start : CallbackGraph κ ι := ⟨fun _ => none, fun _ => none⟩

omit [DecidableEq κ] [DecidableEq ι] in
/-- An interface among the others. -/
def can (s : CallbackGraph κ ι) (c : κ) : CAN ι := ⟨s.rxCbs c, s.next⟩

omit [DecidableEq ι] in
def setCan (s : CallbackGraph κ ι) (c : κ) (r : CAN ι) : CallbackGraph κ ι :=
  ⟨Function.update s.rxCbs c r.rxCbs, r.next⟩

/-- The call, given `n` turns of its loops. -/
def exec (n : ℕ) (s : CallbackGraph κ ι) : GraphOp κ ι → Option (CallbackGraph κ ι)
  | .canRegister c cb => ((s.can c).registerCb cb n).map fun r => s.setCan c r.2
  | .canUnregister c cb => ((s.can c).unregisterCb cb n).map (s.setCan c)
  | .register this cb =>
      (Callback.registerCb this s.next cb n).map fun r => { s with next := r.2 }
  | .unregister this cb =>
      (Callback.unregisterCb this s.next cb n).map fun next => { s with next := next }
  | .callAll this leaves =>
      (Callback.callAll this leaves s.next n).map fun d => { s with next := d.next }

/-- Calls that return, each with the turns it is given. -/
def machine : Machine (CallbackGraph κ ι) (GraphOp κ ι × ℕ) where
  step s a := exec a.2 s a.1

/-- **No circle, and every traversal ends**: no callback is met again from itself, and every call
returns. -/
structure Terminates (s : CallbackGraph κ ι) : Prop where
  acyclic : ∀ o, ¬ Relation.TransGen (fun x y => s.next x = some y) o o
  returns : ∀ op, ∃ n t, exec n s op = some t

variable {s t : CallbackGraph κ ι}

/-- **Every call returns, and closes no circle.** -/
theorem exists_exec (hg : Grounded s.next) (op : GraphOp κ ι) :
    ∃ n t, exec n s op = some t ∧ Grounded t.next := by
  cases op with
  | canRegister c cb =>
    obtain ⟨n, next', hret, hg'⟩ :=
      Callback.exists_registerCb_of_grounded hg ((s.rxCbs c).getD cb) cb
    exact ⟨n, _, by rw [exec, CAN.registerCb, can, hret]; rfl, hg'⟩
  | canUnregister c cb =>
    cases hrx : s.rxCbs c with
    | none =>
      exact ⟨0, s.setCan c ⟨none, s.next⟩, by rw [exec, CAN.unregisterCb, can, hrx]; rfl, hg⟩
    | some rx =>
      by_cases hcb : rx = cb
      · exact ⟨0, s.setCan c ⟨s.next rx, s.next⟩,
          by simp only [exec, CAN.unregisterCb, can, hrx, if_pos hcb]; rfl, hg⟩
      · obtain ⟨n, next', hret, hg'⟩ := Callback.exists_unregisterCb_of_grounded hg rx cb
        exact ⟨n, _, by simp only [exec, CAN.unregisterCb, can, hrx, if_neg hcb, hret]; rfl, hg'⟩
  | register this cb =>
    obtain ⟨n, next', hret, hg'⟩ := Callback.exists_registerCb_of_grounded hg this cb
    exact ⟨n, _, by rw [exec, hret]; rfl, hg'⟩
  | unregister this cb =>
    obtain ⟨n, next', hret, hg'⟩ := Callback.exists_unregisterCb_of_grounded hg this cb
    exact ⟨n, _, by rw [exec, hret]; rfl, hg'⟩
  | callAll this leaves =>
    obtain ⟨n, d, hret, hg'⟩ := Callback.exists_callAll_of_grounded hg this leaves
    exact ⟨n, _, by rw [exec, hret]; rfl, hg'⟩

theorem turnFree_exec (s : CallbackGraph κ ι) (op : GraphOp κ ι) :
    TurnFree fun n => exec n s op := by
  cases op with
  | canRegister c cb => exact ((Callback.turnFree_registerCb _ s.next cb).map _).map _
  | canUnregister c cb => exact (RxCallbacks.turnFree_exec (s.can c) (.unregister cb)).map _
  | register this cb => exact (Callback.turnFree_registerCb this s.next cb).map _
  | unregister this cb => exact (Callback.turnFree_unregisterCb this s.next cb).map _
  | callAll this leaves => exact (Callback.turnFree_callAll this leaves s.next).map _

theorem grounded_step (hg : Grounded s.next) {a : GraphOp κ ι × ℕ}
    (hst : machine.step s a = some t) : Grounded t.next := by
  obtain ⟨n, t', hret, hg'⟩ := exists_exec hg a.1
  rwa [turnFree_exec s a.1 hst hret]

/-- Grounded fields lead nowhere in a circle. -/
theorem terminates_of_grounded (hg : Grounded s.next) : Terminates s where
  acyclic o ho := by
    have hwf := hg.transGen
    exact hwf.irrefl.irrefl o (Relation.transGen_swap.mp ho)
  returns op := by
    obtain ⟨n, t, hret, -⟩ := exists_exec hg op
    exact ⟨n, t, hret⟩

/-- **Callback links never form a circle**, over every history of calls on any interfaces and heads,
and so every call of every history returns. -/
theorem always_terminates (ops : List (GraphOp κ ι × ℕ)) :
    machine.Always Terminates (start : CallbackGraph κ ι) ops :=
  (Machine.always_of_step (J := fun s => Grounded s.next) grounded_none
    (fun _ _ _ hg hst => grounded_step hg hst) ops).mono fun _ => terminates_of_grounded

end CallbackGraph

end LibDronecan
