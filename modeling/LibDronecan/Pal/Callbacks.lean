import LibDronecan.Machinery.Chain
import LibDronecan.Machinery.Run

/-!
# Pal/Callbacks — the callbacks of a `CAN` interface, chained through themselves

    rx_cbs ──▸ cb ──next──▸ cb ──next──▸ null        each of them a list head of its own

A `Callback` is both an entry and the head of a list, and a `CAN` interface uses its first callback
as the head of the others.  `Callback::register_cb` then runs on a callback that is itself
registered: it looks for `cb` behind `this` and never compares `this`, so registering the head again
links it behind the last one and cuts the chain after it (`registerCb_of_notMem` with `cb` at the
head).  Every other call does what a set of callbacks would; stale `next` fields never close a
circle (`Grounded`), so a callback may come back after it was unregistered.
-/

open Machinery

namespace LibDronecan

namespace Callback

variable {ι : Type*} [DecidableEq ι]

/-- The loop of `register_cb`: to the callback itself or the end, and link behind it. -/
def registerTurn (next : ι → Option ι) (cb nextCb : ι) : Turn ι (Bool × (ι → Option ι)) :=
  match next nextCb with
  | none => .leave (true, Function.update (Function.update next nextCb (some cb)) cb none)
  | some c => if c = cb then .leave (true, next) else .again c

/-- `Callback::register_cb` on `this`. -/
def registerCb (this : ι) (next : ι → Option ι) (cb : ι) (n : ℕ) :
    Option (Bool × (ι → Option ι)) :=
  if next this = some cb then some (true, next) else loop (registerTurn next cb) n this

/-- The loop of `unregister_cb`. -/
def unregisterTurn (next : ι → Option ι) (cb nextCb : ι) : Turn ι (ι → Option ι) :=
  match next nextCb with
  | none => .leave next
  | some c => if c = cb then .leave (Function.update next nextCb (next cb)) else .again c

/-- `Callback::unregister_cb` on `this`. -/
def unregisterCb (this : ι) (next : ι → Option ι) (cb : ι) (n : ℕ) : Option (ι → Option ι) :=
  if next this = some cb then some (Function.update next this (next cb))
  else loop (unregisterTurn next cb) n this

variable {next : ι → Option ι} {this cb a last : ι} {s t : List ι}

/-- The first test of `register_cb` is the first turn of its loop. -/
theorem registerCb_eq_loop (this : ι) (next : ι → Option ι) (cb : ι) (n : ℕ) :
    registerCb this next cb (n + 1) = loop (registerTurn next cb) (n + 1) this := by
  unfold registerCb
  split_ifs with h
  · exact (loop_of_leave (by simp only [registerTurn, h, if_true]) n).symm
  · rfl

/-- …and so it is in `unregister_cb`. -/
theorem unregisterCb_eq_loop (this : ι) (next : ι → Option ι) (cb : ι) (n : ℕ) :
    unregisterCb this next cb (n + 1) = loop (unregisterTurn next cb) (n + 1) this := by
  unfold unregisterCb
  split_ifs with h
  · exact (loop_of_leave (by simp only [unregisterTurn, h, if_true]) n).symm
  · rfl

/-- **Not found behind `this`, the callback is linked behind the last one**, and ends the chain. -/
theorem registerCb_of_notMem (h : Chain next (some this) (s ++ [last]))
    (hcb : cb ∉ (s ++ [last]).tail) :
    registerCb this next cb (s.length + 1)
      = some (true, Function.update (Function.update next last (some cb)) cb none) := by
  have hlast : next last = none := h.next_last
  rw [registerCb_eq_loop, h.loop_eq (fun x _ y hmem hy => ?_)]
  · exact loop_of_leave (by simp only [registerTurn, hlast]) 0
  · have hne : y ≠ cb := fun hyc => hcb (hyc ▸ hmem)
    simp only [registerTurn, hy, if_neg hne]

/-- **Found behind `this`, it stays where it is.** -/
theorem registerCb_of_mem (h : Chain next (some this) (s ++ a :: cb :: t)) :
    registerCb this next cb (s.length + 1) = some (true, next) := by
  have ha : next a = some cb := h.next_eq
  rw [registerCb_eq_loop, h.loop_eq (fun x _ y hmem hy => ?_)]
  · exact loop_of_leave (by simp only [registerTurn, ha, if_true]) 0
  · have hne : y ≠ cb := fun hyc => h.notMem_front (hyc ▸ List.mem_of_mem_tail hmem)
    simp only [registerTurn, hy, if_neg hne]

/-- **Found behind `this`, it is linked past.** -/
theorem unregisterCb_of_mem (h : Chain next (some this) (s ++ a :: cb :: t)) :
    unregisterCb this next cb (s.length + 1) = some (Function.update next a (next cb)) := by
  have ha : next a = some cb := h.next_eq
  rw [unregisterCb_eq_loop, h.loop_eq (fun x _ y hmem hy => ?_)]
  · exact loop_of_leave (by simp only [unregisterTurn, ha, if_true]) 0
  · have hne : y ≠ cb := fun hyc => h.notMem_front (hyc ▸ List.mem_of_mem_tail hmem)
    simp only [unregisterTurn, hy, if_neg hne]

/-- **Not found, nothing changes.** -/
theorem unregisterCb_of_notMem (h : Chain next (some this) (s ++ [last]))
    (hcb : cb ∉ (s ++ [last]).tail) : unregisterCb this next cb (s.length + 1) = some next := by
  have hlast : next last = none := h.next_last
  rw [unregisterCb_eq_loop, h.loop_eq (fun x _ y hmem hy => ?_)]
  · exact loop_of_leave (by simp only [unregisterTurn, hlast]) 0
  · have hne : y ≠ cb := fun hyc => hcb (hyc ▸ hmem)
    simp only [unregisterTurn, hy, if_neg hne]

/-- The turns a call is given do not matter, if it returns. -/
theorem turnFree_registerCb (this : ι) (next : ι → Option ι) (cb : ι) :
    TurnFree (registerCb this next cb) := by
  unfold registerCb
  split_ifs
  · exact turnFree_some _
  · exact turnFree_loop _ _

theorem turnFree_unregisterCb (this : ι) (next : ι → Option ι) (cb : ι) :
    TurnFree (unregisterCb this next cb) := by
  unfold unregisterCb
  split_ifs
  · exact turnFree_some _
  · exact turnFree_loop _ _

end Callback

/-- A `CAN` interface: its first callback, and the `next` fields of all there are. -/
structure CAN (ι : Type*) where
  rxCbs : Option ι
  next : ι → Option ι

namespace CAN

variable {ι : Type*} [DecidableEq ι]

/-- `CAN::register_cb`: without a first callback, this one becomes it, and is registered with
itself. -/
def registerCb (c : CAN ι) (cb : ι) (n : ℕ) : Option (Bool × CAN ι) :=
  let rx := c.rxCbs.getD cb
  (Callback.registerCb rx c.next cb n).map fun r => (r.1, ⟨some rx, r.2⟩)

/-- `CAN::unregister_cb`. -/
def unregisterCb (c : CAN ι) (cb : ι) (n : ℕ) : Option (CAN ι) :=
  match c.rxCbs with
  | none => some c
  | some rx =>
      if rx = cb then some { c with rxCbs := c.next rx }
      else (Callback.unregisterCb rx c.next cb n).map fun next => ⟨some rx, next⟩

end CAN

/-- A call on the interface. -/
inductive CallbackOp (ι : Type*) where
  | register (cb : ι)
  | unregister (cb : ι)

/-- An interface, and the callbacks registered, in the order they first were. -/
structure RxCallbacks (ι : Type*) where
  can : CAN ι
  registered : List ι

namespace RxCallbacks

variable {ι : Type*} [DecidableEq ι]

omit [DecidableEq ι] in
/-- No callback registered, and none linked to another. -/
def start : RxCallbacks ι := ⟨⟨none, fun _ => none⟩, []⟩

/-- The call, given `n` turns of its loop. -/
def exec (n : ℕ) (c : CAN ι) : CallbackOp ι → Option (CAN ι)
  | .register cb => (c.registerCb cb n).map Prod.snd
  | .unregister cb => c.unregisterCb cb n

/-- The callbacks registered after the call, as a set in order. -/
def after (s : RxCallbacks ι) : CallbackOp ι → List ι
  | .register cb => if cb ∈ s.registered then s.registered else s.registered ++ [cb]
  | .unregister cb => s.registered.erase cb

omit [DecidableEq ι] in
/-- A callback registered again, or unregistered while it is not. -/
def Idle (s : RxCallbacks ι) : CallbackOp ι → Prop
  | .register cb => cb ∈ s.registered
  | .unregister cb => cb ∉ s.registered

/-- Calls that return, each with the turns it is given. -/
def machine : Machine (RxCallbacks ι) (CallbackOp ι × ℕ) where
  step s a := (exec a.2 s.can a.1).map fun c => ⟨c, s.after a.1⟩

/-- **The call serves the set**: it returns, the chain is the callbacks registered after it, and
where it has nothing to do it does nothing. -/
def SetOk (s : RxCallbacks ι) (a : CallbackOp ι × ℕ) : Prop :=
  ∃ n c, exec n s.can a.1 = some c ∧ Chain c.next c.rxCbs (s.after a.1) ∧
    (s.Idle a.1 → c = s.can)

omit [DecidableEq ι] in
/-- The first callback is registered again only while it is the only one. -/
def HeadAlone (s : RxCallbacks ι) (a : CallbackOp ι × ℕ) : Prop :=
  match a.1 with
  | .register cb => s.can.rxCbs = some cb → s.can.next cb = none
  | .unregister _ => True

/-- **The invariant**: the chain is the callbacks registered, and no `next` field leads in a
circle, those of the callbacks not registered included. -/
structure Held (s : RxCallbacks ι) : Prop where
  chain : Chain s.can.next s.can.rxCbs s.registered
  grounded : Grounded s.can.next

variable {s t : RxCallbacks ι} {c : CAN ι} {cb : ι}

omit [DecidableEq ι] in
theorem held_start : Held (start : RxCallbacks ι) := ⟨rfl, grounded_none⟩

omit [DecidableEq ι] in
theorem Held.start_eq_none (h : Held s) (hempty : s.registered = []) : s.can.rxCbs = none := by
  rw [h.chain.eq_head?, hempty, List.head?_nil]

/-! ## Each call from a held state -/

theorem exec_register {rx : ι} {next : ι → Option ι} {r : Bool} {n : ℕ}
    (hrx : c.rxCbs.getD cb = rx) (h : Callback.registerCb rx c.next cb n = some (r, next)) :
    exec n c (.register cb) = some ⟨some rx, next⟩ := by
  rw [exec, CAN.registerCb, hrx, h]
  rfl

theorem exec_unregister {rx : ι} {next : ι → Option ι} {n : ℕ} (hrx : c.rxCbs = some rx)
    (hne : rx ≠ cb) (h : Callback.unregisterCb rx c.next cb n = some next) :
    exec n c (.unregister cb) = some ⟨some rx, next⟩ := by
  simp only [exec, CAN.unregisterCb, hrx, if_neg hne, h, Option.map_some]

/-- What a call leaves: the chain of the callbacks registered after it, no circle, and no change
where it has nothing to do. -/
def Leaves (s : RxCallbacks ι) (op : CallbackOp ι) (c : CAN ι) : Prop :=
  Held ⟨c, s.after op⟩ ∧ (s.Idle op → c = s.can)

theorem Held.leaves_self (h : Held s) {op : CallbackOp ι} (hafter : s.after op = s.registered) :
    s.Leaves op s.can :=
  ⟨⟨hafter ▸ h.chain, h.grounded⟩, fun _ => rfl⟩

/-- The first callback to be registered: whatever its `next` was, it is alone. -/
theorem Held.register_first (h : Held s) (hempty : s.registered = []) :
    ∃ n c, exec n s.can (.register cb) = some c ∧ s.Leaves (.register cb) c := by
  have hout : cb ∉ s.registered := hempty ▸ List.not_mem_nil
  have hrx : s.can.rxCbs.getD cb = cb := by rw [h.start_eq_none hempty, Option.getD_none]
  obtain ⟨l, hl⟩ := h.grounded.exists_chain (some cb)
  obtain rfl | ⟨m, last, rfl⟩ := List.eq_nil_or_concat' l
  · cases hl
  refine ⟨_, _, exec_register hrx (Callback.registerCb_of_notMem hl hl.notMem_tail),
    ⟨?_, h.grounded.link last cb⟩, fun hidle => absurd hidle hout⟩
  rw [after, if_neg hout, hempty]
  exact ⟨rfl, Function.update_self _ _ _⟩

/-- Another one: it is linked behind the last. -/
theorem Held.register_behind {l : List ι} {last : ι} (h : Held s)
    (hreg : s.registered = l ++ [last]) (hout : cb ∉ s.registered) :
    ∃ n c, exec n s.can (.register cb) = some c ∧ s.Leaves (.register cb) c := by
  have hchain := hreg ▸ h.chain
  obtain ⟨rx, hrx⟩ := hchain.exists_eq_some
  rw [hrx] at hchain
  have hcb : cb ∉ l ++ [last] := hreg ▸ hout
  have hne : cb ≠ last := fun hne => hcb (by simp [hne])
  refine ⟨_, _, exec_register (by rw [hrx, Option.getD_some]) (Callback.registerCb_of_notMem hchain
    fun hmem => hcb (List.mem_of_mem_tail hmem)), ⟨?_, h.grounded.link last cb⟩,
    fun hidle => absurd hidle hout⟩
  rw [after, if_neg hout, hreg, Function.update_comm (Ne.symm hne)]
  exact (Chain.snoc_iff (hchain.assign hcb none) hcb).mpr (Function.update_self _ _ _)

/-- One that is registered, the first only while it is alone: nothing changes. -/
theorem Held.register_again (h : Held s) (hin : cb ∈ s.registered)
    (halone : s.can.rxCbs = some cb → s.can.next cb = none) :
    ∃ n c, exec n s.can (.register cb) = some c ∧ s.Leaves (.register cb) c := by
  have hleaves : s.Leaves (.register cb) s.can := h.leaves_self (if_pos hin)
  obtain ⟨l₁, l₂, hreg⟩ := List.append_of_mem hin
  have hchain := hreg ▸ h.chain
  obtain ⟨rx, hrx⟩ := hchain.exists_eq_some
  have hgetD : s.can.rxCbs.getD cb = rx := by rw [hrx, Option.getD_some]
  have hcan : ⟨some rx, s.can.next⟩ = s.can := hrx ▸ rfl
  obtain rfl | ⟨m, a, rfl⟩ := List.eq_nil_or_concat' l₁
  · obtain rfl : rx = cb := Option.some.inj (hrx.symm.trans hchain.1)
    have hnull := halone hrx
    have hself : Chain s.can.next (some rx) ([] ++ [rx]) := ⟨rfl, hnull⟩
    have hbehind : rx ∉ ([] ++ [rx] : List ι).tail := List.not_mem_nil
    have hcall := Callback.registerCb_of_notMem hself hbehind
    rw [Function.update_idem, ← hnull, Function.update_eq_self] at hcall
    exact ⟨_, s.can, (exec_register hgetD hcall).trans (congrArg some hcan), hleaves⟩
  · rw [List.append_assoc, List.singleton_append, hrx] at hchain
    have hcall := Callback.registerCb_of_mem hchain
    exact ⟨_, s.can, (exec_register hgetD hcall).trans (congrArg some hcan), hleaves⟩

/-- One to unregister that is there: it is linked past. -/
theorem Held.unregister_mem (h : Held s) (hin : cb ∈ s.registered) :
    ∃ n c, exec n s.can (.unregister cb) = some c ∧ s.Leaves (.unregister cb) c := by
  obtain ⟨l₁, l₂, hreg⟩ := List.append_of_mem hin
  have hchain := hreg ▸ h.chain
  obtain rfl | ⟨m, a, rfl⟩ := List.eq_nil_or_concat' l₁
  · have hhead : s.can.rxCbs = some cb := hchain.1
    refine ⟨0, { s.can with rxCbs := s.can.next cb }, ?_, ⟨?_, h.grounded⟩,
      fun hidle => absurd hin hidle⟩
    · simp only [exec, CAN.unregisterCb, hhead, if_true]
    · rw [after, hreg, List.nil_append, List.erase_cons_head]
      exact hchain.2
  · rw [List.append_assoc, List.singleton_append] at hchain hreg
    obtain ⟨rx, hrx⟩ := hchain.exists_eq_some
    rw [hrx] at hchain
    have hne : rx ≠ cb := fun hne => hchain.notMem_front (hne ▸ hchain.start_mem)
    refine ⟨_, _, exec_unregister hrx hne (Callback.unregisterCb_of_mem hchain),
      ⟨?_, h.grounded.unlink hchain.next_eq⟩, fun hidle => absurd hin hidle⟩
    rw [after, hreg, hchain.erase_eq]
    exact hchain.unlink

/-- One that is not: nothing changes. -/
theorem Held.unregister_absent (h : Held s) (hout : cb ∉ s.registered) :
    ∃ n c, exec n s.can (.unregister cb) = some c ∧ s.Leaves (.unregister cb) c := by
  have hleaves : s.Leaves (.unregister cb) s.can := h.leaves_self (List.erase_of_not_mem hout)
  obtain hreg | ⟨m, last, hreg⟩ := List.eq_nil_or_concat' s.registered
  · refine ⟨0, s.can, ?_, hleaves⟩
    simp only [exec, CAN.unregisterCb, h.start_eq_none hreg]
  · have hchain := hreg ▸ h.chain
    obtain ⟨rx, hrx⟩ := hchain.exists_eq_some
    rw [hrx] at hchain
    have hcan : ⟨some rx, s.can.next⟩ = s.can := hrx ▸ rfl
    rw [hreg] at hout
    have hne : rx ≠ cb := fun hne => hout (hne ▸ hchain.start_mem)
    have hcall := Callback.unregisterCb_of_notMem hchain fun hmem =>
      hout (List.mem_of_mem_tail hmem)
    exact ⟨_, s.can, (exec_unregister hrx hne hcall).trans (congrArg some hcan), hleaves⟩

/-- **Every call keeps the set**, but for the first callback registered again in front of others. -/
theorem Held.exists_exec (h : Held s) {op : CallbackOp ι} (halone : ∀ n, HeadAlone s (op, n)) :
    ∃ n c, exec n s.can op = some c ∧ s.Leaves op c := by
  cases op with
  | register cb =>
    by_cases hin : cb ∈ s.registered
    · exact h.register_again hin (halone 0)
    · obtain hreg | ⟨l, last, hreg⟩ := List.eq_nil_or_concat' s.registered
      · exact h.register_first hreg
      · exact h.register_behind hreg hin
  | unregister cb =>
    by_cases hin : cb ∈ s.registered
    · exact h.unregister_mem hin
    · exact h.unregister_absent hin

/-! ## Whole histories -/

theorem turnFree_exec (c : CAN ι) (op : CallbackOp ι) : TurnFree fun n => exec n c op := by
  cases op with
  | register cb => exact ((Callback.turnFree_registerCb _ c.next cb).map _).map _
  | unregister cb =>
    obtain ⟨rxCbs, next⟩ := c
    cases rxCbs with
    | none => exact turnFree_some _
    | some rx =>
      simp only [exec, CAN.unregisterCb]
      split_ifs
      · exact turnFree_some _
      · exact (Callback.turnFree_unregisterCb rx next cb).map _

/-- **Registered again in front of others, the first callback loses them.** -/
theorem Held.headAlone_of_setOk (h : Held s) {a : CallbackOp ι × ℕ} (hok : SetOk s a) :
    HeadAlone s a := by
  obtain ⟨op, m⟩ := a
  cases op with
  | unregister cb => trivial
  | register cb =>
    intro hhead
    obtain ⟨n, c, hc, hafter, -⟩ := hok
    obtain ⟨rest, hrest⟩ := List.head?_eq_some_iff.mp (h.chain.eq_head?.symm.trans hhead)
    have hchain : Chain s.can.next (some cb) (cb :: rest) := hhead ▸ hrest ▸ h.chain
    have hin : cb ∈ s.registered := hrest ▸ List.mem_cons_self
    obtain ⟨l, last, hl⟩ :=
      (List.eq_nil_or_concat' (cb :: rest)).resolve_left (List.cons_ne_nil _ _)
    have hcb : cb ∉ (l ++ [last]).tail := hl ▸ hchain.notMem_tail
    -- the call clears its `next`
    have hcall := exec_register (c := s.can) (by rw [hhead, Option.getD_some])
      (Callback.registerCb_of_notMem (hl ▸ hchain) hcb)
    obtain rfl := turnFree_exec _ _ hc hcall
    rw [after, if_pos hin, hrest] at hafter
    have hnull := hafter.2
    simp only [Function.update_self] at hnull
    cases rest with
    | nil => exact hchain.2
    | cons b rest => cases hnull.1

theorem Held.setOk_iff (h : Held s) (a : CallbackOp ι × ℕ) : SetOk s a ↔ HeadAlone s a := by
  refine ⟨h.headAlone_of_setOk, fun halone => ?_⟩
  obtain ⟨n, c, hc, hheld, hidle⟩ := h.exists_exec fun _ => halone
  exact ⟨n, c, hc, hheld.chain, hidle⟩

theorem Held.step (h : Held s) {a : CallbackOp ι × ℕ} (halone : HeadAlone s a)
    (hst : machine.step s a = some t) : Held t := by
  obtain ⟨c, hc, rfl⟩ := Option.map_eq_some_iff.mp hst
  obtain ⟨n, c', hc', hheld, -⟩ := h.exists_exec fun _ => halone
  rw [turnFree_exec _ _ hc hc']
  exact hheld

/-- **The callbacks of an interface are a set in order over a whole history exactly while the first
of them is never registered again in front of others.** -/
theorem along_setOk_iff (ops : List (CallbackOp ι × ℕ)) :
    machine.Along SetOk start ops ↔ machine.Along HeadAlone start ops :=
  Machine.along_iff_along held_start (fun _ a h => h.setOk_iff a)
    fun _ _ _ h halone hst => h.step halone hst

/-- Two callbacks registered. -/
def twoRegistered : List (CallbackOp ℕ × ℕ) := [(.register 0, 1), (.register 1, 1)]

/-- Where that leads. -/
def bothHeld : RxCallbacks ℕ := (machine.run start twoRegistered).get (by decide)

/-- **Registered again, the first callback drops the second**, which is called no more. -/
theorem not_forall_along_setOk :
    ¬ ∀ ops : List (CallbackOp ℕ × ℕ), machine.Along SetOk start ops := by
  intro h
  have hbad : ¬ SetOk bothHeld (.register 0, 2) := by
    rintro ⟨n, c, hc, hafter, -⟩
    have hret : exec 2 bothHeld.can (.register 0) = some ⟨some 0,
        Function.update (Function.update bothHeld.can.next 1 (some 0)) 0 none⟩ := rfl
    obtain rfl := turnFree_exec _ _ hc hret
    revert hafter
    decide
  exact Machine.not_along_iff.mpr ⟨twoRegistered, _, [], bothHeld, rfl,
    (Option.some_get _).symm, hbad⟩ (h (twoRegistered ++ [(.register 0, 2)]))

end RxCallbacks

end LibDronecan
