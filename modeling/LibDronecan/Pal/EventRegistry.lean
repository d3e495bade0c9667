import LibDronecan.Machinery.Loop
import LibDronecan.Machinery.Run
import LibDronecan.Pal.Thread

/-!
# Pal/EventRegistry — the ids that `register_evt` hands out

    registered_events   … 0 1 0 1 1 1          while ((registered & (1 << id)) && id < 32) id++
                              ▲
                              the first id that is free

The search shifts by `id` before it compares `id` with 32, so a mask with no free bit would have it
test a bit that is not there.  The test for a full mask before the loop is what prevents that
(`loop_searchTurn`).  Whoever gives back only ids of its own then keeps `registered_events` the set
of the ids that are out, and no id is out twice (`always_idsOk`).
-/

open Machinery Machinery.Mask

namespace LibDronecan

namespace Thread

/-- A turn of the search, at `id`.  A shift by 32 or more has no value: it leaves with none. -/
def searchTurn (registeredEvents : EventMask) (id : ℕ) : Turn ℕ (Option ℕ) :=
  if 32 ≤ id then .leave none
  else if registeredEvents &&& BitVec.twoPow 32 id ≠ 0 ∧ id < 32 then .again (id + 1)
  else .leave (some id)

/-- `Thread::register_evt` with its search, given `n` turns of it: the id, if there is one, and the
thread; `some none` if a shift had no value. -/
def registerEvtLoop (t : Thread) (n : ℕ) : Option (Option (Option ℕ × Thread)) :=
  if t.registeredEvents = 0xFFFFFFFF then some (some (none, t))
  else
    (loop (searchTurn t.registeredEvents) n 0).map fun found => found.map fun id =>
      if id = 32 then (none, t)
      else (some id, { t with registeredEvents := t.registeredEvents ||| BitVec.twoPow 32 id })

variable {t : Thread} {m : EventMask} {i k n : ℕ}

/-! ## The search -/

/-- A full mask has all of its bits. -/
theorem mem_full : k ∈ (0xFFFFFFFF : EventMask) ↔ k < 32 := by
  have hones : (0xFFFFFFFF : EventMask) = BitVec.allOnes 32 := by decide
  rw [hones, mem_def, BitVec.getLsbD_allOnes, decide_eq_true_eq]

/-- The test of one bit. -/
theorem and_twoPow_eq_zero_iff (hlt : k < 32) : m &&& BitVec.twoPow 32 k = 0 ↔ k ∉ m := by
  rw [and_eq_zero_iff]
  constructor
  · exact fun h hk => h k hk ((mem_twoPow hlt).mpr rfl)
  · intro hk j hj hjk
    rw [mem_twoPow hlt] at hjk
    exact hk (hjk ▸ hj)

theorem searchTurn_of_mem (hk : k ∈ m) : searchTurn m k = .again (k + 1) := by
  have hlt := lt_of_mem hk
  have hbit := (and_twoPow_eq_zero_iff hlt).not.mpr (not_not.mpr hk)
  rw [searchTurn, if_neg hlt.not_ge, if_pos ⟨hbit, hlt⟩]

theorem searchTurn_of_notMem (hlt : k < 32) (hk : k ∉ m) : searchTurn m k = .leave (some k) := by
  have hbit := (and_twoPow_eq_zero_iff hlt).mpr hk
  rw [searchTurn, if_neg hlt.not_ge, if_neg fun h => h.1 hbit]

/-- **The search stops at the first free id**, and tests no bit beyond it. -/
theorem loop_searchTurn (hi : i < 32) (hfree : i ∉ m) (hused : ∀ j < i, j ∈ m) :
    loop (searchTurn m) (i + 1) 0 = some (some i) := by
  have hfrom (d : ℕ) (hd : d ≤ i) : loop (searchTurn m) (d + 1) (i - d) = some (some i) := by
    induction d with
    | zero => exact loop_of_leave (searchTurn_of_notMem hi hfree) 0
    | succ d ih =>
      have hnext : i - (d + 1) + 1 = i - d := by omega
      rw [loop_of_again (searchTurn_of_mem (hused _ (by omega))), hnext]
      exact ih (by omega)
  simpa using hfrom i le_rfl

/-- A mask that is not full has a first free id. -/
theorem exists_first_free (hm : m ≠ 0xFFFFFFFF) : ∃ i < 32, i ∉ m ∧ ∀ j < i, j ∈ m := by
  have hsome : ∃ i, i < 32 ∧ i ∉ m := by
    by_contra! hall
    exact hm (ext_mem fun i => ⟨fun hi => mem_full.mpr (lt_of_mem hi),
      fun hi => hall i (mem_full.mp hi)⟩)
  obtain ⟨hlt, hfree⟩ := Nat.find_spec hsome
  refine ⟨_, hlt, hfree, fun j hj => ?_⟩
  by_contra hout
  exact Nat.find_min hsome hj ⟨hj.trans hlt, hout⟩

/-- **What `register_evt` does**, whatever turns it is given: with all ids out, nothing; else it
hands out the first one that is free. -/
theorem registerEvtLoop_cases (t : Thread) :
    (t.registeredEvents = 0xFFFFFFFF ∧ ∀ n, t.registerEvtLoop n = some (some (none, t))) ∨
    ∃ i < 32, i ∉ t.registeredEvents ∧ (∀ j < i, j ∈ t.registeredEvents) ∧
      (∀ n r, t.registerEvtLoop n = some r → r = some (some i, { t with
        registeredEvents := t.registeredEvents ||| BitVec.twoPow 32 i })) ∧
      ∀ n, i < n → ∃ r, t.registerEvtLoop n = some r := by
  by_cases hfull : t.registeredEvents = 0xFFFFFFFF
  · exact .inl ⟨hfull, fun n => if_pos hfull⟩
  · obtain ⟨i, hi, hfree, hused⟩ := exists_first_free hfull
    have hloop := loop_searchTurn hi hfree hused
    refine .inr ⟨i, hi, hfree, hused, fun n r hret => ?_, fun n hn => ?_⟩
    · rw [registerEvtLoop, if_neg hfull] at hret
      obtain ⟨found, hfound, rfl⟩ := Option.map_eq_some_iff.mp hret
      obtain rfl := loop_unique hloop hfound
      rw [Option.map_some, if_neg hi.ne]
    · rw [registerEvtLoop, if_neg hfull, loop_of_le hn hloop]
      exact ⟨_, rfl⟩

/-- **The search finds what `registerEvt` takes for found.** -/
theorem registerEvtLoop_eq (t : Thread) (hn : 32 ≤ n) :
    t.registerEvtLoop n = some (some t.registerEvt) := by
  obtain ⟨hfull, hret⟩ | ⟨i, hi, hfree, hused, hret, hreturns⟩ := registerEvtLoop_cases t
  · rw [hret, registerEvt, if_pos hfull]
  · have hnotFull : t.registeredEvents ≠ 0xFFFFFFFF := fun hfull =>
      hfree (hfull ▸ mem_full.mpr hi)
    have hfind : ((List.range 32).find? fun id => t.registeredEvents &&& BitVec.twoPow 32 id = 0)
        = some i := by
      refine List.find?_range_eq_some.mpr
        ⟨decide_eq_true ((and_twoPow_eq_zero_iff hi).mpr hfree), List.mem_range.mpr hi,
          fun j hj => ?_⟩
      rw [Bool.not_eq_true', decide_eq_false_iff_not, and_twoPow_eq_zero_iff (hj.trans hi)]
      exact not_not.mpr (hused j hj)
    obtain ⟨r, hr⟩ := hreturns n (by omega)
    rw [hr, hret n r hr, registerEvt, if_neg hnotFull, hfind]

end Thread

/-- A call that takes an id, given the turns of its search, or gives one back. -/
inductive EventRegistryOp where
  | register (turns : ℕ)
  | unregister (id : ℕ)

/-- A thread's events, and the ids that are out. -/
structure EventRegistry where
  thread : Thread
  live : List ℕ

namespace EventRegistry

/-- No event registered. -/
def start (signalledEvents : EventMask) : EventRegistry := ⟨⟨0, signalledEvents⟩, []⟩

/-- One call.  Only an id that is out is given back. -/
def step (s : EventRegistry) : EventRegistryOp → Option EventRegistry
  | .register n =>
      match s.thread.registerEvtLoop n with
      | some (some (some id, thread)) => some ⟨thread, s.live ++ [id]⟩
      | some (some (none, thread)) => some { s with thread := thread }
      | _ => none
  | .unregister id =>
      if id ∈ s.live then some ⟨s.thread.unregisterEvt id, s.live.erase id⟩ else none

def machine : Machine EventRegistry EventRegistryOp := ⟨step⟩

/-- **The ids that are out** are different ones from 0 to 31 and the bits of `registered_events`;
and the next call of `register_evt` returns, with the smallest that is free, or with none and
nothing changed exactly if all 32 are out, and tests no bit that is not there. -/
structure IdsOk (s : EventRegistry) : Prop where
  nodup : s.live.Nodup
  lt : ∀ id ∈ s.live, id < 32
  bits : ∀ id, id ∈ s.thread.registeredEvents ↔ id ∈ s.live
  returns : ∃ n r, s.thread.registerEvtLoop n = some r
  defined : ∀ n, s.thread.registerEvtLoop n ≠ some none
  smallest : ∀ n id t, s.thread.registerEvtLoop n = some (some (some id, t)) →
    id < 32 ∧ id ∉ s.live ∧ ∀ j < id, j ∈ s.live
  full : ∀ n r t, s.thread.registerEvtLoop n = some (some (r, t)) →
    (r = none ↔ ∀ id < 32, id ∈ s.live)
  unchanged : ∀ n t, s.thread.registerEvtLoop n = some (some (none, t)) → t = s.thread

variable {s t : EventRegistry} {op : EventRegistryOp}

/-- **The invariant**: no id is out twice, and those that are out are the bits. -/
structure Registered (s : EventRegistry) : Prop where
  nodup : s.live.Nodup
  bits : ∀ id, id ∈ s.thread.registeredEvents ↔ id ∈ s.live

theorem registered_start (signalledEvents : EventMask) : Registered (start signalledEvents) :=
  ⟨List.nodup_nil, fun _ => iff_of_false notMem_zero List.not_mem_nil⟩

theorem Registered.unregister (h : Registered s) {id : ℕ} (hid : id ∈ s.live) :
    Registered ⟨s.thread.unregisterEvt id, s.live.erase id⟩ where
  nodup := h.nodup.erase id
  bits i := by
    rw [Thread.mem_unregisterEvt ((h.bits id).mpr hid), h.nodup.mem_erase_iff, h.bits]
    exact and_comm

/-- A free id goes out. -/
theorem Registered.register (h : Registered s) {id : ℕ} (hlt : id < 32)
    (hfree : id ∉ s.thread.registeredEvents) :
    Registered ⟨{ s.thread with
      registeredEvents := s.thread.registeredEvents ||| BitVec.twoPow 32 id }, s.live ++ [id]⟩ where
  nodup := List.concat_eq_append ▸ h.nodup.concat ((h.bits id).not.mp hfree)
  bits i := by
    change i ∈ s.thread.registeredEvents ||| BitVec.twoPow 32 id ↔ _
    rw [mem_or, mem_twoPow hlt, h.bits, List.mem_append, List.mem_singleton]

theorem Registered.step (h : Registered s) (hst : s.step op = some t) : Registered t := by
  cases op with
  | unregister id =>
    simp only [EventRegistry.step] at hst
    split_ifs at hst with hid
    exact Option.some.inj hst ▸ h.unregister hid
  | register n =>
    obtain ⟨-, hnone⟩ | ⟨i, hi, hfree, -, hret, -⟩ := s.thread.registerEvtLoop_cases
    · simp only [EventRegistry.step, hnone] at hst
      exact Option.some.inj hst ▸ h
    · simp only [EventRegistry.step] at hst
      cases hloop : s.thread.registerEvtLoop n with
      | none =>
        rw [hloop] at hst
        cases hst
      | some r =>
        rw [hloop, hret n r hloop] at hst
        exact Option.some.inj hst ▸ h.register hi hfree

theorem Registered.idsOk (h : Registered s) : IdsOk s := by
  have hlt : ∀ id ∈ s.live, id < 32 := fun id hid => lt_of_mem ((h.bits id).mpr hid)
  obtain ⟨hfull, hnone⟩ | ⟨i, hi, hfree, hused, hret, hreturns⟩ := s.thread.registerEvtLoop_cases
  · have hall : ∀ id < 32, id ∈ s.live := fun id hid =>
      (h.bits id).mp (hfull ▸ Thread.mem_full.mpr hid)
    refine ⟨h.nodup, hlt, h.bits, ⟨0, _, hnone 0⟩, fun n hret => ?_, fun n id t hret => ?_,
      fun n r t hret => ?_, fun n t hret => ?_⟩
    · rw [hnone] at hret
      cases hret
    · rw [hnone] at hret
      cases hret
    · rw [hnone] at hret
      obtain ⟨rfl, rfl⟩ := Prod.mk.inj (Option.some.inj (Option.some.inj hret))
      exact iff_of_true rfl hall
    · rw [hnone] at hret
      obtain ⟨-, rfl⟩ := Prod.mk.inj (Option.some.inj (Option.some.inj hret))
      rfl
  · have hfree' : i ∉ s.live := (h.bits i).not.mp hfree
    refine ⟨h.nodup, hlt, h.bits, ⟨i + 1, hreturns _ (Nat.lt_succ_self i)⟩,
      fun n hloop => (nomatch hret n none hloop), fun n id t hloop => ?_,
      fun n r t hloop => ?_, fun n t hloop => ?_⟩
    · obtain ⟨hid, -⟩ := Prod.mk.inj (Option.some.inj (hret n _ hloop))
      obtain rfl := Option.some.inj hid
      exact ⟨hi, hfree', fun j hj => (h.bits j).mp (hused j hj)⟩
    · obtain ⟨rfl, -⟩ := Prod.mk.inj (Option.some.inj (hret n _ hloop))
      exact iff_of_false (Option.some_ne_none i) fun hall => hfree' (hall i hi)
    · obtain ⟨hid, -⟩ := Prod.mk.inj (Option.some.inj (hret n _ hloop))
      cases hid

/-- **Live ids are unique**, and `register_evt` hands out the smallest free one, after every
history. -/
theorem always_idsOk (signalledEvents : EventMask) (ops : List EventRegistryOp) :
    machine.Always IdsOk (start signalledEvents) ops :=
  (Machine.always_of_step (registered_start signalledEvents) (fun _ _ _ h hst => h.step hst)
    ops).mono fun _ h => h.idsOk

end EventRegistry

end LibDronecan
