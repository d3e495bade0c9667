import LibDronecan.Pal.Callbacks

/-!
# Pal/CallAll — `call_all`, and callbacks that leave while they are called

    h ──▸ a ──▸ b ──▸ null       next_cb is a, and the call of a unregisters it from h
    h ──────▸ b ──▸ null         a.next is still b: there the walk goes on

`call_all` reads the `next` of a callback only after it has called it.  `unregister_cb` links past a
callback and leaves that field as it is, so one that leaves in its own call does not take the rest
with it (`exists_callAll`); `register_cb` clears the field when it comes back.  `along_serves`: over
a whole history, the callbacks of a head are a set in order, and each is called once.
-/

open Machinery

namespace LibDronecan

namespace Callback

variable {ι : Type*} [DecidableEq ι]

/-- Halfway through `call_all`: the callback to call, those called, and the `next` fields. -/
structure Delivery (ι : Type*) where
  nextCb : Option ι
  called : List ι
  next : ι → Option ι

/-- One turn of `call_all` on `this`.  The callbacks of `leaves` unregister themselves while they
are called, each with `n` turns of the loop in there. -/
def callTurn (this : ι) (leaves : ι → Bool) (n : ℕ) (d : Delivery ι) :
    Turn (Delivery ι) (Option (Delivery ι)) :=
  match d.nextCb with
  | none => .leave (some d)
  | some cb =>
      match if leaves cb then unregisterCb this d.next cb n else some d.next with
      | none => .leave none
      | some next => .again ⟨next cb, d.called ++ [cb], next⟩

/-- `Callback::call_all` on `this`. -/
def callAll (this : ι) (leaves : ι → Bool) (next : ι → Option ι) (n : ℕ) :
    Option (Delivery ι) :=
  (loop (callTurn this leaves n) n ⟨next this, [], next⟩).join

variable {next : ι → Option ι} {this cb : ι} {leaves : ι → Bool} {l done todo : List ι} {m n : ℕ}

theorem registerCb_of_le (hmn : m ≤ n) {r : Bool × (ι → Option ι)}
    (h : registerCb this next cb m = some r) : registerCb this next cb n = some r := by
  unfold registerCb at h ⊢
  split_ifs at h ⊢
  · exact h
  · exact loop_of_le hmn h

theorem unregisterCb_of_le (hmn : m ≤ n) {next' : ι → Option ι}
    (h : unregisterCb this next cb m = some next') : unregisterCb this next cb n = some next' := by
  unfold unregisterCb at h ⊢
  split_ifs at h ⊢
  · exact h
  · exact loop_of_le hmn h

/-- Whatever turns it is given, `call_all` comes back the same way. -/
theorem turnFree_callAll (this : ι) (leaves : ι → Bool) (next : ι → Option ι) :
    TurnFree (callAll this leaves next) := by
  refine turnFree_nested (fun m n hmn d => ?_) (⟨next this, [], next⟩ : Delivery ι)
  cases hcb : d.nextCb with
  | none => exact Or.inr (by simp only [callTurn, hcb])
  | some cb =>
    cases hleaves : leaves cb with
    | false => exact Or.inr (by simp only [callTurn, hcb, hleaves, Bool.false_eq_true, if_false])
    | true =>
      cases hret : unregisterCb this d.next cb m with
      | none => exact Or.inl (by simp only [callTurn, hcb, hleaves, if_true, hret])
      | some next' =>
        exact Or.inr (by simp only [callTurn, hcb, hleaves, if_true, hret,
          unregisterCb_of_le hmn hret])

/-- **`register_cb` on the head of a list** puts a callback at the end, unless it is on it. -/
theorem exists_registerCb (h : Chain next (some this) (this :: l)) (hne : cb ≠ this) :
    ∃ n next', registerCb this next cb n = some (true, next') ∧
      Chain next' (some this) (this :: if cb ∈ l then l else l ++ [cb]) := by
  by_cases hin : cb ∈ l
  · obtain ⟨s, t, rfl⟩ := List.append_of_mem hin
    obtain ⟨s', a, hs, -⟩ := exists_cons_eq_concat this s
    have hchain : Chain next (some this) (s' ++ a :: cb :: t) := by
      rw [List.append_cons, ← hs]
      exact h
    exact ⟨_, next, registerCb_of_mem hchain, by rwa [if_pos hin]⟩
  · obtain ⟨s, last, hs, -⟩ := exists_cons_eq_concat this l
    have hcb : cb ∉ s ++ [last] := by
      rw [← hs]
      exact List.not_mem_cons_of_ne_of_not_mem hne hin
    have hlast : cb ≠ last := fun hlast => hcb (by simp [hlast])
    rw [hs] at h
    refine ⟨_, _, registerCb_of_notMem h fun hmem => hcb (List.mem_of_mem_tail hmem), ?_⟩
    rw [if_neg hin, ← List.cons_append, hs, Function.update_comm (Ne.symm hlast)]
    exact (Chain.snoc_iff (h.assign hcb none) hcb).mpr (Function.update_self _ _ _)

/-- **`unregister_cb` on the head of a list** takes a callback off it, and leaves the `next` of that
one as it is. -/
theorem exists_unregisterCb (h : Chain next (some this) (this :: l)) (hne : cb ≠ this)
    (hn : l.length < n) :
    ∃ next', unregisterCb this next cb n = some next' ∧
      Chain next' (some this) (this :: l.erase cb) ∧ next' cb = next cb := by
  by_cases hin : cb ∈ l
  · obtain ⟨s, t, rfl⟩ := List.append_of_mem hin
    obtain ⟨s', a, hs, hlen⟩ := exists_cons_eq_concat this s
    have hsplit : this :: (s ++ cb :: t) = s' ++ a :: cb :: t := by
      rw [List.append_cons s' a, ← hs, List.cons_append]
    rw [hsplit] at h
    have hcb : cb ≠ a := fun hca => h.notMem_front (by simp [hca])
    refine ⟨_, unregisterCb_of_le ?_ (unregisterCb_of_mem h), ?_, Function.update_of_ne hcb _ _⟩
    · rw [List.length_append] at hn
      omega
    · rw [← List.erase_cons_tail (by simpa using hne.symm), hsplit, h.erase_eq]
      exact h.unlink
  · obtain ⟨s, last, hs, hlen⟩ := exists_cons_eq_concat this l
    have hcb : cb ∉ (s ++ [last]).tail := hs ▸ hin
    refine ⟨next, unregisterCb_of_le (by omega) (unregisterCb_of_notMem (hs ▸ h) hcb), ?_, rfl⟩
    rwa [List.erase_of_not_mem hin]

/-! ## The walk -/

/-- **The invariant**, between `done` and `todo`: the list is those of the former that stayed, and
the latter, of which the first is next. -/
structure Midway (this : ι) (leaves : ι → Bool) (done todo : List ι) (d : Delivery ι) : Prop where
  chain : Chain d.next (some this) (this :: (done.filter (fun cb => !leaves cb) ++ todo))
  nextCb : d.nextCb = todo.head?
  called : d.called = done

/-- **A turn calls the next callback**, whether it stays or leaves. -/
theorem Midway.exists_turn {d : Delivery ι} (h : Midway this leaves done (cb :: todo) d)
    (hn : (done ++ cb :: todo).length < n) :
    ∃ d', callTurn this leaves n d = .again d' ∧ Midway this leaves (done ++ [cb]) todo d' := by
  have hnext : d.next cb = todo.head? := by
    have hchain := h.chain
    rw [← List.cons_append] at hchain
    exact hchain.next_eq
  have hnodup := List.nodup_cons.mp h.chain.nodup
  cases hleaves : leaves cb with
  | false =>
    refine ⟨⟨d.next cb, d.called ++ [cb], d.next⟩, ?_, ?_, hnext, by rw [h.called]⟩
    · simp only [callTurn, h.nextCb, List.head?_cons, hleaves, Bool.false_eq_true, if_false]
    · rw [filter_concat_append_of_pos (by simp [hleaves])]
      exact h.chain
  | true =>
    have hne : cb ≠ this := fun hthis => hnodup.1 (by simp [hthis])
    have hlen : (done.filter (fun cb => !leaves cb) ++ cb :: todo).length < n :=
      (length_filter_append_le _ _ _).trans_lt hn
    obtain ⟨next', hret, hchain, hsame⟩ := exists_unregisterCb h.chain hne hlen
    refine ⟨⟨next' cb, d.called ++ [cb], next'⟩, ?_, ?_, hsame.trans hnext, by rw [h.called]⟩
    · simp only [callTurn, h.nextCb, List.head?_cons, hleaves, if_true, hret]
    · rw [← Chain.erase_filter h.chain.2 (by simp [hleaves])]
      exact hchain

/-- **`call_all` calls each callback of the list once**, in order, and leaves on it those that did
not leave. -/
theorem exists_callAll (h : Chain next (some this) (this :: l)) (leaves : ι → Bool) :
    ∃ n next', callAll this leaves next n = some ⟨none, l, next'⟩ ∧
      Chain next' (some this) (this :: l.filter fun cb => !leaves cb) := by
  have hloop : ∃ r, loop (callTurn this leaves (l.length + 1)) (l.length + 1)
      ⟨next this, [], next⟩ = some r ∧ ∃ next', r = some ⟨none, l, next'⟩ ∧
        Chain next' (some this) (this :: l.filter fun cb => !leaves cb) :=
    loop_of_walk (I := Midway this leaves)
      (fun done cb todo d hl hd => by
        have hn : (done ++ cb :: todo).length < l.length + 1 := by
          rw [hl]
          omega
        exact hd.exists_turn hn)
      (fun d hd => by
        obtain ⟨nextCb, called, next'⟩ := d
        obtain rfl : nextCb = none := hd.nextCb
        obtain rfl : called = l := hd.called
        refine ⟨_, rfl, next', rfl, ?_⟩
        rw [← List.append_nil (called.filter _)]
        exact hd.chain)
      ⟨h, h.2.eq_head?, rfl⟩
  obtain ⟨_, hloop, next', rfl, hchain⟩ := hloop
  refine ⟨l.length + 1, next', ?_, hchain⟩
  rw [callAll, hloop]
  rfl

end Callback

/-- A call on the head `h`; the callbacks are others. -/
inductive HeadOp {ι : Type*} (h : ι) where
  | register (cb : { cb : ι // cb ≠ h })
  | unregister (cb : { cb : ι // cb ≠ h })
  | callAll (leaves : ι → Bool)

/-- The `next` fields of a head and its callbacks, and those registered with it, in order. -/
structure HeadCallbacks (ι : Type*) where
  next : ι → Option ι
  registered : List ι

namespace HeadCallbacks

variable {ι : Type*} [DecidableEq ι] (h : ι)

/-- The head as `Callback::Callback` leaves it. -/
def start (next : ι → Option ι) : HeadCallbacks ι := ⟨Function.update next h none, []⟩

/-- The call, given `n` turns of its loops: the callbacks it invokes, and the fields it leaves. -/
def exec (n : ℕ) (next : ι → Option ι) : HeadOp h → Option (List ι × (ι → Option ι))
  | .register cb => (Callback.registerCb h next cb n).map fun r => ([], r.2)
  | .unregister cb => (Callback.unregisterCb h next cb n).map fun next => ([], next)
  | .callAll leaves => (Callback.callAll h leaves next n).map fun d => (d.called, d.next)

/-- The callbacks to be invoked in a call. -/
def invoked (s : HeadCallbacks ι) : HeadOp h → List ι
  | .register _ => []
  | .unregister _ => []
  | .callAll _ => s.registered

/-- Those registered after it. -/
def after (s : HeadCallbacks ι) : HeadOp h → List ι
  | .register cb => if ↑cb ∈ s.registered then s.registered else s.registered ++ [↑cb]
  | .unregister cb => s.registered.erase ↑cb
  | .callAll leaves => s.registered.filter fun cb => !leaves cb

/-- Calls that return, each with the turns it is given. -/
def machine : Machine (HeadCallbacks ι) (HeadOp h × ℕ) where
  step s a := (exec h a.2 s.next a.1).map fun r => ⟨r.2, s.after h a.1⟩

/-- **The call serves the callbacks registered**, a set in order: it returns, having invoked those
it is to invoke, each once, and the list is those registered after it. -/
def Serves (s : HeadCallbacks ι) (a : HeadOp h × ℕ) : Prop :=
  ∃ n next, exec h n s.next a.1 = some (s.invoked h a.1, next) ∧ (s.invoked h a.1).Nodup ∧
    Chain next (next h) (s.after h a.1) ∧ (s.after h a.1).Nodup

/-- **The invariant**: the list behind the head is the callbacks registered. -/
def Held (s : HeadCallbacks ι) : Prop := Chain s.next (some h) (h :: s.registered)

variable {h} {s t : HeadCallbacks ι}

theorem held_start (next : ι → Option ι) : Held h (start h next) := by
  have hnull : (start h next).next h = none := Function.update_self _ _ _
  exact ⟨rfl, hnull⟩

omit [DecidableEq ι] in
theorem Held.nodup (hs : Held h s) : s.registered.Nodup := (List.nodup_cons.mp (Chain.nodup hs)).2

/-- **Every call keeps the set.** -/
theorem Held.exists_exec (hs : Held h s) (op : HeadOp h) :
    ∃ n next, exec h n s.next op = some (s.invoked h op, next) ∧ Held h ⟨next, s.after h op⟩ := by
  cases op with
  | register cb =>
    obtain ⟨n, next, hret, hchain⟩ := Callback.exists_registerCb hs cb.2
    exact ⟨n, next, by rw [exec, hret]; rfl, hchain⟩
  | unregister cb =>
    obtain ⟨next, hret, hchain, -⟩ :=
      Callback.exists_unregisterCb hs cb.2 (Nat.lt_succ_self s.registered.length)
    exact ⟨_, next, by rw [exec, hret]; rfl, hchain⟩
  | callAll leaves =>
    obtain ⟨n, next, hret, hchain⟩ := Callback.exists_callAll hs leaves
    exact ⟨n, next, by rw [exec, hret]; rfl, hchain⟩

theorem turnFree_exec (next : ι → Option ι) (op : HeadOp h) :
    TurnFree fun n => exec h n next op := by
  cases op with
  | register cb => exact (Callback.turnFree_registerCb h next cb).map _
  | unregister cb => exact (Callback.turnFree_unregisterCb h next cb).map _
  | callAll leaves => exact (Callback.turnFree_callAll h leaves next).map _

theorem Held.serves (hs : Held h s) (a : HeadOp h × ℕ) : Serves h s a := by
  obtain ⟨n, next, hret, hheld⟩ := hs.exists_exec a.1
  refine ⟨n, next, hret, ?_, hheld.2, hheld.nodup⟩
  cases a.1 with
  | register cb => exact List.nodup_nil
  | unregister cb => exact List.nodup_nil
  | callAll leaves => exact hs.nodup

theorem Held.step (hs : Held h s) {a : HeadOp h × ℕ} (hst : (machine h).step s a = some t) :
    Held h t := by
  obtain ⟨r, hr, rfl⟩ := Option.map_eq_some_iff.mp hst
  obtain ⟨n, next, hret, hheld⟩ := hs.exists_exec a.1
  obtain rfl := turnFree_exec s.next a.1 hr hret
  exact hheld

/-- **Every call in every history serves the callbacks registered**, whichever of them leave while
they are called. -/
theorem along_serves (h : ι) (next : ι → Option ι) (ops : List (HeadOp h × ℕ)) :
    (machine h).Along (Serves h) (start h next) ops :=
  Machine.along_of_step (held_start next) (fun _ a hs => hs.serves a)
    (fun _ _ _ hs hst => hs.step hst) ops

end HeadCallbacks

end LibDronecan
