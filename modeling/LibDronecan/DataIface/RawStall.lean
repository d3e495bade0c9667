import LibDronecan.DataIface.RawCodec
import LibDronecan.DataIface.RawDecode

/-!
# DataIface/RawStall — a ring that no pop gets anything out of

    available > 0, byte at tail ≠ 0x34  ──push, pop──▸  the same

`pop` leaves the tail where it is when the byte there is not a header, and `push` writes behind the
unread bytes only; so a ring in that state stays in it (`Stalled`), and it is the one way a ring of
seven bytes or more can be dead (`exists_pop_iff`).  `Traffic` keeps what a ring was sent and what
it gave.  After a power-up, when every byte is zero, the first pop that succeeds stalls the ring
(`Fresh.pop`): one frame gets through, and the ring fills up behind it
(`PoweredUp.got_at_most_first`).
-/

open Machinery

namespace LibDronecan

namespace Buffer

variable {b : Buffer}

/-- **The ring is stalled**: there are unread bytes, and the first of them is no header. -/
structure Stalled (b : Buffer) : Prop where
  wf : b.Wf
  available_pos : 0 < b.available
  header_ne : b.peekbyte 0 ≠ frameHeader1

theorem Stalled.pop_eq (h : b.Stalled) (frame : CanardCANFrame) : b.pop frame = (false, frame, b) :=
  pop_of_peekbyte_ne h.header_ne frame

/-- A peek after an advance is a peek further on. -/
theorem peekbyte_advance (b : Buffer) (k j : ℕ) :
    (b.advance k).peekbyte j = b.peekbyte (k + j) := by
  simp only [peekbyte, advance, Nat.mod_add_mod]
  rw [Nat.add_right_comm, Nat.add_comm, Nat.add_left_comm]

/-- A byte is written at `head`, which is `available()` cells after `tail`. -/
theorem peekbyte_pushbyte (hb : b.Wf) (x : Byte) {k : ℕ} (hk : b.available < k) (hks : k < b.size) :
    (b.pushbyte x).peekbyte k = b.peekbyte k := by
  refine Function.update_of_ne ?_ _ _
  rw [hb.head_eq]
  exact (add_mod_ne (n := b.size) hk (by omega)).symm

/-- **A push leaves the cells alone that lie behind what it writes.** -/
theorem peekbyte_pushBytes (hb : b.Wf) (l : List Byte) {k : ℕ} (hk : b.available + l.length ≤ k)
    (hks : k < b.size) : (b.pushBytes l).peekbyte k = b.peekbyte k := by
  induction l generalizing b with
  | nil => rfl
  | cons x l ih =>
    rw [List.length_cons] at hk
    have hav := available_pushbyte hb x (show b.available + 1 < b.size by omega)
    rw [pushBytes_cons, ih (hb.pushbyte x) (by omega) hks, peekbyte_pushbyte hb x (by omega) hks]

/-- The first unread byte is the one `pop` looks at. -/
theorem unread_zero (h : 0 < b.available) : b.unread[0]? = some (b.peekbyte 0) := by
  rw [unread, getElem?_window _ h]
  rfl

/-- Bytes appended to a stalled ring do not change where it is stalled. -/
theorem Stalled.pushBytes (h : b.Stalled) (l : List Byte) (hl : b.available + l.length < b.size) :
    (b.pushBytes l).Stalled := by
  refine ⟨h.wf.pushBytes l, ?_, ?_⟩
  · rw [available_pushBytes h.wf hl]
    have := h.available_pos
    omega
  · have hzero : (b.pushBytes l).unread[0]? = some (b.peekbyte 0) := by
      rw [unread_pushBytes h.wf l hl,
        List.getElem?_append_left (by simpa using h.available_pos), unread_zero h.available_pos]
    rw [peekbyte_eq hzero]
    exact h.header_ne

end Buffer

open Buffer

/-- A ring, the frames it accepted and what the frames it gave looked like, both oldest first. -/
structure Traffic where
  ring : Buffer
  sent : List CanardCANFrame
  got : List (Word × Byte × List Byte)

namespace Traffic

/-- A ring just reset. -/
def start (b : Buffer) : Traffic := ⟨b.reset, [], []⟩

/-- One call. -/
def next (s : Traffic) : RingOp → Traffic
  | .push frame =>
      { s with
        ring := (s.ring.push frame).2
        sent := if (s.ring.push frame).1 then s.sent ++ [frame] else s.sent }
  | .pop frame =>
      { s with
        ring := (s.ring.pop frame).2.2
        got := if (s.ring.pop frame).1 then s.got ++ [(s.ring.pop frame).2.1.view] else s.got }

/-- Calls on the ring, any of them at any time. -/
def machine : Machine Traffic RingOp := ⟨fun s op => some (s.next op)⟩

@[simp] theorem mem_machine_step {s t : Traffic} {op : RingOp} :
    t ∈ machine.step s op ↔ s.next op = t := Option.some_inj

variable {s t : Traffic}

/-- A push that is accepted, and one that is not. -/
theorem next_push_cases (hs : s.ring.Wf) (frame : CanardCANFrame) :
    s.ring.available + (encode frame).length < s.ring.size ∧
        s.next (.push frame) = ⟨s.ring.pushBytes (encode frame), s.sent ++ [frame], s.got⟩ ∨
      s.next (.push frame) = s := by
  cases hp : (s.ring.push frame).1 with
  | true =>
    refine Or.inl ⟨(push_fst hs frame).mp hp, ?_⟩
    simp only [next, push_of_fst hp, hp, if_true]
  | false =>
    refine Or.inr ?_
    simp only [next, push_of_not_fst hp, hp, Bool.false_eq_true, if_false]

theorem next_pop_of_eq {frame : CanardCANFrame} (h : s.ring.pop frame = (false, frame, s.ring)) :
    s.next (.pop frame) = s := by
  simp only [next, h, Bool.false_eq_true, if_false]

/-! ## Stalled for good -/

/-- `t` is `s` with its tail where it was, nothing more received, and behind the bytes that were
unread in `s` those of the frames accepted since. -/
structure StalledSince (s t : Traffic) : Prop where
  stalled : t.ring.Stalled
  size : t.ring.size = s.ring.size
  tail : t.ring.tail = s.ring.tail
  got : t.got = s.got
  unread : ∃ q, t.sent = s.sent ++ q ∧ t.ring.unread = s.ring.unread ++ Fifo.bytes q

theorem StalledSince.next (h : StalledSince s t) (op : RingOp) : StalledSince s (t.next op) := by
  cases op with
  | pop frame => rwa [next_pop_of_eq (h.stalled.pop_eq frame)]
  | push frame =>
    obtain ⟨hlt, heq⟩ | heq := next_push_cases h.stalled.wf frame
    · obtain ⟨q, hsent, hunread⟩ := h.unread
      rw [heq]
      refine ⟨h.stalled.pushBytes _ hlt, ?_, ?_, h.got, q ++ [frame], ?_, ?_⟩
      · rw [pushBytes_size, h.size]
      · rw [pushBytes_tail, h.tail]
      · rw [hsent, List.append_assoc]
      · rw [unread_pushBytes h.stalled.wf _ hlt, hunread, List.append_assoc]
        simp
    · rwa [heq]

/-- **A stalled ring stays stalled**, whatever is called on it. -/
theorem always_stalledSince (h : s.ring.Stalled) (ops : List RingOp) :
    machine.Always (StalledSince s) s ops :=
  Machine.always_of_step ⟨h, rfl, rfl, rfl, [], (List.append_nil _).symm, (List.append_nil _).symm⟩
    (fun _ op _ hs hst => mem_machine_step.mp hst ▸ hs.next op) ops

/-- A frame without data. -/
def emptyFrame : CanardCANFrame := ⟨0, 0, fun _ => 0⟩

/-- **When there is a pop to come that succeeds**: the byte at the tail is a header, or the ring is
empty and has room for a frame without data. -/
theorem exists_pop_iff {b : Buffer} (hb : b.Wf) :
    (∃ ops t frame, machine.run ⟨b, [], []⟩ ops = some t ∧ (t.ring.pop frame).1 = true) ↔
      (b.available ≠ 0 ∧ b.peekbyte 0 = frameHeader1) ∨ (b.available = 0 ∧ 7 ≤ b.size) := by
  constructor
  · rintro ⟨ops, t, frame, hrun, hpop⟩
    rcases Nat.eq_zero_or_pos b.available with h0 | hpos
    · refine Or.inr ⟨h0, Nat.not_lt.mp fun hlt => ?_⟩
      -- nothing fits, so the ring stays the empty one it was
      have hsame : machine.Always (· = (⟨b, [], []⟩ : Traffic)) ⟨b, [], []⟩ ops := by
        refine Machine.always_of_step (J := (· = _)) rfl (fun s op t hs hst => ?_) ops
        rw [← mem_machine_step.mp hst, hs]
        cases op with
        | pop frame => exact next_pop_of_eq (pop_of_available_eq_zero h0 frame)
        | push frame =>
          obtain ⟨hfit, -⟩ | heq := next_push_cases (s := ⟨b, [], []⟩) hb frame
          · simp only [length_encode] at hfit
            omega
          · exact heq
      rw [hsame.of_run hrun, pop_of_available_eq_zero h0] at hpop
      cases hpop
    · refine Or.inl ⟨by omega, by_contra fun hne => ?_⟩
      have hstall := (always_stalledSince (s := ⟨b, [], []⟩) ⟨hb, hpos, hne⟩ ops).of_run hrun
      rw [hstall.stalled.pop_eq] at hpop
      cases hpop
  · rintro (⟨hne, hheader⟩ | ⟨h0, hsize⟩)
    · exact ⟨[], _, emptyFrame, rfl, by simp [pop, hne, hheader]⟩
    · have hlt : b.available + (encode emptyFrame).length < b.size := by
        have hlen : emptyFrame.len = 0 := rfl
        rw [length_encode]
        omega
      have hunread : (b.pushBytes (encode emptyFrame)).unread = encode emptyFrame ++ [] := by
        rw [unread_pushBytes hb _ hlt, List.append_nil,
          List.eq_nil_of_length_eq_zero (l := b.unread) (by rw [length_unread, h0]),
          List.nil_append]
      refine ⟨[.push emptyFrame], _, emptyFrame, rfl, ?_⟩
      rw [show (next ⟨b, [], []⟩ (.push emptyFrame)).ring = b.pushBytes (encode emptyFrame) from
        push_of_fst ((push_fst hb emptyFrame).mpr hlt)]
      exact (pop_of_unread emptyFrame emptyFrame hunread).1

/-- One unread byte in the zeroed ring, and it is a zero: no call sequence gets a frame out. -/
theorem not_exists_pop_ring32 : ¬ ∃ ops t frame,
    machine.run ⟨{ Fifo.ring32 with head := 1 }, [], []⟩ ops = some t ∧
      (t.ring.pop frame).1 = true := by
  rw [exists_pop_iff ⟨by decide, by decide⟩]
  decide

/-! ## After a power-up -/

/-- Nothing popped yet: the unread bytes are the frames accepted, and the cells behind are zero. -/
structure Fresh (s : Traffic) : Prop where
  wf : s.ring.Wf
  got : s.got = []
  unread : s.ring.unread = Fifo.bytes s.sent
  blank : ∀ k, s.ring.available ≤ k → k < s.ring.size → s.ring.peekbyte k = 0

/-- One frame popped, the first; the ring is stalled and holds nearly all it ever accepted. -/
structure Spent (s : Traffic) : Prop where
  stalled : s.ring.Stalled
  got : ∃ f q, s.sent = f :: q ∧ s.got = [f.view] ∧ f.len + 7 < s.ring.size ∧
    (Fifo.bytes s.sent).length ≤ s.ring.available + f.len + 7

/-- A frame that leaves no trace of a header where the next pop will look: its id does not start
with one, and it does not fill a ring to the last byte. -/
def Plain (size : ℕ) (frame : CanardCANFrame) : Prop :=
  lowByte frame.id ≠ frameHeader1 ∧ frame.len + 7 ≠ size

theorem Fresh.push (h : Fresh s) (frame : CanardCANFrame) : Fresh (s.next (.push frame)) := by
  obtain ⟨hlt, heq⟩ | heq := next_push_cases h.wf frame
  · rw [heq]
    refine ⟨h.wf.pushBytes _, h.got, ?_, fun k hk hks => ?_⟩
    · rw [unread_pushBytes h.wf _ hlt, h.unread]
      simp
    · rw [available_pushBytes h.wf hlt] at hk
      rw [pushBytes_size] at hks
      rw [peekbyte_pushBytes h.wf _ hk hks]
      exact h.blank k (by omega) hks
  · rwa [heq]

theorem Spent.push (h : Spent s) (frame : CanardCANFrame) : Spent (s.next (.push frame)) := by
  obtain ⟨hlt, heq⟩ | heq := next_push_cases h.stalled.wf frame
  · obtain ⟨f, q, hsent, hgot, hf, hbytes⟩ := h.got
    rw [heq]
    refine ⟨h.stalled.pushBytes _ hlt, f, q ++ [frame], ?_, hgot, ?_, ?_⟩
    · rw [hsent, List.cons_append]
    · rwa [pushBytes_size]
    · rw [available_pushBytes h.stalled.wf hlt, Fifo.bytes_append, List.length_append]
      simp only [Fifo.bytes_cons, Fifo.bytes_nil, List.append_nil]
      omega
  · rwa [heq]

/-- **The pop of the first frame stalls the ring**: behind it lies the low byte of an id, or, when
it was alone, a byte never written. -/
theorem Fresh.pop (h : Fresh s) {n : ℕ} (hn : s.ring.size = n) (hsent : ∀ f ∈ s.sent, Plain n f)
    (frame : CanardCANFrame) : Fresh (s.next (.pop frame)) ∨ Spent (s.next (.pop frame)) := by
  cases hq : s.sent with
  | nil =>
    have h0 : s.ring.available = 0 := by rw [← length_unread, h.unread, hq]; rfl
    rw [next_pop_of_eq (pop_of_available_eq_zero h0 frame)]
    exact Or.inl h
  | cons f q =>
    have hunread : s.ring.unread = encode f ++ Fifo.bytes q := by rw [h.unread, hq]; rfl
    have hav : s.ring.available = f.len + 6 + (Fifo.bytes q).length := by
      rw [← length_unread, hunread, List.length_append, length_encode]
    have hf : f.len + 7 < s.ring.size := by
      have hfit := h.wf.available_lt
      have hne : f.len + 7 ≠ s.ring.size := hn ▸ (hsent f (by simp [hq])).2
      omega
    obtain ⟨hret, hview, hadv⟩ := pop_of_unread f frame hunread
    have heq : s.next (.pop frame)
        = ⟨s.ring.advance (f.len + frameSizeWithoutData), s.sent, [f.view]⟩ := by
      simp only [next, hret, hview, hadv, if_true, h.got, List.nil_append]
    have hstall : (s.ring.advance (f.len + 7)).Stalled ∧
        s.ring.available ≤ (s.ring.advance (f.len + 7)).available + f.len + 7 := by
      cases hq' : q with
      | nil =>
        simp only [hq', Fifo.bytes_nil, List.length_nil] at hav
        have hfull : (s.ring.advance (f.len + 7)).available = s.ring.size - 1 := by
          rw [← available_advance_succ h.wf, hav]
        refine ⟨⟨h.wf.advance _, by omega, ?_⟩, by omega⟩
        rw [peekbyte_advance, h.blank _ (by omega) (by omega)]
        decide
      | cons g q' =>
        have hlen : (Fifo.bytes q).length = g.len + 6 + (Fifo.bytes q').length := by
          rw [hq', Fifo.bytes_cons, List.length_append, length_encode]
        have hrest : (s.ring.advance (f.len + 7)).available = s.ring.available - (f.len + 7) :=
          available_advance h.wf (by omega)
        refine ⟨⟨h.wf.advance _, by omega, ?_⟩, by omega⟩
        have hid : s.ring.unread[f.len + 7 + 0]? = some (lowByte g.id) := by
          rw [hunread, List.getElem?_append_right (by rw [length_encode]; omega), length_encode,
            show f.len + 7 + 0 - (f.len + 6) = 1 by omega, hq']
          rfl
        rw [peekbyte_advance, peekbyte_eq hid]
        exact (hsent g (by simp [hq, hq'])).1
    refine Or.inr ?_
    rw [heq]
    refine ⟨hstall.1, f, q, hq, rfl, hf, ?_⟩
    rw [← h.unread, length_unread]
    exact hstall.2

/-- What is true of a ring from its power-up on. -/
structure PoweredUp (n : ℕ) (s : Traffic) : Prop where
  phase : Fresh s ∨ Spent s
  size : s.ring.size = n
  sent : ∀ f ∈ s.sent, Plain n f

theorem PoweredUp.next {n : ℕ} (h : PoweredUp n s) {op : RingOp}
    (hop : ∀ f, op = .push f → Plain n f) : PoweredUp n (s.next op) := by
  have hwf : s.ring.Wf := h.phase.elim (·.wf) (·.stalled.wf)
  cases op with
  | push frame =>
    refine ⟨h.phase.imp (·.push frame) (·.push frame), ?_, ?_⟩
    all_goals obtain ⟨-, heq⟩ | heq := next_push_cases hwf frame
    · rw [heq, pushBytes_size, h.size]
    · rw [heq, h.size]
    · rw [heq]
      intro f hf
      obtain hf | hf := List.mem_append.mp hf
      · exact h.sent f hf
      · exact List.mem_singleton.mp hf ▸ hop frame rfl
    · rw [heq]
      exact h.sent
  | pop frame =>
    refine ⟨?_, ?_, h.sent⟩
    · obtain hfresh | hspent := h.phase
      · exact hfresh.pop h.size h.sent frame
      · rw [next_pop_of_eq (hspent.stalled.pop_eq frame)]
        exact Or.inr hspent
    · rw [← h.size]
      simp only [Traffic.next, Buffer.pop]
      split_ifs <;> rfl

theorem poweredUp_start {b : Buffer} (hb : 0 < b.size) (hzero : ∀ i < b.size, b.buffer i = 0) :
    PoweredUp b.size (start b) :=
  ⟨Or.inl ⟨b.wf_reset hb, rfl, rfl, fun _ _ _ => hzero _ (Nat.mod_lt _ hb)⟩, rfl, by simp [start]⟩

/-- **One frame for each power-up**: the first frame accepted is the only one given, and less than
twice the ring's size is ever accepted. -/
theorem PoweredUp.got_at_most_first {n : ℕ} (h : PoweredUp n s) :
    s.got <+: (s.sent.take 1).map (·.view) ∧ (Fifo.bytes s.sent).length < 2 * n := by
  have hsize := h.size
  obtain hfresh | hspent := h.phase
  · refine ⟨hfresh.got ▸ List.nil_prefix, ?_⟩
    have := hfresh.wf.available_lt
    rw [← hfresh.unread, length_unread]
    omega
  · obtain ⟨f, q, hsent, hgot, hf, hbytes⟩ := hspent.got
    have := hspent.stalled.wf.available_lt
    refine ⟨?_, by omega⟩
    rw [hgot, hsent]
    exact List.prefix_refl _

end Traffic

end LibDronecan
