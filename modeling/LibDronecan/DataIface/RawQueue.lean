import LibDronecan.DataIface.Raw
import LibDronecan.Machinery.Run

/-!
# DataIface/RawQueue — the ring as a queue of frames

    push f ──▸ ring ++ encode f          pop ──▸ the frame at tail, tail + (len + 7)

`Fifo` runs a `Buffer` next to the queue it stands for: the frames `push` accepted and `pop` has not
returned.  From `reset` the unread bytes are those frames, encoded one after the other (`Aligned`),
and a pop reads the oldest of them.  But `push` writes `len + 6` bytes and `pop` steps over
`len + 7` — `frameSizeWithoutData` keeps one byte free in `push`'s space check and is used again as
the encoded size — so a pop of a queued frame always leaves the ring out of step with its queue
(`available_pop_ne`).  Hence `along_fifoStep_iff`: a run is a queue exactly while no pop meets an
unread byte.
-/

open Machinery

namespace LibDronecan

open Buffer

/-- A call on the ring.  `pop` is handed the frame struct it fills. -/
inductive RingOp where
  | push (frame : CanardCANFrame)
  | pop (frame : CanardCANFrame)

/-- A ring, the frames accepted and not popped yet, oldest first, and how often `pop` has returned
`true`. -/
structure Fifo where
  ring : Buffer
  queue : List CanardCANFrame
  pops : ℕ

namespace Fifo

/-- A ring just reset, with nothing queued. -/
def start (b : Buffer) : Fifo := ⟨b.reset, [], 0⟩

/-- One call: the ring does what the code does, the queue follows the return values. -/
def next (s : Fifo) : RingOp → Fifo
  | .push frame =>
      { s with
        ring := (s.ring.push frame).2
        queue := if (s.ring.push frame).1 then s.queue ++ [frame] else s.queue }
  | .pop frame =>
      { ring := (s.ring.pop frame).2.2
        queue := if (s.ring.pop frame).1 then s.queue.tail else s.queue
        pops := if (s.ring.pop frame).1 then s.pops + 1 else s.pops }

/-- Calls on the ring, any of them at any time. -/
def machine : Machine Fifo RingOp := ⟨fun s op => some (s.next op)⟩

@[simp] theorem mem_machine_step {s t : Fifo} {op : RingOp} :
    t ∈ machine.step s op ↔ s.next op = t := Option.some_inj

/-- The bytes `push` wrote for the frames still queued. -/
def bytes (q : List CanardCANFrame) : List Byte := q.flatMap encode

@[simp] theorem bytes_nil : bytes [] = [] := rfl

@[simp] theorem bytes_cons (f : CanardCANFrame) (q : List CanardCANFrame) :
    bytes (f :: q) = encode f ++ bytes q := rfl

@[simp] theorem bytes_append (q r : List CanardCANFrame) : bytes (q ++ r) = bytes q ++ bytes r :=
  List.flatMap_append

/-- **What a queue does at one call**: a pop succeeds exactly on a non-empty queue and yields its
oldest frame, and what is available afterwards is what was written for the frames left. -/
def FifoStep (s : Fifo) (op : RingOp) : Prop :=
  (match op with
    | .push _ => True
    | .pop frame => ((s.ring.pop frame).1 = true ↔ s.queue ≠ [])
        ∧ ∀ f ∈ s.queue.head?, (s.ring.pop frame).2.1.view = f.view)
    ∧ (s.next op).ring.available = (bytes (s.next op).queue).length

/-- No pop meets an unread byte. -/
def EmptyPop (s : Fifo) : RingOp → Prop
  | .push _ => True
  | .pop _ => s.ring.available = 0

instance (s : Fifo) (op : RingOp) : Decidable (FifoStep s op) := by
  unfold FifoStep
  cases op
  · exact inferInstanceAs (Decidable (True ∧ _))
  · exact inferInstanceAs (Decidable ((_ ∧ _) ∧ _))

instance : ∀ (s : Fifo) (op : RingOp), Decidable (EmptyPop s op)
  | _, .push _ => inferInstanceAs (Decidable True)
  | s, .pop _ => inferInstanceAs (Decidable (s.ring.available = 0))

/-! ## In step: the unread bytes are the queued frames -/

/-- **The ring is in step with its queue.** -/
structure Aligned (s : Fifo) : Prop where
  wf : s.ring.Wf
  unread : s.ring.unread = bytes s.queue

variable {s : Fifo}

theorem aligned_start (b : Buffer) (hb : 0 < b.size) : Aligned (start b) :=
  ⟨b.wf_reset hb, b.unread_reset⟩

theorem Aligned.available (h : Aligned s) : s.ring.available = (bytes s.queue).length := by
  rw [← h.unread, length_unread]

theorem Aligned.available_eq_zero_iff (h : Aligned s) : s.ring.available = 0 ↔ s.queue = [] := by
  rw [h.available]
  cases s.queue with
  | nil => simp
  | cons f q =>
    rw [bytes_cons, List.length_append, length_encode]
    simp only [List.cons_ne_nil, iff_false]
    omega

/-- Whatever the unread bytes, an accepted push appends the frame to them. -/
theorem unread_next_push (hs : s.ring.Wf) (frame : CanardCANFrame) :
    (s.next (.push frame)).ring.Wf ∧
      (s.next (.push frame)).ring.unread
        = s.ring.unread ++ if (s.ring.push frame).1 then encode frame else [] := by
  cases hp : (s.ring.push frame).1 with
  | true =>
    simp only [next, push_of_fst hp, if_true]
    exact ⟨hs.pushBytes _, unread_pushBytes hs _ ((push_fst hs frame).mp hp)⟩
  | false =>
    simp only [next, push_of_not_fst hp, Bool.false_eq_true, if_false, List.append_nil, and_true]
    exact hs

theorem Aligned.push (h : Aligned s) (frame : CanardCANFrame) : Aligned (s.next (.push frame)) := by
  obtain ⟨hwf, hunread⟩ := unread_next_push h.wf frame
  refine ⟨hwf, ?_⟩
  rw [hunread, h.unread]
  simp only [next]
  split_ifs <;> simp

/-- A pop of an empty ring does nothing. -/
theorem next_pop_of_available_eq_zero (h : s.ring.available = 0) (frame : CanardCANFrame) :
    s.next (.pop frame) = s := by
  simp only [next, pop_of_available_eq_zero h, Bool.false_eq_true, if_false]

/-- **A pop of a queued frame yields it and advances one byte too far.** -/
theorem Aligned.pop (h : Aligned s) {f : CanardCANFrame} {q : List CanardCANFrame}
    (hq : s.queue = f :: q) (frame : CanardCANFrame) :
    (s.ring.pop frame).1 = true ∧ (s.ring.pop frame).2.1.view = f.view
      ∧ (s.ring.pop frame).2.2 = s.ring.advance (f.len + frameSizeWithoutData) :=
  pop_of_unread f frame (by rw [h.unread, hq, bytes_cons])

theorem Aligned.available_of_cons (h : Aligned s) {f : CanardCANFrame} {q : List CanardCANFrame}
    (hq : s.queue = f :: q) : s.ring.available = f.len + 6 + (bytes q).length := by
  rw [h.available, hq, bytes_cons, List.length_append, length_encode]

/-- **…so what is then available is never what is queued**: one byte short of it, or, when nothing
else was queued, a whole turn less one. -/
theorem Aligned.available_pop_ne (h : Aligned s) {f : CanardCANFrame} {q : List CanardCANFrame}
    (hq : s.queue = f :: q) (frame : CanardCANFrame) :
    (s.next (.pop frame)).ring.available ≠ (bytes (s.next (.pop frame)).queue).length := by
  obtain ⟨hret, -, hadv⟩ := h.pop hq frame
  have hav := h.available_of_cons hq
  have hlt := h.wf.available_lt
  simp only [next, hret, hadv, if_true, hq, List.tail_cons, frameSizeWithoutData]
  rcases Nat.eq_zero_or_pos (bytes q).length with h0 | hpos
  · rw [show f.len + 7 = s.ring.available + 1 by omega, available_advance_succ h.wf]
    omega
  · rw [available_advance h.wf (by omega)]
    omega

/-- In step with the queue, a call behaves as a queue's exactly when it pops no queued frame. -/
theorem Aligned.fifoStep_iff (h : Aligned s) (op : RingOp) : FifoStep s op ↔ EmptyPop s op := by
  cases op with
  | push frame => exact ⟨fun _ => trivial, fun _ => ⟨trivial, (h.push frame).available⟩⟩
  | pop frame =>
    refine ⟨fun hstep => ?_, fun (h0 : s.ring.available = 0) => ?_⟩
    · cases hq : s.queue with
      | nil => exact h.available_eq_zero_iff.mpr hq
      | cons f q => exact absurd hstep.2 (h.available_pop_ne hq frame)
    · have hq : s.queue = [] := h.available_eq_zero_iff.mp h0
      refine ⟨⟨?_, ?_⟩, ?_⟩
      · simp [pop_of_available_eq_zero h0, hq]
      · simp [hq]
      · rw [next_pop_of_available_eq_zero h0]
        exact h.available

theorem Aligned.step (h : Aligned s) {op : RingOp} (hop : EmptyPop s op) : Aligned (s.next op) := by
  cases op with
  | push frame => exact h.push frame
  | pop frame => rwa [next_pop_of_available_eq_zero hop]

/-- **A run from `reset` is a queue of frames exactly while every pop finds the ring empty.** -/
theorem along_fifoStep_iff (b : Buffer) (hb : 0 < b.size) (ops : List RingOp) :
    machine.Along FifoStep (start b) ops ↔ machine.Along EmptyPop (start b) ops :=
  Machine.along_iff_along (aligned_start b hb) (fun _ op h => h.fifoStep_iff op)
    fun _ _ _ h hop ht => mem_machine_step.mp ht ▸ h.step hop

/-- A zeroed ring of 32 bytes. -/
def ring32 : Buffer := ⟨fun _ => 0, 32, 0, 0⟩

/-- A frame with two bytes of payload. -/
def frame2 : CanardCANFrame := ⟨0x123, 2, fun _ => 7⟩

/-- Frames pile up in order as long as none is popped. -/
theorem along_fifoStep_ring32 :
    machine.Along FifoStep (start ring32) [.pop frame2, .push frame2, .push frame2] :=
  (along_fifoStep_iff ring32 (by decide) _).mpr (by decide)

/-- **The ring is not a queue**: one frame in, one frame out, and 31 of the 32 bytes count as
available. -/
theorem not_forall_along_fifoStep : ¬ ∀ (b : Buffer) (ops : List RingOp), 0 < b.size →
    (∀ f, RingOp.push f ∈ ops → f.len ≤ 8) → machine.Along FifoStep (start b) ops := by
  intro h
  have hrun := h ring32 [.push frame2, .pop frame2] (by decide) (by
    intro f hf
    obtain rfl : f = frame2 := by simpa using hf
    decide)
  revert hrun
  decide

end Fifo

end LibDronecan
