import LibDronecan.DataIface.RawQueue

/-!
# DataIface/RawDecode — how far `pop` trusts what it reads

    in step ──pop, ≥ 2 queued──▸ one byte behind ──pop──▸ refused, unless an id starts with 0x34

`pop` copies as many bytes as the length byte it meets says and advances past them, checking
neither against the capacity nor against `available()`.  In step with the queue the length is a
pushed frame's own, so the copy is safe; the advance is within the unread bytes only if another
frame follows (`Aligned.popSafe_iff`).  One such pop leaves the ring a byte behind (`Drifted`),
where the next byte is read as a header: unless it is `0x34`, every later pop is refused and nothing
moves any more.
-/

open Machinery

namespace LibDronecan

open Buffer

/-- The id byte that `push` writes after the header. -/
def lowByte (id : Word) : Byte := (id &&& 0xFF).setWidth 8

namespace Fifo

/-- **A pop stays inside the frame and inside the ring**: it writes `frame.data` below `C` only, and
consumes no more bytes than are available. -/
def PopSafe (C : ℕ) (s : Fifo) : RingOp → Prop
  | .push _ => True
  | .pop frame => (s.ring.pop frame).1 = true →
      (s.ring.pop frame).2.1.len ≤ C ∧
        (s.ring.pop frame).2.1.len + frameSizeWithoutData ≤ s.ring.available

/-- Nothing is queued; or at least two frames are, and no pop has returned `true` before; or one
has, and the oldest frame's id does not start with the header byte. -/
def PopInStep (s : Fifo) : RingOp → Prop
  | .push _ => True
  | .pop _ => s.queue = [] ∨ (s.pops = 0 ∧ 2 ≤ s.queue.length)
      ∨ (s.pops = 1 ∧ ∀ f ∈ s.queue.head?, lowByte f.id ≠ frameHeader1)

/-- The frame an operation pushes satisfies `p`. -/
def Pushes (p : CanardCANFrame → Prop) (_ : Fifo) : RingOp → Prop
  | .push frame => p frame
  | .pop _ => True

instance (C : ℕ) : ∀ (s : Fifo) (op : RingOp), Decidable (PopSafe C s op)
  | _, .push _ => inferInstanceAs (Decidable True)
  | _, .pop _ => inferInstanceAs (Decidable (_ → _))

instance : ∀ (s : Fifo) (op : RingOp), Decidable (PopInStep s op)
  | _, .push _ => inferInstanceAs (Decidable True)
  | _, .pop _ => inferInstanceAs (Decidable (_ ∨ _))

theorem along_pushes {p : CanardCANFrame → Prop} {ops : List RingOp}
    (h : ∀ f, RingOp.push f ∈ ops → p f) (s : Fifo) : machine.Along (Pushes p) s ops :=
  Machine.along_of_forall_mem fun op hop t => by
    cases op with
    | push f => exact h f hop
    | pop f => trivial

/-! ## One byte behind -/

/-- **The ring is one byte behind its queue**, after the one pop that can still be right. -/
structure Drifted (s : Fifo) : Prop where
  wf : s.ring.Wf
  pops : s.pops = 1
  queue_ne : s.queue ≠ []
  unread : s.ring.unread = (bytes s.queue).drop 1

variable {s : Fifo} {C : ℕ}

/-- A frame's header and id take five bytes, so a queue that holds one has a byte to lose. -/
theorem one_le_length_bytes {q : List CanardCANFrame} (hq : q ≠ []) : 1 ≤ (bytes q).length := by
  obtain ⟨f, q, rfl⟩ := List.exists_cons_of_ne_nil hq
  rw [bytes_cons, List.length_append, length_encode]
  omega

theorem Drifted.push (h : Drifted s) (frame : CanardCANFrame) : Drifted (s.next (.push frame)) := by
  obtain ⟨hwf, hunread⟩ := unread_next_push h.wf frame
  refine ⟨hwf, h.pops, ?_, ?_⟩
  · simp only [next]
    split_ifs
    · simp
    · exact h.queue_ne
  · rw [hunread, h.unread]
    simp only [next]
    split_ifs
    · rw [bytes_append, List.drop_append_of_le_length (one_le_length_bytes h.queue_ne)]
      simp
    · rw [List.append_nil]

/-- Behind by one byte, the next header is the low byte of an id. -/
theorem Drifted.pop_eq (h : Drifted s) {f : CanardCANFrame} {q : List CanardCANFrame}
    (hq : s.queue = f :: q) (hf : lowByte f.id ≠ frameHeader1) (frame : CanardCANFrame) :
    s.ring.pop frame = (false, frame, s.ring) := by
  refine pop_of_peekbyte_ne ?_ frame
  rwa [peekbyte_eq (x := lowByte f.id) (by rw [h.unread, hq]; rfl)]

/-! ## A pop in step -/

/-- **In step, a pop of the oldest frame consumes one byte too many unless another follows.** -/
theorem Aligned.popSafe_iff (h : Aligned s) {f : CanardCANFrame} {q : List CanardCANFrame}
    (hq : s.queue = f :: q) (hf : f.len ≤ C) (frame : CanardCANFrame) :
    PopSafe C s (.pop frame) ↔ q ≠ [] := by
  obtain ⟨hret, hview, -⟩ := h.pop hq frame
  have hlen : (s.ring.pop frame).2.1.len = f.len :=
    congrArg (fun v : Word × Byte × List Byte => v.2.1.toNat) hview
  have hav := h.available_of_cons hq
  simp only [PopSafe, hret, hlen, frameSizeWithoutData, hav, true_implies]
  constructor
  · rintro ⟨-, hle⟩ rfl
    simp only [bytes_nil, List.length_nil] at hle
    omega
  · intro hne
    have := one_le_length_bytes hne
    omega

theorem Aligned.drifted_pop (h : Aligned s) (hpops : s.pops = 0) {f : CanardCANFrame}
    {q : List CanardCANFrame} (hq : s.queue = f :: q) (hne : q ≠ []) (frame : CanardCANFrame) :
    Drifted (s.next (.pop frame)) := by
  obtain ⟨hret, -, hadv⟩ := h.pop hq frame
  have hav := h.available_of_cons hq
  have := one_le_length_bytes hne
  refine ⟨?_, ?_, ?_, ?_⟩
  · simp only [next, hadv]
    exact h.wf.advance _
  · simp only [next, hret, if_true, hpops]
  · simpa only [next, hret, if_true, hq, List.tail_cons] using hne
  · simp only [next, hret, hadv, if_true, frameSizeWithoutData]
    rw [unread_advance h.wf (by omega), h.unread, hq, bytes_cons, List.tail_cons,
      List.drop_append, List.drop_of_length_le (by simp), length_encode, List.nil_append]
    congr 1
    omega

/-! ## Runs -/

/-- In step before the first successful pop or a byte behind after it, with every queued frame
satisfying `p`. -/
structure Tracked (p : CanardCANFrame → Prop) (s : Fifo) : Prop where
  phase : (Aligned s ∧ s.pops = 0) ∨ Drifted s
  queued : ∀ f ∈ s.queue, p f

theorem tracked_start (p : CanardCANFrame → Prop) (b : Buffer) (hb : 0 < b.size) :
    Tracked p (start b) := ⟨Or.inl ⟨aligned_start b hb, rfl⟩, by simp [start]⟩

theorem Tracked.push {p : CanardCANFrame → Prop} (h : Tracked p s) {frame : CanardCANFrame}
    (hf : p frame) : Tracked p (s.next (.push frame)) := by
  refine ⟨h.phase.imp (fun ha => ⟨ha.1.push frame, ha.2⟩) fun hd => hd.push frame, ?_⟩
  simp only [next]
  split_ifs
  · intro f hmem
    rcases List.mem_append.mp hmem with hmem | hmem
    · exact h.queued f hmem
    · obtain rfl := List.mem_singleton.mp hmem
      exact hf
  · exact h.queued

/-- A pop that meets the condition is safe, and keeps the ring tracked. -/
theorem Tracked.pop {p : CanardCANFrame → Prop} (h : Tracked p s) (hp : ∀ f, p f → f.len ≤ C)
    {frame : CanardCANFrame} (hpop : PopInStep s (.pop frame)) :
    PopSafe C s (.pop frame) ∧ Tracked p (s.next (.pop frame)) := by
  rcases h.phase with ⟨ha, h0⟩ | hd
  · cases hq : s.queue with
    | nil =>
      have hav := ha.available_eq_zero_iff.mpr hq
      refine ⟨?_, by rwa [next_pop_of_available_eq_zero hav]⟩
      simp [PopSafe, pop_of_available_eq_zero hav]
    | cons f q =>
      have hne : q ≠ [] := by
        rintro rfl
        simp [PopInStep, hq, h0] at hpop
      refine ⟨(ha.popSafe_iff hq (hp f (h.queued f (by simp [hq]))) frame).mpr hne,
        Or.inr (ha.drifted_pop h0 hq hne frame), fun g hg => h.queued g ?_⟩
      simp only [next, (ha.pop hq frame).1, if_true] at hg
      exact List.mem_of_mem_tail hg
  · obtain ⟨f, q, hq⟩ := List.exists_cons_of_ne_nil hd.queue_ne
    have hf : lowByte f.id ≠ frameHeader1 := by
      simpa [PopInStep, hq, hd.pops] using hpop
    have heq := hd.pop_eq hq hf frame
    refine ⟨by simp [PopSafe, heq], ?_⟩
    simpa only [next, heq, Bool.false_eq_true, if_false] using h

/-- **When every id starts with another byte than the header, a safe pop meets the condition.** -/
theorem Tracked.popInStep {p : CanardCANFrame → Prop} (h : Tracked p s)
    (hp : ∀ f, p f → f.len ≤ C ∧ lowByte f.id ≠ frameHeader1) {frame : CanardCANFrame}
    (hsafe : PopSafe C s (.pop frame)) : PopInStep s (.pop frame) := by
  rcases h.phase with ⟨ha, h0⟩ | hd
  · cases hq : s.queue with
    | nil => exact Or.inl hq
    | cons f q =>
      have hne := (ha.popSafe_iff hq (hp f (h.queued f (by simp [hq]))).1 frame).mp hsafe
      have := List.length_pos_of_ne_nil hne
      exact Or.inr (Or.inl ⟨h0, by rw [hq, List.length_cons]; omega⟩)
  · refine Or.inr (Or.inr ⟨hd.pops, fun f hf => ?_⟩)
    exact (hp f (h.queued f (List.mem_of_mem_head? hf))).2

theorem Tracked.next {p : CanardCANFrame → Prop} (h : Tracked p s) (hp : ∀ f, p f → f.len ≤ C)
    {op : RingOp} (hop : PopInStep s op ∧ Pushes p s op) : Tracked p (s.next op) := by
  cases op with
  | push f => exact h.push hop.2
  | pop f => exact (h.pop hp hop.1).2

/-- **With no id starting with the header byte, the condition is exact.** -/
theorem along_popSafe_iff {p : CanardCANFrame → Prop}
    (hp : ∀ f, p f → f.len ≤ C ∧ lowByte f.id ≠ frameHeader1) (b : Buffer) (hb : 0 < b.size)
    {ops : List RingOp} (hpush : ∀ f, RingOp.push f ∈ ops → p f) :
    machine.Along (PopSafe C) (start b) ops ↔ machine.Along PopInStep (start b) ops := by
  have hiff : machine.Along (fun s op => PopSafe C s op ∧ Pushes p s op) (start b) ops
      ↔ machine.Along (fun s op => PopInStep s op ∧ Pushes p s op) (start b) ops := by
    refine Machine.along_iff_along (tracked_start p b hb) (fun s op ht => ?_)
      fun s op t ht hop hst => mem_machine_step.mp hst ▸ ht.next (fun f h => (hp f h).1) hop
    refine and_congr_left fun _ => ?_
    cases op with
    | push f => exact Iff.rfl
    | pop f => exact ⟨ht.popInStep hp, fun h => (ht.pop (fun f h => (hp f h).1) h).1⟩
  rw [Machine.along_and, Machine.along_and] at hiff
  have := along_pushes hpush (start b)
  exact ⟨fun h => (hiff.mp ⟨h, this⟩).1, fun h => (hiff.mpr ⟨h, this⟩).1⟩

/-- **Every pop that meets the condition stays inside the frame and the ring**, over whole runs; and
with no id starting with the header byte, no other run is safe. -/
theorem along_popSafe (b : Buffer) (hb : 0 < b.size) (ops : List RingOp)
    (hlen : ∀ f, RingOp.push f ∈ ops → f.len ≤ C) :
    (machine.Along PopInStep (start b) ops → machine.Along (PopSafe C) (start b) ops) ∧
    ((∀ f, RingOp.push f ∈ ops → lowByte f.id ≠ frameHeader1) →
      (machine.Along (PopSafe C) (start b) ops ↔ machine.Along PopInStep (start b) ops)) := by
  refine ⟨fun h => ?_, fun hid => along_popSafe_iff (fun _ h => h) b hb
    fun f hf => ⟨hlen f hf, hid f hf⟩⟩
  refine Machine.along_of_along (tracked_start (·.len ≤ C) b hb) (fun s op ht hop => ?_)
    (fun s op t ht hop hst => mem_machine_step.mp hst ▸ ht.next (fun _ h => h) hop)
    (Machine.along_and.mpr ⟨h, along_pushes hlen _⟩)
  cases op with
  | push f => trivial
  | pop f => exact (ht.pop (fun _ h => h) hop.1).1

/-- Two frames in, one out. -/
theorem along_popSafe_ring32 : machine.Along (PopSafe 8) (start ring32)
    [.push frame2, .push frame2, .pop frame2, .pop frame2] :=
  (along_popSafe ring32 (by decide) _ (by
    intro f hf
    obtain rfl : f = frame2 := by simpa using hf
    decide)).1 (by decide)

/-- **The decoder leaves the ring**: the pop of a lone two-byte frame consumes nine of the eight
bytes there are. -/
theorem not_forall_along_popSafe : ¬ ∀ (b : Buffer) (ops : List RingOp), 0 < b.size →
    (∀ f, RingOp.push f ∈ ops → f.len ≤ 8) → machine.Along (PopSafe 8) (start b) ops := by
  intro h
  have hrun := h ring32 [.push frame2, .pop frame2] (by decide) (by
    intro f hf
    obtain rfl : f = frame2 := by simpa using hf
    decide)
  revert hrun
  decide

end Fifo

end LibDronecan
