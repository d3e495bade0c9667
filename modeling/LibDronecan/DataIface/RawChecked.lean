import LibDronecan.DataIface.RawCodec
import LibDronecan.Machinery.Run

/-!
# DataIface/RawChecked — `RawIface::Buffer` on `size_t`, with every access checked

    buffer[i]   a value for i < size      a - b   a value for b ≤ a      a % b   a value for b ≠ 0

The C++ of `Raw` once more, on a `size_t` of any width and with nothing taken for granted: a call
that would step out of the block has no result.  A pop follows whatever length byte it finds, so
`tail` may come to lie anywhere and `available()` need not be what was pushed.  That head and tail
point into the block is all that the operations rely on, and all that they keep (`always_inBounds`).
While `size_t` has room for a frame beyond `size`, this is `Buffer` (`Roomy.run`).
-/

open Machinery

namespace LibDronecan

variable {w : ℕ}

/-- `a - b`, if it does not pass below 0. -/
def subtract (a b : BitVec w) : Option (BitVec w) := if b ≤ a then some (a - b) else none

/-- `a % b`, if it has a value. -/
def remainder (a b : BitVec w) : Option (BitVec w) := if b = 0 then none else some (a % b)

/-- A call on the ring.  `pop` is handed the frame struct it fills. -/
inductive BufferOp where
  | push (frame : CanardCANFrame)
  | pop (frame : CanardCANFrame)
  | reset

/-- The buffer after a call. -/
def Buffer.next (b : Buffer) : BufferOp → Buffer
  | .push frame => (b.push frame).2
  | .pop frame => (b.pop frame).2.2
  | .reset => b.reset

theorem Buffer.next_size (b : Buffer) (op : BufferOp) : (b.next op).size = b.size := by
  cases op with
  | push frame =>
    rw [next, push_eq]
    split_ifs
    · rfl
    · exact pushBytes_size b _
  | pop frame =>
    simp only [next, pop]
    split_ifs <;> rfl
  | reset => rfl

theorem Buffer.Wf.next {b : Buffer} (h : b.Wf) (op : BufferOp) : (b.next op).Wf := by
  cases op with
  | push frame =>
    rw [Buffer.next, push_eq]
    split_ifs
    · exact h
    · exact h.pushBytes _
  | pop frame =>
    simp only [Buffer.next, pop]
    split_ifs
    · exact h
    · exact h
    · exact h.advance _
  | reset => exact wf_reset b h.size_pos

/-- `RawIface::Buffer`, with a `size_t` of `w` bits. -/
structure CheckedBuffer (w : ℕ) where
  buffer : ℕ → Byte
  size : BitVec w
  head : BitVec w
  tail : BitVec w

namespace CheckedBuffer

/-- Read `buffer[i]`. -/
def load (b : CheckedBuffer w) (i : BitVec w) : Option Byte :=
  if i < b.size then some (b.buffer i.toNat) else none

/-- Write `buffer[i]`. -/
def store (b : CheckedBuffer w) (i : BitVec w) (byte : Byte) : Option (CheckedBuffer w) :=
  if i < b.size then some { b with buffer := Function.update b.buffer i.toNat byte } else none

def available (b : CheckedBuffer w) : Option (BitVec w) :=
  if b.head ≥ b.tail then subtract b.head b.tail
  else do return (← subtract b.size b.tail) + b.head

def advance (b : CheckedBuffer w) (bytes : BitVec w) : Option (CheckedBuffer w) := do
  return { b with tail := ← remainder (bytes + b.tail) b.size }

def txspace (b : CheckedBuffer w) : Option (BitVec w) := do subtract b.size (← b.available)

def pushbyte (b : CheckedBuffer w) (byte : Byte) : Option (CheckedBuffer w) := do
  let b ← b.store b.head byte
  let b := { b with head := b.head + 1 }
  return if b.head ≥ b.size then { b with head := 0 } else b

def reset (b : CheckedBuffer w) : CheckedBuffer w := { b with head := 0, tail := 0 }

/-- `push`: the return value and the buffer afterwards. -/
def push (b : CheckedBuffer w) (frame : CanardCANFrame) : Option (Bool × CheckedBuffer w) := do
  if (← b.txspace) < BitVec.ofNat w (frame.len + frameSizeWithoutData) then return (false, b)
  let b ← b.pushbyte frameHeader1
  let b ← b.pushbyte ((frame.id &&& 0xFF).setWidth 8)
  let b ← b.pushbyte (((frame.id >>> 8) &&& 0xFF).setWidth 8)
  let b ← b.pushbyte (((frame.id >>> 16) &&& 0xFF).setWidth 8)
  let b ← b.pushbyte (((frame.id >>> 24) &&& 0xFF).setWidth 8)
  let b ← b.pushbyte frame.dataLen
  let b ← (List.range frame.len).foldlM (fun b i => b.pushbyte (frame.data i)) b
  return (true, b)

def peekbyte (b : CheckedBuffer w) (byte : BitVec w) : Option Byte := do
  b.load (← remainder (b.tail + byte) b.size)

/-- `pop`: the return value, the frame it was handed as it leaves it, and the buffer afterwards. -/
def pop (b : CheckedBuffer w) (frame : CanardCANFrame) :
    Option (Bool × CanardCANFrame × CheckedBuffer w) := do
  if (← b.available) = 0 then return (false, frame, b)
  if (← b.peekbyte 0) ≠ frameHeader1 then return (false, frame, b)
  let frame := { frame with
    id := idOfBytes (← b.peekbyte 1) (← b.peekbyte 2) (← b.peekbyte 3) (← b.peekbyte 4)
    dataLen := ← b.peekbyte 5 }
  let data ← (List.range frame.len).foldlM (fun data i => do
    return Function.update data i (← b.peekbyte (6 + BitVec.ofNat w i))) frame.data
  let b ← b.advance (BitVec.ofNat w (frame.len + frameSizeWithoutData))
  return (true, { frame with data := data }, b)

/-! ## Calls, one after the other -/

def step (b : CheckedBuffer w) : BufferOp → Option (CheckedBuffer w)
  | .push frame => do return (← b.push frame).2
  | .pop frame => do return (← b.pop frame).2.2
  | .reset => some b.reset

/-- Calls on the ring, any of them at any time. -/
def machine (w : ℕ) : Machine (CheckedBuffer w) BufferOp := ⟨step⟩

/-- Head and tail point into the block, of whatever content. -/
structure Wf (b : CheckedBuffer w) : Prop where
  head_lt : b.head < b.size
  tail_lt : b.tail < b.size

/-- **What holds of a ring between two calls**: head and tail point into the block; `available()`
and `txspace()` are computed without passing below 0, and come to at most `size`. -/
structure InBounds (b : CheckedBuffer w) : Prop where
  head_lt : b.head < b.size
  tail_lt : b.tail < b.size
  available : ∃ n, b.available = some n ∧ n ≤ b.size
  txspace : ∃ n, b.txspace = some n ∧ n ≤ b.size

/-- The same buffer with its indices as numbers. -/
def toBuffer (b : CheckedBuffer w) : Buffer :=
  ⟨b.buffer, b.size.toNat, b.head.toNat, b.tail.toNat⟩

variable {b t : CheckedBuffer w}

theorem wf_toBuffer : b.toBuffer.Wf ↔ b.Wf := ⟨fun h => ⟨h.1, h.2⟩, fun h => ⟨h.1, h.2⟩⟩

theorem Wf.toBuffer (h : b.Wf) : b.toBuffer.Wf := wf_toBuffer.mpr h

theorem toBuffer_reset (b : CheckedBuffer w) : b.reset.toBuffer = b.toBuffer.reset := by
  simp only [toBuffer, reset, Buffer.reset, BitVec.ofNat_eq_ofNat, BitVec.toNat_zero]

/-- What keeps the indices of the one keeps those of the other. -/
theorem Wf.of_toBuffer {c : Buffer} (h : b.toBuffer = c) (hc : c.Wf) : b.Wf :=
  wf_toBuffer.mp (h ▸ hc)

/-! ## Arithmetic in the ring -/

theorem exists_subtract {a b : BitVec w} (h : b ≤ a) :
    ∃ n, subtract a b = some n ∧ n.toNat = a.toNat - b.toNat :=
  ⟨a - b, if_pos h, BitVec.toNat_sub_of_le h⟩

theorem Wf.size_ne_zero (h : b.Wf) : b.size ≠ 0 := by
  rintro h0
  exact BitVec.not_lt_zero (h0 ▸ h.head_lt)

theorem Wf.remainder_lt (h : b.Wf) (a : BitVec w) : a % b.size < b.size := by
  rw [BitVec.lt_def, BitVec.toNat_umod]
  exact Nat.mod_lt _ h.toBuffer.size_pos

theorem Wf.remainder (h : b.Wf) (a : BitVec w) : remainder a b.size = some (a % b.size) :=
  if_neg h.size_ne_zero

/-- **`available()` is computed without passing below 0**, by either of its branches. -/
theorem Wf.available (h : b.Wf) :
    ∃ n, b.available = some n ∧ n.toNat = b.toBuffer.available := by
  unfold CheckedBuffer.available Buffer.available
  by_cases hle : b.tail ≤ b.head
  · obtain ⟨n, hn, hval⟩ := exists_subtract hle
    rw [if_pos hle, if_pos (show b.toBuffer.head ≥ b.toBuffer.tail from hle)]
    exact ⟨n, hn, hval⟩
  · obtain ⟨n, hn, hval⟩ := exists_subtract (BitVec.le_of_lt h.tail_lt)
    rw [if_neg hle, if_neg (show ¬ b.toBuffer.head ≥ b.toBuffer.tail from hle), hn]
    refine ⟨n + b.head, rfl, ?_⟩
    have hlt := h.tail_lt
    rw [BitVec.not_le] at hle
    rw [BitVec.lt_def] at hle hlt
    have hsum : n.toNat + b.head.toNat < 2 ^ w := by
      have := b.size.isLt
      omega
    rw [BitVec.toNat_add_of_lt hsum, hval]
    rfl

theorem Wf.available_le (h : b.Wf) {n : BitVec w} (hn : n.toNat = b.toBuffer.available) :
    n ≤ b.size := by
  rw [BitVec.le_def, hn]
  exact h.toBuffer.available_lt.le

/-- **`txspace()` is computed without passing below 0.** -/
theorem Wf.txspace (h : b.Wf) : ∃ n, b.txspace = some n ∧ n.toNat = b.toBuffer.txspace := by
  obtain ⟨a, ha, haval⟩ := h.available
  obtain ⟨n, hn, hval⟩ := exists_subtract (h.available_le haval)
  refine ⟨n, ?_, ?_⟩
  · rw [CheckedBuffer.txspace, ha]
    exact hn
  · rw [hval, haval]
    rfl

theorem Wf.inBounds (h : b.Wf) : InBounds b := by
  obtain ⟨a, ha, haval⟩ := h.available
  obtain ⟨n, hn, hnval⟩ := h.txspace
  refine ⟨h.head_lt, h.tail_lt, ⟨a, ha, h.available_le haval⟩, ⟨n, hn, ?_⟩⟩
  rw [BitVec.le_def, hnval]
  exact Nat.sub_le _ _

/-! ## Pushing -/

/-- **A byte is written inside the block**, and head stays there. -/
theorem Wf.pushbyte (h : b.Wf) (x : Byte) :
    ∃ t, b.pushbyte x = some t ∧ t.toBuffer = b.toBuffer.pushbyte x := by
  have hlt : b.head.toNat < b.size.toNat := h.head_lt
  have hone : (b.head + 1).toNat = b.head.toNat + 1 := by
    have := b.size.isLt
    have hval : (1 : BitVec w).toNat = 1 % 2 ^ w := BitVec.toNat_ofNat 1 w
    rw [BitVec.toNat_add, hval, Nat.add_mod_mod, Nat.mod_eq_of_lt (by omega)]
  rw [CheckedBuffer.pushbyte, store, if_pos h.head_lt]
  refine ⟨_, rfl, ?_⟩
  simp only [Buffer.pushbyte, CheckedBuffer.toBuffer, ge_iff_le, BitVec.le_def, hone]
  split_ifs
  · simp only [BitVec.ofNat_eq_ofNat, BitVec.toNat_zero]
  · simp only [hone]

theorem Wf.pushBytes (h : b.Wf) (l : List Byte) :
    ∃ t, l.foldlM CheckedBuffer.pushbyte b = some t ∧ t.toBuffer = b.toBuffer.pushBytes l := by
  induction l generalizing b with
  | nil => exact ⟨b, rfl, rfl⟩
  | cons x l ih =>
    obtain ⟨u, hu, hval⟩ := h.pushbyte x
    obtain ⟨t, ht, htval⟩ := ih (Wf.of_toBuffer hval (h.toBuffer.pushbyte x))
    refine ⟨t, ?_, ?_⟩
    · rw [List.foldlM_cons, hu]
      exact ht
    · rw [htval, hval, Buffer.pushBytes_cons]

/-- **`push` writes `encode frame`**, or nothing at all. -/
theorem push_eq (b : CheckedBuffer w) (frame : CanardCANFrame) :
    b.push frame = do
      if (← b.txspace) < BitVec.ofNat w (frame.len + frameSizeWithoutData) then return (false, b)
      return (true, ← (Buffer.encode frame).foldlM CheckedBuffer.pushbyte b) := by
  simp only [push, Buffer.encode, idBytes, CanardCANFrame.payload, List.cons_append,
    List.nil_append, List.foldlM_cons, List.foldlM_map, bind_assoc]

/-- **What a push does**: nothing, if the space it finds is short of the frame; else it writes the
frame, each byte inside the block. -/
theorem Wf.push_cases (h : b.Wf) (frame : CanardCANFrame) :
    (b.toBuffer.txspace < (BitVec.ofNat w (frame.len + frameSizeWithoutData)).toNat ∧
      b.push frame = some (false, b)) ∨
    (¬ b.toBuffer.txspace < (BitVec.ofNat w (frame.len + frameSizeWithoutData)).toNat ∧
      ∃ t, b.push frame = some (true, t) ∧
        t.toBuffer = b.toBuffer.pushBytes (Buffer.encode frame)) := by
  obtain ⟨n, hn, hval⟩ := h.txspace
  obtain ⟨t, ht, htval⟩ := h.pushBytes (Buffer.encode frame)
  rw [push_eq, hn, Option.bind_eq_bind, Option.bind_some, ht, ← hval, ← BitVec.lt_def]
  by_cases hlt : n < BitVec.ofNat w (frame.len + frameSizeWithoutData)
  · exact .inl ⟨hlt, if_pos hlt⟩
  · exact .inr ⟨hlt, t, if_neg hlt, htval⟩

/-! ## Peeking and popping -/

/-- The byte `k` cells after `tail`. -/
def cell (b : CheckedBuffer w) (k : BitVec w) : Byte := b.buffer ((b.tail + k) % b.size).toNat

/-- The frame that starts at `tail`, whatever is there. -/
def frameAt (b : CheckedBuffer w) (frame : CanardCANFrame) : CanardCANFrame :=
  ({ frame with
      id := idOfBytes (b.cell 1) (b.cell 2) (b.cell 3) (b.cell 4)
      dataLen := b.cell 5 } : CanardCANFrame).fill fun i => b.cell (6 + BitVec.ofNat w i)

/-- **A byte is read inside the block**, however far from `tail`. -/
theorem Wf.peekbyte (h : b.Wf) (k : BitVec w) : b.peekbyte k = some (b.cell k) := by
  rw [CheckedBuffer.peekbyte, h.remainder, Option.bind_eq_bind, Option.bind_some, load,
    if_pos (h.remainder_lt _), cell]

/-- **An advance stays inside the block**, however far it goes. -/
theorem Wf.advance (h : b.Wf) (k : BitVec w) :
    b.advance k = some { b with tail := (k + b.tail) % b.size } := by
  rw [CheckedBuffer.advance, h.remainder, Option.bind_eq_bind, Option.bind_some, Option.pure_def]

/-- **What a pop does**: nothing, if the ring looks empty or no header is at `tail`; else it reads
the frame at `tail` and steps over the length found there. -/
theorem Wf.pop_cases (h : b.Wf) (frame : CanardCANFrame) :
    ((b.toBuffer.available = 0 ∨ b.cell 0 ≠ frameHeader1) ∧
      b.pop frame = some (false, frame, b)) ∨
    ((b.toBuffer.available ≠ 0 ∧ b.cell 0 = frameHeader1) ∧
      b.pop frame = some (true, b.frameAt frame, { b with
        tail := (BitVec.ofNat w ((b.frameAt frame).len + frameSizeWithoutData) + b.tail)
          % b.size })) := by
  obtain ⟨n, hn, hval⟩ := h.available
  have hzero : n = 0 ↔ b.toBuffer.available = 0 := by
    rw [← hval, ← BitVec.toNat_inj]
    rfl
  rw [CheckedBuffer.pop, hn]
  simp only [h.peekbyte, h.advance, Option.bind_eq_bind, Option.bind_some, List.foldlM_pure]
  simp only [Option.pure_def, Option.bind_some]
  by_cases hempty : n = 0
  · exact .inl ⟨.inl (hzero.mp hempty), if_pos hempty⟩
  · by_cases hheader : b.cell 0 = frameHeader1
    · refine .inr ⟨⟨hzero.not.mp hempty, hheader⟩, ?_⟩
      rw [if_neg hempty, if_neg (not_not.mpr hheader)]
      rfl
    · exact .inl ⟨.inr hheader, (if_neg hempty).trans (if_pos hheader)⟩

/-! ## Runs -/

theorem Wf.reset (h : b.Wf) : b.reset.Wf :=
  Wf.of_toBuffer (toBuffer_reset b) (Buffer.wf_reset _ h.toBuffer.size_pos)

theorem step_push {frame : CanardCANFrame} {r : Bool} (h : b.push frame = some (r, t)) :
    b.step (.push frame) = some t := by
  rw [step, h]
  rfl

theorem step_pop {frame f : CanardCANFrame} {r : Bool} (h : b.pop frame = some (r, f, t)) :
    b.step (.pop frame) = some t := by
  rw [step, h]
  rfl

/-- **A call has a result, and leaves head and tail in the block.** -/
theorem Wf.step (h : b.Wf) (op : BufferOp) : ∃ t, b.step op = some t ∧ t.Wf := by
  cases op with
  | push frame =>
    obtain ⟨-, hpush⟩ | ⟨-, t, hpush, ht⟩ := h.push_cases frame
    · exact ⟨b, step_push hpush, h⟩
    · exact ⟨t, step_push hpush, Wf.of_toBuffer ht (h.toBuffer.pushBytes _)⟩
  | pop frame =>
    obtain ⟨-, hpop⟩ | ⟨-, hpop⟩ := h.pop_cases frame
    · exact ⟨b, step_pop hpop, h⟩
    · exact ⟨_, step_pop hpop, h.head_lt, h.remainder_lt _⟩
  | reset => exact ⟨b.reset, rfl, h.reset⟩

/-- **Head and tail stay in the block**, whatever it holds: no call of any sequence steps out of it,
and `available()` and `txspace()` stay between 0 and `size`. -/
theorem always_inBounds (h : b.Wf) (ops : List BufferOp) :
    (∃ t, (machine w).run b ops = some t) ∧ (machine w).Always InBounds b ops := by
  refine ⟨?_, (Machine.always_of_step h (fun s op t hs hst => ?_) ops).mono fun _ => Wf.inBounds⟩
  · obtain ⟨t, hrun, -⟩ := Machine.exists_run_of_step (M := machine w) h
      (fun s op hs => hs.step op) ops
    exact ⟨t, hrun⟩
  · obtain ⟨t', hst', ht'⟩ := hs.step op
    exact Option.some.inj (hst'.symm.trans hst) ▸ ht'

/-- A ring of 16 bytes: an unread header at its start, and then the length byte 255. -/
def ring16 : CheckedBuffer 32 := ⟨fun i => if i = 0 then frameHeader1 else 0xFF, 16, 1, 0⟩

theorem always_inBounds_ring16 :
    (∃ t, (machine 32).run ring16 [.pop ⟨0, 0, 0⟩, .push ⟨0, 0, 0⟩, .reset] = some t) ∧
      (machine 32).Always InBounds ring16 [.pop ⟨0, 0, 0⟩, .push ⟨0, 0, 0⟩, .reset] :=
  always_inBounds ⟨by decide, by decide⟩ _

/-! ## With room for a frame: the indices of `Buffer` -/

/-- `size_t` does not wrap, however long the frame at `tail` claims to be. -/
def Roomy (b : CheckedBuffer w) : Prop := b.size.toNat + 0xFF + frameSizeWithoutData ≤ 2 ^ w

theorem Roomy.add_lt (hr : b.Roomy) (h : b.Wf) {k : ℕ} (hk : k ≤ 0xFF + frameSizeWithoutData) :
    b.tail.toNat + k < 2 ^ w := by
  have htail : b.tail.toNat < b.size.toNat := h.tail_lt
  unfold Roomy at hr
  omega

theorem Roomy.toNat_ofNat (hr : b.Roomy) (h : b.Wf) {k : ℕ}
    (hk : k ≤ 0xFF + frameSizeWithoutData) : (BitVec.ofNat w k).toNat = k := by
  rw [BitVec.toNat_ofNat]
  exact Nat.mod_eq_of_lt ((Nat.le_add_left _ _).trans_lt (hr.add_lt h hk))

/-- A frame takes no more room than that. -/
theorem len_add_le (frame : CanardCANFrame) :
    frame.len + frameSizeWithoutData ≤ 0xFF + frameSizeWithoutData :=
  Nat.add_le_add_right (Nat.le_of_lt_succ frame.dataLen.isLt) _

theorem Roomy.cell (hr : b.Roomy) (h : b.Wf) {k : ℕ} (hk : k ≤ 0xFF + frameSizeWithoutData) :
    b.cell (BitVec.ofNat w k) = b.toBuffer.peekbyte k := by
  have hval := hr.toNat_ofNat h hk
  rw [CheckedBuffer.cell, BitVec.toNat_umod,
    BitVec.toNat_add_of_lt (hval.symm ▸ hr.add_lt h hk), hval]
  rfl

theorem Roomy.frameAt (hr : b.Roomy) (h : b.Wf) (frame : CanardCANFrame) :
    b.frameAt frame = ({ frame with
      id := idOfBytes (b.toBuffer.peekbyte 1) (b.toBuffer.peekbyte 2) (b.toBuffer.peekbyte 3)
        (b.toBuffer.peekbyte 4)
      dataLen := b.toBuffer.peekbyte 5 } : CanardCANFrame).fill
        fun i => b.toBuffer.peekbyte (6 + i) := by
  have hbyte (k : ℕ) (hk : k ≤ 0xFF + frameSizeWithoutData) := hr.cell h hk
  have h1 : b.cell 1 = b.toBuffer.peekbyte 1 := hbyte 1 (by decide)
  have h2 : b.cell 2 = b.toBuffer.peekbyte 2 := hbyte 2 (by decide)
  have h3 : b.cell 3 = b.toBuffer.peekbyte 3 := hbyte 3 (by decide)
  have h4 : b.cell 4 = b.toBuffer.peekbyte 4 := hbyte 4 (by decide)
  have h5 : b.cell 5 = b.toBuffer.peekbyte 5 := hbyte 5 (by decide)
  rw [CheckedBuffer.frameAt, h1, h2, h3, h4, h5]
  refine CanardCANFrame.fill_congr fun i hi => ?_
  have hlen : i < 0x100 := hi.trans (BitVec.isLt _)
  have hsum : (6 : BitVec w) + BitVec.ofNat w i = BitVec.ofNat w (6 + i) :=
    (BitVec.ofNat_add 6 i).symm
  rw [hsum]
  exact hbyte (6 + i) (by unfold frameSizeWithoutData; omega)

theorem Roomy.advance (hr : b.Roomy) (h : b.Wf) {k : ℕ} (hk : k ≤ 0xFF + frameSizeWithoutData) :
    toBuffer { b with tail := (BitVec.ofNat w k + b.tail) % b.size } = b.toBuffer.advance k := by
  have hval := hr.toNat_ofNat h hk
  have hsum : (BitVec.ofNat w k).toNat + b.tail.toNat < 2 ^ w := by
    rw [hval, Nat.add_comm]
    exact hr.add_lt h hk
  simp only [toBuffer, Buffer.advance, BitVec.toNat_umod, BitVec.toNat_add_of_lt hsum, hval]

/-- **A push is that of `Buffer`.** -/
theorem Roomy.push (hr : b.Roomy) (h : b.Wf) (frame : CanardCANFrame) :
    ∃ t, b.push frame = some ((b.toBuffer.push frame).1, t) ∧
      t.toBuffer = (b.toBuffer.push frame).2 := by
  rw [Buffer.push_eq]
  have hlen := hr.toNat_ofNat h (len_add_le frame)
  obtain ⟨hlt, hpush⟩ | ⟨hlt, t, hpush, ht⟩ := h.push_cases frame
  · rw [hlen] at hlt
    exact ⟨b, by rw [if_pos hlt, hpush], by rw [if_pos hlt]⟩
  · rw [hlen] at hlt
    exact ⟨t, by rw [if_neg hlt, hpush], by rw [if_neg hlt, ht]⟩

/-- **A pop is that of `Buffer`.** -/
theorem Roomy.pop (hr : b.Roomy) (h : b.Wf) (frame : CanardCANFrame) :
    ∃ t, b.pop frame = some ((b.toBuffer.pop frame).1, (b.toBuffer.pop frame).2.1, t) ∧
      t.toBuffer = (b.toBuffer.pop frame).2.2 := by
  have h0 : b.cell 0 = b.toBuffer.peekbyte 0 := hr.cell h (k := 0) (by decide)
  obtain ⟨hstop, hpop⟩ | ⟨⟨hne, hheader⟩, hpop⟩ := h.pop_cases frame
  · have hval : b.toBuffer.pop frame = (false, frame, b.toBuffer) := by
      obtain hempty | hheader := hstop
      · exact Buffer.pop_of_available_eq_zero hempty frame
      · exact Buffer.pop_of_peekbyte_ne (h0 ▸ hheader) frame
    exact ⟨b, by rw [hval, hpop], by rw [hval]⟩
  · have hval : b.toBuffer.pop frame = (true, b.frameAt frame,
        b.toBuffer.advance ((b.frameAt frame).len + frameSizeWithoutData)) := by
      rw [Buffer.pop, if_neg hne, if_neg (not_not.mpr (h0 ▸ hheader)), hr.frameAt h]
    exact ⟨_, by rw [hval, hpop], by rw [hval, hr.advance h (len_add_le _)]⟩

theorem Roomy.step (hr : b.Roomy) (h : b.Wf) (op : BufferOp) :
    ∃ t, b.step op = some t ∧ t.toBuffer = b.toBuffer.next op := by
  cases op with
  | push frame =>
    obtain ⟨t, hpush, ht⟩ := hr.push h frame
    exact ⟨t, step_push hpush, ht⟩
  | pop frame =>
    obtain ⟨t, hpop, ht⟩ := hr.pop h frame
    exact ⟨t, step_pop hpop, ht⟩
  | reset => exact ⟨b.reset, rfl, toBuffer_reset b⟩

/-- **Every run of calls is one of `Buffer`.** -/
theorem Roomy.run (hr : b.Roomy) (h : b.Wf) (ops : List BufferOp) :
    ∃ t, (machine w).run b ops = some t ∧ t.toBuffer = ops.foldl Buffer.next b.toBuffer := by
  have hstep (b : CheckedBuffer w) (c : Buffer) (op : BufferOp)
      (hR : b.toBuffer = c ∧ b.Wf ∧ b.Roomy) :
      ∃ t, b.step op = some t ∧ t.toBuffer = c.next op ∧ t.Wf ∧ t.Roomy := by
    obtain ⟨rfl, h, hr⟩ := hR
    obtain ⟨t, hst, ht⟩ := hr.step h op
    have hsize : t.size.toNat = b.size.toNat :=
      (congrArg Buffer.size ht).trans (Buffer.next_size _ op)
    refine ⟨t, hst, ht, Wf.of_toBuffer ht (h.toBuffer.next op), ?_⟩
    rwa [Roomy, hsize]
  obtain ⟨t, hrun, ht, -⟩ := Machine.exists_run_of_simulation (M := machine w)
    (fun b c => b.toBuffer = c ∧ b.Wf ∧ b.Roomy) Buffer.next ⟨rfl, h, hr⟩ hstep ops
  exact ⟨t, hrun, ht⟩

end CheckedBuffer

end LibDronecan
