import LibDronecan.DataIface.Frame

/-!
# DataIface/Raw — the byte ring `RawIface::Buffer`

    tail ──unread──▸ head          push writes at head, pop reads from tail, both mod size

The model is the C++ line for line; `size_t` is `ℕ`, with no buffer near the end of the address
space.  `unread` is the circular window from `tail` to `head`, and every operation is read off it:
`unread_pushBytes` (a push appends), `peekbyte_eq` (a peek indexes), `unread_advance` (an advance
within the window drops), `available_advance_succ` (an advance one past it wraps the other way).
-/

open Machinery

namespace LibDronecan

/-- `RawIface::FRAME_HEADER1`. -/
def frameHeader1 : Byte := 0x34

/-- `RawIface::FRAME_SIZE_WITHOUT_DATA`. -/
def frameSizeWithoutData : ℕ := 7

/-- `RawIface::Buffer`. -/
structure Buffer where
  buffer : ℕ → Byte
  size : ℕ
  head : ℕ
  tail : ℕ

namespace Buffer

def available (b : Buffer) : ℕ :=
  if b.head ≥ b.tail then b.head - b.tail else b.size - b.tail + b.head

def advance (b : Buffer) (bytes : ℕ) : Buffer := { b with tail := (bytes + b.tail) % b.size }

def txspace (b : Buffer) : ℕ := b.size - b.available

def pushbyte (b : Buffer) (byte : Byte) : Buffer :=
  { b with
    buffer := Function.update b.buffer b.head byte
    head := if b.head + 1 ≥ b.size then 0 else b.head + 1 }

def reset (b : Buffer) : Buffer := { b with head := 0, tail := 0 }

/-- `push`: the return value and the buffer afterwards. -/
def push (b : Buffer) (frame : CanardCANFrame) : Bool × Buffer :=
  if b.txspace < frame.len + frameSizeWithoutData then (false, b)
  else
    let b := b.pushbyte frameHeader1
    let b := b.pushbyte ((frame.id &&& 0xFF).setWidth 8)
    let b := b.pushbyte (((frame.id >>> 8) &&& 0xFF).setWidth 8)
    let b := b.pushbyte (((frame.id >>> 16) &&& 0xFF).setWidth 8)
    let b := b.pushbyte (((frame.id >>> 24) &&& 0xFF).setWidth 8)
    let b := b.pushbyte frame.dataLen
    (true, (List.range frame.len).foldl (fun b i => b.pushbyte (frame.data i)) b)

def peekbyte (b : Buffer) (byte : ℕ) : Byte := b.buffer ((b.tail + byte) % b.size)

/-- `pop`: the return value, the frame it was handed as it leaves it, and the buffer afterwards. -/
def pop (b : Buffer) (frame : CanardCANFrame) : Bool × CanardCANFrame × Buffer :=
  if b.available = 0 then (false, frame, b)
  else if b.peekbyte 0 ≠ frameHeader1 then (false, frame, b)
  else
    let frame := { frame with
      id := idOfBytes (b.peekbyte 1) (b.peekbyte 2) (b.peekbyte 3) (b.peekbyte 4)
      dataLen := b.peekbyte 5 }
    let frame := frame.fill fun i => b.peekbyte (6 + i)
    (true, frame, b.advance (frame.len + frameSizeWithoutData))

/-! ## Well-formed indices -/

/-- Head and tail point into the buffer. -/
structure Wf (b : Buffer) : Prop where
  head_lt : b.head < b.size
  tail_lt : b.tail < b.size

/-- The unread bytes, from `tail` to `head`. -/
def unread (b : Buffer) : List Byte := window b.buffer b.size b.tail b.available

variable {b : Buffer}

theorem wf_reset (b : Buffer) (h : 0 < b.size) : b.reset.Wf := ⟨h, h⟩

@[simp] theorem unread_reset (b : Buffer) : b.reset.unread = [] := rfl

theorem Wf.size_pos (hb : b.Wf) : 0 < b.size := Nat.zero_lt_of_lt hb.head_lt

theorem Wf.available_lt (hb : b.Wf) : b.available < b.size := by
  obtain ⟨hh, ht⟩ := hb
  unfold available
  split_ifs <;> omega

/-- **`head` is `available()` cells after `tail`.** -/
theorem Wf.head_eq (hb : b.Wf) : b.head = (b.tail + b.available) % b.size := by
  obtain ⟨hh, ht⟩ := hb
  unfold available
  split_ifs with h
  · rw [Nat.add_sub_cancel' h, Nat.mod_eq_of_lt hh]
  · rw [← Nat.add_assoc, Nat.add_sub_cancel' ht.le, Nat.add_mod_left, Nat.mod_eq_of_lt hh]

@[simp] theorem length_unread (b : Buffer) : b.unread.length = b.available := by simp [unread]

/-! ## Pushing bytes -/

@[simp] theorem pushbyte_size (b : Buffer) (x : Byte) : (b.pushbyte x).size = b.size := rfl

theorem Wf.pushbyte (hb : b.Wf) (x : Byte) : (b.pushbyte x).Wf := by
  refine ⟨?_, hb.tail_lt⟩
  have := hb.size_pos
  simp only [Buffer.pushbyte]
  split_ifs <;> omega

/-- One more byte is available, as long as the ring does not become full. -/
theorem available_pushbyte (hb : b.Wf) (x : Byte) (h : b.available + 1 < b.size) :
    (b.pushbyte x).available = b.available + 1 := by
  obtain ⟨hh, ht⟩ := hb
  simp only [available, Buffer.pushbyte] at h ⊢
  split_ifs at h ⊢ <;> omega

theorem unread_pushbyte (hb : b.Wf) (x : Byte) (h : b.available + 1 < b.size) :
    (b.pushbyte x).unread = b.unread ++ [x] := by
  rw [unread, available_pushbyte hb x h, unread, ← window_update_snoc _ _ hb.available_lt,
    ← hb.head_eq]
  rfl

/-- The bytes of a list, pushed one after the other. -/
def pushBytes (b : Buffer) (l : List Byte) : Buffer := l.foldl pushbyte b

@[simp] theorem pushBytes_nil (b : Buffer) : b.pushBytes [] = b := rfl

@[simp] theorem pushBytes_cons (b : Buffer) (x : Byte) (l : List Byte) :
    b.pushBytes (x :: l) = (b.pushbyte x).pushBytes l := rfl

theorem Wf.pushBytes (hb : b.Wf) (l : List Byte) : (b.pushBytes l).Wf := by
  induction l generalizing b with
  | nil => exact hb
  | cons x l ih => exact ih (hb.pushbyte x)

/-- **A push appends to the unread bytes**, short of filling the ring. -/
theorem unread_pushBytes (hb : b.Wf) (l : List Byte) (h : b.available + l.length < b.size) :
    (b.pushBytes l).unread = b.unread ++ l := by
  induction l generalizing b with
  | nil => rw [pushBytes_nil, List.append_nil]
  | cons x l ih =>
    rw [List.length_cons] at h
    have hx : b.available + 1 < b.size := by omega
    have hl : (b.pushbyte x).available + l.length < (b.pushbyte x).size := by
      rw [available_pushbyte hb x hx, pushbyte_size]
      omega
    rw [pushBytes_cons, ih (hb.pushbyte x) hl, unread_pushbyte hb x hx, List.append_assoc,
      List.singleton_append]

/-- What `push` writes for a frame. -/
def encode (frame : CanardCANFrame) : List Byte :=
  frameHeader1 :: idBytes frame.id ++ frame.dataLen :: frame.payload

@[simp] theorem length_encode (frame : CanardCANFrame) : (encode frame).length = frame.len + 6 := by
  simp [encode]
  omega

/-- **`push` writes `encode frame`**, or nothing at all. -/
theorem push_eq (b : Buffer) (frame : CanardCANFrame) :
    b.push frame = if b.txspace < frame.len + frameSizeWithoutData then (false, b)
      else (true, b.pushBytes (encode frame)) := by
  simp only [push, encode, idBytes, CanardCANFrame.payload, pushBytes, List.cons_append,
    List.nil_append, List.foldl_cons, List.foldl_map]

/-- A push is accepted when one byte stays free beside the frame. -/
theorem push_fst (hb : b.Wf) (frame : CanardCANFrame) :
    (b.push frame).1 = true ↔ b.available + (encode frame).length < b.size := by
  have := hb.available_lt
  rw [push_eq, length_encode]
  by_cases h : b.txspace < frame.len + frameSizeWithoutData
  · rw [if_pos h]
    simp only [txspace, frameSizeWithoutData] at h
    simp only [Bool.false_eq_true, false_iff]
    omega
  · rw [if_neg h]
    simp only [txspace, frameSizeWithoutData] at h
    simp only [true_iff]
    omega

theorem push_of_fst (h : (b.push frame).1 = true) :
    (b.push frame).2 = b.pushBytes (encode frame) := by
  rw [push_eq] at h ⊢
  split_ifs at h ⊢
  rfl

theorem push_of_not_fst (h : (b.push frame).1 = false) : (b.push frame).2 = b := by
  rw [push_eq] at h ⊢
  split_ifs at h ⊢
  rfl

/-! ## Peeking and popping -/

/-- **A peek indexes the unread bytes.** -/
theorem peekbyte_eq {k : ℕ} {x : Byte} (h : b.unread[k]? = some x) : b.peekbyte k = x := by
  have hk : k < b.available := by
    rw [← length_unread]
    exact (List.getElem?_eq_some_iff.mp h).1
  rw [unread, getElem?_window _ hk] at h
  exact Option.some.inj h

/-- An advance within the unread bytes drops them. -/
theorem available_advance (hb : b.Wf) {k : ℕ} (hk : k ≤ b.available) :
    (b.advance k).available = b.available - k := by
  obtain ⟨hh, ht⟩ := hb
  have hmod : (k + b.tail) % b.size
      = if k + b.tail < b.size then k + b.tail else k + b.tail - b.size := by
    split_ifs with h
    · exact Nat.mod_eq_of_lt h
    · have : k < b.size := by
        unfold available at hk
        split_ifs at hk <;> omega
      rw [Nat.mod_eq_sub_mod (by omega), Nat.mod_eq_of_lt (by omega)]
  simp only [available, advance, hmod] at hk ⊢
  split_ifs at hk ⊢ <;> omega

theorem Wf.advance (hb : b.Wf) (k : ℕ) : (b.advance k).Wf :=
  ⟨hb.head_lt, Nat.mod_lt _ hb.size_pos⟩

theorem unread_advance (hb : b.Wf) {k : ℕ} (hk : k ≤ b.available) :
    (b.advance k).unread = b.unread.drop k := by
  rw [unread, available_advance hb hk, unread, drop_window]
  simp only [advance, window_mod, Nat.add_comm]

/-- **An advance one past the unread bytes makes the ring look full.** -/
theorem available_advance_succ (hb : b.Wf) :
    (b.advance (b.available + 1)).available = b.size - 1 := by
  obtain ⟨hh, ht⟩ := hb
  have hmod : (b.available + 1 + b.tail) % b.size
      = if b.head + 1 = b.size then 0 else b.head + 1 := by
    have hx : b.available + 1 + b.tail = b.tail + b.available + 1 := by omega
    rw [hx, Nat.add_mod, ← Wf.head_eq ⟨hh, ht⟩]
    split_ifs with h
    · rcases Nat.lt_or_ge 1 b.size with h1 | h1
      · rw [Nat.mod_eq_of_lt h1, h, Nat.mod_self]
      · obtain h1 : b.size = 1 := by omega
        rw [h1, Nat.mod_one]
    · rw [Nat.mod_eq_of_lt (show 1 < b.size by omega), Nat.mod_eq_of_lt (by omega)]
  simp only [available] at hmod ⊢
  simp only [advance, hmod]
  split_ifs <;> omega

theorem pop_of_available_eq_zero (h : b.available = 0) (frame : CanardCANFrame) :
    b.pop frame = (false, frame, b) := if_pos h

theorem pop_of_peekbyte_ne (h : b.peekbyte 0 ≠ frameHeader1) (frame : CanardCANFrame) :
    b.pop frame = (false, frame, b) := by
  unfold pop
  split_ifs
  · rfl
  · rfl

/-- **A pop at an encoded frame yields that frame**, and advances by `len + 7`. -/
theorem pop_of_unread (f frame : CanardCANFrame) {rest : List Byte}
    (h : b.unread = encode f ++ rest) :
    (b.pop frame).1 = true ∧ (b.pop frame).2.1.view = f.view
      ∧ (b.pop frame).2.2 = b.advance (f.len + frameSizeWithoutData) := by
  have hpos : b.available ≠ 0 := by
    rw [← length_unread, h, List.length_append, length_encode]
    omega
  have hbyte : ∀ (k : ℕ) (x : Byte), (encode f ++ rest)[k]? = some x → b.peekbyte k = x :=
    fun k x hx => peekbyte_eq (h ▸ hx)
  have h0 : b.peekbyte 0 = frameHeader1 := hbyte 0 _ rfl
  have hdata : ∀ i < f.len, b.peekbyte (6 + i) = f.data i := by
    intro i hi
    refine hbyte (6 + i) _ ?_
    have hi' : i < f.payload.length := by rwa [CanardCANFrame.length_payload]
    rw [Nat.add_comm, encode, List.append_assoc]
    simp only [List.cons_append, idBytes, List.nil_append, List.getElem?_cons_succ]
    rw [List.getElem?_append_left hi', List.getElem?_eq_getElem hi', CanardCANFrame.getElem_payload]
  have hpop : b.pop frame = (true, ({ frame with id := f.id, dataLen := f.dataLen } :
      CanardCANFrame).fill (fun i => b.peekbyte (6 + i)),
        b.advance (f.len + frameSizeWithoutData)) := by
    rw [pop, if_neg hpos, if_neg (not_not.mpr h0)]
    simp only [hbyte 1 _ rfl, hbyte 2 _ rfl, hbyte 3 _ rfl, hbyte 4 _ rfl, hbyte 5 _ rfl,
      idOfBytes_idBytes]
    rfl
  refine ⟨by rw [hpop], ?_, by rw [hpop]⟩
  rw [hpop, CanardCANFrame.view, CanardCANFrame.view, CanardCANFrame.payload_fill]
  exact congrArg (fun l => (f.id, f.dataLen, l))
    (List.map_congr_left fun i hi => hdata i (List.mem_range.mp hi))

end Buffer

end LibDronecan
