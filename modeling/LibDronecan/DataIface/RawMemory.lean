import LibDronecan.DataIface.LogFile
import LibDronecan.DataIface.Raw
import LibDronecan.Machinery.Memory

/-!
# DataIface/RawMemory — a `RawIface::Buffer` where it lies in memory

    p ──▸ buffer | size | head | tail        four words
            └──▸ byte | byte | …             size bytes

The header is at `p`, the data where its `buffer` field points.  `reset`, `push` and `pop` are the
C++ on the bytes of a 32-bit little-endian core, with its `size_t` arithmetic.  As long as header
and data do not overlap, they do to the memory what `Buffer.push` and `Buffer.pop` do to the buffer
it `Holds`, and write nowhere else (`Within`): `Holds.push`, `Holds.pop`.
-/

open Machinery

namespace LibDronecan

abbrev SharedMemory := Memory 32

/-- The fields of a `Buffer`. -/
inductive BufferField
  | buffer
  | size
  | head
  | tail
  deriving DecidableEq

def BufferField.offset : BufferField → ℕ
  | .buffer => 0
  | .size => 4
  | .head => 8
  | .tail => 12

/-- `sizeof(Buffer)`. -/
def sizeofBuffer : ℕ := 16

/-- A buffer that can be pushed to: its indices point into it, or it has no data to point into. -/
def Buffer.Usable (b : Buffer) : Prop := b.Wf ∨ b.size = 0 ∧ b.head = 0 ∧ b.tail = 0

namespace SharedMemory

/-- Read a field of the header at `p`. -/
def load (m : SharedMemory) (p : Word) (f : BufferField) : Word :=
  wordOfBytes .little (m.read (p + BitVec.ofNat 32 f.offset) 4)

/-- Write a field of the header at `p`. -/
def store (m : SharedMemory) (p : Word) (f : BufferField) (value : Word) : SharedMemory :=
  m.write (p + BitVec.ofNat 32 f.offset) (wordBytes .little value)

/-- `memset`. -/
def memset (m : SharedMemory) (p : Word) (value : Byte) (n : Word) : SharedMemory :=
  m.write p (List.replicate n.toNat value)

/-! ## The operations of the transmitter -/

def available (m : SharedMemory) (p : Word) : Word :=
  if m.load p .head ≥ m.load p .tail then m.load p .head - m.load p .tail
  else m.load p .size - m.load p .tail + m.load p .head

def txspace (m : SharedMemory) (p : Word) : Word := m.load p .size - m.available p

def reset (m : SharedMemory) (p : Word) : SharedMemory := (m.store p .head 0).store p .tail 0

def pushbyte (m : SharedMemory) (p : Word) (byte : Byte) : SharedMemory :=
  let head := m.load p .head
  let m : SharedMemory := m.write (m.load p .buffer + head) [byte]
  let m := m.store p .head (head + 1)
  if m.load p .head ≥ m.load p .size then m.store p .head 0 else m

/-- `push`: the return value and the memory afterwards. -/
def push (m : SharedMemory) (p : Word) (frame : CanardCANFrame) : Bool × SharedMemory :=
  if m.txspace p < BitVec.ofNat 32 (frame.len + frameSizeWithoutData) then (false, m)
  else
    let m := m.pushbyte p frameHeader1
    let m := m.pushbyte p ((frame.id &&& 0xFF).setWidth 8)
    let m := m.pushbyte p (((frame.id >>> 8) &&& 0xFF).setWidth 8)
    let m := m.pushbyte p (((frame.id >>> 16) &&& 0xFF).setWidth 8)
    let m := m.pushbyte p (((frame.id >>> 24) &&& 0xFF).setWidth 8)
    let m := m.pushbyte p frame.dataLen
    (true, (List.range frame.len).foldl (fun m i => m.pushbyte p (frame.data i)) m)

/-! ## The operations of the receiver -/

def peekbyte (m : SharedMemory) (p byte : Word) : Byte :=
  m (m.load p .buffer + (m.load p .tail + byte) % m.load p .size)

def advance (m : SharedMemory) (p bytes : Word) : SharedMemory :=
  m.store p .tail ((bytes + m.load p .tail) % m.load p .size)

/-- `pop`: the return value, the frame it was handed as it leaves it, and the memory afterwards. -/
def pop (m : SharedMemory) (p : Word) (frame : CanardCANFrame) :
    Bool × CanardCANFrame × SharedMemory :=
  if m.available p = 0 then (false, frame, m)
  else if m.peekbyte p 0 ≠ frameHeader1 then (false, frame, m)
  else
    let frame := { frame with
      id := idOfBytes (m.peekbyte p 1) (m.peekbyte p 2) (m.peekbyte p 3) (m.peekbyte p 4)
      dataLen := m.peekbyte p 5 }
    let frame := frame.fill fun i => m.peekbyte p (BitVec.ofNat 32 (6 + i))
    (true, frame, m.advance p (BitVec.ofNat 32 (frame.len + frameSizeWithoutData)))

/-! ## Fields -/

variable {m m' m'' : SharedMemory} {p q a value : Word} {f g : BufferField}

/-- A field lies in the header. -/
theorem span_field_subset (p : Word) (f : BufferField) :
    span (p + BitVec.ofNat 32 f.offset) 4 ⊆ span p sizeofBuffer :=
  span_subset (by cases f <;> decide) (by decide)

/-- Two fields do not overlap. -/
theorem disjoint_field (p : Word) (h : f ≠ g) :
    Disjoint (span (p + BitVec.ofNat 32 f.offset) 4) (span (p + BitVec.ofNat 32 g.offset) 4) := by
  have hlt : f.offset + 4 ≤ g.offset ∨ g.offset + 4 ≤ f.offset := by
    revert h
    cases f <;> cases g <;> decide
  have hmax (f : BufferField) : f.offset + 4 ≤ 2 ^ 32 := by cases f <;> decide
  obtain hfg | hgf := hlt
  · exact disjoint_span hfg (hmax g)
  · exact (disjoint_span hgf (hmax f)).symm

@[simp] theorem load_store_self (m : SharedMemory) (p : Word) (f : BufferField) (value : Word) :
    (m.store p f value).load p f = value := by
  have hread : (m.store p f value).read (p + BitVec.ofNat 32 f.offset) 4
      = wordBytes .little value :=
    Memory.read_write (l := wordBytes .little value) (by rw [length_wordBytes]; decide)
  rw [load, hread, wordOfBytes_wordBytes]

theorem load_store_of_ne (h : f ≠ g) : (m.store p f value).load p g = m.load p g := by
  rw [load, store, Memory.read_write_of_disjoint (by
    rw [length_wordBytes]; exact disjoint_field p (Ne.symm h)), load]

/-- Storing the value a field has changes nothing. -/
theorem store_load (m : SharedMemory) (p : Word) (f : BufferField) :
    m.store p f (m.load p f) = m := by
  rw [store, load, wordBytes_wordOfBytes _ (Memory.length_read _ _ _), Memory.write_read]

theorem store_of_notMem (h : a ∉ span p sizeofBuffer) : m.store p f value a = m a :=
  Memory.write_of_notMem (by
    rw [length_wordBytes]; exact fun ha => h (span_field_subset p f ha))

/-- A field depends on the bytes of the header. -/
theorem load_congr (h : ∀ a ∈ span p sizeofBuffer, m a = m' a) : m.load p f = m'.load p f := by
  rw [load, load, Memory.read_congr fun a ha => h a (span_field_subset p f ha)]

/-! ## What a buffer may change -/

/-- Header and data of the buffer at `p`. -/
def area (m : SharedMemory) (p : Word) : Set Word :=
  span p sizeofBuffer ∪ span (m.load p .buffer) (m.load p .size).toNat

/-- The buffer stays where it is, and nothing outside it changes. -/
structure Within (p : Word) (m m' : SharedMemory) : Prop where
  buffer : m'.load p .buffer = m.load p .buffer
  size : m'.load p .size = m.load p .size
  same : ∀ a ∉ m.area p, m' a = m a

theorem Within.area_eq (h : Within p m m') : m'.area p = m.area p := by
  rw [area, area, h.buffer, h.size]

theorem Within.refl (p : Word) (m : SharedMemory) : Within p m m := ⟨rfl, rfl, fun _ _ => rfl⟩

theorem Within.trans (h : Within p m m') (h' : Within p m' m'') : Within p m m'' where
  buffer := h'.buffer.trans h.buffer
  size := h'.size.trans h.size
  same a ha := (h'.same a (h.area_eq ▸ ha)).trans (h.same a ha)

/-- **The memory at `p` holds the buffer `b`**, its data clear of its header. -/
structure Holds (m : SharedMemory) (p : Word) (b : Buffer) : Prop where
  size : (m.load p .size).toNat = b.size
  head : (m.load p .head).toNat = b.head
  tail : (m.load p .tail).toNat = b.tail
  data : ∀ k < b.size, m (m.load p .buffer + BitVec.ofNat 32 k) = b.buffer k
  apart : Disjoint (span p sizeofBuffer) (span (m.load p .buffer) b.size)

variable {b : Buffer}

theorem Holds.notMem_header (h : m.Holds p b) {k : ℕ} (hk : k < b.size) :
    m.load p .buffer + BitVec.ofNat 32 k ∉ span p sizeofBuffer :=
  Set.disjoint_right.mp h.apart (add_mem_span hk)

/-- Another memory holds a buffer in the same place, if its head and its data are those there. -/
theorem Holds.of_load (h : m.Holds p b) {c : Buffer}
    (hload : ∀ f ≠ .head, m'.load p f = m.load p f) (hsize : c.size = b.size)
    (htail : c.tail = b.tail) (hhead : (m'.load p .head).toNat = c.head)
    (hdata : ∀ k < b.size, m' (m.load p .buffer + BitVec.ofNat 32 k) = c.buffer k) :
    m'.Holds p c := by
  have hbuffer := hload .buffer (by decide)
  refine ⟨?_, hhead, ?_, fun k hk => ?_, ?_⟩
  · rw [hload .size (by decide), h.size, hsize]
  · rw [hload .tail (by decide), h.tail, htail]
  · rw [hbuffer]
    exact hdata k (hsize ▸ hk)
  · rw [hbuffer, hsize]
    exact h.apart

/-- What a buffer holds is in its header and its data. -/
theorem Holds.congr (h : m.Holds p b) (hsame : ∀ a ∈ m.area p, m' a = m a) : m'.Holds p b := by
  have hload (f : BufferField) : m'.load p f = m.load p f :=
    load_congr fun a ha => hsame a (Or.inl ha)
  refine h.of_load (fun f _ => hload f) rfl rfl ?_ fun k hk => ?_
  · rw [hload]
    exact h.head
  · rw [hsame _ (Or.inr (add_mem_span (h.size ▸ hk)))]
    exact h.data k hk

/-- A byte of the data, written. -/
theorem Holds.write_byte (h : m.Holds p b) {k : ℕ} (hk : k < b.size) (byte : Byte) :
    Within p m (Memory.write m (m.load p .buffer + BitVec.ofNat 32 k) [byte]) ∧
      Holds (Memory.write m (m.load p .buffer + BitVec.ofNat 32 k) [byte]) p
        { b with buffer := Function.update b.buffer k byte } := by
  have hlt := (m.load p .size).isLt
  have hsize := h.size
  rw [Memory.write_singleton]
  have hload (f : BufferField) :
      load (Function.update m (m.load p .buffer + BitVec.ofNat 32 k) byte) p f = m.load p f :=
    load_congr fun a ha => Function.update_of_ne
      (ne_of_mem_of_not_mem ha (h.notMem_header hk)) _ _
  refine ⟨⟨hload .buffer, hload .size, fun a ha => Function.update_of_ne (fun hae => ha ?_) _ _⟩,
    h.of_load (fun f _ => hload f) rfl rfl ?_ fun j hj => ?_⟩
  · exact hae ▸ Or.inr (add_mem_span (hsize ▸ hk))
  · rw [hload]
    exact h.head
  · change _ = Function.update b.buffer k byte j
    obtain rfl | hjk := eq_or_ne j k
    · rw [Function.update_self, Function.update_self]
    · rw [Function.update_of_ne hjk, Function.update_of_ne]
      · exact h.data j hj
      · rwa [ne_eq, add_ofNat_inj (by omega) (by omega)]

/-- A new head. -/
theorem Holds.store_head (h : m.Holds p b) (value : Word) :
    Within p m (m.store p .head value) ∧
      Holds (m.store p .head value) p { b with head := value.toNat } := by
  have hload (f : BufferField) (hf : f ≠ .head) : (m.store p .head value).load p f = m.load p f :=
    load_store_of_ne (Ne.symm hf)
  refine ⟨⟨hload .buffer (by decide), hload .size (by decide), fun a ha => ?_⟩,
    h.of_load hload rfl rfl ?_ fun j hj => ?_⟩
  · exact store_of_notMem fun hin => ha (Or.inl hin)
  · rw [load_store_self]
  · rw [store_of_notMem (h.notMem_header hj)]
    exact h.data j hj

/-- **`pushbyte` in memory is `pushbyte`.** -/
theorem Holds.pushbyte (h : m.Holds p b) (hb : b.Wf) (byte : Byte) :
    Within p m (m.pushbyte p byte) ∧ Holds (m.pushbyte p byte) p (b.pushbyte byte) := by
  have hlt := (m.load p .size).isLt
  have hbhead := hb.head_lt
  have hsize := h.size
  have hhead : BitVec.ofNat 32 b.head = m.load p .head := by
    rw [← h.head, BitVec.ofNat_toNat, BitVec.setWidth_eq]
  have hsucc : (m.load p .head + 1).toNat = b.head + 1 := by
    rw [BitVec.toNat_add, h.head]
    exact Nat.mod_eq_of_lt (by change b.head + 1 < 2 ^ 32; omega)
  obtain ⟨hw₁, h₁⟩ := h.write_byte hb.head_lt byte
  obtain ⟨hw₂, h₂⟩ := h₁.store_head (m.load p .head + 1)
  obtain ⟨hw₃, h₃⟩ := h₂.store_head 0
  rw [hhead] at hw₁ hw₂ hw₃ h₁ h₂ h₃
  have hge : (load (store (Memory.write m (m.load p .buffer + m.load p .head) [byte]) p .head
      (m.load p .head + 1)) p .head ≥ load (store (Memory.write m
        (m.load p .buffer + m.load p .head) [byte]) p .head (m.load p .head + 1)) p .size)
      ↔ b.head + 1 ≥ b.size := by
    rw [ge_iff_le, BitVec.le_def, h₂.size, h₂.head, hsucc]
  simp only [SharedMemory.pushbyte, Buffer.pushbyte, hge]
  rw [hsucc] at h₂
  split_ifs with hwrap
  · exact ⟨(hw₁.trans hw₂).trans hw₃, h₃⟩
  · exact ⟨hw₁.trans hw₂, h₂⟩

/-- The bytes of a list, pushed one after the other. -/
def pushBytes (m : SharedMemory) (p : Word) (l : List Byte) : SharedMemory :=
  l.foldl (fun m byte => m.pushbyte p byte) m

theorem Holds.pushBytes (h : m.Holds p b) (hb : b.Wf) (l : List Byte) :
    Within p m (m.pushBytes p l) ∧ Holds (m.pushBytes p l) p (b.pushBytes l) := by
  induction l generalizing m b with
  | nil => exact ⟨Within.refl p m, h⟩
  | cons byte l ih =>
    obtain ⟨hw, hbyte⟩ := h.pushbyte hb byte
    obtain ⟨hw', hrest⟩ := ih hbyte (hb.pushbyte byte)
    exact ⟨hw.trans hw', hrest⟩

theorem push_eq (m : SharedMemory) (p : Word) (frame : CanardCANFrame) :
    m.push p frame = if m.txspace p < BitVec.ofNat 32 (frame.len + frameSizeWithoutData)
      then (false, m) else (true, m.pushBytes p (Buffer.encode frame)) := by
  simp only [push, Buffer.encode, idBytes, CanardCANFrame.payload, pushBytes, List.cons_append,
    List.nil_append, List.foldl_cons, List.foldl_map]

theorem Holds.available (h : m.Holds p b) (hb : b.Usable) :
    (m.available p).toNat = b.available := by
  have hlt := (m.load p .size).isLt
  have hsize := h.size
  have hbounds : b.head ≤ b.size ∧ b.tail ≤ b.size ∧ (b.head < b.tail → b.tail < b.size) := by
    obtain hwf | ⟨hs, hh, ht⟩ := hb
    · exact ⟨hwf.head_lt.le, hwf.tail_lt.le, fun _ => hwf.tail_lt⟩
    · omega
  have hge : m.load p .head ≥ m.load p .tail ↔ b.head ≥ b.tail := by
    rw [ge_iff_le, BitVec.le_def, h.head, h.tail]
  have hhead := h.head
  have htail := h.tail
  simp only [SharedMemory.available, Buffer.available, hge]
  split_ifs with hle <;> bv_omega

theorem Holds.txspace (h : m.Holds p b) (hb : b.Usable) : (m.txspace p).toNat = b.txspace := by
  have hav := h.available hb
  have hsize := h.size
  have hle : b.available ≤ b.size := by
    obtain hwf | ⟨hs, hh, ht⟩ := hb
    · exact hwf.available_lt.le
    · simp only [Buffer.available]
      split_ifs <;> omega
  rw [SharedMemory.txspace, Buffer.txspace, ← hav, ← hsize]
  exact BitVec.toNat_sub_of_le (by rwa [BitVec.le_def, hav, hsize])

/-- **`push` in memory is `push`**, on what the memory holds, and writes nowhere else. -/
theorem Holds.push (h : m.Holds p b) (hb : b.Usable) (frame : CanardCANFrame) :
    (m.push p frame).1 = (b.push frame).1 ∧ Within p m (m.push p frame).2 ∧
      Holds (m.push p frame).2 p (b.push frame).2 ∧ (b.push frame).2.Usable := by
  have hlen := frame.dataLen.isLt
  have hfull : m.txspace p < BitVec.ofNat 32 (frame.len + frameSizeWithoutData)
      ↔ b.txspace < frame.len + frameSizeWithoutData := by
    rw [BitVec.lt_def, h.txspace hb, BitVec.toNat_ofNat, Nat.mod_eq_of_lt]
    simp only [CanardCANFrame.len, frameSizeWithoutData]
    omega
  rw [push_eq, Buffer.push_eq]
  simp only [hfull]
  split_ifs with hspace
  · exact ⟨rfl, Within.refl p m, h, hb⟩
  · obtain hwf | ⟨hs, -, -⟩ := hb
    · obtain ⟨hw, hpush⟩ := h.pushBytes hwf (Buffer.encode frame)
      dsimp only
      exact ⟨rfl, hw, hpush, Or.inl (hwf.pushBytes (Buffer.encode frame))⟩
    · -- no data, no space
      simp only [Buffer.txspace, frameSizeWithoutData] at hspace
      omega

/-! ## The receiver's side -/

/-- A new tail. -/
theorem Holds.store_tail (h : m.Holds p b) (value : Word) :
    Within p m (m.store p .tail value) ∧
      Holds (m.store p .tail value) p { b with tail := value.toNat } := by
  have hload (f : BufferField) (hf : f ≠ .tail) : (m.store p .tail value).load p f = m.load p f :=
    load_store_of_ne (Ne.symm hf)
  refine ⟨⟨hload .buffer (by decide), hload .size (by decide), fun a ha => ?_⟩,
    ⟨?_, ?_, ?_, fun k hk => ?_, ?_⟩⟩
  · exact store_of_notMem fun hin => ha (Or.inl hin)
  · rw [hload .size (by decide)]
    exact h.size
  · rw [hload .head (by decide)]
    exact h.head
  · rw [load_store_self]
  · rw [hload .buffer (by decide), store_of_notMem (h.notMem_header hk)]
    exact h.data k hk
  · rw [hload .buffer (by decide)]
    exact h.apart

/-- An index that the receiver works out, short of the end of the address space. -/
theorem Holds.toNat_mod (h : m.Holds p b) {k : ℕ} (hk : b.tail + k < 2 ^ 32) :
    ((BitVec.ofNat 32 k + m.load p .tail) % m.load p .size).toNat = (k + b.tail) % b.size := by
  rw [BitVec.toNat_umod, BitVec.toNat_add, BitVec.toNat_ofNat, h.tail, h.size,
    Nat.mod_eq_of_lt (show k < 2 ^ 32 by omega),
    Nat.mod_eq_of_lt (show k + b.tail < 2 ^ 32 by omega)]

theorem Holds.peekbyte (h : m.Holds p b) (hpos : 0 < b.size) {k : ℕ} (hk : b.tail + k < 2 ^ 32) :
    m.peekbyte p (BitVec.ofNat 32 k) = b.peekbyte k := by
  have hindex : (m.load p .tail + BitVec.ofNat 32 k) % m.load p .size
      = BitVec.ofNat 32 ((b.tail + k) % b.size) := by
    rw [BitVec.add_comm, Nat.add_comm, ← h.toNat_mod hk, BitVec.ofNat_toNat, BitVec.setWidth_eq]
  rw [SharedMemory.peekbyte, hindex, h.data _ (Nat.mod_lt _ hpos), Buffer.peekbyte]

/-- **`pop` in memory is `pop`**, on what the memory holds, and writes nowhere else. -/
theorem Holds.pop (h : m.Holds p b) (hb : b.Usable) (hsize : b.size + 262 ≤ 2 ^ 32)
    (frame : CanardCANFrame) :
    (m.pop p frame).1 = (b.pop frame).1 ∧ (m.pop p frame).2.1 = (b.pop frame).2.1 ∧
      Within p m (m.pop p frame).2.2 ∧ Holds (m.pop p frame).2.2 p (b.pop frame).2.2 ∧
      (b.pop frame).2.2.Usable := by
  have hempty : m.available p = 0 ↔ b.available = 0 := by
    rw [← h.available hb, ← BitVec.toNat_inj]
    rfl
  by_cases h0 : b.available = 0
  · rw [SharedMemory.pop, Buffer.pop, if_pos (hempty.mpr h0), if_pos h0]
    exact ⟨rfl, rfl, Within.refl p m, h, hb⟩
  have hwf : b.Wf := by
    obtain hwf | ⟨-, hh, ht⟩ := hb
    · exact hwf
    · exact absurd (by rw [Buffer.available, hh, ht]; rfl) h0
  have htail := hwf.tail_lt
  have hpeek {k : ℕ} (hk : k < 262) : m.peekbyte p (BitVec.ofNat 32 k) = b.peekbyte k :=
    h.peekbyte hwf.size_pos (by omega)
  have hlen := (b.peekbyte 5).isLt
  have hzero : m.peekbyte p 0 = b.peekbyte 0 := hpeek (k := 0) (by omega)
  have hne : m.available p ≠ 0 := fun hm => h0 (hempty.mp hm)
  by_cases hheader : b.peekbyte 0 = frameHeader1
  · have hstore := h.store_tail ((BitVec.ofNat 32 ((b.peekbyte 5).toNat + frameSizeWithoutData)
      + m.load p .tail) % m.load p .size)
    rw [h.toNat_mod (by simp only [frameSizeWithoutData]; omega)] at hstore
    have hfill (f : CanardCANFrame) (hf : f.dataLen = b.peekbyte 5) :
        f.fill (fun i => m.peekbyte p (BitVec.ofNat 32 (6 + i)))
          = f.fill fun i => b.peekbyte (6 + i) := by
      refine CanardCANFrame.fill_congr fun i hi => hpeek ?_
      rw [CanardCANFrame.len, hf] at hi
      omega
    simp only [SharedMemory.pop, Buffer.pop, if_neg hne, if_neg h0, hzero, hheader, ne_eq,
      not_true_eq_false, if_false,
      show m.peekbyte p 1 = b.peekbyte 1 from hpeek (k := 1) (by omega),
      show m.peekbyte p 2 = b.peekbyte 2 from hpeek (k := 2) (by omega),
      show m.peekbyte p 3 = b.peekbyte 3 from hpeek (k := 3) (by omega),
      show m.peekbyte p 4 = b.peekbyte 4 from hpeek (k := 4) (by omega),
      show m.peekbyte p 5 = b.peekbyte 5 from hpeek (k := 5) (by omega), hfill]
    exact ⟨trivial, trivial, hstore.1, hstore.2, Or.inl (hwf.advance _)⟩
  · rw [Buffer.pop_of_peekbyte_ne hheader, SharedMemory.pop, if_neg hne,
      if_pos (hzero ▸ hheader)]
    exact ⟨rfl, rfl, Within.refl p m, h, hb⟩

end SharedMemory

end LibDronecan
