import Mathlib.Data.BitVec
import LibDronecan.Machinery.Circular

/-!
# DataIface/Frame — the CAN frame every interface passes around

`CanardCANFrame` is libcanard's struct.  Its `data` is the memory from the start of the array on:
the struct owns the first `C` cells of it (8, or 64 with CAN FD), and a copy loop that runs past
`C` shows up as a `dataLen` above `C` rather than as a type error.  What two ends of a link can
agree on is the `view`: id, length, and the payload `data[0..data_len)`.
-/

namespace LibDronecan

abbrev Byte := BitVec 8

abbrev Word := BitVec 32

/-- `CanardCANFrame`: 32-bit id, 8-bit length, payload memory. -/
structure CanardCANFrame where
  id : Word
  dataLen : Byte
  data : ℕ → Byte

namespace CanardCANFrame

/-- `data_len` as the bound of a loop. -/
def len (f : CanardCANFrame) : ℕ := f.dataLen.toNat

/-- `data[0..data_len)`. -/
def payload (f : CanardCANFrame) : List Byte := (List.range f.len).map f.data

/-- **What a receiver can tell of a frame**: id, length and payload. -/
def view (f : CanardCANFrame) : Word × Byte × List Byte := (f.id, f.dataLen, f.payload)

/-- The loop `for (i = 0; i < data_len; i++) data[i] = src(i)`. -/
def fill (f : CanardCANFrame) (src : ℕ → Byte) : CanardCANFrame :=
  { f with data := (List.range f.len).foldl (fun d i => Function.update d i (src i)) f.data }

@[simp] theorem length_payload (f : CanardCANFrame) : f.payload.length = f.len := by
  simp [payload]

theorem getElem_payload (f : CanardCANFrame) (k : ℕ) (hk : k < f.payload.length) :
    f.payload[k] = f.data k := by simp [payload]

/-- The loop writes the first `n` cells and no other. -/
theorem foldl_update_range (d src : ℕ → Byte) (n : ℕ) :
    (List.range n).foldl (fun d i => Function.update d i (src i)) d
      = fun i => if i < n then src i else d i := by
  induction n with
  | zero => simp
  | succ n ih =>
    rw [List.range_succ, List.foldl_append, ih]
    funext i
    simp only [List.foldl_cons, List.foldl_nil, Function.update_apply]
    split_ifs <;> first | omega | simp_all

theorem fill_data (f : CanardCANFrame) (src : ℕ → Byte) (i : ℕ) :
    (f.fill src).data i = if i < f.len then src i else f.data i :=
  congrFun (foldl_update_range f.data src f.len) i

theorem fill_congr {f : CanardCANFrame} {src src' : ℕ → Byte} (h : ∀ i < f.len, src i = src' i) :
    f.fill src = f.fill src' := by
  simp only [fill, foldl_update_range, mk.injEq, true_and]
  funext i
  split_ifs with hi
  · exact h i hi
  · rfl

/-- The loop leaves the bytes it read as the payload. -/
theorem payload_fill (f : CanardCANFrame) (src : ℕ → Byte) :
    (f.fill src).payload = (List.range f.len).map src :=
  List.map_congr_left fun i hi => by
    rw [fill_data, if_pos (show i < f.len from List.mem_range.mp hi)]

end CanardCANFrame

/-! ## A 32-bit id as four bytes -/

/-- The id, least significant byte first. -/
def idBytes (id : Word) : List Byte :=
  [(id &&& 0xFF).setWidth 8, ((id >>> 8) &&& 0xFF).setWidth 8,
    ((id >>> 16) &&& 0xFF).setWidth 8, ((id >>> 24) &&& 0xFF).setWidth 8]

/-- The id read back from four bytes, by or-ing them in place. -/
def idOfBytes (b₀ b₁ b₂ b₃ : Byte) : Word :=
  b₀.setWidth 32 ||| b₁.setWidth 32 <<< 8 ||| b₂.setWidth 32 <<< 16 ||| b₃.setWidth 32 <<< 24

@[simp] theorem length_idBytes (id : Word) : (idBytes id).length = 4 := rfl

theorem getLsbD_byteMask (j : ℕ) : (0xFF : Word).getLsbD j = decide (j < 8) := by
  rcases Nat.lt_or_ge j 32 with h | h
  · revert j
    decide
  · rw [BitVec.getLsbD_of_ge _ _ h, decide_eq_false (by omega)]

/-- **Splitting and or-ing back loses no bit.** -/
theorem idOfBytes_idBytes (id : Word) :
    idOfBytes ((id &&& 0xFF).setWidth 8) (((id >>> 8) &&& 0xFF).setWidth 8)
      (((id >>> 16) &&& 0xFF).setWidth 8) (((id >>> 24) &&& 0xFF).setWidth 8) = id := by
  refine BitVec.eq_of_getLsbD_eq fun i hi => ?_
  simp only [idOfBytes, BitVec.getLsbD_or, BitVec.getLsbD_shiftLeft, BitVec.getLsbD_setWidth,
    BitVec.getLsbD_and, BitVec.getLsbD_ushiftRight, getLsbD_byteMask]
  grind

/-- …and or-ing and splitting none either. -/
theorem idBytes_idOfBytes (b₀ b₁ b₂ b₃ : Byte) :
    idBytes (idOfBytes b₀ b₁ b₂ b₃) = [b₀, b₁, b₂, b₃] := by
  have hbyte (b c : Byte) (h : ∀ i < 8, b.getLsbD i = c.getLsbD i) : b = c :=
    BitVec.eq_of_getLsbD_eq h
  simp only [idBytes, List.cons.injEq, and_true]
  refine ⟨hbyte _ _ fun i hi => ?_, hbyte _ _ fun i hi => ?_, hbyte _ _ fun i hi => ?_,
    hbyte _ _ fun i hi => ?_⟩ <;>
  simp only [idOfBytes, BitVec.getLsbD_or, BitVec.getLsbD_shiftLeft, BitVec.getLsbD_setWidth,
    BitVec.getLsbD_and, BitVec.getLsbD_ushiftRight, getLsbD_byteMask] <;>
  grind

end LibDronecan
