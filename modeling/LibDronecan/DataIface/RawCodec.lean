import LibDronecan.DataIface.Raw

/-!
# DataIface/RawCodec — what `push` does to the bytes, and `pop` reads back

    tail ──unread──▸ head ──encode frame──▸ head'          all of it short of one turn

An accepted push leaves a byte of the ring free, so the bytes it writes never reach round to those
not read yet (`push_keeps`).  Pushes one after the other therefore lay their frames out one behind
the other, wherever in the ring the first of them starts, and a pop finds that one at the tail
(`pop_pushAll`).
-/

open Machinery

namespace LibDronecan

namespace Buffer

variable {b b' : Buffer} {frame f : CanardCANFrame} {fs : List CanardCANFrame}

/-! ## One push -/

/-- **What an accepted push may do**: everything from `tail` to the old `head` stays as it is, the
frame is behind it, and the ring is not full. -/
structure PushKeeps (b : Buffer) (frame : CanardCANFrame) (b' : Buffer) : Prop where
  size : b'.size = b.size
  tail : b'.tail = b.tail
  unread : ∀ k < b.available,
    b'.buffer ((b.tail + k) % b.size) = b.buffer ((b.tail + k) % b.size)
  head : b'.head = (b.head + (frame.len + 6)) % b.size
  written : ∀ k x,
    (frameHeader1 :: idBytes frame.id ++ frame.dataLen :: frame.payload)[k]? = some x →
      b'.buffer ((b.head + k) % b.size) = x
  available : b'.available = b.available + (frame.len + 6)
  below : b'.available < b.size

theorem pushBytes_size (b : Buffer) (l : List Byte) : (b.pushBytes l).size = b.size := by
  induction l generalizing b with
  | nil => rfl
  | cons x l ih => exact (ih (b.pushbyte x)).trans (b.pushbyte_size x)

theorem pushBytes_tail (b : Buffer) (l : List Byte) : (b.pushBytes l).tail = b.tail := by
  induction l generalizing b with
  | nil => rfl
  | cons x l ih => exact ih (b.pushbyte x)

theorem available_pushBytes (hb : b.Wf) {l : List Byte} (h : b.available + l.length < b.size) :
    (b.pushBytes l).available = b.available + l.length := by
  rw [← length_unread, unread_pushBytes hb l h, List.length_append, length_unread]

/-- A cell of the ring, counted from `tail`. -/
theorem getElem?_unread {k : ℕ} (hk : k < b.available) :
    b.unread[k]? = some (b.buffer ((b.tail + k) % b.size)) := getElem?_window b.buffer hk

/-- **A push destroys nothing that has not been read**, and never makes a full ring look empty. -/
theorem push_keeps (hb : b.Wf) (h : (b.push frame).1 = true) :
    PushKeeps b frame (b.push frame).2 := by
  have hfits := (push_fst hb frame).mp h
  have hunread := unread_pushBytes hb (encode frame) hfits
  have havailable := available_pushBytes hb hfits
  have hcell {k : ℕ} (hk : k < b.available + (encode frame).length) :
      (b.unread ++ encode frame)[k]?
        = some ((b.pushBytes (encode frame)).buffer ((b.tail + k) % b.size)) := by
    rw [← hunread, getElem?_unread (havailable ▸ hk), pushBytes_tail, pushBytes_size]
  rw [push_of_fst h]
  refine ⟨pushBytes_size b _, pushBytes_tail b _, fun k hk => ?_, ?_, fun k x hx => ?_, ?_, ?_⟩
  · have hold := hcell (Nat.lt_add_right _ hk)
    rw [List.getElem?_append_left (by rwa [length_unread]), getElem?_unread hk] at hold
    exact (Option.some.inj hold).symm
  · have hwf := hb.pushBytes (encode frame)
    rw [hwf.head_eq, havailable, pushBytes_tail, pushBytes_size, length_encode, hb.head_eq,
      Nat.mod_add_mod, Nat.add_assoc]
  · have hk : k < (encode frame).length := (List.getElem?_eq_some_iff.mp hx).1
    have hnew := hcell (k := b.available + k) (by omega)
    rw [List.getElem?_append_right (by rw [length_unread]; omega), length_unread,
      Nat.add_sub_cancel_left] at hnew
    rw [hb.head_eq, Nat.mod_add_mod, Nat.add_assoc]
    exact Option.some.inj (hnew.symm.trans hx)
  · rw [havailable, length_encode]
  · exact havailable ▸ hfits

/-- Twenty bytes, the three from 16 on not read yet. -/
def ring20 : Buffer := ⟨fun i => BitVec.ofNat 8 i, 20, 19, 16⟩

/-- A frame with two bytes of payload. -/
def twoBytes : CanardCANFrame := ⟨0x12345678, 2, fun i => BitVec.ofNat 8 (i + 1)⟩

theorem push_keeps_ring20 : PushKeeps ring20 twoBytes (ring20.push twoBytes).2 :=
  push_keeps ⟨by decide, by decide⟩ (by decide)

/-! ## Pushes and a pop -/

/-- Frames pushed one after the other, if all of them are accepted. -/
def pushAll (b : Buffer) : List CanardCANFrame → Option Buffer
  | [] => some b
  | frame :: fs => if (b.push frame).1 then (b.push frame).2.pushAll fs else none

/-- **They are laid out one behind the other.** -/
theorem unread_pushAll (hb : b.Wf) (h : b.pushAll fs = some b') :
    b'.unread = b.unread ++ fs.flatMap encode := by
  induction fs generalizing b with
  | nil =>
    obtain rfl := Option.some.inj h
    rw [List.flatMap_nil, List.append_nil]
  | cons frame fs ih =>
    rw [pushAll] at h
    split_ifs at h with hpush
    rw [push_of_fst hpush] at h
    rw [ih (hb.pushBytes _) h, unread_pushBytes hb _ ((push_fst hb frame).mp hpush),
      List.append_assoc, List.flatMap_cons]

/-- **Round trip**: pushed onto an empty ring, wherever its tail is and whatever its bytes are, the
first frame is popped as it was, whatever else was pushed behind it. -/
theorem pop_pushAll (hempty : b.head = b.tail) (htail : b.tail < b.size)
    (h : b.pushAll (f :: fs) = some b') (frame : CanardCANFrame) :
    (b'.pop frame).1 = true ∧ (b'.pop frame).2.1.view = f.view := by
  have hb : b.Wf := ⟨hempty ▸ htail, htail⟩
  have hnone : b.unread = [] := by
    have hzero : b.available = 0 := by
      rw [Buffer.available, hempty, if_pos (le_refl b.tail), Nat.sub_self]
    rw [← List.length_eq_zero_iff, length_unread, hzero]
  have hunread := unread_pushAll hb h
  rw [hnone, List.nil_append, List.flatMap_cons] at hunread
  obtain ⟨hret, hview, -⟩ := pop_of_unread f frame hunread
  exact ⟨hret, hview⟩

/-- The same ring with nothing in it. -/
def empty20 : Buffer := { ring20 with head := 16 }

/-- Two frames, the first of them across the end of the ring. -/
theorem pop_pushAll_empty20 : ∃ b, empty20.pushAll [twoBytes, twoBytes] = some b ∧
    (b.pop twoBytes).1 = true ∧ (b.pop twoBytes).2.1.view = twoBytes.view := by
  have hpush : empty20.pushAll [twoBytes, twoBytes]
      = some ((empty20.push twoBytes).2.push twoBytes).2 := rfl
  exact ⟨_, hpush, pop_pushAll rfl (by decide) hpush twoBytes⟩

end Buffer

end LibDronecan
