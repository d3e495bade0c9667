import LibDronecan.DataIface.Crc32
import LibDronecan.DataIface.LogDamage
import LibDronecan.DataIface.LogSound

/-!
# DataIface/LogFlip — one wrong bit in a record

    0x34 │ id │ data_len │ data │ crc
           ▲      ▲         ▲      ▲
           │      │         └──────┴── nothing is delivered
           │      └── up: nothing; down: the first bytes, if what follows them is their checksum
           └── delivered, with the wrong bit

The checksum is that of the data alone, on both sides.  So a wrong bit in the data or in the
checksum is found, one in the id is not, and one in the length moves the place where the checksum is
looked for.
-/

open Machinery

namespace LibDronecan

/-- A byte with one bit the other way. -/
def flipBit (k : ℕ) (b : Byte) : Byte := b ^^^ BitVec.twoPow 8 k

theorem flipBit_ne {k : ℕ} (hk : k < 8) (b : Byte) : flipBit k b ≠ b := by
  intro h
  have hbit : (flipBit k b).getLsbD k = b.getLsbD k := by rw [h]
  rw [flipBit, BitVec.getLsbD_xor, BitVec.getLsbD_twoPow, decide_eq_true hk,
    decide_eq_true rfl] at hbit
  cases hb : b.getLsbD k <;> simp [hb] at hbit

theorem modify_append_left {α : Type*} {l : List α} {i : ℕ} (hi : i < l.length) (m : List α)
    (g : α → α) : (l ++ m).modify i g = l.modify i g ++ m := by
  induction l generalizing i with
  | nil => exact absurd hi (Nat.not_lt_zero i)
  | cons a l ih =>
    cases i with
    | zero => rfl
    | succ i =>
      rw [List.cons_append, List.modify_succ_cons, List.modify_succ_cons,
        ih (Nat.lt_of_succ_lt_succ hi), List.cons_append]

theorem modify_append_right {α : Type*} (l m : List α) (i : ℕ) (g : α → α) :
    (l ++ m).modify (l.length + i) g = l ++ m.modify i g := by
  induction l with
  | nil => simp
  | cons a l ih =>
    rw [List.cons_append, List.length_cons, Nat.add_right_comm, List.modify_succ_cons, ih,
      List.cons_append]

namespace LogFileIface

variable {bo : ByteOrder} {frame f : CanardCANFrame}

/-! ## One call on four fields -/

/-- What is delivered of a file that holds a header and the four fields. -/
theorem all_fields {id data crc : List Byte} {l : Byte} (hid : id.length = 4)
    (hdata : data.length = l.toNat) (hcrc : crc.length = 4) (w : List Byte) :
    (scanner bo frame).all (frameHeader1 :: (id ++ ([l] ++ (data ++ (crc ++ w)))))
      = (if wordOfBytes bo crc = crc32 data then [(wordOfBytes bo id, l, data)] else [])
        ++ (scanner bo frame).all w := by
  obtain ⟨hval, hrest⟩ := readBody_eq bo frame hid l hdata hcrc w
  rw [Scanner.all_eq, read_scanner, readFrom_header, hval, hrest]
  split_ifs <;> rfl

/-- …and of one that ends before the fields do. -/
theorem all_short {w : List Byte} (h : w.length < 9 + (w.getD 4 0).toNat) :
    (scanner bo frame).all (frameHeader1 :: w) = [] := by
  have hrest : (readBody bo frame w).2 = [] := by
    rw [snd_readBody, List.drop_of_length_le h.le]
  have hnone : (readBody bo frame w).1 = none := by
    cases hres : (readBody bo frame w).1 with
    | none => rfl
    | some g =>
      -- a delivery would have taken a whole record
      have hrec := readBody_sound (Prod.ext hres hrest : readBody bo frame w = (some g, []))
      have hlen := congrArg List.length hrec
      have hl : (w.getD 4 0) = g.dataLen := by
        have := congrArg (fun v => v.getD 5 0) hrec
        rwa [List.getD_cons_succ, getD_record] at this
      rw [hl] at h
      rw [List.append_nil, length_record, List.length_cons] at hlen
      change w.length < 9 + g.len at h
      omega
  rw [Scanner.all_eq, read_scanner, readFrom_header, hrest, hnone]
  exact Reader.all_of_dry rfl

/-! ## One wrong bit -/

/-- The record of a frame with one bit the other way. -/
def flipped (bo : ByteOrder) (f : CanardCANFrame) (j k : ℕ) : List Byte :=
  (record bo f).modify j (flipBit k)

/-- What follows the length byte of a record. -/
def tail (bo : ByteOrder) (f : CanardCANFrame) : List Byte :=
  f.payload ++ wordBytes bo (crc32 f.payload)

/-- What is delivered of the record of `f` if its length byte says `l`, which is less: its first `l`
bytes, if the four after them are their checksum, and then what is found further on. -/
def deliveredCut (bo : ByteOrder) (frame f : CanardCANFrame) (l : Byte) :
    List (Word × Byte × List Byte) :=
  (if wordOfBytes bo (((tail bo f).drop l.toNat).take 4) = crc32 (f.payload.take l.toNat) then
    [(f.id, l, f.payload.take l.toNat)] else [])
  ++ (reader bo frame).all ⟨some ((tail bo f).drop (l.toNat + 4)), none⟩

/-- **What is delivered of a record with bit `k` of byte `j` the other way.** -/
def deliveredFlipped (bo : ByteOrder) (frame f : CanardCANFrame) (j k : ℕ) :
    List (Word × Byte × List Byte) :=
  if j < 5 then
    [(wordOfBytes bo ((wordBytes bo f.id).modify (j - 1) (flipBit k)), f.dataLen, f.payload)]
  else if j = 5 ∧ (flipBit k f.dataLen).toNat < f.len then
    deliveredCut bo frame f (flipBit k f.dataLen)
  else []

theorem flipped_id {j : ℕ} (hj : j < 4) (k : ℕ) :
    flipped bo f (1 + j) k = frameHeader1 :: ((wordBytes bo f.id).modify j (flipBit k) ++
      ([f.dataLen] ++ (f.payload ++ (wordBytes bo (crc32 f.payload) ++ [])))) := by
  rw [flipped, record_eq, List.singleton_append, Nat.add_comm, List.modify_succ_cons,
    modify_append_left (by simpa using hj)]

theorem flipped_len (k : ℕ) :
    flipped bo f 5 k
      = frameHeader1 :: (wordBytes bo f.id ++ ([flipBit k f.dataLen] ++ tail bo f)) := by
  rw [flipped, record, List.modify_succ_cons,
    show 4 = (wordBytes bo f.id).length + 0 by simp, modify_append_right]
  rfl

theorem flipped_data {j : ℕ} (hj : j < f.len) (k : ℕ) :
    flipped bo f (6 + j) k = frameHeader1 :: (wordBytes bo f.id ++ ([f.dataLen] ++
      (f.payload.modify j (flipBit k) ++ (wordBytes bo (crc32 f.payload) ++ [])))) := by
  rw [flipped, record_eq, List.singleton_append, show 6 + j = (4 + (1 + j)) + 1 by omega,
    List.modify_succ_cons]
  rw [show 4 + (1 + j) = (wordBytes bo f.id).length + (1 + j) by simp, modify_append_right,
    show 1 + j = [f.dataLen].length + j from rfl, modify_append_right,
    modify_append_left (by simpa using hj)]

theorem flipped_crc (j k : ℕ) :
    flipped bo f (6 + f.len + j) k = frameHeader1 :: (wordBytes bo f.id ++ ([f.dataLen] ++
      (f.payload ++ ((wordBytes bo (crc32 f.payload)).modify j (flipBit k) ++ [])))) := by
  rw [flipped, record_eq, List.singleton_append,
    show 6 + f.len + j = (4 + (1 + (f.len + j))) + 1 by omega, List.modify_succ_cons]
  rw [show 4 + (1 + (f.len + j)) = (wordBytes bo f.id).length + (1 + (f.len + j)) by simp,
    modify_append_right, show 1 + (f.len + j) = [f.dataLen].length + (f.len + j) from rfl,
    modify_append_right, ← f.length_payload, modify_append_right, List.append_nil, List.append_nil]

theorem wordOfBytes_modify_ne {x : Word} {j k : ℕ} (hj : j < 4) (hk : k < 8) :
    wordOfBytes bo ((wordBytes bo x).modify j (flipBit k)) ≠ x := by
  intro h
  have heq := wordBytes_wordOfBytes bo (b := (wordBytes bo x).modify j (flipBit k)) (by simp)
  rw [h] at heq
  have hj' : j < (wordBytes bo x).length := by simpa using hj
  have hbyte := List.getElem_modify_eq (flipBit k) j (wordBytes bo x) (by simpa using hj)
  simp only [← heq] at hbyte
  exact flipBit_ne hk _ hbyte.symm

/-- A length byte that says less than the record's own. -/
theorem all_cut {l : Byte} (hl : l.toNat < f.len) :
    (scanner bo frame).all (frameHeader1 :: (wordBytes bo f.id ++ ([l] ++ tail bo f)))
      = deliveredCut bo frame f l := by
  have htake : (tail bo f).take l.toNat = f.payload.take l.toNat :=
    List.take_append_of_le_length (by simpa using hl.le)
  have hsplit : tail bo f = f.payload.take l.toNat ++ (((tail bo f).drop l.toNat).take 4
      ++ (tail bo f).drop (l.toNat + 4)) := by
    rw [← htake, ← List.drop_drop, List.take_append_drop, List.take_append_drop]
  have hdata : (f.payload.take l.toNat).length = l.toNat :=
    List.length_take_of_le (by simpa using hl.le)
  have hcrc : (((tail bo f).drop l.toNat).take 4).length = 4 := by
    rw [List.length_take, List.length_drop, tail, List.length_append, length_wordBytes,
      f.length_payload]
    omega
  have hrest : (reader bo frame).all ⟨some ((tail bo f).drop (l.toNat + 4)), none⟩
      = (scanner bo frame).all ((tail bo f).drop (l.toNat + 4)) :=
    delivered_eq bo frame _ none le_rfl
  rw [deliveredCut, hrest]
  conv_lhs => rw [hsplit]
  rw [all_fields (length_wordBytes _ _) hdata hcrc, wordOfBytes_wordBytes]

/-- A length byte that says more. -/
theorem all_raised {l : Byte} (hl : f.len < l.toNat) :
    (scanner bo frame).all (frameHeader1 :: (wordBytes bo f.id ++ ([l] ++ tail bo f))) = [] := by
  refine all_short ?_
  have hl4 : (wordBytes bo f.id ++ ([l] ++ tail bo f)).getD 4 0 = l := by
    rw [List.getD_append_right _ _ _ _ (by simp), length_wordBytes]
    rfl
  rw [hl4, tail]
  simp only [List.length_append, length_wordBytes, List.length_singleton,
    CanardCANFrame.length_payload]
  omega

/-- **One wrong bit in a record**, wherever it is past the header: what reading to the end of the
file delivers. -/
theorem delivered_flipped (bo : ByteOrder) (frame f : CanardCANFrame) {j k : ℕ} (hj : 1 ≤ j)
    (hlen : j < (record bo f).length) (hk : k < 8) (wr : Option (List Byte)) {n : ℕ}
    (hn : (record bo f).length ≤ n) :
    (reader bo frame).delivered n ⟨some (flipped bo f j k), wr⟩
      = deliveredFlipped bo frame f j k := by
  rw [delivered_eq bo frame _ wr (by rwa [flipped, List.length_modify]), deliveredFlipped]
  rw [length_record] at hlen
  have hnil : (scanner bo frame).all [] = [] := Reader.all_of_dry rfl
  obtain hid | rfl | hdata : j < 5 ∨ j = 5 ∨ 6 ≤ j := by omega
  · -- the id is no part of the checksum
    obtain ⟨i, rfl⟩ := Nat.exists_eq_add_of_le hj
    rw [if_pos hid, flipped_id (by omega), all_fields (by simp) f.length_payload (by simp),
      wordOfBytes_wordBytes, if_pos rfl, hnil, Nat.add_sub_cancel_left]
    rfl
  · rw [if_neg (by omega), flipped_len]
    obtain h | h | h := lt_trichotomy (flipBit k f.dataLen).toNat f.len
    · rw [if_pos ⟨rfl, h⟩, all_cut h]
    · exact absurd (BitVec.eq_of_toNat_eq h) (flipBit_ne hk _)
    · rw [if_neg fun hlt => h.not_gt hlt.2, all_raised h]
  · obtain ⟨i, rfl⟩ := Nat.exists_eq_add_of_le hdata
    rw [if_neg (by omega), if_neg (by omega)]
    obtain h | h := Nat.lt_or_ge i f.len
    · rw [flipped_data h, all_fields (by simp) (by rw [List.length_modify, f.length_payload]; rfl)
        (by simp), wordOfBytes_wordBytes, if_neg, hnil]
      · rfl
      · exact (crc32_modify_ne (by simpa using h) (flipBit_ne hk)).symm
    · obtain ⟨c, rfl⟩ := Nat.exists_eq_add_of_le h
      rw [← Nat.add_assoc, flipped_crc, all_fields (by simp) f.length_payload (by simp),
        if_neg (wordOfBytes_modify_ne (by omega) hk), hnil]
      rfl

theorem delivered_flipped_noData :
    (1 ≤ 1 ∧ 1 < (record .little noData).length ∧ 0 < 8 ∧ (record .little noData).length ≤ 10) ∧
      (reader .little noData).delivered 10 ⟨some (flipped .little noData 1 0), none⟩
        = deliveredFlipped .little noData noData 1 0 :=
  ⟨⟨by decide, by decide, by decide, by decide⟩,
    delivered_flipped .little noData noData (by decide) (by decide) (by decide) none (by decide)⟩

/-- A frame of eight zeros, whose first four are the checksum of nothing. -/
def zeros : CanardCANFrame := ⟨0, 8, fun _ => 0⟩

/-- A wrong bit in the id goes unnoticed, and one in the length can. -/
theorem not_forall_flip_detected : ¬ (∀ (bo : ByteOrder) (frame f : CanardCANFrame) (j k : ℕ)
    (wr : Option (List Byte)) (n : ℕ), 1 ≤ j → j < (record bo f).length → k < 8 →
    (record bo f).length ≤ n →
    ∀ v ∈ (reader bo frame).delivered n ⟨some (flipped bo f j k), wr⟩, v = f.view) ∧
    (0, 0, []) ∈ (reader .little noData).delivered 18 ⟨some (flipped .little zeros 5 3), none⟩ := by
  refine ⟨fun h => ?_, by decide⟩
  have hmem : (1, 0, [])
      ∈ (reader .little noData).delivered 10 ⟨some (flipped .little noData 1 0), none⟩ := by decide
  have heq := h .little noData noData 1 0 none 10 (by decide) (by decide) (by decide) (by decide)
    _ hmem
  exact absurd (congrArg Prod.fst heq) (by decide)

end LogFileIface

end LibDronecan
