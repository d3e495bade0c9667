import LibDronecan.DataIface.LogRoundTrip

/-!
# DataIface/LogSound — whatever the file holds, only records come out

    file   ░░░▐ record f₁ ▌░░░░░▐ record f₂ ▌░░░        delivered: f₁, f₂

The reader may lock on to any byte `0x34` of any file, and stop in the middle of anything.  Still,
what a call delivers it has read field by field, so the bytes it took end with the record of that
frame (`readFrom_sound`); and a call takes a prefix of what was left (`exists_drop_readFrom`), so
the records of later frames lie behind.
-/

open Machinery

namespace LibDronecan

variable {bo : ByteOrder} {frame f : CanardCANFrame} {w rest : List Byte}

/-! ## One call -/

/-- A read that is followed by a delivery was a full one. -/
theorem of_readThen {γ : Type*} {size : ℕ} {x : γ}
    {next : List Byte → List Byte → Option γ × List Byte}
    (h : readThen w size next = (some x, rest)) :
    ∃ buf w', buf.length = size ∧ w = buf ++ w' ∧ next buf w' = (some x, rest) := by
  unfold readThen at h
  split_ifs at h with hlen
  · cases h
  · exact ⟨w.take size, w.drop size, not_not.mp hlen, (List.take_append_drop size w).symm, h⟩

/-- **A delivery past a header took the rest of the frame's record.** -/
theorem readBody_sound (h : readBody bo frame w = (some f, rest)) :
    frameHeader1 :: w = record bo f ++ rest := by
  obtain ⟨id, w₁, hid, rfl, h₁⟩ := of_readThen h
  obtain ⟨len, w₂, hlen, rfl, h₂⟩ := of_readThen h₁
  obtain ⟨data, w₃, hdata, rfl, h₃⟩ := of_readThen h₂
  obtain ⟨crc, w₄, hcrc, rfl, h₄⟩ := of_readThen h₃
  obtain ⟨l, rfl⟩ := List.length_eq_one_iff.mp hlen
  simp only [List.headD_cons] at hdata h₄
  have hpayload := payload_filled frame (wordOfBytes bo id) hdata
  simp only [hpayload, ne_eq, ite_not] at h₄
  by_cases hsum : wordOfBytes bo crc = crc32 data
  · rw [if_pos hsum] at h₄
    obtain ⟨hf, rfl⟩ := Prod.mk.inj h₄
    obtain rfl := Option.some.inj hf
    rw [record, hpayload, ← hsum, wordBytes_wordOfBytes bo hcrc]
    change _ = frameHeader1 :: (wordBytes bo (wordOfBytes bo id) ++ l :: (data ++ crc)) ++ w₄
    rw [wordBytes_wordOfBytes bo hid]
    simp only [List.cons_append, List.append_assoc, List.nil_append]
  · rw [if_neg hsum] at h₄
    exact absurd (Prod.mk.inj h₄).1 (Option.some_ne_none f).symm

theorem findHeader_eq_some {w' : List Byte} (h : findHeader w = some w') :
    ∃ g, w = g ++ frameHeader1 :: w' := by
  induction w with
  | nil => cases h
  | cons b w ih =>
    rw [findHeader] at h
    split_ifs at h with hb
    · obtain rfl := Option.some.inj h
      exact ⟨[], by rw [hb, List.nil_append]⟩
    · obtain ⟨g, rfl⟩ := ih h
      exact ⟨b :: g, rfl⟩

/-- **What a call delivers is the record it ended with**, wherever it began. -/
theorem readFrom_sound (h : readFrom bo frame w = (some f, rest)) :
    ∃ g, w = g ++ (record bo f ++ rest) := by
  unfold readFrom at h
  split at h
  · cases h
  · case _ w' hw =>
    obtain ⟨g, rfl⟩ := findHeader_eq_some hw
    exact ⟨g, by rw [readBody_sound h]⟩

variable (bo frame) in
/-- A call takes a prefix of what is left. -/
theorem exists_drop_readFrom (w : List Byte) : ∃ k, (readFrom bo frame w).2 = w.drop k := by
  unfold readFrom
  split
  · exact ⟨w.length, (List.drop_length).symm⟩
  · case _ w' hw =>
    obtain ⟨g, rfl⟩ := findHeader_eq_some hw
    refine ⟨g.length + (1 + (9 + (w'.getD 4 0).toNat)), ?_⟩
    rw [snd_readBody, List.drop_length_add_append, Nat.add_comm 1, List.drop_succ_cons]

/-! ## All calls -/

namespace LogFileIface

/-- The record that `send` writes for a frame lies at a place of the file. -/
def RecordAt (bo : ByteOrder) (file : List Byte) (p : ℕ × CanardCANFrame) : Prop :=
  (file.drop p.1).take (record bo p.2).length = record bo p.2

/-- The place of a frame ends where the other begins, or before. -/
def Before (bo : ByteOrder) (p q : ℕ × CanardCANFrame) : Prop :=
  p.1 + (record bo p.2).length ≤ q.1

/-- What is left to read. -/
def unread (l : LogFileIface) : List Byte := l.readFile.getD []

/-- What a call finds further on, it finds behind what it left out. -/
theorem RecordAt.of_drop {k : ℕ} {p : ℕ × CanardCANFrame} (h : RecordAt bo (w.drop k) p) :
    RecordAt bo w (k + p.1, p.2) := by
  rwa [RecordAt, List.drop_drop] at h

/-- What is found behind the first `k` bytes, as places of the whole. -/
def shift (k : ℕ) (places : List (ℕ × CanardCANFrame)) : List (ℕ × CanardCANFrame) :=
  places.map fun p => (k + p.1, p.2)

theorem pairwise_shift {k : ℕ} {places : List (ℕ × CanardCANFrame)}
    (h : places.Pairwise (Before bo)) : (shift k places).Pairwise (Before bo) := by
  rw [shift, List.pairwise_map]
  refine h.imp fun {p q} hpq => ?_
  have hle : p.1 + (record bo p.2).length ≤ q.1 := hpq
  change k + p.1 + (record bo p.2).length ≤ k + q.1
  omega

theorem recordAt_shift {k : ℕ} {places : List (ℕ × CanardCANFrame)}
    (h : ∀ p ∈ places, RecordAt bo (w.drop k) p) : ∀ p ∈ shift k places, RecordAt bo w p := by
  intro p hp
  obtain ⟨q, hq, rfl⟩ := List.mem_map.mp hp
  exact (h q hq).of_drop

variable (bo frame) in
/-- **The frames delivered lie in the file**, as records, one behind the other. -/
theorem exists_places (n : ℕ) (file : List Byte) (wr : Option (List Byte)) :
    ∃ places : List (ℕ × CanardCANFrame),
      (reader bo frame).delivered n ⟨some file, wr⟩ = places.map (fun p => p.2.view) ∧
      places.Pairwise (Before bo) ∧ ∀ p ∈ places, RecordAt bo file p := by
  induction n generalizing file with
  | zero => exact ⟨[], rfl, List.Pairwise.nil, fun _ h => absurd h List.not_mem_nil⟩
  | succ n ih =>
    rw [Reader.delivered_succ, read_reader]
    obtain ⟨places, hval, hpair, hat⟩ := ih (readFrom bo frame file).2
    rw [hval]
    cases hres : (readFrom bo frame file).1 with
    | none =>
      obtain ⟨k, hk⟩ := exists_drop_readFrom bo frame file
      rw [hk] at hat
      exact ⟨shift k places, by simp [shift], pairwise_shift hpair, recordAt_shift hat⟩
    | some f =>
      obtain ⟨g, hg⟩ := readFrom_sound (Prod.ext_iff.mpr ⟨hres, rfl⟩)
      have hdrop : (readFrom bo frame file).2 = file.drop (g.length + (record bo f).length) := by
        conv_rhs => rw [hg, List.drop_length_add_append, List.drop_left]
      rw [hdrop] at hat
      refine ⟨(g.length, f) :: shift (g.length + (record bo f).length) places, by simp [shift],
        List.pairwise_cons.mpr ⟨fun p hp => ?_, pairwise_shift hpair⟩, fun p hp => ?_⟩
      · obtain ⟨q, -, rfl⟩ := List.mem_map.mp hp
        exact Nat.le_add_right _ _
      · rcases List.mem_cons.mp hp with rfl | hp
        · rw [RecordAt, hg, List.drop_left, List.take_left]
        · exact recordAt_shift hat p hp

/-- **Log reader soundness.**  Whatever the file holds, the frames that any number of calls deliver
are, in order, frames whose records lie in the file, each behind the one before; and each call takes
a byte at least, or has nothing left to read. -/
theorem delivered_sound (bo : ByteOrder) (frame : CanardCANFrame) (file : List Byte)
    (wr : Option (List Byte)) (n : ℕ) :
    (∃ places : List (ℕ × CanardCANFrame),
      (reader bo frame).delivered n ⟨some file, wr⟩ = places.map (fun p => p.2.view) ∧
      places.Pairwise (Before bo) ∧ ∀ p ∈ places, RecordAt bo file p) ∧
    (((reader bo frame).after (n + 1) ⟨some file, wr⟩).unread.length
        < ((reader bo frame).after n ⟨some file, wr⟩).unread.length ∨
      ((reader bo frame).after n ⟨some file, wr⟩).unread = []) := by
  refine ⟨exists_places bo frame n file wr, ?_⟩
  rw [Reader.after_succ]
  generalize (reader bo frame).after n ⟨some file, wr⟩ = l
  obtain ⟨_ | w, wr⟩ := l
  · exact Or.inr rfl
  · obtain rfl | hw := eq_or_ne w []
    · exact Or.inr rfl
    · exact Or.inl (length_snd_readFrom_lt hw)

end LogFileIface

end LibDronecan
