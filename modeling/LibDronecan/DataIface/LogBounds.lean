import LibDronecan.DataIface.LogSound

/-!
# DataIface/LogBounds — the log reader and the end of `frame.data`

    0x34 │ id (4) │ data_len │ ░░░░░░░░░░░░░░        read(frame.data, frame.data_len)
                      255  ───────────────▸

The length byte of whatever follows a header byte is the size of the next read, and `frame.data`
has room for `C` bytes.  Nothing compares the two.  So a call stays inside the array just if the
length byte it meets is at most `C`, or the file ends before it can do harm.
-/

open Machinery

namespace LibDronecan

/-! ## What is stored -/

/-- The first three reads of `readBody`: the bytes that the third stores in `frame.data`. -/
def dataRead (file : List Byte) : Option (List Byte) × List Byte :=
  readThen file 4 fun _ file =>
  readThen file 1 fun len file =>
  (some (file.take (len.headD 0).toNat), file.drop (len.headD 0).toNat)

/-- The bytes that a call stores in `frame.data`. -/
def stored (file : List Byte) : List Byte :=
  match findHeader file with
  | none => []
  | some file => (dataRead file).1.getD []

variable {bo : ByteOrder} {frame f : CanardCANFrame} {w id rest : List Byte} {C : ℕ}

theorem stored_header {l : Byte} (hid : id.length = 4) (h : findHeader w = some (id ++ l :: rest)) :
    stored w = rest.take l.toNat := by
  rw [stored, h]
  change (dataRead (id ++ ([l] ++ rest))).1.getD [] = _
  rw [dataRead, readThen_append hid, readThen_append List.length_singleton]
  rfl

/-- Where the file ends before the length byte nothing is stored. -/
theorem stored_of_short {w' : List Byte} (h : findHeader w = some w') (hlen : w'.length < 5) :
    stored w = [] := by
  rw [stored, h]
  change (dataRead w').1.getD [] = _
  obtain h4 | h4 := Nat.lt_or_ge w'.length 4
  · rw [dataRead, readThen_of_lt h4]
    rfl
  · obtain ⟨id, t, hid, rfl⟩ := exists_append_of_le h4
    obtain rfl : t = [] := List.eq_nil_of_length_eq_zero (by rw [List.length_append] at hlen; omega)
    rw [dataRead, readThen_append hid, readThen_of_lt (by simp)]
    rfl

/-- **A frame is delivered with the bytes that were stored.** -/
theorem stored_of_delivered (h : readFrom bo frame w = (some f, rest)) : stored w = f.payload := by
  unfold readFrom at h
  split at h
  · cases h
  · case _ w' hw =>
    have hrec := readBody_sound h
    rw [record, List.cons_append, List.cons.injEq] at hrec
    have hsplit : w' = wordBytes bo f.id ++ f.dataLen ::
        (f.payload ++ (wordBytes bo (crc32 f.payload) ++ rest)) := by
      rw [hrec.2]
      simp
    rw [stored_header (length_wordBytes bo f.id) (hsplit ▸ hw),
      List.take_left' (by simp [CanardCANFrame.len])]

/-! ## The bound -/

/-- **What is left to read cannot overrun `C` bytes**: the length byte behind the first header says
at most `C`, or no more than `C` bytes follow it. -/
def Fits (C : ℕ) (file : List Byte) : Prop :=
  ∀ id l rest, findHeader file = some (id ++ l :: rest) → id.length = 4 →
    l.toNat ≤ C ∨ rest.length ≤ C

theorem length_stored_le_iff : (stored w).length ≤ C ↔ Fits C w := by
  constructor
  · intro h id l rest hw hid
    rw [stored_header hid hw, List.length_take] at h
    omega
  · intro h
    cases hw : findHeader w with
    | none =>
      rw [stored, hw]
      exact Nat.zero_le C
    | some w' =>
      obtain hlen | hlen := Nat.lt_or_ge w'.length 5
      · rw [stored_of_short hw hlen]
        exact Nat.zero_le C
      · obtain ⟨id, t, hid, rfl⟩ := exists_append_of_le (show 4 ≤ w'.length by omega)
        obtain ⟨l, rest, rfl⟩ := List.exists_cons_of_ne_nil (l := t) fun h => by
          rw [h, List.append_nil, hid] at hlen
          omega
        rw [stored_header hid hw, List.length_take]
        have := h id l rest hw hid
        omega

namespace LogFileIface

/-- **No call overruns the frame**: of `n` calls on a file, each stores at most `C` bytes, and each
frame delivered has a length of at most `C`. -/
def InBounds (C : ℕ) (bo : ByteOrder) (frame : CanardCANFrame) (l : LogFileIface) (n : ℕ) : Prop :=
  (∀ m < n, (stored ((reader bo frame).after m l).unread).length ≤ C) ∧
    ∀ v ∈ (reader bo frame).delivered n l, v.2.1.toNat ≤ C

/-- A call that stores at most `C` bytes delivers a frame of at most `C`. -/
theorem dataLen_le_of_stored {l : LogFileIface} (h : (stored l.unread).length ≤ C)
    {v : Word × Byte × List Byte} (hv : ((reader bo frame).read l).1 = some v) :
    v.2.1.toNat ≤ C := by
  obtain ⟨_ | w, wr⟩ := l
  · cases hv
  · obtain ⟨f, hf, rfl⟩ := Option.map_eq_some_iff.mp hv
    have hread : readFrom bo frame w = (some f, (readFrom bo frame w).2) := Prod.ext hf rfl
    change (stored w).length ≤ C at h
    rwa [stored_of_delivered hread, CanardCANFrame.length_payload] at h

/-- **When the log reader stays inside `frame.data`**: whatever the file holds, just if what each
call finds is a length byte it can trust, or too little to do harm. -/
theorem inBounds_iff (C : ℕ) (bo : ByteOrder) (frame : CanardCANFrame) (l : LogFileIface) (n : ℕ) :
    InBounds C bo frame l n ↔ ∀ m < n, Fits C ((reader bo frame).after m l).unread := by
  constructor
  · exact fun h m hm => length_stored_le_iff.mp (h.1 m hm)
  · intro h
    refine ⟨fun m hm => length_stored_le_iff.mpr (h m hm), fun v hv => ?_⟩
    obtain ⟨m, hm, hread⟩ := Reader.mem_delivered.mp hv
    exact dataLen_le_of_stored (length_stored_le_iff.mpr (h m hm)) hread

/-- The record of a frame one byte longer than any CAN frame. -/
def overlong : CanardCANFrame := ⟨0, 65, fun _ => 0⟩

/-- The first call on its record stores all 65 bytes. -/
theorem not_inBounds_overlong {C : ℕ} (hC : C < 65) :
    ¬ InBounds C .little overlong ⟨some (record .little overlong), none⟩ 1 := by
  intro h
  have hfits : Fits C (record .little overlong) := length_stored_le_iff.mp (h.1 0 Nat.one_pos)
  have hbound := hfits (wordBytes .little 0) 65
    (overlong.payload ++ wordBytes .little (crc32 overlong.payload)) rfl rfl
  rw [List.length_append, length_wordBytes, CanardCANFrame.length_payload] at hbound
  change 65 ≤ C ∨ 65 + 4 ≤ C at hbound
  omega

theorem not_forall_inBounds :
    (¬ ∀ (bo : ByteOrder) (frame : CanardCANFrame) (file : List Byte) (wr : Option (List Byte))
      (n : ℕ), InBounds 8 bo frame ⟨some file, wr⟩ n) ∧
    ¬ ∀ (bo : ByteOrder) (frame : CanardCANFrame) (file : List Byte) (wr : Option (List Byte))
      (n : ℕ), InBounds 64 bo frame ⟨some file, wr⟩ n :=
  ⟨fun h => not_inBounds_overlong (C := 8) (by decide) (h _ _ _ _ _),
    fun h => not_inBounds_overlong (C := 64) (by decide) (h _ _ _ _ _)⟩

end LogFileIface

end LibDronecan
