import Mathlib.Data.List.GetD
import LibDronecan.DataIface.LogRoundTrip
import LibDronecan.Machinery.Resync

/-!
# DataIface/LogDamage — what a torn or altered record costs

    record │ torn │ record │ record │ …        a call begun in the torn record takes
             ╰───── ≤ 265 bytes ─────╯         what it lacks from the next ones

`send` leaves what it wrote before it failed, and `update_rx` takes a record's bytes as its length
says, whether or not the checksum then agrees.  So a record that is short, or whose length byte is
wrong, takes bytes of the records after it, and these are lost.  How many bytes is bounded by the
largest record there can be; a reader that comes out inside a record is led on by a header byte
there, if there is one, as far as a record begun at that byte can go.  `Scanner.survivors` is that
count, with the records as its segments.
-/

open Machinery

namespace LibDronecan

namespace LogFileIface

variable (bo : ByteOrder) (frame : CanardCANFrame)

/-- **`update_rx` as a scanner**: a header and nine bytes, and those the length byte asks for. -/
def scanner : Scanner Byte (Word × Byte × List Byte) where
  header := frameHeader1
  item w := (readBody bo frame w.tail).1.map CanardCANFrame.view
  extent w := 10 + (w.getD 5 0).toNat
  bound := 265
  extent_pos _ := by omega
  extent_le w := by have := (w.getD 5 0).isLt; omega

theorem read_scanner (w : List Byte) :
    (scanner bo frame).read w
      = ((readFrom bo frame w).1.map CanardCANFrame.view, (readFrom bo frame w).2) := by
  induction w with
  | nil => rfl
  | cons b w ih =>
    by_cases hb : b = frameHeader1
    · subst hb
      rw [readFrom_header, snd_readBody]
      refine (Scanner.read_header (S := scanner bo frame) w).trans (congrArg (Prod.mk _) ?_)
      change (frameHeader1 :: w).drop (10 + (w.getD 4 0).toNat) = _
      rw [show 10 + (w.getD 4 0).toNat = 9 + (w.getD 4 0).toNat + 1 by omega, List.drop_succ_cons]
    · have hskip : readFrom bo frame (b :: w) = readFrom bo frame w :=
        readFrom_append (g := [b]) (by simpa using Ne.symm hb) w
      rw [hskip, ← ih]
      exact if_neg hb

/-- What enough calls deliver of a file is what the scanner finds in it. -/
theorem delivered_eq (w : List Byte) (wr : Option (List Byte)) {n : ℕ} (hn : w.length ≤ n) :
    (reader bo frame).delivered n ⟨some w, wr⟩ = (scanner bo frame).all w := by
  have hread (w : List Byte) : (reader bo frame).read ⟨some w, wr⟩
      = (((scanner bo frame).read w).1, ⟨some ((scanner bo frame).read w).2, wr⟩) := by
    rw [read_reader, read_scanner]
  have hcalls : (reader bo frame).calls n ⟨some w, wr⟩ = (scanner bo frame).reader.calls n w :=
    Reader.calls_eq_of_read_eq (e := fun w : List Byte => (⟨some w, wr⟩ : LogFileIface)) hread n w
  rw [Reader.delivered, hcalls]
  exact Reader.delivered_eq_all (R := (scanner bo frame).reader) hn

/-! ## Records and broken records -/

theorem first_cons (b : Byte) (g : List Byte) :
    (scanner bo frame).first (b :: g)
      = if b = frameHeader1 then 10 + ((b :: g).getD 5 0).toNat else 1 := rfl

theorem getD_record (f : CanardCANFrame) (w : List Byte) :
    (record bo f ++ w).getD 5 0 = f.dataLen := by cases bo <;> rfl

theorem first_record (f : CanardCANFrame) (w : List Byte) :
    (scanner bo frame).first (record bo f ++ w) = f.len + 10 := by
  have hlen := getD_record bo f w
  rw [record, List.cons_append] at hlen ⊢
  rw [first_cons, if_pos rfl, hlen, Nat.add_comm]
  rfl

/-- A complete record. -/
def whole (f : CanardCANFrame) : (scanner bo frame).Segment where
  symbols := record bo f
  item := some f.view
  least := f.len + 10
  most := f.len + 10
  symbols_ne := List.cons_ne_nil _ _
  least_le w := (first_record bo frame f w).ge
  le_most w := (first_record bo frame f w).le
  sound := by
    rintro v ⟨⟩ w
    obtain ⟨hval, hrest⟩ := readFrom_record bo frame f w
    rw [read_scanner, hval, hrest]

/-- The frames whose `send` returned `true`. -/
def accepted (ss : List Sent) : List (Word × Byte × List Byte) :=
  (ss.filter (returned bo)).map fun s => s.1.view

variable {bo frame}

/-- A frame of id 0 without data. -/
def noData : CanardCANFrame := ⟨0, 0, fun _ => 0⟩

end LogFileIface

end LibDronecan
