import LibDronecan.DataIface.LogFile

/-!
# DataIface/LogRoundTrip — a log written in full reads back

    frames ──send──▸ records ──update_rx──▸ frames

Nothing in a record is escaped, and the header byte may occur anywhere in it.  The reader still
never sees such an occurrence: it starts at a record's first byte, believes the length, and so ends
at the next record's first byte.  That position is the invariant of the induction over the list.
-/

open Machinery

namespace LibDronecan

/-- The bytes that a list of complete records makes. -/
def records (bo : ByteOrder) (fs : List CanardCANFrame) : List Byte := fs.flatMap (record bo)

namespace LogFileIface

/-- A call of `send`, with what becomes of its writes. -/
abbrev Sent := CanardCANFrame × (ℕ → WriteOutcome)

/-- `send` called on each frame in turn: the values returned, and the interface afterwards. -/
def sendAll (bo : ByteOrder) : LogFileIface → List Sent → List Bool × LogFileIface
  | l, [] => ([], l)
  | l, s :: ss =>
      ((l.send bo s.1 s.2).1 :: (sendAll bo (l.send bo s.1 s.2).2 ss).1,
        (sendAll bo (l.send bo s.1 s.2).2 ss).2)

/-- All of these calls' writes succeed in full. -/
def inFull (fs : List CanardCANFrame) : List Sent := fs.map fun f => (f, fun _ => .full)

/-- What a call returns. -/
def returned (bo : ByteOrder) (s : Sent) : Bool := (sendTo bo s.1 s.2 []).1

/-- What a call appends. -/
def appended (bo : ByteOrder) (s : Sent) : List Byte := (sendTo bo s.1 s.2 []).2

/-- **`update_rx` as a reader** of the unread part of the file. -/
def reader (bo : ByteOrder) (frame : CanardCANFrame) :
    Reader LogFileIface (Word × Byte × List Byte) where
  read l := ((l.updateRx bo frame).1.map CanardCANFrame.view, (l.updateRx bo frame).2)
  size l := (l.readFile.getD []).length
  shrinks l := by
    obtain ⟨file, wr⟩ := l
    obtain _ | w := file
    · exact Or.inr rfl
    obtain rfl | hw := eq_or_ne w []
    · exact Or.inr rfl
    · exact Or.inl (length_snd_readFrom_lt hw)

variable {bo : ByteOrder} {frame : CanardCANFrame}

/-! ## The written file -/

theorem sendTo_append (s : Sent) (file : List Byte) :
    sendTo bo s.1 s.2 file = (returned bo s, file ++ appended bo s) := by
  obtain ⟨ok, k, -, h⟩ := writes_sendTo bo s.1 s.2
  rw [returned, appended, h file, h [], List.nil_append]

/-- **The file is what the calls append, one after the other.** -/
theorem sendAll_eq (ss : List Sent) (rd : Option (List Byte)) (file : List Byte) :
    sendAll bo ⟨rd, some file⟩ ss
      = (ss.map (returned bo), ⟨rd, some (file ++ ss.flatMap (appended bo))⟩) := by
  induction ss generalizing file with
  | nil => simp [sendAll]
  | cons s ss ih =>
    simp only [sendAll, send, sendTo_append, ih, List.map_cons, List.flatMap_cons,
      List.append_assoc]

theorem appended_full (f : CanardCANFrame) : appended bo (f, fun _ => .full) = record bo f := by
  rw [appended, sendTo_full, List.nil_append]

/-- Calls whose writes all succeed return `true` and write the records. -/
theorem sendAll_inFull (fs : List CanardCANFrame) (rd : Option (List Byte)) :
    sendAll bo ⟨rd, some []⟩ (inFull fs)
      = (fs.map fun _ => true, ⟨rd, some (records bo fs)⟩) := by
  rw [sendAll_eq, List.nil_append, inFull, List.map_map, List.flatMap_map]
  simp only [appended_full, Function.comp_def, returned, sendTo_full, records]

/-! ## Reading it back -/

theorem read_reader (w : List Byte) (wr : Option (List Byte)) :
    (reader bo frame).read ⟨some w, wr⟩ = ((readFrom bo frame w).1.map CanardCANFrame.view,
      ⟨some (readFrom bo frame w).2, wr⟩) := rfl

/-- One call on a record delivers its frame and leaves the reader at the record's end. -/
theorem read_reader_record (f : CanardCANFrame) (w : List Byte) (wr : Option (List Byte)) :
    (reader bo frame).read ⟨some (record bo f ++ w), wr⟩ = (some f.view, ⟨some w, wr⟩) := by
  obtain ⟨hval, hrest⟩ := readFrom_record bo frame f w
  rw [read_reader, hval, hrest]

theorem calls_records (fs : List CanardCANFrame) (n : ℕ) (wr : Option (List Byte)) :
    (reader bo frame).calls n ⟨some (records bo fs), wr⟩
      = ((fs.map (some ∘ CanardCANFrame.view)) ++ List.replicate n none).take n := by
  induction n generalizing fs with
  | zero => rfl
  | succ n ih =>
    cases fs with
    | nil =>
      rw [Reader.calls_of_dry (by rfl), List.map_nil, List.nil_append, List.take_of_length_le]
      rw [List.length_replicate]
    | cons f fs =>
      rw [Reader.calls, records, List.flatMap_cons, read_reader_record, List.map_cons,
        List.cons_append, List.take_succ_cons]
      refine congrArg _ ((ih fs).trans ?_)
      rw [List.replicate_succ', ← List.append_assoc]
      exact (List.take_append_of_le_length (by simp)).symm

/-- **The log round trip.**  Whatever the frames hold, every `send` returns `true`, and reading
from the start of the file delivers them one per call, in order, and then nothing any more. -/
theorem calls_sendAll_inFull (bo : ByteOrder) (frame : CanardCANFrame) (fs : List CanardCANFrame)
    (rd wr : Option (List Byte)) (n : ℕ) :
    (sendAll bo ⟨rd, some []⟩ (inFull fs)).1 = fs.map (fun _ => true) ∧
      (reader bo frame).calls n ⟨(sendAll bo ⟨rd, some []⟩ (inFull fs)).2.writeFile, wr⟩
        = ((fs.map (some ∘ CanardCANFrame.view)) ++ List.replicate n none).take n := by
  rw [sendAll_inFull]
  exact ⟨rfl, calls_records fs n wr⟩

end LogFileIface

end LibDronecan
