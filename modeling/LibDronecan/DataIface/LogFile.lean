import LibDronecan.DataIface.Raw
import LibDronecan.Machinery.Reader

/-!
# DataIface/LogFile — frames as records of a file

    0x34 │ id (4) │ data_len (1) │ data (data_len) │ crc (4)        one record, five writes

A file is a sequential byte stream: what was appended to it, or what is left to read of it.  The
words go to it as the machine lays them out, so the byte order is a parameter.  `send` stops at the
first write that falls short and takes nothing back; `updateRx` skips to a header byte, reads the
four fields after it at their word, and never goes back either.
-/

open Machinery

namespace LibDronecan

/-! ## Words in memory -/

inductive ByteOrder
  | little
  | big
  deriving DecidableEq

/-- The four bytes of a word as they lie in memory. -/
def wordBytes : ByteOrder → Word → List Byte
  | .little, x => idBytes x
  | .big, x => (idBytes x).reverse

/-- The word that four bytes make. -/
def wordOfBytes : ByteOrder → List Byte → Word
  | .little, [b₀, b₁, b₂, b₃] => idOfBytes b₀ b₁ b₂ b₃
  | .big, [b₀, b₁, b₂, b₃] => idOfBytes b₃ b₂ b₁ b₀
  | _, _ => 0

@[simp] theorem length_wordBytes (bo : ByteOrder) (x : Word) : (wordBytes bo x).length = 4 := by
  cases bo <;> rfl

@[simp] theorem wordOfBytes_wordBytes (bo : ByteOrder) (x : Word) :
    wordOfBytes bo (wordBytes bo x) = x := by
  cases bo <;> exact idOfBytes_idBytes x

theorem wordBytes_wordOfBytes (bo : ByteOrder) {b : List Byte} (hb : b.length = 4) :
    wordBytes bo (wordOfBytes bo b) = b := by
  obtain ⟨b₀, b₁, b₂, b₃, rfl⟩ := List.length_eq_four.mp hb
  cases bo with
  | little => exact idBytes_idOfBytes b₀ b₁ b₂ b₃
  | big => exact congrArg List.reverse (idBytes_idOfBytes b₃ b₂ b₁ b₀)

/-! ## The checksum -/

/-- One step of the inner loop: the mask is all ones when the low bit is set. -/
def crcBit (crc : Word) : Word := (crc >>> 1) ^^^ (0xEDB88320 &&& -(crc &&& 1))

/-- One step of the outer loop. -/
def crcByte (crc : Word) (byte : Byte) : Word := crcBit^[8] (crc ^^^ byte.setWidth 32)

/-- `LogFileIface::crc32` of `data[0..len)`. -/
def crc32 (data : List Byte) : Word := ~~~ data.foldl crcByte 0xFFFFFFFF

/-! ## Writing -/

/-- What becomes of a `write`: it succeeds in full, or appends some proper prefix of what it was
given and returns some smaller count. -/
inductive WriteOutcome
  | full
  | short (appended : ℕ) (ret : ℤ)
  deriving DecidableEq

/-- `File::write`: the count it returns and the file afterwards. -/
def write (file buf : List Byte) : WriteOutcome → ℤ × List Byte
  | .full => (buf.length, file ++ buf)
  | .short k ret => (min ret (buf.length - 1), file ++ buf.take (min k (buf.length - 1)))

/-- `if (write_file->write(buf, size) != size) return false;` and what follows it. -/
def writeThen (file buf : List Byte) (size : ℕ) (o : WriteOutcome)
    (next : List Byte → Bool × List Byte) : Bool × List Byte :=
  if (write file buf o).1 ≠ size then (false, (write file buf o).2) else next (write file buf o).2

/-- The five writes of `send`; `o k` is what becomes of the `k`-th. -/
def sendTo (bo : ByteOrder) (frame : CanardCANFrame) (o : ℕ → WriteOutcome) (file : List Byte) :
    Bool × List Byte :=
  writeThen file [frameHeader1] 1 (o 0) fun file =>
  writeThen file (wordBytes bo frame.id) 4 (o 1) fun file =>
  writeThen file [frame.dataLen] 1 (o 2) fun file =>
  writeThen file frame.payload frame.len (o 3) fun file =>
  writeThen file (wordBytes bo (crc32 frame.payload)) 4 (o 4) fun file =>
  (true, file)

/-! ## Reading -/

/-- The loop that skips to a header: what follows it, if there is one. -/
def findHeader : List Byte → Option (List Byte)
  | [] => none
  | header :: file => if header = frameHeader1 then some file else findHeader file

/-- `if (read_file->read(buf, size) != size) return;` and what follows it. -/
def readThen {γ : Type*} (file : List Byte) (size : ℕ)
    (next : List Byte → List Byte → Option γ × List Byte) : Option γ × List Byte :=
  if (file.take size).length ≠ size then (none, file.drop size)
  else next (file.take size) (file.drop size)

/-- What `update_rx` does once past a header.  `frame` is its uninitialised local. -/
def readBody (bo : ByteOrder) (frame : CanardCANFrame) (file : List Byte) :
    Option CanardCANFrame × List Byte :=
  readThen file 4 fun id file =>
  readThen file 1 fun len file =>
  readThen file (len.headD 0).toNat fun data file =>
  readThen file 4 fun crc file =>
  let frame : CanardCANFrame :=
    { frame with id := wordOfBytes bo id, dataLen := len.headD 0 }.fill fun i => data.getD i 0
  if wordOfBytes bo crc ≠ crc32 frame.payload then (none, file) else (some frame, file)

/-- The reading part of `update_rx`: the frame it passes to `rx_cbs`, and what is left to read. -/
def readFrom (bo : ByteOrder) (frame : CanardCANFrame) (file : List Byte) :
    Option CanardCANFrame × List Byte :=
  match findHeader file with
  | none => (none, [])
  | some file => readBody bo frame file

/-! ## The interface -/

/-- `LogFileIface`: its two files, null or a stream. -/
structure LogFileIface where
  readFile : Option (List Byte)
  writeFile : Option (List Byte)

namespace LogFileIface

/-- `LogFileIface::send`. -/
def send (bo : ByteOrder) (l : LogFileIface) (frame : CanardCANFrame) (o : ℕ → WriteOutcome) :
    Bool × LogFileIface :=
  match l.writeFile with
  | none => (false, l)
  | some file =>
    ((sendTo bo frame o file).1, { l with writeFile := some (sendTo bo frame o file).2 })

/-- `LogFileIface::update_rx`. -/
def updateRx (bo : ByteOrder) (frame : CanardCANFrame) (l : LogFileIface) :
    Option CanardCANFrame × LogFileIface :=
  match l.readFile with
  | none => (none, l)
  | some file =>
    ((readFrom bo frame file).1, { l with readFile := some (readFrom bo frame file).2 })

end LogFileIface

/-! ## Records -/

/-- **The record of a frame**: what the five writes append. -/
def record (bo : ByteOrder) (f : CanardCANFrame) : List Byte :=
  frameHeader1 :: (wordBytes bo f.id ++ f.dataLen :: (f.payload ++ wordBytes bo (crc32 f.payload)))

@[simp] theorem length_record (bo : ByteOrder) (f : CanardCANFrame) :
    (record bo f).length = f.len + 10 := by
  simp only [record, List.length_cons, List.length_append, length_wordBytes,
    CanardCANFrame.length_payload]
  omega

/-! ## What `send` appends -/

/-- **The write appends `r`, or stops inside it**: whatever the file holds already, all of `r` is
appended and the call succeeds, or less than all of it and the call fails. -/
def Writes (next : List Byte → Bool × List Byte) (r : List Byte) : Prop :=
  ∃ ok k, (if ok = true then k = r.length else k < r.length) ∧
    ∀ file, next file = (ok, file ++ r.take k)

theorem writes_nil : Writes (fun file => (true, file)) [] := ⟨true, 0, rfl, fun file => by simp⟩

theorem writeThen_full {buf : List Byte} {size : ℕ} (hsize : buf.length = size) (file : List Byte)
    (next : List Byte → Bool × List Byte) :
    writeThen file buf size .full next = next (file ++ buf) :=
  if_neg fun h => h (congrArg _ hsize)

theorem writeThen_short {buf : List Byte} {size : ℕ} (hsize : buf.length = size) (file : List Byte)
    (k : ℕ) (ret : ℤ) (next : List Byte → Bool × List Byte) :
    writeThen file buf size (.short k ret) next
      = (false, file ++ buf.take (min k (buf.length - 1))) := by
  refine if_pos fun h => ?_
  have hmin : min ret ((buf.length : ℤ) - 1) = size := h
  omega

theorem writes_writeThen {buf r : List Byte} {size : ℕ} {next : List Byte → Bool × List Byte}
    (h : Writes next r) (hsize : buf.length = size) (hpos : 0 < (buf ++ r).length)
    (o : WriteOutcome) : Writes (fun file => writeThen file buf size o next) (buf ++ r) := by
  cases o with
  | full =>
    obtain ⟨ok, k, hk, hnext⟩ := h
    refine ⟨ok, buf.length + k, ?_, fun file => ?_⟩
    · rw [List.length_append]
      split_ifs at hk ⊢ <;> omega
    · change writeThen file buf size .full next = _
      rw [writeThen_full hsize, hnext, List.take_length_add_append, List.append_assoc]
  | short k ret =>
    rw [List.length_append] at hpos
    refine ⟨false, min k (buf.length - 1), ?_, fun file => ?_⟩
    · rw [List.length_append, if_neg Bool.false_ne_true]
      omega
    · change writeThen file buf size (.short k ret) next = _
      rw [writeThen_short hsize, List.take_append_of_le_length (by omega)]

theorem record_eq (bo : ByteOrder) (f : CanardCANFrame) :
    record bo f = [frameHeader1] ++ (wordBytes bo f.id ++ ([f.dataLen] ++ (f.payload ++
      (wordBytes bo (crc32 f.payload) ++ [])))) := by
  simp [record]

/-- **A `send` appends the record, or a part of it and fails.** -/
theorem writes_sendTo (bo : ByteOrder) (f : CanardCANFrame) (o : ℕ → WriteOutcome) :
    Writes (sendTo bo f o) (record bo f) := by
  rw [record_eq]
  refine writes_writeThen ?_ rfl (by simp) (o 0)
  refine writes_writeThen ?_ (length_wordBytes _ _)
    (by rw [List.length_append, length_wordBytes]; omega) (o 1)
  refine writes_writeThen ?_ rfl (by simp) (o 2)
  refine writes_writeThen ?_ f.length_payload (by simp) (o 3)
  exact writes_writeThen writes_nil (length_wordBytes _ _) (by simp) (o 4)

theorem sendTo_full (bo : ByteOrder) (f : CanardCANFrame) (file : List Byte) :
    sendTo bo f (fun _ => .full) file = (true, file ++ record bo f) := by
  rw [sendTo, writeThen_full List.length_singleton, writeThen_full (length_wordBytes _ _),
    writeThen_full List.length_singleton, writeThen_full f.length_payload,
    writeThen_full (length_wordBytes _ _), record_eq]
  simp only [List.append_assoc, List.append_nil]

/-! ## What `update_rx` takes -/

variable {bo : ByteOrder} {frame : CanardCANFrame} {g w id : List Byte}

theorem findHeader_append (hg : frameHeader1 ∉ g) (w : List Byte) :
    findHeader (g ++ w) = findHeader w := by
  induction g with
  | nil => rfl
  | cons b g ih =>
    rw [List.mem_cons, not_or] at hg
    rw [List.cons_append, findHeader, if_neg (Ne.symm hg.1), ih hg.2]

/-- Bytes without a header among them are skipped. -/
theorem readFrom_append (hg : frameHeader1 ∉ g) (w : List Byte) :
    readFrom bo frame (g ++ w) = readFrom bo frame w := by
  rw [readFrom, findHeader_append hg, readFrom]

theorem readFrom_header (w : List Byte) :
    readFrom bo frame (frameHeader1 :: w) = readBody bo frame w := by
  rw [readFrom, findHeader, if_pos rfl]

theorem readThen_append {γ : Type*} {buf : List Byte} {size : ℕ} (hsize : buf.length = size)
    (w : List Byte) (next : List Byte → List Byte → Option γ × List Byte) :
    readThen (buf ++ w) size next = next buf w := by
  subst hsize
  rw [readThen, List.take_left, List.drop_left, if_neg fun h => h rfl]

/-- A read that falls short takes the rest of the file. -/
theorem readThen_of_lt {γ : Type*} {size : ℕ} (hw : w.length < size)
    (next : List Byte → List Byte → Option γ × List Byte) :
    readThen w size next = (none, []) := by
  rw [readThen, List.drop_of_length_le hw.le, if_pos]
  rw [List.length_take]
  omega

theorem map_range_getD (data : List Byte) :
    (List.range data.length).map (fun i => data.getD i 0) = data :=
  List.ext_getElem (by simp) fun i hi hi' => by simp [hi']

/-- The frame a call fills has the bytes read as its data. -/
theorem payload_filled (frame : CanardCANFrame) (id : Word) {l : Byte} {data : List Byte}
    (hdata : data.length = l.toNat) :
    (CanardCANFrame.fill { frame with id := id, dataLen := l } fun i => data.getD i 0).payload
      = data := by
  rw [CanardCANFrame.payload_fill]
  change (List.range l.toNat).map _ = data
  rw [← hdata, map_range_getD]

variable (bo frame) in
/-- **Past a header, the call believes the length byte**: it takes that many bytes as data and four
more as the checksum of these, and delivers what it took if they agree. -/
theorem readBody_eq (hid : id.length = 4) (l : Byte) {data crc : List Byte}
    (hdata : data.length = l.toNat) (hcrc : crc.length = 4) (w : List Byte) :
    (readBody bo frame (id ++ ([l] ++ (data ++ (crc ++ w))))).1.map CanardCANFrame.view
        = (if wordOfBytes bo crc = crc32 data then some (wordOfBytes bo id, l, data) else none)
      ∧ (readBody bo frame (id ++ ([l] ++ (data ++ (crc ++ w))))).2 = w := by
  have hpayload := payload_filled frame (wordOfBytes bo id) hdata
  rw [readBody, readThen_append hid, readThen_append (List.length_singleton (a := l)),
    List.headD_cons, readThen_append hdata, readThen_append hcrc]
  simp only [hpayload, ne_eq, ite_not]
  split_ifs
  · exact ⟨congrArg some (by rw [CanardCANFrame.view, hpayload]; rfl), rfl⟩
  · exact ⟨rfl, rfl⟩

theorem exists_append_of_le {n : ℕ} (h : n ≤ w.length) : ∃ a b, a.length = n ∧ w = a ++ b :=
  ⟨w.take n, w.drop n, List.length_take_of_le h, (List.take_append_drop n w).symm⟩

/-- The bytes past the header that a call takes: nine, and as many as the fifth of them says. -/
theorem snd_readBody (w : List Byte) :
    (readBody bo frame w).2 = w.drop (9 + (w.getD 4 0).toNat) := by
  obtain h4 | h4 := Nat.lt_or_ge w.length 4
  · rw [readBody, readThen_of_lt h4, List.drop_of_length_le (by omega)]
  obtain ⟨id, w, hid, rfl⟩ := exists_append_of_le h4
  cases w with
  | nil =>
    rw [readBody, readThen_append hid, readThen_of_lt (by simp), List.drop_of_length_le]
    simp [hid]
  | cons l w =>
    have hl : (id ++ l :: w).getD 4 0 = l := by
      rw [List.getD, List.getElem?_append_right hid.le, hid]
      rfl
    rw [hl]
    change (readBody bo frame (id ++ ([l] ++ w))).2 = (id ++ ([l] ++ w)).drop (9 + l.toNat)
    obtain hlen | hlen := Nat.lt_or_ge w.length l.toNat
    · rw [readBody, readThen_append hid, readThen_append (List.length_singleton (a := l)),
        List.headD_cons, readThen_of_lt hlen, List.drop_of_length_le]
      simp only [List.length_append, List.length_singleton]
      omega
    obtain ⟨data, w, hdata, rfl⟩ := exists_append_of_le hlen
    obtain hcrc | hcrc := Nat.lt_or_ge w.length 4
    · rw [readBody, readThen_append hid, readThen_append (List.length_singleton (a := l)),
        List.headD_cons, readThen_append hdata, readThen_of_lt hcrc, List.drop_of_length_le]
      simp only [List.length_append, List.length_singleton]
      omega
    obtain ⟨crc, w, hfour, rfl⟩ := exists_append_of_le hcrc
    rw [(readBody_eq bo frame hid l hdata hfour w).2]
    simp only [← List.append_assoc]
    rw [List.drop_left']
    simp only [List.length_append, List.length_singleton]
    omega

variable (bo frame) in
/-- **A record at the reader's position is delivered**, and the reader stands at its end. -/
theorem readFrom_record (f : CanardCANFrame) (w : List Byte) :
    (readFrom bo frame (record bo f ++ w)).1.map CanardCANFrame.view = some f.view
      ∧ (readFrom bo frame (record bo f ++ w)).2 = w := by
  obtain ⟨hval, hrest⟩ := readBody_eq bo frame (length_wordBytes bo f.id)
    f.dataLen f.length_payload (length_wordBytes bo (crc32 f.payload)) w
  rw [wordOfBytes_wordBytes, wordOfBytes_wordBytes, if_pos rfl] at hval
  have heq : record bo f ++ w = frameHeader1 :: (wordBytes bo f.id ++ ([f.dataLen] ++ (f.payload ++
      (wordBytes bo (crc32 f.payload) ++ w)))) := by simp [record]
  rw [heq, readFrom_header]
  exact ⟨hval, hrest⟩

/-- A call takes at least a byte, as long as there is one. -/
theorem length_snd_readFrom_lt {w : List Byte} (hw : w ≠ []) :
    (readFrom bo frame w).2.length < w.length := by
  induction w with
  | nil => exact absurd rfl hw
  | cons b w ih =>
    by_cases hb : b = frameHeader1
    · rw [hb, readFrom_header, snd_readBody, List.length_drop, List.length_cons]
      omega
    · rw [show readFrom bo frame (b :: w) = readFrom bo frame w from
        readFrom_append (g := [b]) (by simpa using Ne.symm hb) w, List.length_cons]
      obtain rfl | hne := eq_or_ne w []
      · exact Nat.one_pos
      · exact Nat.lt_succ_of_lt (ih hne)

end LibDronecan
