import LibDronecan.DataIface.LogRoundTrip
import LibDronecan.Machinery.Run

/-!
# DataIface/LogTail — reading a log while it is written

    writer   0x34 │ id │ data_len │ data │ crc │ 0x34 │ …          a byte at a time
    reader   header │ id │ data_len │ data │ crc │ header │ …      a read at a time

`update_rx` takes a record in five reads and returns at the first that falls short, the bytes of
that read gone with it.  So a reader that catches up with the writer inside a record loses it; it
comes back to look for a header in the rest of it, and unless there is one it is in step again at
the next record.  Each read that falls short costs one frame then, and nothing else is lost,
doubled or put out of order (`always_accounted`).
-/

open Machinery

namespace LibDronecan

namespace LogFileIface

/-- The read `update_rx` makes next, with what it has read of the record. -/
inductive ReadPc
  | header
  | id
  | len (id : List Byte)
  | data (id : List Byte) (l : Byte)
  | crc (id : List Byte) (l : Byte) (data : List Byte)
  deriving DecidableEq

/-- How many bytes it asks for. -/
def ReadPc.size : ReadPc → ℕ
  | header => 1
  | id => 4
  | len _ => 1
  | data _ l => l.toNat
  | crc _ _ _ => 4

/-- A log that one end writes and the other reads. -/
structure LiveLog where
  /-- in the file and not read yet -/
  unread : List Byte
  /-- of the record `send` is writing, not in the file yet -/
  todo : List Byte
  pc : ReadPc
  sent : List CanardCANFrame
  got : List (Word × Byte × List Byte)
  /-- the reads past a header that fell short -/
  torn : ℕ

inductive LiveAct
  /-- `send` is called -/
  | send (frame : CanardCANFrame)
  /-- a byte of its record reaches the file -/
  | write
  /-- `update_rx` makes its next read -/
  | read

namespace LiveLog

def start : LiveLog := ⟨[], [], .header, [], [], 0⟩

/-- The frame `update_rx` has filled in, `frame` being its uninitialised local. -/
def filled (bo : ByteOrder) (frame : CanardCANFrame) (id : List Byte) (l : Byte)
    (data : List Byte) : CanardCANFrame :=
  { frame with id := wordOfBytes bo id, dataLen := l }.fill fun i => data.getD i 0

/-- What follows a read that gave all it was asked for. -/
def received (bo : ByteOrder) (frame : CanardCANFrame) (s : LiveLog) (buf : List Byte) : LiveLog :=
  match s.pc with
  | .header => { s with pc := if buf.headD 0 = frameHeader1 then .id else .header }
  | .id => { s with pc := .len buf }
  | .len id => { s with pc := .data id (buf.headD 0) }
  | .data id l => { s with pc := .crc id l buf }
  | .crc id l data =>
    if wordOfBytes bo buf ≠ crc32 (filled bo frame id l data).payload then
      { s with pc := .header }
    else { s with pc := .header, got := s.got ++ [(filled bo frame id l data).view] }

/-- The next read falls short inside a record. -/
def Tears (s : LiveLog) : Prop := s.pc ≠ .header ∧ s.unread.length < s.pc.size

instance (s : LiveLog) : Decidable s.Tears := inferInstanceAs (Decidable (_ ∧ _))

/-- A read of `update_rx`; if it falls short the call returns, and the next one looks for a
header. -/
def read (bo : ByteOrder) (frame : CanardCANFrame) (s : LiveLog) : LiveLog :=
  let rest : LiveLog := { s with unread := s.unread.drop s.pc.size }
  if (s.unread.take s.pc.size).length ≠ s.pc.size then
    { rest with pc := .header, torn := if s.Tears then s.torn + 1 else s.torn }
  else received bo frame rest (s.unread.take s.pc.size)

def step (bo : ByteOrder) (frame : CanardCANFrame) (s : LiveLog) : LiveAct → Option LiveLog
  | .send f =>
    if s.todo = [] then some { s with todo := record bo f, sent := s.sent ++ [f] } else none
  | .write =>
    match s.todo with
    | [] => none
    | b :: todo => some { s with unread := s.unread ++ [b], todo := todo }
  | .read => some (s.read bo frame)

def machine (bo : ByteOrder) (frame : CanardCANFrame) : Machine LiveLog LiveAct := ⟨step bo frame⟩

variable {bo : ByteOrder} {frame f : CanardCANFrame} {s t : LiveLog}

/-! ## The reads of a call -/

theorem read_append {buf rest : List Byte} (hbuf : buf.length = s.pc.size)
    (hunread : s.unread = buf ++ rest) :
    s.read bo frame = received bo frame { s with unread := rest } buf := by
  rw [read, hunread, ← hbuf, List.take_left, List.drop_left, if_neg (not_not.mpr rfl)]

theorem read_of_lt (h : s.unread.length < s.pc.size) :
    s.read bo frame = { s with
      unread := [], pc := .header, torn := if s.Tears then s.torn + 1 else s.torn } := by
  have hlen : (s.unread.take s.pc.size).length ≠ s.pc.size := by
    rw [List.length_take]
    omega
  rw [read, if_pos hlen, List.drop_of_length_le h.le]

/-- The loop that skips to a header. -/
theorem read_header {b : Byte} {u : List Byte} (hpc : s.pc = .header)
    (hunread : s.unread = b :: u) : s.read bo frame
      = { s with unread := u, pc := if b = frameHeader1 then .id else .header } := by
  have hlen : [b].length = s.pc.size := by rw [hpc]; rfl
  rw [read_append hlen hunread, received, hpc]
  rfl

/-- The frame the reads of a record fill in. -/
theorem view_filled {id data : List Byte} {l : Byte} (hdata : data.length = l.toNat) :
    (filled bo frame id l data).view = (wordOfBytes bo id, l, data) := by
  rw [filled, CanardCANFrame.view, payload_filled frame _ hdata]
  rfl

/-- What a call of `update_rx` leaves that took `o` and left `w` to read. -/
structure Returned (s t : LiveLog) (o : Option CanardCANFrame) (w : List Byte) : Prop where
  pc : t.pc = .header
  unread : t.unread = w
  got : t.got = s.got ++ (o.map CanardCANFrame.view).toList
  writer : t.todo = s.todo ∧ t.sent = s.sent

theorem returned_of_lt (h : s.unread.length < s.pc.size) :
    ∃ n, Returned s ((read bo frame)^[n] s) none [] := by
  refine ⟨1, ?_⟩
  rw [Function.iterate_one, read_of_lt h]
  exact ⟨rfl, rfl, (List.append_nil _).symm, rfl, rfl⟩

/-- A read that delivers nothing comes before the rest of the call. -/
theorem returned_of_read {o : Option CanardCANFrame} {w : List Byte} (heq : s.read bo frame = t)
    (hgot : t.got = s.got) (hwriter : t.todo = s.todo ∧ t.sent = s.sent)
    (h : ∃ n, Returned t ((read bo frame)^[n] t) o w) :
    ∃ n, Returned s ((read bo frame)^[n] s) o w := by
  obtain ⟨n, hpc, hunread, hgot', htodo, hsent⟩ := h
  refine ⟨n + 1, ?_⟩
  rw [Function.iterate_succ_apply, heq]
  exact ⟨hpc, hunread, by rw [hgot', hgot], htodo.trans hwriter.1, hsent.trans hwriter.2⟩

/-- The checksum read is compared, and the call is over. -/
theorem returned_crc {id data buf w : List Byte} {l : Byte} (o : Option CanardCANFrame × List Byte)
    (ho : (if wordOfBytes bo buf ≠ crc32 (filled bo frame id l data).payload then (none, w)
      else (some (filled bo frame id l data), w)) = o) :
    Returned { s with unread := buf ++ w, pc := .crc id l data }
      (received bo frame { s with unread := w, pc := .crc id l data } buf) o.1 o.2 := by
  subst ho
  dsimp only [received]
  split_ifs
  · exact ⟨rfl, rfl, (List.append_nil _).symm, rfl, rfl⟩
  · exact ⟨rfl, rfl, rfl, rfl, rfl⟩

/-- Past a header. -/
theorem exists_returned_body (hs : s.pc = .id) : ∃ n, Returned s ((read bo frame)^[n] s)
    (readBody bo frame s.unread).1 (readBody bo frame s.unread).2 := by
  obtain ⟨w, todo, pc, sent, got, torn⟩ := s
  obtain rfl : pc = .id := hs
  dsimp only
  obtain hlt | hle := Nat.lt_or_ge w.length 4
  · rw [readBody, readThen_of_lt hlt]
    exact returned_of_lt hlt
  obtain ⟨id, w, hid, rfl⟩ := exists_append_of_le hle
  rw [readBody, readThen_append hid]
  refine returned_of_read (read_append hid rfl) rfl ⟨rfl, rfl⟩ ?_
  obtain hlt | hle := Nat.lt_or_ge w.length 1
  · rw [readThen_of_lt hlt]
    exact returned_of_lt hlt
  obtain ⟨len, w, hlen, rfl⟩ := exists_append_of_le hle
  rw [readThen_append hlen]
  refine returned_of_read (read_append hlen rfl) rfl ⟨rfl, rfl⟩ ?_
  obtain hlt | hle := Nat.lt_or_ge w.length (len.headD 0).toNat
  · rw [readThen_of_lt hlt]
    exact returned_of_lt hlt
  obtain ⟨data, w, hdata, rfl⟩ := exists_append_of_le hle
  rw [readThen_append hdata]
  refine returned_of_read (read_append hdata rfl) rfl ⟨rfl, rfl⟩ ?_
  obtain hlt | hle := Nat.lt_or_ge w.length 4
  · rw [readThen_of_lt hlt]
    exact returned_of_lt hlt
  obtain ⟨crc, w, hcrc, rfl⟩ := exists_append_of_le hle
  rw [readThen_append hcrc]
  refine ⟨1, ?_⟩
  rw [Function.iterate_one, read_append hcrc rfl]
  exact returned_crc (s := ⟨_, todo, _, sent, got, torn⟩) _ rfl

/-- **The reads are those of a call**: with no write between them, they take what `update_rx` takes
and deliver what it delivers. -/
theorem exists_returned (hs : s.pc = .header) : ∃ n, Returned s ((read bo frame)^[n] s)
    (readFrom bo frame s.unread).1 (readFrom bo frame s.unread).2 := by
  obtain ⟨w, todo, pc, sent, got, torn⟩ := s
  obtain rfl : pc = .header := hs
  dsimp only
  induction w with
  | nil => exact returned_of_lt Nat.one_pos
  | cons b w ih =>
    refine returned_of_read (read_header rfl rfl) rfl ⟨rfl, rfl⟩ ?_
    by_cases hb : b = frameHeader1
    · subst hb
      rw [readFrom_header, if_pos rfl]
      exact exists_returned_body rfl
    · rw [if_neg hb, show b :: w = [b] ++ w from rfl,
        readFrom_append (g := [b]) (by simpa using Ne.symm hb)]
      exact ih

/-! ## Where the reader stands -/

/-- Inside the record of `f` the next read is of `field`, and `rest` is the record behind it. -/
inductive Inside (bo : ByteOrder) (f : CanardCANFrame) : ReadPc → List Byte → List Byte → Prop
  | id : Inside bo f .id (wordBytes bo f.id)
      ([f.dataLen] ++ (f.payload ++ wordBytes bo (crc32 f.payload)))
  | len : Inside bo f (.len (wordBytes bo f.id)) [f.dataLen]
      (f.payload ++ wordBytes bo (crc32 f.payload))
  | data : Inside bo f (.data (wordBytes bo f.id) f.dataLen) f.payload
      (wordBytes bo (crc32 f.payload))
  | crc : Inside bo f (.crc (wordBytes bo f.id) f.dataLen f.payload)
      (wordBytes bo (crc32 f.payload)) []

variable {pc : ReadPc} {field rest : List Byte} {pend : List CanardCANFrame} {stream : List Byte}

theorem Inside.size (h : Inside bo f pc field rest) : field.length = pc.size := by
  cases h with
  | id => exact length_wordBytes _ _
  | len => rfl
  | data => exact f.length_payload
  | crc => exact length_wordBytes _ _

theorem Inside.ne_header (h : Inside bo f pc field rest) : pc ≠ .header := by
  cases h <;> exact ReadPc.noConfusion

/-- Its checksum is behind it, or is what is read. -/
theorem Inside.length_pos (h : Inside bo f pc field rest) : 0 < (field ++ rest).length := by
  rw [List.length_append]
  cases h <;> simp only [List.length_append, length_wordBytes, List.length_singleton] <;> omega

/-- The next field is read, and the reader stands before the one after it, or has the frame. -/
theorem Inside.received (h : Inside bo f s.pc field rest) :
    (∃ pc field' rest', LiveLog.received bo frame s field = { s with pc := pc } ∧
        Inside bo f pc field' rest' ∧ rest = field' ++ rest') ∨
      (LiveLog.received bo frame s field
        = { s with pc := .header, got := s.got ++ [f.view] } ∧ rest = []) := by
  obtain ⟨unread, todo, pc, sent, got, torn⟩ := s
  cases h with
  | id => exact .inl ⟨_, _, _, rfl, .len, rfl⟩
  | len => exact .inl ⟨_, _, _, rfl, .data, rfl⟩
  | data => exact .inl ⟨_, _, _, rfl, .crc, (List.append_nil _).symm⟩
  | crc =>
    have hview : (filled bo frame (wordBytes bo f.id) f.dataLen f.payload).view =
        (wordOfBytes bo (wordBytes bo f.id), f.dataLen, f.payload) :=
      view_filled f.length_payload
    have hpayload : (filled bo frame (wordBytes bo f.id) f.dataLen f.payload).payload = f.payload :=
      payload_filled frame _ f.length_payload
    refine .inr ⟨?_, rfl⟩
    simp only [LiveLog.received, hpayload, wordOfBytes_wordBytes, hview, ne_eq,
      not_true_eq_false, if_false]
    rfl

/-- `stream`, the bytes the reader has before it, is the rest of the record of the first frame of
`pend` and then the records of the others; where a header is looked for there may be bytes to
skip. -/
inductive Place (bo : ByteOrder) : ReadPc → List CanardCANFrame → List Byte → Prop
  | header {junk : List Byte} (hjunk : frameHeader1 ∉ junk) (pend : List CanardCANFrame) :
      Place bo .header pend (junk ++ records bo pend)
  | inside {f : CanardCANFrame} {pc : ReadPc} {field rest : List Byte}
      (h : Inside bo f pc field rest) (pend : List CanardCANFrame) :
      Place bo pc (f :: pend) (field ++ (rest ++ records bo pend))

theorem records_concat (fs : List CanardCANFrame) (f : CanardCANFrame) :
    records bo (fs ++ [f]) = records bo fs ++ record bo f := by
  simp [records]

theorem Place.send (h : Place bo pc pend stream) (f : CanardCANFrame) :
    Place bo pc (pend ++ [f]) (stream ++ record bo f) := by
  cases h with
  | header hjunk =>
    rw [List.append_assoc, ← records_concat]
    exact .header hjunk _
  | inside h pend =>
    rw [List.append_assoc, List.append_assoc, ← records_concat]
    exact .inside h _

/-- With nothing before it the reader has nothing to wait for. -/
theorem Place.eq_nil (h : Place bo pc pend []) : pend = [] := by
  generalize hstream : ([] : List Byte) = stream at h
  cases h with
  | header hjunk =>
    cases pend with
    | nil => rfl
    | cons f pend =>
      have hrecord := (List.append_eq_nil_iff.mp hstream.symm).2
      cases hrecord
  | inside h pend =>
    have hpos := h.length_pos
    rw [← List.append_assoc] at hstream
    rw [(List.append_eq_nil_iff.mp hstream.symm).1] at hpos
    exact absurd hpos (Nat.lt_irrefl 0)

/-! ## Accounts -/

/-- What has become of the frames sent: those of `fate` the reader is done with, and it has
delivered the ones marked; those of `pend` are still to come. -/
structure Accounts (bo : ByteOrder) (s : LiveLog) (fate : List (CanardCANFrame × Bool))
    (pend : List CanardCANFrame) : Prop where
  sent : s.sent = fate.map Prod.fst ++ pend
  got : s.got = (fate.filter Prod.snd).map fun p => p.1.view
  torn : s.torn = (fate.filter fun p => !p.2).length
  place : Place bo s.pc pend (s.unread ++ s.todo)
  writing : ∀ f ∈ s.sent.getLast?, s.todo.length ≤ (record bo f).length

variable {fate : List (CanardCANFrame × Bool)}

theorem accounts_start : Accounts bo start [] [] :=
  ⟨rfl, rfl, rfl, .header List.not_mem_nil [], fun _ hf => nomatch hf⟩

theorem Accounts.send (h : Accounts bo s fate pend) (hst : step bo frame s (.send f) = some t) :
    Accounts bo t fate (pend ++ [f]) := by
  rw [step] at hst
  split_ifs at hst with htodo
  obtain rfl := Option.some.inj hst
  have hplace := h.place
  rw [htodo, List.append_nil] at hplace
  refine ⟨?_, h.got, h.torn, hplace.send f, fun g hg => ?_⟩
  · exact (congrArg (· ++ [f]) h.sent).trans (List.append_assoc _ _ _)
  · rw [List.getLast?_concat] at hg
    exact (Option.some.inj hg) ▸ le_rfl

theorem Accounts.write (h : Accounts bo s fate pend) (hst : step bo frame s .write = some t) :
    Accounts bo t fate pend := by
  cases htodo : s.todo with
  | nil => simp [step, htodo] at hst
  | cons b todo =>
    simp only [step, htodo] at hst
    obtain rfl := Option.some.inj hst
    refine ⟨h.sent, h.got, h.torn, ?_, fun f hf => ?_⟩
    · have hplace := h.place
      rw [htodo, List.append_cons] at hplace
      exact hplace
    · have := h.writing f hf
      rw [htodo, List.length_cons] at this
      exact (Nat.le_succ _).trans this

/-- What two streams begin with. -/
theorem exists_of_append_eq {u v field more : List Byte} (h : u ++ v = field ++ more)
    (hle : field.length ≤ u.length) : ∃ w, u = field ++ w ∧ w ++ v = more := by
  obtain ⟨w, rfl⟩ := List.prefix_of_prefix_length_le ⟨more, rfl⟩ (h ▸ List.prefix_append u v) hle
  rw [List.append_assoc] at h
  exact ⟨w, rfl, List.append_cancel_left h⟩

/-- A header looked for. -/
theorem Accounts.read_header (h : Accounts bo s fate pend) (hpc : s.pc = .header) {b : Byte}
    {u : List Byte} (hunread : s.unread = b :: u) : Accounts bo (s.read bo frame) fate pend := by
  rw [LiveLog.read_header hpc hunread]
  have hplace := h.place
  rw [hpc, hunread] at hplace
  refine ⟨h.sent, h.got, h.torn, ?_, h.writing⟩
  dsimp only
  generalize hstream : b :: u ++ s.todo = stream at hplace
  cases hplace with
  | @header junk hjunk =>
    cases junk with
    | cons c junk =>
      -- one byte less to skip
      obtain ⟨rfl, hrest⟩ := List.cons.inj hstream
      rw [List.mem_cons, not_or] at hjunk
      rw [if_neg (Ne.symm hjunk.1), show u ++ s.todo = junk ++ records bo pend from hrest]
      exact .header hjunk.2 pend
    | nil =>
      cases pend with
      | nil => cases hstream
      | cons f pend =>
        rw [records, List.flatMap_cons, ← records, record] at hstream
        obtain ⟨rfl, hrest⟩ := List.cons.inj hstream
        have hrecord : u ++ s.todo = wordBytes bo f.id ++ (([f.dataLen] ++ (f.payload ++
            wordBytes bo (crc32 f.payload))) ++ records bo pend) :=
          hrest.trans (List.append_assoc _ _ _)
        rw [if_pos rfl, hrecord]
        exact .inside .id pend
  | inside hin => exact absurd rfl hin.ne_header

/-- A read inside a record that is given all it asks for. -/
theorem Accounts.read_inside {f : CanardCANFrame} {field rest : List Byte}
    (h : Accounts bo s fate (f :: pend)) (hin : Inside bo f s.pc field rest)
    (hle : s.pc.size ≤ s.unread.length)
    (hstream : s.unread ++ s.todo = field ++ (rest ++ records bo pend)) :
    ∃ fate pend, Accounts bo (s.read bo frame) fate pend := by
  rw [← hin.size] at hle
  obtain ⟨u, hunread, hrest⟩ := exists_of_append_eq hstream hle
  rw [read_append hin.size hunread]
  obtain ⟨pc, field', rest', heq, hin', rfl⟩ | ⟨heq, rfl⟩ :=
    Inside.received (s := { s with unread := u }) hin
  · rw [heq]
    rw [List.append_assoc] at hrest
    exact ⟨fate, f :: pend, h.sent, h.got, h.torn, hrest ▸ .inside hin' pend, h.writing⟩
  · rw [heq]
    refine ⟨fate ++ [(f, true)], pend, ?_, ?_, ?_, hrest ▸ .header List.not_mem_nil pend, h.writing⟩
    · simp [h.sent]
    · simp [h.got]
    · simp [h.torn]

/-- **A read that falls short inside a record costs the record**: it is the last one, and the rest
of it is all that is still to come. -/
theorem Accounts.read_torn {f : CanardCANFrame} {field rest : List Byte}
    (h : Accounts bo s fate (f :: pend)) (hin : Inside bo f s.pc field rest)
    (hlt : s.unread.length < s.pc.size) (hcalm : frameHeader1 ∉ s.todo)
    (hstream : s.unread ++ s.todo = field ++ (rest ++ records bo pend)) :
    Accounts bo (s.read bo frame) (fate ++ [(f, false)]) [] := by
  have hlast : pend = [] := by
    by_contra hne
    obtain ⟨init, g, rfl⟩ : ∃ init g, pend = init ++ [g] :=
      ⟨_, _, (List.dropLast_append_getLast hne).symm⟩
    have hsent : s.sent = (fate.map Prod.fst ++ f :: init) ++ [g] :=
      h.sent.trans (List.append_assoc _ (f :: init) [g]).symm
    have hwriting := h.writing g (by rw [hsent, List.getLast?_concat]; rfl)
    have hlen := congrArg List.length hstream
    simp only [records_concat, List.length_append, hin.size] at hlen
    omega
  subst hlast
  have hskip : Place bo .header [] (_ ++ records bo []) := .header hcalm []
  rw [LiveLog.read_of_lt hlt, if_pos ⟨hin.ne_header, hlt⟩]
  refine ⟨?_, ?_, ?_, by simpa [records] using hskip, h.writing⟩
  · simp [h.sent]
  · simp [h.got]
  · simp [h.torn]

theorem Accounts.read (h : Accounts bo s fate pend) (hcalm : s.Tears → frameHeader1 ∉ s.todo) :
    ∃ fate pend, Accounts bo (s.read bo frame) fate pend := by
  have hplace := h.place
  generalize hpc : s.pc = pc at hplace
  generalize hstream : s.unread ++ s.todo = stream at hplace
  cases hplace with
  | header hjunk =>
    cases hunread : s.unread with
    | nil =>
      refine ⟨fate, pend, ?_⟩
      rw [LiveLog.read_of_lt (by rw [hunread, hpc]; decide), if_neg fun htears => htears.1 hpc]
      have hplace := h.place
      rw [hpc, hunread] at hplace
      exact ⟨h.sent, h.got, h.torn, hplace, h.writing⟩
    | cons b u => exact ⟨fate, pend, h.read_header hpc hunread⟩
  | inside hin pend =>
    subst hpc
    obtain hlt | hle := Nat.lt_or_ge s.unread.length s.pc.size
    · exact ⟨_, _, h.read_torn hin hlt (hcalm ⟨hin.ne_header, hlt⟩) hstream⟩
    · exact h.read_inside hin hle hstream

/-! ## Every run -/

/-- What the reader has of the frames sent. -/
structure Accounted (s : LiveLog) : Prop where
  /-- nothing is made up, doubled or put out of order -/
  inOrder : s.got.Sublist (s.sent.map CanardCANFrame.view)
  /-- a read that falls short costs one frame at most -/
  bounded : s.got.length + s.torn ≤ s.sent.length
  /-- …and, once the reader has caught up, exactly one -/
  caughtUp : s.unread = [] → s.todo = [] → s.got.length + s.torn = s.sent.length
  /-- with no such read nothing is lost -/
  untorn : s.torn = 0 → s.got <+: s.sent.map CanardCANFrame.view

theorem Accounts.accounted (h : Accounts bo s fate pend) : Accounted s := by
  have hlength : s.got.length + s.torn = fate.length := by
    rw [h.got, h.torn, List.length_map]
    exact (List.length_eq_length_filter_add _).symm
  refine ⟨?_, ?_, fun hunread htodo => ?_, fun htorn => ?_⟩
  · rw [h.got, h.sent, List.map_append, List.map_map]
    exact (List.filter_sublist.map _).trans (List.sublist_append_left _ _)
  · rw [hlength, h.sent, List.length_append, List.length_map]
    exact Nat.le_add_right _ _
  · have hplace := h.place
    rw [hunread, htodo] at hplace
    rw [hlength, h.sent, hplace.eq_nil, List.append_nil, List.length_map]
  · have hall : fate.filter Prod.snd = fate := by
      rw [h.torn, List.length_eq_zero_iff, List.filter_eq_nil_iff] at htorn
      exact List.filter_eq_self.mpr fun p hp => by simpa using htorn p hp
    rw [h.got, h.sent, hall, List.map_append, List.map_map]
    exact List.prefix_append _ _

/-- A read that falls short leaves no header byte to be written of the record. -/
def Calm (s : LiveLog) : LiveAct → Prop
  | .read => s.Tears → frameHeader1 ∉ s.todo
  | _ => True

instance decidableCalm (s : LiveLog) : ∀ a, Decidable (s.Calm a)
  | .read => inferInstanceAs (Decidable (_ → _))
  | .send _ => inferInstanceAs (Decidable True)
  | .write => inferInstanceAs (Decidable True)

/-- **A log read while it is written**, a byte at a time by the one end and a read at a time by the
other: as long as no read falls short in a record with a header byte still to be written, each read
that does costs one frame, and nothing else is lost, doubled or put out of order. -/
theorem always_accounted (bo : ByteOrder) (frame : CanardCANFrame) {as : List LiveAct}
    (hcalm : (machine bo frame).Along Calm start as) :
    (machine bo frame).Always Accounted start as := by
  refine (Machine.always_of_along (J := fun s => ∃ fate pend, Accounts bo s fate pend)
    ⟨[], [], accounts_start⟩ ?_ hcalm).mono fun s ⟨_, _, h⟩ => h.accounted
  rintro s a t ⟨fate, pend, h⟩ ha hst
  cases a with
  | send f =>
    have hsend : step bo frame s (.send f) = some t := hst
    exact ⟨_, _, h.send hsend⟩
  | write =>
    have hwrite : step bo frame s .write = some t := hst
    exact ⟨_, _, h.write hwrite⟩
  | read =>
    obtain rfl := Option.some.inj hst
    exact h.read ha

/-- A frame without data, its id read before it is all written; and then one read in full. -/
def tornPoll : List LiveAct :=
  let noData : CanardCANFrame := ⟨0, 0, fun _ => 0⟩
  [.send noData] ++ List.replicate 3 .write ++ [.read, .read] ++ List.replicate 7 .write ++
    [.send noData] ++ List.replicate 10 .write ++ List.replicate 12 .read

theorem always_accounted_tornPoll :
    (machine .little ⟨0, 0, fun _ => 0⟩).Always Accounted start tornPoll :=
  always_accounted .little _ (by decide)

end LiveLog

end LogFileIface

end LibDronecan
