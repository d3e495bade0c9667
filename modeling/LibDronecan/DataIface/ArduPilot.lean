import LibDronecan.DataIface.Frame

/-!
# DataIface/ArduPilot — a frame across an ArduPilot bus

    data_len 12 ──dataLengthToDlc──▸ dlc 9 ──▸ bus ──▸ dlc 9 ──dlcToDataLength──▸ data_len 12
    data     12 bytes copied                                  data      9 bytes copied

On the bus a length is a code, the same number up to 8 and a smaller one above.  `send` copies as
many bytes as the length says; `update_rx` copies as many as the code does, into a local frame that
nothing has initialised, and hands on the length.  So the bytes between the two are whatever lay
there (`payloadKept_iff`).
-/

namespace LibDronecan

/-- The valid lengths, each with its code. -/
def lengthCodes : List (Byte × Byte) :=
  [(0, 0), (1, 1), (2, 2), (3, 3), (4, 4), (5, 5), (6, 6), (7, 7), (8, 8), (12, 9), (16, 10),
    (20, 11), (24, 12), (32, 13), (48, 14), (64, 15)]

/-- A payload length that CAN or CAN FD has. -/
def ValidLength (l : Byte) : Prop := ∃ c, (l, c) ∈ lengthCodes

/-- What is used of `AP_HAL`: a flag, and the two tables, which agree with the codes. -/
structure ApHal where
  flagEFF : Word
  dataLengthToDlc : Byte → Byte
  dlcToDataLength : Byte → Byte
  toDlc : ∀ p ∈ lengthCodes, dataLengthToDlc p.1 = p.2
  toLength : ∀ p ∈ lengthCodes, dlcToDataLength p.2 = p.1

/-- `AP_HAL::CANFrame`. -/
structure HalFrame where
  id : Word
  dlc : Byte
  data : ℕ → Byte
  canfd : Bool

/-- A `CanardCANFrame` with the fields that only this interface has a use for. -/
structure CanFdFrame extends CanardCANFrame where
  canfd : Bool
  timestampUsec : BitVec 64
  deadlineUsec : BitVec 64
  ifaceMask : Word

/-- What `hal.can[instance]` answers in a call: whether it is there, what `select` leaves in the
flag asked for, the clock, and the result of `send`. -/
structure Driver where
  present : Bool
  selected : Bool
  micros64 : BitVec 64
  sendRet : ℤ

/-- `memcpy`. -/
def memcpy (dst src : ℕ → Byte) (n : ℕ) : ℕ → Byte := fun i => if i < n then src i else dst i

namespace ArduPilotIface

variable (hal : ApHal)

/-- The message `send` makes of a frame; `txmsg` is its local as constructed. -/
def message (txmsg : HalFrame) (txf : CanFdFrame) : HalFrame :=
  { txmsg with
    dlc := hal.dataLengthToDlc txf.dataLen
    data := memcpy txmsg.data txf.data txf.len
    id := txf.id ||| hal.flagEFF
    canfd := txf.canfd }

/-- `ArduPilotIface::send`: its result, the frame afterwards, and what it puts on the bus. -/
def send (inst : ℕ) (drv : Driver) (txmsg : HalFrame) (txf : CanFdFrame) :
    Bool × CanFdFrame × Option HalFrame :=
  if drv.present = false then (false, txf, none)
  else if drv.micros64 < txf.deadlineUsec ∧ txf.ifaceMask &&& (1 : Word) <<< inst ≠ 0 ∧
      drv.selected then
    if drv.sendRet > 0 then
      -- the mask is `~(1U < instance)`
      (true, { txf with ifaceMask := txf.ifaceMask &&& ~~~ (if 1 < inst then 1 else 0 : Word) },
        some (message hal txmsg txf))
    else (false, txf, none)
  else (false, { txf with ifaceMask := txf.ifaceMask &&& ~~~ ((1 : Word) <<< inst) }, none)

/-- `ArduPilotIface::update_rx` with `rxmsg` received: the frame it passes to `rx_cbs`.  `frame` is
its uninitialised local. -/
def updateRx (drv : Driver) (rxmsg : HalFrame) (frame : CanFdFrame) : Option CanFdFrame :=
  if drv.present = false then none
  else if drv.selected then
    some { frame with
      id := rxmsg.id
      dataLen := hal.dlcToDataLength rxmsg.dlc
      data := memcpy frame.data rxmsg.data rxmsg.dlc.toNat
      canfd := rxmsg.canfd
      timestampUsec := drv.micros64 }
  else none

/-- **The payload arrives**: whatever the receiver's local frame held, what is delivered of the
message has the length of `f` and its bytes. -/
def PayloadKept (rxmsg : HalFrame) (f : CanFdFrame) : Prop :=
  ∀ drv frame g, updateRx hal drv rxmsg frame = some g →
    g.dataLen = f.dataLen ∧ g.payload = f.payload

variable {hal} {inst : ℕ} {drv : Driver} {txmsg m : HalFrame} {f : CanFdFrame}

theorem eq_message_of_send (h : (send hal inst drv txmsg f).2.2 = some m) :
    m = message hal txmsg f := by
  unfold send at h
  split_ifs at h <;> exact (Option.some.inj h).symm

/-- The code is the length up to 8, and less above. -/
theorem code_of_length : ∀ p ∈ lengthCodes,
    (p.1.toNat ≤ 8 → p.2 = p.1) ∧ (8 < p.1.toNat → p.2.toNat < p.1.toNat) := by
  simp [lengthCodes]

/-- What arrives: the length, and as many bytes as the code says. -/
theorem updateRx_message {c : Byte} (hc : (f.dataLen, c) ∈ lengthCodes) (frame : CanFdFrame)
    {g : CanFdFrame} (hg : updateRx hal drv (message hal txmsg f) frame = some g) :
    g.dataLen = f.dataLen ∧
      g.data = memcpy frame.data (memcpy txmsg.data f.data f.len) c.toNat := by
  have hdlc : hal.dataLengthToDlc f.dataLen = c := hal.toDlc _ hc
  have hlen : hal.dlcToDataLength c = f.dataLen := hal.toLength _ hc
  unfold updateRx at hg
  split_ifs at hg
  obtain rfl := Option.some.inj hg
  change hal.dlcToDataLength (hal.dataLengthToDlc f.dataLen) = f.dataLen ∧
    memcpy frame.data (memcpy txmsg.data f.data f.len) (hal.dataLengthToDlc f.dataLen).toNat = _
  rw [hdlc]
  exact ⟨hlen, rfl⟩

theorem payload_eq_iff {g f : CanardCANFrame} (hlen : g.dataLen = f.dataLen) :
    g.payload = f.payload ↔ ∀ i < f.len, g.data i = f.data i := by
  have hlen' : g.len = f.len := congrArg BitVec.toNat hlen
  rw [CanardCANFrame.payload, CanardCANFrame.payload, hlen', List.map_inj_left]
  simp only [List.mem_range]

theorem payloadKept_message (hvalid : ValidLength f.dataLen) (hle : f.len ≤ 8) :
    PayloadKept hal (message hal txmsg f) f := by
  obtain ⟨c, hc⟩ := hvalid
  intro drv frame g hg
  obtain ⟨hlen, hdata⟩ := updateRx_message hc frame hg
  obtain rfl : c = f.dataLen := (code_of_length _ hc).1 hle
  refine ⟨hlen, (payload_eq_iff hlen).mpr fun i hi => ?_⟩
  change i < f.dataLen.toNat at hi
  rw [hdata, memcpy, if_pos hi, memcpy, if_pos (show i < f.len from hi)]

/-- **Above 8, the byte behind those copied is the local frame's own.** -/
theorem not_payloadKept_message (hvalid : ValidLength f.dataLen) (hlt : 8 < f.len) :
    ¬ PayloadKept hal (message hal txmsg f) f := by
  obtain ⟨c, hc⟩ := hvalid
  have hcode : c.toNat < f.len := (code_of_length _ hc).2 hlt
  intro h
  -- a local frame that holds other bytes
  obtain ⟨frame, hframe⟩ : ∃ frame : CanFdFrame, frame.data = fun i => f.data i + 1 :=
    ⟨{ f with data := fun i => f.data i + 1 }, rfl⟩
  obtain ⟨g, hg⟩ : ∃ g, updateRx hal ⟨true, true, 0, 1⟩ (message hal txmsg f) frame = some g :=
    ⟨_, rfl⟩
  obtain ⟨hlen, hpayload⟩ := h _ frame g hg
  have hbyte := (payload_eq_iff hlen).mp hpayload c.toNat hcode
  rw [(updateRx_message hc frame hg).2, memcpy, if_neg (lt_irrefl _), hframe] at hbyte
  exact absurd hbyte (by simp)

/-- **The payload of a frame sent arrives exactly if it has at most 8 bytes.** -/
theorem payloadKept_iff (hvalid : ValidLength f.dataLen)
    (hsent : (send hal inst drv txmsg f).2.2 = some m) : PayloadKept hal m f ↔ f.len ≤ 8 := by
  rw [eq_message_of_send hsent]
  refine ⟨fun h => ?_, payloadKept_message hvalid⟩
  by_contra hlt
  exact not_payloadKept_message hvalid (Nat.lt_of_not_le hlt) h

/-- Tables that know the valid lengths only. -/
def codesOnly : ApHal where
  flagEFF := 0x80000000
  dataLengthToDlc l := ((lengthCodes.find? fun p => p.1 = l).map Prod.snd).getD 0
  dlcToDataLength c := ((lengthCodes.find? fun p => p.2 = c).map Prod.fst).getD 0
  toDlc := by simp [lengthCodes]
  toLength := by simp [lengthCodes]

/-- A frame of `l` bytes, to be sent on interface 0. -/
def toSend (l : Byte) : CanFdFrame := ⟨⟨1, l, fun _ => 1⟩, true, 0, 1, 1⟩

/-- An empty message, and a driver that sends it. -/
def blank : HalFrame := ⟨0, 0, fun _ => 0, false⟩

def accepting : Driver := ⟨true, true, 0, 1⟩

theorem payloadKept_eight :
    ValidLength (toSend 8).dataLen ∧
      (send codesOnly 0 accepting blank (toSend 8)).2.2
        = some (message codesOnly blank (toSend 8)) ∧
      (PayloadKept codesOnly (message codesOnly blank (toSend 8)) (toSend 8)
        ↔ (toSend 8).len ≤ 8) :=
  ⟨⟨8, by decide⟩, rfl,
    payloadKept_iff ⟨8, by decide⟩ (rfl : (send codesOnly 0 accepting blank _).2.2 = _)⟩

/-- Of twelve bytes nine arrive. -/
theorem not_forall_payloadKept : ¬ ∀ (hal : ApHal) (inst : ℕ) (drv : Driver) (txmsg m : HalFrame)
    (f : CanFdFrame), ValidLength f.dataLen → (send hal inst drv txmsg f).2.2 = some m →
    PayloadKept hal m f :=
  fun h => not_payloadKept_message (f := toSend 12)
    ⟨9, by decide⟩ (by decide) (h codesOnly 0 accepting blank _ (toSend 12) ⟨9, by decide⟩ rfl)

end ArduPilotIface

end LibDronecan
