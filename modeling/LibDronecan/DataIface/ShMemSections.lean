import LibDronecan.DataIface.SemSections
import LibDronecan.DataIface.ShMemLink

/-!
# DataIface/ShMemSections — the calls of the link, one memory access at a time

    cm7 ──push──▸ head, buffer, byte, head, head, size, …     semaphore of the second half
    cm4 ──push──▸ head, buffer, byte, head, head, size, …     semaphore of the first half

`Duplex` takes a `send` and a pop in `update_rx` as one step each.  Here they are the loads and
stores that the code makes in the shared memory, between the register accesses of a constructor and
a destructor; each call is under the semaphore of its direction, so two can be at it at once, one in
each half.  Once both cores have run `init` a call stays in the half of its direction
(`stays_code`), so whatever the order of all these accesses, the calls are a run of `Duplex`
(`exists_run_of_sections`).
-/

open Machinery Set

namespace LibDronecan

namespace SharedMemory

variable {α : Type}

/-! ## The code, access by access -/

/-- A load of a field of the header at `p`. -/
def loadField (p : Word) (f : BufferField) : Accesses SharedMemory Word :=
  .access (fun m => .ret (m.load p f)) id

/-- A store to one. -/
def storeField (p : Word) (f : BufferField) (value : Word) : Accesses SharedMemory Unit :=
  .access (fun _ => .ret ()) fun m => m.store p f value

def loadByte (a : Word) : Accesses SharedMemory Byte := .access (fun m => .ret (m a)) id

def storeByte (a : Word) (byte : Byte) : Accesses SharedMemory Unit :=
  .access (fun _ => .ret ()) fun m => Memory.write m a [byte]

def availableCode (p : Word) : Accesses SharedMemory Word := do
  if (← loadField p .head) ≥ (← loadField p .tail) then
    pure ((← loadField p .head) - (← loadField p .tail))
  else
    pure ((← loadField p .size) - (← loadField p .tail) + (← loadField p .head))

def txspaceCode (p : Word) : Accesses SharedMemory Word := do
  pure ((← loadField p .size) - (← availableCode p))

def pushbyteCode (p : Word) (byte : Byte) : Accesses SharedMemory Unit := do
  let head ← loadField p .head
  -- the compiler may order these otherwise: under the semaphore nobody sees the order
  storeByte ((← loadField p .buffer) + head) byte
  storeField p .head (head + 1)
  if (← loadField p .head) ≥ (← loadField p .size) then storeField p .head 0

/-- The loop over the data. -/
def pushDataCode (p : Word) : List Byte → Accesses SharedMemory Unit
  | [] => pure ()
  | byte :: l => do
      pushbyteCode p byte
      pushDataCode p l

def pushCode (p : Word) (frame : CanardCANFrame) : Accesses SharedMemory Bool := do
  if (← txspaceCode p) < BitVec.ofNat 32 (frame.len + frameSizeWithoutData) then
    pure false
  else
    pushbyteCode p frameHeader1
    pushbyteCode p ((frame.id &&& 0xFF).setWidth 8)
    pushbyteCode p (((frame.id >>> 8) &&& 0xFF).setWidth 8)
    pushbyteCode p (((frame.id >>> 16) &&& 0xFF).setWidth 8)
    pushbyteCode p (((frame.id >>> 24) &&& 0xFF).setWidth 8)
    pushbyteCode p frame.dataLen
    pushDataCode p frame.payload
    pure true

def peekbyteCode (p byte : Word) : Accesses SharedMemory Byte := do
  let buffer ← loadField p .buffer
  loadByte (buffer + ((← loadField p .tail) + byte) % (← loadField p .size))

def advanceCode (p bytes : Word) : Accesses SharedMemory Unit := do
  storeField p .tail ((bytes + (← loadField p .tail)) % (← loadField p .size))

/-- The loop over the data. -/
def popDataCode (p : Word) : List ℕ → CanardCANFrame → Accesses SharedMemory CanardCANFrame
  | [], frame => pure frame
  | i :: l, frame => do
      let byte ← peekbyteCode p (BitVec.ofNat 32 (6 + i))
      popDataCode p l { frame with data := Function.update frame.data i byte }

def popCode (p : Word) (frame : CanardCANFrame) :
    Accesses SharedMemory (Bool × CanardCANFrame) := do
  if (← availableCode p) = 0 then
    pure (false, frame)
  else if (← peekbyteCode p 0) ≠ frameHeader1 then
    pure (false, frame)
  else
    let id := idOfBytes (← peekbyteCode p 1) (← peekbyteCode p 2) (← peekbyteCode p 3)
      (← peekbyteCode p 4)
    let dataLen ← peekbyteCode p 5
    let frame := { frame with id, dataLen }
    let frame ← popDataCode p (List.range frame.len) frame
    advanceCode p (BitVec.ofNat 32 (frame.len + frameSizeWithoutData))
    pure (true, frame)

/-! ## With nobody else about -/

variable (m : SharedMemory) (p : Word)

@[simp] theorem exec_loadField (f : BufferField) : (loadField p f).exec m = (m.load p f, m) := by
  rw [loadField, Accesses.exec, Accesses.exec, id]

@[simp] theorem exec_storeField (f : BufferField) (value : Word) :
    (storeField p f value).exec m = ((), m.store p f value) := by
  rw [storeField, Accesses.exec, Accesses.exec]

@[simp] theorem exec_loadByte (a : Word) : (loadByte a).exec m = (m a, m) := by
  rw [loadByte, Accesses.exec, Accesses.exec, id]

@[simp] theorem exec_storeByte (a : Word) (byte : Byte) :
    (storeByte a byte).exec m = ((), Memory.write m a [byte]) := by
  rw [storeByte, Accesses.exec, Accesses.exec]

@[simp] theorem exec_availableCode : (availableCode p).exec m = (m.available p, m) := by
  simp only [availableCode, available, Accesses.exec_bind, exec_loadField]
  split_ifs <;> simp only [Accesses.exec_bind, exec_loadField, Accesses.exec_pure]

@[simp] theorem exec_txspaceCode : (txspaceCode p).exec m = (m.txspace p, m) := by
  simp only [txspaceCode, txspace, Accesses.exec_bind, exec_loadField, exec_availableCode,
    Accesses.exec_pure]

@[simp] theorem exec_pushbyteCode (byte : Byte) :
    (pushbyteCode p byte).exec m = ((), m.pushbyte p byte) := by
  simp only [pushbyteCode, pushbyte, Accesses.exec_bind, exec_loadField, exec_storeField,
    exec_storeByte]
  split_ifs
  · rw [exec_storeField]
  · rw [Accesses.exec_pure]

theorem exec_pushDataCode (l : List Byte) :
    (pushDataCode p l).exec m = ((), m.pushBytes p l) := by
  induction l generalizing m with
  | nil => rfl
  | cons byte l ih =>
    simp only [pushDataCode, Accesses.exec_bind, exec_pushbyteCode, ih]
    rfl

/-- **`push`.** -/
theorem exec_pushCode (frame : CanardCANFrame) : (pushCode p frame).exec m = m.push p frame := by
  simp only [pushCode, push, Accesses.exec_bind, exec_txspaceCode]
  by_cases hfull : m.txspace p < BitVec.ofNat 32 (frame.len + frameSizeWithoutData)
  · rw [if_pos hfull, if_pos hfull, Accesses.exec_pure]
  · rw [if_neg hfull, if_neg hfull]
    simp only [Accesses.exec_bind, exec_pushbyteCode, exec_pushDataCode, Accesses.exec_pure,
      pushBytes, CanardCANFrame.payload, List.foldl_map]

@[simp] theorem exec_peekbyteCode (byte : Word) :
    (peekbyteCode p byte).exec m = (m.peekbyte p byte, m) := by
  simp only [peekbyteCode, peekbyte, Accesses.exec_bind, exec_loadField, exec_loadByte]

@[simp] theorem exec_advanceCode (bytes : Word) :
    (advanceCode p bytes).exec m = ((), m.advance p bytes) := by
  simp only [advanceCode, advance, Accesses.exec_bind, exec_loadField, exec_storeField]

theorem exec_popDataCode (l : List ℕ) (frame : CanardCANFrame) :
    (popDataCode p l frame).exec m = ({ frame with
      data := l.foldl (fun d i =>
        Function.update d i (m.peekbyte p (BitVec.ofNat 32 (6 + i)))) frame.data }, m) := by
  induction l generalizing frame with
  | nil => rfl
  | cons i l ih =>
    simp only [popDataCode, Accesses.exec_bind, exec_peekbyteCode, ih]
    rfl

/-- **`pop`.** -/
theorem exec_popCode (frame : CanardCANFrame) :
    (popCode p frame).exec m
      = (((m.pop p frame).1, (m.pop p frame).2.1), (m.pop p frame).2.2) := by
  simp only [popCode, pop, Accesses.exec_bind, exec_availableCode]
  by_cases h0 : m.available p = 0
  · rw [if_pos h0, if_pos h0, Accesses.exec_pure]
  rw [if_neg h0, if_neg h0, Accesses.exec_bind, exec_peekbyteCode]
  by_cases hheader : m.peekbyte p 0 ≠ frameHeader1
  · rw [if_pos hheader, if_pos hheader, Accesses.exec_pure]
  rw [if_neg hheader, if_neg hheader]
  simp only [Accesses.exec_bind, exec_peekbyteCode, exec_popDataCode, exec_advanceCode,
    Accesses.exec_pure, CanardCANFrame.fill]

/-! ## What the code stays in -/

variable {m p} {S : Set Word} {b : Buffer}

theorem stays_storeField (hp : span p sizeofBuffer ⊆ S) (f : BufferField) (value : Word) :
    Stays S (storeField p f value) m := by
  refine ⟨fun n hn => ⟨rfl, fun a ha => ?_, fun a ha => ?_⟩, trivial⟩
  · exact Same.store (fun a ha => hn ha) p f value a ha
  · exact store_of_notMem fun hin => ha (hp hin)

theorem stays_storeByte {a : Word} (ha : a ∈ S) (byte : Byte) : Stays S (storeByte a byte) m := by
  refine ⟨fun n hn => ⟨rfl, fun x hx => ?_, fun x hx => ?_⟩, trivial⟩
  · exact Same.write (fun a ha => hn ha) a [byte] x hx
  · change Memory.write n a [byte] x = n x
    rw [Memory.write_singleton]
    exact Function.update_of_ne (ne_of_mem_of_not_mem ha hx).symm _ _

theorem stays_loadByte {a : Word} (ha : a ∈ S) : Stays S (loadByte a) m :=
  ⟨fun _ hn => ⟨congrArg Accesses.ret (hn ha).symm, hn, eqOn_refl _ _⟩, trivial⟩

/-- A field is loaded, and what comes then stays. -/
theorem stays_loadField_bind (hp : span p sizeofBuffer ⊆ S) {f : BufferField}
    {x : Word → Accesses SharedMemory α} (hx : Stays S (x (m.load p f)) m) :
    Stays S (loadField p f >>= x) m := by
  refine Stays.bind ⟨fun n hn => ⟨congrArg Accesses.ret ?_, hn, eqOn_refl _ _⟩, trivial⟩ ?_
  · exact load_congr fun a ha => (hn (hp ha)).symm
  · rw [exec_loadField]
    exact hx

theorem stays_availableCode (hp : span p sizeofBuffer ⊆ S) : Stays S (availableCode p) m := by
  refine stays_loadField_bind hp (stays_loadField_bind hp ?_)
  split_ifs
  · exact stays_loadField_bind hp (stays_loadField_bind hp trivial)
  · exact stays_loadField_bind hp (stays_loadField_bind hp (stays_loadField_bind hp trivial))

theorem stays_pushbyteCode (hp : span p sizeofBuffer ⊆ S)
    (hbyte : m.load p .buffer + m.load p .head ∈ S) (byte : Byte) :
    Stays S (pushbyteCode p byte) m := by
  refine stays_loadField_bind hp (stays_loadField_bind hp ((stays_storeByte hbyte byte).bind ?_))
  refine (stays_storeField hp _ _).bind ?_
  refine stays_loadField_bind hp (stays_loadField_bind hp ?_)
  split_ifs
  · exact stays_storeField hp _ _
  · trivial

/-- A byte pushed to the ring that the memory holds, and what comes then. -/
theorem Holds.stays_pushbyte_bind (h : m.Holds p b) (hb : b.Wf) (hS : m.area p ⊆ S) (byte : Byte)
    {x : Unit → Accesses SharedMemory α}
    (hx : ∀ n, Holds n p (b.pushbyte byte) → (b.pushbyte byte).Wf → area n p ⊆ S →
      Stays S (x ()) n) : Stays S (pushbyteCode p byte >>= x) m := by
  obtain ⟨hwithin, hholds⟩ := h.pushbyte hb byte
  have hhead : m.load p .buffer + m.load p .head ∈ S := by
    refine hS (.inr ?_)
    rw [mem_span, add_sub_cancel_left, h.head, h.size]
    exact hb.head_lt
  refine (stays_pushbyteCode (fun a ha => hS (.inl ha)) hhead byte).bind ?_
  rw [exec_pushbyteCode]
  exact hx _ hholds (hb.pushbyte byte) (hwithin.area_eq.trans_subset hS)

theorem Holds.stays_pushDataCode (h : m.Holds p b) (hb : b.Wf) (hS : m.area p ⊆ S)
    (l : List Byte) : Stays S (pushDataCode p l) m := by
  induction l generalizing m b with
  | nil => trivial
  | cons byte l ih => exact h.stays_pushbyte_bind hb hS byte fun n hn hb' hS' => ih hn hb' hS'

/-- **A push stays in header and data.** -/
theorem Holds.stays_pushCode (h : m.Holds p b) (hb : b.Usable) (hS : m.area p ⊆ S)
    (frame : CanardCANFrame) : Stays S (pushCode p frame) m := by
  have hp : span p sizeofBuffer ⊆ S := fun a ha => hS (.inl ha)
  have hspace : Stays S (txspaceCode p) m :=
    stays_loadField_bind hp ((stays_availableCode hp).bind trivial)
  refine hspace.bind ?_
  rw [exec_txspaceCode]
  split_ifs with hfull
  · trivial
  have hwf : b.Wf := by
    refine hb.resolve_right fun hnone => hfull ?_
    -- no data, no space
    have hlen := frame.dataLen.isLt
    rw [BitVec.lt_def, h.txspace (.inr hnone), Buffer.txspace, hnone.1, BitVec.toNat_ofNat]
    simp only [CanardCANFrame.len, frameSizeWithoutData]
    omega
  refine h.stays_pushbyte_bind hwf hS _ fun m₁ h₁ hb₁ hS₁ => ?_
  refine h₁.stays_pushbyte_bind hb₁ hS₁ _ fun m₂ h₂ hb₂ hS₂ => ?_
  refine h₂.stays_pushbyte_bind hb₂ hS₂ _ fun m₃ h₃ hb₃ hS₃ => ?_
  refine h₃.stays_pushbyte_bind hb₃ hS₃ _ fun m₄ h₄ hb₄ hS₄ => ?_
  refine h₄.stays_pushbyte_bind hb₄ hS₄ _ fun m₅ h₅ hb₅ hS₅ => ?_
  refine h₅.stays_pushbyte_bind hb₅ hS₅ _ fun m₆ h₆ hb₆ hS₆ => ?_
  exact (h₆.stays_pushDataCode hb₆ hS₆ _).bind trivial

/-- A byte looked at, and what comes then. -/
theorem Holds.stays_peekbyte_bind (h : m.Holds p b) (hpos : 0 < b.size) (hS : m.area p ⊆ S)
    {k : Word} {x : Byte → Accesses SharedMemory α} (hx : Stays S (x (m.peekbyte p k)) m) :
    Stays S (peekbyteCode p k >>= x) m := by
  have hp : span p sizeofBuffer ⊆ S := fun a ha => hS (.inl ha)
  have hin : m.load p .buffer + (m.load p .tail + k) % m.load p .size ∈ S := by
    refine hS (.inr ?_)
    rw [mem_span, add_sub_cancel_left, BitVec.toNat_umod]
    exact Nat.mod_lt _ (h.size ▸ hpos)
  refine Stays.bind ?_ ?_
  · exact stays_loadField_bind hp (stays_loadField_bind hp (stays_loadField_bind hp
      (stays_loadByte hin)))
  · rw [exec_peekbyteCode]
    exact hx

theorem Holds.stays_popDataCode (h : m.Holds p b) (hpos : 0 < b.size) (hS : m.area p ⊆ S)
    (l : List ℕ) (frame : CanardCANFrame) : Stays S (popDataCode p l frame) m := by
  induction l generalizing frame with
  | nil => trivial
  | cons i l ih => exact h.stays_peekbyte_bind hpos hS (ih _)

/-- **A pop stays there too.** -/
theorem Holds.stays_popCode (h : m.Holds p b) (hb : b.Usable) (hS : m.area p ⊆ S)
    (frame : CanardCANFrame) : Stays S (popCode p frame) m := by
  have hp : span p sizeofBuffer ⊆ S := fun a ha => hS (.inl ha)
  refine (stays_availableCode hp).bind ?_
  rw [exec_availableCode]
  split_ifs with h0
  · trivial
  have hpos : 0 < b.size := by
    refine Nat.pos_of_ne_zero fun hsize => h0 (BitVec.eq_of_toNat_eq ?_)
    obtain hwf | ⟨-, hhead, htail⟩ := hb
    · exact absurd hwf.size_pos (hsize ▸ lt_irrefl _)
    · rw [h.available (.inr ⟨hsize, hhead, htail⟩), Buffer.available, hhead, htail]
      rfl
  refine h.stays_peekbyte_bind hpos hS ?_
  split_ifs
  · trivial
  refine h.stays_peekbyte_bind hpos hS (h.stays_peekbyte_bind hpos hS
    (h.stays_peekbyte_bind hpos hS (h.stays_peekbyte_bind hpos hS
      (h.stays_peekbyte_bind hpos hS ?_))))
  refine (h.stays_popDataCode hpos hS _ _).bind ?_
  rw [exec_popDataCode]
  refine Stays.bind ?_ trivial
  exact stays_loadField_bind hp (stays_loadField_bind hp (stays_storeField hp _ _))

end SharedMemory

open SharedMemory

/-! ## Both cores at it -/

/-- `send`, and a pop in the loop of `update_rx`. -/
inductive LinkCall
  | send (c : Core) (frame : CanardCANFrame)
  | recv (c : Core) (frame : CanardCANFrame)

inductive LinkRet
  | send (ret : Bool)
  | recv (ret : Bool) (frame : CanardCANFrame)

namespace LinkCall

/-- The core that sends in the direction of the call. -/
def sender : LinkCall → Core
  | .send c _ => c
  | .recv c _ => c.other

/-- The semaphore it is under. -/
def hsem : LinkCall → Fin 32
  | .send c _ => txHsemIndex c
  | .recv c _ => rxHsemIndex c

/-- `tx_buf->push(frame)`, `rx_buf->pop(frame)`. -/
def code (r : Region) : LinkCall → Accesses SharedMemory LinkRet
  | .send c frame => do pure (.send (← pushCode (r.header c) frame))
  | .recv c frame => do
      let (ret, frame) ← popCode (r.header c.other) frame
      pure (.recv ret frame)

/-- The step of the two cores that it is. -/
def act : LinkCall → DuplexAct
  | .send c frame => .send c frame
  | .recv c frame => .recv c frame

theorem hsem_eq (k : LinkCall) : k.hsem = txHsemIndex k.sender := by
  cases k with
  | send c _ => rfl
  | recv c _ => exact (txHsemIndex_other c).symm

end LinkCall

namespace Duplex

variable {r : Region} {s t : Duplex} {c d : Core} {frame : CanardCANFrame} {m : SharedMemory}
  {ι : Type}

/-- The calls, under their semaphores. -/
def calls (r : Region) : RegionCode (Fin 32) SharedMemory LinkCall LinkRet :=
  ⟨LinkCall.hsem, LinkCall.code r⟩

/-- What the calls have sent from `d`. -/
def accepted (d : Core) (l : List (ι × LinkCall × LinkRet)) : List CanardCANFrame :=
  l.filterMap fun
    | (_, .send c frame, .send true) => if c = d then some frame else none
    | _ => none

/-- What they have got of it. -/
def delivered (d : Core) (l : List (ι × LinkCall × LinkRet)) : List (Word × Byte × List Byte) :=
  l.filterMap fun
    | (_, .recv c _, .recv true frame) => if c.other = d then some frame.view else none
    | _ => none

theorem apply_send (c : Core) (frame : CanardCANFrame) (m : SharedMemory) :
    (calls r).apply (.send c frame) m
      = (.send (m.push (r.header c) frame).1, (m.push (r.header c) frame).2) := by
  simp only [RegionCode.apply, calls, LinkCall.code, Accesses.exec_bind, exec_pushCode,
    Accesses.exec_pure]

theorem apply_recv (c : Core) (frame : CanardCANFrame) (m : SharedMemory) :
    (calls r).apply (.recv c frame) m
      = (.recv (m.pop (r.header c.other) frame).1 (m.pop (r.header c.other) frame).2.1,
        (m.pop (r.header c.other) frame).2.2) := by
  simp only [RegionCode.apply, calls, LinkCall.code, Accesses.exec_bind, exec_popCode,
    Accesses.exec_pure]

/-- What the semaphore `i` is for. -/
def region (r : Region) (i : Fin 32) : Set Word := {a | ∃ d, txHsemIndex d = i ∧ a ∈ r.part d}

theorem txHsemIndex_injective : Function.Injective txHsemIndex := by
  intro c d h
  cases c <;> cases d <;> first | rfl | exact absurd h (by decide)

theorem region_txHsemIndex (r : Region) (d : Core) : region r (txHsemIndex d) = r.part d := by
  ext a
  refine ⟨?_, fun ha => ⟨d, rfl, ha⟩⟩
  rintro ⟨e, he, ha⟩
  rwa [← txHsemIndex_injective he]

theorem disjoint_region (r : Region) (i j : Fin 32) (hne : i ≠ j) :
    Disjoint (region r i) (region r j) := by
  refine disjoint_left.mpr ?_
  rintro a ⟨d, rfl, ha⟩ ⟨e, rfl, ha'⟩
  exact disjoint_left.mp (r.disjoint_part fun h => hne (congrArg _ h)) ha ha'

/-- Both directions set up. -/
def Ready (r : Region) (m : SharedMemory) : Prop := ∀ d, r.Filled m d

/-- **A call stays in the half of its direction.** -/
theorem stays_code (k : LinkCall) (h : Ready r m) :
    Stays (region r ((calls r).lock k)) ((calls r).code k) m := by
  change Stays (region r k.hsem) (k.code r) m
  rw [k.hsem_eq, region_txHsemIndex]
  obtain ⟨b, hb, husable⟩ := (h k.sender).holds
  have harea := (h k.sender).toSettled.area_subset
  cases k with
  | send c frame =>
    refine Stays.bind (hb.stays_pushCode husable harea frame) ?_
    trivial
  | recv c frame =>
    refine Stays.bind (hb.stays_popCode husable harea frame) ?_
    trivial

/-- Changes to the half of `d` that leave it in order leave both. -/
theorem Ready.of_change {m' : SharedMemory} (h : Ready r m) (d : Core) (hd : r.Filled m' d)
    (hsame : ∀ a ∉ r.part d, m' a = m a) : Ready r m' := fun e => by
  obtain rfl | hne := eq_or_ne e d
  · exact hd
  · exact (h e).congr fun a ha => hsame a (disjoint_left.mp (r.disjoint_part hne) ha)

theorem Ready.apply (h : Ready r m) (k : LinkCall) : Ready r ((calls r).apply k m).2 := by
  cases k with
  | send c frame =>
    rw [apply_send]
    obtain ⟨b, hb, husable⟩ := (h c).holds
    obtain ⟨-, hwithin, hb', husable'⟩ := hb.push husable frame
    refine h.of_change c ⟨⟨hwithin.buffer.trans (h c).buffer, hwithin.size.trans (h c).size⟩,
      _, hb', husable'⟩ fun a ha => hwithin.same a fun hin => ?_
    exact ha ((h c).toSettled.area_subset hin)
  | recv c frame =>
    rw [apply_recv]
    obtain ⟨b, hb, husable⟩ := (h c.other).holds
    obtain ⟨-, -, -, hb', husable'⟩ :=
      hb.pop husable (size_le (h c.other).toSettled hb) frame
    obtain ⟨hsettled, hsame⟩ := pop_mem (h c.other).toSettled frame
    exact h.of_change c.other ⟨hsettled, _, hb', husable'⟩ fun a ha =>
      hsame a fun hin => ha (tail_subset r _ hin)

/-- A call, as one step of the two cores. -/
theorem exists_step_call (hinv : ShMem.Inv r s.link) (hinit : ∀ c, s.link.todo c = []) (i : ι)
    (k : LinkCall) : ∃ t, step r s k.act = some t ∧ (∀ c, t.link.todo c = []) ∧
      t.link.mem = ((calls r).apply k s.link.mem).2 ∧ ∀ d,
        t.sent d = s.sent d ++ accepted d [(i, k, ((calls r).apply k s.link.mem).1)] ∧
        t.got d = s.got d ++ delivered d [(i, k, ((calls r).apply k s.link.mem).1)] := by
  cases k with
  | send c frame =>
    refine ⟨_, send_eq hinv (hinit c), hinit, by rw [apply_send], fun d => ⟨?_, ?_⟩⟩
    · rw [apply_send]
      cases (s.link.mem.push (r.header c) frame).1 with
      | false => simp [accepted]
      | true =>
        obtain rfl | hne := eq_or_ne c d
        · simp [accepted]
        · simp [accepted, hne, Function.update_of_ne hne.symm]
    · simp [delivered]
  | recv c frame =>
    refine ⟨_, recv_eq hinv (hinit c), hinit, by rw [apply_recv], fun d => ⟨?_, ?_⟩⟩
    · simp [accepted]
    · rw [apply_recv]
      cases (s.link.mem.pop (r.header c.other) frame).1 with
      | false => simp [delivered]
      | true =>
        obtain rfl | hne := eq_or_ne c.other d
        · simp [delivered]
        · simp [delivered, hne, Function.update_of_ne hne.symm]

/-- Calls one at a time are a run of the two cores. -/
theorem exists_run_of_replays {l : List (ι × LinkCall × LinkRet)} (hinv : ShMem.Inv r s.link)
    (hinit : ∀ c, s.link.todo c = [])
    (h : LockedCode.Replays (calls r).apply s.link.mem l m) :
    ∃ t, (machine r).run s (l.map fun call => call.2.1.act) = some t ∧ t.link.mem = m ∧
      ∀ d, t.sent d = s.sent d ++ accepted d l ∧ t.got d = s.got d ++ delivered d l := by
  induction l generalizing s with
  | nil => exact ⟨s, rfl, h, fun d => ⟨(List.append_nil _).symm, (List.append_nil _).symm⟩⟩
  | cons call l ih =>
    obtain ⟨i, k, ret⟩ := call
    obtain ⟨hret, hrest⟩ := h
    obtain ⟨u, hst, hinit', hmem, hu⟩ := exists_step_call hinv hinit i k
    rw [hret] at hu
    obtain ⟨t, hrun, ht, hsent⟩ := ih (inv_step hinv hst) hinit' (hmem ▸ hrest)
    refine ⟨t, Machine.run_trans (Machine.run_singleton hst) hrun, ht, fun d => ⟨?_, ?_⟩⟩
    · rw [(hsent d).1, (hu d).1, List.append_assoc, accepted, accepted, ← List.filterMap_append]
      rfl
    · rw [(hsent d).2, (hu d).2, List.append_assoc, delivered, delivered, ← List.filterMap_append]
      rfl

/-- Under locks, the calls on the link are atomic. -/
theorem exists_run_of_regions {as : List (RegionAct ι (Fin 32) LinkCall)}
    {T : Regions ι (Fin 32) SharedMemory LinkCall LinkRet} (hinv : ShMem.Inv r s.link)
    (hinit : ∀ c, s.link.todo c = [])
    (hrun : (calls r).machine.run (RegionCode.start s.link.mem) as = some T) :
    ∃ t, (machine r).run s (T.returned.map fun call => call.2.1.act) = some t ∧
      (∀ d, t.sent d = s.sent d ++ accepted d T.returned ∧
        t.got d = s.got d ++ delivered d T.returned) ∧
      ∀ a, (∀ d, a ∈ r.part d → T.inside (txHsemIndex d) = none) →
        T.shared a = t.link.mem a := by
  have hready : Ready r s.link.mem := fun d =>
    hinv.filled d (by rw [hinit d]; exact List.not_mem_nil)
  obtain ⟨u, -, hu⟩ := RegionCode.explained_of_run (disjoint_region r)
    (fun k m h => stays_code k h) (fun k m (h : Ready r m) => h.apply k) hready hrun
  obtain ⟨t, hrun', rfl, hsent⟩ := exists_run_of_replays hinv hinit hu.replays
  refine ⟨t, hrun', hsent, fun a ha => hu.idle a ?_⟩
  rintro i ⟨d, rfl, hin⟩
  exact ha d hin

/-- **The calls on the link are atomic.**  From any state that both cores have set up, by any number
of threads: whatever the order of their accesses to registers and memory and of the steps of the
handlers, while no thread asks whose a semaphore is while another of its core takes it for its own,
the calls returned so far are a run of the two cores, with the same frames accepted and got; where
nobody is under the semaphore the memory is that run's; and whoever is under one can return. -/
theorem exists_run_of_sections {T : Type} [DecidableEq T] {core : T → Core} {isr : Core → Word}
    {mem : SharedMemory} {as : List DuplexAct} {acts : List (SemSectionsAct T LinkCall)}
    {S : SemSections T SharedMemory LinkCall LinkRet}
    (hs : (machine r).run (start mem) as = some s) (hinit : ∀ c, s.link.todo c = [])
    (hsole : (SemSections.machine core (calls r)).Along (SemSections.SoleTaker core)
      (SemSections.start isr s.link.mem) acts)
    (hrun : (SemSections.machine core (calls r)).run (SemSections.start isr s.link.mem) acts
      = some S) :
    (∃ t, (machine r).run s (S.returned.map fun call => call.2.1.act) = some t ∧
      (∀ d, t.sent d = s.sent d ++ accepted d S.returned ∧
        t.got d = s.got d ++ delivered d S.returned) ∧
      ∀ a, (∀ x d, (S.sem.pc x).under = some (txHsemIndex d) → a ∉ r.part d) →
        S.shared a = t.link.mem a) ∧
    ∀ x i, (S.sem.pc x).under = some i →
      ∃ k, SemSections.ReturnsAlone core (calls r) x k S := by
  have hinv : ShMem.Inv r s.link :=
    (Machine.always_of_step (M := machine r) (J := fun s => ShMem.Inv r s.link)
      (ShMem.inv_start r mem) (fun _ _ _ h hst => inv_step h hst) as).of_run hs
  obtain ⟨bs, u, hu, hfollows⟩ := SemSections.exists_region_run hsole hrun
  constructor
  · obtain ⟨t, hrun', hsent, hmem⟩ := exists_run_of_regions hinv hinit hu
    rw [hfollows.returned] at hrun' hsent
    refine ⟨t, hrun', hsent, fun a ha => hfollows.shared ▸ hmem a fun d hin => ?_⟩
    refine Option.eq_none_iff_forall_ne_some.mpr fun held hheld => ?_
    exact ha held.1 d ((hfollows.inside _ _ held.2.1 held.2.2).mp hheld).1 hin
  · intro x i hx
    obtain ⟨k, c, hcall, -, -⟩ :=
      hfollows.begun x i (SemSections.constructing_of_under hx)
    exact ⟨k, SemSections.returnsAlone hx hcall⟩

/-- Both cores have started up. -/
def up64 : List DuplexAct := [.init .cm4, .init .cm4, .init .cm7, .init .cm7]

/-- The CM7 has begun to send, while the CM4 sends a frame. -/
def both64 : List (SemSectionsAct Bool LinkCall) :=
  .call false (.send .cm7 Fifo.frame2) :: List.replicate 16 (.sem (.access false)) ++
    .call true (.send .cm4 Fifo.frame2) :: List.replicate 64 (.sem (.access true)) ++
      [.sem (.access false)]

theorem exists_run_of_sections_both64 : ∃ s S t,
    (machine region64).run (start fun _ => 0) up64 = some s ∧
      (SemSections.machine Hsem.sides (calls region64)).run
        (SemSections.start (fun _ => 0) s.link.mem) both64 = some S ∧
        S.returned = [(true, .send .cm4 Fifo.frame2, .send true)] ∧
          (machine region64).run s [.send .cm4 Fifo.frame2] = some t ∧
            t.sent .cm4 = s.sent .cm4 ++ [Fifo.frame2] := by
  have hup : ∃ s, (machine region64).run (start fun _ => 0) up64 = some s ∧
      (∀ c, s.link.todo c = []) ∧ ∃ S,
        (SemSections.machine Hsem.sides (calls region64)).run
          (SemSections.start (fun _ => 0) s.link.mem) both64 = some S ∧
            S.returned = [(true, .send .cm4 Fifo.frame2, .send true)] :=
    ⟨_, rfl, fun c => by cases c <;> rfl, _, rfl, rfl⟩
  obtain ⟨s, hrun, hinit, S, hS, hreturned⟩ := hup
  obtain ⟨⟨t, ht, hsent, -⟩, -⟩ := exists_run_of_sections hrun hinit
    (Machine.along_of_forall_mem fun a _ s => SemSections.soleTaker_of_injective (by decide) s a) hS
  rw [hreturned] at ht hsent
  exact ⟨s, S, t, hrun, hS, hreturned, ht, (hsent .cm4).1⟩

end Duplex

end LibDronecan
