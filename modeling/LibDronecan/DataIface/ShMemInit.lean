import LibDronecan.DataIface.RawMemory
import LibDronecan.DataIface.ShMemRx

/-!
# DataIface/ShMemInit — `ShMemIface::init` on two cores

    base ──▸ | header | data … |  ◂── base + size/2 ──▸ | header | data … |
               CM4 sends, CM7 receives                    CM7 sends, CM4 receives

Each core runs its two blocks in its own order, under the semaphores; a core that is through may
send.  Receiver and sender both write where the data is and how much of it there is, the sender
alone resets the ring.  The two of them write the same values (`Region.block_eq`), so whoever comes
second rewrites what is there: after the sender's block the receiver's changes no byte of memory
(`Region.rxBlock_of_settled`), whatever was sent in between.

Addresses are 32-bit and may wrap; the size of the region may be odd.
-/

open Machinery

namespace LibDronecan

/-- The shared memory, with room for two headers. -/
structure Region where
  /-- `__shared_mem_base__` -/
  base : Word
  /-- `shared_mem_size` -/
  size : Word
  fits : sizeofBuffer ≤ size.toNat / 2

/-- What a core uses a buffer for. -/
inductive Role
  | rx
  | tx
  deriving DecidableEq

/-- The core that sends into the buffer that `c` has in this role. -/
def Role.sender (c : Core) : Role → Core
  | .tx => c
  | .rx => c.other

namespace Region

/-- `sizeof(Buffer)` in an address. -/
def headerSize : Word := BitVec.ofNat 32 sizeofBuffer

/-- The receiving block of `init`. -/
def rxBlock (rxBuf buffer size : Word) (m : SharedMemory) : Word × SharedMemory :=
  let m := m.store rxBuf .buffer buffer
  let m := m.store rxBuf .size size
  (rxBuf, m)

/-- The sending block. -/
def txBlock (txBuf buffer size : Word) (m : SharedMemory) : Word × SharedMemory :=
  let m := m.reset txBuf
  let m := m.store txBuf .buffer buffer
  let m := m.store txBuf .size size
  (txBuf, m.memset (m.load txBuf .buffer) 0 (m.load txBuf .size))

/-- The blocks of `init` as each core has them. -/
def block (r : Region) : Core → Role → SharedMemory → Word × SharedMemory
  | .cm7, .rx => rxBlock r.base (r.base + headerSize) (r.size / 2 - headerSize)
  | .cm7, .tx =>
      txBlock (r.base + r.size / 2) (r.base + r.size / 2 + headerSize) (r.size / 2 - headerSize)
  | .cm4, .tx => txBlock r.base (r.base + headerSize) (r.size / 2 - headerSize)
  | .cm4, .rx =>
      rxBlock (r.base + r.size / 2) (r.base + r.size / 2 + headerSize) (r.size / 2 - headerSize)

/-- The order they stand in. -/
def blocks : Core → List Role
  | .cm7 => [.rx, .tx]
  | .cm4 => [.tx, .rx]

end Region

/-- The memory, the blocks each core has still to run, and its `rx_buf` and `tx_buf`. -/
structure ShMem where
  mem : SharedMemory
  todo : Core → List Role
  buf : Core → Role → Option Word

/-- A core runs its next block, or sends. -/
inductive ShMemAct
  | init (c : Core)
  | send (c : Core) (frame : CanardCANFrame)

namespace ShMem

variable (r : Region)

/-- Before either `init`, whatever the memory holds. -/
def start (mem : SharedMemory) : ShMem := ⟨mem, Region.blocks, fun _ _ => none⟩

def step (s : ShMem) : ShMemAct → Option ShMem
  | .init c =>
      match s.todo c with
      | [] => none
      | role :: rest =>
          let (p, mem) := r.block c role s.mem
          some ⟨mem, Function.update s.todo c rest,
            Function.update s.buf c (Function.update (s.buf c) role (some p))⟩
  | .send c frame =>
      -- `init` has returned
      if s.todo c = [] then
        (s.buf c .tx).map fun txBuf => { s with mem := (s.mem.push txBuf frame).2 }
      else none

def machine : Machine ShMem ShMemAct := ⟨step r⟩

/-- **The cores agree on the layout**: one core's `tx_buf` is the other one's `rx_buf`, with the
same data behind it; the buffers of the two directions do not overlap, and lie in the region. -/
structure Agree (s : ShMem) : Prop where
  /-- A block that has run has set its pointer. -/
  isSome : ∀ c role, role ∉ s.todo c → (s.buf c role).isSome
  same : ∀ c p q, s.buf c .tx = some p → s.buf c.other .rx = some q → p = q
  data : ∀ c role p, s.buf c role = some p →
    s.mem.load p .buffer = p + Region.headerSize ∧
      s.mem.load p .size = r.size / 2 - Region.headerSize
  apart : ∀ c c' role role' p q, s.buf c role = some p → s.buf c' role' = some q →
    role.sender c ≠ role'.sender c' → Disjoint (s.mem.area p) (s.mem.area q)
  inside : ∀ c role p, s.buf c role = some p → s.mem.area p ⊆ span r.base r.size.toNat

/-- **A receiver's block leaves alone what its peer has set up**: head, tail, and every byte of the
data. -/
def RxKeeps (s : ShMem) (a : ShMemAct) : Prop :=
  ∀ c rest p t, a = .init c → s.todo c = .rx :: rest → s.buf c.other .tx = some p →
    step r s a = some t →
      t.mem.load p .head = s.mem.load p .head ∧ t.mem.load p .tail = s.mem.load p .tail ∧
        ∀ k < (s.mem.load p .size).toNat,
          t.mem (s.mem.load p .buffer + BitVec.ofNat 32 k)
            = s.mem (s.mem.load p .buffer + BitVec.ofNat 32 k)

end ShMem

/-! ## Where the buffers lie -/

namespace Region

variable (r : Region) {m m' : SharedMemory} {c d : Core}

/-- The header a core sends through. -/
def header : Core → Word
  | .cm7 => r.base + r.size / 2
  | .cm4 => r.base

/-- …as a distance from the base. -/
def offset : Core → ℕ
  | .cm7 => r.size.toNat / 2
  | .cm4 => 0

/-- The half of the region it is in. -/
def part (c : Core) : Set Word := span (r.header c) (r.size.toNat / 2)

theorem header_eq (c : Core) : r.header c = r.base + BitVec.ofNat 32 (r.offset c) := by
  cases c with
  | cm7 =>
    refine congrArg (r.base + ·) (BitVec.eq_of_toNat_eq ?_)
    rw [BitVec.toNat_udiv, BitVec.toNat_ofNat, offset, Nat.mod_eq_of_lt]
    · rfl
    · exact (Nat.div_le_self _ _).trans_lt r.size.isLt
  | cm4 => exact (BitVec.add_zero r.base).symm

theorem part_subset (c : Core) : r.part c ⊆ span r.base r.size.toNat := by
  rw [part, header_eq]
  refine span_subset ?_ r.size.isLt.le
  cases c <;> simp only [offset] <;> omega

theorem disjoint_part (h : c ≠ d) : Disjoint (r.part c) (r.part d) := by
  have hlt := r.size.isLt
  rw [part, part, header_eq, header_eq]
  cases c <;> cases d
  · exact absurd rfl h
  · exact (disjoint_span (by simp only [offset]; omega) (by simp only [offset]; omega)).symm
  · exact disjoint_span (by simp only [offset]; omega) (by simp only [offset]; omega)
  · exact absurd rfl h

/-- **Every block is one of two, on the buffer of its direction**: the two branches of `init` differ
in nothing else. -/
theorem block_eq (c : Core) (role : Role) :
    r.block c role = match role with
      | .rx => rxBlock (r.header (role.sender c)) (r.header (role.sender c) + headerSize)
          (r.size / 2 - headerSize)
      | .tx => txBlock (r.header (role.sender c)) (r.header (role.sender c) + headerSize)
          (r.size / 2 - headerSize) := by
  cases c <;> cases role <;> rfl

/-- The header of a direction says where its data is. -/
structure Settled (m : SharedMemory) (c : Core) : Prop where
  buffer : m.load (r.header c) .buffer = r.header c + headerSize
  size : m.load (r.header c) .size = r.size / 2 - headerSize

/-- The data is what the header leaves of the half. -/
theorem toNat_dataSize : (r.size / 2 - headerSize).toNat = r.size.toNat / 2 - sizeofBuffer := by
  have hfits := r.fits
  rw [BitVec.toNat_sub_of_le, BitVec.toNat_udiv]
  · rfl
  · rw [BitVec.le_def, BitVec.toNat_udiv]
    exact hfits

theorem header_subset (c : Core) : span (r.header c) sizeofBuffer ⊆ r.part c := by
  have hfits := r.fits
  have hlt := r.size.isLt
  have hsub := span_subset (p := r.header c) (i := 0) (n := sizeofBuffer) (k := r.size.toNat / 2)
    (by omega) (by omega)
  rwa [BitVec.add_zero] at hsub

theorem data_subset (c : Core) :
    span (r.header c + headerSize) (r.size.toNat / 2 - sizeofBuffer) ⊆ r.part c := by
  have hfits := r.fits
  have hlt := r.size.isLt
  exact span_subset (by omega) (by omega)

theorem header_disjoint_data (c : Core) : Disjoint (span (r.header c) sizeofBuffer)
    (span (r.header c + headerSize) (r.size.toNat / 2 - sizeofBuffer)) := by
  have hfits := r.fits
  have hlt := r.size.isLt
  have hdis := disjoint_span (p := r.header c) (i := 0) (n := sizeofBuffer) (j := sizeofBuffer)
    (k := r.size.toNat / 2 - sizeofBuffer) (by omega) (by omega)
  rwa [BitVec.add_zero] at hdis

variable {r}

theorem Settled.area_subset (h : r.Settled m c) : m.area (r.header c) ⊆ r.part c := by
  rw [SharedMemory.area, h.buffer, h.size, toNat_dataSize]
  exact Set.union_subset (r.header_subset c) (r.data_subset c)

theorem Settled.congr (h : r.Settled m c) (hsame : ∀ a ∈ r.part c, m' a = m a) :
    r.Settled m' c := by
  have hload (f : BufferField) : m'.load (r.header c) f = m.load (r.header c) f :=
    SharedMemory.load_congr fun a ha => hsame a (r.header_subset c ha)
  exact ⟨(hload .buffer).trans h.buffer, (hload .size).trans h.size⟩

/-- The sender has set the buffer up: the memory holds one that can be pushed to. -/
structure Filled (r : Region) (m : SharedMemory) (c : Core) : Prop extends r.Settled m c where
  holds : ∃ b, m.Holds (r.header c) b ∧ b.Usable

theorem Filled.congr (h : r.Filled m c) (hsame : ∀ a ∈ r.part c, m' a = m a) :
    r.Filled m' c := by
  obtain ⟨b, hb, husable⟩ := h.holds
  exact ⟨h.toSettled.congr hsame,
    ⟨b, hb.congr fun a ha => hsame a (h.toSettled.area_subset ha), husable⟩⟩

/-! ## The two blocks -/

/-- **Where the fields are settled, the receiver's block changes nothing.** -/
theorem rxBlock_of_settled (h : r.Settled m c) :
    (rxBlock (r.header c) (r.header c + headerSize) (r.size / 2 - headerSize) m).2 = m := by
  simp only [rxBlock]
  rw [← h.buffer, SharedMemory.store_load, ← h.size, SharedMemory.store_load]

/-- Where they are not, it settles them, and touches nothing but the header. -/
theorem rxBlock_spec (r : Region) (m : SharedMemory) (c : Core) :
    r.Settled (rxBlock (r.header c) (r.header c + headerSize) (r.size / 2 - headerSize) m).2 c ∧
      ∀ a ∉ r.part c,
        (rxBlock (r.header c) (r.header c + headerSize) (r.size / 2 - headerSize) m).2 a = m a := by
  simp only [rxBlock]
  refine ⟨⟨?_, SharedMemory.load_store_self _ _ _ _⟩, fun a ha => ?_⟩
  · rw [SharedMemory.load_store_of_ne (by decide), SharedMemory.load_store_self]
  · have hout : a ∉ span (r.header c) sizeofBuffer := fun hin => ha (r.header_subset c hin)
    rw [SharedMemory.store_of_notMem hout, SharedMemory.store_of_notMem hout]

/-- The fields after the sender's block, before the data is cleared. -/
theorem load_reset_store (m : SharedMemory) (p buffer size : Word) :
    let m' := ((m.reset p).store p .buffer buffer).store p .size size
    m'.load p .buffer = buffer ∧ m'.load p .size = size ∧ m'.load p .head = 0 ∧
      m'.load p .tail = 0 := by
  refine ⟨?_, SharedMemory.load_store_self _ _ _ _, ?_, ?_⟩
  · rw [SharedMemory.load_store_of_ne (by decide), SharedMemory.load_store_self]
  · rw [SharedMemory.load_store_of_ne (by decide), SharedMemory.load_store_of_ne (by decide),
      SharedMemory.reset, SharedMemory.load_store_of_ne (by decide), SharedMemory.load_store_self]
  · rw [SharedMemory.load_store_of_ne (by decide), SharedMemory.load_store_of_ne (by decide),
      SharedMemory.reset, SharedMemory.load_store_self]

/-- A ring of `n` zeroes. -/
def zeroed (n : ℕ) : Buffer := ⟨fun _ => 0, n, 0, 0⟩

theorem usable_zeroed (n : ℕ) : (zeroed n).Usable := by
  obtain hzero | hpos := Nat.eq_zero_or_pos n
  · exact Or.inr ⟨hzero, rfl, rfl⟩
  · exact Or.inl ⟨hpos, hpos⟩

/-- **The sender's block leaves a ring of zeroes**, and touches nothing else. -/
theorem txBlock_zeroed (r : Region) (m : SharedMemory) (c : Core) :
    r.Settled (txBlock (r.header c) (r.header c + headerSize) (r.size / 2 - headerSize) m).2 c ∧
      (txBlock (r.header c) (r.header c + headerSize) (r.size / 2 - headerSize) m).2.Holds
        (r.header c) (zeroed (r.size.toNat / 2 - sizeofBuffer)) ∧
      ∀ a ∉ r.part c,
        (txBlock (r.header c) (r.header c + headerSize) (r.size / 2 - headerSize) m).2 a = m a := by
  obtain ⟨hbuffer, hsize, hhead, htail⟩ := load_reset_store m (r.header c)
    (r.header c + headerSize) (r.size / 2 - headerSize)
  have hout {a : Word} (ha : a ∉ r.part c) : a ∉ span (r.header c) sizeofBuffer :=
    fun hin => ha (r.header_subset c hin)
  have hfields {a : Word} (ha : a ∉ r.part c) : (((m.reset (r.header c)).store (r.header c) .buffer
      (r.header c + headerSize)).store (r.header c) .size (r.size / 2 - headerSize)) a = m a := by
    rw [SharedMemory.store_of_notMem (hout ha), SharedMemory.store_of_notMem (hout ha),
      SharedMemory.reset, SharedMemory.store_of_notMem (hout ha),
      SharedMemory.store_of_notMem (hout ha)]
  simp only [txBlock, SharedMemory.memset, hbuffer, hsize]
  generalize ((m.reset (r.header c)).store (r.header c) .buffer (r.header c + headerSize)).store
    (r.header c) .size (r.size / 2 - headerSize) = m₁ at hbuffer hsize hhead htail hfields
  rw [toNat_dataSize]
  set n := r.size.toNat / 2 - sizeofBuffer with hn
  have hlen : (List.replicate n (0 : Byte)).length = n := List.length_replicate
  have hclear {a : Word} (ha : a ∉ span (r.header c + headerSize) n) :
      Memory.write m₁ (r.header c + headerSize) (List.replicate n 0) a = m₁ a :=
    Memory.write_of_notMem (by rwa [hlen])
  have hload (f : BufferField) : SharedMemory.load (Memory.write m₁ (r.header c + headerSize)
      (List.replicate n 0)) (r.header c) f = m₁.load (r.header c) f :=
    SharedMemory.load_congr fun a ha =>
      hclear (Set.disjoint_left.mp (r.header_disjoint_data c) ha)
  refine ⟨⟨(hload .buffer).trans hbuffer, (hload .size).trans hsize⟩,
    ⟨?_, ?_, ?_, fun k hk => ?_, ?_⟩, fun a ha => ?_⟩
  · rw [hload, hsize, toNat_dataSize]
    rfl
  · rw [hload, hhead]
    rfl
  · rw [hload, htail]
    rfl
  · have hlt := r.size.isLt
    have hk : k < n := hk
    rw [hload, hbuffer, Memory.write_add (by rwa [hlen]) (by omega), List.getElem_replicate]
    rfl
  · rw [hload, hbuffer]
    exact r.header_disjoint_data c
  · rw [hclear fun hin => ha (r.data_subset c hin), hfields ha]

/-- **The sender's block sets up an empty buffer**, and touches nothing else. -/
theorem txBlock_spec (r : Region) (m : SharedMemory) (c : Core) :
    r.Filled (txBlock (r.header c) (r.header c + headerSize) (r.size / 2 - headerSize) m).2 c ∧
      ∀ a ∉ r.part c,
        (txBlock (r.header c) (r.header c + headerSize) (r.size / 2 - headerSize) m).2 a = m a := by
  obtain ⟨hsettled, hholds, hsame⟩ := txBlock_zeroed r m c
  exact ⟨⟨hsettled, _, hholds, usable_zeroed _⟩, hsame⟩

end Region

namespace ShMem

variable {r : Region} {s t : ShMem} {c d : Core} {p : Word}

/-- **The invariant**: a core's pointers are where its blocks left them; the header of a direction
is settled once either core has been there, and the buffer filled once the sender has. -/
structure Inv (r : Region) (s : ShMem) : Prop where
  nodup : ∀ c, (s.todo c).Nodup
  placed : ∀ c role, s.buf c role
    = if role ∈ s.todo c then none else some (r.header (role.sender c))
  settled : ∀ c role, role ∉ s.todo c → r.Settled s.mem (role.sender c)
  filled : ∀ c, .tx ∉ s.todo c → r.Filled s.mem c

theorem inv_start (r : Region) (mem : SharedMemory) : Inv r (start mem) := by
  have hall (c : Core) (role : Role) : role ∈ Region.blocks c := by
    cases c <;> cases role <;> decide
  have hnodup (c : Core) : (Region.blocks c).Nodup := by cases c <;> decide
  exact ⟨hnodup, fun c role => (if_pos (hall c role)).symm, fun c role h => absurd (hall c role) h,
    fun c h => absurd (hall c .tx) h⟩

theorem Inv.of_buf (h : Inv r s) {role : Role} (hp : s.buf c role = some p) :
    role ∉ s.todo c ∧ p = r.header (role.sender c) := by
  rw [h.placed] at hp
  split_ifs at hp with hin
  exact ⟨hin, (Option.some.inj hp).symm⟩

theorem Inv.agree (h : Inv r s) : Agree r s := by
  refine ⟨fun c role hin => ?_, fun c p q hp hq => ?_, fun c role p hp => ?_,
    fun c c' role role' p q hp hq hne => ?_, fun c role p hp => ?_⟩
  · rw [h.placed, if_neg hin]
    rfl
  · rw [(h.of_buf hp).2, (h.of_buf hq).2]
    cases c <;> rfl
  · obtain ⟨hin, rfl⟩ := h.of_buf hp
    exact ⟨(h.settled c role hin).buffer, (h.settled c role hin).size⟩
  · obtain ⟨hin, rfl⟩ := h.of_buf hp
    obtain ⟨hin', rfl⟩ := h.of_buf hq
    exact (r.disjoint_part hne).mono (h.settled c role hin).area_subset
      (h.settled c' role' hin').area_subset
  · obtain ⟨hin, rfl⟩ := h.of_buf hp
    exact (h.settled c role hin).area_subset.trans (r.part_subset _)

/-- What a receiver's block does to memory that its peer has set up. -/
theorem Inv.mem_of_rxBlock (h : Inv r s) {rest : List Role} (htodo : s.todo c = .rx :: rest)
    (hp : s.buf c.other .tx = some p) (hst : step r s (.init c) = some t) : t.mem = s.mem := by
  have hsettled := h.settled _ _ (h.of_buf hp).1
  simp only [step, htodo, r.block_eq] at hst
  rw [← Option.some.inj hst]
  exact Region.rxBlock_of_settled hsettled

theorem Inv.rxKeeps (h : Inv r s) (a : ShMemAct) : RxKeeps r s a := by
  rintro c rest p t rfl htodo hp hst
  rw [h.mem_of_rxBlock htodo hp hst]
  exact ⟨rfl, rfl, fun _ _ => rfl⟩

/-- **A step changes one direction's half of the memory**, which it leaves settled and, if the
sender has been there, filled. -/
theorem Inv.of_change (h : Inv r s) {mem : SharedMemory} {todo : Core → List Role}
    {buf : Core → Role → Option Word} (d : Core) (hnodup : ∀ c, (todo c).Nodup)
    (hplaced : ∀ c role, buf c role
      = if role ∈ todo c then none else some (r.header (role.sender c)))
    (hsame : ∀ a ∉ r.part d, mem a = s.mem a) (hsettled : r.Settled mem d)
    (hfilled : .tx ∉ todo d → r.Filled mem d)
    (hdone : ∀ c role, role ∉ todo c → role.sender c ≠ d → role ∉ s.todo c) :
    Inv r ⟨mem, todo, buf⟩ := by
  have hother {c : Core} (hc : c ≠ d) : ∀ a ∈ r.part c, mem a = s.mem a := fun a ha =>
    hsame a (Set.disjoint_left.mp (r.disjoint_part hc) ha)
  refine ⟨hnodup, hplaced, fun c role hin => ?_, fun c hin => ?_⟩
  · obtain hc | hc := eq_or_ne (role.sender c) d
    · exact hc ▸ hsettled
    · exact (h.settled c role (hdone c role hin hc)).congr (hother hc)
  · obtain rfl | hc := eq_or_ne c d
    · exact hfilled hin
    · exact (h.filled c (hdone c .tx hin hc)).congr (hother hc)

/-- What a block does, whichever it is. -/
theorem Inv.block_spec (h : Inv r s) {role : Role} {rest : List Role}
    (htodo : s.todo c = role :: rest) :
    (r.block c role s.mem).1 = r.header (role.sender c) ∧
      (∀ a ∉ r.part (role.sender c), (r.block c role s.mem).2 a = s.mem a) ∧
      r.Settled (r.block c role s.mem).2 (role.sender c) ∧
      (.tx ∉ Function.update s.todo c rest (role.sender c) →
        r.Filled (r.block c role s.mem).2 (role.sender c)) := by
  rw [r.block_eq]
  cases role with
  | rx =>
    obtain ⟨hsettled, hsame⟩ := Region.rxBlock_spec r s.mem c.other
    refine ⟨rfl, hsame, hsettled, fun hin => ?_⟩
    simp only [Role.sender, Function.update_of_ne c.other_ne] at hin ⊢
    have hfilled := h.filled c.other hin
    rw [Region.rxBlock_of_settled hfilled.toSettled]
    exact hfilled
  | tx =>
    obtain ⟨hfilled, hsame⟩ := Region.txBlock_spec r s.mem c
    exact ⟨rfl, hsame, hfilled.toSettled, fun _ => hfilled⟩

theorem Inv.step_init (h : Inv r s) (hst : step r s (.init c) = some t) : Inv r t := by
  cases htodo : s.todo c with
  | nil => simp only [ShMem.step, htodo, reduceCtorEq] at hst
  | cons role rest =>
    simp only [ShMem.step, htodo] at hst
    obtain rfl := Option.some.inj hst
    obtain ⟨hp, hsame, hsettled, hfilled⟩ := h.block_spec htodo
    have hnodup : (role :: rest).Nodup := htodo ▸ h.nodup c
    refine h.of_change _ (fun c' => ?_) (fun c' role' => ?_) hsame hsettled hfilled
      fun c' role' hin hne => ?_
    · obtain rfl | hc := eq_or_ne c' c
      · rw [Function.update_self]
        exact (List.nodup_cons.mp hnodup).2
      · rw [Function.update_of_ne hc]
        exact h.nodup c'
    · obtain rfl | hc := eq_or_ne c' c
      · rw [Function.update_self, Function.update_self]
        obtain rfl | hrole := eq_or_ne role' role
        · rw [Function.update_self, if_neg (List.nodup_cons.mp hnodup).1, hp]
        · simp only [Function.update_of_ne hrole, h.placed, htodo, List.mem_cons, hrole, false_or]
      · rw [Function.update_of_ne hc, Function.update_of_ne hc]
        exact h.placed c' role'
    · obtain rfl | hc := eq_or_ne c' c
      · rw [Function.update_self] at hin
        rw [htodo, List.mem_cons, not_or]
        exact ⟨fun hrole => hne (hrole ▸ rfl), hin⟩
      · rwa [Function.update_of_ne hc] at hin

theorem Inv.step_send (h : Inv r s) {frame : CanardCANFrame}
    (hst : step r s (.send c frame) = some t) : Inv r t := by
  simp only [step] at hst
  split_ifs at hst with htodo
  obtain ⟨p, hp, rfl⟩ := Option.map_eq_some_iff.mp hst
  obtain ⟨hin, rfl⟩ := h.of_buf hp
  have hfilled := h.filled c hin
  obtain ⟨b, hb, husable⟩ := hfilled.holds
  obtain ⟨-, hwithin, hb', husable'⟩ := hb.push husable frame
  have hsettled : r.Settled (s.mem.push (r.header c) frame).2 c :=
    ⟨hwithin.buffer.trans hfilled.buffer, hwithin.size.trans hfilled.size⟩
  exact h.of_change c h.nodup h.placed
    (fun a ha => hwithin.same a fun hin => ha (hfilled.toSettled.area_subset hin)) hsettled
    (fun _ => ⟨hsettled, _, hb', husable'⟩) fun _ _ hin _ => hin

theorem Inv.step (h : Inv r s) {a : ShMemAct} (hst : (machine r).step s a = some t) :
    Inv r t := by
  cases a with
  | init c => exact h.step_init hst
  | send c frame => exact h.step_send hst

/-- **The layout is agreed on from any memory, in every order of blocks and sends**, and no
receiver's block disturbs what its peer has set up. -/
theorem always_agree (r : Region) (mem : SharedMemory) (as : List ShMemAct) :
    (machine r).Always (Agree r) (start mem) as ∧
      (machine r).Along (RxKeeps r) (start mem) as :=
  ⟨(Machine.always_of_step (inv_start r mem) (fun _ _ _ h hst => h.step hst) as).mono
      fun _ h => h.agree,
    Machine.along_of_step (inv_start r mem) (fun _ a h => h.rxKeeps a)
      (fun _ _ _ h hst => h.step hst) as⟩

end ShMem

end LibDronecan
