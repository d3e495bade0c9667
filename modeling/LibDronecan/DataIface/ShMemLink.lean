import LibDronecan.DataIface.RawStall
import LibDronecan.DataIface.ShMemInit

/-!
# DataIface/ShMemLink — one memory, two links

    cm7 ──send──▸ | header | data … |  second half  ──update_rx──▸ cm4
    cm4 ──send──▸ | header | data … |  first half   ──update_rx──▸ cm7

Both cores at work on the bytes of the shared memory: blocks of `init`, calls of `send`, and turns
of the loop in `update_rx`, in any order and from whatever the memory held.  Each of them stays in
the half of one direction (`along_confined`), and what a direction carries depends on that half
alone (`exists_run_of_agree`).  From the sender's block on, a direction is a ring of its own: the
memory `Follows` two of them that know nothing of each other (`exists_run_lanes`), so what holds of
one ring from its power-up on holds of each direction (`always_got_first`).
-/

open Machinery

namespace LibDronecan

/-- A core runs its next block of `init`, sends, or pops once in the loop of `update_rx`. -/
inductive DuplexAct
  | init (c : Core)
  | send (c : Core) (frame : CanardCANFrame)
  | recv (c : Core) (frame : CanardCANFrame)

/-- The two cores; and, for each of them, the frames its `send` accepted and what the other's
`update_rx` got, since its sending block ran. -/
structure Duplex where
  link : ShMem
  sent : Core → List CanardCANFrame
  got : Core → List (Word × Byte × List Byte)

namespace Duplex

variable (r : Region)

/-- Before either `init`, whatever the memory holds. -/
def start (mem : SharedMemory) : Duplex := ⟨ShMem.start mem, fun _ => [], fun _ => []⟩

def step (s : Duplex) : DuplexAct → Option Duplex
  | .init c =>
      (ShMem.step r s.link (.init c)).map fun link =>
        if (s.link.todo c).head? = some .tx then
          ⟨link, Function.update s.sent c [], Function.update s.got c []⟩
        else { s with link }
  | .send c frame =>
      if s.link.todo c = [] then
        (s.link.buf c .tx).map fun txBuf =>
          let (ret, mem) := s.link.mem.push txBuf frame
          { s with
            link := { s.link with mem }
            sent := if ret then Function.update s.sent c (s.sent c ++ [frame]) else s.sent }
      else none
  | .recv c frame =>
      -- `init` has started the rx thread
      if s.link.todo c = [] then
        (s.link.buf c .rx).map fun rxBuf =>
          let (ret, frame, mem) := s.link.mem.pop rxBuf frame
          { s with
            link := { s.link with mem }
            got := if ret then Function.update s.got c.other (s.got c.other ++ [frame.view])
              else s.got }
      else none

def machine : Machine Duplex DuplexAct := ⟨step r⟩

/-- The core that sends in the direction that an action is about. -/
def direction (s : Duplex) : DuplexAct → Option Core
  | .init c => (s.link.todo c).head?.map fun role => role.sender c
  | .send c _ => some c
  | .recv c _ => some c.other

/-- **A step changes bytes of one direction's half only**, and a receiver nothing but the tail. -/
def Confined (s : Duplex) (a : DuplexAct) : Prop :=
  ∀ t, step r s a = some t → ∃ d, s.direction a = some d ∧
    (∀ x ∉ r.part d, t.link.mem x = s.link.mem x) ∧
    ∀ c frame, a = .recv c frame →
      ∀ x ∉ span (r.header d + BitVec.ofNat 32 BufferField.tail.offset) 4,
        t.link.mem x = s.link.mem x

end Duplex

/-! ## What the memory operations depend on -/

namespace SharedMemory

variable {m m' : SharedMemory} {p : Word} {S : Set Word}

/-- The same bytes at the places of `S`. -/
def Same (S : Set Word) (m m' : SharedMemory) : Prop := ∀ a ∈ S, m a = m' a

theorem Same.load (h : Same S m m') (hp : span p sizeofBuffer ⊆ S) (f : BufferField) :
    m.load p f = m'.load p f := load_congr fun a ha => h a (hp ha)

theorem Same.write (h : Same S m m') (q : Word) (l : List Byte) :
    Same S (Memory.write m q l) (Memory.write m' q l) := fun a ha => by
  rw [Memory.write, Memory.write, h a ha]

theorem Same.store (h : Same S m m') (p : Word) (f : BufferField) (value : Word) :
    Same S (m.store p f value) (m'.store p f value) := h.write _ _

theorem Same.pushbyte (h : Same S m m') (hp : span p sizeofBuffer ⊆ S) (byte : Byte) :
    Same S (m.pushbyte p byte) (m'.pushbyte p byte) := by
  have hstore : Same S
      (SharedMemory.store (Memory.write m (m.load p .buffer + m.load p .head) [byte]) p .head
        (m.load p .head + 1))
      (SharedMemory.store (Memory.write m' (m'.load p .buffer + m'.load p .head) [byte]) p .head
        (m'.load p .head + 1)) := by
    rw [h.load hp, h.load hp]
    exact (h.write _ _).store _ _ _
  simp only [SharedMemory.pushbyte, hstore.load hp]
  split_ifs
  · exact hstore.store _ _ _
  · exact hstore

theorem Same.pushBytes (h : Same S m m') (hp : span p sizeofBuffer ⊆ S) (l : List Byte) :
    Same S (m.pushBytes p l) (m'.pushBytes p l) := by
  induction l generalizing m m' with
  | nil => exact h
  | cons byte l ih => exact ih (h.pushbyte hp byte)

theorem Same.available (h : Same S m m') (hp : span p sizeofBuffer ⊆ S) :
    m.available p = m'.available p := by
  simp only [SharedMemory.available, h.load hp]

/-- **A push depends on the header**, and writes the same in the same places. -/
theorem Same.push (h : Same S m m') (hp : span p sizeofBuffer ⊆ S) (frame : CanardCANFrame) :
    (m.push p frame).1 = (m'.push p frame).1 ∧ Same S (m.push p frame).2 (m'.push p frame).2 := by
  have hspace : m.txspace p = m'.txspace p := by
    rw [SharedMemory.txspace, SharedMemory.txspace, h.load hp, h.available hp]
  rw [push_eq, push_eq, hspace]
  by_cases hfull : m'.txspace p < BitVec.ofNat 32 (frame.len + frameSizeWithoutData)
  · rw [if_pos hfull, if_pos hfull]
    exact ⟨rfl, h⟩
  · rw [if_neg hfull, if_neg hfull]
    dsimp only
    exact ⟨rfl, h.pushBytes hp (Buffer.encode frame)⟩

theorem Same.peekbyte (h : Same S m m') (hp : span p sizeofBuffer ⊆ S)
    (hdata : span (m.load p .buffer) (m.load p .size).toNat ⊆ S) (hsize : m.load p .size ≠ 0)
    (byte : Word) : m.peekbyte p byte = m'.peekbyte p byte := by
  have hpos : 0 < (m.load p .size).toNat :=
    Nat.pos_of_ne_zero fun h0 => hsize (BitVec.eq_of_toNat_eq h0)
  have hin : m.load p .buffer + (m.load p .tail + byte) % m.load p .size ∈ S := by
    refine hdata (mem_span.mpr ?_)
    rw [add_sub_cancel_left, BitVec.toNat_umod]
    exact Nat.mod_lt _ hpos
  rw [SharedMemory.peekbyte, SharedMemory.peekbyte, h _ hin, h.load hp, h.load hp, h.load hp]

/-- What a pop does to the memory: nothing, or a new tail. -/
theorem pop_cases (m : SharedMemory) (p : Word) (frame : CanardCANFrame) :
    m.pop p frame = (false, frame, m) ∨
      ∃ frame' k, m.pop p frame = (true, frame', m.advance p k) := by
  unfold pop
  split_ifs
  · exact Or.inl rfl
  · exact Or.inl rfl
  · exact Or.inr ⟨_, _, rfl⟩

/-- **A pop depends on header and data**, as long as there is data. -/
theorem Same.pop (h : Same S m m') (hp : span p sizeofBuffer ⊆ S)
    (hdata : span (m.load p .buffer) (m.load p .size).toNat ⊆ S) (hsize : m.load p .size ≠ 0)
    (frame : CanardCANFrame) :
    (m.pop p frame).1 = (m'.pop p frame).1 ∧ (m.pop p frame).2.1 = (m'.pop p frame).2.1 ∧
      Same S (m.pop p frame).2.2 (m'.pop p frame).2.2 := by
  simp only [SharedMemory.pop, SharedMemory.advance, h.available hp, h.peekbyte hp hdata hsize,
    h.load hp]
  split_ifs
  · exact ⟨rfl, rfl, h⟩
  · exact ⟨rfl, rfl, h⟩
  · exact ⟨rfl, rfl, h.store _ _ _⟩

theorem Same.reset (h : Same S m m') (p : Word) : Same S (m.reset p) (m'.reset p) :=
  (h.store _ _ _).store _ _ _

end SharedMemory

open SharedMemory

/-- **A block of `init` depends on nothing**, and writes the same in the same places. -/
theorem Region.same_block (r : Region) {m m' : SharedMemory} {S : Set Word} (h : Same S m m')
    (c : Core) (role : Role) (hp : span (r.header (role.sender c)) sizeofBuffer ⊆ S) :
    Same S (r.block c role m).2 (r.block c role m').2 := by
  rw [r.block_eq]
  cases role with
  | rx => exact (h.store _ _ _).store _ _ _
  | tx =>
    change Same S
      (txBlock (r.header c) (r.header c + headerSize) (r.size / 2 - headerSize) m).2
      (txBlock (r.header c) (r.header c + headerSize) (r.size / 2 - headerSize) m').2
    have hp : span (r.header c) sizeofBuffer ⊆ S := hp
    have hstore := ((h.reset (r.header c)).store (r.header c) .buffer
      (r.header c + headerSize)).store (r.header c) .size (r.size / 2 - headerSize)
    simp only [txBlock, SharedMemory.memset, hstore.load hp]
    exact hstore.write _ _

namespace Duplex

variable {r : Region} {s t : Duplex} {c d : Core} {frame : CanardCANFrame} {m : SharedMemory}

/-! ## One step -/

theorem init_eq {role : Role} {rest : List Role} (htodo : s.link.todo c = role :: rest) :
    step r s (.init c) = some
      { link := ⟨(r.block c role s.link.mem).2, Function.update s.link.todo c rest,
          Function.update s.link.buf c (Function.update (s.link.buf c) role
            (some (r.block c role s.link.mem).1))⟩
        sent := if role = .tx then Function.update s.sent c [] else s.sent
        got := if role = .tx then Function.update s.got c [] else s.got } := by
  simp only [step, ShMem.step, htodo, Option.map_some, List.head?_cons, Option.some.injEq]
  split_ifs <;> rfl

theorem init_eq_none (htodo : s.link.todo c = []) : step r s (.init c) = none := by
  simp only [step, ShMem.step, htodo, Option.map_none]

theorem send_eq (h : ShMem.Inv r s.link) (htodo : s.link.todo c = []) :
    step r s (.send c frame) = some
      { s with
        link := { s.link with mem := (s.link.mem.push (r.header c) frame).2 }
        sent := if (s.link.mem.push (r.header c) frame).1
          then Function.update s.sent c (s.sent c ++ [frame]) else s.sent } := by
  have hbuf : s.link.buf c .tx = some (r.header c) := by
    rw [h.placed, htodo, if_neg List.not_mem_nil]
    rfl
  rw [step, if_pos htodo, hbuf]
  rfl

theorem recv_eq (h : ShMem.Inv r s.link) (htodo : s.link.todo c = []) :
    step r s (.recv c frame) = some
      { s with
        link := { s.link with mem := (s.link.mem.pop (r.header c.other) frame).2.2 }
        got := if (s.link.mem.pop (r.header c.other) frame).1 then Function.update s.got c.other
          (s.got c.other ++ [(s.link.mem.pop (r.header c.other) frame).2.1.view]) else s.got } := by
  have hbuf : s.link.buf c .rx = some (r.header c.other) := by
    rw [h.placed, htodo, if_neg List.not_mem_nil]
    rfl
  rw [step, if_pos htodo, hbuf]
  rfl

theorem send_eq_none (htodo : s.link.todo c ≠ []) : step r s (.send c frame) = none := if_neg htodo

theorem recv_eq_none (htodo : s.link.todo c ≠ []) : step r s (.recv c frame) = none := if_neg htodo

/-- The ring of a direction is short of the address space. -/
theorem size_le (hsettled : r.Settled m d) {b : Buffer} (h : m.Holds (r.header d) b) :
    b.size + 262 ≤ 2 ^ 32 := by
  have hlt := r.size.isLt
  rw [← h.size, hsettled.size, Region.toNat_dataSize]
  omega

/-- A tail moved keeps the direction settled, and what else there is in memory. -/
theorem pop_mem (hsettled : r.Settled m d) (frame : CanardCANFrame) :
    r.Settled (m.pop (r.header d) frame).2.2 d ∧
      ∀ x ∉ span (r.header d + BitVec.ofNat 32 BufferField.tail.offset) 4,
        (m.pop (r.header d) frame).2.2 x = m x := by
  obtain heq | ⟨frame', k, heq⟩ := m.pop_cases (r.header d) frame
  · rw [heq]
    exact ⟨hsettled, fun _ _ => rfl⟩
  · rw [heq]
    refine ⟨⟨?_, ?_⟩, fun x hx => ?_⟩
    · exact (load_store_of_ne (by decide)).trans hsettled.buffer
    · exact (load_store_of_ne (by decide)).trans hsettled.size
    · exact Memory.write_of_notMem (by rwa [length_wordBytes])

theorem tail_subset (r : Region) (d : Core) :
    span (r.header d + BitVec.ofNat 32 BufferField.tail.offset) 4 ⊆ r.part d :=
  (span_field_subset _ _).trans (r.header_subset d)

/-- **The memory stays in order**: the receivers keep what `init` and the senders keep. -/
theorem inv_step (h : ShMem.Inv r s.link) {a : DuplexAct} (hst : step r s a = some t) :
    ShMem.Inv r t.link := by
  cases a with
  | init c =>
    obtain ⟨link, hlink, rfl⟩ := Option.map_eq_some_iff.mp hst
    split_ifs <;> exact h.step_init hlink
  | send c frame =>
    by_cases htodo : s.link.todo c = []
    · rw [send_eq h htodo] at hst
      obtain rfl := Option.some.inj hst
      have hbuf : s.link.buf c .tx = some (r.header c) := by
        rw [h.placed, htodo, if_neg List.not_mem_nil]
        rfl
      have hsend : ShMem.step r s.link (.send c frame)
          = some { s.link with mem := (s.link.mem.push (r.header c) frame).2 } := by
        rw [ShMem.step, if_pos htodo, hbuf, Option.map_some]
      exact h.step_send hsend
    · rw [send_eq_none htodo] at hst
      cases hst
  | recv c frame =>
    by_cases htodo : s.link.todo c = []
    · rw [recv_eq h htodo] at hst
      obtain rfl := Option.some.inj hst
      have hsettled := h.settled c .rx (by rw [htodo]; exact List.not_mem_nil)
      obtain ⟨hsettled', hsame⟩ := pop_mem hsettled frame
      refine h.of_change c.other h.nodup h.placed
        (fun x hx => hsame x fun hin => hx (tail_subset r _ hin)) hsettled' (fun hin => ?_)
        fun _ _ hin _ => hin
      obtain ⟨b, hb, husable⟩ := (h.filled c.other hin).holds
      obtain ⟨-, -, -, hb', husable'⟩ := hb.pop husable (size_le hsettled hb) frame
      exact ⟨hsettled', _, hb', husable'⟩
    · rw [recv_eq_none htodo] at hst
      cases hst

/-- What a step about `d` leaves alone. -/
structure Touches (r : Region) (d : Core) (s t : Duplex) : Prop where
  mem : ∀ x ∉ r.part d, t.link.mem x = s.link.mem x
  sent : ∀ e ≠ d, t.sent e = s.sent e
  got : ∀ e ≠ d, t.got e = s.got e

/-- **A step is about one direction**, and a receiver changes no more than its tail. -/
theorem exists_touches (h : ShMem.Inv r s.link) {a : DuplexAct} (hst : step r s a = some t) :
    ∃ d, s.direction a = some d ∧ Touches r d s t ∧ ∀ c frame, a = .recv c frame →
      ∀ x ∉ span (r.header d + BitVec.ofNat 32 BufferField.tail.offset) 4,
        t.link.mem x = s.link.mem x := by
  cases a with
  | init c =>
    cases htodo : s.link.todo c with
    | nil =>
      rw [init_eq_none htodo] at hst
      cases hst
    | cons role rest =>
      rw [init_eq htodo] at hst
      obtain rfl := Option.some.inj hst
      refine ⟨role.sender c, by rw [direction, htodo]; rfl,
        ⟨(h.block_spec htodo).2.1, fun e he => ?_, fun e he => ?_⟩, fun _ _ hact => nomatch hact⟩
      · cases role with
        | rx => rfl
        | tx => exact Function.update_of_ne he _ _
      · cases role with
        | rx => rfl
        | tx => exact Function.update_of_ne he _ _
  | send c frame =>
    by_cases htodo : s.link.todo c = []
    · rw [send_eq h htodo] at hst
      obtain rfl := Option.some.inj hst
      have hfilled := h.filled c (by rw [htodo]; exact List.not_mem_nil)
      obtain ⟨b, hb, husable⟩ := hfilled.holds
      obtain ⟨-, hwithin, -, -⟩ := hb.push husable frame
      refine ⟨c, rfl, ⟨fun x hx => hwithin.same x fun hin => ?_, fun e he => ?_, fun _ _ => rfl⟩,
        fun _ _ hact => nomatch hact⟩
      · exact hx (hfilled.toSettled.area_subset hin)
      · dsimp only
        split_ifs
        · exact Function.update_of_ne he _ _
        · rfl
    · rw [send_eq_none htodo] at hst
      cases hst
  | recv c frame =>
    by_cases htodo : s.link.todo c = []
    · rw [recv_eq h htodo] at hst
      obtain rfl := Option.some.inj hst
      have hsettled := h.settled c .rx (by rw [htodo]; exact List.not_mem_nil)
      obtain ⟨-, hsame⟩ := pop_mem hsettled frame
      refine ⟨c.other, rfl, ⟨fun x hx => hsame x fun hin => hx (tail_subset r _ hin),
        fun _ _ => rfl, fun e he => ?_⟩, fun _ _ _ => hsame⟩
      dsimp only
      split_ifs
      · exact Function.update_of_ne he _ _
      · rfl
    · rw [recv_eq_none htodo] at hst
      cases hst

theorem confined (h : ShMem.Inv r s.link) (a : DuplexAct) : Confined r s a := fun _ hst => by
  obtain ⟨d, hd, htouches, htail⟩ := exists_touches h hst
  exact ⟨d, hd, htouches.mem, htail⟩

/-- **Every access stays in its half**, from any memory and in every order of blocks, sends and
receives: a step changes bytes of one direction only, a receiver no more than the tail. -/
theorem along_confined (r : Region) (mem : SharedMemory) (as : List DuplexAct) :
    (machine r).Along (Confined r) (start mem) as :=
  Machine.along_of_step (J := fun s => ShMem.Inv r s.link) (ShMem.inv_start r mem)
    (fun _ a h => confined h a) (fun _ _ _ h hst => inv_step h hst) as

/-! ## The directions do not see each other -/

/-- Which actions are enabled, and which direction they are about, is not read from the memory. -/
theorem exists_step {s' : Duplex} (hinv : ShMem.Inv r s.link) (hinv' : ShMem.Inv r s'.link)
    (htodo : s'.link.todo = s.link.todo) {a : DuplexAct} (hst : step r s a = some t) :
    ∃ t', step r s' a = some t' ∧ t'.link.todo = t.link.todo := by
  cases a with
  | init c =>
    cases hc : s.link.todo c with
    | nil =>
      rw [init_eq_none hc] at hst
      cases hst
    | cons role rest =>
      rw [init_eq hc] at hst
      obtain rfl := Option.some.inj hst
      exact ⟨_, init_eq (htodo ▸ hc), by rw [htodo]⟩
  | send c frame =>
    by_cases hc : s.link.todo c = []
    · rw [send_eq hinv hc] at hst
      obtain rfl := Option.some.inj hst
      exact ⟨_, send_eq hinv' (htodo ▸ hc), htodo⟩
    · rw [send_eq_none hc] at hst
      cases hst
  | recv c frame =>
    by_cases hc : s.link.todo c = []
    · rw [recv_eq hinv hc] at hst
      obtain rfl := Option.some.inj hst
      exact ⟨_, recv_eq hinv' (htodo ▸ hc), htodo⟩
    · rw [recv_eq_none hc] at hst
      cases hst

theorem direction_congr {s' : Duplex} (htodo : s'.link.todo = s.link.todo) (a : DuplexAct) :
    s'.direction a = s.direction a := by
  cases a <;> simp only [direction, htodo]

/-- Two states that agree on what concerns the direction of `d`. -/
structure AgreeOn (r : Region) (d : Core) (s s' : Duplex) : Prop where
  inv : ShMem.Inv r s.link
  inv' : ShMem.Inv r s'.link
  todo : s'.link.todo = s.link.todo
  sent : s'.sent d = s.sent d
  got : s'.got d = s.got d
  mem : Same (r.part d) s.link.mem s'.link.mem

/-- Steps about the direction do the same in both. -/
theorem AgreeOn.same_step {s' t' : Duplex} (h : AgreeOn r d s s')
    (hdata : sizeofBuffer < r.size.toNat / 2) {a : DuplexAct} (hd : s.direction a = some d)
    (hst : step r s a = some t) (hst' : step r s' a = some t') :
    t'.sent d = t.sent d ∧ t'.got d = t.got d ∧ Same (r.part d) t.link.mem t'.link.mem := by
  cases a with
  | init c =>
    cases hc : s.link.todo c with
    | nil =>
      rw [init_eq_none hc] at hst
      cases hst
    | cons role rest =>
      simp only [direction, hc, List.head?_cons, Option.map_some, Option.some.injEq] at hd
      rw [init_eq hc] at hst
      rw [init_eq (h.todo ▸ hc)] at hst'
      obtain rfl := Option.some.inj hst
      obtain rfl := Option.some.inj hst'
      refine ⟨?_, ?_, r.same_block h.mem c role (hd ▸ r.header_subset _)⟩
      · cases role with
        | rx => exact h.sent
        | tx => simp only [if_true, Function.update_apply, h.sent]
      · cases role with
        | rx => exact h.got
        | tx => simp only [if_true, Function.update_apply, h.got]
  | send c frame =>
    obtain rfl := Option.some.inj hd
    by_cases hc : s.link.todo c = []
    · rw [send_eq h.inv hc] at hst
      rw [send_eq h.inv' (h.todo ▸ hc)] at hst'
      obtain rfl := Option.some.inj hst
      obtain rfl := Option.some.inj hst'
      obtain ⟨hret, hmem⟩ := h.mem.push (r.header_subset c) frame
      refine ⟨?_, h.got, hmem⟩
      dsimp only
      rw [hret]
      split_ifs
      · rw [Function.update_self, Function.update_self, h.sent]
      · exact h.sent
    · rw [send_eq_none hc] at hst
      cases hst
  | recv c frame =>
    obtain rfl := Option.some.inj hd
    by_cases hc : s.link.todo c = []
    · rw [recv_eq h.inv hc] at hst
      rw [recv_eq h.inv' (h.todo ▸ hc)] at hst'
      obtain rfl := Option.some.inj hst
      obtain rfl := Option.some.inj hst'
      have hsettled : r.Settled s.link.mem c.other :=
        h.inv.settled c .rx (by rw [hc]; exact List.not_mem_nil)
      have hcells : span (s.link.mem.load (r.header c.other) .buffer)
          (s.link.mem.load (r.header c.other) .size).toNat ⊆ r.part c.other := by
        rw [hsettled.buffer, hsettled.size, Region.toNat_dataSize]
        exact r.data_subset c.other
      have hsize : s.link.mem.load (r.header c.other) .size ≠ 0 := fun h0 => by
        have hnat : (s.link.mem.load (r.header c.other) .size).toNat = 0 := by
          rw [h0]
          rfl
        rw [hsettled.size, Region.toNat_dataSize] at hnat
        omega
      obtain ⟨hret, hframe, hmem⟩ := h.mem.pop (r.header_subset c.other) hcells hsize frame
      refine ⟨h.sent, ?_, hmem⟩
      dsimp only
      rw [hret, hframe]
      split_ifs
      · rw [Function.update_self, Function.update_self, h.got]
      · exact h.got
    · rw [recv_eq_none hc] at hst
      cases hst

theorem AgreeOn.step {s' : Duplex} (h : AgreeOn r d s s')
    (hdata : sizeofBuffer < r.size.toNat / 2) {a : DuplexAct} (hst : step r s a = some t) :
    ∃ t', Duplex.step r s' a = some t' ∧ AgreeOn r d t t' := by
  obtain ⟨t', hst', htodo⟩ := exists_step h.inv h.inv' h.todo hst
  obtain ⟨e, he, htouches, -⟩ := exists_touches h.inv hst
  obtain ⟨e', he', htouches', -⟩ := exists_touches h.inv' hst'
  obtain rfl : e = e' := Option.some.inj (he.symm.trans (direction_congr h.todo a ▸ he'))
  have hrest : t'.sent d = t.sent d ∧ t'.got d = t.got d ∧
      Same (r.part d) t.link.mem t'.link.mem := by
    obtain rfl | hne := eq_or_ne d e
    · exact h.same_step hdata he hst hst'
    · -- both change another half, and this one is as before
      refine ⟨?_, ?_, fun x hx => ?_⟩
      · rw [htouches.sent d hne, htouches'.sent d hne, h.sent]
      · rw [htouches.got d hne, htouches'.got d hne, h.got]
      · have hnot : x ∉ r.part e := Set.disjoint_left.mp (r.disjoint_part hne) hx
        rw [htouches.mem x hnot, htouches'.mem x hnot, h.mem x hx]
  exact ⟨t', hst', inv_step h.inv hst, inv_step h.inv' hst', htodo, hrest.1, hrest.2.1, hrest.2.2⟩

/-- **The directions do not see each other**: from two memories with the same bytes in the half of a
direction, the same actions accept and deliver the same there, whatever the other half holds. -/
theorem exists_run_of_agree {mem mem' : SharedMemory} (hdata : sizeofBuffer < r.size.toNat / 2)
    (hmem : ∀ x ∈ r.part d, mem x = mem' x) {as : List DuplexAct}
    (hrun : (machine r).run (start mem) as = some t) :
    ∃ t', (machine r).run (start mem') as = some t' ∧ t'.sent d = t.sent d ∧ t'.got d = t.got d ∧
      ∀ x ∈ r.part d, t.link.mem x = t'.link.mem x := by
  obtain ⟨t', hrun', h⟩ := Machine.exists_run_of_forward (N := machine r) (AgreeOn r d)
    (s := start mem) (u := start mem')
    ⟨ShMem.inv_start r mem, ShMem.inv_start r mem', rfl, rfl, rfl, hmem⟩
    (fun _ _ _ _ h hst => h.step hdata hst) hrun
  exact ⟨t', hrun', h.sent, h.got, h.mem⟩

end Duplex

/-! ## Two rings that know nothing of each other -/

/-- The blocks each core has still to run, and the ring it sends into once it has set it up. -/
structure Lanes where
  todo : Core → List Role
  lane : Core → Option Traffic

namespace Lanes

def start : Lanes := ⟨Region.blocks, fun _ => none⟩

/-- A sending block sets up a ring of `n` zeroes, a receiving one does nothing; a send is a push
onto the core's own ring, and a receive a pop from the other one's, where there is one. -/
def step (n : ℕ) (l : Lanes) : DuplexAct → Option Lanes
  | .init c =>
      match l.todo c with
      | [] => none
      | .rx :: rest => some { l with todo := Function.update l.todo c rest }
      | .tx :: rest =>
          some ⟨Function.update l.todo c rest,
            Function.update l.lane c (some (Traffic.start (Region.zeroed n)))⟩
  | .send c frame =>
      if l.todo c = [] then
        some { l with
          lane := Function.update l.lane c ((l.lane c).map fun t => t.next (.push frame)) }
      else none
  | .recv c frame =>
      if l.todo c = [] then
        some { l with
          lane := Function.update l.lane c.other
            ((l.lane c.other).map fun t => t.next (.pop frame)) }
      else none

def machine (n : ℕ) : Machine Lanes DuplexAct := ⟨step n⟩

end Lanes

namespace Duplex

variable {r : Region} {s t : Duplex} {l : Lanes} {c d : Core} {frame : CanardCANFrame}

/-- The memory holds the ring of a direction, which has accepted and given what the cores think. -/
structure Carries (r : Region) (s : Duplex) (d : Core) (u : Traffic) : Prop where
  holds : s.link.mem.Holds (r.header d) u.ring
  usable : u.ring.Usable
  sent : s.sent d = u.sent
  got : s.got d = u.got

/-- **The memory follows two rings.** -/
structure Follows (r : Region) (s : Duplex) (l : Lanes) : Prop where
  inv : ShMem.Inv r s.link
  todo : l.todo = s.link.todo
  before : ∀ d, .tx ∈ s.link.todo d → l.lane d = none
  lane : ∀ d, .tx ∉ s.link.todo d → ∃ u, l.lane d = some u ∧ Carries r s d u

/-- A step about another direction changes nothing of what this one carries. -/
theorem Carries.touches {u : Traffic} (h : Carries r s d u) (hsettled : r.Settled s.link.mem d)
    {e : Core} (hne : d ≠ e) (htouches : Touches r e s t) : Carries r t d u where
  holds := h.holds.congr fun x hx => htouches.mem x
    (Set.disjoint_left.mp (r.disjoint_part hne) (hsettled.area_subset hx))
  usable := h.usable
  sent := (htouches.sent d hne).trans h.sent
  got := (htouches.got d hne).trans h.got

/-- A receiving block where the sender has been. -/
theorem mem_of_rx {rest : List Role} (htodo : s.link.todo c = .rx :: rest)
    (hsettled : r.Settled s.link.mem c.other) (hst : step r s (.init c) = some t) :
    t.link.mem = s.link.mem ∧ t.sent = s.sent ∧ t.got = s.got := by
  rw [init_eq htodo, r.block_eq] at hst
  obtain rfl := Option.some.inj hst
  exact ⟨Region.rxBlock_of_settled hsettled, rfl, rfl⟩

/-- The ring that a sending block leaves. -/
theorem carries_init {rest : List Role} (htodo : s.link.todo c = .tx :: rest)
    (hst : step r s (.init c) = some t) :
    Carries r t c (Traffic.start (Region.zeroed (r.size.toNat / 2 - sizeofBuffer))) := by
  rw [init_eq htodo, r.block_eq] at hst
  obtain rfl := Option.some.inj hst
  exact ⟨(Region.txBlock_zeroed r s.link.mem c).2.1, Region.usable_zeroed _,
    Function.update_self .., Function.update_self ..⟩

theorem Carries.send {u : Traffic} (h : Carries r s c u) (hinv : ShMem.Inv r s.link)
    (htodo : s.link.todo c = []) (hst : step r s (.send c frame) = some t) :
    Carries r t c (u.next (.push frame)) := by
  rw [send_eq hinv htodo] at hst
  obtain rfl := Option.some.inj hst
  obtain ⟨hret, -, hholds, husable⟩ := h.holds.push h.usable frame
  refine ⟨hholds, husable, ?_, h.got⟩
  dsimp only [Traffic.next]
  rw [hret]
  split_ifs
  · rw [Function.update_self, h.sent]
  · exact h.sent

theorem Carries.recv {u : Traffic} (h : Carries r s c.other u) (hinv : ShMem.Inv r s.link)
    (htodo : s.link.todo c = []) (hst : step r s (.recv c frame) = some t) :
    Carries r t c.other (u.next (.pop frame)) := by
  rw [recv_eq hinv htodo] at hst
  obtain rfl := Option.some.inj hst
  have hsettled : r.Settled s.link.mem c.other :=
    hinv.settled c .rx (by rw [htodo]; exact List.not_mem_nil)
  obtain ⟨hret, hframe, -, hholds, husable⟩ :=
    h.holds.pop h.usable (size_le hsettled h.holds) frame
  refine ⟨hholds, husable, h.sent, ?_⟩
  dsimp only [Traffic.next]
  rw [hret, hframe]
  split_ifs
  · rw [Function.update_self, h.got]
  · exact h.got

/-- What a step about `e` makes of the ring of `e` is all that it changes. -/
theorem Follows.of_touches (h : Follows r s l) (hinv : ShMem.Inv r t.link) {e : Core}
    (htouches : Touches r e s t) {x : Option Traffic}
    (htodo : ∀ d ≠ e, .tx ∈ t.link.todo d ↔ .tx ∈ s.link.todo d)
    (hbefore : .tx ∈ t.link.todo e → x = none)
    (hlane : .tx ∉ t.link.todo e → ∃ u, x = some u ∧ Carries r t e u) :
    Follows r t ⟨t.link.todo, Function.update l.lane e x⟩ := by
  refine ⟨hinv, rfl, fun d hd => ?_, fun d hd => ?_⟩
  · obtain rfl | hne := eq_or_ne d e
    · exact (Function.update_self ..).trans (hbefore hd)
    · exact (Function.update_of_ne hne _ _).trans (h.before d ((htodo d hne).mp hd))
  · obtain rfl | hne := eq_or_ne d e
    · obtain ⟨u, hu, hcarries⟩ := hlane hd
      exact ⟨u, (Function.update_self ..).trans hu, hcarries⟩
    · have hin : .tx ∉ s.link.todo d := fun hin => hd ((htodo d hne).mpr hin)
      obtain ⟨u, hu, hcarries⟩ := h.lane d hin
      exact ⟨u, (Function.update_of_ne hne _ _).trans hu,
        hcarries.touches (h.inv.filled d hin).toSettled hne htouches⟩

theorem Follows.init (h : Follows r s l) (hst : Duplex.step r s (.init c) = some t) :
    ∃ l', Lanes.step (r.size.toNat / 2 - sizeofBuffer) l (.init c) = some l' ∧ Follows r t l' := by
  have hinv := inv_step h.inv hst
  obtain ⟨e, he, htouches, -⟩ := exists_touches h.inv hst
  cases htodo : s.link.todo c with
  | nil =>
    rw [init_eq_none htodo] at hst
    cases hst
  | cons role rest =>
    simp only [direction, htodo, List.head?_cons, Option.map_some, Option.some.injEq] at he
    have htodo' : t.link.todo = Function.update s.link.todo c rest := by
      rw [init_eq htodo] at hst
      obtain rfl := Option.some.inj hst
      rfl
    have hnodup : (role :: rest).Nodup := htodo ▸ h.inv.nodup c
    cases role with
    | rx =>
      obtain rfl : c.other = e := he
      have hmem (d : Core) : .tx ∈ t.link.todo d ↔ .tx ∈ s.link.todo d := by
        obtain rfl | hne := eq_or_ne d c
        · rw [htodo', Function.update_self, htodo, List.mem_cons]
          simp
        · rw [htodo', Function.update_of_ne hne]
      have hfollows := h.of_touches hinv htouches (fun d _ => hmem d)
        (fun hin => h.before _ ((hmem _).mp hin)) fun hin => by
          have hin' := fun hin' => hin ((hmem _).mpr hin')
          obtain ⟨u, hu, hcarries⟩ := h.lane c.other hin'
          -- the peer has been there, and the block changes nothing
          obtain ⟨hm, hsent, hgot⟩ := mem_of_rx htodo (h.inv.filled _ hin').toSettled hst
          exact ⟨u, hu, hm ▸ hcarries.holds, hcarries.usable, hsent ▸ hcarries.sent,
            hgot ▸ hcarries.got⟩
      rw [Function.update_eq_self, htodo'] at hfollows
      exact ⟨_, by simp only [Lanes.step, h.todo, htodo], hfollows⟩
    | tx =>
      obtain rfl : c = e := he
      have hgone : .tx ∉ t.link.todo c := by
        rw [htodo', Function.update_self]
        exact (List.nodup_cons.mp hnodup).1
      have hfollows := h.of_touches hinv htouches
        (fun d hd => by rw [htodo', Function.update_of_ne hd]) (fun hin => absurd hin hgone)
        fun _ => ⟨_, rfl, carries_init htodo hst⟩
      rw [htodo'] at hfollows
      exact ⟨_, by simp only [Lanes.step, h.todo, htodo], hfollows⟩

theorem Follows.send (h : Follows r s l) (hst : Duplex.step r s (.send c frame) = some t) :
    ∃ l', Lanes.step (r.size.toNat / 2 - sizeofBuffer) l (.send c frame) = some l' ∧
      Follows r t l' := by
  obtain ⟨e, he, htouches, -⟩ := exists_touches h.inv hst
  obtain rfl : c = e := Option.some.inj he
  by_cases htodo : s.link.todo c = []
  · obtain ⟨u, hu, hcarries⟩ := h.lane c (by rw [htodo]; exact List.not_mem_nil)
    have hsend := hcarries.send h.inv htodo hst
    have htodo' : t.link.todo = s.link.todo := by
      rw [send_eq h.inv htodo] at hst
      obtain rfl := Option.some.inj hst
      rfl
    have hfollows := h.of_touches (inv_step h.inv hst) htouches (fun d _ => by rw [htodo'])
      (fun hin => by rw [htodo', htodo] at hin; cases hin) fun _ => ⟨_, rfl, hsend⟩
    refine ⟨_, ?_, hfollows⟩
    rw [Lanes.step, h.todo, if_pos htodo, hu, htodo']
    rfl
  · rw [send_eq_none htodo] at hst
    cases hst

theorem Follows.recv (h : Follows r s l) (hst : Duplex.step r s (.recv c frame) = some t) :
    ∃ l', Lanes.step (r.size.toNat / 2 - sizeofBuffer) l (.recv c frame) = some l' ∧
      Follows r t l' := by
  obtain ⟨e, he, htouches, -⟩ := exists_touches h.inv hst
  obtain rfl : c.other = e := Option.some.inj he
  by_cases htodo : s.link.todo c = []
  · have htodo' : t.link.todo = s.link.todo := by
      rw [recv_eq h.inv htodo] at hst
      obtain rfl := Option.some.inj hst
      rfl
    have hfollows := h.of_touches (inv_step h.inv hst) htouches
      (x := (l.lane c.other).map fun t => t.next (.pop frame)) (fun d _ => by rw [htodo'])
      (fun hin => by rw [h.before _ (htodo' ▸ hin)]; rfl) fun hin => by
        obtain ⟨u, hu, hcarries⟩ := h.lane _ (htodo' ▸ hin)
        exact ⟨_, by rw [hu]; rfl, hcarries.recv h.inv htodo hst⟩
    refine ⟨_, ?_, hfollows⟩
    rw [Lanes.step, h.todo, if_pos htodo, htodo']
  · rw [recv_eq_none htodo] at hst
    cases hst

/-- **A step on the bytes is a step of the rings.** -/
theorem Follows.step (h : Follows r s l) {a : DuplexAct} (hst : Duplex.step r s a = some t) :
    ∃ l', Lanes.step (r.size.toNat / 2 - sizeofBuffer) l a = some l' ∧ Follows r t l' := by
  cases a with
  | init c => exact h.init hst
  | send c frame => exact h.send hst
  | recv c frame => exact h.recv hst

theorem follows_start (r : Region) (mem : SharedMemory) : Follows r (start mem) Lanes.start where
  inv := ShMem.inv_start r mem
  todo := rfl
  before _ _ := rfl
  lane d hd := absurd (by cases d <;> decide : Role.tx ∈ Region.blocks d) hd

/-- **The shared memory is two rings**: whatever it held, every run of the two cores on its bytes is
a run of two rings apart, with the same frames accepted and given in either direction. -/
theorem exists_run_lanes {mem : SharedMemory} {as : List DuplexAct}
    (hrun : (machine r).run (start mem) as = some s) :
    ∃ l, (Lanes.machine (r.size.toNat / 2 - sizeofBuffer)).run Lanes.start as = some l ∧
      Follows r s l :=
  Machine.exists_run_of_forward (Follows r) (follows_start r mem) (fun _ _ _ _ h hst => h.step hst)
    hrun

/-- Every ring set up is one that was powered up. -/
theorem poweredUp_step {n : ℕ} (hn : 0 < n) {a : DuplexAct} {l' : Lanes}
    (ha : ∀ c f, a = .send c f → Traffic.Plain n f) (hst : Lanes.step n l a = some l')
    (h : ∀ d u, l.lane d = some u → Traffic.PoweredUp n u) :
    ∀ d u, l'.lane d = some u → Traffic.PoweredUp n u := by
  -- a lane that an operation is done on, if it is there
  have hmap {c : Core} {op : RingOp} (hop : ∀ f, op = .push f → Traffic.Plain n f) (d : Core)
      (u : Traffic) (hu : Function.update l.lane c ((l.lane c).map fun t => t.next op) d = some u) :
      Traffic.PoweredUp n u := by
    obtain rfl | hne := eq_or_ne d c
    · rw [Function.update_self] at hu
      obtain ⟨v, hv, rfl⟩ := Option.map_eq_some_iff.mp hu
      exact (h d v hv).next hop
    · rw [Function.update_of_ne hne] at hu
      exact h d u hu
  cases a with
  | init c =>
    simp only [Lanes.step] at hst
    split at hst
    · cases hst
    · exact Option.some.inj hst ▸ h
    · obtain rfl := Option.some.inj hst
      intro d u hu
      dsimp only at hu
      obtain rfl | hne := eq_or_ne d c
      · rw [Function.update_self] at hu
        exact Option.some.inj hu ▸
          Traffic.poweredUp_start (b := Region.zeroed n) hn fun _ _ => rfl
      · rw [Function.update_of_ne hne] at hu
        exact h d u hu
  | send c frame =>
    simp only [Lanes.step] at hst
    split_ifs at hst
    exact Option.some.inj hst ▸ hmap fun f hf => ha c f (RingOp.push.inj hf ▸ rfl)
  | recv c frame =>
    simp only [Lanes.step] at hst
    split_ifs at hst
    exact Option.some.inj hst ▸ hmap fun f hf => nomatch hf

/-- **One frame each way**: once a core has set up its ring, whatever the memory held and whatever
both do, the other one gets at most the first frame the core sends, and `send` accepts less than
twice the ring's size, unless an id starts with the header byte or a frame fills the ring to its
last byte. -/
theorem always_got_first {mem : SharedMemory} (hdata : sizeofBuffer < r.size.toNat / 2)
    {as : List DuplexAct}
    (has : ∀ c f, .send c f ∈ as → Traffic.Plain (r.size.toNat / 2 - sizeofBuffer) f) :
    (machine r).Always (fun s => ∀ d, .tx ∉ s.link.todo d →
      s.got d <+: ((s.sent d).take 1).map (·.view) ∧
        (Fifo.bytes (s.sent d)).length < 2 * (r.size.toNat / 2 - sizeofBuffer)) (start mem) as := by
  set n := r.size.toNat / 2 - sizeofBuffer
  have hn : 0 < n := by omega
  refine (Machine.always_of_along
    (J := fun s => ∃ l, Follows r s l ∧ ∀ d u, l.lane d = some u → Traffic.PoweredUp n u)
    (C := fun _ a => ∀ c f, a = .send c f → Traffic.Plain n f)
    ⟨Lanes.start, follows_start r mem, fun _ _ hu => nomatch hu⟩ ?_
    (Machine.along_of_forall_mem ?_)).mono ?_
  · rintro s a t ⟨l, hfollows, hpowered⟩ ha hst
    obtain ⟨l', hl', hfollows'⟩ := hfollows.step hst
    exact ⟨l', hfollows', poweredUp_step hn ha hl' hpowered⟩
  · rintro a ha s c f rfl
    exact has c f ha
  · rintro s ⟨l, hfollows, hpowered⟩ d hd
    obtain ⟨u, hu, hcarries⟩ := hfollows.lane d hd
    rw [hcarries.sent, hcarries.got]
    exact (hpowered d u hu).got_at_most_first

/-! ## A small memory -/

/-- 64 bytes at an address of their own, 16 for each ring. -/
def region64 : Region := ⟨0x1000, 64, by decide⟩

/-- Both cores start up, the CM4 sends, and the CM7 receives. -/
def session64 : List DuplexAct :=
  [.init .cm4, .init .cm7, .init .cm7, .init .cm4, .send .cm4 Fifo.frame2,
    .recv .cm7 Traffic.emptyFrame]

theorem got_session64 : ((machine region64).run (start fun _ => 0) session64).map (·.got .cm4)
    = some [Fifo.frame2.view] := by decide +kernel

theorem exists_run_of_agree_session64 : ∃ t t',
    (machine region64).run (start fun _ => 0) session64 = some t ∧
      (machine region64).run (start fun x => if x ∈ span 0x1000 32 then 0 else 1) session64
        = some t' ∧ t.got .cm4 = [Fifo.frame2.view] ∧
        t'.sent .cm4 = t.sent .cm4 ∧ t'.got .cm4 = t.got .cm4 ∧
        ∀ x ∈ region64.part .cm4, t.link.mem x = t'.link.mem x := by
  obtain ⟨t, hrun, hgot⟩ := Option.map_eq_some_iff.mp got_session64
  obtain ⟨t', hrun', hsame⟩ := @exists_run_of_agree region64 t .cm4 (fun _ => 0)
    (fun x => if x ∈ span 0x1000 32 then 0 else 1) (by decide)
    (fun x (hx : x ∈ span 0x1000 32) => (if_pos hx).symm) session64 hrun
  exact ⟨t, t', hrun, hrun', hgot, hsame⟩

theorem exists_run_lanes_session64 : ∃ s l,
    (machine region64).run (start fun _ => 0) session64 = some s ∧
      s.got .cm4 = [Fifo.frame2.view] ∧
      (Lanes.machine 16).run Lanes.start session64 = some l ∧ Follows region64 s l := by
  obtain ⟨s, hrun, hgot⟩ := Option.map_eq_some_iff.mp got_session64
  obtain ⟨l, hlanes, hfollows⟩ := @exists_run_lanes region64 s (fun _ => 0) session64 hrun
  exact ⟨s, l, hrun, hgot, hlanes, hfollows⟩

theorem always_got_first_session64 :
    (((machine region64).run (start fun _ => 0) session64).map (·.got .cm4)
      = some [Fifo.frame2.view]) ∧
    (machine region64).Always (fun s => ∀ d, .tx ∉ s.link.todo d →
      s.got d <+: ((s.sent d).take 1).map (·.view) ∧ (Fifo.bytes (s.sent d)).length < 2 * 16)
      (start fun _ => 0) session64 :=
  ⟨got_session64, always_got_first (r := region64) (by decide) (by
    intro c f hf
    have hframe : c = .cm4 ∧ f = Fifo.frame2 := by simpa [session64] using hf
    rw [hframe.2]
    exact ⟨by decide, by decide⟩)⟩

end Duplex

end LibDronecan
