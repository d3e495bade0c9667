import LibDronecan.DataIface.RawStall
import LibDronecan.Machinery.FiniteLoop

/-!
# DataIface/RawDrain — the inner loop of `ShMemIface::update_rx`

    while (true) { if (!rx_buf->pop(frame)) break;  rx_cbs(frame); }

While nobody pushes, a pop moves the tail and nothing else, so the tails the loop meets decide how
it goes on.  There are `size` of them: the loop leaves within `size` turns, on a ring that is empty
or stalled, or it calls `rx_cbs` for ever (`exists_loop_drainTurn_iff`).  It does the latter when
one frame and the byte `pop` steps over behind it go once round the ring (`drain_spins`).
-/

open Machinery

namespace LibDronecan

open Buffer

/-- A pop at a header follows the length byte it finds. -/
theorem Buffer.pop_of_header {b : Buffer} (hne : b.available ≠ 0)
    (hheader : b.peekbyte 0 = frameHeader1) (frame : CanardCANFrame) : ∃ frame',
      b.pop frame = (true, frame', b.advance ((b.peekbyte 5).toNat + frameSizeWithoutData)) := by
  refine ⟨(b.pop frame).2.1, ?_⟩
  rw [pop, if_neg hne, if_neg (not_not.mpr hheader)]
  rfl

/-- The locals of the loop, and what `rx_cbs` was called with. -/
structure Drain where
  ring : Buffer
  frame : CanardCANFrame
  got : List (Word × Byte × List Byte)

/-- One turn. -/
def drainTurn (s : Drain) : Turn Drain Drain :=
  let (ret, frame, ring) := s.ring.pop s.frame
  if ret then .again ⟨ring, frame, s.got ++ [frame.view]⟩ else .leave ⟨ring, frame, s.got⟩

variable {s t r : Drain}

/-- **A turn**: it goes on from a header in the unread bytes, with the tail moved and the rest of
the ring as it was; or it leaves an empty or a stalled ring as it is. -/
theorem drainTurn_cases (hs : s.ring.Wf) :
    (∃ k frame, k = (s.ring.peekbyte 5).toNat + frameSizeWithoutData ∧
        s.ring.available ≠ 0 ∧ s.ring.peekbyte 0 = frameHeader1 ∧
        drainTurn s = .again ⟨s.ring.advance k, frame, s.got ++ [frame.view]⟩) ∨
      ((s.ring.available = 0 ∨ s.ring.Stalled) ∧ drainTurn s = .leave s) := by
  by_cases h0 : s.ring.available = 0
  · refine Or.inr ⟨Or.inl h0, ?_⟩
    simp only [drainTurn, pop_of_available_eq_zero h0, Bool.false_eq_true, if_false]
  by_cases hheader : s.ring.peekbyte 0 = frameHeader1
  · obtain ⟨frame, hpop⟩ := pop_of_header h0 hheader s.frame
    exact Or.inl ⟨_, frame, rfl, h0, hheader, by simp only [drainTurn, hpop, if_true]⟩
  · refine Or.inr ⟨Or.inr ⟨hs, Nat.pos_of_ne_zero h0, hheader⟩, ?_⟩
    simp only [drainTurn, pop_of_peekbyte_ne hheader, Bool.false_eq_true, if_false]

/-- `t` is `s` with its tail moved. -/
structure TailMoved (s t : Drain) : Prop where
  wf : t.ring.Wf
  buffer : t.ring.buffer = s.ring.buffer
  size : t.ring.size = s.ring.size
  head : t.ring.head = s.ring.head

/-- Rings that differ by nothing but their tails are the same at the same tail. -/
theorem TailMoved.ring_eq {s' : Drain} (h : TailMoved r s) (h' : TailMoved r s')
    (htail : s.ring.tail = s'.ring.tail) : s.ring = s'.ring := by
  obtain ⟨-, hb, hs, hh⟩ := h
  obtain ⟨-, hb', hs', hh'⟩ := h'
  cases hr : s.ring
  cases hr' : s'.ring
  simp_all

theorem TailMoved.again (h : TailMoved r s) (ht : drainTurn s = .again t) : TailMoved r t := by
  obtain ⟨k, frame, -, -, -, heq⟩ | ⟨-, heq⟩ := drainTurn_cases h.wf
  · obtain rfl := Turn.again.inj (heq.symm.trans ht)
    exact ⟨h.wf.advance k, h.buffer, h.size, h.head⟩
  · cases heq.symm.trans ht

/-- The tail decides. -/
theorem TailMoved.again_tail {s' : Drain} (h : TailMoved r s) (h' : TailMoved r s')
    (htail : s.ring.tail = s'.ring.tail) (ht : drainTurn s = .again t) :
    ∃ t', drainTurn s' = .again t' ∧ t.ring.tail = t'.ring.tail := by
  have hring := h.ring_eq h' htail
  obtain ⟨k, frame, rfl, hav, hheader, heq⟩ | ⟨-, heq⟩ := drainTurn_cases h.wf
  · obtain rfl := Turn.again.inj (heq.symm.trans ht)
    rw [hring] at hav hheader
    obtain ⟨k', frame', rfl, -, -, heq'⟩ | ⟨hend, -⟩ := drainTurn_cases h'.wf
    · exact ⟨_, heq', by rw [hring]⟩
    · obtain h0 | hstall := hend
      · exact absurd h0 hav
      · exact absurd hheader hstall.header_ne
  · cases heq.symm.trans ht

/-- The frames delivered are fewer than the turns taken. -/
theorem length_got_lt {n : ℕ} (hs : s.ring.Wf) (h : loop drainTurn n s = some r) :
    r.got.length < s.got.length + n := by
  induction n generalizing s with
  | zero => cases h
  | succ n ih =>
    obtain ⟨k, frame, -, -, -, heq⟩ | ⟨-, heq⟩ := drainTurn_cases hs
    · rw [loop_of_again heq] at h
      have := ih (hs.advance k) h
      rw [List.length_append, List.length_singleton] at this
      omega
    · rw [loop_of_leave heq] at h
      obtain rfl := Option.some.inj h
      omega

/-- **The receive loop leaves within `size` turns or never**, and it leaves a ring that is empty or
stalled. -/
theorem exists_loop_drainTurn_iff (hs : s.ring.Wf) :
    (∃ n r, loop drainTurn n s = some r) ↔
      ∃ r, loop drainTurn s.ring.size s = some r ∧ (r.ring.available = 0 ∨ r.ring.Stalled) ∧
        r.got.length < s.got.length + s.ring.size := by
  refine ⟨fun ⟨n, r, h⟩ => ?_, fun ⟨r, h, _⟩ => ⟨_, r, h⟩⟩
  have hself : TailMoved s s := ⟨hs, rfl, rfl, rfl⟩
  have hsize : loop drainTurn s.ring.size s = some r :=
    loop_of_key (P := TailMoved s) (fun _ _ h ht => h.again ht) (fun _ h => h.size ▸ h.wf.tail_lt)
      (fun _ _ _ h h' => h.again_tail h') hself h
  refine ⟨r, hsize, ?_, length_got_lt hs hsize⟩
  refine loop_induct (P := TailMoved s) (Q := fun r => r.ring.available = 0 ∨ r.ring.Stalled)
    (fun _ _ h ht => h.again ht) (fun u r hu hr => ?_) hself h
  obtain ⟨k, frame, -, -, -, heq⟩ | ⟨hend, heq⟩ := drainTurn_cases hu.wf
  · cases heq.symm.trans hr
  · exact Turn.leave.inj (heq.symm.trans hr) ▸ hend

/-- Two frames queued in the zeroed ring: the loop is out of it well within 32 turns. -/
theorem exists_loop_drainTurn_ring32 :
    ∃ r, loop drainTurn 32 ⟨((Fifo.ring32.push Fifo.frame2).2.push Fifo.frame2).2, Fifo.frame2, []⟩
        = some r ∧ (r.ring.available = 0 ∨ r.ring.Stalled) ∧ r.got.length < 0 + 32 :=
  (@exists_loop_drainTurn_iff
    ⟨((Fifo.ring32.push Fifo.frame2).2.push Fifo.frame2).2, Fifo.frame2, []⟩
    ⟨by decide, by decide⟩).mp ⟨2, _, rfl⟩

/-- **A frame that leaves one byte free is delivered for ever**: `push` accepts it on an empty ring,
the pop of it takes the tail once round, and the loop finds it there again. -/
theorem drain_spins {b : Buffer} (hb : b.Wf) (hempty : b.available = 0) {f : CanardCANFrame}
    (hf : f.len + 7 = b.size) (frame : CanardCANFrame) (n : ℕ) :
    (b.push f).1 = true ∧ ∃ t, after drainTurn n ⟨(b.push f).2, frame, []⟩ = some t ∧
      t.ring = (b.push f).2 ∧ t.got = List.replicate n f.view := by
  have hfits : b.available + (encode f).length < b.size := by rw [length_encode]; omega
  have hpush : (b.push f).1 = true := (push_fst hb f).mpr hfits
  have hnone : b.unread = [] := List.eq_nil_of_length_eq_zero (by rw [length_unread, hempty])
  have hunread : (b.push f).2.unread = encode f ++ [] := by
    rw [push_of_fst hpush, unread_pushBytes hb _ hfits, hnone, List.append_nil, List.nil_append]
  have hround : (b.push f).2.advance (f.len + frameSizeWithoutData) = (b.push f).2 := by
    have htail : (f.len + frameSizeWithoutData + (b.pushBytes (encode f)).tail)
        % (b.pushBytes (encode f)).size = (b.pushBytes (encode f)).tail := by
      rw [pushBytes_tail, pushBytes_size, show f.len + frameSizeWithoutData = b.size from hf,
        Nat.add_mod_left, Nat.mod_eq_of_lt hb.tail_lt]
    rw [push_of_fst hpush, Buffer.advance, htail]
  have hturn (frame : CanardCANFrame) (got : List (Word × Byte × List Byte)) :
      ∃ frame', drainTurn ⟨(b.push f).2, frame, got⟩
        = .again ⟨(b.push f).2, frame', got ++ [f.view]⟩ := by
    obtain ⟨hret, hview, hadv⟩ := pop_of_unread f frame hunread
    rw [hround] at hadv
    exact ⟨_, by simp only [drainTurn, hret, hview, hadv, if_true]; rfl⟩
  refine ⟨hpush, ?_⟩
  suffices h : ∀ frame got, ∃ t, after drainTurn n ⟨(b.push f).2, frame, got⟩ = some t ∧
      t.ring = (b.push f).2 ∧ t.got = got ++ List.replicate n f.view from h frame []
  induction n with
  | zero => exact fun frame got => ⟨_, rfl, rfl, (List.append_nil got).symm⟩
  | succ n ih =>
    intro frame got
    obtain ⟨frame', heq⟩ := hturn frame got
    obtain ⟨t, ht, hring, hgot⟩ := ih frame' (got ++ [f.view])
    refine ⟨t, (after_of_again heq n).trans ht, hring, ?_⟩
    rw [hgot, List.append_assoc, List.singleton_append, List.replicate_succ]

/-- Two bytes of payload in a ring of nine. -/
theorem drain_spins_ring9 :
    let b : Buffer := { Fifo.ring32 with size := 9 }
    (b.push Fifo.frame2).1 = true ∧
      ∃ t, after drainTurn 20 ⟨(b.push Fifo.frame2).2, Fifo.frame2, []⟩ = some t ∧
        t.ring = (b.push Fifo.frame2).2 ∧ t.got = List.replicate 20 Fifo.frame2.view :=
  drain_spins ⟨by decide, by decide⟩ (by decide) (by decide) Fifo.frame2 20

end LibDronecan
