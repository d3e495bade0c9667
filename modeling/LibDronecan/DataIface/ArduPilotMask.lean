import LibDronecan.DataIface.ArduPilot
import LibDronecan.Machinery.Mask
import LibDronecan.Machinery.Run

/-!
# DataIface/ArduPilotMask — which instances still have to send a frame

    iface_mask   …0101        bit i: instance i has not sent it yet

    sent      mask &= ~(1U < i)         the comparison, for 1U << i
    else      mask &= ~(1U << i)        too late, not asked, or the driver not ready

The instances share the frame and each is to take its own bit out, once the driver has the frame or
the deadline has passed.  The branch of a frame sent compares where it should shift: instances 0
and 1 stay in the mask, and the others put instance 0 out of it.  The branch of a missed deadline is
also that of a driver that is not ready yet.  Otherwise the mask is right (`maskOk_iff`).
-/

open Machinery Machinery.Mask

namespace LibDronecan

namespace ArduPilotIface

/-- A call of `send` on a shared frame: the instance, what its driver answers, and its local. -/
structure SendCall where
  inst : Fin 32
  drv : Driver
  txmsg : HalFrame

variable (hal : ApHal)

/-- The frame as the call leaves it. -/
def afterSend (f : CanFdFrame) (a : SendCall) : CanFdFrame := (send hal a.inst a.drv a.txmsg f).2.1

/-- The driver accepts the frame. -/
def Accepted (f : CanFdFrame) (a : SendCall) : Prop :=
  (send hal a.inst a.drv a.txmsg f).2.2.isSome = true

/-- The deadline has passed. -/
def Expired (f : CanFdFrame) (a : SendCall) : Prop := f.deadlineUsec ≤ a.drv.micros64

instance (f : CanFdFrame) (a : SendCall) : Decidable (Accepted hal f a) :=
  inferInstanceAs (Decidable (_ = true))

instance (f : CanFdFrame) (a : SendCall) : Decidable (Expired f a) :=
  inferInstanceAs (Decidable (_ ≤ _))

/-- **A call keeps the mask right**: the bits of the other instances as they were, its own cleared
if the frame was accepted or has expired, and else all as it was. -/
structure MaskOk (f : CanFdFrame) (a : SendCall) : Prop where
  others : ∀ i : ℕ, i ≠ a.inst → (i ∈ (afterSend hal f a).ifaceMask ↔ i ∈ f.ifaceMask)
  cleared : Accepted hal f a ∨ Expired f a → (a.inst : ℕ) ∉ (afterSend hal f a).ifaceMask
  kept : ¬ (Accepted hal f a ∨ Expired f a) → (afterSend hal f a).ifaceMask = f.ifaceMask

/-- The frame is not the instance's to send; or it has expired, or the driver is ready and refuses
it.  Without a driver it has not expired. -/
def Harmless (f : CanFdFrame) (a : SendCall) : Prop :=
  (a.inst : ℕ) ∉ f.ifaceMask ∨
    if a.drv.present = true then Expired f a ∨ (a.drv.selected = true ∧ a.drv.sendRet ≤ 0)
    else ¬ Expired f a

/-- Calls of `send` on one frame, by any instances. -/
def sends : Machine CanFdFrame SendCall := ⟨fun f a => some (afterSend hal f a)⟩

/-- **A frame leaves the mask of an instance only by being sent there, or expiring.** -/
def LeavesBySending (f : CanFdFrame) (calls : List SendCall) : Prop :=
  ∀ t, (sends hal).run f calls = some t → ∀ i ∈ f.ifaceMask, i ∉ t.ifaceMask →
    ∃ before a later u, calls = before ++ a :: later ∧ (sends hal).run f before = some u ∧
      (a.inst : ℕ) = i ∧ i ∈ u.ifaceMask ∧ (Accepted hal u a ∨ Expired u a)

variable {hal} {f t : CanFdFrame} {a : SendCall} {calls : List SendCall}

/-! ## One call -/

/-- The bit of an instance. -/
theorem mem_own {i j : ℕ} (hi : i < 32) : j ∈ (1 : Word) <<< i ↔ j = i := mem_twoPow hi

/-- What the branch of a frame sent takes out of the mask. -/
theorem mem_compared {i j : ℕ} : j ∈ (if 1 < i then 1 else 0 : Word) ↔ 1 < i ∧ j = 0 := by
  split_ifs with hi
  · have hone : (1 : Word) = BitVec.twoPow 32 0 := by decide
    rw [hone, mem_twoPow (by decide)]
    exact (and_iff_right hi).symm
  · exact iff_of_false notMem_zero fun h => hi h.1

/-- **What a call can do.** -/
theorem send_cases (f : CanFdFrame) (a : SendCall) :
    (a.drv.present = false ∧ ¬ Accepted hal f a ∧ afterSend hal f a = f) ∨
    (a.drv.present = true ∧ ¬ Expired f a ∧ (a.inst : ℕ) ∈ f.ifaceMask ∧ a.drv.selected = true ∧
      ((0 < a.drv.sendRet ∧ Accepted hal f a ∧ ∀ i, i ∈ (afterSend hal f a).ifaceMask ↔
          i ∈ f.ifaceMask ∧ ¬ (1 < (a.inst : ℕ) ∧ i = 0)) ∨
        (a.drv.sendRet ≤ 0 ∧ ¬ Accepted hal f a ∧ afterSend hal f a = f))) ∨
    (a.drv.present = true ∧ (Expired f a ∨ (a.inst : ℕ) ∉ f.ifaceMask ∨ a.drv.selected = false) ∧
      ¬ Accepted hal f a ∧
      ∀ i, i ∈ (afterSend hal f a).ifaceMask ↔ i ∈ f.ifaceMask ∧ i ≠ a.inst) := by
  have hbit : f.ifaceMask &&& (1 : Word) <<< (a.inst : ℕ) ≠ 0 ↔ (a.inst : ℕ) ∈ f.ifaceMask := by
    simp only [and_ne_zero_iff, mem_own a.inst.isLt, exists_eq_right]
  have hexpired : a.drv.micros64 < f.deadlineUsec ↔ ¬ Expired f a := BitVec.not_le.symm
  have hguard := and_congr hexpired (and_congr_left' (c := a.drv.selected = true) hbit)
  unfold afterSend Accepted send
  by_cases hpresent : a.drv.present = false
  · rw [if_pos hpresent]
    exact .inl ⟨hpresent, Bool.false_ne_true, rfl⟩
  rw [if_neg hpresent]
  rw [Bool.not_eq_false] at hpresent
  refine .inr ?_
  by_cases hsend : ¬ Expired f a ∧ (a.inst : ℕ) ∈ f.ifaceMask ∧ a.drv.selected = true
  · rw [if_pos (hguard.mpr hsend)]
    obtain ⟨hlive, hown, hready⟩ := hsend
    refine .inl ⟨hpresent, hlive, hown, hready, ?_⟩
    by_cases hret : a.drv.sendRet > 0
    · rw [if_pos hret]
      refine .inl ⟨hret, rfl, fun i => ?_⟩
      exact mem_and_not.trans (and_congr_right fun _ => not_congr mem_compared)
    · rw [if_neg hret]
      exact .inr ⟨not_lt.mp hret, Bool.false_ne_true, rfl⟩
  · rw [if_neg (hguard.not.mpr hsend)]
    refine .inr ⟨hpresent, ?_, Bool.false_ne_true, fun i => ?_⟩
    · rwa [not_and_or, not_and_or, not_not, Bool.not_eq_true] at hsend
    · exact mem_and_not.trans (and_congr_right fun _ => not_congr (mem_own a.inst.isLt))

/-- A call that leaves the frame alone is right unless it has expired there. -/
theorem maskOk_iff_of_same (hacc : ¬ Accepted hal f a) (hsame : afterSend hal f a = f) :
    MaskOk hal f a ↔ ((a.inst : ℕ) ∉ f.ifaceMask ∨ ¬ Expired f a) := by
  constructor
  · intro h
    refine or_iff_not_imp_right.mpr fun hlate => ?_
    have hout := h.cleared (Or.inr (not_not.mp hlate))
    rwa [hsame] at hout
  · intro h
    refine ⟨fun i _ => by rw [hsame], fun hgone => ?_, fun _ => by rw [hsame]⟩
    rw [hsame]
    exact h.resolve_right (not_not.mpr (hgone.resolve_left hacc))

/-- A call that takes its own bit out, and does not send, is right if the frame has expired or was
not its own. -/
theorem maskOk_iff_of_out (hacc : ¬ Accepted hal f a)
    (hmask : ∀ i, i ∈ (afterSend hal f a).ifaceMask ↔ i ∈ f.ifaceMask ∧ i ≠ a.inst) :
    MaskOk hal f a ↔ ((a.inst : ℕ) ∉ f.ifaceMask ∨ Expired f a) := by
  have hcleared : (a.inst : ℕ) ∉ (afterSend hal f a).ifaceMask :=
    fun hin => ((hmask _).mp hin).2 rfl
  constructor
  · intro h
    refine or_iff_not_imp_right.mpr fun hlive hown => hcleared ?_
    rwa [h.kept (not_or.mpr ⟨hacc, hlive⟩)]
  · intro h
    refine ⟨fun i hi => (hmask i).trans (and_iff_left hi), fun _ => hcleared, fun hstays => ?_⟩
    have hnotOwn := h.resolve_right fun hlate => hstays (Or.inr hlate)
    exact ext_mem fun i => (hmask i).trans
      (and_iff_left_of_imp fun hi => ne_of_mem_of_not_mem hi hnotOwn)

/-- A call that sends the frame is never right: the bit of its instance stays. -/
theorem not_maskOk_of_accepted (hacc : Accepted hal f a) (hown : (a.inst : ℕ) ∈ f.ifaceMask)
    (hmask : ∀ i, i ∈ (afterSend hal f a).ifaceMask ↔
      i ∈ f.ifaceMask ∧ ¬ (1 < (a.inst : ℕ) ∧ i = 0)) : ¬ MaskOk hal f a := by
  intro h
  refine h.cleared (Or.inl hacc) ((hmask _).mpr ⟨hown, ?_⟩)
  rintro ⟨hlt, hzero⟩
  omega

/-- **The mask is right exactly after a harmless call.** -/
theorem maskOk_iff (f : CanFdFrame) (a : SendCall) : MaskOk hal f a ↔ Harmless f a := by
  obtain ⟨hpresent, hacc, hsame⟩ | ⟨hpresent, hlive, hown, hready, hcase⟩ |
    ⟨hpresent, hout, hacc, hmask⟩ := @send_cases hal f a
  · rw [maskOk_iff_of_same hacc hsame]
    simp only [Harmless, hpresent, Bool.false_eq_true, if_false]
  · simp only [Harmless, hpresent, if_true]
    obtain ⟨hret, hacc, hmask⟩ | ⟨hret, hacc, hsame⟩ := hcase
    · refine iff_of_false (not_maskOk_of_accepted hacc hown hmask) ?_
      rintro (hout | hlate | ⟨-, hrefused⟩)
      · exact hout hown
      · exact hlive hlate
      · omega
    · rw [maskOk_iff_of_same hacc hsame]
      exact iff_of_true (Or.inr hlive) (Or.inr (Or.inr ⟨hready, hret⟩))
  · rw [maskOk_iff_of_out hacc hmask]
    simp only [Harmless, hpresent, if_true]
    constructor
    · exact Or.imp_right Or.inl
    · rintro (hnotOwn | hlate | ⟨hready, -⟩)
      · exact Or.inl hnotOwn
      · exact Or.inr hlate
      · -- ready, so it is the deadline or the mask that kept it from being sent
        obtain hlate | hnotOwn | hbusy := hout
        · exact Or.inr hlate
        · exact Or.inl hnotOwn
        · rw [hready] at hbusy
          cases hbusy

/-! ## Calls by several instances -/

/-- A bit that a call takes out of a mask it keeps right is the call's own. -/
theorem MaskOk.leaves (h : MaskOk hal f a) {i : ℕ} (hi : i ∈ f.ifaceMask)
    (hgone : i ∉ (afterSend hal f a).ifaceMask) :
    (a.inst : ℕ) = i ∧ (Accepted hal f a ∨ Expired f a) := by
  have hown : i = a.inst := by
    by_contra hne
    exact hgone ((h.others i hne).mpr hi)
  refine ⟨hown.symm, ?_⟩
  by_contra hstays
  rw [h.kept hstays] at hgone
  exact hgone hi

/-- **While every call keeps the mask right, a frame leaves it only by being sent or expiring.** -/
theorem leavesBySending_of_along (h : (sends hal).Along (MaskOk hal) f calls) :
    LeavesBySending hal f calls := by
  induction calls generalizing f with
  | nil =>
    intro t ht i hi hgone
    obtain rfl := Option.some.inj ht
    exact absurd hi hgone
  | cons a calls ih =>
    obtain ⟨hok, hrest⟩ := h
    intro t ht i hi hgone
    by_cases hstill : i ∈ (afterSend hal f a).ifaceMask
    · obtain ⟨before, b, later, u, rfl, hrun, hb⟩ := ih (hrest _ rfl) t ht i hstill hgone
      exact ⟨a :: before, b, later, u, rfl, hrun, hb⟩
    · obtain ⟨hinst, hwhy⟩ := hok.leaves hi hstill
      exact ⟨[], a, calls, f, rfl, rfl, hinst, hi, hwhy⟩

/-- **Every call keeps the mask right exactly if every call is harmless**; and then the frame leaves
the mask of an instance only by being sent there, or expiring. -/
theorem along_maskOk_iff (hal : ApHal) (f : CanFdFrame) (calls : List SendCall) :
    ((sends hal).Along (MaskOk hal) f calls ↔ (sends hal).Along Harmless f calls) ∧
      ((sends hal).Along Harmless f calls → LeavesBySending hal f calls) := by
  have hiff : (sends hal).Along (MaskOk hal) f calls ↔ (sends hal).Along Harmless f calls :=
    Machine.along_iff_along (J := fun _ => True) trivial (fun f a _ => maskOk_iff f a)
      fun _ _ _ _ _ _ => trivial
  exact ⟨hiff, fun h => leavesBySending_of_along (hiff.mpr h)⟩

/-- A frame for instances 0 and 2. -/
def forTwo : CanFdFrame := { toSend 8 with ifaceMask := 5 }

/-- **A frame sent stays in the mask, or leaves another's**: sent on instance 2, it is there to be
sent again, and instance 0 is out; and where the driver is not ready, it is gone. -/
theorem not_forall_maskOk :
    (¬ ∀ (f : CanFdFrame) (a : SendCall), a.drv.present = true → Accepted codesOnly f a →
      MaskOk codesOnly f a) ∧
    ¬ ∀ (f : CanFdFrame) (a : SendCall), a.drv.present = true → ¬ Accepted codesOnly f a →
      MaskOk codesOnly f a := by
  constructor
  · intro h
    have hok := h forTwo ⟨2, accepting, blank⟩ rfl (by decide)
    exact absurd ((hok.others 0 (by decide)).mpr (by decide)) (by decide)
  · intro h
    have hok := h forTwo ⟨2, { accepting with selected := false }, blank⟩ rfl (by decide)
    exact absurd (hok.kept (by decide)) (by decide)

end ArduPilotIface

end LibDronecan
