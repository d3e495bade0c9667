import LibDronecan.Machinery.Run
import LibDronecan.Pal.Micros

/-!
# Pal/MicrosRace — `micros64` called by several threads

    A   read 100 ────────────────────────── update: 100 < 101, one wrap more
    B              read 101 ── update

Nothing holds the statics between a thread's reading and its use, so a thread may come with a
reading older than the one stored, and the comparison takes it for one from after a wrap.  As long
as the readings come to the statics in the order they were made, the count stays behind the wraps
there were (`always_countOk`).
-/

open Machinery

namespace LibDronecan

/-- Time passing, or one of the two steps of a call by a thread. -/
inductive MicrosAct (θ : Type*) where
  | tick (ticks : ℕ)
  | read (thread : θ)
  | update (thread : θ)

/-- The ticks since the start, the statics, and for each thread in a call those of its reading;
those of the last reading made, and of the reading last stored. -/
structure MicrosRace (θ : Type*) where
  ticks : ℕ
  statics : Statics
  reading : θ → Option ℕ
  sampledAt : ℕ
  storedAt : ℕ

namespace MicrosRace

variable {θ : Type*} [DecidableEq θ]

omit [DecidableEq θ] in
/-- As the program starts, no thread in a call. -/
def start : MicrosRace θ := ⟨0, .start, fun _ => none, 0, 0⟩

/-- One step.  A thread that is not in a call begins one by reading the counter. -/
def step (F : ℕ) (s : MicrosRace θ) : MicrosAct θ → Option (MicrosRace θ)
  | .tick n => some { s with ticks := s.ticks + n }
  | .read thread =>
      match s.reading thread with
      | some _ => none
      | none =>
          some { s with
            reading := Function.update s.reading thread (some s.ticks)
            sampledAt := s.ticks }
  | .update thread =>
      match s.reading thread with
      | none => none
      | some t =>
          some { s with
            statics := (s.statics.update (micros32 F t)).2
            reading := Function.update s.reading thread none
            storedAt := t }

/-- The threads' steps in any order, and time passing at any point. -/
def machine (F : ℕ) : Machine (MicrosRace θ) (MicrosAct θ) := ⟨step F⟩

omit [DecidableEq θ] in
/-- **No more wraps are counted than there were.** -/
def CountOk (F : ℕ) (s : MicrosRace θ) : Prop :=
  s.statics.overflowCount.toNat ≤ elapsed F s.ticks / 2 ^ 32

omit [DecidableEq θ] in
/-- The counter is read more often than every `2³²` microseconds. -/
def Sampled (F : ℕ) (s : MicrosRace θ) : MicrosAct θ → Prop
  | .tick n => elapsed F (s.ticks + n - s.sampledAt) < 2 ^ 32
  | _ => True

omit [DecidableEq θ] in
/-- A thread comes to the statics with a reading no older than the one stored. -/
def InOrder (s : MicrosRace θ) : MicrosAct θ → Prop
  | .update thread => ∀ t ∈ s.reading thread, s.storedAt ≤ t
  | _ => True

instance (F : ℕ) (s : MicrosRace θ) : Decidable (CountOk F s) :=
  inferInstanceAs (Decidable (_ ≤ _))

instance (F : ℕ) (s : MicrosRace θ) : ∀ a, Decidable (Sampled F s a)
  | .tick _ => inferInstanceAs (Decidable (_ < _))
  | .read _ => inferInstanceAs (Decidable True)
  | .update _ => inferInstanceAs (Decidable True)

instance (s : MicrosRace θ) : ∀ a, Decidable (InOrder s a)
  | .tick _ => inferInstanceAs (Decidable True)
  | .read _ => inferInstanceAs (Decidable True)
  | .update thread => inferInstanceAs (Decidable (∀ t ∈ s.reading thread, s.storedAt ≤ t))

/-- **The invariant**: no reading is from the future, and the statics hold the reading stored and at
most the wraps there were until then. -/
structure Held (F : ℕ) (s : MicrosRace θ) : Prop where
  past : ∀ thread t, s.reading thread = some t → t ≤ s.ticks
  storedPast : s.storedAt ≤ s.ticks
  lastTime : s.statics.lastTime.toNat = elapsed F s.storedAt % 2 ^ 32
  count : s.statics.overflowCount.toNat ≤ elapsed F s.storedAt / 2 ^ 32

variable {F : ℕ} {s t : MicrosRace θ}

omit [DecidableEq θ] in
theorem held_start : Held F (start : MicrosRace θ) where
  past _ _ h := nomatch h
  storedPast := Nat.le_refl 0
  lastTime := by
    rw [start, elapsed, Nat.zero_mul]
    rfl
  count := Nat.zero_le _

omit [DecidableEq θ] in
theorem Held.countOk (h : Held F s) : CountOk F s :=
  h.count.trans (Nat.div_le_div_right (Nat.mul_le_mul_right _ h.storedPast))

/-- **A later reading counts a wrap only where there was one.** -/
theorem count_update {st : Statics} {u u' : ℕ} {time : BitVec 32}
    (hlast : st.lastTime.toNat = u % 2 ^ 32) (hcount : st.overflowCount.toNat ≤ u / 2 ^ 32)
    (htime : time.toNat = u' % 2 ^ 32) (hle : u ≤ u') :
    (st.update time).2.overflowCount.toNat ≤ u' / 2 ^ 32 := by
  simp only [Statics.update]
  split_ifs with hwrap
  · rw [BitVec.lt_def, htime, hlast] at hwrap
    have hsucc : (st.overflowCount + 1).toNat ≤ st.overflowCount.toNat + 1 := by
      rw [BitVec.toNat_add]
      exact Nat.mod_le _ _
    omega
  · omega

theorem Held.step (h : Held F s) {a : MicrosAct θ} (horder : InOrder s a)
    (hst : (machine F).step s a = some t) : Held F t := by
  cases a with
  | tick n =>
    obtain rfl := Option.some.inj hst
    exact { h with
      past := fun thread t ht => (h.past thread t ht).trans (Nat.le_add_right _ n)
      storedPast := h.storedPast.trans (Nat.le_add_right _ n) }
  | read thread =>
    simp only [machine, MicrosRace.step] at hst
    split at hst <;> cases hst
    refine { h with past := fun thread' t ht => ?_ }
    change Function.update s.reading thread (some s.ticks) thread' = some t at ht
    rw [Function.update_apply] at ht
    split_ifs at ht
    · exact (Option.some.inj ht).ge
    · exact h.past thread' t ht
  | update thread =>
    simp only [machine, MicrosRace.step] at hst
    split at hst <;> cases hst
    case _ t ht =>
    have hle : elapsed F s.storedAt ≤ elapsed F t := Nat.mul_le_mul_right _ (horder t ht)
    refine ⟨fun thread' t' ht' => ?_, h.past thread t ht, toNat_micros32 F t,
      count_update h.lastTime h.count (toNat_micros32 F t) hle⟩
    change Function.update s.reading thread none thread' = some t' at ht'
    rw [Function.update_apply] at ht'
    split_ifs at ht'
    exact h.past thread' t' ht'

/-- **While the readings are stored in the order they were made, no wrap is counted that was not
there**, whatever the threads and however long they are held up. -/
theorem always_countOk {acts : List (MicrosAct θ)} (h : (machine F).Along InOrder start acts) :
    (machine F).Always (CountOk F) start acts :=
  (Machine.always_of_along held_start (fun _ _ _ hs horder hst => hs.step horder hst) h).mono
    fun _ hs => hs.countOk

/-- Two threads, one after the other. -/
def inTurn : List (MicrosAct Bool) :=
  [.tick 1, .read true, .update true, .tick 1, .read false, .update false]

theorem always_countOk_inTurn :
    (machine 10000).Along InOrder start inTurn ∧
      (machine 10000).Always (CountOk 10000) start inTurn :=
  ⟨by decide, always_countOk (by decide)⟩

/-- The second thread reads and stores between the two steps of the first. -/
def overtaken : List (MicrosAct Bool) :=
  [.tick 1, .read true, .tick 1, .read false, .update false, .update true]

/-- **A thread that is overtaken counts a wrap**, in the first microseconds. -/
theorem not_forall_always_countOk : ¬ ∀ acts : List (MicrosAct Bool),
    (machine 10000).Along (Sampled 10000) start acts →
      (machine 10000).Always (CountOk 10000) start acts :=
  fun h => absurd (h overtaken (by decide)) (by decide)

end MicrosRace

end LibDronecan
