import Mathlib.Data.List.Basic
import Mathlib.Logic.Function.Basic

/-!
# Machinery/Ledger — resources made and dropped

    made r, made q, dropped r, made r, dropped q, dropped r

A ledger is the list of what was made and dropped, in order.  Read for one resource it has to go
made, dropped, made, dropped, …; its `tally` is whether one is outstanding at the end, and nothing
once the order is broken, which no later entry mends (`tally_append_of_eq_none`).  `Outstanding log
f` says that the ledger is in order for every resource, and that `f` is what is outstanding.
-/

namespace Machinery

/-- A resource is made, or dropped. -/
inductive Entry (ρ : Type*) where
  | made (r : ρ)
  | dropped (r : ρ)

variable {ρ : Type*}

def Entry.resource : Entry ρ → ρ
  | .made r => r
  | .dropped r => r

/-- What an entry makes of the tally of its resource: only what is not there is made, and only what
is there is dropped. -/
def Entry.post : Option Bool → Entry ρ → Option Bool
  | some false, .made _ => some true
  | some true, .dropped _ => some false
  | _, _ => none

variable [DecidableEq ρ]

/-- Whether a resource is outstanding; `none` if it was made or dropped out of order. -/
def tally (r : ρ) (log : List (Entry ρ)) : Option Bool :=
  (log.filter fun e => e.resource = r).foldl Entry.post (some false)

/-- **The ledger is in order, and what is outstanding is what `f` says.** -/
def Outstanding (log : List (Entry ρ)) (f : ρ → Bool) : Prop := ∀ r, tally r log = some (f r)

variable {log l : List (Entry ρ)} {f g : ρ → Bool} {r q : ρ} {e : Entry ρ}

theorem tally_append (r : ρ) (log l : List (Entry ρ)) : tally r (log ++ l)
    = (l.filter fun e => e.resource = r).foldl Entry.post (tally r log) := by
  rw [tally, List.filter_append, List.foldl_append, tally]

/-- An entry counts for its own resource. -/
theorem tally_append_of_ne (h : e.resource ≠ r) : tally r (log ++ [e]) = tally r log := by
  rw [tally_append, List.filter_cons_of_neg (by simpa using h), List.filter_nil, List.foldl_nil]

theorem tally_append_self (h : e.resource = r) : tally r (log ++ [e]) = e.post (tally r log) := by
  rw [tally_append, List.filter_cons_of_pos (by simpa using h), List.filter_nil, List.foldl_cons,
    List.foldl_nil]

/-- **What was out of order stays so.** -/
theorem tally_append_of_eq_none (h : tally r log = none) (l : List (Entry ρ)) :
    tally r (log ++ l) = none := by
  rw [tally_append, h]
  induction l.filter fun e => e.resource = r with
  | nil => rfl
  | cons e l ih => exact ih

theorem outstanding_nil : Outstanding ([] : List (Entry ρ)) fun _ => false := fun _ => rfl

theorem Outstanding.congr (h : Outstanding log f) (hfg : ∀ r, f r = g r) : Outstanding log g :=
  fun r => hfg r ▸ h r

/-- Making what is not outstanding. -/
theorem Outstanding.made (h : Outstanding log f) (hr : f r = false) :
    Outstanding (log ++ [.made r]) (Function.update f r true) := by
  intro q
  obtain rfl | hne := eq_or_ne q r
  · rw [Function.update_self, tally_append_self (r := q) (e := .made q) rfl, h q, hr]
    rfl
  · rw [Function.update_of_ne hne, tally_append_of_ne (Ne.symm hne), h q]

/-- Dropping what is. -/
theorem Outstanding.dropped (h : Outstanding log f) (hr : f r = true) :
    Outstanding (log ++ [.dropped r]) (Function.update f r false) := by
  intro q
  obtain rfl | hne := eq_or_ne q r
  · rw [Function.update_self, tally_append_self (r := q) (e := .dropped q) rfl, h q, hr]
    rfl
  · rw [Function.update_of_ne hne, tally_append_of_ne (Ne.symm hne), h q]

/-- Dropping what a flag says is there. -/
theorem Outstanding.dropIf (h : Outstanding log f) {b : Bool} (hr : f r = b) :
    Outstanding (log ++ if b then [.dropped r] else []) (Function.update f r false) := by
  cases b with
  | false =>
    rw [if_neg Bool.false_ne_true, List.append_nil, ← hr, Function.update_eq_self]
    exact h
  | true => exact h.dropped hr

/-- **Dropping what is not outstanding breaks the order.** -/
theorem Outstanding.tally_dropped (h : Outstanding log f) (hr : f r = false) :
    tally r (log ++ [.dropped r]) = none := by
  rw [tally_append_self (r := r) (e := .dropped r) rfl, h r, hr]
  rfl

end Machinery
