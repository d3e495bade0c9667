import LibDronecan.Pal.ObjectList

/-!
# Pal/ListIteration — `for (auto o : list)` with a body that removes

    ptr ──▸ o ──▸ p ──▸ q        next, read before the body runs, is p
            ✗                    the body removes o and clears its next
            ptr ──▸ p ──▸ q

The iterator of a `List<T>` reads the `next` of an element when it comes to it, so the body may take
that element off the list, or destroy it.  `exists_iterate`: every element is visited once and in
order, whichever of them go.  The memory of a destroyed element is anybody's: the list is left with
whatever `junk` says its `next` has become, and an iterator that reads it is caught.
-/

open Machinery

namespace LibDronecan

/-- What the body of the loop does with the current element. -/
inductive Fate where
  | keep
  | remove
  | destroy
  deriving DecidableEq

/-- `List<T>::iterator`, the list, the elements destroyed, and those visited. -/
structure Iteration (ι : Type*) where
  ptr : Option ι
  next : Option ι
  list : ObjectList ι
  destroyed : ι → Bool
  visited : List ι

/-- How the loop comes back: through a null pointer, through the memory of a destroyed element, or
as it should. -/
inductive IterationExit (ι : Type*) where
  | nullDeref
  | readDestroyed
  | returned (s : Iteration ι)

namespace Iteration

variable {ι : Type*} [DecidableEq ι]

omit [DecidableEq ι] in
/-- `List::begin`: the constructor of the iterator reads `next` as well. -/
def begin (l : ObjectList ι) : Iteration ι :=
  ⟨l.head, l.head.bind l.next, l, fun _ => false, []⟩

/-- The body, at `o`. -/
def act (junk : ι → Option ι) (n : ℕ) (s : Iteration ι) (o : ι) :
    Fate → Option (Exit (Iteration ι))
  | .keep => some (.returned s)
  | .remove => Exit.bind (s.list.remove o n) fun list => some (.returned { s with list })
  | .destroy => Exit.bind (s.list.destroy o n) fun list => some (.returned { s with
      list := { list with next := Function.update list.next o (junk o) }
      destroyed := Function.update s.destroyed o true })

omit [DecidableEq ι] in
/-- `operator++`. -/
def advance (s : Iteration ι) : Turn (Iteration ι) (Option (IterationExit ι)) :=
  match s.next with
  | none => .again { s with ptr := none }
  | some p =>
      if s.destroyed p then .leave (some .readDestroyed)
      else .again { s with ptr := some p, next := s.list.next p }

/-- One turn of the loop. -/
def turn (fate : ι → Fate) (junk : ι → Option ι) (n : ℕ) (s : Iteration ι) :
    Turn (Iteration ι) (Option (IterationExit ι)) :=
  match s.ptr with
  | none => .leave (some (.returned s))
  | some o =>
      match act junk n { s with visited := s.visited ++ [o] } o (fate o) with
      | none => .leave none
      | some .nullDeref => .leave (some .nullDeref)
      | some (.returned t) => t.advance

/-- The loop over the list, given `n` turns for each of the loops in it. -/
def iterate (fate : ι → Fate) (junk : ι → Option ι) (n : ℕ) (l : ObjectList ι) :
    Option (IterationExit ι) :=
  (loop (turn fate junk n) n (begin l)).join

theorem turn_of_act {fate : ι → Fate} {junk : ι → Option ι} {n : ℕ} {s t : Iteration ι} {o : ι}
    (hptr : s.ptr = some o)
    (hact : act junk n { s with visited := s.visited ++ [o] } o (fate o) = some (.returned t)) :
    turn fate junk n s = t.advance := by
  unfold turn
  split
  · rename_i hnull
    rw [hptr] at hnull
    cases hnull
  · rename_i p hp
    obtain rfl : o = p := Option.some.inj (hptr.symm.trans hp)
    rw [hact]

/-- Whether the body leaves an element on the list. -/
def kept (fate : ι → Fate) (o : ι) : Bool := decide (fate o = .keep)

/-! ## The invariant -/

/-- **The invariant**, between `done` and `todo`: the list is what was kept of the former, and the
latter; the iterator is at the first element to do and knows the second. -/
structure Between (fate : ι → Fate) (done todo : List ι) (s : Iteration ι) : Prop where
  chain : Chain s.list.next s.list.head (done.filter (kept fate) ++ todo)
  nodup : (done ++ todo).Nodup
  ptr : s.ptr = todo.head?
  next : s.next = todo.tail.head?
  destroyed : ∀ o, s.destroyed o = true ↔ o ∈ done ∧ fate o = .destroy
  visited : s.visited = done

variable {fate : ι → Fate} {junk : ι → Option ι} {n : ℕ} {s : Iteration ι} {l : ObjectList ι}
  {o : ι} {m done todo : List ι}

omit [DecidableEq ι] in
theorem between_begin (h : Chain l.next l.head m) : Between fate [] m (begin l) := by
  refine ⟨h, h.nodup, h.eq_head?, ?_, fun o => by simp [begin], rfl⟩
  cases m with
  | nil =>
    have hhead : l.head = none := h
    simp only [begin, hhead]
    rfl
  | cons a m =>
    simp only [begin, h.1]
    exact h.2.eq_head?

/-- **Taking the current element off the list** leaves what was kept, and what is to come. -/
theorem Between.exists_remove (h : Between fate done (o :: todo) s)
    (hn : (done ++ o :: todo).length ≤ n) (hfate : fate o ≠ .keep) :
    ∃ l, s.list.remove o n = some (.returned l) ∧
      Chain l.next l.head ((done ++ [o]).filter (kept fate) ++ todo) ∧
      o ∉ (done ++ [o]).filter (kept fate) ++ todo := by
  have hlen : (done.filter (kept fate) ++ o :: todo).length ≤ n :=
    (length_filter_append_le _ _ _).trans hn
  obtain ⟨l, hl, hchain, -, -⟩ := ObjectList.exists_remove h.chain
    (List.mem_append_right _ List.mem_cons_self) hlen
  rw [← h.chain.erase_filter (by simpa [kept] using hfate)]
  exact ⟨l, hl, hchain, fun hin => ((List.Nodup.mem_erase_iff h.chain.nodup).mp hin).1 rfl⟩

/-- **The body keeps what the iterator knows**: the element after the current one. -/
theorem Between.exists_act (h : Between fate done (o :: todo) s) (junk : ι → Option ι)
    (hn : (done ++ o :: todo).length ≤ n) :
    ∃ t, act junk n { s with visited := s.visited ++ [o] } o (fate o) = some (.returned t) ∧
      Chain t.list.next t.list.head ((done ++ [o]).filter (kept fate) ++ todo) ∧
      t.next = todo.head? ∧ t.visited = done ++ [o] ∧
      ∀ p, t.destroyed p = true ↔ p ∈ done ++ [o] ∧ fate p = .destroy := by
  have hvisited : s.visited ++ [o] = done ++ [o] := by rw [h.visited]
  have hsame (hfate : fate o ≠ .destroy) (p : ι) :
      s.destroyed p = true ↔ p ∈ done ++ [o] ∧ fate p = .destroy := by
    rw [h.destroyed, List.mem_append, List.mem_singleton, or_and_right]
    refine (or_iff_left ?_).symm
    rintro ⟨rfl, hp⟩
    exact hfate hp
  cases hfate : fate o with
  | keep =>
    refine ⟨_, rfl, ?_, h.next, hvisited, hsame (by simp [hfate])⟩
    rw [filter_concat_append_of_pos (by simp [kept, hfate])]
    exact h.chain
  | remove =>
    obtain ⟨l, hl, hchain, -⟩ := h.exists_remove hn (by simp [hfate])
    refine ⟨{ s with list := l, visited := s.visited ++ [o] }, ?_, hchain, h.next, hvisited,
      hsame (by simp [hfate])⟩
    simp only [act, hl, Exit.bind]
  | destroy =>
    obtain ⟨l, hl, hchain, hout⟩ := h.exists_remove hn (by simp [hfate])
    refine ⟨{ s with
      list := { l with next := Function.update l.next o (junk o) }
      destroyed := Function.update s.destroyed o true
      visited := s.visited ++ [o] }, ?_, hchain.assign hout _, h.next, hvisited, fun p => ?_⟩
    · simp only [act, ObjectList.destroy, hl, Exit.bind]
    · obtain rfl | hne := eq_or_ne p o
      · simp [hfate]
      · change Function.update s.destroyed o true p = true ↔ _
        rw [Function.update_of_ne hne, h.destroyed, List.mem_append, List.mem_singleton,
          or_iff_left hne]

/-- **A turn of the loop** visits the current element and goes on to the next. -/
theorem Between.exists_turn (h : Between fate done (o :: todo) s) (junk : ι → Option ι)
    (hn : (done ++ o :: todo).length ≤ n) :
    ∃ t, turn fate junk n s = .again t ∧ Between fate (done ++ [o]) todo t := by
  obtain ⟨t, hact, hchain, hnext, hvisited, hdestroyed⟩ := h.exists_act junk hn
  have hnodup : (done ++ [o] ++ todo).Nodup := by
    rw [List.append_assoc, List.singleton_append]
    exact h.nodup
  have hturn : turn fate junk n s = t.advance := turn_of_act h.ptr hact
  cases todo with
  | nil =>
    refine ⟨{ t with ptr := none }, ?_, hchain, hnodup, rfl, hnext, hdestroyed, hvisited⟩
    rw [hturn, advance, hnext]
    rfl
  | cons p rest =>
    have hlive : t.destroyed p = false := by
      rw [Bool.eq_false_iff, ne_eq, hdestroyed]
      exact fun hp => (List.nodup_append.mp hnodup).2.2 p hp.1 p List.mem_cons_self rfl
    refine ⟨{ t with ptr := some p, next := t.list.next p }, ?_, hchain, hnodup, rfl,
      hchain.next_eq, hdestroyed, hvisited⟩
    simp only [hturn, advance, hnext, List.head?_cons, hlive, Bool.false_eq_true, if_false]

/-- **Iteration survives what its body removes**: it ends, having visited every element there was,
once and in order, read none that was destroyed, and left those on the list that stay. -/
theorem exists_iterate (h : Chain l.next l.head m) (fate : ι → Fate) (junk : ι → Option ι) :
    ∃ n s, iterate fate junk n l = some (.returned s) ∧ s.visited = m ∧ m.Nodup ∧
      Chain s.list.next s.list.head (m.filter (kept fate)) := by
  have hloop : ∃ r, loop (turn fate junk (m.length + 1)) (m.length + 1) (begin l) = some r ∧
      ∃ s, r = some (.returned s) ∧ s.visited = m ∧
        Chain s.list.next s.list.head (m.filter (kept fate)) :=
    loop_of_walk (I := Between fate)
      (fun done o todo s hm hs => by
        have hn : (done ++ o :: todo).length ≤ m.length + 1 := by
          rw [hm]
          omega
        exact hs.exists_turn junk hn)
      (fun s hs => by
        refine ⟨some (.returned s), ?_, s, rfl, hs.visited, ?_⟩
        · simp only [turn, hs.ptr, List.head?_nil]
        · rw [← List.append_nil (m.filter _)]
          exact hs.chain)
      (between_begin h)
  obtain ⟨_, hloop, s, rfl, hvisited, hchain⟩ := hloop
  refine ⟨m.length + 1, s, ?_, hvisited, h.nodup, hchain⟩
  rw [iterate, hloop]
  rfl

/-- Three objects, of which the body removes the first and destroys the second. -/
def firstTwoGo : ℕ → Fate
  | 0 => .remove
  | 1 => .destroy
  | _ => .keep

/-- The destroyed one's memory comes to point back to the first. -/
theorem exists_iterate_firstTwoGo : ∃ n s,
    iterate firstTwoGo (fun _ => some 0) n
      ⟨some 0, fun o => if o < 2 then some (o + 1) else none⟩ = some (.returned s) ∧
    s.visited = [0, 1, 2] ∧ [0, 1, 2].Nodup ∧ Chain s.list.next s.list.head [2] :=
  exists_iterate (l := ⟨some 0, fun o => if o < 2 then some (o + 1) else none⟩) (m := [0, 1, 2])
    (by decide) firstTwoGo fun _ => some 0

end Iteration

end LibDronecan
