import LibDronecan.Pal.WorkerList

/-!
# Pal/WorkerPass — objects that unregister themselves in a pass of `run`

    head ──▸ a ──▸ b ──▸ c ──▸ null       the function of c unregisters c: second once a has left

`run` reads the `next` of an object after it has called it, and `unregister_worker` leaves that
field as it is, so an object that leaves in its own call does not take the rest with it.  But
`unregister_worker` finds the first two objects only, and looks for any other for ever, with `sem`
taken twice.  So a pass returns just if not more than one object that stays comes before any that
leaves (`pass_returns_iff`).
-/

open Machinery

namespace LibDronecan

namespace WorkerList

/-- Halfway through a pass: the list, the object to call, and those called. -/
structure Pass (ι κ : Type*) where
  list : WorkerList ι κ
  currWorker : Option ι
  called : List ι

variable {ι κ : Type*} [DecidableEq ι]

/-- One turn of the inner loop of `run`.  The functions of `leaves` are called in this pass and
unregister their object, each with `n` turns of the loop in there. -/
def passTurn (leaves : ι → Bool) (micros64 n : ℕ) (p : Pass ι κ) :
    Turn (Pass ι κ) (Option (Pass ι κ)) :=
  match p.currWorker with
  | none => .leave (some p)
  | some curr =>
    match if leaves curr then p.list.unregisterWorker micros64 curr n else some p.list with
    | none => .leave none
    | some list => .again ⟨list, list.next curr, p.called ++ [curr]⟩

/-- A pass of `run`. -/
def pass (leaves : ι → Bool) (micros64 : ℕ) (w : WorkerList ι κ) (n : ℕ) : Option (Pass ι κ) :=
  (loop (passTurn leaves micros64 n) n ⟨w, w.workerObjHead, []⟩).join

/-- Not more than one object that stays comes before any that leaves. -/
def EarlyLeavers (leaves : ι → Bool) (l : List ι) : Prop :=
  ∀ s a t, l = s ++ a :: t → leaves a = true → (s.filter fun o => !leaves o).length ≤ 1

variable {w w' : WorkerList ι κ} {leaves : ι → Bool} {us n : ℕ} {a : ι} {l done todo : List ι}
  {p : Pass ι κ}

omit [DecidableEq ι] in
theorem EarlyLeavers.concat (h : EarlyLeavers leaves done)
    (ha : leaves a = true → (done.filter fun o => !leaves o).length ≤ 1) :
    EarlyLeavers leaves (done ++ [a]) := by
  intro s b t hs hb
  obtain rfl | ⟨t, c, rfl⟩ := List.eq_nil_or_concat' t
  · obtain ⟨rfl, hba⟩ := List.append_inj' hs rfl
    obtain rfl := List.singleton_inj.mp hba
    exact ha hb
  · rw [← List.cons_append, ← List.append_assoc] at hs
    exact h s b t (List.append_inj_left' hs rfl) hb

/-- **The invariant**, between `done` and `todo`: the list is those of the former that stayed, and
the latter, of which the first is next. -/
structure Midpass (leaves : ι → Bool) (done todo : List ι) (p : Pass ι κ) : Prop where
  chain : Chain p.list.next p.list.workerObjHead ((done.filter fun o => !leaves o) ++ todo)
  currWorker : p.currWorker = todo.head?
  called : p.called = done

/-- An object that leaves in a call that returns was among the first two, and its `next` is as it
was. -/
theorem of_unregisterWorker_append {s t : List ι} (h : Chain w.next w.workerObjHead (s ++ a :: t))
    (hret : w.unregisterWorker us a n = some w') :
    s.length ≤ 1 ∧ Chain w'.next w'.workerObjHead (s ++ t) ∧ w'.next a = w.next a := by
  have hnodup := h.nodup
  obtain ⟨hnil, -⟩ | ⟨l', hl, rfl⟩ | ⟨b, l', hl, rfl⟩ := of_unregisterWorker h hret
  · simp at hnil
  · cases s with
    | nil => exact ⟨Nat.zero_le 1, h.2, rfl⟩
    | cons b s =>
      obtain ⟨rfl, -⟩ := List.cons.inj hl
      simp at hnodup
  · match s, hl with
    | [], hl =>
      obtain ⟨rfl, rfl⟩ := List.cons.inj hl
      simp at hnodup
    | [c], hl =>
      obtain ⟨rfl, -⟩ := List.cons.inj hl
      have hfront : Chain w.next w.workerObjHead ([] ++ c :: a :: t) := h
      have hne : a ≠ c := fun hac => hfront.notMem_front (by simp [hac])
      exact ⟨le_rfl, hfront.unlink, Function.update_of_ne hne _ _⟩
    | c :: d :: s, hl =>
      have hda : d = a := (List.cons.inj (List.cons.inj hl).2).1
      simp [hda] at hnodup

/-- …and one that is among them leaves. -/
theorem exists_unregisterWorker_append {s t : List ι}
    (h : Chain w.next w.workerObjHead (s ++ a :: t)) (hs : s.length ≤ 1) (us n : ℕ) :
    ∃ w', w.unregisterWorker us a (n + 1) = some w' := by
  match s, hs with
  | [], _ => exact ⟨_, unregisterWorker_head h.1 us (n + 1)⟩
  | [b], _ =>
    have hfront : Chain w.next w.workerObjHead ([] ++ b :: a :: t) := h
    have hne : b ≠ a := fun hba => hfront.notMem_front (by simp [hba])
    exact ⟨_, unregisterWorker_second h.1 h.2.1 hne us n⟩

/-- The object called stays, or has left in its call. -/
theorem Midpass.called_next (h : Midpass leaves done (a :: todo) p) {list : WorkerList ι κ}
    (hret : (if leaves a then p.list.unregisterWorker us a n else some p.list) = some list) :
    Midpass leaves (done ++ [a]) todo ⟨list, list.next a, p.called ++ [a]⟩ ∧
      (leaves a = true → (done.filter fun o => !leaves o).length ≤ 1) := by
  have hnext : p.list.next a = todo.head? := h.chain.next_eq
  cases hleaves : leaves a with
  | false =>
    rw [hleaves, if_neg Bool.false_ne_true] at hret
    obtain rfl := Option.some.inj hret
    refine ⟨⟨?_, hnext, by rw [h.called]⟩, nofun⟩
    rw [filter_concat_append_of_pos (by simp [hleaves])]
    exact h.chain
  | true =>
    rw [hleaves, if_pos rfl] at hret
    obtain ⟨hlen, hchain, hsame⟩ := of_unregisterWorker_append h.chain hret
    refine ⟨⟨?_, hsame.trans hnext, by rw [h.called]⟩, fun _ => hlen⟩
    rw [List.filter_append, List.filter_cons_of_neg (by simp [hleaves]), List.filter_nil,
      List.append_nil]
    exact hchain

theorem Midpass.exists_turn (h : Midpass leaves done (a :: todo) p)
    (hearly : leaves a = true → (done.filter fun o => !leaves o).length ≤ 1) (us n : ℕ) :
    ∃ p', passTurn leaves us (n + 1) p = .again p' ∧ Midpass leaves (done ++ [a]) todo p' := by
  obtain ⟨list, hret⟩ : ∃ list,
      (if leaves a then p.list.unregisterWorker us a (n + 1) else some p.list) = some list := by
    split_ifs with hleaves
    · exact exists_unregisterWorker_append h.chain (hearly hleaves) us n
    · exact ⟨p.list, rfl⟩
  refine ⟨_, ?_, (h.called_next hret).1⟩
  rw [passTurn, h.currWorker, List.head?_cons]
  simp only [hret]

/-- A turn that goes on has called the next object, and it was among the first two if it left. -/
theorem Midpass.of_again (h : Midpass leaves done todo p) {p' : Pass ι κ}
    (hturn : passTurn leaves us n p = .again p') : ∃ a todo', todo = a :: todo' ∧
      Midpass leaves (done ++ [a]) todo' p' ∧
      (leaves a = true → (done.filter fun o => !leaves o).length ≤ 1) := by
  rw [passTurn, h.currWorker] at hturn
  cases todo with
  | nil => cases hturn
  | cons a todo =>
    rw [List.head?_cons] at hturn
    cases hret : if leaves a then p.list.unregisterWorker us a n else some p.list with
    | none =>
      simp only [hret] at hturn
      cases hturn
    | some list =>
      simp only [hret] at hturn
      obtain rfl := Turn.again.inj hturn
      exact ⟨a, todo, rfl, h.called_next hret⟩

omit [DecidableEq ι] in
theorem midpass_start (h : Chain w.next w.workerObjHead l) (leaves : ι → Bool) :
    Midpass leaves [] l ⟨w, w.workerObjHead, []⟩ :=
  ⟨h, h.eq_head?, rfl⟩

/-- A pass that returns has called every object, and those that left were early. -/
theorem of_pass (h : Chain w.next w.workerObjHead l) (hret : pass leaves us w n = some p) :
    EarlyLeavers leaves l ∧ Midpass leaves l [] p := by
  have hloop : loop (passTurn leaves us n) n ⟨w, w.workerObjHead, []⟩ = some (some p) :=
    Option.join_eq_some_iff.mp hret
  refine loop_induct (P := fun p => ∃ done todo, l = done ++ todo ∧ Midpass leaves done todo p ∧
      EarlyLeavers leaves done)
    (Q := fun r => ∀ p, r = some p → EarlyLeavers leaves l ∧ Midpass leaves l [] p) ?_ ?_
    ⟨[], l, rfl, midpass_start h leaves, fun s a t hs => by simp at hs⟩ hloop p rfl
  · rintro p p' ⟨done, todo, rfl, hmid, hearly⟩ hturn
    obtain ⟨a, todo, rfl, hmid', ha⟩ := hmid.of_again hturn
    exact ⟨done ++ [a], todo, by simp, hmid', hearly.concat ha⟩
  · rintro p r ⟨done, todo, rfl, hmid, hearly⟩ hturn p' rfl
    rw [passTurn, hmid.currWorker] at hturn
    cases todo with
    | nil =>
      obtain rfl := Option.some.inj (Turn.leave.inj hturn)
      rw [List.append_nil]
      exact ⟨hearly, hmid⟩
    | cons a todo =>
      rw [List.head?_cons] at hturn
      cases hret : if leaves a then p.list.unregisterWorker us a n else some p.list with
      | none =>
        simp only [hret] at hturn
        cases Turn.leave.inj hturn
      | some list =>
        simp only [hret] at hturn
        cases hturn

/-- **When a pass of `run` returns**: just if those that leave in it are early; and then it has
called every object of the list, in order, and the list is those that stay. -/
theorem pass_returns_iff (h : Chain w.next w.workerObjHead l) (leaves : ι → Bool) (us : ℕ) :
    ((∃ n p, pass leaves us w n = some p) ↔ EarlyLeavers leaves l) ∧
      ∀ n p, pass leaves us w n = some p → p.called = l ∧
        Chain p.list.next p.list.workerObjHead (l.filter fun o => !leaves o) := by
  refine ⟨⟨fun ⟨n, p, hret⟩ => (of_pass h hret).1, fun hearly => ?_⟩, fun n p hret => ?_⟩
  · obtain ⟨r, hloop, p, rfl⟩ : ∃ r, loop (passTurn leaves us (l.length + 1)) (l.length + 1)
        ⟨w, w.workerObjHead, []⟩ = some r ∧ ∃ p, r = some p :=
      loop_of_walk (I := Midpass leaves)
        (fun done a todo p hl hp => hp.exists_turn (hearly done a todo hl.symm) us _)
        (fun p hp => ⟨some p, by rw [passTurn, hp.currWorker]; rfl, p, rfl⟩)
        (midpass_start h leaves)
    exact ⟨l.length + 1, p, by rw [pass, hloop]; rfl⟩
  · have hmid := (of_pass h hret).2
    have hchain := hmid.chain
    rw [List.append_nil] at hchain
    exact ⟨hmid.called, hchain⟩

/-- In a list of three the first and the last leave. -/
theorem pass_returns_iff_three :
    ((∃ n p, pass (fun o => o != 1) 0 three n = some p) ↔
      EarlyLeavers (fun o : ℕ => o != 1) [0, 1, 2]) ∧
      ∀ n p, pass (fun o => o != 1) 0 three n = some p → p.called = [0, 1, 2] ∧
        Chain p.list.next p.list.workerObjHead ([0, 1, 2].filter fun o => !(o != 1)) :=
  pass_returns_iff (w := three) (by decide) _ 0

end WorkerList

end LibDronecan
