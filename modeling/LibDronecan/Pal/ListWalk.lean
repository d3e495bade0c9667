import LibDronecan.Pal.ObjectLifetimes

/-!
# Pal/ListWalk — `for (auto o : list)` while the list is edited

    a ──▸ b ──▸ c ──▸ d          the body is at b, and the iterator has read that c is next
                ✗                a, b and d may go and others come; without c, the walk ends at c

`Iteration` is a loop whose body takes off the element it is at.  Here anything is added, removed or
destroyed between two steps of the iterator, by the body or by others.  The walk comes to every
object that stays, in order, and to none that has gone, just if nobody takes off the one the
iterator goes to next (`always_onCourse_iff`).  The walk holds no semaphore, but reads the list once
each step, so what it sees of a call of the list is all or nothing.
-/

open Machinery

namespace LibDronecan

/-- A list, and a loop over it: where the iterator goes next, at first to the head, the objects
visited, and those that have been on the list all the time. -/
structure ListWalk (ι : Type*) where
  life : Lifetimes ι
  next : Option ι
  visited : List ι
  stayed : List ι

inductive WalkAct (ι : Type*) where
  | op (op : ListOp ι)
  /-- `ptr = next`, `next = ptr->next`, and the body -/
  | turn

namespace ListWalk

variable {ι : Type*} [DecidableEq ι]

omit [DecidableEq ι] in
/-- `List::begin`, as far as it reads the head. -/
def start (life : Lifetimes ι) : ListWalk ι := ⟨life, life.list.head, [], life.members⟩

/-- No call of the list goes round more often than there are objects on it.  A turn that would read
a destroyed object is not enabled. -/
def step (s : ListWalk ι) : WalkAct ι → Option (ListWalk ι)
  | .op op => (Lifetimes.machine.step s.life (op, s.life.members.length)).map fun life =>
      { s with life, stayed := s.stayed.filter fun o => o ∈ life.members }
  | .turn =>
      match s.next with
      | none => none
      | some p =>
          if s.life.live p then
            some { s with next := s.life.list.next p, visited := s.visited ++ [p] }
          else none

def machine : Machine (ListWalk ι) (WalkAct ι) := ⟨step⟩

/-- The step takes off the list what the iterator goes to next. -/
def Strikes (s : ListWalk ι) : WalkAct ι → Prop
  | .op (.remove o) | .op (.destroy o) => s.next = some o
  | .op (.construct _) | .op (.add _) | .turn => False

instance (s : ListWalk ι) : ∀ a : WalkAct ι, Decidable (s.Strikes a)
  | .op (.remove _) => inferInstanceAs (Decidable (_ = _))
  | .op (.destroy _) => inferInstanceAs (Decidable (_ = _))
  | .op (.construct _) => inferInstanceAs (Decidable False)
  | .op (.add _) => inferInstanceAs (Decidable False)
  | .turn => inferInstanceAs (Decidable False)

/-- **The walk is on course**: left alone it ends, having visited those that have stayed just once
and in order, and from here on only what is on the list. -/
def OnCourse (s : ListWalk ι) : Prop :=
  ∃ n t, machine.run s (List.replicate n .turn) = some t ∧ t.next = none ∧
    (t.visited.filter fun o => o ∈ s.stayed) = s.stayed ∧
    ∀ o ∈ t.visited.drop s.visited.length, o ∈ s.life.members

/-! ## Left alone -/

variable {s t : ListWalk ι} {a : WalkAct ι} {todo : List ι} {o : ι}

/-- Left alone, the walk visits what is ahead. -/
theorem run_turns (hchain : Chain s.life.list.next s.next todo)
    (hlive : ∀ o ∈ todo, s.life.live o = true) :
    machine.run s (List.replicate todo.length .turn)
      = some { s with next := none, visited := s.visited ++ todo } := by
  induction todo generalizing s with
  | nil =>
    have hnext : s.next = none := hchain
    rw [List.append_nil, ← hnext]
    rfl
  | cons p todo ih =>
    have hst : machine.step s .turn
        = some { s with next := s.life.list.next p, visited := s.visited ++ [p] } := by
      simp only [machine, step, hchain.1, hlive p List.mem_cons_self, if_true]
    have hrest := ih (s := { s with next := s.life.list.next p, visited := s.visited ++ [p] })
      hchain.2 fun o ho => hlive o (List.mem_cons_of_mem p ho)
    rw [List.append_assoc, List.singleton_append] at hrest
    rw [List.length_cons, List.replicate_succ, Machine.run_cons, hst, Option.bind_some, hrest]

/-- A turn visits what is next. -/
theorem visited_of_turn (h : machine.step s .turn = some t) :
    ∃ p, s.next = some p ∧ t.visited = s.visited ++ [p] := by
  simp only [machine, step] at h
  split at h
  · cases h
  · rename_i p hp
    split_ifs at h
    exact ⟨p, hp, (Option.some.inj h).symm ▸ rfl⟩

/-- What is visited stays visited. -/
theorem prefix_of_turns {n : ℕ} (h : machine.run s (List.replicate n .turn) = some t) :
    s.visited <+: t.visited := by
  induction n generalizing s with
  | zero => exact Option.some.inj h ▸ List.prefix_rfl
  | succ n ih =>
    obtain ⟨u, hu, hrun⟩ := Option.bind_eq_some_iff.mp h
    obtain ⟨p, -, hvisited⟩ := visited_of_turn hu
    exact (hvisited ▸ List.prefix_append _ _ : s.visited <+: u.visited).trans (ih hrun)

/-- Bound for an object that is not on the list, the walk is off course. -/
theorem not_onCourse (hnext : s.next = some o) (ho : o ∉ s.life.members) : ¬ s.OnCourse := by
  rintro ⟨n, t, hrun, hend, -, hmem⟩
  cases n with
  | zero =>
    obtain rfl := Option.some.inj hrun
    rw [hnext] at hend
    cases hend
  | succ n =>
    obtain ⟨u, hu, hrun⟩ := Option.bind_eq_some_iff.mp hrun
    obtain ⟨p, hp, hvisited⟩ := visited_of_turn hu
    obtain rfl := Option.some.inj (hnext.symm.trans hp)
    obtain ⟨l, hl⟩ := prefix_of_turns hrun
    refine ho (hmem o ?_)
    rw [← hl, hvisited, List.append_assoc, List.drop_left]
    exact List.mem_cons_self

/-! ## The invariant -/

/-- **The invariant**: the iterator knows the first of the objects `todo`, which the list ends with;
they and those visited have among them all that have stayed. -/
structure Ahead (todo : List ι) (s : ListWalk ι) : Prop where
  tidy : s.life.Tidy
  suffix : todo <:+ s.life.members
  next : s.next = todo.head?
  whole : ((s.visited ++ todo).filter fun o => o ∈ s.stayed) = s.stayed
  stayed : ∀ o ∈ s.stayed, o ∈ s.life.members

theorem Ahead.chain (h : Ahead todo s) : Chain s.life.list.next s.next todo := by
  obtain ⟨front, hfront⟩ := h.suffix
  rw [h.next]
  exact (hfront ▸ h.tidy.chain).drop

theorem ahead_start {life : Lifetimes ι} (h : life.Tidy) : Ahead life.members (start life) :=
  ⟨h, List.suffix_rfl, h.chain.eq_head?,
    List.filter_eq_self.mpr fun _ ho => decide_eq_true ho, fun _ ho => ho⟩

/-- **A walk that knows the way is on course.** -/
theorem Ahead.onCourse (h : Ahead todo s) : s.OnCourse := by
  refine ⟨_, _, run_turns h.chain fun o ho => h.tidy.alive o (h.suffix.mem ho), rfl, h.whole,
    fun o ho => ?_⟩
  rw [List.drop_left] at ho
  exact h.suffix.mem ho

/-- A turn of the walk. -/
theorem Ahead.turn (h : Ahead todo s) (hst : machine.step s .turn = some t) :
    ∃ todo', Ahead todo' t := by
  simp only [machine, step] at hst
  split at hst
  · cases hst
  · rename_i p hp
    split_ifs at hst
    obtain rfl := Option.some.inj hst
    cases todo with
    | nil =>
      rw [h.next] at hp
      cases hp
    | cons q todo =>
      obtain rfl := Option.some.inj (h.next.symm.trans hp)
      refine ⟨todo, h.tidy, (List.suffix_cons q todo).trans h.suffix, ?_, ?_, h.stayed⟩
      · exact h.chain.2.eq_head?
      · rw [List.append_assoc]
        exact h.whole

/-- A new object comes behind the others. -/
theorem Ahead.add {life : Lifetimes ι} (h : Ahead todo s) (htidy : life.Tidy)
    (ho : o ∉ s.life.members) (hmembers : life.members = s.life.members ++ [o]) :
    ∃ todo', Ahead todo'
      { s with life, stayed := s.stayed.filter fun o => o ∈ life.members } := by
  have hstayed : (s.stayed.filter fun o => o ∈ life.members) = s.stayed :=
    List.filter_eq_self.mpr fun x hx =>
      decide_eq_true (hmembers ▸ List.mem_append_left _ (h.stayed x hx))
  rw [hstayed]
  have hmem : ∀ x ∈ s.stayed, x ∈ life.members :=
    fun x hx => hmembers ▸ List.mem_append_left _ (h.stayed x hx)
  cases todo with
  | nil => exact ⟨[], htidy, List.nil_suffix, h.next, h.whole, hmem⟩
  | cons p todo =>
    obtain ⟨front, hfront⟩ := h.suffix
    refine ⟨p :: todo ++ [o], htidy, ⟨front, ?_⟩, h.next, ?_, hmem⟩
    · rw [hmembers, ← hfront, List.append_assoc]
    · have hnew : o ∉ s.stayed := fun hin => ho (h.stayed o hin)
      rw [← List.append_assoc, List.filter_append, h.whole,
        List.filter_cons_of_neg (by simpa using hnew), List.filter_nil, List.append_nil]

/-- One that the iterator is not bound for goes. -/
theorem Ahead.erase {life : Lifetimes ι} (h : Ahead todo s) (htidy : life.Tidy)
    (hmembers : life.members = s.life.members.erase o) (ho : s.next ≠ some o) : ∃ todo', Ahead todo'
      { s with life, stayed := s.stayed.filter fun o => o ∈ life.members } := by
  have hnodup := h.tidy.chain.nodup
  have hin (x : ι) : x ∈ life.members ↔ x ≠ o ∧ x ∈ s.life.members := by
    rw [hmembers]
    exact List.Nodup.mem_erase_iff hnodup
  have hgone : (s.stayed.filter fun x => x ∈ life.members) = s.stayed.filter fun x => x ≠ o :=
    List.filter_congr fun x hx => by simp only [hin, h.stayed x hx, and_true]
  refine ⟨todo.erase o, htidy, hmembers ▸ suffix_erase h.suffix hnodup o, ?_, ?_,
    fun x hx => of_decide_eq_true (List.mem_filter.mp hx).2⟩
  · exact h.next.trans (head?_erase (h.next ▸ ho)).symm
  · dsimp only
    rw [hgone]
    exact filter_mem_filter_ne h.whole (hnodup.sublist h.suffix.sublist) o

/-- What a call of the list that returns does to the objects on it. -/
theorem of_step_op {op : ListOp ι} (htidy : s.life.Tidy) (hst : machine.step s (.op op) = some t) :
    ∃ life : Lifetimes ι, life.Tidy ∧ s.life.Admissible op ∧ life.members = s.life.after op ∧
      t = { s with life, stayed := s.stayed.filter fun o => o ∈ life.members } := by
  obtain ⟨life, hlife, rfl⟩ := Option.map_eq_some_iff.mp hst
  refine ⟨life, htidy.step (htidy.present_of_step hlife) hlife, ?_, ?_, rfl⟩
  · simp only [Lifetimes.machine] at hlife
    split_ifs at hlife with hadm
    exact hadm
  · exact Lifetimes.members_of_step hlife

/-- **A step that does not strike** leaves a walk that knows the way. -/
theorem Ahead.step (h : Ahead todo s) (ha : ¬ s.Strikes a) (hst : machine.step s a = some t) :
    ∃ todo', Ahead todo' t := by
  cases a with
  | turn => exact h.turn hst
  | op op =>
    obtain ⟨life, htidy, hadm, hmembers, rfl⟩ := of_step_op h.tidy hst
    cases op with
    | construct o =>
      refine h.add htidy (fun hin => ?_) hmembers
      rw [Lifetimes.Admissible, h.tidy.alive o hin] at hadm
      cases hadm
    | add o => exact h.add htidy hadm.2 hmembers
    | remove o => exact h.erase htidy hmembers ha
    | destroy o => exact h.erase htidy hmembers ha

/-- **One that does** is possible, and leaves it off course. -/
theorem Ahead.exists_strike (h : Ahead todo s) (ha : s.Strikes a) :
    ∃ t, machine.step s a = some t ∧ ¬ t.OnCourse := by
  have hgone {op : ListOp ι} {o : ι} (hnext : s.next = some o) (hadm : s.life.Admissible op)
      (hpresent : ∀ n, Lifetimes.Present s.life (op, n)) (hafter : o ∉ s.life.after op) :
      ∃ t, machine.step s (.op op) = some t ∧ ¬ t.OnCourse := by
    obtain ⟨l, hl, -⟩ := h.tidy.exists_exec hadm hpresent
    refine ⟨_, ?_, not_onCourse (s := { s with
      life := ⟨l, s.life.liveAfter op, s.life.after op⟩
      stayed := s.stayed.filter fun o => o ∈ s.life.after op }) hnext hafter⟩
    have hlife : Lifetimes.machine.step s.life (op, s.life.members.length)
        = some ⟨l, s.life.liveAfter op, s.life.after op⟩ := by
      simp only [Lifetimes.machine, hl, if_pos hadm]
    simp only [machine, ListWalk.step, hlife, Option.map_some]
  have hon {o : ι} (hnext : s.next = some o) :
      o ∈ s.life.members ∧ s.life.live o = true ∧ o ∉ s.life.members.erase o := by
    have hin : o ∈ s.life.members :=
      h.suffix.mem (List.mem_of_head? (h.next.symm.trans hnext))
    exact ⟨hin, h.tidy.alive o hin, fun hmem =>
      ((List.Nodup.mem_erase_iff h.tidy.chain.nodup).mp hmem).1 rfl⟩
  cases a with
  | turn => exact ha.elim
  | op op =>
    cases op with
    | construct o => exact ha.elim
    | add o => exact ha.elim
    | remove o =>
      obtain ⟨hin, hlive, hout⟩ := hon ha
      exact hgone ha hlive (fun _ _ => .inl hin) hout
    | destroy o =>
      obtain ⟨hin, hlive, hout⟩ := hon ha
      exact hgone ha hlive (fun _ _ => .inl hin) hout

/-- **A walk stays on course just while nobody takes off what it goes to next**, whatever else is
added, removed and destroyed meanwhile. -/
theorem always_onCourse_iff {life : Lifetimes ι} (h : life.Tidy) (as : List (WalkAct ι)) :
    machine.Always OnCourse (start life) as
      ↔ machine.Along (fun s a => ¬ s.Strikes a) (start life) as :=
  Machine.always_iff_along (J := fun s => ∃ todo, Ahead todo s) ⟨_, ahead_start h⟩
    (fun _ ⟨_, hs⟩ => hs.onCourse) (fun _ _ _ ⟨_, hs⟩ ha hst => hs.step ha hst)
    fun _ _ ⟨_, hs⟩ ha => hs.exists_strike (not_not.mp ha)

/-- Three objects. -/
def three : Lifetimes ℕ :=
  ⟨⟨some 0, fun o => if o < 2 then some (o + 1) else none⟩, fun o => o < 3, [0, 1, 2]⟩

/-- At the first, it and the last may go, and a fourth come, but the second may not go. -/
theorem always_onCourse_three :
    machine.Always OnCourse (start three) [.turn, .op (.destroy 0), .op (.remove 2),
      .op (.construct 3), .turn, .turn] ∧
    ¬ machine.Always OnCourse (start three) [.turn, .op (.remove 1)] := by
  have htidy : three.Tidy := by
    refine ⟨by decide, by decide, fun o hlive hout => ?_⟩
    have hlt : o < 3 := of_decide_eq_true hlive
    exact absurd (by simp [three]; omega) hout
  rw [always_onCourse_iff htidy, always_onCourse_iff htidy]
  decide

end ListWalk

end LibDronecan
