import LibDronecan.Pal.CallAll

/-!
# Pal/CallWalk — `call_all` while callbacks are registered and unregistered

    h ──▸ a ──▸ b ──▸ c          a is being called, and a.next is read when it comes back
    h ────────▸ b ──▸ c          a has left, and a.next is still b
    h ────────────────▸ c        …and then b: a.next is still b, and it is called
    h ──────▸ b ──▸ c ──▸ a      …or a comes back instead: a.next is null, and b is not called

`callAll` lets each callback leave in its own call.  Here anything is registered and unregistered
between two calls, by the callbacks or by others.  While the callback that is called stays on the
list, all is well, even if the one behind it goes; once it has left, its `next` is out of date, and
the walk goes wrong just if that one leaves too, or if the first comes back while others have still
to be called (`always_delivers_iff`).
-/

open Machinery

namespace LibDronecan

/-- A call of `call_all` on a head: the `next` fields, those registered, the callback being called
(at first the head, with whose `next` the loop begins), those called, and those that have been
registered all the time. -/
structure CallWalk (ι : Type*) where
  next : ι → Option ι
  registered : List ι
  cb : ι
  called : List ι
  stayed : List ι

inductive CallAct {ι : Type*} (h : ι) where
  | register (cb : { cb : ι // cb ≠ h })
  | unregister (cb : { cb : ι // cb ≠ h })
  /-- `next_cb = next_cb->next`, and it is called -/
  | turn

namespace CallWalk

variable {ι : Type*} [DecidableEq ι] (h : ι)

omit [DecidableEq ι] in
def start (next : ι → Option ι) (registered : List ι) : CallWalk ι :=
  ⟨next, registered, h, [], registered⟩

/-- The loops of the calls go round at most once for each callback and the head. -/
def step (s : CallWalk ι) : CallAct h → Option (CallWalk ι)
  | .register cb => (Callback.registerCb h s.next cb (s.registered.length + 1)).map fun r =>
      { s with
        next := r.2
        registered := if ↑cb ∈ s.registered then s.registered else s.registered ++ [↑cb] }
  | .unregister cb => (Callback.unregisterCb h s.next cb (s.registered.length + 1)).map fun next =>
      { s with
        next := next
        registered := s.registered.erase cb
        stayed := s.stayed.filter (· ≠ ↑cb) }
  | .turn => (s.next s.cb).map fun cb => { s with cb := cb, called := s.called ++ [cb] }

def machine : Machine (CallWalk ι) (CallAct h) := ⟨step h⟩

/-- The callback being called has left the list, and the step takes off the one that its `next`
points to, or puts it back while some that stayed are not called. -/
def Strikes (s : CallWalk ι) : CallAct h → Prop
  | .register cb => s.cb = cb ∧ s.cb ∉ s.registered ∧ ∃ o ∈ s.stayed, o ∉ s.called
  | .unregister cb => s.cb ∉ h :: s.registered ∧ s.next s.cb = some ↑cb
  | .turn => False

instance (s : CallWalk ι) : ∀ a : CallAct h, Decidable (s.Strikes h a)
  | .register _ => inferInstanceAs (Decidable (_ ∧ _ ∧ _))
  | .unregister _ => inferInstanceAs (Decidable (_ ∧ _))
  | .turn => inferInstanceAs (Decidable False)

/-- **The call is on course**: left alone it ends, having called those that have stayed just once
and in order, and from here on only callbacks that are registered. -/
def OnCourse (s : CallWalk ι) : Prop :=
  ∃ n t, (machine h).run s (List.replicate n .turn) = some t ∧ t.next t.cb = none ∧
    (t.called.filter fun o => o ∈ s.stayed) = s.stayed ∧
    ∀ o ∈ t.called.drop s.called.length, o ∈ s.registered

/-! ## Left alone -/

variable {h} {s t : CallWalk ι} {a : CallAct h} {todo l : List ι} {o x : ι}

/-- Left alone, `call_all` calls what is ahead. -/
theorem exists_run_turns (hchain : Chain s.next (s.next s.cb) todo) : ∃ t,
    (machine h).run s (List.replicate todo.length .turn) = some t ∧ t.next t.cb = none ∧
      t.called = s.called ++ todo := by
  induction todo generalizing s with
  | nil => exact ⟨s, rfl, hchain, (List.append_nil _).symm⟩
  | cons p todo ih =>
    have hst : (machine h).step s .turn = some { s with cb := p, called := s.called ++ [p] } := by
      simp only [machine, step, hchain.1, Option.map_some]
    obtain ⟨t, hrun, hend, hcalled⟩ :=
      ih (s := { s with cb := p, called := s.called ++ [p] }) hchain.2
    refine ⟨t, ?_, hend, by rw [hcalled, List.append_assoc, List.singleton_append]⟩
    rw [List.length_cons, List.replicate_succ, Machine.run_cons, hst, Option.bind_some, hrun]

theorem called_of_turn (hst : (machine h).step s .turn = some t) :
    ∃ p, s.next s.cb = some p ∧ t.called = s.called ++ [p] := by
  obtain ⟨p, hp, rfl⟩ := Option.map_eq_some_iff.mp hst
  exact ⟨p, hp, rfl⟩

/-- Who was called was called. -/
theorem called_of_turns {n : ℕ} (hrun : (machine h).run s (List.replicate n .turn) = some t) :
    s.called <+: t.called := by
  induction n generalizing s with
  | zero => exact Option.some.inj hrun ▸ List.prefix_rfl
  | succ n ih =>
    obtain ⟨u, hu, hrun⟩ := Option.bind_eq_some_iff.mp hrun
    obtain ⟨p, -, hcalled⟩ := called_of_turn hu
    exact (hcalled ▸ List.prefix_append _ _ : s.called <+: u.called).trans (ih hrun)

/-- Bound for one that is not registered, the call is off course… -/
theorem not_onCourse_of_next (hnext : s.next s.cb = some o) (ho : o ∉ s.registered) :
    ¬ s.OnCourse h := by
  rintro ⟨n, t, hrun, hend, -, hmem⟩
  cases n with
  | zero =>
    obtain rfl := Option.some.inj hrun
    rw [hnext] at hend
    cases hend
  | succ n =>
    obtain ⟨u, hu, hrun⟩ := Option.bind_eq_some_iff.mp hrun
    obtain ⟨p, hp, hcalled⟩ := called_of_turn hu
    obtain rfl := Option.some.inj (hnext.symm.trans hp)
    obtain ⟨l, hl⟩ := called_of_turns hrun
    refine ho (hmem o ?_)
    rw [← hl, hcalled, List.append_assoc, List.drop_left]
    exact List.mem_cons_self

/-- …and at its end, with one that stayed not called. -/
theorem not_onCourse_of_none (hnext : s.next s.cb = none) (ho : o ∈ s.stayed)
    (hout : o ∉ s.called) : ¬ s.OnCourse h := by
  rintro ⟨n, t, hrun, -, hwhole, -⟩
  cases n with
  | zero =>
    obtain rfl := Option.some.inj hrun
    rw [← hwhole] at ho
    exact hout (List.mem_filter.mp ho).1
  | succ n =>
    obtain ⟨u, hu, -⟩ := Option.bind_eq_some_iff.mp hrun
    obtain ⟨p, hp, -⟩ := called_of_turn hu
    rw [hnext] at hp
    cases hp

/-! ## The calls on the head -/

variable {next : ι → Option ι}

/-- One that is registered stays where it is. -/
theorem registerCb_of_registered (hl : Chain next (some h) (h :: l)) (hx : x ∈ l) :
    Callback.registerCb h next x (l.length + 1) = some (true, next) := by
  obtain ⟨s, t, rfl⟩ := List.append_of_mem hx
  obtain ⟨s', a, hs, hlen⟩ := exists_cons_eq_concat h s
  have hchain : Chain next (some h) (s' ++ a :: x :: t) := by
    rw [List.append_cons, ← hs]
    exact hl
  refine Callback.registerCb_of_le ?_ (Callback.registerCb_of_mem hchain)
  rw [List.length_append]
  omega

/-- A new one goes behind the others, and the fields of those off the list stay as they are. -/
theorem exists_registerCb_new (hl : Chain next (some h) (h :: l)) (hne : x ≠ h) (hx : x ∉ l) :
    ∃ next', Callback.registerCb h next x (l.length + 1) = some (true, next') ∧
      Chain next' (some h) (h :: (l ++ [x])) ∧ next' x = none ∧
      ∀ o ∉ h :: l, o ≠ x → next' o = next o := by
  obtain ⟨s, last, hs, hlen⟩ := exists_cons_eq_concat h l
  have hout : x ∉ s ++ [last] := by
    rw [← hs]
    exact List.not_mem_cons_of_ne_of_not_mem hne hx
  have hlast : x ≠ last := fun hxl => hout (by simp [hxl])
  have hchain : Chain next (some h) (s ++ [last]) := hs ▸ hl
  refine ⟨_, hlen ▸ Callback.registerCb_of_notMem hchain fun hmem =>
    hout (List.mem_of_mem_tail hmem), ?_, Function.update_self _ _ _, fun o ho hox => ?_⟩
  · rw [← List.cons_append, hs, Function.update_comm hlast.symm]
    exact (Chain.snoc_iff (hchain.assign hout none) hout).mpr (Function.update_self _ _ _)
  · have hol : o ≠ last := fun hol => ho (hs ▸ by simp [hol])
    exact (Function.update_of_ne hox _ _).trans (Function.update_of_ne hol _ _)

/-- One that goes is linked past, and its field and those of the others off the list stay. -/
theorem exists_unregisterCb_old (hl : Chain next (some h) (h :: l)) (hne : x ≠ h) :
    ∃ next', Callback.unregisterCb h next x (l.length + 1) = some next' ∧
      Chain next' (some h) (h :: l.erase x) ∧ next' x = next x ∧
      ∀ o ∉ h :: l, next' o = next o := by
  obtain ⟨next', hret, hchain, hsame⟩ :=
    Callback.exists_unregisterCb hl hne (Nat.lt_succ_self l.length)
  refine ⟨next', hret, hchain, hsame, fun o ho => ?_⟩
  by_cases hx : x ∈ l
  · obtain ⟨s, t, rfl⟩ := List.append_of_mem hx
    obtain ⟨s', a, hs, hlen⟩ := exists_cons_eq_concat h s
    have hsplit : h :: (s ++ x :: t) = s' ++ a :: x :: t := by
      rw [List.append_cons s' a, ← hs, List.cons_append]
    have hlink := Callback.unregisterCb_of_mem (hsplit ▸ hl)
    have hle : s'.length + 1 ≤ (s ++ x :: t).length + 1 := by
      rw [List.length_append]
      omega
    obtain rfl := Option.some.inj (hret.symm.trans (Callback.unregisterCb_of_le hle hlink))
    exact Function.update_of_ne (fun hoa => ho (hsplit ▸ by simp [hoa])) _ _
  · obtain ⟨s, last, hs, hlen⟩ := exists_cons_eq_concat h l
    have hnone : Callback.unregisterCb h next x (l.length + 1) = some next :=
      hlen ▸ Callback.unregisterCb_of_notMem (hs ▸ hl) (hs ▸ hx)
    obtain rfl := Option.some.inj (hret.symm.trans hnone)
    rfl

/-! ## The invariant -/

/-- **The invariant**: the callback being called is on the list with `todo` behind it, or has left
it and its `next` still points to the first of `todo`. -/
structure Ahead (h : ι) (todo : List ι) (s : CallWalk ι) : Prop where
  held : Chain s.next (some h) (h :: s.registered)
  place : (∃ front, h :: s.registered = front ++ s.cb :: todo) ∨
    s.cb ∉ h :: s.registered ∧ todo <:+ s.registered ∧ s.next s.cb = todo.head?
  whole : ((s.called ++ todo).filter fun o => o ∈ s.stayed) = s.stayed
  stayed : ∀ o ∈ s.stayed, o ∈ s.registered
  nodup : s.stayed.Nodup

theorem Ahead.suffix (hs : Ahead h todo s) : todo <:+ s.registered := by
  obtain ⟨front, hfront⟩ | ⟨-, hsuffix, -⟩ := hs.place
  · cases front with
    | nil => exact (List.cons.inj hfront).2 ▸ List.suffix_rfl
    | cons b front =>
      rw [(List.cons.inj hfront).2]
      exact (List.suffix_cons s.cb todo).trans (List.suffix_append _ _)
  · exact hsuffix

theorem Ahead.next_eq (hs : Ahead h todo s) : s.next s.cb = todo.head? := by
  obtain ⟨front, hfront⟩ | ⟨-, -, hnext⟩ := hs.place
  · exact (hfront ▸ hs.held).next_eq
  · exact hnext

theorem Ahead.onCourse (hs : Ahead h todo s) : s.OnCourse h := by
  have hchain : Chain s.next (s.next s.cb) todo := by
    obtain ⟨front, hfront⟩ := hs.suffix
    have hheld := hs.held
    rw [← hfront, ← List.cons_append] at hheld
    rw [hs.next_eq]
    exact hheld.drop
  obtain ⟨t, hrun, hend, hcalled⟩ := exists_run_turns hchain
  refine ⟨_, t, hrun, hend, by rw [hcalled, hs.whole], fun o ho => ?_⟩
  rw [hcalled, List.drop_left] at ho
  exact hs.suffix.mem ho

omit [DecidableEq ι] in
theorem nodup_of_held (hl : Chain next (some h) (h :: l)) : l.Nodup :=
  (List.nodup_cons.mp hl.nodup).2

theorem ahead_start (hl : Chain next (some h) (h :: l)) : Ahead h l (start h next l) :=
  ⟨hl, .inl ⟨[], rfl⟩, List.filter_eq_self.mpr fun _ ho => decide_eq_true ho, fun _ ho => ho,
    nodup_of_held hl⟩

/-! ## The steps -/

theorem Ahead.turn (hs : Ahead h todo s) (hst : (machine h).step s .turn = some t) :
    ∃ todo', Ahead h todo' t := by
  obtain ⟨p, hp, rfl⟩ := Option.map_eq_some_iff.mp hst
  cases todo with
  | nil =>
    rw [hs.next_eq] at hp
    cases hp
  | cons q todo =>
    obtain rfl := Option.some.inj (hs.next_eq.symm.trans hp)
    obtain ⟨front, hfront⟩ := hs.suffix
    refine ⟨todo, hs.held, .inl ⟨h :: front, ?_⟩, ?_, hs.stayed, hs.nodup⟩
    · rw [List.cons_append, hfront]
    · rw [List.append_assoc]
      exact hs.whole

/-- A new callback comes behind the others: it is called, unless the walk has lost its place or is
at the end. -/
theorem Ahead.register (hs : Ahead h todo s) (hx : x ∉ s.registered)
    (hok : s.cb = x → ∀ o ∈ s.stayed, o ∈ s.called) {next' : ι → Option ι}
    (hheld : Chain next' (some h) (h :: (s.registered ++ [x]))) (hnull : next' x = none)
    (hsame : ∀ o ∉ h :: s.registered, o ≠ x → next' o = s.next o) :
    ∃ todo', Ahead h todo' { s with next := next', registered := s.registered ++ [x] } := by
  have hnew : x ∉ s.stayed := fun hin => hx (hs.stayed x hin)
  have hstayed : ∀ o ∈ s.stayed, o ∈ s.registered ++ [x] :=
    fun o ho => List.mem_append_left _ (hs.stayed o ho)
  have hwhole : ((s.called ++ (todo ++ [x])).filter fun o => o ∈ s.stayed) = s.stayed := by
    rw [← List.append_assoc, List.filter_append, hs.whole,
      List.filter_cons_of_neg (by simpa using hnew), List.filter_nil, List.append_nil]
  obtain ⟨front, hfront⟩ | ⟨hout, hsuffix, hnext⟩ := hs.place
  · refine ⟨todo ++ [x], hheld, .inl ⟨front, ?_⟩, hwhole, hstayed, hs.nodup⟩
    rw [← List.cons_append, hfront, List.append_assoc, List.cons_append]
  obtain rfl | hcb := eq_or_ne s.cb x
  · -- back on the list, and last: none that stayed is still to be called
    refine ⟨[], hheld, .inl ⟨h :: s.registered, rfl⟩, ?_, hstayed, hs.nodup⟩
    have hnone : todo.filter (fun o => o ∈ s.stayed) = [] := by
      refine List.filter_eq_nil_iff.mpr fun o ho hin => ?_
      have hin : o ∈ s.stayed := of_decide_eq_true hin
      have hnodup := hs.nodup
      rw [← hs.whole, List.filter_append] at hnodup
      exact (List.nodup_append.mp hnodup).2.2 o
        (List.mem_filter.mpr ⟨hok rfl o hin, decide_eq_true hin⟩) o
        (List.mem_filter.mpr ⟨ho, decide_eq_true hin⟩) rfl
    have hwhole := hs.whole
    rwa [List.filter_append, hnone, ← List.filter_nil, ← List.filter_append] at hwhole
  · have hlost : s.cb ∉ h :: (s.registered ++ [x]) := by
      rw [← List.cons_append, List.mem_append, List.mem_singleton, not_or]
      exact ⟨hout, hcb⟩
    have hnext' : next' s.cb = todo.head? := (hsame _ hout hcb).trans hnext
    cases todo with
    | nil =>
      exact ⟨[], hheld, .inr ⟨hlost, List.nil_suffix, hnext'⟩, hs.whole, hstayed, hs.nodup⟩
    | cons p todo =>
      obtain ⟨front, hfront⟩ := hsuffix
      refine ⟨p :: todo ++ [x], hheld, .inr ⟨hlost, ⟨front, ?_⟩, hnext'⟩, hwhole, hstayed,
        hs.nodup⟩
      rw [← hfront, List.append_assoc]

/-- A callback goes, and the walk does not need it. -/
theorem Ahead.unregister (hs : Ahead h todo s) (hne : x ≠ h)
    (hok : s.cb ∉ h :: s.registered → s.next s.cb ≠ some x) {next' : ι → Option ι}
    (hheld : Chain next' (some h) (h :: s.registered.erase x)) (hx : next' x = s.next x)
    (hsame : ∀ o ∉ h :: s.registered, next' o = s.next o) :
    ∃ todo', Ahead h todo' { s with
      next := next', registered := s.registered.erase x, stayed := s.stayed.filter (· ≠ x) } := by
  have hnodup := nodup_of_held hs.held
  have htodo : todo.Nodup := hnodup.sublist hs.suffix.sublist
  have hwhole := filter_mem_filter_ne hs.whole htodo x
  have hstayed : ∀ o ∈ s.stayed.filter (· ≠ x), o ∈ s.registered.erase x := fun o ho => by
    obtain ⟨hin, hne⟩ := List.mem_filter.mp ho
    exact (List.mem_erase_of_ne (of_decide_eq_true hne)).mpr (hs.stayed o hin)
  have hgone : x ∉ h :: s.registered.erase x := fun hin => by
    obtain heq | hin := List.mem_cons.mp hin
    · exact hne heq
    · exact ((List.Nodup.mem_erase_iff hnodup).mp hin).1 rfl
  have hsuffix := suffix_erase hs.suffix hnodup x
  refine ⟨todo.erase x, hheld, ?_, hwhole, hstayed, hs.nodup.filter _⟩
  obtain ⟨front, hfront⟩ | ⟨hout, -, hnext⟩ := hs.place
  · have herase : h :: s.registered.erase x = (front ++ s.cb :: todo).erase x := by
      rw [← hfront, List.erase_cons_tail (by simpa using hne.symm)]
    have hparts := List.nodup_append.mp (hfront ▸ hs.held.nodup)
    have hcons := List.nodup_cons.mp hparts.2.1
    obtain rfl | hcb := eq_or_ne s.cb x
    · -- the one being called leaves, and what its field points to stays
      rw [List.erase_of_not_mem hcons.1] at hsuffix ⊢
      exact .inr ⟨hgone, hsuffix, hx.trans hs.next_eq⟩
    · refine .inl ?_
      by_cases hin : x ∈ front
      · have hfar : x ∉ todo := fun hmem =>
          hparts.2.2 x hin x (List.mem_cons_of_mem _ hmem) rfl
        rw [List.erase_of_not_mem hfar]
        exact ⟨front.erase x, herase.trans (List.erase_append_left _ hin)⟩
      · refine ⟨front, herase.trans ?_⟩
        rw [List.erase_append_right _ hin, List.erase_cons_tail (by simpa using hcb)]
  · have hhead := hok hout
    rw [hnext] at hhead
    refine .inr ⟨fun hin => hout (List.cons_subset_cons h List.erase_subset hin), hsuffix, ?_⟩
    exact ((hsame _ hout).trans hnext).trans (head?_erase hhead).symm

/-- **A step that does not strike** leaves a call that knows the way. -/
theorem Ahead.step (hs : Ahead h todo s) (ha : ¬ s.Strikes h a)
    (hst : (machine h).step s a = some t) : ∃ todo', Ahead h todo' t := by
  cases a with
  | turn => exact hs.turn hst
  | register cb =>
    obtain ⟨cb, hne⟩ := cb
    obtain ⟨r, hret, rfl⟩ := Option.map_eq_some_iff.mp hst
    by_cases hin : cb ∈ s.registered
    · obtain rfl := Option.some.inj ((registerCb_of_registered hs.held hin).symm.trans hret)
      rw [if_pos hin]
      exact ⟨todo, hs⟩
    · obtain ⟨next', hnew, hheld, hnull, hsame⟩ := exists_registerCb_new hs.held hne hin
      obtain rfl := Option.some.inj (hnew.symm.trans hret)
      rw [if_neg hin]
      refine hs.register hin (fun hcb o ho => ?_) hheld hnull hsame
      by_contra hout
      exact ha ⟨hcb, by rwa [hcb], o, ho, hout⟩
  | unregister cb =>
    obtain ⟨next', hret, rfl⟩ := Option.map_eq_some_iff.mp hst
    obtain ⟨next'', hold, hheld, hcb, hsame⟩ := exists_unregisterCb_old hs.held cb.2
    obtain rfl := Option.some.inj (hold.symm.trans hret)
    exact hs.unregister cb.2 (fun hout hnext => ha ⟨hout, hnext⟩) hheld hcb hsame

/-- **One that does** leaves it off course. -/
theorem Ahead.exists_strike (hs : Ahead h todo s) (ha : s.Strikes h a) :
    ∃ t, (machine h).step s a = some t ∧ ¬ t.OnCourse h := by
  match a, ha with
  | .register ⟨cb, hne⟩, ⟨hcb, hout, o, ho, hnot⟩ =>
    have hcb : s.cb = cb := hcb
    rw [hcb] at hout
    obtain ⟨next', hnew, -, hnull, -⟩ := exists_registerCb_new hs.held hne hout
    have hst : (machine h).step s (.register ⟨cb, hne⟩)
        = some { s with next := next', registered := s.registered ++ [cb] } := by
      simp only [machine, CallWalk.step, hnew, Option.map_some, if_neg hout]
    exact ⟨_, hst, not_onCourse_of_none (hcb ▸ hnull) ho hnot⟩
  | .unregister cb, ⟨hout, hnext⟩ =>
    obtain ⟨next', hold, -, -, hsame⟩ := exists_unregisterCb_old hs.held cb.2
    have hst : (machine h).step s (.unregister cb) = some { s with
        next := next', registered := s.registered.erase cb
        stayed := s.stayed.filter (· ≠ ↑cb) } := by
      simp only [machine, CallWalk.step, hold, Option.map_some]
    refine ⟨_, hst, not_onCourse_of_next ((hsame _ hout).trans hnext) fun hin => ?_⟩
    exact ((List.Nodup.mem_erase_iff (nodup_of_held hs.held)).mp hin).1 rfl

/-- **A delivery stays on course just while no callback that has left in its own call comes back
with others still to be called, or is followed by the one its `next` points to**, whatever else is
registered and unregistered meanwhile. -/
theorem always_delivers_iff (hl : Chain next (some h) (h :: l)) (as : List (CallAct h)) :
    (machine h).Always (OnCourse h) (start h next l) as
      ↔ (machine h).Along (fun s a => ¬ s.Strikes h a) (start h next l) as :=
  Machine.always_iff_along (J := fun s => ∃ todo, Ahead h todo s) ⟨_, ahead_start hl⟩
    (fun _ ⟨_, hs⟩ => hs.onCourse) (fun _ _ _ ⟨_, hs⟩ ha hst => hs.step ha hst)
    fun _ _ ⟨_, hs⟩ ha => hs.exists_strike (not_not.mp ha)

/-- A head and three callbacks. -/
def three : ℕ → Option ℕ := fun o => if o < 3 then some (o + 1) else none

/-- In the call of the first, the second may go and a fourth come; the first may go, but not the
second after it, nor may the first come back. -/
theorem always_delivers_three :
    (machine 0).Always (OnCourse 0) (start 0 three [1, 2, 3]) [.turn, .unregister ⟨2, by decide⟩,
      .register ⟨4, by decide⟩, .unregister ⟨1, by decide⟩, .turn, .turn] ∧
    ¬ (machine 0).Always (OnCourse 0) (start 0 three [1, 2, 3]) [.turn,
      .unregister ⟨1, by decide⟩, .unregister ⟨2, by decide⟩] ∧
    ¬ (machine 0).Always (OnCourse 0) (start 0 three [1, 2, 3]) [.turn,
      .unregister ⟨1, by decide⟩, .register ⟨1, by decide⟩] := by
  have hl : Chain three (some 0) [0, 1, 2, 3] := by decide
  rw [always_delivers_iff hl, always_delivers_iff hl, always_delivers_iff hl]
  decide

end CallWalk

end LibDronecan
