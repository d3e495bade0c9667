import Mathlib.Data.BitVec
import LibDronecan.Machinery.Chain
import LibDronecan.Machinery.Run

/-!
# Pal/ObjectList — `dronecan::List<T>`, a list its objects put themselves on

    List() : add ──▸ on the list ⇄ removed ──▸ ~List() : remove

The list is threaded through a private `next` of its objects; the constructor adds the object and
the destructor removes it.  `remove` looks for the object's predecessor with no other end to its
search, so on a list that holds others but not the object it runs off the end, through a null
pointer (`remove_of_notMem`).  `add` and `remove` are otherwise right (`exists_add`,
`exists_remove`), hence `along_listOk_iff`: all is well exactly while nothing is removed or
destroyed that is not on the list and leaves others there.
-/

open Machinery

namespace LibDronecan

/-- `List<T>`: its head, and the `next` of every object. -/
structure ObjectList (ι : Type*) where
  head : Option ι
  next : ι → Option ι

namespace ObjectList

variable {ι : Type*} [DecidableEq ι]

/-- The loop of `add`: to the last object, and link behind it. -/
def addTurn (l : ObjectList ι) (obj tmp : ι) : Turn ι (Exit (ObjectList ι)) :=
  match l.next tmp with
  | none => .leave (.returned { l with next := Function.update l.next tmp (some obj) })
  | some t => .again t

/-- `List::add`. -/
def add (l : ObjectList ι) (obj : ι) (n : ℕ) : Option (Exit (ObjectList ι)) :=
  match l.head with
  | none => some (.returned { l with head := some obj })
  | some head => loop (l.addTurn obj) n head

/-- The loop of `remove`, and what follows it.  `tmp` is not null, but what it moves on to may be,
and then the next test reads through it. -/
def removeTurn (l : ObjectList ι) (obj tmp : ι) : Turn ι (Exit (ObjectList ι)) :=
  if l.next tmp = some obj then
    .leave (.returned { l with
      next := Function.update (Function.update l.next tmp (l.next obj)) obj none })
  else
    match l.next tmp with
    | none => .leave .nullDeref
    | some t => .again t

/-- `List::remove`. -/
def remove (l : ObjectList ι) (obj : ι) (n : ℕ) : Option (Exit (ObjectList ι)) :=
  match l.head with
  | none => some (.returned l)
  | some head =>
      if head = obj then
        some (.returned { head := l.next obj, next := Function.update l.next obj none })
      else loop (l.removeTurn obj) n head

/-- `List::List`. -/
def construct (l : ObjectList ι) (obj : ι) (n : ℕ) : Option (Exit (ObjectList ι)) :=
  { l with next := Function.update l.next obj none }.add obj n

/-- `List::~List`. -/
def destroy (l : ObjectList ι) (obj : ι) (n : ℕ) : Option (Exit (ObjectList ι)) := l.remove obj n

omit [DecidableEq ι] in
/-- The loop of `get`, `i` steps from its end. -/
def getFrom (next : ι → Option ι) : ℕ → Option ι → Option ι
  | 0, tmp => tmp
  | _ + 1, none => none
  | i + 1, some tmp => getFrom next i (next tmp)

omit [DecidableEq ι] in
/-- `List::get`. -/
def get (l : ObjectList ι) (index : BitVec 8) : Option ι := getFrom l.next index.toNat l.head

variable {l l' : ObjectList ι} {obj a : ι} {m : List ι}

omit [DecidableEq ι] in
theorem getFrom_eq {next : ι → Option ι} {p : Option ι} (h : Chain next p m) (i : ℕ) :
    getFrom next i p = m[i]? := by
  induction i generalizing p m with
  | zero => exact h.eq_head?.trans List.head?_eq_getElem?
  | succ i ih =>
    cases m with
    | nil =>
      rw [h]
      rfl
    | cons a m =>
      rw [h.1, List.getElem?_cons_succ]
      exact ih h.2

theorem add_eq_loop {head : ι} (h : l.head = some head) (n : ℕ) :
    l.add obj n = loop (l.addTurn obj) n head := by
  rw [add, h]

theorem remove_eq_loop {head : ι} (h : l.head = some head) (hne : head ≠ obj) (n : ℕ) :
    l.remove obj n = loop (l.removeTurn obj) n head := by
  rw [remove, h]
  exact if_neg hne

/-- Whatever turns it is given, `add` comes back the same way… -/
theorem turnFree_add (l : ObjectList ι) (obj : ι) : TurnFree (l.add obj) := by
  unfold add
  split
  · exact turnFree_some _
  · exact turnFree_loop _ _

/-- …and so does `remove`. -/
theorem turnFree_remove (l : ObjectList ι) (obj : ι) : TurnFree (l.remove obj) := by
  unfold remove
  split
  · exact turnFree_some _
  · split_ifs
    · exact turnFree_some _
    · exact turnFree_loop _ _

/-- **`add` puts an object with a null `next` at the end of the list**, and touches the last one on
it only. -/
theorem exists_add (h : Chain l.next l.head m) (hobj : obj ∉ m) (hnull : l.next obj = none) {n : ℕ}
    (hn : m.length ≤ n) :
    ∃ l', l.add obj n = some (.returned l') ∧ Chain l'.next l'.head (m ++ [obj]) ∧
      ∀ o ∉ m, l'.next o = l.next o := by
  rcases List.eq_nil_or_concat' m with rfl | ⟨m, last, rfl⟩
  · refine ⟨{ l with head := some obj }, ?_, ⟨rfl, hnull⟩, fun _ _ => rfl⟩
    simp only [add, chain_nil.mp h]
  · have hlast : l.next last = none := h.next_last
    refine ⟨{ l with next := Function.update l.next last (some obj) }, ?_,
      (h.snoc_iff hobj).mpr hnull, fun o ho => ?_⟩
    · obtain ⟨head, hhead⟩ := h.exists_eq_some
      rw [hhead] at h
      have hwalk : loop (l.addTurn obj) (m.length + 1) head = loop (l.addTurn obj) 1 last :=
        h.loop_eq (fun x _ y _ hy => by simp only [addTurn, hy]) 1
      have hturn : loop (l.addTurn obj) 1 last
          = some (.returned { l with next := Function.update l.next last (some obj) }) :=
        loop_of_leave (by simp only [addTurn, hlast]) 0
      rw [add_eq_loop hhead]
      exact loop_of_le (by simpa using hn) (hwalk.trans hturn)
    · exact Function.update_of_ne (fun hol => ho (by simp [hol])) _ _

/-- The search of `remove` passes the objects whose `next` is another than the one it looks for. -/
theorem loop_removeTurn {b : ι} {s t : List ι} (h : Chain l.next (some a) (s ++ b :: t))
    (hobj : obj ∉ s ++ [b]) (n : ℕ) :
    loop (l.removeTurn obj) (s.length + n) a = loop (l.removeTurn obj) n b := by
  refine h.loop_eq (fun x _ y hmem hy => ?_) n
  have hne : y ≠ obj := fun hyo => hobj (hyo ▸ List.mem_of_mem_tail hmem)
  simp only [removeTurn, hy, Option.some.injEq, if_neg hne]

/-- **`remove` takes an object out of the list it is on**, and clears its `next`. -/
theorem exists_remove (h : Chain l.next l.head m) (hobj : obj ∈ m) {n : ℕ} (hn : m.length ≤ n) :
    ∃ l', l.remove obj n = some (.returned l') ∧ Chain l'.next l'.head (m.erase obj) ∧
      l'.next obj = none ∧ ∀ o ∉ m, l'.next o = l.next o := by
  obtain ⟨s, t, rfl⟩ := List.append_of_mem hobj
  have hnodup := h.nodup
  rcases List.eq_nil_or_concat' s with rfl | ⟨s, a, rfl⟩
  · refine ⟨{ head := l.next obj, next := Function.update l.next obj none }, ?_, ?_,
      Function.update_self _ _ _, fun o ho => ?_⟩
    · simp only [remove, h.1, if_true]
    · rw [List.nil_append, List.erase_cons_head]
      exact h.2.assign (List.nodup_cons.mp hnodup).1 none
    · exact Function.update_of_ne (fun hoo => ho (by simp [hoo])) _ _
  · rw [List.append_assoc, List.singleton_append] at h hn hnodup ⊢
    have hmem := h.notMem_front
    have hnext : l.next a = some obj := h.next_eq
    have herase := h.erase_eq
    refine ⟨{ l with next := Function.update (Function.update l.next a (l.next obj)) obj none },
      ?_, ?_, Function.update_self _ _ _, fun o ho => ?_⟩
    · obtain ⟨head, hhead⟩ := h.exists_eq_some
      rw [hhead] at h
      have hne : head ≠ obj := fun hne => hmem (hne ▸ h.start_mem)
      have hturn : loop (l.removeTurn obj) 1 a = some (.returned { l with
          next := Function.update (Function.update l.next a (l.next obj)) obj none }) :=
        loop_of_leave (by simp only [removeTurn, hnext, if_true]) 0
      rw [remove_eq_loop hhead hne]
      refine loop_of_le ?_ ((loop_removeTurn h hmem 1).trans hturn)
      rw [List.length_append, List.length_cons] at hn
      omega
    · rw [herase]
      refine (h.unlink).assign ?_ none
      rw [← herase]
      exact fun hin => (List.Nodup.mem_erase_iff hnodup).mp hin |>.1 rfl
    · have hoo : o ≠ obj := fun hoo => ho (by simp [hoo])
      have hoa : o ≠ a := fun hoa => ho (by simp [hoa])
      exact (Function.update_of_ne hoo _ _).trans (Function.update_of_ne hoa _ _)

/-- **On a list of others, `remove` runs off the end.** -/
theorem remove_of_notMem (h : Chain l.next l.head m) (hobj : obj ∉ m) (hne : m ≠ []) {n : ℕ}
    (hn : m.length ≤ n) : l.remove obj n = some .nullDeref := by
  obtain ⟨m, last, rfl⟩ := (List.eq_nil_or_concat' m).resolve_left hne
  obtain ⟨head, hhead⟩ := h.exists_eq_some
  have hlast : l.next last = none := h.next_last
  have hhead_ne : head ≠ obj := by
    rintro rfl
    rw [h.eq_head?] at hhead
    exact hobj (List.mem_of_head? hhead)
  rw [hhead] at h
  rw [remove_eq_loop hhead hhead_ne]
  exact loop_of_le (by simpa using hn) ((loop_removeTurn h hobj 1).trans
    (loop_of_leave (by simp only [removeTurn, hlast, reduceCtorEq, if_false]) 0))

end ObjectList

end LibDronecan
