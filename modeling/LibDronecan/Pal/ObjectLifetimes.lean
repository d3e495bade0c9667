import LibDronecan.Pal.ObjectList

/-!
# Pal/ObjectLifetimes — objects of a `List<T>` from construction to destruction

    construct ──▸ on the list ──remove──▸ off it ──add──▸ on the list ──▸ destroy

`Lifetimes` runs an `ObjectList` next to the objects alive and those of them on the list.  `Tidy`
is what every operation starts from: the list is the chain of the latter, and an object off the list
has a null `next`.  An operation keeps it so, and comes back at all, exactly if it takes no object
off a list of others that it is not on (`Tidy.listOk_iff`).
-/

open Machinery

namespace LibDronecan

/-- Constructing and destroying an object, and the explicit calls in between. -/
inductive ListOp (ι : Type*) where
  | construct (obj : ι)
  | remove (obj : ι)
  | add (obj : ι)
  | destroy (obj : ι)

/-- A list, the objects that exist, and those constructed or added and not removed since, in the
order of their last addition. -/
structure Lifetimes (ι : Type*) where
  list : ObjectList ι
  live : ι → Bool
  members : List ι

namespace Lifetimes

variable {ι : Type*} [DecidableEq ι]

omit [DecidableEq ι] in
/-- No object, and an empty list. -/
def start (next : ι → Option ι) : Lifetimes ι := ⟨⟨none, next⟩, fun _ => false, []⟩

/-- Only objects that exist are called on, and only those off the list are added. -/
def Admissible (s : Lifetimes ι) : ListOp ι → Prop
  | .construct obj => s.live obj = false
  | .remove obj => s.live obj = true
  | .add obj => s.live obj = true ∧ obj ∉ s.members
  | .destroy obj => s.live obj = true

instance (s : Lifetimes ι) : ∀ op : ListOp ι, Decidable (s.Admissible op)
  | .construct _ => inferInstanceAs (Decidable (_ = _))
  | .remove _ => inferInstanceAs (Decidable (_ = _))
  | .add _ => inferInstanceAs (Decidable (_ ∧ _))
  | .destroy _ => inferInstanceAs (Decidable (_ = _))

/-- The operation, given `n` turns of its loop. -/
def exec (n : ℕ) (l : ObjectList ι) : ListOp ι → Option (Exit (ObjectList ι))
  | .construct obj => l.construct obj n
  | .remove obj => l.remove obj n
  | .add obj => l.add obj n
  | .destroy obj => l.destroy obj n

/-- The objects alive after the operation. -/
def liveAfter (s : Lifetimes ι) : ListOp ι → ι → Bool
  | .construct obj => Function.update s.live obj true
  | .remove _ => s.live
  | .add _ => s.live
  | .destroy obj => Function.update s.live obj false

/-- The objects on the list after the operation. -/
def after (s : Lifetimes ι) : ListOp ι → List ι
  | .construct obj => s.members ++ [obj]
  | .remove obj => s.members.erase obj
  | .add obj => s.members ++ [obj]
  | .destroy obj => s.members.erase obj

/-- Operations that return, each with the turns it is given. -/
def machine : Machine (Lifetimes ι) (ListOp ι × ℕ) where
  step s a :=
    if s.Admissible a.1 then
      match exec a.2 s.list a.1 with
      | some (.returned l) => some ⟨l, s.liveAfter a.1, s.after a.1⟩
      | _ => none
    else none

omit [DecidableEq ι] in
/-- **The list holds exactly these objects**, in this order, and `get` finds them there. -/
def Holds (l : ObjectList ι) (m : List ι) : Prop :=
  Chain l.next l.head m ∧ ∀ index, l.get index = m[index.toNat]?

/-- **The operation is right**: it returns, through no null pointer, and the list then holds the
objects that are alive and not removed. -/
def ListOk (s : Lifetimes ι) (a : ListOp ι × ℕ) : Prop :=
  s.Admissible a.1 → ∃ n l, exec n s.list a.1 = some (.returned l) ∧ Holds l (s.after a.1)

/-- What is removed or destroyed is on the list, or nothing is. -/
def Present (s : Lifetimes ι) (a : ListOp ι × ℕ) : Prop :=
  match a.1 with
  | .construct _ => True
  | .add _ => True
  | .remove obj => s.live obj = true → obj ∈ s.members ∨ s.members = []
  | .destroy obj => s.live obj = true → obj ∈ s.members ∨ s.members = []

/-- **What an operation starts from**: the list is the chain of its members, all alive, and who is
alive and off the list has a null `next`. -/
structure Tidy (s : Lifetimes ι) : Prop where
  chain : Chain s.list.next s.list.head s.members
  alive : ∀ o ∈ s.members, s.live o = true
  null : ∀ o, s.live o = true → o ∉ s.members → s.list.next o = none

variable {s t : Lifetimes ι} {l : ObjectList ι} {m : List ι} {obj : ι}

omit [DecidableEq ι] in
theorem holds_iff : Holds l m ↔ Chain l.next l.head m :=
  ⟨And.left, fun h => ⟨h, fun index => ObjectList.getFrom_eq h index.toNat⟩⟩

omit [DecidableEq ι] in
theorem tidy_start (next : ι → Option ι) : Tidy (start next) :=
  ⟨rfl, fun _ h => absurd h List.not_mem_nil, fun _ h => nomatch h⟩

/-- Putting an object with a null `next` on the list. -/
theorem Tidy.exists_add (h : Tidy s) {next : ι → Option ι} (hobj : obj ∉ s.members)
    (hnull : next obj = none) (hnext : ∀ o ≠ obj, next o = s.list.next o) :
    ∃ l, ObjectList.add { s.list with next := next } obj s.members.length = some (.returned l) ∧
      Tidy ⟨l, Function.update s.live obj true, s.members ++ [obj]⟩ := by
  have hchain : Chain next s.list.head s.members :=
    h.chain.congr fun o ho => hnext o fun hoo => hobj (hoo ▸ ho)
  obtain ⟨l, hl, hl_chain, hl_next⟩ := ObjectList.exists_add
    (l := { s.list with next := next }) hchain hobj hnull le_rfl
  refine ⟨l, hl, hl_chain, fun o ho => ?_, fun o ho hmem => ?_⟩
  · rcases List.mem_append.mp ho with ho | ho
    · have hne : o ≠ obj := fun hoo => hobj (hoo ▸ ho)
      exact (Function.update_of_ne hne _ _).trans (h.alive o ho)
    · obtain rfl := List.mem_singleton.mp ho
      exact Function.update_self _ _ _
  · rw [List.mem_append, List.mem_singleton, not_or] at hmem
    rw [hl_next o hmem.1]
    have hlive : s.live o = true := (Function.update_of_ne hmem.2 _ _).symm.trans ho
    exact (hnext o hmem.2).trans (h.null o hlive hmem.1)

/-- Taking an object off the list it is on, or off an empty one. -/
theorem Tidy.exists_remove (h : Tidy s) (hobj : obj ∈ s.members ∨ s.members = [])
    (hlive : s.live obj = true) :
    ∃ l, s.list.remove obj s.members.length = some (.returned l) ∧
      ∀ b, Tidy ⟨l, Function.update s.live obj b, s.members.erase obj⟩ := by
  have hold {b : Bool} {o : ι} (hne : o ≠ obj) (ho : Function.update s.live obj b o = true) :
      s.live o = true := (Function.update_of_ne hne _ _).symm.trans ho
  rcases hobj with hobj | hempty
  · obtain ⟨l, hl, hl_chain, hl_obj, hl_next⟩ := ObjectList.exists_remove h.chain hobj le_rfl
    refine ⟨l, hl, fun b => ⟨hl_chain, fun o ho => ?_, fun o ho hmem => ?_⟩⟩
    · obtain ⟨hne, hin⟩ := (List.Nodup.mem_erase_iff h.chain.nodup).mp ho
      exact (Function.update_of_ne hne _ _).trans (h.alive o hin)
    · obtain rfl | hne := eq_or_ne o obj
      · exact hl_obj
      · have hout : o ∉ s.members := fun hin => hmem ((List.mem_erase_of_ne hne).mpr hin)
        exact (hl_next o hout).trans (h.null o (hold hne ho) hout)
  · have hhead : s.list.head = none := by
      rw [h.chain.eq_head?, hempty, List.head?_nil]
    refine ⟨s.list, by rw [ObjectList.remove, hhead], fun b => ?_⟩
    rw [hempty, List.erase_nil]
    refine ⟨hhead, fun o ho => absurd ho List.not_mem_nil, fun o ho _ => ?_⟩
    have hout : o ∉ s.members := hempty ▸ List.not_mem_nil
    obtain rfl | hne := eq_or_ne o obj
    · exact h.null o hlive hout
    · exact h.null o (hold hne ho) hout

/-- **An operation on what is there returns**, and leaves the list tidy. -/
theorem Tidy.exists_exec (h : Tidy s) {op : ListOp ι} (hadm : s.Admissible op)
    (hp : ∀ n, Present s (op, n)) : ∃ l, exec s.members.length s.list op = some (.returned l) ∧
      Tidy ⟨l, s.liveAfter op, s.after op⟩ := by
  have hself {obj : ι} (hlive : s.live obj = true) : Function.update s.live obj true = s.live :=
    hlive ▸ Function.update_eq_self obj s.live
  cases op with
  | construct obj =>
    have hout : obj ∉ s.members := fun hin => by
      rw [Admissible, h.alive obj hin] at hadm
      cases hadm
    exact h.exists_add hout (Function.update_self _ _ _) fun o ho => Function.update_of_ne ho _ _
  | remove obj =>
    obtain ⟨l, hl, htidy⟩ := h.exists_remove (hp 0 hadm) hadm
    have htrue := htidy true
    rw [hself hadm] at htrue
    exact ⟨l, hl, htrue⟩
  | add obj =>
    obtain ⟨l, hl, htidy⟩ := h.exists_add hadm.2 (h.null obj hadm.1 hadm.2) fun _ _ => rfl
    rw [hself hadm.1] at htidy
    exact ⟨l, hl, htidy⟩
  | destroy obj =>
    obtain ⟨l, hl, htidy⟩ := h.exists_remove (hp 0 hadm) hadm
    exact ⟨l, hl, htidy false⟩

theorem turnFree_exec (l : ObjectList ι) (op : ListOp ι) : TurnFree fun n => exec n l op := by
  cases op with
  | construct obj => exact ObjectList.turnFree_add _ obj
  | remove obj => exact l.turnFree_remove obj
  | add obj => exact l.turnFree_add obj
  | destroy obj => exact l.turnFree_remove obj

/-- **Removing what is not there does not return.** -/
theorem Tidy.present_of_remove (h : Tidy s) {n : ℕ}
    (hret : s.list.remove obj n = some (.returned l)) : obj ∈ s.members ∨ s.members = [] := by
  by_contra hne
  rw [not_or] at hne
  have hfault := ObjectList.remove_of_notMem h.chain hne.1 hne.2 le_rfl
  exact nomatch s.list.turnFree_remove obj hfault hret

/-- **From a tidy list, an operation is right exactly if it takes off only what is there.** -/
theorem Tidy.listOk_iff (h : Tidy s) (a : ListOp ι × ℕ) : ListOk s a ↔ Present s a := by
  obtain ⟨op, m⟩ := a
  constructor
  · intro hok
    cases op with
    | construct obj => trivial
    | add obj => trivial
    | remove obj =>
      intro hlive
      obtain ⟨n, l, hret, -⟩ := hok hlive
      exact h.present_of_remove hret
    | destroy obj =>
      intro hlive
      obtain ⟨n, l, hret, -⟩ := hok hlive
      exact h.present_of_remove hret
  · intro hp hadm
    obtain ⟨l, hret, htidy⟩ := h.exists_exec hadm fun _ => hp
    exact ⟨_, l, hret, holds_iff.mpr htidy.chain⟩

theorem Tidy.step (h : Tidy s) {a : ListOp ι × ℕ} (hp : Present s a)
    (hst : machine.step s a = some t) : Tidy t := by
  simp only [machine] at hst
  split_ifs at hst with hadm
  obtain ⟨l, hret, htidy⟩ := h.exists_exec hadm fun _ => hp
  split at hst
  · case _ l' hret' =>
    obtain rfl : l = l' := by
      injection turnFree_exec _ _ hret hret'
    exact Option.some.inj hst ▸ htidy
  · cases hst

/-- An operation that returns has taken off only what is there. -/
theorem Tidy.present_of_step (h : Tidy s) {a : ListOp ι × ℕ} (hst : machine.step s a = some t) :
    Present s a := by
  obtain ⟨op, n⟩ := a
  simp only [machine] at hst
  split_ifs at hst
  split at hst
  · rename_i hret
    cases op with
    | construct obj => trivial
    | add obj => trivial
    | remove obj => exact fun _ => h.present_of_remove hret
    | destroy obj => exact fun _ => h.present_of_remove hret
  · cases hst

theorem members_of_step {a : ListOp ι × ℕ} (hst : machine.step s a = some t) :
    t.members = s.after a.1 := by
  simp only [machine] at hst
  split_ifs at hst
  split at hst
  · exact Option.some.inj hst ▸ rfl
  · cases hst

/-- **A list serves its objects over a whole history exactly while none is removed or destroyed that
is off the list and leaves others there.** -/
theorem along_listOk_iff (next : ι → Option ι) (ops : List (ListOp ι × ℕ)) :
    machine.Along ListOk (start next) ops ↔ machine.Along Present (start next) ops :=
  Machine.along_iff_along (tidy_start next) (fun _ a h => h.listOk_iff a)
    fun _ _ _ h hp hst => h.step hp hst

/-- Two objects, the first of them taken off the list. -/
def firstRemoved : List (ListOp ℕ × ℕ) := [(.construct 0, 1), (.construct 1, 1), (.remove 0, 1)]

/-- Where that leads. -/
def secondLeft : Lifetimes ℕ :=
  (machine.run (start fun _ => none) firstRemoved).get (by decide)

/-- **Destroying an object that was removed already follows a null pointer** when another object is
on the list. -/
theorem not_forall_along_listOk : ¬ ∀ (next : ℕ → Option ℕ) (ops : List (ListOp ℕ × ℕ)),
    machine.Along ListOk (start next) ops := by
  intro h
  have hbad : ¬ ListOk secondLeft (.destroy 0, 1) := by
    intro hok
    obtain ⟨n, l, hret, -⟩ := hok (by decide)
    have hfault : exec 1 secondLeft.list (.destroy 0) = some .nullDeref := rfl
    exact nomatch turnFree_exec _ _ hfault hret
  exact Machine.not_along_iff.mpr ⟨firstRemoved, _, [], secondLeft, rfl,
    (Option.some_get _).symm, hbad⟩ (h (fun _ => none) (firstRemoved ++ [(.destroy 0, 1)]))

end Lifetimes

end LibDronecan
