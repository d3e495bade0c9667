import Mathlib.Data.List.Basic
import Mathlib.Logic.Function.Basic
import Mathlib.Order.WellFounded
import LibDronecan.Machinery.Loop

/-!
# Machinery/Chain — chains of objects linked through a field

    p ──▸ a ──next──▸ b ──next──▸ … ──next──▸ null

`Chain next p l` says that following `next` from the pointer `p` meets exactly the objects of `l`,
and then null.  It determines `l`, and no object is met twice (`Chain.nodup`); assigning the field
of an object that is not met changes nothing, and the two assignments that lists are edited by do
what they are meant to: `Chain.snoc` links an object behind the last one, `Chain.unlink` links past
one.  A loop that follows the field walks down `l` (`Chain.loop_eq`).  `Grounded` says that every
object has such a chain, whether or not anything points to it.
-/

namespace Machinery

variable {ι : Type*}

/-- **Following `next` from `p` meets the objects of `l`, then null.** -/
def Chain (next : ι → Option ι) : Option ι → List ι → Prop
  | p, [] => p = none
  | p, a :: l => p = some a ∧ Chain next (next a) l

instance decidableChain [DecidableEq ι] (next : ι → Option ι) :
    ∀ (p : Option ι) (l : List ι), Decidable (Chain next p l)
  | p, [] => inferInstanceAs (Decidable (p = none))
  | p, a :: l =>
      have : Decidable (Chain next (next a) l) := decidableChain next (next a) l
      inferInstanceAs (Decidable (p = some a ∧ Chain next (next a) l))

variable {next : ι → Option ι} {p : Option ι} {a b : ι} {l l₁ l₂ : List ι}

@[simp] theorem chain_nil : Chain next p [] ↔ p = none := Iff.rfl

@[simp] theorem chain_cons : Chain next p (a :: l) ↔ p = some a ∧ Chain next (next a) l := Iff.rfl

/-- A chain starts at its first object. -/
theorem Chain.eq_head? (h : Chain next p l) : p = l.head? := by
  cases l with
  | nil => exact h
  | cons a l => exact h.1

/-- A chain with an object does not start at null. -/
theorem Chain.exists_eq_some (h : Chain next p (l₁ ++ a :: l₂)) : ∃ head, p = some head := by
  cases l₁ with
  | nil => exact ⟨a, h.1⟩
  | cons x l₁ => exact ⟨x, h.1⟩

/-- It starts at that object or in front of it. -/
theorem Chain.start_mem (h : Chain next (some b) (l₁ ++ a :: l₂)) : b ∈ l₁ ++ [a] := by
  cases l₁ with
  | nil => exact List.mem_singleton.mpr (Option.some.inj h.1)
  | cons x l₁ => exact Option.some.inj h.1 ▸ List.mem_cons_self

/-- What is left of a chain from some object on. -/
theorem Chain.drop (h : Chain next p (l₁ ++ l₂)) : Chain next l₂.head? l₂ := by
  induction l₁ generalizing p with
  | nil =>
    rw [List.nil_append] at h
    rwa [← h.eq_head?]
  | cons a l ih => exact ih h.2

/-- **The field of an object of the chain** points to the one behind it. -/
theorem Chain.next_eq (h : Chain next p (l₁ ++ a :: l₂)) : next a = l₂.head? :=
  (h.drop).2.eq_head?

/-- That of the last one is null. -/
theorem Chain.next_last (h : Chain next p (l ++ [a])) : next a = none :=
  (h.drop).2

/-- **A chain is determined by its start.** -/
theorem Chain.unique {l' : List ι} (h : Chain next p l) (h' : Chain next p l') : l = l' := by
  induction l generalizing p l' with
  | nil =>
    cases l' with
    | nil => rfl
    | cons a l' => exact absurd (h.symm.trans h'.1) (Option.some_ne_none a).symm
  | cons a l ih =>
    cases l' with
    | nil => exact absurd (h'.symm.trans h.1) (Option.some_ne_none a).symm
    | cons b l' =>
      obtain rfl := Option.some.inj (h.1.symm.trans h'.1)
      rw [ih h.2 h'.2]

/-- **No object is met twice**: from there on, the chain would be longer than itself. -/
theorem Chain.nodup (h : Chain next p l) : l.Nodup := by
  induction l generalizing p with
  | nil => exact List.nodup_nil
  | cons a l ih =>
    refine List.nodup_cons.mpr ⟨fun hmem => ?_, ih h.2⟩
    obtain ⟨s, t, rfl⟩ := List.append_of_mem hmem
    have hself : s ++ a :: t = t := h.2.unique (h.2.drop).2
    have hlen := congrArg List.length hself
    simp only [List.length_append, List.length_cons] at hlen
    omega

/-- The first object is not met again. -/
theorem Chain.notMem_tail (h : Chain next (some a) l) : a ∉ l.tail := by
  cases l with
  | nil => exact List.not_mem_nil
  | cons b l =>
    obtain rfl := Option.some.inj h.1
    exact (List.nodup_cons.mp h.nodup).1

/-- The object behind `a` is not met before. -/
theorem Chain.notMem_front (h : Chain next p (l₁ ++ a :: b :: l₂)) : b ∉ l₁ ++ [a] := by
  have hnodup := h.nodup
  rw [List.append_cons] at hnodup
  exact fun hmem => (List.nodup_append.mp hnodup).2.2 b hmem b List.mem_cons_self rfl

/-- A chain that starts at an object, split at its last one. -/
theorem exists_cons_eq_concat (a : ι) (l : List ι) :
    ∃ s last, a :: l = s ++ [last] ∧ s.length = l.length := by
  obtain ⟨s, last, hs⟩ := (List.eq_nil_or_concat' (a :: l)).resolve_left (List.cons_ne_nil _ _)
  have hlen := congrArg List.length hs
  simp only [List.length_cons, List.length_append, List.length_nil] at hlen
  exact ⟨s, last, hs, by omega⟩

/-- Fields of objects that are not met do not matter. -/
theorem Chain.congr {next' : ι → Option ι} (h : Chain next p l) (hn : ∀ a ∈ l, next' a = next a) :
    Chain next' p l := by
  induction l generalizing p with
  | nil => exact h
  | cons a l ih =>
    refine ⟨h.1, ih ?_ fun b hb => hn b (List.mem_cons_of_mem a hb)⟩
    rw [hn a List.mem_cons_self]
    exact h.2

/-! ## Loops down a chain -/

/-- **A loop that follows the field walks down the chain** to the first object it stops at. -/
theorem Chain.loop_eq {ρ : Type*} {body : ι → Turn ι ρ} (h : Chain next (some a) (l₁ ++ b :: l₂))
    (hgo : ∀ x ∈ l₁, ∀ y ∈ (l₁ ++ [b]).tail, next x = some y → body x = .again y) (n : ℕ) :
    loop body (l₁.length + n) a = loop body n b := by
  induction l₁ generalizing a with
  | nil =>
    obtain rfl := Option.some.inj h.1
    rw [List.length_nil, Nat.zero_add]
  | cons x l₁ ih =>
    obtain rfl := Option.some.inj h.1
    have hchain : Chain next (next a) (l₁ ++ b :: l₂) := h.2
    obtain ⟨y, hy⟩ := hchain.exists_eq_some
    have hmem : y ∈ l₁ ++ [b] := by
      have hhead := hchain.eq_head?.symm.trans hy
      cases l₁ with
      | nil => simpa [eq_comm] using hhead
      | cons z l₁ => simp_all
    rw [hy] at hchain
    rw [List.length_cons, Nat.add_right_comm,
      loop_of_again (hgo a List.mem_cons_self y hmem hy)]
    exact ih hchain fun x hx z hz => hgo x (List.mem_cons_of_mem a hx) z (List.mem_of_mem_tail hz)

/-- One turn of the loop `while (p) { … p = p->next; }`. -/
def visit {α : Type*} (next : ι → Option ι) (f : α → ι → α) :
    Option ι × α → Turn (Option ι × α) α
  | (none, x) => .leave x
  | (some a, x) => .again (next a, f x a)

/-- **A traversal ends, having visited the chain in order.** -/
theorem Chain.loop_visit {α : Type*} (h : Chain next p l) (f : α → ι → α) (x : α) :
    loop (visit next f) (l.length + 1) (p, x) = some (l.foldl f x) := by
  induction l generalizing p x with
  | nil =>
    rw [h]
    rfl
  | cons a l ih =>
    rw [h.1, List.length_cons,
      loop_of_again (rfl : visit next f (some a, x) = .again (next a, f x a)), ih h.2,
      List.foldl_cons]

/-! ## What is met -/

/-- Following the field from `p` meets `o`, whether it comes to an end or not. -/
inductive Meets (next : ι → Option ι) : Option ι → ι → Prop where
  | here (o : ι) : Meets next (some o) o
  | there {a o : ι} (h : Meets next (next a) o) : Meets next (some a) o

variable {o : ι}

/-- A chain is what is met. -/
theorem Chain.mem_of_meets (h : Chain next p l) (ho : Meets next p o) : o ∈ l := by
  induction ho generalizing l with
  | here o =>
    cases l with
    | nil => cases h
    | cons a l => exact Option.some.inj h.1 ▸ List.mem_cons_self
  | there _ ih =>
    cases l with
    | nil => cases h
    | cons a l =>
      obtain rfl := Option.some.inj h.1
      exact List.mem_cons_of_mem _ (ih h.2)

theorem Meets.step (h : Meets next p a) (ha : next a = some b) : Meets next p b := by
  induction h with
  | here a => exact .there (ha ▸ .here b)
  | there _ ih => exact .there (ih ha)

theorem Meets.tail (h : Meets next (some a) o) (hne : o ≠ a) : Meets next (next a) o := by
  cases h with
  | here => exact absurd rfl hne
  | there h => exact h

/-! ## Editing a chain -/

variable [DecidableEq ι]

/-- Assigning a field that was null loses nothing. -/
theorem Meets.assign (h : Meets next p o) (ha : next a = none) (q : Option ι) :
    Meets (Function.update next a q) p o := by
  induction h with
  | here o => exact .here o
  | there h ih =>
    rename_i x o
    have hxa : x ≠ a := by
      rintro rfl
      rw [ha] at h
      cases h
    exact .there (by rwa [Function.update_of_ne hxa])

/-- Linking past an object loses no other. -/
theorem Meets.unlink (h : Meets next p o) (hab : next a = some b) (hne : a ≠ b) (ho : o ≠ b) :
    Meets (Function.update next a (next b)) p o := by
  induction h with
  | here o => exact .here o
  | there _ ih =>
    rename_i x o _
    refine .there ?_
    obtain rfl | hxa := eq_or_ne x a
    · have hb := (hab ▸ ih ho).tail ho
      rw [Function.update_of_ne hne.symm] at hb
      rwa [Function.update_self]
    · rw [Function.update_of_ne hxa]
      exact ih ho

theorem Chain.assign (h : Chain next p l) (ha : a ∉ l) (q : Option ι) :
    Chain (Function.update next a q) p l :=
  h.congr fun b hb => Function.update_of_ne (fun hba : b = a => ha (hba ▸ hb)) _ _

/-- **Linking an object behind the last one** makes it the last one, if its own field is null — and
only then. -/
theorem Chain.snoc_iff (h : Chain next p (l ++ [a])) (hb : b ∉ l ++ [a]) :
    Chain (Function.update next a (some b)) p (l ++ [a] ++ [b]) ↔ next b = none := by
  have hba : b ≠ a := fun hba => hb (by simp [hba])
  constructor
  · intro h'
    have hlast := h'.next_last
    rwa [Function.update_of_ne hba] at hlast
  · intro hnull
    induction l generalizing p with
    | nil => exact ⟨h.1, Function.update_self a _ next, by rwa [Function.update_of_ne hba]⟩
    | cons x l ih =>
      have hxa : x ≠ a := fun hxa => (List.nodup_cons.mp h.nodup).1 (by simp [hxa])
      refine ⟨h.1, ?_⟩
      rw [Function.update_of_ne hxa]
      exact ih h.2 fun hmem => hb (List.mem_cons_of_mem x hmem)

/-- **Linking past an object** takes it out. -/
theorem Chain.unlink (h : Chain next p (l₁ ++ a :: b :: l₂)) :
    Chain (Function.update next a (next b)) p (l₁ ++ a :: l₂) := by
  induction l₁ generalizing p with
  | nil =>
    refine ⟨h.1, ?_⟩
    rw [Function.update_self]
    have hnodup := (List.nodup_cons.mp h.nodup).1
    exact h.2.2.assign (fun ha => hnodup (List.mem_cons_of_mem b ha)) _
  | cons x l₁ ih =>
    have hxa : x ≠ a := fun hxa => (List.nodup_cons.mp h.nodup).1 (by simp [hxa])
    refine ⟨h.1, ?_⟩
    rw [Function.update_of_ne hxa]
    exact ih h.2

/-- …and that is the list without it. -/
theorem Chain.erase_eq (h : Chain next p (l₁ ++ a :: b :: l₂)) :
    (l₁ ++ a :: b :: l₂).erase b = l₁ ++ a :: l₂ := by
  rw [List.append_cons, List.erase_append_right _ h.notMem_front, List.erase_cons_head,
    List.append_assoc, List.singleton_append]

/-! ## A walk that takes objects out

Between the objects `l₁` it has passed and those to come, the chain holds what was kept of the
former. -/

omit [DecidableEq ι] in
theorem length_filter_append_le (keep : ι → Bool) (l₁ l₂ : List ι) :
    (l₁.filter keep ++ l₂).length ≤ (l₁ ++ l₂).length := by
  rw [List.length_append, List.length_append]
  exact Nat.add_le_add_right (List.length_filter_le keep l₁) _

omit [DecidableEq ι] in
/-- The walk keeps the current object. -/
theorem filter_concat_append_of_pos {keep : ι → Bool} (ha : keep a = true) :
    (l₁ ++ [a]).filter keep ++ l₂ = l₁.filter keep ++ a :: l₂ := by
  rw [List.filter_append, List.filter_cons_of_pos ha, List.filter_nil, List.append_assoc,
    List.singleton_append]

/-- The walk takes it out. -/
theorem Chain.erase_filter {keep : ι → Bool} (h : Chain next p (l₁.filter keep ++ a :: l₂))
    (ha : keep a = false) :
    (l₁.filter keep ++ a :: l₂).erase a = (l₁ ++ [a]).filter keep ++ l₂ := by
  have hout : a ∉ l₁.filter keep := fun hin =>
    (List.nodup_append.mp h.nodup).2.2 a hin a List.mem_cons_self rfl
  rw [List.erase_append_right _ hout, List.erase_cons_head, List.filter_append,
    List.filter_cons_of_neg (by simp [ha]), List.filter_nil, List.append_nil]

/-- What the walk still has to come to, when an object has gone… -/
theorem suffix_erase (h : l₂ <:+ l) (hnodup : l.Nodup) (a : ι) : l₂.erase a <:+ l.erase a := by
  obtain ⟨front, rfl⟩ := h
  by_cases hin : a ∈ front
  · have hout : a ∉ l₂ := fun hmem => (List.nodup_append.mp hnodup).2.2 a hin a hmem rfl
    rw [List.erase_append_left _ hin, List.erase_of_not_mem hout]
    exact List.suffix_append _ _
  · rw [List.erase_append_right _ hin]
    exact List.suffix_append _ _

/-- …it starts with the same one, if that has not gone. -/
theorem head?_erase (ha : l.head? ≠ some a) : (l.erase a).head? = l.head? := by
  cases l with
  | nil => rfl
  | cons b l =>
    have hne : b ≠ a := fun hba => ha (congrArg some hba)
    rw [List.erase_cons_tail (by simpa using hne)]
    rfl

/-- Those that stay are met just once and in order among those passed and those to come, and are so
when one has gone. -/
theorem filter_mem_filter_ne (h : ((l₁ ++ l₂).filter fun x => x ∈ l) = l) (hnodup : l₂.Nodup)
    (a : ι) : ((l₁ ++ l₂.erase a).filter fun x => x ∈ l.filter (· ≠ a)) = l.filter (· ≠ a) := by
  calc (l₁ ++ l₂.erase a).filter (fun x => x ∈ l.filter (· ≠ a))
      = (l₁ ++ l₂).filter (fun x => x ∈ l.filter (· ≠ a)) := by
        rw [hnodup.erase_eq_filter, List.filter_append, List.filter_append, List.filter_filter]
        refine congrArg _ (List.filter_congr fun x _ => ?_)
        simp
    _ = ((l₁ ++ l₂).filter fun x => x ∈ l).filter (· ≠ a) := by
        rw [List.filter_filter]
        exact List.filter_congr fun x _ => by simp [and_comm]
    _ = l.filter (· ≠ a) := by rw [h]

/-! ## Grounded fields -/

/-- Following the field from any object comes to an end. -/
def Grounded (next : ι → Option ι) : Prop := WellFounded fun x y => next y = some x

omit [DecidableEq ι] in
theorem grounded_none : Grounded fun _ : ι => none :=
  ⟨fun y => ⟨y, fun _ h => nomatch h⟩⟩

omit [DecidableEq ι] in
theorem Grounded.exists_chain (h : Grounded next) (p : Option ι) : ∃ l, Chain next p l := by
  cases p with
  | none => exact ⟨[], rfl⟩
  | some a =>
    induction a using h.induction with
    | _ a ih =>
      cases ha : next a with
      | none => exact ⟨[a], rfl, ha⟩
      | some b =>
        obtain ⟨l, hl⟩ := ih b ha
        exact ⟨a :: l, rfl, ha ▸ hl⟩

/-- Linking `a` to an object whose own field is cleared. -/
theorem Grounded.link (h : Grounded next) (a b : ι) :
    Grounded (Function.update (Function.update next a (some b)) b none) := by
  have hb : Acc (fun x y => Function.update (Function.update next a (some b)) b none y = some x)
      b := ⟨b, fun x hx => by rw [Function.update_self] at hx; cases hx⟩
  refine ⟨fun c => ?_⟩
  induction c using h.induction with
  | _ c ih =>
    obtain rfl | hcb := eq_or_ne c b
    · exact hb
    refine ⟨c, fun x hx => ?_⟩
    rw [Function.update_of_ne hcb] at hx
    obtain rfl | hca := eq_or_ne c a
    · rw [Function.update_self] at hx
      exact Option.some.inj hx ▸ hb
    · rw [Function.update_of_ne hca] at hx
      exact ih x hx

/-- Linking past an object. -/
theorem Grounded.unlink (h : Grounded next) (hab : next a = some b) :
    Grounded (Function.update next a (next b)) := by
  refine ⟨fun c => ?_⟩
  induction c using h.induction with
  | _ c ih =>
    refine ⟨c, fun x hx => ?_⟩
    obtain rfl | hca := eq_or_ne c a
    · rw [Function.update_self] at hx
      have hne : b ≠ c := by
        rintro rfl
        exact h.irrefl.irrefl _ hab
      exact (ih b hab).inv (by rwa [Function.update_of_ne hne])
    · rw [Function.update_of_ne hca] at hx
      exact ih x hx

end Machinery
