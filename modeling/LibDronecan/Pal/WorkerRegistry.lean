import LibDronecan.Machinery.Run
import LibDronecan.Pal.WorkerList

/-!
# Pal/WorkerRegistry — histories of registering and unregistering

    registered = [a, b] ──unregister a──▸ [b]        a.next is still b
                        ──register a────▸ [b, a]     b ──▸ a ──▸ b ──▸ …

`Registry` runs a `WorkerList` next to the objects registered, in order.  As long as the list is the
chain of these, `unregister_worker` keeps it so whenever it returns, and `register_worker` keeps it
so exactly when the object it links has a null `next` (`chain_linked_iff`).  Neither of them ever
resets that field, so an object that was unregistered from before another one brings it back in.
-/

open Machinery

namespace LibDronecan

/-- A call, and what `micros64` reads in it. -/
inductive RegistryOp (ι : Type*) where
  | register (obj : ι) (micros64 : ℕ)
  | unregister (obj : ι) (micros64 : ℕ)

/-- A worker's list, and the objects registered, in the order they were. -/
structure Registry (ι κ : Type*) where
  list : WorkerList ι κ
  registered : List ι

namespace Registry

variable {ι κ : Type*} [DecidableEq ι] (this : κ)

omit [DecidableEq ι] in
/-- A worker without objects, and objects with a null `next`. -/
def start (w : WorkerList ι κ) : Registry ι κ :=
  ⟨{ w with workerObjHead := none, next := fun _ => none }, []⟩

/-- An object is registered only while it is not. -/
def Admissible (s : Registry ι κ) : RegistryOp ι → Prop
  | .register obj _ => obj ∉ s.registered
  | .unregister _ _ => True

instance (s : Registry ι κ) : ∀ op : RegistryOp ι, Decidable (s.Admissible op)
  | .register obj _ => inferInstanceAs (Decidable (obj ∉ s.registered))
  | .unregister _ _ => inferInstanceAs (Decidable True)

/-- The call, given `n` turns of its loop. -/
def exec (n : ℕ) (w : WorkerList ι κ) : RegistryOp ι → Option (WorkerList ι κ)
  | .register obj us => (w.registerWorker this us obj n).map Prod.snd
  | .unregister obj us => w.unregisterWorker us obj n

/-- The objects registered after the call. -/
def after (s : Registry ι κ) : RegistryOp ι → List ι
  | .register obj _ => s.registered ++ [obj]
  | .unregister obj _ => s.registered.erase obj

/-- Calls that return, each with the turns it is given. -/
def machine : Machine (Registry ι κ) (RegistryOp ι × ℕ) where
  step s a :=
    if s.Admissible a.1 then (exec this a.2 s.list a.1).map fun w => ⟨w, s.after a.1⟩ else none

/-- **The list is in order**: it is the chain of the objects of `l`, each once, and the traversals
of `run`, `get_next_trigger_us` and `register_worker` end. -/
def InOrder (w : WorkerList ι κ) (l : List ι) : Prop :=
  Chain w.next w.workerObjHead l ∧ l.Nodup ∧ (∃ n, w.called n = some l) ∧
    (∃ n, (w.getNextTriggerUs n).isSome) ∧
    ∀ obj us, ∃ n, (w.registerWorker this us obj n).isSome

/-- The call, if it returns, leaves the list in order. -/
def KeepsOrder (s : Registry ι κ) (a : RegistryOp ι × ℕ) : Prop :=
  s.Admissible a.1 → ∀ n w, exec this n s.list a.1 = some w → InOrder this w (s.after a.1)

/-- An object that is registered has a null `next`. -/
def NextNull (s : Registry ι κ) (a : RegistryOp ι × ℕ) : Prop :=
  match a.1 with
  | .register obj _ => obj ∉ s.registered → s.list.next obj = none
  | .unregister _ _ => True

variable {this} {s t : Registry ι κ} {w : WorkerList ι κ} {l : List ι}

theorem inOrder_iff : InOrder this w l ↔ Chain w.next w.workerObjHead l := by
  refine ⟨And.left, fun h => ⟨h, h.nodup, ⟨l.length + 1, w.called_eq h⟩, ⟨l.length + 1, ?_⟩,
    fun obj us => ⟨l.length, ?_⟩⟩⟩
  · rw [w.getNextTriggerUs_eq h, Option.isSome_some]
  · rw [w.registerWorker_eq this us obj h le_rfl, Option.isSome_some]

/-- The list is the chain of the objects registered. -/
def Linked (s : Registry ι κ) : Prop := Chain s.list.next s.list.workerObjHead s.registered

omit [DecidableEq ι] in
theorem linked_start (w : WorkerList ι κ) : Linked (start w) := rfl

/-- **While the list is in order, a call keeps it so exactly when it links no stale `next`.** -/
theorem Linked.keepsOrder_iff (h : Linked s) (a : RegistryOp ι × ℕ) :
    KeepsOrder this s a ↔ NextNull s a := by
  obtain ⟨op, m⟩ := a
  cases op with
  | register obj us =>
    refine forall_congr' fun hobj => ?_
    have hlinked := WorkerList.chain_linked_iff (w := s.list.setWorker obj (some this) us) h hobj
    constructor
    · intro hkeep
      have hret : exec this s.registered.length s.list (.register obj us)
          = some ((s.list.setWorker obj (some this) us).linked s.registered obj) := by
        rw [exec, s.list.registerWorker_eq this us obj h le_rfl, Option.map_some]
      exact hlinked.mp (hkeep _ _ hret).1
    · intro hnull n w hret
      obtain ⟨r, hr, rfl⟩ := Option.map_eq_some_iff.mp hret
      obtain rfl := WorkerList.of_registerWorker h hr
      exact inOrder_iff.mpr (hlinked.mpr hnull)
  | unregister obj us =>
    refine ⟨fun _ => trivial, fun _ _ n w hret => inOrder_iff.mpr ?_⟩
    exact WorkerList.chain_of_unregisterWorker h hret

theorem Linked.step (h : Linked s) {a : RegistryOp ι × ℕ} (hnull : NextNull s a)
    (hst : (machine this).step s a = some t) : Linked t := by
  have hkeep : KeepsOrder this s a := (h.keepsOrder_iff a).mpr hnull
  simp only [machine] at hst
  split_ifs at hst with hadm
  obtain ⟨w, hw, rfl⟩ := Option.map_eq_some_iff.mp hst
  exact (hkeep hadm a.2 w hw).1

/-- **The list is in order along a history exactly while every object is registered with a null
`next`.** -/
theorem along_keepsOrder_iff (this : κ) (w : WorkerList ι κ) (ops : List (RegistryOp ι × ℕ)) :
    (machine this).Along (KeepsOrder this) (start w) ops ↔
      (machine this).Along NextNull (start w) ops :=
  Machine.along_iff_along (linked_start w) (fun _ a h => h.keepsOrder_iff a)
    fun _ _ _ h hnull hst => h.step hnull hst

/-- Two objects registered, and the first unregistered. -/
def firstUnregistered : List (RegistryOp ℕ × ℕ) :=
  [(.register 0 0, 1), (.register 1 0, 1), (.unregister 0 0, 1)]

/-- Where that leads. -/
def secondLeft : Registry ℕ Unit :=
  ((machine ()).run (start WorkerList.three) firstUnregistered).get (by decide)

/-- **Registered again, it closes a circle**: the object behind it is still its `next`. -/
theorem not_forall_along_keepsOrder :
    ¬ ∀ (w : WorkerList ℕ Unit) (ops : List (RegistryOp ℕ × ℕ)),
      (machine ()).Along (KeepsOrder ()) (start w) ops := by
  intro h
  have hbad : ¬ KeepsOrder () secondLeft (.register 0 0, 1) := by
    intro hkeep
    have hret : exec () 1 secondLeft.list (.register 0 0)
        = some ((secondLeft.list.setWorker 0 (some ()) 0).linked [1] 0) := rfl
    have hchain := (hkeep (by decide) 1 _ hret).1
    revert hchain
    decide
  exact Machine.not_along_iff.mpr ⟨firstUnregistered, _, [], secondLeft, rfl,
    (Option.some_get _).symm, hbad⟩ (h WorkerList.three (firstUnregistered ++ [(.register 0 0, 1)]))

end Registry

end LibDronecan
