import Mathlib.Data.List.Count
import Mathlib.Data.List.Nodup
import LibDronecan.DataIface.Frame

/-!
# Router/Router — the interface table, and where a frame is forwarded

    addInterface ──▸ slots      RouterInterface(iface) ──▸ registered callbacks
                       ╲              ╱
                        deliver ──▸ routeFrame ──▸ send

The slots are filled front to back, so they are the abstract `table` followed by empty slots
(`interfaces_addAll`), and `routeFrame` forwards to every other transmitting interface once
(`count_routeFrame`).  What calls it is the callback that the constructor
`RouterInterface(DataIface*)` registers; `addInterface` only assigns to default-constructed slots,
so no callback is ever registered and nothing is forwarded (`deliver_addAll`).  Nor is
`INTERFACE_RX` read anywhere.
-/

namespace LibDronecan

/-- `RouterInterface::InterfaceFlags`. -/
def interfaceRx : Byte := 1

def interfaceTx : Byte := 2

/-- A slot of the router: the interface it holds, null if free, and its flags. -/
structure RouterInterface (ι : Type*) where
  iface : Option ι
  flags : Byte

/-- The router's slots, and the slots whose `route_frame_cb` each interface calls on a frame. -/
structure Router (ι : Type*) where
  interfaces : List (RouterInterface ι)
  rxCbs : ι → List ℕ

namespace Router

variable {ι : Type*} [DecidableEq ι]

/-- The loop of `add_interface`: an equal slot first, else the first free one. -/
def addLoop (iface : ι) (flags : Byte) :
    List (RouterInterface ι) → Bool × List (RouterInterface ι)
  | [] => (false, [])
  | i :: is =>
      if i.iface = some iface then (true, i :: is)
      else if i.iface = none then (true, ⟨some iface, flags⟩ :: is)
      else ((addLoop iface flags is).1, i :: (addLoop iface flags is).2)

/-- `Router::add_interface`. -/
def addInterface (r : Router ι) (iface : ι) (flags : Byte) : Bool × Router ι :=
  ((addLoop iface flags r.interfaces).1,
    { r with interfaces := (addLoop iface flags r.interfaces).2 })

/-- `RouterInterface(DataIface*)`, constructing slot `k`: it takes the interface and registers its
callback there. -/
def construct (r : Router ι) (k : ℕ) (iface : ι) (flags : Byte) : Router ι where
  interfaces := r.interfaces.set k ⟨some iface, flags⟩
  rxCbs := Function.update r.rxCbs iface (r.rxCbs iface ++ [k])

/-- The test of `route_frame` on one slot: where it sends, if it does. -/
def sendTarget (self : Option ι) (i : RouterInterface ι) : Option ι :=
  match i.iface with
  | none => none
  | some d => if i.flags &&& interfaceTx ≠ 0 ∧ some d ≠ self then some d else none

/-- `RouterInterface::route_frame` of a slot holding `self`: the `send` calls it makes. -/
def routeFrame (r : Router ι) (self : Option ι) (frame : CanardCANFrame) :
    List (ι × CanardCANFrame) :=
  (r.interfaces.filterMap (sendTarget self)).map fun d => (d, frame)

/-- A frame arriving on an interface: each callback registered with it is called once. -/
def deliver (r : Router ι) (iface : ι) (frame : CanardCANFrame) : List (ι × CanardCANFrame) :=
  (r.rxCbs iface).flatMap fun k =>
    match r.interfaces[k]? with
    | none => []
    | some i => r.routeFrame i.iface frame

/-- A router with every slot free.  The default constructor leaves the flags as they are. -/
def empty (junk : List Byte) : Router ι where
  interfaces := junk.map fun f => ⟨none, f⟩
  rxCbs := fun _ => []

/-- The router after a list of `add_interface` calls. -/
def addAll (r : Router ι) (calls : List (ι × Byte)) : Router ι :=
  calls.foldl (fun r c => (r.addInterface c.1 c.2).2) r

/-! ## The table of added interfaces -/

/-- What one more call adds to a table of at most `n` interfaces. -/
def tableStep (n : ℕ) (t : List (ι × Byte)) (c : ι × Byte) : List (ι × Byte) :=
  if c.1 ∈ t.map Prod.fst then t else if t.length < n then t ++ [c] else t

/-- **The interfaces added by a list of calls**, in order, each with the flags of the call that
added it. -/
def table (n : ℕ) (calls : List (ι × Byte)) : List (ι × Byte) := calls.foldl (tableStep n) []

/-- The interface was added with the given flag. -/
def AddedWith (n : ℕ) (calls : List (ι × Byte)) (flag : Byte) (d : ι) : Prop :=
  ∃ f, (d, f) ∈ table n calls ∧ f &&& flag ≠ 0

/-- The slot of an added interface. -/
def slot (c : ι × Byte) : RouterInterface ι := ⟨some c.1, c.2⟩

/-- The slots holding a table, the rest free. -/
def slots (t : List (ι × Byte)) (junk : List Byte) : List (RouterInterface ι) :=
  t.map slot ++ (junk.drop t.length).map fun f => ⟨none, f⟩

/-- **On a full prefix the loop is one step of the table**, and fails exactly when the interface is
neither there nor fits. -/
theorem addLoop_slots (t : List (ι × Byte)) (junk : List Byte) (c : ι × Byte) :
    addLoop c.1 c.2 (slots t junk)
      = (decide (c.1 ∈ t.map Prod.fst ∨ t.length < junk.length),
          slots (tableStep junk.length t c) junk) := by
  induction t generalizing junk with
  | nil =>
    cases junk with
    | nil => rfl
    | cons f junk => simp [slots, addLoop, tableStep, slot]
  | cons a t ih =>
    have hstep (l : List (ι × Byte)) :
        slots (a :: l) junk = slot a :: slots l (junk.drop 1) := by
      simp [slots, Nat.add_comm]
    rw [hstep, addLoop]
    by_cases ha : a.1 = c.1
    · simp [slot, ha, tableStep, hstep]
    · have hne : ¬ c.1 = a.1 := fun h => ha h.symm
      rw [if_neg (by simpa [slot] using ha), if_neg (by simp [slot]), ih]
      have hlen : t.length < (junk.drop 1).length ↔ (a :: t).length < junk.length := by
        simp only [List.length_drop, List.length_cons]
        omega
      simp only [hlen, tableStep, List.map_cons, List.mem_cons, hne, false_or]
      split_ifs <;> simp [hstep]

/-- **The slots are the table followed by free slots**, after any list of calls. -/
theorem interfaces_addAll (junk : List Byte) (calls : List (ι × Byte)) :
    (addAll (empty junk) calls).interfaces = slots (table junk.length calls) junk := by
  have hgen (t : List (ι × Byte)) (r : Router ι) (hr : r.interfaces = slots t junk) :
      (addAll r calls).interfaces = slots (calls.foldl (tableStep junk.length) t) junk := by
    induction calls generalizing t r with
    | nil => exact hr
    | cons c calls ih =>
      refine ih (tableStep junk.length t c) (r.addInterface c.1 c.2).2 ?_
      rw [addInterface, hr, addLoop_slots]
  exact hgen [] (empty junk) rfl

/-- No interface is added twice. -/
theorem nodup_table (n : ℕ) (calls : List (ι × Byte)) : ((table n calls).map Prod.fst).Nodup := by
  have hgen (t : List (ι × Byte)) (ht : (t.map Prod.fst).Nodup) :
      ((calls.foldl (tableStep n) t).map Prod.fst).Nodup := by
    induction calls generalizing t with
    | nil => exact ht
    | cons c calls ih =>
      refine ih (tableStep n t c) ?_
      unfold tableStep
      split_ifs with hmem
      · exact ht
      · rw [List.map_append, List.map_singleton]
        exact List.nodup_append.mpr ⟨ht, List.nodup_singleton _, fun a ha b hb =>
          fun hab => hmem (List.mem_singleton.mp hb ▸ hab ▸ ha)⟩
      · exact ht
  exact hgen [] List.nodup_nil

/-! ## Forwarding -/

/-- Free slots send nothing. -/
theorem filterMap_sendTarget_free (self : Option ι) (junk : List Byte) :
    (junk.map fun f => (⟨none, f⟩ : RouterInterface ι)).filterMap (sendTarget self) = [] := by
  rw [List.filterMap_map, List.filterMap_eq_nil_iff]
  exact fun _ _ => rfl

/-- What the slots of a table send: to its other transmitting interfaces. -/
theorem filterMap_sendTarget_slots (self : ι) (t : List (ι × Byte)) (junk : List Byte) :
    (slots t junk).filterMap (sendTarget (some self))
      = (t.filter fun c => c.2 &&& interfaceTx ≠ 0 ∧ c.1 ≠ self).map Prod.fst := by
  rw [slots, List.filterMap_append, filterMap_sendTarget_free, List.append_nil]
  induction t with
  | nil => rfl
  | cons c t ih =>
    have hc : sendTarget (some self) (slot c)
        = if c.2 &&& interfaceTx ≠ 0 ∧ c.1 ≠ self then some c.1 else none := by
      simp only [sendTarget, slot, ne_eq, Option.some.injEq]
    rw [List.map_cons, List.filterMap_cons, hc, List.filter_cons, ih]
    split_ifs <;> simp_all

/-- **A slot forwards the frame once to every other transmitting interface**, and to no other. -/
theorem count_routeFrame (junk : List Byte) (calls : List (ι × Byte)) (self x : ι)
    (frame : CanardCANFrame) [Decidable (x ≠ self ∧ AddedWith junk.length calls interfaceTx x)] :
    (((addAll (empty junk) calls).routeFrame (some self) frame).map Prod.fst).count x
      = if x ≠ self ∧ AddedWith junk.length calls interfaceTx x then 1 else 0 := by
  have hroute : ((addAll (empty junk) calls).routeFrame (some self) frame).map Prod.fst
      = ((table junk.length calls).filter fun c =>
          c.2 &&& interfaceTx ≠ 0 ∧ c.1 ≠ self).map Prod.fst := by
    rw [routeFrame, List.map_map, interfaces_addAll, filterMap_sendTarget_slots]
    exact List.map_id _
  rw [hroute, (((nodup_table junk.length calls).sublist (List.filter_sublist.map _))).count]
  refine if_congr ?_ rfl rfl
  simp only [List.mem_map, List.mem_filter, decide_eq_true_eq, AddedWith, Prod.exists,
    exists_and_right, exists_eq_right]
  exact ⟨fun ⟨f, hmem, htx, hne⟩ => ⟨hne, f, hmem, htx⟩,
    fun ⟨hne, f, hmem, htx⟩ => ⟨f, hmem, htx, hne⟩⟩

/-- **A slot made by the constructor does forward** what its interface receives. -/
theorem deliver_construct (r : Router ι) {k : ℕ} (hk : k < r.interfaces.length) {d : ι}
    (hd : r.rxCbs d = []) (flags : Byte) (frame : CanardCANFrame) :
    (r.construct k d flags).deliver d frame
      = (r.construct k d flags).routeFrame (some d) frame := by
  have hcbs : (r.construct k d flags).rxCbs d = [k] := by
    simp [construct, hd]
  have hslot : (r.construct k d flags).interfaces[k]? = some ⟨some d, flags⟩ := by
    simp [construct, hk]
  rw [deliver, hcbs, List.flatMap_singleton, hslot]

@[simp] theorem rxCbs_addAll (r : Router ι) (calls : List (ι × Byte)) :
    (r.addAll calls).rxCbs = r.rxCbs := by
  induction calls generalizing r with
  | nil => rfl
  | cons c calls ih => exact ih (r.addInterface c.1 c.2).2

/-- **Nothing is ever forwarded**: `add_interface` registers no callback. -/
theorem deliver_addAll (junk : List Byte) (calls : List (ι × Byte)) (d : ι)
    (frame : CanardCANFrame) : (addAll (empty junk) calls).deliver d frame = [] := by
  rw [deliver, rxCbs_addAll]
  rfl

/-- **The routing contract** for a frame arriving on `d`: it goes once to each other interface added
with `INTERFACE_TX` if `d` was added with `INTERFACE_RX`, and nowhere else. -/
def Contract (junk : List Byte) (calls : List (ι × Byte)) (d : ι) (frame : CanardCANFrame) : Prop :=
  ∀ x, ((AddedWith junk.length calls interfaceRx d ∧ x ≠ d
        ∧ AddedWith junk.length calls interfaceTx x) →
      (((addAll (empty junk) calls).deliver d frame).map Prod.fst).count x = 1) ∧
    (¬ (AddedWith junk.length calls interfaceRx d ∧ x ≠ d
        ∧ AddedWith junk.length calls interfaceTx x) →
      (((addAll (empty junk) calls).deliver d frame).map Prod.fst).count x = 0)

/-- **The contract is met exactly where it asks for nothing**: the frame came from an interface not
added with `INTERFACE_RX`, or no other interface was added with `INTERFACE_TX`. -/
theorem contract_iff (junk : List Byte) (calls : List (ι × Byte)) (d : ι) (frame : CanardCANFrame) :
    Contract junk calls d frame ↔ ¬ (AddedWith junk.length calls interfaceRx d
      ∧ ∃ x, x ≠ d ∧ AddedWith junk.length calls interfaceTx x) := by
  simp only [Contract, deliver_addAll, List.map_nil, List.count_nil, zero_ne_one, imp_false,
    implies_true, and_true, not_and, not_exists]
  exact ⟨fun h hd x hne => h x hd hne, fun h x hd hne => h hd x hne⟩

/-- **A received frame is not forwarded**: two interfaces added for both directions. -/
theorem not_forall_contract : ¬ ∀ (junk : List Byte) (calls : List (ℕ × Byte)) (d : ℕ)
    (frame : CanardCANFrame), Contract junk calls d frame := by
  intro h
  have hsend := (h [0, 0] [(0, 3), (1, 3)] 0 ⟨0, 0, fun _ => 0⟩ 1).1
    ⟨⟨3, by decide, by decide⟩, by decide, 3, by decide, by decide⟩
  rw [deliver_addAll] at hsend
  cases hsend

end Router

end LibDronecan
