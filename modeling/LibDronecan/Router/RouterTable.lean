import LibDronecan.Router.Router

/-!
# Router/RouterTable — what the slots hold, after any calls of `add_interface`

    slots   d₀ │ d₁ │ … │ dₖ │ ░ │ … │ ░        d₀, d₁, …: the first N interfaces there were

One loop of `add_interface` looks for the interface and for a free slot, and stops at whichever
comes first.  That is right only as long as no interface lies behind a free slot; which is so, since
slots are taken in order and never given back (`FirstAdded`, `interfaces_addAll`).  So what the
slots hold is the interfaces that came first, in the order they came, and `add_interface` fails just
when all slots are taken by others (`tableOk_addAll`).
-/

namespace LibDronecan

namespace Router

variable {ι : Type*} [DecidableEq ι]

omit [DecidableEq ι] in
/-- The interfaces in the slots. -/
def present (r : Router ι) : List ι := r.interfaces.filterMap (·.iface)

/-- **The table as its users see it**, with `n` slots, after additions of the interfaces `ids`. -/
structure TableOk (n : ℕ) (ids : List ι) (r : Router ι) : Prop where
  /-- The slots in use come first, with different interfaces in the order they were first added. -/
  occupied : ∃ t : List ι, t.length ≤ n ∧
    r.interfaces.map (·.iface) = t.map some ++ List.replicate (n - t.length) none ∧
    t.Nodup ∧ (∀ d ∈ t, d ∈ ids) ∧ t.Pairwise fun a b => ids.idxOf a < ids.idxOf b
  /-- A slot in use stays as it is. -/
  stays : ∀ calls (k : ℕ) (i : RouterInterface ι) d, r.interfaces[k]? = some i → i.iface = some d →
    (r.addAll calls).interfaces[k]? = some i
  again : ∀ d flags, d ∈ r.present → r.addInterface d flags = (true, r)
  /-- After a call that succeeds the interface is there. -/
  added : ∀ d flags, (r.addInterface d flags).1 = true → d ∈ (r.addInterface d flags).2.present
  /-- A call fails exactly if other interfaces have all the slots. -/
  refused : ∀ d flags, (r.addInterface d flags).1 = false ↔
    (r.present.filter fun x => x ≠ d).length = n
  unchanged : ∀ d flags, (r.addInterface d flags).1 = false → (r.addInterface d flags).2 = r

/-! ## Slots in use -/

/-- The loop passes by a slot in use. -/
theorem getElem?_addLoop {d d' : ι} {flags : Byte} {is : List (RouterInterface ι)} {k : ℕ}
    {i : RouterInterface ι} (hk : is[k]? = some i) (hi : i.iface = some d') :
    (addLoop d flags is).2[k]? = some i := by
  induction is generalizing k with
  | nil => cases hk
  | cons a is ih =>
    simp only [addLoop]
    split_ifs with hsame hfree
    · exact hk
    · cases k with
      | zero =>
        obtain rfl := Option.some.inj hk
        rw [hfree] at hi
        cases hi
      | succ k => exact hk
    · cases k with
      | zero => exact hk
      | succ k => exact ih hk

/-- **A slot in use stays as it is**, whatever is added. -/
theorem getElem?_addAll {r : Router ι} {k : ℕ} {i : RouterInterface ι} {d : ι}
    (hk : r.interfaces[k]? = some i) (hi : i.iface = some d) (calls : List (ι × Byte)) :
    (r.addAll calls).interfaces[k]? = some i := by
  induction calls generalizing r with
  | nil => exact hk
  | cons c calls ih => exact ih (getElem?_addLoop hk hi)

/-! ## The order of the table -/

/-- **The first interfaces of a list**, at most `n` of them, in the order they came. -/
structure FirstAdded (n : ℕ) (ids t : List ι) : Prop where
  length_le : t.length ≤ n
  mem : ∀ d ∈ t, d ∈ ids
  all : ∀ d ∈ ids, d ∈ t ∨ t.length = n
  ordered : t.Pairwise fun a b => ids.idxOf a < ids.idxOf b

variable {n : ℕ} {ids t : List ι} {d : ι}

theorem FirstAdded.nodup (h : FirstAdded n ids t) : t.Nodup :=
  h.ordered.imp fun hlt heq => (heq ▸ hlt).false

/-- Another call does not change the order of those that are there. -/
theorem FirstAdded.ordered_concat (h : FirstAdded n ids t) (d : ι) :
    t.Pairwise fun a b => (ids ++ [d]).idxOf a < (ids ++ [d]).idxOf b :=
  h.ordered.imp_of_mem fun ha hb hlt => by
    rwa [List.idxOf_append_of_mem (h.mem _ ha), List.idxOf_append_of_mem (h.mem _ hb)]

/-- An interface that is there, or finds no room, adds nothing. -/
theorem FirstAdded.concat_same (h : FirstAdded n ids t) (hd : d ∈ t ∨ t.length = n) :
    FirstAdded n (ids ++ [d]) t where
  length_le := h.length_le
  mem a ha := List.mem_append_left _ (h.mem a ha)
  all a ha := by
    obtain hin | hnew := List.mem_append.mp ha
    · exact h.all a hin
    · obtain rfl := List.mem_singleton.mp hnew
      exact hd
  ordered := h.ordered_concat d

/-- A new one that finds room has not come before, and goes last. -/
theorem FirstAdded.concat_new (h : FirstAdded n ids t) (hd : d ∉ t) (hlt : t.length < n) :
    FirstAdded n (ids ++ [d]) (t ++ [d]) where
  length_le := by
    rw [List.length_append, List.length_singleton]
    exact hlt
  mem a ha := by
    obtain hin | hnew := List.mem_append.mp ha
    · exact List.mem_append_left _ (h.mem a hin)
    · exact List.mem_append_right _ hnew
  all a ha := by
    obtain hin | hnew := List.mem_append.mp ha
    · exact Or.inl (List.mem_append_left _ ((h.all a hin).resolve_right hlt.ne))
    · exact Or.inl (List.mem_append_right _ hnew)
  ordered := by
    have hfirst : d ∉ ids := fun hin => hd ((h.all d hin).resolve_right hlt.ne)
    refine List.pairwise_append.mpr ⟨h.ordered_concat d, List.pairwise_singleton _ _, ?_⟩
    intro a ha b hb
    obtain rfl := List.mem_singleton.mp hb
    rw [List.idxOf_append_of_mem (h.mem a ha), List.idxOf_append_of_notMem hfirst]
    exact (List.idxOf_lt_length_of_mem (h.mem a ha)).trans_le (Nat.le_add_right _ _)

/-- Others have all the slots just if the interface is not there and finds no room. -/
theorem FirstAdded.length_others_iff (h : FirstAdded n ids t) (d : ι) :
    (t.filter fun x => x ≠ d).length = n ↔ d ∉ t ∧ ¬ t.length < n := by
  have hle := List.length_filter_le (fun x => decide (x ≠ d)) t
  have hmax := h.length_le
  constructor
  · intro hall
    have hlen : (t.filter fun x => x ≠ d).length = t.length := by omega
    have hne := List.length_filter_eq_length_iff.mp hlen
    exact ⟨fun hd => of_decide_eq_true (hne d hd) rfl, by omega⟩
  · rintro ⟨hd, hfull⟩
    have hne : ∀ x ∈ t, decide (x ≠ d) = true := fun x hx =>
      decide_eq_true fun heq => hd (heq ▸ hx)
    rw [List.length_filter_eq_length_iff.mpr hne]
    exact hmax.antisymm (not_lt.mp hfull)

/-- **The table is the interfaces that came first**, after any calls. -/
theorem firstAdded_table (n : ℕ) (calls : List (ι × Byte)) :
    FirstAdded n (calls.map Prod.fst) ((table n calls).map Prod.fst) := by
  induction calls using List.reverseRecOn with
  | nil =>
    exact ⟨Nat.zero_le n, List.forall_mem_nil _, List.forall_mem_nil _, List.Pairwise.nil⟩
  | append_singleton calls c ih =>
    have hstep : table n (calls ++ [c]) = tableStep n (table n calls) c := List.foldl_concat ..
    rw [hstep, List.map_append, List.map_singleton, tableStep]
    split_ifs with hin hroom
    · exact ih.concat_same (Or.inl hin)
    · rw [List.map_append, List.map_singleton]
      exact ih.concat_new hin (by rwa [List.length_map])
    · refine ih.concat_same (Or.inr (ih.length_le.antisymm ?_))
      rw [List.length_map]
      exact not_lt.mp hroom

/-! ## The calls -/

omit [DecidableEq ι] in
theorem map_iface_slots (t : List (ι × Byte)) (junk : List Byte) :
    (slots t junk).map (·.iface)
      = (t.map Prod.fst).map some ++ List.replicate (junk.length - t.length) none := by
  have hfree : ((junk.drop t.length).map fun f => (⟨none, f⟩ : RouterInterface ι)).map (·.iface)
      = List.replicate (junk.length - t.length) none := by
    rw [List.map_map, ← List.length_drop]
    exact List.map_const' ..
  rw [slots, List.map_append, hfree, List.map_map, List.map_map]
  rfl

omit [DecidableEq ι] in
theorem present_of_slots {r : Router ι} {t : List (ι × Byte)} {junk : List Byte}
    (hr : r.interfaces = slots t junk) : r.present = t.map Prod.fst := by
  have hfree : ((junk.drop t.length).map fun f => (⟨none, f⟩ : RouterInterface ι)).filterMap
      (·.iface) = [] := by
    rw [List.filterMap_map, List.filterMap_eq_nil_iff]
    exact fun _ _ => rfl
  have hused : (t.map slot).filterMap (·.iface) = t.map Prod.fst := by
    rw [List.filterMap_map, ← List.filterMap_eq_map]
    rfl
  rw [present, hr, slots, List.filterMap_append, hfree, hused, List.append_nil]

/-- **One call on a table**: it fails exactly where the interface is not there and finds no room. -/
theorem addInterface_of_slots {r : Router ι} {t : List (ι × Byte)} {junk : List Byte}
    (hr : r.interfaces = slots t junk) (d : ι) (flags : Byte) :
    r.addInterface d flags = (decide (d ∈ t.map Prod.fst ∨ t.length < junk.length),
      { r with interfaces := slots (tableStep junk.length t (d, flags)) junk }) := by
  rw [addInterface, hr, addLoop_slots t junk (d, flags)]

/-- An interface that is there, or finds room, is in the table then. -/
theorem mem_tableStep {n : ℕ} {t : List (ι × Byte)} {c : ι × Byte}
    (hc : c.1 ∈ t.map Prod.fst ∨ t.length < n) : c.1 ∈ (tableStep n t c).map Prod.fst := by
  unfold tableStep
  split_ifs with hin hroom
  · exact hin
  · rw [List.map_append]
    exact List.mem_append_right _ List.mem_cons_self
  · exact absurd (hc.resolve_left hin) hroom

/-- **The interface table**, for any number of slots and after any calls. -/
theorem tableOk_addAll (junk : List Byte) (calls : List (ι × Byte)) :
    TableOk junk.length (calls.map Prod.fst) (addAll (empty junk) calls) := by
  have hfirst := firstAdded_table junk.length calls
  have hslots := interfaces_addAll junk calls
  have hpresent := present_of_slots hslots
  have hcall := addInterface_of_slots hslots
  set r : Router ι := addAll (empty junk) calls
  have hlen : ((table junk.length calls).map Prod.fst).length = (table junk.length calls).length :=
    List.length_map ..
  -- a table is the same after a call for an interface that is there or finds no room
  have hsame {d : ι} (flags : Byte) (hd : d ∈ (table junk.length calls).map Prod.fst ∨
      ¬ (table junk.length calls).length < junk.length) :
      tableStep junk.length (table junk.length calls) (d, flags) = table junk.length calls := by
    unfold tableStep
    split_ifs with hin hroom
    · rfl
    · exact absurd hroom (hd.resolve_left hin)
    · rfl
  refine ⟨⟨_, hfirst.length_le, ?_, hfirst.nodup, hfirst.mem, hfirst.ordered⟩,
    fun more k i d hk hi => getElem?_addAll hk hi more, fun d flags hd => ?_,
    fun d flags hd => ?_, fun d flags => ?_, fun d flags hd => ?_⟩
  · rw [hslots, map_iface_slots, hlen]
  · rw [hpresent] at hd
    rw [hcall, hsame flags (Or.inl hd), ← hslots, decide_eq_true (Or.inl hd)]
  · rw [hcall, decide_eq_true_iff] at hd
    have hslots' : (r.addInterface d flags).2.interfaces
        = slots (tableStep junk.length (table junk.length calls) (d, flags)) junk := by rw [hcall]
    rw [present_of_slots hslots']
    exact mem_tableStep hd
  · rw [hcall, hpresent, hfirst.length_others_iff, hlen]
    exact decide_eq_false_iff_not.trans not_or
  · rw [hcall, decide_eq_false_iff_not, not_or] at hd
    rw [hcall, hsame flags (Or.inr hd.2), ← hslots]

end Router

end LibDronecan
