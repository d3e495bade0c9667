import LibDronecan.Machinery.Ledger
import LibDronecan.Pal.ObjectList

/-!
# Pal/ThreadLedger — what the threads of `Threads` make and drop

    allocate ──▸ attr ──▸ cond ──▸ … ──▸ create        Thread::start, each of them may fail
                   │        │              │
    ~Thread :   destroy  destroy    cancel, join        by attr_init, cond_init, thread_func

A `Thread` is allocated, puts itself on the list of threads, and is started; whatever its start has
made its destructor is to drop.  The destructor goes by three flags, and `thread_func` is set before
there is a thread: a start that fails is cleaned up by cancelling and joining a thread that was
never created.  It is the only entry out of order (`along_settles_iff`): every other history of
starts, stops and main threads, ended by `~Threads` walking down the list it takes apart, drops
exactly what it made.
-/

open Machinery

namespace LibDronecan

/-- What `Threads` has to account for: the memory of a `Thread`, its attribute and its condition
variable, and for a thread created that it is cancelled and that it is joined. -/
inductive ThreadResource
  | memory
  | attr
  | cond
  | cancel
  | join
  deriving DecidableEq

/-- How the calls of `Thread::start` come back: `true` for 0.  `root` is `geteuid() == 0`. -/
structure StartCalls where
  attrInit : Bool
  condInit : Bool
  setStackSize : Bool
  root : Bool
  setInheritSched : Bool
  setSchedPolicy : Bool
  setSchedParam : Bool
  create : Bool

/-- Each call that a thread with a function makes succeeds. -/
def StartCalls.succeed (calls : StartCalls) : Bool :=
  calls.attrInit && calls.condInit && calls.setStackSize &&
    (!calls.root || calls.setInheritSched && calls.setSchedPolicy && calls.setSchedParam) &&
    calls.create

/-- The list of threads, the fields of every `Thread` (for `threadFunc`, whether it is set), and
what was made and dropped. -/
structure ThreadLedger (ι : Type*) where
  list : ObjectList ι
  threadFunc : ι → Bool
  attrInit : ι → Bool
  condInit : ι → Bool
  log : List (Entry (ThreadResource × ι))

/-- A call on `Threads`; `thread` is what `allocate` returns in it. -/
inductive ThreadsOp (ι : Type*) where
  | start (thread : Option ι) (calls : StartCalls)
  | registerMainThread (thread : Option ι) (calls : StartCalls)
  | stop (thread : ι)

namespace ThreadLedger

variable {ι : Type*} [DecidableEq ι]

omit [DecidableEq ι] in
def post (s : ThreadLedger ι) (e : Entry (ThreadResource × ι)) : ThreadLedger ι :=
  { s with log := s.log ++ [e] }

omit [DecidableEq ι] in
def postIf (s : ThreadLedger ι) (b : Bool) (e : Entry (ThreadResource × ι)) : ThreadLedger ι :=
  { s with log := s.log ++ if b then [e] else [] }

/-- `allocate<Thread>`, with memory at `o`: `Thread::Thread`. -/
def allocate (s : ThreadLedger ι) (n : ℕ) (o : ι) (threadFunc : Bool) :
    Option (Exit (ThreadLedger ι)) :=
  let s := s.post (.made (.memory, o))
  Exit.bind (s.list.construct o n) fun list => some (.returned { s with
    list
    threadFunc := Function.update s.threadFunc o threadFunc
    attrInit := Function.update s.attrInit o false
    condInit := Function.update s.condInit o false })

/-- A `pthread_attr_init` that succeeds. -/
def initAttr (s : ThreadLedger ι) (o : ι) : ThreadLedger ι :=
  { s.post (.made (.attr, o)) with attrInit := Function.update s.attrInit o true }

/-- A `pthread_cond_init` that succeeds. -/
def initCond (s : ThreadLedger ι) (o : ι) : ThreadLedger ι :=
  { s.post (.made (.cond, o)) with condInit := Function.update s.condInit o true }

omit [DecidableEq ι] in
/-- A `pthread_create` that succeeds. -/
def create (s : ThreadLedger ι) (o : ι) : ThreadLedger ι :=
  (s.post (.made (.cancel, o))).post (.made (.join, o))

/-- `Thread::start`. -/
def startThread (s : ThreadLedger ι) (o : ι) (calls : StartCalls) : Bool × ThreadLedger ι :=
  if s.threadFunc o = false then
    -- this thread is not managed by us
    if calls.condInit = false then (false, s) else (true, s.initCond o)
  else if calls.attrInit = false then (false, s)
  else
    let s := s.initAttr o
    if calls.condInit = false then (false, s)
    else
      let s := s.initCond o
      if calls.setStackSize = false then (false, s)
      else if calls.root ∧ calls.setInheritSched = false then (false, s)
      else if calls.root ∧ calls.setSchedPolicy = false then (false, s)
      else if calls.root ∧ calls.setSchedParam = false then (false, s)
      else if calls.create = false then (false, s)
      else (true, s.create o)

omit [DecidableEq ι] in
/-- `Thread::~Thread`. -/
def destructThread (s : ThreadLedger ι) (o : ι) : ThreadLedger ι :=
  let s := s.postIf (s.threadFunc o) (.dropped (.cancel, o))
  let s := s.postIf (s.threadFunc o) (.dropped (.join, o))
  let s := s.postIf (s.attrInit o) (.dropped (.attr, o))
  s.postIf (s.condInit o) (.dropped (.cond, o))

/-- `deallocate`: the destructors of `Thread` and `List`, and the memory. -/
def deallocate (s : ThreadLedger ι) (n : ℕ) (o : ι) : Option (Exit (ThreadLedger ι)) :=
  let s := s.destructThread o
  Exit.bind (s.list.destroy o n) fun list =>
    some (.returned { s.post (.dropped (.memory, o)) with list })

/-- `Threads::start`. -/
def start (s : ThreadLedger ι) (n : ℕ) (thread : Option ι) (calls : StartCalls) :
    Option (Exit (ThreadLedger ι)) :=
  match thread with
  | none => some (.returned s)
  | some o => Exit.bind (s.allocate n o true) fun s =>
      match s.startThread o calls with
      | (false, s) => s.deallocate n o
      | (true, s) => some (.returned s)

/-- `Threads::register_main_thread`. -/
def registerMainThread (s : ThreadLedger ι) (n : ℕ) (thread : Option ι) (calls : StartCalls) :
    Option (Exit (ThreadLedger ι)) :=
  match thread with
  | none => some (.returned s)
  | some o => Exit.bind (s.allocate n o false) fun s => some (.returned (s.startThread o calls).2)

/-- `Threads::stop`. -/
def stop (s : ThreadLedger ι) (n : ℕ) (thread : ι) : Option (Exit (ThreadLedger ι)) :=
  s.deallocate n thread

/-- The loop of `~Threads`.  The iterator has read `next` before its object is destroyed. -/
def destroyTurn (n : ℕ) : Option ι × Option ι × ThreadLedger ι →
    Turn (Option ι × Option ι × ThreadLedger ι) (Option (Exit (ThreadLedger ι)))
  | (none, _, s) => .leave (some (.returned s))
  | (some thd, next, s) =>
      match s.deallocate n thd with
      | some (.returned t) => .again (next, next.bind t.list.next, t)
      | r => .leave r

/-- `Threads::~Threads`. -/
def destroy (s : ThreadLedger ι) (n : ℕ) : Option (Exit (ThreadLedger ι)) :=
  if s.list.head = none then some (.returned s)
  else (loop (destroyTurn n) n (s.list.head, s.list.head.bind s.list.next, s)).join

/-- The call, given `n` turns for each of its loops. -/
def exec (s : ThreadLedger ι) (n : ℕ) : ThreadsOp ι → Option (Exit (ThreadLedger ι))
  | .start thread calls => s.start n thread calls
  | .registerMainThread thread calls => s.registerMainThread n thread calls
  | .stop thread => s.stop n thread

/-! ## Histories -/

omit [DecidableEq ι] in
/-- No thread on the list, whatever the memory holds. -/
def empty (next : ι → Option ι) (threadFunc attrInit condInit : ι → Bool) : ThreadLedger ι :=
  ⟨⟨none, next⟩, threadFunc, attrInit, condInit, []⟩

/-- Memory is allocated only where none is in use, and only a live thread is stopped. -/
def Admissible (s : ThreadLedger ι) : ThreadsOp ι → Prop
  | .start thread _ | .registerMainThread thread _ =>
      ∀ o ∈ thread, tally (.memory, o) s.log = some false
  | .stop thread => tally (.memory, thread) s.log = some true

instance (s : ThreadLedger ι) : ∀ op : ThreadsOp ι, Decidable (s.Admissible op)
  | .start none _ => .isTrue fun _ h => nomatch h
  | .start (some o) _ =>
      decidable_of_iff (tally (.memory, o) s.log = some false) (by simp [Admissible])
  | .registerMainThread none _ => .isTrue fun _ h => nomatch h
  | .registerMainThread (some o) _ =>
      decidable_of_iff (tally (.memory, o) s.log = some false) (by simp [Admissible])
  | .stop _ => inferInstanceAs (Decidable (_ = _))

/-- Calls that return, each with the turns it is given. -/
def machine : Machine (ThreadLedger ι) (ThreadsOp ι × ℕ) where
  step s a :=
    if s.Admissible a.1 then
      match s.exec a.2 a.1 with
      | some (.returned t) => some t
      | _ => none
    else none

/-- **`~Threads` settles all accounts**: it returns, with the list empty, and everything that was
ever made was dropped, once, and nothing else was. -/
def Accounts (s : ThreadLedger ι) : Prop :=
  ∃ n t, s.destroy n = some (.returned t) ∧ t.list.head = none ∧ ∀ k, tally k t.log = some false

/-- The call returns, and `~Threads` may follow it. -/
def Settles (s : ThreadLedger ι) (a : ThreadsOp ι × ℕ) : Prop :=
  s.Admissible a.1 → ∃ n t, s.exec n a.1 = some (.returned t) ∧ t.Accounts

/-- A thread that there is memory for is created. -/
def Creates (s : ThreadLedger ι) (a : ThreadsOp ι × ℕ) : Prop :=
  match a.1 with
  | .start (some o) calls => s.Admissible (.start (some o) calls) → calls.succeed = true
  | _ => True

/-! ## The books -/

/-- What is to be dropped: for each thread on the list its memory, what its flags say, and the
thread if it was created. -/
def owed (s : ThreadLedger ι) (m : List ι) (created : ι → Bool) : ThreadResource × ι → Bool
  | (.memory, o) => decide (o ∈ m)
  | (.attr, o) => decide (o ∈ m) && s.attrInit o
  | (.cond, o) => decide (o ∈ m) && s.condInit o
  | (.cancel, o) => decide (o ∈ m) && created o
  | (.join, o) => decide (o ∈ m) && created o

/-- **The books are in order**: the list is the chain of the threads allocated, and what is
outstanding is what they owe. -/
structure Books (s : ThreadLedger ι) (m : List ι) (created : ι → Bool) : Prop where
  chain : Chain s.list.next s.list.head m
  outstanding : Outstanding s.log (s.owed m created)

variable {s t : ThreadLedger ι} {m : List ι} {created : ι → Bool} {o : ι} {n : ℕ}
  {calls : StartCalls}

theorem books_empty (next : ι → Option ι) (threadFunc attrInit condInit created : ι → Bool) :
    Books (empty next threadFunc attrInit condInit) [] created := by
  refine ⟨rfl, outstanding_nil.congr fun k => ?_⟩
  obtain ⟨r, o⟩ := k
  cases r <;> rfl

theorem Books.tally_memory (h : Books s m created) (o : ι) :
    tally (.memory, o) s.log = some (decide (o ∈ m)) := h.outstanding (.memory, o)

/-- **Allocating** a thread. -/
theorem Books.allocate (h : Books s m created) (ho : o ∉ m) (hn : m.length ≤ n)
    (threadFunc : Bool) : ∃ t, s.allocate n o threadFunc = some (.returned t) ∧
      Books t (m ++ [o]) (Function.update created o false) ∧
      t.threadFunc = Function.update s.threadFunc o threadFunc ∧ t.attrInit o = false ∧
      t.condInit o = false := by
  have hchain : Chain (Function.update s.list.next o none) s.list.head m := h.chain.assign ho none
  obtain ⟨l, hl, hl_chain, -⟩ := ObjectList.exists_add
    (l := { s.list with next := Function.update s.list.next o none }) hchain ho
    (Function.update_self _ _ _) hn
  have hconstruct : s.list.construct o n = some (.returned l) := hl
  have hmade := h.outstanding.made (r := (ThreadResource.memory, o)) (decide_eq_false ho)
  refine ⟨⟨l, Function.update s.threadFunc o threadFunc, Function.update s.attrInit o false,
    Function.update s.condInit o false, s.log ++ [.made (.memory, o)]⟩, ?_,
    ⟨hl_chain, hmade.congr fun k => ?_⟩, rfl, Function.update_self _ _ _,
    Function.update_self _ _ _⟩
  · simp only [ThreadLedger.allocate, post, hconstruct, Exit.bind]
  · obtain ⟨r, o'⟩ := k
    obtain rfl | hne := eq_or_ne o' o
    · cases r <;> simp [owed, ho]
    · cases r <;> simp [owed, hne]

/-- An attribute initialised. -/
theorem Books.initAttr (h : Books s m created) (ho : o ∈ m) (hattr : s.attrInit o = false) :
    Books (s.initAttr o) m created := by
  have hmade := h.outstanding.made (r := (ThreadResource.attr, o)) (by simp [owed, hattr])
  refine ⟨h.chain, hmade.congr fun k => ?_⟩
  obtain ⟨r, o'⟩ := k
  obtain rfl | hne := eq_or_ne o' o
  · cases r <;> simp [owed, ho, ThreadLedger.initAttr, post]
  · cases r <;> simp [owed, hne, ThreadLedger.initAttr, post]

/-- A condition variable initialised. -/
theorem Books.initCond (h : Books s m created) (ho : o ∈ m) (hcond : s.condInit o = false) :
    Books (s.initCond o) m created := by
  have hmade := h.outstanding.made (r := (ThreadResource.cond, o)) (by simp [owed, hcond])
  refine ⟨h.chain, hmade.congr fun k => ?_⟩
  obtain ⟨r, o'⟩ := k
  obtain rfl | hne := eq_or_ne o' o
  · cases r <;> simp [owed, ho, ThreadLedger.initCond, post]
  · cases r <;> simp [owed, hne, ThreadLedger.initCond, post]

/-- A thread created. -/
theorem Books.create (h : Books s m created) (ho : o ∈ m) (hc : created o = false) :
    Books (s.create o) m (Function.update created o true) := by
  have hcancel := h.outstanding.made (r := (ThreadResource.cancel, o)) (by simp [owed, hc])
  have hjoin := hcancel.made (r := (ThreadResource.join, o)) (by simp [owed, hc])
  refine ⟨h.chain, hjoin.congr fun k => ?_⟩
  obtain ⟨r, o'⟩ := k
  obtain rfl | hne := eq_or_ne o' o
  · cases r <;> simp [owed, ho, ThreadLedger.create, post]
  · cases r <;> simp [owed, hne, ThreadLedger.create, post]

/-- How far a start gets: to the end, or to one of the calls that fail. -/
theorem startThread_cases (s : ThreadLedger ι) (hfunc : s.threadFunc o = true)
    (calls : StartCalls) :
    (calls.succeed = true ∧
        s.startThread o calls = (true, ((s.initAttr o).initCond o).create o)) ∨
      calls.succeed = false ∧ ∃ t, s.startThread o calls = (false, t) ∧
        (t = s ∨ t = s.initAttr o ∨ t = (s.initAttr o).initCond o) := by
  simp only [startThread, hfunc, Bool.true_eq_false, if_false]
  match calls with
  | ⟨false, _, _, _, _, _, _, _⟩ => exact .inr ⟨rfl, s, rfl, .inl rfl⟩
  | ⟨true, false, _, _, _, _, _, _⟩ => exact .inr ⟨rfl, _, rfl, .inr (.inl rfl)⟩
  | ⟨true, true, false, _, _, _, _, _⟩ => exact .inr ⟨rfl, _, rfl, .inr (.inr rfl)⟩
  -- the priority is set for `root` only
  | ⟨true, true, true, true, false, _, _, _⟩ => exact .inr ⟨rfl, _, rfl, .inr (.inr rfl)⟩
  | ⟨true, true, true, true, true, false, _, _⟩ => exact .inr ⟨rfl, _, rfl, .inr (.inr rfl)⟩
  | ⟨true, true, true, true, true, true, false, _⟩ => exact .inr ⟨rfl, _, rfl, .inr (.inr rfl)⟩
  | ⟨true, true, true, true, true, true, true, false⟩ => exact .inr ⟨rfl, _, rfl, .inr (.inr rfl)⟩
  | ⟨true, true, true, true, true, true, true, true⟩ => exact .inl ⟨rfl, rfl⟩
  | ⟨true, true, true, false, _, _, _, false⟩ => exact .inr ⟨rfl, _, rfl, .inr (.inr rfl)⟩
  | ⟨true, true, true, false, _, _, _, true⟩ => exact .inl ⟨rfl, rfl⟩

/-- **Starting a thread of ours**: it is created exactly if every call succeeds, and whatever was
made before is on the books. -/
theorem Books.startThread (h : Books s m created) (ho : o ∈ m) (hfunc : s.threadFunc o = true)
    (hattr : s.attrInit o = false) (hcond : s.condInit o = false) (hc : created o = false)
    (calls : StartCalls) :
    ∃ t, s.startThread o calls = (calls.succeed, t) ∧ t.threadFunc = s.threadFunc ∧
      Books t m (if calls.succeed then Function.update created o true else created) := by
  have hbooks₁ := h.initAttr ho hattr
  have hbooks₂ := hbooks₁.initCond ho hcond
  obtain ⟨hok, hstart⟩ | ⟨hfail, t, hstart, ht⟩ := startThread_cases s hfunc calls
  · rw [hok, if_pos rfl]
    exact ⟨_, hstart, rfl, hbooks₂.create ho hc⟩
  · rw [hfail, if_neg Bool.false_ne_true]
    refine ⟨t, hstart, ?_⟩
    obtain rfl | rfl | rfl := ht
    · exact ⟨rfl, h⟩
    · exact ⟨rfl, hbooks₁⟩
    · exact ⟨rfl, hbooks₂⟩

/-- One that is not ours only gets its condition variable. -/
theorem Books.startThread_main (h : Books s m created) (ho : o ∈ m)
    (hfunc : s.threadFunc o = false) (hcond : s.condInit o = false) (calls : StartCalls) :
    (s.startThread o calls).2.threadFunc = s.threadFunc ∧
      Books (s.startThread o calls).2 m created := by
  simp only [ThreadLedger.startThread, hfunc, if_true]
  split_ifs
  · exact ⟨rfl, h⟩
  · exact ⟨rfl, h.initCond ho hcond⟩

/-! ## Dropping a thread -/

/-- **Its destructor drops what a thread has made**, if it was created exactly if it has a
function; the memory follows. -/
theorem Books.deallocate (h : Books s m created) (ho : o ∈ m) (hn : m.length ≤ n)
    (hc : created o = s.threadFunc o) : ∃ t, s.deallocate n o = some (.returned t) ∧
      Books t (m.erase o) created ∧ t.threadFunc = s.threadFunc := by
  obtain ⟨l, hl, hl_chain, -⟩ := ObjectList.exists_remove h.chain ho hn
  have hdestroy : s.list.destroy o n = some (.returned l) := hl
  have hcancel := h.outstanding.dropIf (r := (ThreadResource.cancel, o)) (b := s.threadFunc o)
    (by simp [owed, ho, hc])
  have hjoin := hcancel.dropIf (r := (ThreadResource.join, o)) (b := s.threadFunc o)
    (by simp [owed, ho, hc])
  have hattr := hjoin.dropIf (r := (ThreadResource.attr, o)) (b := s.attrInit o)
    (by simp [owed, ho])
  have hcond := hattr.dropIf (r := (ThreadResource.cond, o)) (b := s.condInit o)
    (by simp [owed, ho])
  have hmemory := hcond.dropped (r := (ThreadResource.memory, o)) (by simp [owed, ho])
  refine ⟨{ (s.destructThread o).post (.dropped (.memory, o)) with list := l }, ?_,
    ⟨hl_chain, hmemory.congr fun k => ?_⟩, rfl⟩
  · simp only [ThreadLedger.deallocate, destructThread, postIf, hdestroy, Exit.bind]
  · obtain ⟨r, o'⟩ := k
    have hnodup := h.chain.nodup
    obtain rfl | hne := eq_or_ne o' o
    · cases r <;> simp [owed, hnodup.mem_erase_iff]
    · cases r <;> simp [owed, hne, hnodup.mem_erase_iff, destructThread, postIf, post]

/-- Whatever state a thread is destroyed in, it is cancelled first if it has a function. -/
theorem log_deallocate (hret : s.deallocate n o = some (.returned t)) :
    (s.postIf (s.threadFunc o) (.dropped (.cancel, o))).log <+: t.log := by
  obtain ⟨list, -, hlog⟩ := Exit.bind_eq_returned.mp hret
  obtain rfl := Exit.returned.inj (Option.some.inj hlog)
  simp only [post, destructThread, postIf, List.append_assoc, List.prefix_append_right_inj,
    List.prefix_append]

/-- **A thread that has a function and was not created is cancelled all the same.** -/
theorem Books.tally_deallocate (h : Books s m created) (hfunc : s.threadFunc o = true)
    (hc : created o = false) (hret : s.deallocate n o = some (.returned t)) :
    tally (.cancel, o) t.log = none := by
  obtain ⟨l, hl⟩ := log_deallocate hret
  rw [hfunc] at hl
  have hcancel := h.outstanding.tally_dropped (r := (ThreadResource.cancel, o))
    (by simp [owed, hc])
  rw [← hl]
  exact tally_append_of_eq_none hcancel l

/-- **A turn of `~Threads`** destroys the thread at the head, and finds the next one there. -/
theorem Books.exists_destroyTurn (h : Books s (o :: m) created) (hn : (o :: m).length ≤ n)
    (hc : created o = s.threadFunc o) :
    ∃ t, destroyTurn n (s.list.head, s.list.head.bind s.list.next, s)
      = .again (t.list.head, t.list.head.bind t.list.next, t) ∧ Books t m created ∧
        t.threadFunc = s.threadFunc := by
  obtain ⟨t, hret, hbooks, hfunc⟩ := h.deallocate List.mem_cons_self hn hc
  rw [List.erase_cons_head] at hbooks
  have hnext : s.list.next o = t.list.head := by
    rw [h.chain.2.eq_head?, hbooks.chain.eq_head?]
  refine ⟨t, ?_, hbooks, hfunc⟩
  rw [h.chain.1, Option.bind_some, hnext]
  simp only [destroyTurn, hret]

/-- **Its loop** destroys them all. -/
theorem Books.loop_destroyTurn (h : Books s m created) (hc : ∀ o ∈ m, created o = s.threadFunc o) :
    ∃ r, loop (destroyTurn (m.length + 1)) (m.length + 1)
      (s.list.head, s.list.head.bind s.list.next, s) = some r ∧
        ∃ t, r = some (.returned t) ∧ Books t [] created := by
  refine loop_of_list (I := fun todo p => ∃ t, p = (t.list.head, t.list.head.bind t.list.next, t) ∧
    todo.length ≤ m.length + 1 ∧ Books t todo created ∧ ∀ o ∈ todo, created o = t.threadFunc o)
    ?_ ?_ ⟨s, rfl, Nat.le_succ _, h, hc⟩
  · rintro o todo _ ⟨t, rfl, hn, ht, hc⟩
    obtain ⟨u, hturn, hu, hfunc⟩ := ht.exists_destroyTurn hn (hc o List.mem_cons_self)
    refine ⟨_, hturn, u, rfl, (Nat.le_succ _).trans hn, hu, fun o' ho' => ?_⟩
    rw [hfunc]
    exact hc o' (List.mem_cons_of_mem o ho')
  · rintro _ ⟨t, rfl, -, ht, -⟩
    refine ⟨some (.returned t), ?_, t, rfl, ht⟩
    rw [chain_nil.mp ht.chain]
    rfl

/-- **While every thread with a function was created, `~Threads` settles all accounts.** -/
theorem Books.accounts (h : Books s m s.threadFunc) : s.Accounts := by
  obtain ⟨_, hloop, t, rfl, ht⟩ := h.loop_destroyTurn fun _ _ => rfl
  have hsettled {u : ThreadLedger ι} (hu : Books u [] s.threadFunc) :
      u.list.head = none ∧ ∀ k, tally k u.log = some false := by
    refine ⟨chain_nil.mp hu.chain, fun k => ?_⟩
    rw [hu.outstanding k]
    obtain ⟨r, o⟩ := k
    cases r <;> rfl
  by_cases hhead : s.list.head = none
  · have hempty : m = [] := List.head?_eq_none_iff.mp (h.chain.eq_head?.symm.trans hhead)
    subst hempty
    exact ⟨0, s, if_pos hhead, hsettled h⟩
  · refine ⟨m.length + 1, t, ?_, hsettled ht⟩
    rw [destroy, if_neg hhead, hloop]
    rfl

/-- The log of `~Threads` goes on from the one there is. -/
theorem log_destroy (hret : s.destroy n = some (.returned t)) : s.log <+: t.log := by
  rw [destroy] at hret
  split_ifs at hret
  · obtain rfl := Exit.returned.inj (Option.some.inj hret)
    exact List.prefix_refl _
  · refine loop_induct (P := fun x => s.log <+: x.2.2.log)
      (Q := fun r => ∀ t, r = some (.returned t) → s.log <+: t.log) ?_ ?_ (List.prefix_refl _)
      (Option.join_eq_some_iff.mp hret) t rfl
    · rintro ⟨ptr, next, x⟩ y hx hturn
      cases ptr with
      | none => cases hturn
      | some thd =>
        simp only [destroyTurn] at hturn
        split at hturn
        · case _ u hu =>
          obtain rfl := Turn.again.inj hturn
          exact (hx.trans (List.prefix_append _ _)).trans (log_deallocate hu)
        · cases hturn
    · rintro ⟨ptr, next, x⟩ r hx hturn u rfl
      cases ptr with
      | none =>
        cases hturn
        exact hx
      | some thd =>
        simp only [destroyTurn] at hturn
        split at hturn
        · cases hturn
        · case _ hne => exact absurd (Turn.leave.inj hturn) (hne u)

/-! ## Whole histories -/

theorem turnFree_allocate (s : ThreadLedger ι) (o : ι) (threadFunc : Bool) :
    TurnFree fun n => s.allocate n o threadFunc :=
  TurnFree.bind (ObjectList.turnFree_add _ o) fun _ => turnFree_some _

theorem turnFree_deallocate (s : ThreadLedger ι) (o : ι) :
    TurnFree fun n => s.deallocate n o :=
  TurnFree.bind (ObjectList.turnFree_remove _ o) fun _ => turnFree_some _

theorem turnFree_exec (s : ThreadLedger ι) (op : ThreadsOp ι) : TurnFree fun n => s.exec n op := by
  cases op with
  | start thread calls =>
    cases thread with
    | none => exact turnFree_some _
    | some o =>
      refine TurnFree.bind (turnFree_allocate s o true) fun t => ?_
      cases hstart : t.startThread o calls with
      | mk ok u =>
        cases ok with
        | false => exact turnFree_deallocate u o
        | true => exact turnFree_some _
  | registerMainThread thread calls =>
    cases thread with
    | none => exact turnFree_some _
    | some o => exact TurnFree.bind (turnFree_allocate s o false) fun _ => turnFree_some _
  | stop thread => exact turnFree_deallocate s thread

/-- **The invariant**: the books are in order, every thread with a function having been created. -/
def Good (s : ThreadLedger ι) : Prop := ∃ m, Books s m s.threadFunc

/-- Allocating, from books in order. -/
theorem Good.exists_allocate (h : Good s) (hfree : tally (.memory, o) s.log = some false)
    (threadFunc : Bool) : ∃ n m t, o ∈ m ∧ m.length ≤ n ∧
      s.allocate n o threadFunc = some (.returned t) ∧
      Books t m (Function.update s.threadFunc o false) ∧
      t.threadFunc = Function.update s.threadFunc o threadFunc ∧ t.attrInit o = false ∧
      t.condInit o = false := by
  obtain ⟨m, hm⟩ := h
  have ho : o ∉ m := by
    rw [hm.tally_memory, Option.some.injEq] at hfree
    exact of_decide_eq_false hfree
  obtain ⟨t, ht⟩ := hm.allocate ho (n := (m ++ [o]).length) (by simp) threadFunc
  exact ⟨_, m ++ [o], t, by simp, le_rfl, ht⟩

/-- **A call that creates what it allocates keeps the books in order.** -/
theorem Good.exists_exec (h : Good s) {op : ThreadsOp ι} (hadm : s.Admissible op)
    (hc : ∀ n, Creates s (op, n)) : ∃ n t, s.exec n op = some (.returned t) ∧ Good t := by
  cases op with
  | start thread calls =>
    cases thread with
    | none => exact ⟨0, s, rfl, h⟩
    | some o =>
      obtain ⟨n, m, t, ho, hn, hret, hbooks, hfunc, hattr, hcond⟩ :=
        h.exists_allocate (hadm o rfl) true
      obtain ⟨u, hstart, hu_func, hu⟩ := hbooks.startThread ho
        (by rw [hfunc, Function.update_self]) hattr hcond (Function.update_self _ _ _) calls
      rw [hc 0 hadm] at hstart hu
      rw [if_pos rfl, Function.update_idem, ← hfunc, ← hu_func] at hu
      exact ⟨n, u, by simp only [exec, start, hret, Exit.bind, hstart], m, hu⟩
  | registerMainThread thread calls =>
    cases thread with
    | none => exact ⟨0, s, rfl, h⟩
    | some o =>
      obtain ⟨n, m, t, ho, hn, hret, hbooks, hfunc, hattr, hcond⟩ :=
        h.exists_allocate (hadm o rfl) false
      obtain ⟨hu_func, hu⟩ := hbooks.startThread_main ho (by rw [hfunc, Function.update_self]) hcond
        calls
      rw [← hfunc, ← hu_func] at hu
      exact ⟨n, _, by simp only [exec, registerMainThread, hret, Exit.bind], m, hu⟩
  | stop thread =>
    obtain ⟨m, hm⟩ := h
    have ho : thread ∈ m := by
      rw [Admissible, hm.tally_memory, Option.some.injEq] at hadm
      exact of_decide_eq_true hadm
    obtain ⟨t, hret, ht, hfunc⟩ := hm.deallocate ho le_rfl rfl
    exact ⟨m.length, t, hret, m.erase thread, hfunc ▸ ht⟩

/-- **A start that fails leaves a drop out of order**, which `~Threads` does not mend. -/
theorem Good.creates_of_settles (h : Good s) {a : ThreadsOp ι × ℕ} (hs : Settles s a) :
    Creates s a := by
  obtain ⟨op, k⟩ := a
  cases op with
  | registerMainThread thread calls => trivial
  | stop thread => trivial
  | start thread calls =>
    cases thread with
    | none => trivial
    | some o =>
      intro hadm
      by_contra hfail
      rw [Bool.not_eq_true] at hfail
      obtain ⟨n, m, t, ho, hn, hret, hbooks, hfunc, hattr, hcond⟩ :=
        h.exists_allocate (hadm o rfl) true
      have hself : t.threadFunc o = true := by rw [hfunc, Function.update_self]
      obtain ⟨u, hstart, hu_func, hu⟩ := hbooks.startThread ho hself hattr hcond
        (Function.update_self _ _ _) calls
      rw [hfail] at hstart hu
      -- the call that cleans up comes back, with a cancel too many
      obtain ⟨n', v, hv, n'', w, hw, -, hsettled⟩ := hs hadm
      obtain ⟨t', hret', hv⟩ := Exit.bind_eq_returned.mp hv
      obtain rfl := Exit.returned.inj (turnFree_allocate s o true hret hret')
      simp only [hstart] at hv
      have hnone := hu.tally_deallocate (hu_func ▸ hself)
        (by rw [if_neg Bool.false_ne_true, Function.update_self]) hv
      obtain ⟨l, hl⟩ := log_destroy hw
      have hsome := hsettled (.cancel, o)
      rw [← hl, tally_append_of_eq_none hnone] at hsome
      cases hsome

theorem Good.accounts (h : Good s) : s.Accounts := by
  obtain ⟨m, hm⟩ := h
  exact hm.accounts

theorem Good.settles_iff (h : Good s) (a : ThreadsOp ι × ℕ) : Settles s a ↔ Creates s a := by
  refine ⟨h.creates_of_settles, fun hc hadm => ?_⟩
  obtain ⟨n, t, hret, ht⟩ := h.exists_exec hadm fun _ => hc
  exact ⟨n, t, hret, ht.accounts⟩

theorem Good.step (h : Good s) {a : ThreadsOp ι × ℕ} (hc : Creates s a)
    (hst : machine.step s a = some t) : Good t := by
  simp only [machine] at hst
  split_ifs at hst with hadm
  obtain ⟨n, u, hret, hu⟩ := h.exists_exec hadm fun _ => hc
  split at hst
  · case _ v hv =>
    obtain rfl := Exit.returned.inj (turnFree_exec s a.1 hret hv)
    exact Option.some.inj hst ▸ hu
  · cases hst

/-- **Everything is accounted for, whenever `~Threads` comes, exactly while every thread that is
started is created.** -/
theorem along_settles_iff (next : ι → Option ι) (threadFunc attrInit condInit : ι → Bool)
    (ops : List (ThreadsOp ι × ℕ)) :
    (empty next threadFunc attrInit condInit).Accounts ∧
        machine.Along Settles (empty next threadFunc attrInit condInit) ops
      ↔ machine.Along Creates (empty next threadFunc attrInit condInit) ops := by
  have hgood : Good (empty next threadFunc attrInit condInit) := ⟨[], books_empty _ _ _ _ _⟩
  rw [Machine.along_iff_along hgood (fun _ a h => h.settles_iff a)
    fun _ _ _ h hc hst => h.step hc hst]
  exact and_iff_right hgood.accounts

/-- A start in which `pthread_create` fails. -/
def notCreated : StartCalls := ⟨true, true, true, false, true, true, true, false⟩

/-- **A thread that could not be created is cancelled and joined.** -/
theorem not_forall_settles : ¬ ∀ (next : ℕ → Option ℕ) (threadFunc attrInit condInit : ℕ → Bool)
    (ops : List (ThreadsOp ℕ × ℕ)), (empty next threadFunc attrInit condInit).Accounts ∧
      machine.Along Settles (empty next threadFunc attrInit condInit) ops := by
  intro h
  have hsettles := (h (fun _ => none) (fun _ => false) (fun _ => false) (fun _ => false)
    [(.start (some 0) notCreated, 1)]).2.1
  have hgood : Good (empty (fun _ : ℕ => none) (fun _ => false) (fun _ => false) fun _ => false) :=
    ⟨[], books_empty _ _ _ _ _⟩
  have hcreated : notCreated.succeed = true := hgood.creates_of_settles hsettles (by decide)
  revert hcreated
  decide

end ThreadLedger

end LibDronecan
