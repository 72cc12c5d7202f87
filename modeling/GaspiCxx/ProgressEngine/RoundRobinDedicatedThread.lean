import GaspiCxx.Runs.Trace

/-!
# The progress engine (`RoundRobinDedicatedThread`)

Any number of threads register and deregister collectives; one management
thread serves the registered ones in turn. What a mutex guards is one step.
Everything between two locked sections is a step of its own: the value
`register_collective` returns is read after its lock is gone, the management
thread looks at `terminate_man_thread` twice in every round, and each
`triggerProgress` of a pass is a step.

A waiting thread may wake at any time; it then looks at the predicate again.
-/

namespace GaspiCxx.ProgressEngine

/-- A `size_t`. -/
abbrev CollectiveHandle := Nat

abbrev Thread := Nat

variable {Collective : Type}

/-! ## The map of registered collectives -/

/-- `std::unordered_map<CollectiveHandle, …>`: at most one collective under a handle. -/
structure Operators (Collective : Type) where
  entries : List (CollectiveHandle × Collective)
  nodup : (entries.map Prod.fst).Nodup

namespace Operators

variable {operators : Operators Collective} {handle key : CollectiveHandle} {c : Collective}

def empty : Operators Collective := ⟨[], List.nodup_nil⟩

def values (operators : Operators Collective) : List Collective := operators.entries.map Prod.snd

def size (operators : Operators Collective) : Nat := operators.entries.length

/-- `insert`; `none` if the handle is in use. -/
def insert (operators : Operators Collective) (handle : CollectiveHandle) (collective : Collective) :
    Option (Operators Collective) :=
  if h : handle ∈ operators.entries.map Prod.fst then none
  else some ⟨operators.entries ++ [(handle, collective)], by
    rw [List.map_append]
    exact List.nodup_append.mpr ⟨operators.nodup, List.nodup_singleton _, fun a ha b hb => by
      obtain rfl : b = handle := List.mem_singleton.mp hb
      exact fun he => h (he ▸ ha)⟩⟩

/-- What `erase` takes out. -/
def taken (operators : Operators Collective) (handle : CollectiveHandle) : List (CollectiveHandle × Collective) :=
  operators.entries.filter (·.1 = handle)

def erase (operators : Operators Collective) (handle : CollectiveHandle) : Operators Collective :=
  ⟨operators.entries.filter (·.1 ≠ handle), operators.nodup.sublist (List.filter_sublist.map _)⟩

theorem insert_entries {after : Operators Collective} (h : operators.insert handle c = some after) :
    handle ∉ operators.entries.map Prod.fst ∧ after.entries = operators.entries ++ [(handle, c)] := by
  unfold insert at h
  split at h
  · cases h
  · next hno =>
    obtain rfl := Option.some.inj h
    exact ⟨hno, rfl⟩

theorem mem_erase : (key, c) ∈ (operators.erase handle).entries ↔ (key, c) ∈ operators.entries ∧ key ≠ handle := by
  simp [erase]

theorem taken_eq_singleton (h : (handle, c) ∈ operators.entries) : operators.taken handle = [(handle, c)] := by
  obtain ⟨pre, post, he⟩ := List.append_of_mem h
  have hnd := operators.nodup
  rw [he, List.map_append, List.map_cons] at hnd
  have hpre : ∀ e ∈ pre, e.1 ≠ handle := fun e hm he =>
    (List.nodup_append.mp hnd).2.2 e.1 (List.mem_map_of_mem hm) handle List.mem_cons_self he
  have hpost : ∀ e ∈ post, e.1 ≠ handle := fun e hm he =>
    (List.nodup_cons.mp (List.nodup_append.mp hnd).2.1).1 (List.mem_map.mpr ⟨e, hm, he⟩)
  unfold taken
  rw [he, List.filter_append, List.filter_eq_nil_iff.mpr (by simpa using hpre), List.filter_cons_of_pos (by simp),
    List.filter_eq_nil_iff.mpr (by simpa using hpost), List.nil_append]

theorem taken_eq_nil (h : handle ∉ operators.entries.map Prod.fst) : operators.taken handle = [] := by
  refine List.filter_eq_nil_iff.mpr fun e he => ?_
  have hne : e.1 ≠ handle := fun heq => h (heq ▸ List.mem_map_of_mem he)
  simpa using hne

end Operators

/-! ## The members the threads share -/

structure Engine (Collective : Type) where
  updated_operators : Bool
  current_handle : CollectiveHandle
  operators : Operators Collective
  terminate_man_thread : Bool

namespace Engine

def construct : Engine Collective where
  updated_operators := false
  current_handle := 0
  operators := .empty
  terminate_man_thread := false

/-- The locked section of `register_collective`. -/
def register_collective (collective : Collective) (e : Engine Collective) : Except String Unit × Engine Collective :=
  let e := { e with updated_operators := true, current_handle := (e.current_handle + 1) % 2 ^ 64 }
  match e.operators.insert e.current_handle collective with
  | none => (.error "ProgressEngine: Handle has already been used.", e)
  | some operators => (.ok (), { e with operators })

def deregister_collective (handle : CollectiveHandle) (e : Engine Collective) :
    Except String Unit × Engine Collective :=
  let count := (e.operators.taken handle).length
  let e := { e with updated_operators := true, operators := e.operators.erase handle }
  if count ≠ 1 then (.error "ProgressEngine: Could not remove operator", e) else (.ok (), e)

/-- What `condition.wait` waits for. -/
def ready (e : Engine Collective) : Prop := 0 < e.operators.size ∨ e.terminate_man_thread = true

variable {e e' : Engine Collective} {c : Collective} {handle : CollectiveHandle} {what : String}

/-- A registration that throws has inserted nothing, but has set the flag and used up a handle. -/
theorem register_collective_error (h : e.register_collective c = (.error what, e')) :
    e' = { e with updated_operators := true, current_handle := (e.current_handle + 1) % 2 ^ 64 } := by
  unfold register_collective at h
  simp only at h
  split at h
  · exact (congrArg Prod.snd h).symm
  · cases h

theorem register_collective_ok (h : e.register_collective c = (.ok (), e')) :
    ∃ operators, e.operators.insert ((e.current_handle + 1) % 2 ^ 64) c = some operators ∧
      e' = { e with updated_operators := true, current_handle := (e.current_handle + 1) % 2 ^ 64, operators } := by
  unfold register_collective at h
  simp only at h
  split at h
  · cases h
  · next operators hi => exact ⟨operators, hi, (congrArg Prod.snd h).symm⟩

theorem deregister_collective_snd (handle : CollectiveHandle) (e : Engine Collective) :
    (e.deregister_collective handle).2 =
      { e with updated_operators := true, operators := e.operators.erase handle } := by
  unfold deregister_collective
  simp only
  split <;> rfl

end Engine

/-! ## The system -/

/-- Where the management thread is in the loop of `generate_progress`. -/
inductive Manager (Collective : Type) where
  /-- before the condition of the loop -/
  | check
  /-- before the lock -/
  | lock
  /-- in `condition.wait`, without the lock -/
  | blocked
  /-- behind the locked section -/
  | unlocked
  /-- in the pass, with these collectives still to be triggered -/
  | pass (todo : List Collective)
  | stopped

structure State (Collective : Type) where
  engine : Engine Collective
  /-- the calls of `register_collective` that have left their locked section:
  the key they inserted and the collective -/
  calls : Thread → Option (CollectiveHandle × Collective)
  manager : Manager Collective
  current_operators : List Collective

def State.initial : State Collective where
  engine := .construct
  calls _ := none
  manager := .check
  current_operators := []

inductive Label (Collective : Type) where
  /-- a locked section of `register_collective` that inserted `collective` under `key` -/
  | register (t : Thread) (key : CollectiveHandle) (collective : Collective)
  /-- one that threw -/
  | refuse (t : Thread)
  /-- the call that inserted `collective` under `key` returns `handle` -/
  | returns (t : Thread) (key : CollectiveHandle) (collective : Collective) (handle : CollectiveHandle)
  /-- `deregister_collective(handle)` took these entries out of the map -/
  | deregister (t : Thread) (handle : CollectiveHandle) (removed : List (CollectiveHandle × Collective))
  /-- the destructor sets `terminate_man_thread` -/
  | terminate
  | check
  | sleep
  | leave
  | pass
  | cut
  | trigger (collective : Collective)
  | served

/-- The private list when the locked section is left; the map has no order. -/
def Refreshed (s : State Collective) (list : List Collective) : Prop :=
  if s.engine.updated_operators then list.Perm s.engine.operators.values else list = s.current_operators

inductive Step : State Collective → Label Collective → State Collective → Prop where
  | register {s : State Collective} {t : Thread} {c : Collective} {e : Engine Collective}
      (hidle : s.calls t = none) (he : s.engine.register_collective c = (.ok (), e)) :
      Step s (.register t e.current_handle c)
        { s with engine := e, calls := Function.update s.calls t (some (e.current_handle, c)) }
  | refuse {s : State Collective} {t : Thread} {c : Collective} {what : String} {e : Engine Collective}
      (hidle : s.calls t = none) (he : s.engine.register_collective c = (.error what, e)) :
      Step s (.refuse t) { s with engine := e }
  | returns {s : State Collective} {t : Thread} {key : CollectiveHandle} {c : Collective}
      (hcall : s.calls t = some (key, c)) :
      Step s (.returns t key c s.engine.current_handle) { s with calls := Function.update s.calls t none }
  | deregister {s : State Collective} {t : Thread} (handle : CollectiveHandle) (hidle : s.calls t = none) :
      Step s (.deregister t handle (s.engine.operators.taken handle))
        { s with engine := (s.engine.deregister_collective handle).2 }
  | terminate {s : State Collective} :
      Step s .terminate { s with engine := { s.engine with terminate_man_thread := true } }
  | loop {s : State Collective} (hm : s.manager = .check) (hgo : s.engine.terminate_man_thread = false) :
      Step s .check { s with manager := .lock }
  | stop {s : State Collective} (hm : s.manager = .check) (hend : s.engine.terminate_man_thread = true) :
      Step s .check { s with manager := .stopped, current_operators := [] }
  | sleep {s : State Collective} (hm : s.manager = .lock ∨ s.manager = .blocked) (hwait : ¬ s.engine.ready) :
      Step s .sleep { s with manager := .blocked }
  | leave {s : State Collective} {list : List Collective} (hm : s.manager = .lock ∨ s.manager = .blocked)
      (hready : s.engine.ready) (hlist : Refreshed s list) :
      Step s .leave { s with
        manager := .unlocked, current_operators := list, engine := { s.engine with updated_operators := false } }
  | pass {s : State Collective} (hm : s.manager = .unlocked) (hgo : s.engine.terminate_man_thread = false) :
      Step s .pass { s with manager := .pass s.current_operators }
  | cut {s : State Collective} (hm : s.manager = .unlocked) (hend : s.engine.terminate_man_thread = true) :
      Step s .cut { s with manager := .check }
  | trigger {s : State Collective} {c : Collective} {todo : List Collective} (hm : s.manager = .pass (c :: todo)) :
      Step s (.trigger c) { s with manager := .pass todo }
  | served {s : State Collective} (hm : s.manager = .pass []) : Step s .served { s with manager := .check }

/-- A registration under a key that is free. -/
theorem Step.register_new {s : State Collective} {t : Thread} {c : Collective} {operators : Operators Collective}
    (hidle : s.calls t = none)
    (hnew : s.engine.operators.insert ((s.engine.current_handle + 1) % 2 ^ 64) c = some operators) :
    Step s (.register t ((s.engine.current_handle + 1) % 2 ^ 64) c) { s with
      engine := { s.engine with
        updated_operators := true, current_handle := (s.engine.current_handle + 1) % 2 ^ 64, operators },
      calls := Function.update s.calls t (some ((s.engine.current_handle + 1) % 2 ^ 64, c)) } := by
  have he : s.engine.register_collective c = (.ok (), { s.engine with
      updated_operators := true, current_handle := (s.engine.current_handle + 1) % 2 ^ 64, operators }) := by
    unfold Engine.register_collective
    simp only [hnew]
  exact .register hidle he

/-- The runs of the engine from its construction. -/
abbrev Run (ls : List (Label Collective)) (s : State Collective) : Prop := Runs.Trace Step State.initial ls s

end GaspiCxx.ProgressEngine
