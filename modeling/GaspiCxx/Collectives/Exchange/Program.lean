import GaspiCxx.OneSided.Schedule
import GaspiCxx.Passive.Table

/-!
# The program of one member

What `alltoall`, `alltoallv`, `allgather` and `allgatherv` do, but for the offsets
and sizes of the descriptions: four loops over the members `i` of the group, seven,
three, three and four instructions long.

* acquire a source and a target notification, send both descriptions to `i` in a
  send buffer, and get a receive buffer ready for those of `i`;
* wait for the descriptions of `i`, and write to its target;
* wait for the data of `i`, and acknowledge it at its source;
* wait for the acknowledgement of `i`, and give everything back.

`position` numbers the instructions in the order in which they run.
-/

namespace GaspiCxx.Collectives.Exchange

open OneSided Passive

/-- Of the source descriptions or of the target descriptions. -/
inductive Side where
  | source
  | target
  deriving DecidableEq, Repr

inductive Instr (n : Nat) where
  | enter
  | acquire_notification (side : Side) (i : Fin n)
  /-- `descriptionSendBuffers[i]` or `descriptionRecvBuffers[i]`. -/
  | newBuffer (role : Role) (i : Fin n)
  | serialize (i : Fin n)
  /-- `iSendTagMessg` or `iRecvTagMessg`. -/
  | post (role : Role) (i : Fin n)
  /-- With the two `deserialize` of the receive buffer. -/
  | waitForNotification (role : Role) (i : Fin n)
  | deleteBuffer (role : Role) (i : Fin n)
  | write (i : Fin n)
  | waitForBufferNotification (side : Side) (i : Fin n)
  | notify (i : Fin n)
  | release_notification (side : Side) (i : Fin n)
  /-- `flush`, and the return. -/
  | leave
  deriving DecidableEq, Repr

variable {n : Nat}

def Instr.position : Instr n → Nat
  | .enter => 0
  | .acquire_notification .source i => 7 * i + 1
  | .acquire_notification .target i => 7 * i + 2
  | .newBuffer .src i => 7 * i + 3
  | .serialize i => 7 * i + 4
  | .newBuffer .rcv i => 7 * i + 5
  | .post .src i => 7 * i + 6
  | .post .rcv i => 7 * i + 7
  | .waitForNotification .rcv i => 7 * n + 3 * i + 1
  | .deleteBuffer .rcv i => 7 * n + 3 * i + 2
  | .write i => 7 * n + 3 * i + 3
  | .waitForBufferNotification .target i => 10 * n + 3 * i + 1
  | .notify i => 10 * n + 3 * i + 2
  | .release_notification .target i => 10 * n + 3 * i + 3
  | .waitForBufferNotification .source i => 13 * n + 4 * i + 1
  | .waitForNotification .src i => 13 * n + 4 * i + 2
  | .deleteBuffer .src i => 13 * n + 4 * i + 3
  | .release_notification .source i => 13 * n + 4 * i + 4
  | .leave => 17 * n + 1

/-- The number of instructions. -/
def length (n : Nat) : Nat := 17 * n + 2

namespace Instr

/-- The loop an instruction belongs to; entering and leaving stand alone. -/
def loop : Instr n → Nat
  | .enter => 0
  | .acquire_notification _ _ | .newBuffer _ _ | .serialize _ | .post _ _ => 1
  | .waitForNotification .rcv _ | .deleteBuffer .rcv _ | .write _ => 2
  | .waitForBufferNotification .target _ | .notify _ | .release_notification .target _ => 3
  | .waitForBufferNotification .source _ | .waitForNotification .src _ | .deleteBuffer .src _ |
    .release_notification .source _ => 4
  | .leave => 5

theorem position_bounds (I : Instr n) :
    I.loop = 0 ∧ I.position = 0 ∨ I.loop = 1 ∧ 0 < I.position ∧ I.position ≤ 7 * n ∨
      I.loop = 2 ∧ 7 * n < I.position ∧ I.position ≤ 10 * n ∨
      I.loop = 3 ∧ 10 * n < I.position ∧ I.position ≤ 13 * n ∨
      I.loop = 4 ∧ 13 * n < I.position ∧ I.position ≤ 17 * n ∨ I.loop = 5 ∧ I.position = 17 * n + 1 := by
  unfold position
  split <;> simp only [loop, true_and, true_or, or_true] <;> omega

theorem position_lt (I : Instr n) : I.position < length n := by
  have := I.position_bounds
  unfold length
  omega

theorem position_inj {I J : Instr n} (h : I.position = J.position) : I = J := by
  have hloop : I.loop = J.loop := by
    have := I.position_bounds
    have := J.position_bounds
    omega
  -- two instructions of one loop differ in the round or in the place in the body
  unfold position at h
  split at h <;> split at h <;> first
    | rfl
    | (cases hloop; done)
    | (exfalso; omega)
    | (congr 1; apply Fin.ext; omega)

theorem position_lt_leave {I : Instr n} (h : I ≠ .leave) : I.position < (Instr.leave : Instr n).position := by
  have h1 := I.position_lt
  have h2 : I.position ≠ 17 * n + 1 := fun he => h (position_inj (J := .leave) he)
  have h3 : (Instr.leave : Instr n).position = 17 * n + 1 := rfl
  unfold length at h1
  omega

/-- A position in a loop with a body of `k` instructions. -/
theorem exists_body {base k p : Nat} (hlo : base < p) (hhi : p ≤ base + k * n) :
    ∃ i < n, ∃ b < k, p = base + k * i + b + 1 := by
  have hk : 0 < k := Nat.pos_of_ne_zero fun h => by subst h; omega
  refine ⟨(p - base - 1) / k, Nat.div_lt_of_lt_mul (by omega), (p - base - 1) % k, Nat.mod_lt _ hk, ?_⟩
  have := Nat.div_add_mod (p - base - 1) k
  omega

/-- Every position is one of an instruction. -/
theorem exists_position {p : Nat} (hp : p < length n) : ∃ I : Instr n, I.position = p := by
  unfold length at hp
  obtain rfl | h | h | h | h | rfl : p = 0 ∨ (0 < p ∧ p ≤ 0 + 7 * n) ∨ (7 * n < p ∧ p ≤ 7 * n + 3 * n) ∨
      (10 * n < p ∧ p ≤ 10 * n + 3 * n) ∨ (13 * n < p ∧ p ≤ 13 * n + 4 * n) ∨ p = 17 * n + 1 := by omega
  · exact ⟨.enter, rfl⟩
  · obtain ⟨i, hi, b, hb, rfl⟩ := exists_body h.1 h.2
    rw [Nat.zero_add]
    obtain rfl | rfl | rfl | rfl | rfl | rfl | rfl :
      b = 0 ∨ b = 1 ∨ b = 2 ∨ b = 3 ∨ b = 4 ∨ b = 5 ∨ b = 6 := by omega
    · exact ⟨.acquire_notification .source ⟨i, hi⟩, rfl⟩
    · exact ⟨.acquire_notification .target ⟨i, hi⟩, rfl⟩
    · exact ⟨.newBuffer .src ⟨i, hi⟩, rfl⟩
    · exact ⟨.serialize ⟨i, hi⟩, rfl⟩
    · exact ⟨.newBuffer .rcv ⟨i, hi⟩, rfl⟩
    · exact ⟨.post .src ⟨i, hi⟩, rfl⟩
    · exact ⟨.post .rcv ⟨i, hi⟩, rfl⟩
  · obtain ⟨i, hi, b, hb, rfl⟩ := exists_body h.1 h.2
    obtain rfl | rfl | rfl : b = 0 ∨ b = 1 ∨ b = 2 := by omega
    · exact ⟨.waitForNotification .rcv ⟨i, hi⟩, rfl⟩
    · exact ⟨.deleteBuffer .rcv ⟨i, hi⟩, rfl⟩
    · exact ⟨.write ⟨i, hi⟩, rfl⟩
  · obtain ⟨i, hi, b, hb, rfl⟩ := exists_body h.1 h.2
    obtain rfl | rfl | rfl : b = 0 ∨ b = 1 ∨ b = 2 := by omega
    · exact ⟨.waitForBufferNotification .target ⟨i, hi⟩, rfl⟩
    · exact ⟨.notify ⟨i, hi⟩, rfl⟩
    · exact ⟨.release_notification .target ⟨i, hi⟩, rfl⟩
  · obtain ⟨i, hi, b, hb, rfl⟩ := exists_body h.1 h.2
    obtain rfl | rfl | rfl | rfl : b = 0 ∨ b = 1 ∨ b = 2 ∨ b = 3 := by omega
    · exact ⟨.waitForBufferNotification .source ⟨i, hi⟩, rfl⟩
    · exact ⟨.waitForNotification .src ⟨i, hi⟩, rfl⟩
    · exact ⟨.deleteBuffer .src ⟨i, hi⟩, rfl⟩
    · exact ⟨.release_notification .source ⟨i, hi⟩, rfl⟩
  · exact ⟨.leave, rfl⟩

end Instr

/-! ## One member goes on -/

section

variable {f : Fin n → Progress} {m m' : Fin n} {I J : Instr n}

theorem passed_tick (hJ : (f m).steps = J.position) :
    (Progress.tick (length n) f m m').passed I.position =
      (f m').passed I.position + if m' = m ∧ I = J then 1 else 0 := by
  rw [Progress.passed_tick (by rw [hJ]; exact J.position_lt) I.position_lt, hJ]
  congr 1
  by_cases h : I = J
  · subst h; simp
  · have hp : I.position ≠ J.position := fun he => h (Instr.position_inj he)
    simp [h, hp]

theorem tick_self (hJ : (f m).steps = J.position) :
    Progress.tick (length n) f m m =
      if J = .leave then ⟨(f m).run + 1, 0⟩ else ⟨(f m).run, J.position + 1⟩ := by
  rw [Progress.tick_self]
  unfold Progress.advance
  rw [hJ]
  by_cases h : J = .leave
  · subst h
    simp [Instr.position, length]
  · have hlt : J.position < 17 * n + 1 := Instr.position_lt_leave h
    unfold length
    rw [if_pos (by omega), if_neg h]

theorem run_tick (hJ : (f m).steps = J.position) :
    (Progress.tick (length n) f m m').run = (f m').run + if m' = m ∧ J = .leave then 1 else 0 := by
  by_cases hm : m' = m
  · subst hm
    rw [tick_self hJ]
    split <;> simp [*]
  · rw [Progress.tick_ne hm, if_neg fun he => hm he.1, Nat.add_zero]

end

end GaspiCxx.Collectives.Exchange
