import GaspiCxx.Segment.Blocks

/-!
# The memory of a segment (`MemoryManager`)

The manager hands out pieces of one region, first fit, and merges what comes
back. `Correct` is what holds after any sequence of calls, misuse included.
-/

namespace GaspiCxx.Segment.MemoryManager

inductive Error where
  | bad_alloc
  | runtime_error (what : String)
  deriving DecidableEq, Repr

/-- The managed memory; no region contains the null pointer. -/
structure Region where
  memory_segment_ptr : Nat
  memory_segment_size : Nat
  size_pos : 0 < memory_segment_size
  not_null : memory_segment_ptr ≠ 0

def Region.stop (R : Region) : Nat := R.memory_segment_ptr + R.memory_segment_size

/-- The list of the constructor. -/
def construct (R : Region) : List Block :=
  [{ g_start := R.memory_segment_ptr, size := R.memory_segment_size, free := true }]

def allocate (size : Nat) (bs : List Block) : Except Error Nat × List Block :=
  if size = 0 then (.ok 0, bs) else Blocks.allocate .bad_alloc size bs

def canAllocate (size_requested : Nat) (bs : List Block) : Bool :=
  if size_requested = 0 then true else Blocks.canAllocate size_requested bs

/-- `deallocate` asks for the size that was allocated. -/
def checkSize (g_size : Nat) (it : Block) : Except Error Unit :=
  if it.size ≠ g_size then .error (.runtime_error "Not released") else .ok ()

def deallocate (g_ptr g_size : Nat) (bs : List Block) : Except Error Unit × List Block :=
  if g_ptr = 0 then (.ok (), bs) else Blocks.deallocate (checkSize g_size) .bad_alloc g_ptr [] bs

inductive Op where
  | allocate (size : Nat)
  | canAllocate (size_requested : Nat)
  | deallocate (g_ptr g_size : Nat)
  deriving DecidableEq, Repr

/-- A call: whether it throws, and the list it leaves. -/
def call (bs : List Block) : Op → Except Error Unit × List Block
  | .allocate size => let (result, bs) := allocate size bs; (result.map fun _ => (), bs)
  | .canAllocate _ => (.ok (), bs)
  | .deallocate g_ptr g_size => deallocate g_ptr g_size bs

/-- The list after a sequence of calls; a call that throws does not end it. -/
def run (R : Region) (ops : List Op) : List Block := ops.foldl (fun bs op => (call bs op).2) (construct R)

/-- The calls release `blocks` one after the other; none of them throws. -/
def releaseAll : List (Nat × Nat) → List Block → Except Error Unit × List Block
  | [], bs => (.ok (), bs)
  | (g_ptr, g_size) :: blocks, bs =>
    match deallocate g_ptr g_size bs with
    | (.ok (), bs) => releaseAll blocks bs
    | (.error e, bs) => (.error e, bs)

open Blocks

/-- A successful `allocate` of `size` bytes at `p` took the lowest free block that fits. -/
structure Allocated (R : Region) (bs : List Block) (size p : Nat) (bs' : List Block) : Prop where
  inside : R.memory_segment_ptr ≤ p ∧ p + size ≤ R.stop
  disjoint : ∀ b ∈ bs, b.free = false → p + size ≤ b.g_start ∨ b.g_start + b.size ≤ p
  first : ∃ b ∈ bs, b.g_start = p ∧ Fits size b ∧ ∀ c ∈ bs, Fits size c → p ≤ c.g_start
  live : (Blocks.live bs').Perm ((p, size) :: Blocks.live bs)

/-- What holds of the list at any time. -/
structure Correct (R : Region) (bs : List Block) : Prop where
  partition : Partition R.memory_segment_ptr R.stop bs
  allocate : ∀ size p bs', 0 < size → allocate size bs = (.ok p, bs') → Allocated R bs size p bs'
  canAllocate : ∀ size, canAllocate size bs = true ↔ ∃ p bs', MemoryManager.allocate size bs = (.ok p, bs')
  release : ∀ blocks, blocks.Perm (live bs) → releaseAll blocks bs = (.ok (), construct R)
  throws : ∀ op e bs', call bs op = (.error e, bs') → bs' = bs

variable {R : Region} {bs bs' : List Block} {size p g_size : Nat}

/-! ## What a call does -/

theorem allocate_cases (hs : 0 < size) (bs : List Block) :
    (∃ pre it post, bs = pre ++ it :: post ∧ Fits size it ∧ (∀ b ∈ pre, ¬ Fits size b) ∧
      allocate size bs = (.ok it.g_start, pre ++ (split size it ++ post))) ∨
    ((∀ b ∈ bs, ¬ Fits size b) ∧ allocate size bs = (.error .bad_alloc, bs)) := by
  rw [allocate, if_neg (Nat.ne_of_gt hs)]
  exact Blocks.allocate_cases Error.bad_alloc size bs

theorem deallocate_cases (hp : p ≠ 0) (g_size : Nat) (bs : List Block) :
    (∃ pre it post, bs = pre ++ it :: post ∧ it.g_start = p ∧ it.size = g_size ∧
      deallocate p g_size bs = (.ok (), Blocks.release pre.reverse it post)) ∨
    ((p, g_size) ∉ live bs ∨ ∃ b ∈ bs, ∃ c ∈ bs, b ≠ c ∧ b.g_start = c.g_start) ∧
      ∃ e, deallocate p g_size bs = (.error e, bs) := by
  rw [deallocate, if_neg hp]
  rcases Blocks.deallocate_cases (checkSize g_size) Error.bad_alloc p [] bs with
    ⟨pre, it, post, rfl, hit, ⟨e, he, h⟩ | ⟨hok, h⟩⟩ | ⟨hno, h⟩
  · have hne : it.size ≠ g_size := fun heq => by simp [checkSize, heq] at he
    refine .inr ⟨?_, e, h⟩
    by_cases hl : (p, g_size) ∈ live (pre ++ it :: post)
    · obtain ⟨b, hb, -, hbp, hbs⟩ := mem_live.mp hl
      exact .inr ⟨b, hb, it, by simp, fun he => hne (he ▸ hbs), hbp.trans hit.symm⟩
    · exact .inl hl
  · have heq : it.size = g_size := by
      by_contra hne
      simp [checkSize, hne] at hok
    exact .inl ⟨pre, it, post, rfl, hit, heq, by simpa using h⟩
  · refine .inr ⟨.inl fun hl => ?_, _, h⟩
    obtain ⟨b, hb, -, hbp, -⟩ := mem_live.mp hl
    exact hno b hb hbp

theorem call_throws {op : Op} {e : Error} (h : call bs op = (.error e, bs')) : bs' = bs := by
  cases op with
  | allocate size =>
    simp only [call] at h
    rcases Nat.eq_zero_or_pos size with rfl | hs
    · simp [allocate, Except.map] at h
    · rcases allocate_cases hs bs with ⟨pre, it, post, -, -, -, ha⟩ | ⟨-, ha⟩
      · simp [ha, Except.map] at h
      · rw [ha] at h
        exact (congrArg Prod.snd h).symm
  | canAllocate => simp [call] at h
  | deallocate p g_size =>
    simp only [call] at h
    by_cases hp : p = 0
    · simp [deallocate, hp] at h
    · rcases deallocate_cases hp g_size bs with ⟨pre, it, post, -, -, -, hd⟩ | ⟨-, e', hd⟩
      · simp [hd] at h
      · rw [hd] at h
        exact (congrArg Prod.snd h).symm

/-! ## The partition and what follows from it -/

theorem partition_construct (R : Region) : Partition R.memory_segment_ptr R.stop (construct R) where
  tiles := ⟨rfl, R.size_pos, rfl⟩
  coalesced := .singleton _

theorem partition_call {lo hi : Nat} (h : Partition lo hi bs) (op : Op) : Partition lo hi (call bs op).2 := by
  cases op with
  | allocate size =>
    simp only [call]
    rcases Nat.eq_zero_or_pos size with rfl | hs
    · exact h
    · rcases allocate_cases hs bs with ⟨pre, it, post, rfl, hit, -, ha⟩ | ⟨-, ha⟩ <;> rw [ha]
      · exact h.split hit hs
      · exact h
  | canAllocate => exact h
  | deallocate p g_size =>
    simp only [call]
    by_cases hp : p = 0
    · rw [deallocate, if_pos hp]
      exact h
    · rcases deallocate_cases hp g_size bs with ⟨pre, it, post, rfl, -, -, hd⟩ | ⟨-, e, hd⟩ <;> rw [hd]
      · exact Partition.release (by rwa [List.reverse_reverse])
      · exact h

theorem partition_run (R : Region) (ops : List Op) : Partition R.memory_segment_ptr R.stop (run R ops) := by
  unfold run
  induction ops using List.reverseRecOn with
  | nil => exact partition_construct R
  | append_singleton ops op ih =>
    rw [List.foldl_append]
    exact partition_call ih op

theorem allocated_of_partition (h : Partition R.memory_segment_ptr R.stop bs) (hs : 0 < size)
    (ha : allocate size bs = (.ok p, bs')) : Allocated R bs size p bs' := by
  rcases allocate_cases hs bs with ⟨pre, it, post, rfl, hit, hpre, he⟩ | ⟨-, he⟩ <;> rw [he] at ha
  · obtain ⟨rfl, rfl⟩ : it.g_start = p ∧ pre ++ (split size it ++ post) = bs' := by simpa using ha
    have hmem : it ∈ pre ++ it :: post := by simp
    have hb := h.tiles.bounds hmem
    have hside := h.tiles.sides
    have hle := hit.2
    refine ⟨⟨hb.1, by omega⟩, fun b hbm hf => ?_, ⟨it, hmem, rfl, hit, fun c hc hfit => ?_⟩, ?_⟩
    · rcases List.mem_append.mp hbm with hb' | hb'
      · exact .inr (hside.1 b hb')
      · rcases List.mem_cons.mp hb' with rfl | hb'
        · rw [hit.1] at hf; cases hf
        · exact .inl (Nat.le_trans (Nat.add_le_add_left hle _) (hside.2 b hb'))
    · rcases List.mem_append.mp hc with hc' | hc'
      · exact absurd hfit (hpre c hc')
      · rcases List.mem_cons.mp hc' with rfl | hc'
        · exact Nat.le_refl _
        · exact Nat.le_trans (Nat.le_add_right ..) (hside.2 c hc')
    · rw [live_split hit, live_append, live_cons_free hit.1]
      exact List.perm_middle
  · simp at ha

theorem canAllocate_iff_allocate :
    canAllocate size bs = true ↔ ∃ p bs', allocate size bs = (.ok p, bs') := by
  rcases Nat.eq_zero_or_pos size with rfl | hs
  · exact ⟨fun _ => ⟨0, bs, rfl⟩, fun _ => rfl⟩
  · rw [canAllocate, if_neg (Nat.ne_of_gt hs), canAllocate_iff]
    rcases allocate_cases hs bs with ⟨pre, it, post, rfl, hit, -, he⟩ | ⟨hno, he⟩ <;> rw [he]
    · exact ⟨fun _ => ⟨_, _, rfl⟩, fun _ => ⟨it, by simp, hit⟩⟩
    · exact ⟨fun ⟨b, hb, hfit⟩ => absurd hfit (hno b hb), fun ⟨p, bs', h⟩ => by simp at h⟩

/-- Releasing an allocated block takes it, and nothing else, off the allocated ones. -/
theorem deallocate_live {lo hi : Nat} (h : Partition lo hi bs) (hlo : lo ≠ 0) (hl : (p, size) ∈ live bs) :
    ∃ bs', deallocate p size bs = (.ok (), bs') ∧ Partition lo hi bs' ∧
      ((p, size) :: live bs').Perm (live bs) := by
  obtain ⟨b, hb, hfree, rfl, rfl⟩ := mem_live.mp hl
  have hp : b.g_start ≠ 0 := by have := (h.tiles.bounds hb).1; omega
  rcases deallocate_cases hp b.size bs with ⟨pre, it, post, rfl, hit, -, hd⟩ | ⟨hno, -⟩
  · obtain rfl : it = b := h.tiles.eq_of_start (by simp) hb hit
    refine ⟨_, hd, Partition.release (by rwa [List.reverse_reverse]), ?_⟩
    rw [live_release, List.reverse_reverse, live_append, live_cons_allocated hfree]
    exact List.perm_middle.symm
  · rcases hno with hno | ⟨c, hc, d, hd, hne, he⟩
    · exact absurd hl hno
    · exact absurd (h.tiles.eq_of_start hc hd he) hne

/-- Releasing everything, in any order, leaves one free block. -/
theorem releaseAll_live (h : Partition R.memory_segment_ptr R.stop bs) {blocks : List (Nat × Nat)}
    (hperm : blocks.Perm (live bs)) : releaseAll blocks bs = (.ok (), construct R) := by
  induction blocks generalizing bs with
  | nil =>
    have hpos := R.size_pos
    rw [releaseAll, h.eq_singleton (by simp only [Region.stop]; omega) hperm.nil_eq.symm]
    simp [construct, Region.stop]
  | cons block blocks ih =>
    obtain ⟨bs', hd, h', hl⟩ := deallocate_live h R.not_null (hperm.subset List.mem_cons_self)
    rw [releaseAll, hd]
    exact ih h' ((List.perm_cons _).mp (hperm.trans hl.symm))

/-- **The manager is correct after every sequence of calls.** -/
theorem memory_manager_correct (R : Region) (ops : List Op) : Correct R (run R ops) where
  partition := partition_run R ops
  allocate _ _ _ hs ha := allocated_of_partition (partition_run R ops) hs ha
  canAllocate _ := canAllocate_iff_allocate
  release _ hperm := releaseAll_live (partition_run R ops) hperm
  throws _ _ _ h := call_throws h

end GaspiCxx.Segment.MemoryManager
