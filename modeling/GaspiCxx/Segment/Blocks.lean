import Mathlib

/-!
# Lists of blocks

`MemoryManager` and `NotificationManager` keep the same list of blocks in
address order and run the same two loops over it: `allocate` takes the first
free block that fits and splits it, `deallocate` merges a block with its free
neighbours and marks it free. The loops are written once, with what they
throw and the check `deallocate` makes as parameters.

`Partition lo hi bs` is what the loops keep: the blocks tile `[lo, hi)` and no
two neighbours are free.
-/

namespace GaspiCxx.Segment

structure Block where
  g_start : Nat
  size : Nat
  free : Bool
  deriving DecidableEq, Repr

namespace Blocks

variable {ε : Type}

/-- A free block that is large enough. -/
abbrev Fits (size : Nat) (it : Block) : Prop := it.free = true ∧ size ≤ it.size

/-- What a free block `it` is replaced by when `size` is taken from it. -/
def split (size : Nat) (it : Block) : List Block :=
  if size < it.size then
    [{ g_start := it.g_start, size := size, free := false },
      { it with g_start := it.g_start + size, size := it.size - size }]
  else [{ it with free := false }]

def allocate (bad_alloc : ε) (size : Nat) : List Block → Except ε Nat × List Block
  | [] => (.error bad_alloc, [])
  | it :: rest =>
    if Fits size it then (.ok it.g_start, split size it ++ rest)
    else
      let (result, rest) := allocate bad_alloc size rest
      (result, it :: rest)

def canAllocate (size_requested : Nat) : List Block → Bool
  | [] => false
  | block :: rest =>
    if Fits size_requested block then true else canAllocate size_requested rest

/-- Merge `it` with the next block if that is free. -/
def mergeNext (it : Block) : List Block → Block × List Block
  | next :: rest => if next.free then ({ it with size := it.size + next.size }, rest) else (it, next :: rest)
  | [] => (it, [])

/-- Merge `it` with the previous block, the first of `before`, if that is free. -/
def mergePrev (it : Block) : List Block → Block × List Block
  | prev :: before =>
    if prev.free then ({ it with g_start := prev.g_start, size := it.size + prev.size }, before)
    else (it, prev :: before)
  | [] => (it, [])

/-- The list after `it` has been released between `before`, nearest first, and `rest`. -/
def release (before : List Block) (it : Block) (rest : List Block) : List Block :=
  let (it, rest) := mergeNext it rest
  let (it, before) := mergePrev it before
  before.reverse ++ { it with free := true } :: rest

def deallocate (check : Block → Except ε Unit) (bad_alloc : ε) (g_ptr : Nat) (before : List Block) :
    List Block → Except ε Unit × List Block
  | [] => (.error bad_alloc, before.reverse)
  | it :: rest =>
    if it.g_start = g_ptr then
      match check it with
      | .error e => (.error e, before.reverse ++ it :: rest)
      | .ok () => (.ok (), release before it rest)
    else deallocate check bad_alloc g_ptr (it :: before) rest

/-! ## What the loops do -/

section

variable {bad_alloc : ε} {size p : Nat} {bs : List Block} {check : Block → Except ε Unit}

theorem allocate_cases (bad_alloc : ε) (size : Nat) (bs : List Block) :
    (∃ pre it post, bs = pre ++ it :: post ∧ Fits size it ∧ (∀ b ∈ pre, ¬ Fits size b) ∧
      allocate bad_alloc size bs = (.ok it.g_start, pre ++ (split size it ++ post))) ∨
    ((∀ b ∈ bs, ¬ Fits size b) ∧ allocate bad_alloc size bs = (.error bad_alloc, bs)) := by
  induction bs with
  | nil => exact .inr ⟨fun _ hb => absurd hb List.not_mem_nil, rfl⟩
  | cons b bs ih =>
    by_cases hb : Fits size b
    · exact .inl ⟨[], b, bs, rfl, hb, fun _ hc => absurd hc List.not_mem_nil, by
        rw [allocate, if_pos hb]; rfl⟩
    · rcases ih with ⟨pre, it, post, rfl, hit, hpre, ha⟩ | ⟨hno, ha⟩
      · refine .inl ⟨b :: pre, it, post, rfl, hit, ?_, by rw [allocate, if_neg hb, ha]; rfl⟩
        exact List.forall_mem_cons.mpr ⟨hb, hpre⟩
      · exact .inr ⟨List.forall_mem_cons.mpr ⟨hb, hno⟩, by rw [allocate, if_neg hb, ha]⟩

theorem canAllocate_iff : canAllocate size bs = true ↔ ∃ b ∈ bs, Fits size b := by
  induction bs with
  | nil => simp [canAllocate]
  | cons b bs ih =>
    rw [canAllocate, List.exists_mem_cons_iff, ← ih]
    by_cases hb : Fits size b
    · rw [if_pos hb]
      exact ⟨fun _ => .inl hb, fun _ => rfl⟩
    · rw [if_neg hb, or_iff_right hb]

theorem deallocate_cases (check : Block → Except ε Unit) (bad_alloc : ε) (p : Nat) (before bs : List Block) :
    (∃ pre it post, bs = pre ++ it :: post ∧ it.g_start = p ∧
      ((∃ e, check it = .error e ∧
        deallocate check bad_alloc p before bs = (.error e, before.reverse ++ bs)) ∨
      (check it = .ok () ∧
        deallocate check bad_alloc p before bs = (.ok (), release (pre.reverse ++ before) it post)))) ∨
    ((∀ b ∈ bs, b.g_start ≠ p) ∧
      deallocate check bad_alloc p before bs = (.error bad_alloc, before.reverse ++ bs)) := by
  induction bs generalizing before with
  | nil => exact .inr ⟨fun _ hb => absurd hb List.not_mem_nil, by simp [deallocate]⟩
  | cons b bs ih =>
    by_cases hb : b.g_start = p
    · refine .inl ⟨[], b, bs, rfl, hb, ?_⟩
      rw [deallocate, if_pos hb]
      cases hc : check b with
      | error e => exact .inl ⟨e, rfl, rfl⟩
      | ok => exact .inr ⟨rfl, rfl⟩
    · rw [deallocate, if_neg hb]
      rcases ih (b :: before) with ⟨pre, it, post, rfl, hit, h⟩ | ⟨hno, h⟩
      · refine .inl ⟨b :: pre, it, post, rfl, hit, ?_⟩
        rcases h with ⟨e, he, h⟩ | ⟨hok, h⟩
        · exact .inl ⟨e, he, by rw [h]; simp⟩
        · exact .inr ⟨hok, by rw [h]; simp⟩
      · exact .inr ⟨List.forall_mem_cons.mpr ⟨hb, hno⟩, by rw [h]; simp⟩

end

/-! ## The invariant -/

/-- The blocks tile `[lo, hi)`: contiguous, in address order, of positive size. -/
def Tiles : Nat → List Block → Nat → Prop
  | lo, [], hi => lo = hi
  | lo, b :: bs, hi => b.g_start = lo ∧ 0 < b.size ∧ Tiles (lo + b.size) bs hi

/-- No two neighbours are free. -/
def Coalesced (bs : List Block) : Prop := bs.IsChain fun b c => ¬ (b.free = true ∧ c.free = true)

structure Partition (lo hi : Nat) (bs : List Block) : Prop where
  tiles : Tiles lo bs hi
  coalesced : Coalesced bs

/-- The allocated blocks. -/
def live (bs : List Block) : List (Nat × Nat) :=
  (bs.filter fun b => !b.free).map fun b => (b.g_start, b.size)

section

variable {lo hi size p : Nat} {bs as pre post : List Block} {b it : Block}

theorem tiles_append : Tiles lo (as ++ bs) hi ↔ ∃ mid, Tiles lo as mid ∧ Tiles mid bs hi := by
  induction as generalizing lo with
  | nil => simp [Tiles]
  | cons a as ih =>
    simp only [List.cons_append, Tiles, ih]
    constructor
    · rintro ⟨h1, h2, mid, h3, h4⟩; exact ⟨mid, ⟨h1, h2, h3⟩, h4⟩
    · rintro ⟨mid, ⟨h1, h2, h3⟩, h4⟩; exact ⟨h1, h2, mid, h3, h4⟩

theorem Tiles.le (h : Tiles lo bs hi) : lo ≤ hi := by
  induction bs generalizing lo with
  | nil => exact Nat.le_of_eq h
  | cons b bs ih => exact Nat.le_trans (Nat.le_add_right ..) (ih h.2.2)

theorem Tiles.bounds (h : Tiles lo bs hi) (hb : b ∈ bs) : lo ≤ b.g_start ∧ b.g_start + b.size ≤ hi := by
  obtain ⟨pre, post, rfl⟩ := List.append_of_mem hb
  obtain ⟨mid, h1, rfl, -, h2⟩ := tiles_append.mp h
  exact ⟨h1.le, h2.le⟩

theorem Tiles.pos (h : Tiles lo bs hi) (hb : b ∈ bs) : 0 < b.size := by
  obtain ⟨pre, post, rfl⟩ := List.append_of_mem hb
  obtain ⟨mid, -, -, h2, -⟩ := tiles_append.mp h
  exact h2

/-- Blocks before `it` end where it starts or earlier, blocks behind it start where it ends or later. -/
theorem Tiles.sides (h : Tiles lo (pre ++ it :: post) hi) :
    (∀ b ∈ pre, b.g_start + b.size ≤ it.g_start) ∧ ∀ b ∈ post, it.g_start + it.size ≤ b.g_start := by
  obtain ⟨mid, h1, rfl, -, h2⟩ := tiles_append.mp h
  exact ⟨fun b hb => (h1.bounds hb).2, fun b hb => (h2.bounds hb).1⟩

/-- A block is known by its address. -/
theorem Tiles.eq_of_start {c : Block} (h : Tiles lo bs hi) (hb : b ∈ bs) (hc : c ∈ bs)
    (he : b.g_start = c.g_start) : b = c := by
  obtain ⟨pre, post, rfl⟩ := List.append_of_mem hb
  have hside := h.sides
  have hpos := h.pos hb
  rcases List.mem_append.mp hc with hc' | hc'
  · have := hside.1 c hc'; have := h.pos hc; omega
  · rcases List.mem_cons.mp hc' with rfl | hc'
    · rfl
    · have := hside.2 c hc'; omega

theorem coalesced_middle : Coalesced (pre ++ it :: post) ↔ Coalesced pre ∧ Coalesced post ∧
    (∀ b ∈ pre.getLast?, ¬ (b.free = true ∧ it.free = true)) ∧
      ∀ c ∈ post.head?, ¬ (it.free = true ∧ c.free = true) := by
  simp only [Coalesced, List.isChain_append, List.isChain_cons, List.head?_cons, Option.mem_some_iff]
  constructor
  · rintro ⟨h1, ⟨h2, h3⟩, h4⟩; exact ⟨h1, h3, fun b hb => h4 b hb it rfl, h2⟩
  · rintro ⟨h1, h3, h4, h2⟩; exact ⟨h1, ⟨h2, h3⟩, fun b hb c hc => hc ▸ h4 b hb⟩

theorem live_append : live (as ++ bs) = live as ++ live bs := by simp [live]

theorem live_cons_free (h : b.free = true) : live (b :: bs) = live bs := by simp [live, h]

theorem live_cons_allocated (h : b.free = false) : live (b :: bs) = (b.g_start, b.size) :: live bs := by
  simp [live, h]

theorem mem_live : (p, size) ∈ live bs ↔ ∃ b ∈ bs, b.free = false ∧ b.g_start = p ∧ b.size = size := by
  simp [live, and_assoc]

/-- With blocks of one unit allocated, the region is used up exactly when no block is free. -/
theorem Tiles.length_live (h : Tiles lo bs hi) (hone : ∀ b ∈ bs, b.free = false → b.size = 1) :
    lo + (live bs).length ≤ hi ∧ (lo + (live bs).length = hi ↔ ∀ b ∈ bs, b.free = false) := by
  induction bs generalizing lo with
  | nil => exact ⟨Nat.le_of_eq h, fun _ _ hb => absurd hb List.not_mem_nil, fun _ => h⟩
  | cons b bs ih =>
    obtain ⟨-, hpos, hrest⟩ := h
    obtain ⟨hle, hiff⟩ := ih hrest fun c hc => hone c (List.mem_cons_of_mem _ hc)
    rw [List.forall_mem_cons]
    cases hb : b.free with
    | true =>
      rw [live_cons_free hb]
      exact ⟨by omega, fun _ => by omega, fun h => absurd h.1 (by decide)⟩
    | false =>
      have hsize := hone b List.mem_cons_self hb
      rw [live_cons_allocated hb, List.length_cons]
      rw [hsize] at hle hiff
      refine ⟨by omega, fun _ => ⟨rfl, hiff.mp (by omega)⟩, fun h => ?_⟩
      have := hiff.mpr h.2
      omega

/-! ## Taking a block -/

theorem Partition.split (h : Partition lo hi (pre ++ it :: post)) (hit : Fits size it) (hs : 0 < size) :
    Partition lo hi (pre ++ (split size it ++ post)) := by
  obtain ⟨mid, h1, rfl, h2, h3⟩ := tiles_append.mp h.tiles
  obtain ⟨c1, c2, c3, c4⟩ := coalesced_middle.mp h.coalesced
  have hfree := hit.1
  have hle := hit.2
  unfold Blocks.split
  split
  · next hlt =>
    refine ⟨tiles_append.mpr ⟨_, h1, rfl, hs, rfl, by simp only; omega, ?_⟩, ?_⟩
    · simp only
      rwa [show it.g_start + size + (it.size - size) = it.g_start + it.size by omega]
    · refine coalesced_middle.mpr ⟨c1, ?_, by simp, by simp⟩
      have hrest : Coalesced ([] ++ { it with g_start := it.g_start + size, size := it.size - size } :: post) :=
        coalesced_middle.mpr ⟨.nil, c2, by simp, c4⟩
      exact hrest
  · refine ⟨tiles_append.mpr ⟨_, h1, rfl, h2, h3⟩, coalesced_middle.mpr ⟨c1, c2, by simp, by simp⟩⟩

theorem live_split (hit : Fits size it) :
    live (pre ++ (split size it ++ post)) = live pre ++ (it.g_start, size) :: live post := by
  have hfree := hit.1
  have hle := hit.2
  unfold split
  split
  · simp [live, hfree]
  · obtain rfl : size = it.size := by omega
    simp [live]

/-! ## Releasing a block -/

theorem mergeNext_tiles (h : Tiles lo (it :: post) hi) :
    Tiles lo ((mergeNext it post).1 :: (mergeNext it post).2) hi := by
  unfold mergeNext
  split
  · split
    · obtain ⟨rfl, h1, -, h2, h3⟩ := h
      exact ⟨rfl, by simp only; omega, by rwa [Nat.add_assoc] at h3⟩
    · exact h
  · exact h

variable (it) in
theorem mergeNext_coalesced (h : Coalesced post) :
    Coalesced (mergeNext it post).2 ∧ ∀ c ∈ (mergeNext it post).2.head?, c.free = false := by
  unfold mergeNext
  split
  · next next rest =>
    obtain ⟨h1, h2⟩ := List.isChain_cons.mp h
    split
    · next hfree => exact ⟨h2, fun c hc => by simpa [hfree] using h1 c hc⟩
    · next hfree =>
      refine ⟨h, fun c hc => ?_⟩
      obtain rfl : next = c := by simpa using hc
      simpa using hfree
  · exact ⟨h, by simp⟩

theorem mergeNext_live : live (mergeNext it post).2 = live post := by
  unfold mergeNext
  split
  · split
    · next hfree => rw [live_cons_free hfree]
    · rfl
  · rfl

/-- What `mergePrev` keeps, of the blocks before `it` in address order. -/
theorem mergePrev_tiles (h : Tiles lo (pre.reverse ++ it :: post) hi) :
    Tiles lo ((mergePrev it pre).2.reverse ++ (mergePrev it pre).1 :: post) hi := by
  unfold mergePrev
  split
  · next prev before =>
    split
    · rw [List.reverse_cons, List.append_assoc] at h
      obtain ⟨mid, h1, rfl, h2, h3, h4, h5⟩ := tiles_append.mp h
      refine tiles_append.mpr ⟨_, h1, rfl, by simp only; omega, ?_⟩
      simp only
      rwa [show prev.g_start + (it.size + prev.size) = prev.g_start + prev.size + it.size by omega]
    · exact h
  · exact h

variable (it) in
theorem mergePrev_coalesced (h : Coalesced pre.reverse) :
    Coalesced (mergePrev it pre).2.reverse ∧ ∀ b ∈ (mergePrev it pre).2.head?, b.free = false := by
  unfold mergePrev
  split
  · next prev before =>
    rw [List.reverse_cons] at h
    obtain ⟨h1, -, h2, -⟩ := coalesced_middle.mp h
    split
    · next hfree =>
      exact ⟨h1, fun b hb => by simpa [hfree] using h2 b (by rwa [List.getLast?_reverse])⟩
    · next hfree =>
      refine ⟨by rwa [List.reverse_cons], fun b hb => ?_⟩
      obtain rfl : prev = b := by simpa using hb
      simpa using hfree
  · exact ⟨h, by simp⟩

theorem mergePrev_live : live (mergePrev it pre).2.reverse = live pre.reverse := by
  unfold mergePrev
  split
  · split
    · next hfree => rw [List.reverse_cons, live_append, live_cons_free hfree]; simp [live]
    · rfl
  · rfl

theorem Partition.release (h : Partition lo hi (pre.reverse ++ it :: post)) :
    Partition lo hi (release pre it post) := by
  obtain ⟨c1, c2, -, -⟩ := coalesced_middle.mp h.coalesced
  obtain ⟨mid, h1, h2⟩ := tiles_append.mp h.tiles
  have ht := mergePrev_tiles (tiles_append.mpr ⟨mid, h1, mergeNext_tiles h2⟩)
  obtain ⟨n1, n2⟩ := mergeNext_coalesced it c2
  obtain ⟨p1, p2⟩ := mergePrev_coalesced (mergeNext it post).1 c1
  refine ⟨?_, coalesced_middle.mpr ⟨p1, n1, fun b hb => ?_, fun c hc => ?_⟩⟩
  · obtain ⟨mid, h1, h2, h3, h4⟩ := tiles_append.mp ht
    exact tiles_append.mpr ⟨mid, h1, h2, h3, h4⟩
  · rw [List.getLast?_reverse] at hb
    simp [p2 b hb]
  · simp [n2 c hc]

theorem live_release : live (release pre it post) = live pre.reverse ++ live post := by
  rw [release, live_append, live_cons_free rfl, mergePrev_live, mergeNext_live]

/-- With nothing allocated the list is one free block. -/
theorem Partition.eq_singleton (h : Partition lo hi bs) (hlt : lo < hi) (hlive : live bs = []) :
    bs = [{ g_start := lo, size := hi - lo, free := true }] := by
  have hfree : ∀ b ∈ bs, b.free = true := by
    intro b hb
    by_contra hf
    have : (b.g_start, b.size) ∈ live bs := mem_live.mpr ⟨b, hb, by simpa using hf, rfl, rfl⟩
    rw [hlive] at this
    exact List.not_mem_nil this
  match bs, h, hfree with
  | [], h, _ => exact absurd h.tiles (Nat.ne_of_lt hlt)
  | [b], h, hfree =>
    obtain ⟨rfl, -, h2⟩ := h.tiles
    have hb := hfree b List.mem_cons_self
    have h2 : b.g_start + b.size = hi := h2
    rw [← h2, Nat.add_sub_cancel_left, ← hb]
  | b :: c :: rest, h, hfree =>
    have hbc := (List.isChain_cons_cons.mp h.coalesced).1
    exact absurd ⟨hfree b (by simp), hfree c (by simp)⟩ hbc

end

end Blocks

end GaspiCxx.Segment
