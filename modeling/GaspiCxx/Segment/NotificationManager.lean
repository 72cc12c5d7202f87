import GaspiCxx.Segment.MemoryManager

/-!
# The notification ids of a segment (`NotificationManager`)

The ids below the capacity `N` are managed as blocks of one id each, by the
two loops of `MemoryManager` and without its check of the size. A
`SegmentManager` passes the ids on as `int`s.
-/

namespace GaspiCxx.Segment.NotificationManager

open Blocks

abbrev Error := MemoryManager.Error

/-- The list of the constructor. -/
def construct (N : Nat) : List Block := [{ g_start := 0, size := N, free := true }]

def allocate (size : Nat) (bs : List Block) : Except Error Nat × List Block :=
  if size = 0 then (.error (.runtime_error "Requested 0 notifications"), bs)
  else Blocks.allocate .bad_alloc size bs

def deallocate (g_ptr : Nat) (bs : List Block) : Except Error Unit × List Block :=
  Blocks.deallocate (fun _ => .ok ()) .bad_alloc g_ptr [] bs

/-- A call of the manager as `SegmentManager` makes them: one id at a time. -/
inductive Op where
  | allocate
  | deallocate (g_ptr : Nat)
  deriving DecidableEq, Repr

def call (bs : List Block) : Op → List Block
  | .allocate => (allocate 1 bs).2
  | .deallocate g_ptr => (deallocate g_ptr bs).2

/-- The list after a sequence of calls; a call that throws does not end it. -/
def run (N : Nat) (ops : List Op) : List Block := ops.foldl call (construct N)

/-- The ids that have been handed out. -/
def ids (bs : List Block) : List Nat := (live bs).map Prod.fst

/-- The calls release `ps` one after the other; none of them throws. -/
def releaseAll : List Nat → List Block → Except Error Unit × List Block
  | [], bs => (.ok (), bs)
  | p :: ps, bs =>
    match deallocate p bs with
    | (.ok (), bs) => releaseAll ps bs
    | (.error e, bs) => (.error e, bs)

/-! ## `SegmentManager`: ids are `int`s -/

/-- `segment::Notification`, an `int`. -/
abbrev Notification := Int

/-- A `size_t` as an `int`. -/
def toNotification (p : Nat) : Notification := Int.bmod p (2 ^ 32)

/-- An `int` as a `size_t`. -/
def toSize (notification : Notification) : Nat := (notification % 2 ^ 64).toNat

def acquire_notification (bs : List Block) : Except Error Notification × List Block :=
  let (result, bs) := allocate 1 bs
  (result.map toNotification, bs)

def release_notification (notification : Notification) (bs : List Block) : Except Error Unit × List Block :=
  deallocate (toSize notification) bs

theorem toNotification_eq {p : Nat} (hp : p < 2 ^ 31) : toNotification p = p := by
  unfold toNotification
  exact Int.bmod_eq_of_le (by omega) (by omega)

theorem toSize_toNotification {p : Nat} (hp : p < 2 ^ 31) : toSize (toNotification p) = p := by
  rw [toNotification_eq hp, toSize]
  omega

theorem toNotification_cases {p : Nat} (hp : p < 2 ^ 32) {x : Int} (hx : toNotification p = x) :
    (p < 2 ^ 31 ∧ x = p) ∨ (2 ^ 31 ≤ p ∧ x = (p : Int) - 2 ^ 32) := by
  subst hx
  show _ ∧ Int.bmod p (2 ^ 32) = p ∨ _ ∧ Int.bmod p (2 ^ 32) = (p : Int) - 2 ^ 32
  rw [Int.bmod_def]
  split <;> omega

theorem toNotification_inj {p q : Nat} (hp : p < 2 ^ 32) (hq : q < 2 ^ 32)
    (h : toNotification p = toNotification q) : p = q := by
  rcases toNotification_cases hp h with ⟨_, h₁⟩ | ⟨_, h₁⟩ <;> rcases toNotification_cases hq rfl with ⟨_, h₂⟩ | ⟨_, h₂⟩ <;>
    omega

/-- An `int` that came from an id goes back to that id or to none. -/
theorem eq_of_toSize {p q : Nat} (hp : p < 2 ^ 32) (hq : q < 2 ^ 32) (h : toSize (toNotification p) = q) : p = q := by
  unfold toSize at h
  rcases toNotification_cases hp rfl with ⟨_, h₁⟩ | ⟨_, h₁⟩ <;> rw [h₁] at h <;> omega

/-! ## What holds at any time -/

/-- A successful `allocate` handed out the id `p`. -/
structure Allocated (N : Nat) (bs : List Block) (p : Nat) (bs' : List Block) : Prop where
  below : p < N
  fresh : p ∉ ids bs
  live : (ids bs').Perm (p :: ids bs)

structure Correct (N : Nat) (bs : List Block) : Prop where
  partition : Partition 0 N bs
  allocate : ∀ p bs', allocate 1 bs = (.ok p, bs') → Allocated N bs p bs'
  full : (∃ e bs', NotificationManager.allocate 1 bs = (.error e, bs')) ↔ (ids bs).length = N
  release : ∀ p ∈ ids bs, ∃ bs', deallocate p bs = (.ok (), bs') ∧ (p :: ids bs').Perm (ids bs)
  releaseAll : ∀ ps, ps.Perm (ids bs) → releaseAll ps bs = (.ok (), construct N)
  unknown : ∀ p, (∀ b ∈ bs, b.g_start ≠ p) → ∃ e, deallocate p bs = (.error e, bs)
  exact : N ≤ 2 ^ 31 → ∀ p < N, toNotification p = p ∧
    release_notification (toNotification p) bs = deallocate p bs

/-- The blocks, and that every id is a block of its own. -/
structure Holds (N : Nat) (bs : List Block) : Prop where
  partition : Partition 0 N bs
  single : ∀ b ∈ bs, b.free = false → b.size = 1

variable {N p : Nat} {bs bs' pre post : List Block} {it : Block}

theorem mem_ids : p ∈ ids bs ↔ ∃ b ∈ bs, b.free = false ∧ b.g_start = p := by
  unfold ids
  constructor
  · intro h
    obtain ⟨⟨q, size⟩, hq, rfl⟩ := List.mem_map.mp h
    obtain ⟨b, hb, hf, hp, -⟩ := mem_live.mp hq
    exact ⟨b, hb, hf, hp⟩
  · rintro ⟨b, hb, hf, rfl⟩
    exact List.mem_map.mpr ⟨_, mem_live.mpr ⟨b, hb, hf, rfl, rfl⟩, rfl⟩

theorem Holds.lt_of_mem (h : Holds N bs) (hp : p ∈ ids bs) : p < N := by
  obtain ⟨b, hb, -, rfl⟩ := mem_ids.mp hp
  have hbound := (h.partition.tiles.bounds hb).2
  have hpos := h.partition.tiles.pos hb
  omega

/-! ## What a call does -/

theorem allocate_cases (bs : List Block) :
    (∃ pre it post, bs = pre ++ it :: post ∧ Fits 1 it ∧ (∀ b ∈ pre, ¬ Fits 1 b) ∧
      allocate 1 bs = (.ok it.g_start, pre ++ (split 1 it ++ post))) ∨
    ((∀ b ∈ bs, ¬ Fits 1 b) ∧ allocate 1 bs = (.error .bad_alloc, bs)) := by
  rw [allocate, if_neg (by decide)]
  exact Blocks.allocate_cases MemoryManager.Error.bad_alloc 1 bs

theorem deallocate_cases (p : Nat) (bs : List Block) :
    (∃ pre it post, bs = pre ++ it :: post ∧ it.g_start = p ∧
      deallocate p bs = (.ok (), Blocks.release pre.reverse it post)) ∨
    ((∀ b ∈ bs, b.g_start ≠ p) ∧ deallocate p bs = (.error .bad_alloc, bs)) := by
  unfold deallocate
  rcases Blocks.deallocate_cases (fun _ => .ok ()) MemoryManager.Error.bad_alloc p [] bs with
    ⟨pre, it, post, rfl, hit, ⟨e, he, -⟩ | ⟨-, h⟩⟩ | ⟨hno, h⟩
  · simp at he
  · exact .inl ⟨pre, it, post, rfl, hit, by simpa using h⟩
  · exact .inr ⟨hno, h⟩

/-! ## The invariant -/

theorem holds_construct (hN : 0 < N) : Holds N (construct N) where
  partition := ⟨⟨rfl, hN, by simp [Tiles]⟩, .singleton _⟩
  single b hb hf := by
    obtain rfl : b = { g_start := 0, size := N, free := true } := List.mem_singleton.mp hb
    cases hf

theorem Holds.allocate (h : Holds N (pre ++ it :: post)) (hit : Fits 1 it) :
    Holds N (pre ++ (split 1 it ++ post)) where
  partition := h.partition.split hit Nat.one_pos
  single b hb hf := by
    have hle := hit.2
    have hsplit : ∀ b ∈ split 1 it, b.free = false → b.size = 1 := by
      unfold split
      split
      · simp [hit.1]
      · intro b hb _
        obtain rfl := List.mem_singleton.mp hb
        simp only
        omega
    rcases List.mem_append.mp hb with hb | hb
    · exact h.single b (List.mem_append_left _ hb) hf
    · rcases List.mem_append.mp hb with hb | hb
      · exact hsplit b hb hf
      · exact h.single b (List.mem_append_right _ (List.mem_cons_of_mem _ hb)) hf

/-- Sizes of handed-out blocks are read off the ids, so a release that keeps the other ids keeps them. -/
theorem single_of_live {as : List Block} (h : ∀ b ∈ bs, b.free = false → b.size = 1)
    (hl : ∀ k ∈ live as, k ∈ live bs) : ∀ b ∈ as, b.free = false → b.size = 1 := by
  intro b hb hf
  obtain ⟨c, hc, hcf, -, hcs⟩ := mem_live.mp (hl _ (mem_live.mpr ⟨b, hb, hf, rfl, rfl⟩))
  rw [← hcs]
  exact h c hc hcf

theorem Holds.release (h : Holds N (pre ++ it :: post)) : Holds N (Blocks.release pre.reverse it post) where
  partition := Partition.release (by rw [List.reverse_reverse]; exact h.partition)
  single := by
    refine single_of_live h.single fun k hk => ?_
    rw [live_release, List.reverse_reverse, ← live_append] at hk
    obtain ⟨b, hb, hk⟩ := mem_live.mp hk
    refine mem_live.mpr ⟨b, ?_, hk⟩
    rcases List.mem_append.mp hb with hb | hb
    · exact List.mem_append_left _ hb
    · exact List.mem_append_right _ (List.mem_cons_of_mem _ hb)

theorem Holds.call (h : Holds N bs) (op : Op) : Holds N (call bs op) := by
  cases op with
  | allocate =>
    show Holds N (NotificationManager.allocate 1 bs).2
    rcases allocate_cases bs with ⟨pre, it, post, rfl, hit, -, ha⟩ | ⟨-, ha⟩ <;> rw [ha]
    · exact h.allocate hit
    · exact h
  | deallocate p =>
    show Holds N (deallocate p bs).2
    rcases deallocate_cases p bs with ⟨pre, it, post, rfl, -, hd⟩ | ⟨-, hd⟩ <;> rw [hd]
    · exact h.release
    · exact h

theorem holds_run (hN : 0 < N) (ops : List Op) : Holds N (run N ops) := by
  unfold run
  induction ops using List.reverseRecOn with
  | nil => exact holds_construct hN
  | append_singleton ops op ih =>
    rw [List.foldl_append]
    exact ih.call op

/-! ## What follows from it -/

theorem Holds.allocated (h : Holds N bs) (ha : NotificationManager.allocate 1 bs = (.ok p, bs')) :
    Allocated N bs p bs' := by
  rcases allocate_cases bs with ⟨pre, it, post, rfl, hit, -, he⟩ | ⟨-, he⟩ <;> rw [he] at ha
  · obtain ⟨rfl, rfl⟩ : it.g_start = p ∧ pre ++ (split 1 it ++ post) = bs' := by simpa using ha
    have hmem : it ∈ pre ++ it :: post := by simp
    have hb := h.partition.tiles.bounds hmem
    have hle := hit.2
    refine ⟨by omega, fun hl => ?_, ?_⟩
    · obtain ⟨b, hb, hf, hp⟩ := mem_ids.mp hl
      have hfree := hit.1
      rw [← h.partition.tiles.eq_of_start hb hmem hp, hf] at hfree
      cases hfree
    · unfold ids
      rw [live_split hit, live_append, live_cons_free hit.1, List.map_append, List.map_cons, List.map_append]
      exact List.perm_middle
  · simp at ha

/-- The pool is exhausted exactly when all `N` ids are out. -/
theorem Holds.full (h : Holds N bs) :
    (∃ e bs', NotificationManager.allocate 1 bs = (.error e, bs')) ↔ (ids bs).length = N := by
  have hcount := (h.partition.tiles.length_live h.single).2
  rw [Nat.zero_add] at hcount
  rw [ids, List.length_map, hcount]
  rcases allocate_cases bs with ⟨pre, it, post, rfl, hit, -, he⟩ | ⟨hno, he⟩ <;> rw [he]
  · refine ⟨fun ⟨e, bs', h⟩ => by simp at h, fun hall => ?_⟩
    have hfree := hit.1
    rw [hall it (by simp)] at hfree
    cases hfree
  · refine ⟨fun _ b hb => ?_, fun _ => ⟨_, _, rfl⟩⟩
    have hpos := h.partition.tiles.pos hb
    by_contra hf
    exact hno b hb ⟨by simpa using hf, hpos⟩

/-- What `acquire_notification` does: it hands out a new id, or there is none left. -/
theorem Holds.acquire (h : Holds N bs) :
    (∃ p bs', acquire_notification bs = (.ok (toNotification p), bs') ∧ Holds N bs' ∧ Allocated N bs p bs') ∨
    (∃ e, acquire_notification bs = (.error e, bs)) ∧ (ids bs).length = N := by
  have hcall := h.call .allocate
  have hfull := h.full
  unfold NotificationManager.call at hcall
  unfold acquire_notification
  cases ha : NotificationManager.allocate 1 bs with
  | mk result bs' =>
    rw [ha] at hcall hfull
    cases result with
    | ok p => exact .inl ⟨p, bs', rfl, hcall, h.allocated ha⟩
    | error e =>
      refine .inr ⟨⟨e, ?_⟩, hfull.mp ⟨e, bs', rfl⟩⟩
      rcases allocate_cases bs with ⟨_, _, _, _, _, _, he⟩ | ⟨_, he⟩ <;> rw [he] at ha
      · cases ha
      · obtain ⟨-, rfl⟩ := Prod.mk.inj ha
        rfl

theorem Holds.length_le (h : Holds N bs) : (ids bs).length ≤ N := by
  have hle := (h.partition.tiles.length_live h.single).1
  rw [ids, List.length_map]
  omega

/-- Releasing an id takes it, and nothing else, off the ids that are out. -/
theorem Holds.deallocate (h : Holds N bs) (hp : p ∈ ids bs) :
    ∃ bs', deallocate p bs = (.ok (), bs') ∧ Holds N bs' ∧ (p :: ids bs').Perm (ids bs) := by
  obtain ⟨b, hb, hf, rfl⟩ := mem_ids.mp hp
  rcases deallocate_cases b.g_start bs with ⟨pre, it, post, rfl, hit, hd⟩ | ⟨hno, -⟩
  · obtain rfl : it = b := h.partition.tiles.eq_of_start (by simp) hb hit
    refine ⟨_, hd, h.release, ?_⟩
    unfold ids
    rw [live_release, List.reverse_reverse, live_append, live_cons_allocated hf, List.map_append,
      List.map_append, List.map_cons]
    exact List.perm_middle.symm
  · exact absurd rfl (hno b hb)

/-- A release keeps the other ids out. -/
theorem mem_ids_deallocate {q : Nat} (hp : p ∈ ids bs) (hne : p ≠ q) : p ∈ ids (deallocate q bs).2 := by
  rcases deallocate_cases q bs with ⟨pre, it, post, rfl, hit, hd⟩ | ⟨-, hd⟩ <;> rw [hd]
  · obtain ⟨b, hb, hf, hbp⟩ := mem_ids.mp hp
    have hmem : b ∈ pre ++ post := by
      rcases List.mem_append.mp hb with hb | hb
      · exact List.mem_append_left _ hb
      · rcases List.mem_cons.mp hb with rfl | hb
        · exact absurd (hbp.symm.trans hit) hne
        · exact List.mem_append_right _ hb
    unfold ids
    rw [live_release, List.reverse_reverse, ← live_append]
    exact mem_ids.mpr ⟨b, hmem, hf, hbp⟩
  · exact hp

/-- Releasing every id, in any order, leaves one free block. -/
theorem Holds.releaseAll (hN : 0 < N) (h : Holds N bs) {ps : List Nat} (hperm : ps.Perm (ids bs)) :
    releaseAll ps bs = (.ok (), construct N) := by
  induction ps generalizing bs with
  | nil =>
    have hlive : live bs = [] := List.map_eq_nil_iff.mp hperm.nil_eq.symm
    rw [NotificationManager.releaseAll, h.partition.eq_singleton hN hlive]
    rfl
  | cons p ps ih =>
    obtain ⟨bs', hd, h', hl⟩ := h.deallocate (hperm.subset List.mem_cons_self)
    rw [NotificationManager.releaseAll, hd]
    exact ih h' ((List.perm_cons _).mp (hperm.trans hl.symm))

/-- **The ids are managed correctly, whatever is released.** -/
theorem notification_manager_correct (hN : 0 < N) (ops : List Op) : Correct N (run N ops) where
  partition := (holds_run hN ops).partition
  allocate _ _ ha := (holds_run hN ops).allocated ha
  full := (holds_run hN ops).full
  release _ hp :=
    let ⟨bs', hd, _, hl⟩ := (holds_run hN ops).deallocate hp
    ⟨bs', hd, hl⟩
  releaseAll _ hperm := (holds_run hN ops).releaseAll hN hperm
  unknown p hno := by
    rcases deallocate_cases p (run N ops) with ⟨pre, it, post, hbs, hit, -⟩ | ⟨-, hd⟩
    · exact absurd hit (hno it (by rw [hbs]; simp))
    · exact ⟨_, hd⟩
  exact hle p hp := by
    have hlt : p < 2 ^ 31 := by omega
    exact ⟨toNotification_eq hlt, by rw [release_notification, toSize_toNotification hlt]⟩

/-- Four ids, two of them out, one given back and a value released that was never an id. -/
theorem notification_manager_correct_four :
    0 < 4 ∧ Correct 4 (run 4 [.allocate, .allocate, .deallocate 0, .deallocate 7]) :=
  ⟨by decide, notification_manager_correct (by decide) _⟩

end GaspiCxx.Segment.NotificationManager
