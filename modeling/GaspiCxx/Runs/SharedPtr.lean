import Mathlib

/-!
# Objects that are owned together (`std::shared_ptr`)

A heap has objects with a count of the pointers to each. The pointers that are
there, by the handle they hold, are a list `owners`; `Counted` says that the
counts are right, and `alive` are the objects some pointer owns. The object of a
handle is destroyed with its last owner.
-/

namespace GaspiCxx.Runs

structure Heap (A : Type) where
  object : Nat → A
  use_count : Nat → Nat
  /-- The handle of the next object. -/
  next : Nat

namespace Heap

variable {A : Type}

def empty (a : A) : Heap A where
  object _ := a
  use_count _ := 0
  next := 0

/-- `std::make_shared`: the first pointer to the object has the handle `H.next`. -/
def make (H : Heap A) (a : A) : Heap A where
  object := Function.update H.object H.next a
  use_count := Function.update H.use_count H.next 1
  next := H.next + 1

def copy (H : Heap A) (h : Nat) : Heap A :=
  { H with use_count := Function.update H.use_count h (H.use_count h + 1) }

/-- A pointer gives its share up. -/
def release (H : Heap A) (h : Nat) : Heap A :=
  { H with use_count := Function.update H.use_count h (H.use_count h - 1) }

structure Counted (H : Heap A) (owners : List Nat) : Prop where
  count : ∀ h, H.use_count h = owners.count h
  known : ∀ h ∈ owners, h < H.next

/-- The objects that pointers with these handles own. -/
def alive (H : Heap A) (owners : List Nat) : List A := owners.dedup.map H.object

variable {H : Heap A} {owners rest : List Nat} {h : Nat} {a : A}

theorem counted_empty (a : A) : (empty a).Counted [] := ⟨fun _ => rfl, fun _ hh => by cases hh⟩

theorem Counted.perm (hc : H.Counted owners) (hp : owners.Perm rest) : H.Counted rest :=
  ⟨fun h => (hc.count h).trans (hp.count_eq h), fun h hh => hc.known h (hp.symm.subset hh)⟩

theorem alive_perm (H : Heap A) (hp : owners.Perm rest) : (H.alive owners).Perm (H.alive rest) :=
  (List.Perm.dedup hp).map _

theorem mem_alive (hh : h ∈ owners) : H.object h ∈ H.alive owners :=
  List.mem_map_of_mem (List.mem_dedup.mpr hh)

theorem Counted.make (hc : H.Counted owners) (a : A) : (H.make a).Counted (H.next :: owners) where
  count h := by
    have hfresh : H.next ∉ owners := fun hh => Nat.lt_irrefl _ (hc.known _ hh)
    by_cases hn : h = H.next
    · subst hn
      simp [Heap.make, List.count_eq_zero.mpr hfresh]
    · simp [Heap.make, hn, Ne.symm hn, hc.count h]
  known h hh := by
    rcases List.mem_cons.mp hh with rfl | hh
    · exact Nat.lt_succ_self _
    · exact Nat.lt_succ_of_lt (hc.known h hh)

/-- A new object is one more. -/
theorem Counted.alive_make (hc : H.Counted owners) (a : A) :
    (H.make a).alive (H.next :: owners) = a :: H.alive owners := by
  have hfresh : H.next ∉ owners := fun hh => Nat.lt_irrefl _ (hc.known _ hh)
  unfold alive
  rw [List.dedup_cons_of_notMem hfresh, List.map_cons]
  congr 1
  · exact Function.update_self ..
  · refine List.map_congr_left fun h hh => Function.update_of_ne ?_ ..
    rintro rfl
    exact hfresh (List.mem_dedup.mp hh)

theorem Counted.object_make (hc : H.Counted owners) (a : A) (hh : h ∈ owners) : (H.make a).object h = H.object h :=
  Function.update_of_ne (Nat.ne_of_lt (hc.known h hh)) ..

theorem Counted.copy (hc : H.Counted owners) (hh : h ∈ owners) : (H.copy h).Counted (h :: owners) where
  count k := by
    by_cases hk : k = h
    · subst hk
      simp [Heap.copy, hc.count k]
    · simp [Heap.copy, hk, Ne.symm hk, hc.count k]
  known k hk := by
    rcases List.mem_cons.mp hk with rfl | hk
    · exact hc.known _ hh
    · exact hc.known k hk

theorem alive_copy (H : Heap A) (hh : h ∈ owners) : (H.copy h).alive (h :: owners) = H.alive owners :=
  congrArg (List.map H.object) (List.dedup_cons_of_mem hh)

theorem Counted.release (hc : H.Counted (h :: owners)) : (H.release h).Counted owners where
  count k := by
    have hk := hc.count k
    by_cases he : k = h
    · subst he
      simp [Heap.release, hk]
    · simpa [Heap.release, he, Ne.symm he] using hk
  known k hk := hc.known k (List.mem_cons_of_mem _ hk)

/-- The object goes with its last owner. -/
theorem Counted.alive_last (hc : H.Counted (h :: owners)) (hone : H.use_count h = 1) :
    H.alive (h :: owners) = H.object h :: (H.release h).alive owners := by
  have hgone : h ∉ owners := by
    have := hc.count h
    rw [hone, List.count_cons_self] at this
    exact List.count_eq_zero.mp (by omega)
  exact congrArg (List.map H.object) (List.dedup_cons_of_notMem hgone)

theorem Counted.alive_shared (hc : H.Counted (h :: owners)) (hmore : H.use_count h ≠ 1) :
    (H.release h).alive owners = H.alive (h :: owners) := by
  have hh : h ∈ owners := by
    have := hc.count h
    rw [List.count_cons_self] at this
    exact List.count_pos_iff.mp (by omega)
  exact congrArg (List.map H.object) (List.dedup_cons_of_mem hh).symm

end Heap

end GaspiCxx.Runs
