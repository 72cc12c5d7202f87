import Mathlib

/-!
# Byte memory

Functions that encode a value at an address report the length they return and
every byte they store (`Put`); functions that decode report the length, the
value and every byte they load (`Got`). A caller walks through the buffer by
adding what they return: `OutPtr.put` and `fetch` are the lines `cPtr += …`.

`Puts p bs` says that `p` stores exactly `bs` and returns its length, `Gives`
the same for a decoder; both compose under the walk.
-/

namespace GaspiCxx.Bytes

abbrev Mem := Nat → UInt8

/-- The byte stores of `memcpy (a, bs, bs.length)`. -/
def stores : Nat → List UInt8 → List (Nat × UInt8)
  | _, [] => []
  | a, b :: bs => (a, b) :: stores (a + 1) bs

def load (mem : Mem) : Nat → Nat → List UInt8
  | _, 0 => []
  | a, n + 1 => mem a :: load mem (a + 1) n

def applyStores (ss : List (Nat × UInt8)) (mem : Mem) : Mem :=
  ss.foldl (fun m s => Function.update m s.1 s.2) mem

def Holds (mem : Mem) : Nat → List UInt8 → Prop
  | _, [] => True
  | a, b :: bs => mem a = b ∧ Holds mem (a + 1) bs

@[simp] theorem stores_length (a : Nat) (bs : List UInt8) : (stores a bs).length = bs.length := by
  induction bs generalizing a with
  | nil => rfl
  | cons b bs ih => simp [stores, ih]

theorem stores_append (a : Nat) (bs cs : List UInt8) :
    stores a (bs ++ cs) = stores a bs ++ stores (a + bs.length) cs := by
  induction bs generalizing a with
  | nil => rfl
  | cons b bs ih =>
    simp only [List.cons_append, stores, ih, List.length_cons]
    rw [show a + 1 + bs.length = a + (bs.length + 1) by omega]

theorem mem_stores {a : Nat} {bs : List UInt8} {s : Nat × UInt8} (h : s ∈ stores a bs) :
    a ≤ s.1 ∧ s.1 < a + bs.length := by
  induction bs generalizing a with
  | nil => cases h
  | cons b bs ih =>
    unfold stores at h
    rw [List.length_cons]
    obtain rfl | h := List.mem_cons.mp h
    · simp only; omega
    · have := ih h; omega

theorem applyStores_below {a x : Nat} (bs : List UInt8) (mem : Mem) (h : x < a) :
    applyStores (stores a bs) mem x = mem x := by
  unfold applyStores
  induction bs generalizing a mem with
  | nil => rfl
  | cons b bs ih =>
    unfold stores
    rw [List.foldl_cons, ih _ (by omega), Function.update_of_ne (by simp only; omega)]

/-- What was stored at consecutive addresses is there. -/
theorem holds_applyStores (a : Nat) (bs : List UInt8) (mem : Mem) :
    Holds (applyStores (stores a bs) mem) a bs := by
  induction bs generalizing a mem with
  | nil => trivial
  | cons b bs ih =>
    have hcons : applyStores (stores a (b :: bs)) mem =
        applyStores (stores (a + 1) bs) (Function.update mem a b) := rfl
    rw [hcons]
    refine ⟨?_, ih (a + 1) (Function.update mem a b)⟩
    rw [applyStores_below bs _ (Nat.lt_succ_self a), Function.update_self]

theorem holds_append {mem : Mem} {a : Nat} {bs cs : List UInt8} :
    Holds mem a (bs ++ cs) ↔ Holds mem a bs ∧ Holds mem (a + bs.length) cs := by
  induction bs generalizing a with
  | nil => simp [Holds]
  | cons b bs ih =>
    simp only [List.cons_append, Holds, ih, List.length_cons, and_assoc]
    rw [show a + 1 + bs.length = a + (bs.length + 1) by omega]

theorem load_of_holds {mem : Mem} {a : Nat} {bs : List UInt8} (h : Holds mem a bs) :
    load mem a bs.length = bs := by
  induction bs generalizing a with
  | nil => rfl
  | cons b bs ih =>
    obtain ⟨h1, h2⟩ := h
    rw [List.length_cons, load, h1, ih h2]

/-! ## Encoders -/

structure Put where
  returned : Nat
  stores : List (Nat × UInt8)
  deriving DecidableEq, Repr

/-- A write pointer and what was stored through it. -/
structure OutPtr where
  cPtr : Nat
  stores : List (Nat × UInt8)
  deriving DecidableEq, Repr

/-- `cPtr += p (cPtr)`. -/
def OutPtr.put (c : OutPtr) (p : Nat → Put) : OutPtr :=
  ⟨c.cPtr + (p c.cPtr).returned, c.stores ++ (p c.cPtr).stores⟩

def Puts (p : Nat → Put) (bs : List UInt8) : Prop := ∀ a, p a = ⟨bs.length, stores a bs⟩

/-- The pointer after `bs` was written from `a` on. -/
def OutPtr.wrote (a : Nat) (bs : List UInt8) : OutPtr := ⟨a + bs.length, Bytes.stores a bs⟩

theorem OutPtr.wrote_nil (a : Nat) : (⟨a, []⟩ : OutPtr) = wrote a [] := rfl

theorem OutPtr.wrote_put {p : Nat → Put} {cs : List UInt8} (a : Nat) (bs : List UInt8) (h : Puts p cs) :
    (wrote a bs).put p = wrote a (bs ++ cs) := by
  unfold wrote put
  rw [h, stores_append, List.length_append, Nat.add_assoc]

theorem OutPtr.wrote_foldl {α : Type} {f : OutPtr → α → OutPtr} {enc : α → List UInt8} (a : Nat)
    (bs : List UInt8) (xs : List α) (h : ∀ x ∈ xs, ∀ bs, f (wrote a bs) x = wrote a (bs ++ enc x)) :
    xs.foldl f (wrote a bs) = wrote a (bs ++ xs.flatMap enc) := by
  induction xs generalizing bs with
  | nil => simp
  | cons x xs ih =>
    rw [List.foldl_cons, h x List.mem_cons_self, ih _ fun y hy => h y (List.mem_cons_of_mem _ hy),
      List.flatMap_cons, List.append_assoc]

theorem OutPtr.put_stores_length (c : OutPtr) (p : Nat → Put) (n : Nat) (h : ∀ a, (p a).stores.length = n) :
    (c.put p).stores.length = c.stores.length + n := by
  unfold put
  rw [List.length_append, h]

/-- Whatever the encoders return, their stores add up. -/
theorem OutPtr.foldl_stores_length {α : Type} {f : OutPtr → α → OutPtr} {enc : α → List UInt8} (xs : List α)
    (c : OutPtr) (h : ∀ x ∈ xs, ∀ c, (f c x).stores.length = c.stores.length + (enc x).length) :
    (xs.foldl f c).stores.length = c.stores.length + (xs.flatMap enc).length := by
  induction xs generalizing c with
  | nil => simp
  | cons x xs ih =>
    rw [List.foldl_cons, ih _ fun y hy => h y (List.mem_cons_of_mem _ hy), h x List.mem_cons_self,
      List.flatMap_cons, List.length_append, Nat.add_assoc]

/-! ## Decoders -/

structure Got (α : Type) where
  returned : Nat
  value : α
  loads : List Nat
  deriving DecidableEq, Repr

/-- A read pointer and the addresses loaded through it. -/
structure InPtr where
  cPtr : Nat
  loads : List Nat
  deriving DecidableEq, Repr

/-- `cPtr += g (cPtr)`, with the value read. -/
def fetch {α : Type} (g : Nat → Got α) : StateM InPtr α := fun c =>
  ((g c.cPtr).value, ⟨c.cPtr + (g c.cPtr).returned, c.loads ++ (g c.cPtr).loads⟩)

def Gives {α : Type} (mem : Mem) (g : Nat → Got α) (bs : List UInt8) (x : α) : Prop :=
  ∀ a, Holds mem a bs → g a = ⟨bs.length, x, List.range' a bs.length⟩

/-- A walk that reads `bs` and yields `x`. -/
def Walks {α : Type} (mem : Mem) (m : StateM InPtr α) (bs : List UInt8) (x : α) : Prop :=
  ∀ c : InPtr, Holds mem c.cPtr bs → m c = (x, ⟨c.cPtr + bs.length, c.loads ++ List.range' c.cPtr bs.length⟩)

section

variable {α β : Type} {mem : Mem} {bs cs : List UInt8}

theorem walks_fetch {g : Nat → Got α} {x : α} (h : Gives mem g bs x) : Walks mem (fetch g) bs x := by
  intro c hc
  unfold fetch
  rw [h c.cPtr hc]

theorem Walks.pure (mem : Mem) (x : α) : Walks mem (pure x) [] x := by
  intro c _
  show (x, c) = _
  simp

theorem Walks.bind {m : StateM InPtr α} {k : α → StateM InPtr β} {x : α} {y : β} (h : Walks mem m bs x)
    (h' : Walks mem (k x) cs y) : Walks mem (m >>= k) (bs ++ cs) y := by
  intro c hc
  obtain ⟨hb, hcs⟩ := holds_append.mp hc
  have hrun : (m >>= k) c = k (m c).1 (m c).2 := rfl
  rw [hrun, h c hb]
  refine (h' _ hcs).trans ?_
  simp only [List.length_append, List.append_assoc, List.range'_append_1, Nat.add_assoc]

theorem Walks.mapM {f : α → StateM InPtr β} {enc : β → List UInt8} (ds : List α) (xs : List β)
    (hlen : ds.length = xs.length) (h : ∀ d, ∀ x ∈ xs, Walks mem (f d) (enc x) x) :
    Walks mem (ds.mapM f) (xs.flatMap enc) xs := by
  induction ds generalizing xs with
  | nil =>
    obtain rfl := List.length_eq_zero_iff.mp hlen.symm
    exact Walks.pure mem []
  | cons d ds ih =>
    cases xs with
    | nil => cases hlen
    | cons x xs =>
      rw [List.mapM_cons, List.flatMap_cons]
      refine (h d x List.mem_cons_self).bind ?_
      have htail := ih xs (Nat.succ.inj hlen) fun d y hy => h d y (List.mem_cons_of_mem _ hy)
      simpa using htail.bind (k := fun l => Pure.pure (x :: l)) (Walks.pure mem (x :: xs))

/-- `for n < length { T elem; cPtr += read elem; insert elem; }`. -/
def walkEach (f : StateM InPtr α) (insert : β → α → β) : Nat → β → StateM InPtr β
  | 0, b => Pure.pure b
  | n + 1, b => do
    let a ← f
    walkEach f insert n (insert b a)

theorem Walks.walkEach {f : StateM InPtr α} {insert : β → α → β} {enc : α → List UInt8} (xs : List α) (b : β)
    (h : ∀ x ∈ xs, Walks mem f (enc x) x) :
    Walks mem (Bytes.walkEach f insert xs.length b) (xs.flatMap enc) (xs.foldl insert b) := by
  induction xs generalizing b with
  | nil => exact Walks.pure mem b
  | cons x xs ih =>
    rw [List.flatMap_cons, List.length_cons, List.foldl_cons]
    unfold Bytes.walkEach
    exact (h x List.mem_cons_self).bind (ih (insert b x) fun y hy => h y (List.mem_cons_of_mem _ hy))

/-- `return size (elem)`, recomputed from what was read. -/
def returnSize (r : α → Nat) (m : StateM InPtr α) (buffer : Nat) : Got α :=
  let (x, c) := m ⟨buffer, []⟩
  ⟨r x, x, c.loads⟩

/-- `return cPtr - buffer`. -/
def returnDistance (m : StateM InPtr α) (buffer : Nat) : Got α :=
  let (x, c) := m ⟨buffer, []⟩
  ⟨c.cPtr - buffer, x, c.loads⟩

theorem Walks.returnSize {m : StateM InPtr α} {x : α} {r : α → Nat} (h : Walks mem m bs x) (hr : r x = bs.length) :
    Gives mem (Bytes.returnSize r m) bs x := by
  intro a ha
  unfold Bytes.returnSize
  rw [h ⟨a, []⟩ ha]
  simp [hr]

theorem Walks.returnDistance {m : StateM InPtr α} {x : α} (h : Walks mem m bs x) :
    Gives mem (Bytes.returnDistance m) bs x := by
  intro a ha
  unfold Bytes.returnDistance
  rw [h ⟨a, []⟩ ha]
  simp

end

end GaspiCxx.Bytes
