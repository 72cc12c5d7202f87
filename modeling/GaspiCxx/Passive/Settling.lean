import GaspiCxx.Passive.Service

/-!
# A net comes to rest

What is on its way in a net can arrive: a message turns into a transfer at most, a
transfer into a write and a notification, a packet into its notification. `load`
counts what is still to happen, and as long as there is anything on its way some
step of the net makes it smaller, or a user's operation is next.
-/

namespace GaspiCxx.Passive

open OneSided

/-! ## Lists at finitely many keys -/

section

variable {K A : Type} {c : A → Nat} {f : K → List A}

/-- All but finitely many lists are empty. -/
def FinitelyMany (f : K → List A) : Prop := {k | f k ≠ []}.Finite

/-- The cost of all elements. -/
noncomputable def cost (c : A → Nat) (f : K → List A) : Nat := finsum fun k => ((f k).map c).sum

theorem FinitelyMany.nil : FinitelyMany fun _ : K => ([] : List A) := by
  simp [FinitelyMany]

variable [DecidableEq K]

theorem FinitelyMany.update (h : FinitelyMany f) (a : K) (l : List A) : FinitelyMany (Function.update f a l) := by
  apply (h.insert a).subset
  intro k hk
  by_cases hka : k = a
  · exact .inl hka
  · have hk : Function.update f a l k ≠ [] := hk
    rw [Function.update_of_ne hka] at hk
    exact .inr hk

theorem cost_update (h : FinitelyMany f) (a : K) (l : List A) :
    cost c (Function.update f a l) + ((f a).map c).sum = cost c f + (l.map c).sum := by
  set S := (h.insert a).toFinset with hS
  have ha : a ∈ S := by simp [hS]
  have hsum : ∀ g : K → List A, (∀ k, k ∉ S → g k = []) → cost c g = ∑ k ∈ S, ((g k).map c).sum := by
    intro g hg
    apply finsum_eq_sum_of_support_subset
    intro k hk
    by_contra hout
    rw [Function.mem_support, hg k hout] at hk
    exact hk rfl
  have hout : ∀ k, k ∉ S → k ≠ a ∧ f k = [] := by
    intro k hk
    simpa [hS] using hk
  rw [hsum f fun k hk => (hout k hk).2,
    hsum _ fun k hk => (Function.update_of_ne (hout k hk).1 ..).trans (hout k hk).2,
    ← Finset.add_sum_erase S _ ha, ← Finset.add_sum_erase S _ ha, Function.update_self]
  have hrest : ∑ k ∈ S.erase a, ((Function.update f a l k).map c).sum = ∑ k ∈ S.erase a, ((f k).map c).sum :=
    Finset.sum_congr rfl fun k hk => by rw [Function.update_of_ne (Finset.ne_of_mem_erase hk)]
  omega

end

/-! ## The load of a net -/

variable {Thread V X : Type} {w : X → Nat} {N N' : Net Thread V X} {passive : Thread}

/-- The steps an operation is away from its end, for a user's as `w` says. -/
def Op.steps (w : X → Nat) : Op V X → Nat
  | .packet _ _ => 2
  | .bare => 1
  | .user x => w x

namespace Net

/-- Only finitely much is on its way. -/
structure Bounded (N : Net Thread V X) : Prop where
  flight : FinitelyMany N.flight
  msgs : FinitelyMany N.msgs
  inHand : FinitelyMany N.inHand
  written : FinitelyMany N.written

/-- A message may come to be in hand, from there it is written and stored, and
then notifies. -/
noncomputable def load (w : X → Nat) (N : Net Thread V X) : Nat :=
  cost (Op.steps w) N.flight + cost (fun _ => 6) N.msgs + cost (fun _ => 5) N.inHand +
    cost (fun _ => 2) N.written

theorem Bounded.quiet (live : Rank → Finset Slot) (allocated : Rank → Finset Block)
    (memory : Rank × Block → V) :
    Bounded (quiet live allocated memory : Net Thread V X) := ⟨.nil, .nil, .nil, .nil⟩

namespace Bounded

theorem post (h : N.Bounded) (d : BufferDescription) (op : Op V X) : (N.post d op).Bounded :=
  ⟨h.flight.update _ _, h.msgs, h.inHand, h.written⟩

theorem throw (h : N.Bounded) (what : String) : (N.throw what).Bounded := ⟨h.flight, h.msgs, h.inHand, h.written⟩

theorem handle (h : N.Bounded) (me : Rank) (th : Thread) (role : Role) (rank : Rank) (tag : Tag)
    (desc : BufferDescription) : (N.handle me th role rank tag desc).Bounded :=
  ⟨h.flight, h.msgs, h.inHand.update _ _, h.written⟩

theorem iRecvTagMessg (h : N.Bounded) (me : Rank) (th : Thread) (rank : Rank) (tag : Tag)
    (rcvTargetBuffer : BufferDescription) : (N.iRecvTagMessg me th rank tag rcvTargetBuffer).Bounded := by
  unfold Net.iRecvTagMessg
  split
  · exact h.handle ..
  · exact ⟨h.flight, h.msgs.update _ _, h.inHand, h.written⟩

theorem waitForNotification (h : N.Bounded) {d : BufferDescription} (hN : N.waitForNotification d = some N') :
    N'.Bounded := by
  obtain ⟨-, rfl⟩ := waitForNotification_some hN
  exact ⟨h.flight, h.msgs, h.inHand, h.written⟩

theorem iSendRecvComm (h : N.Bounded) (k : Rank × Key) (th : Thread) (t : Transfer BufferDescription) :
    (N.iSendRecvComm k th t).Bounded := by
  unfold Net.iSendRecvComm
  split
  · exact ⟨h.flight.update _ _, h.msgs, h.inHand, h.written.update _ _⟩
  · exact h.throw _

theorem step (h : N.Bounded) (hs : Step passive N N') : N'.Bounded := by
  cases hs with
  | deliver me key d before after =>
    have h : Bounded { N with msgs := Function.update N.msgs (me, key) (before ++ after) } :=
      ⟨h.flight, h.msgs.update _ _, h.inHand, h.written⟩
    exact h.handle ..
  | write k th t before after =>
    have h : Bounded { N with inHand := Function.update N.inHand k (before ++ after) } :=
      ⟨h.flight, h.msgs, h.inHand.update _ _, h.written⟩
    exact h.iSendRecvComm ..
  | notify k th d before after =>
    have h : Bounded { N with written := Function.update N.written k (before ++ after) } :=
      ⟨h.flight, h.msgs, h.inHand, h.written.update _ _⟩
    exact h.post ..
  | store | arrive => exact ⟨h.flight.update _ _, h.msgs, h.inHand, h.written⟩

end Bounded

/-! ## What makes it smaller -/

/-- An operation in flight takes a step, or ends. -/
theorem load_flight (h : N.Bounded) {a : Rank × Slot} {before after : List (Op V X)} {op : Op V X}
    (hf : N.flight a = before ++ op :: after) (ops : List (Op V X)) (hlt : (ops.map (Op.steps w)).sum < op.steps w)
    (hN : N'.flight = Function.update N.flight a (before ++ (ops ++ after))) (hmsgs : N'.msgs = N.msgs)
    (hinHand : N'.inHand = N.inHand) (hwritten : N'.written = N.written) : N'.load w < N.load w := by
  have hcost := cost_update (c := Op.steps w) h.flight a (before ++ (ops ++ after))
  rw [hf] at hcost
  simp only [List.map_append, List.map_cons, List.sum_append, List.sum_cons] at hcost
  unfold load
  rw [hN, hmsgs, hinHand, hwritten]
  omega

theorem load_deliver (h : N.Bounded) {me : Rank} {th : Thread} {key : Key} {d : BufferDescription}
    {before after : List BufferDescription} (hm : N.msgs (me, key) = before ++ d :: after) :
    (Net.handle { N with msgs := Function.update N.msgs (me, key) (before ++ after) } me th .rcv key.rank key.tag
      d).load w < N.load w := by
  have hmsgs := cost_update (c := fun _ => 6) h.msgs (me, key) (before ++ after)
  set taken := (handleTagged .rcv (N.tables me) key.rank key.tag d).1.carried.map (Prod.mk th) with htaken
  -- At most one transfer comes of it.
  have hle : (taken.map fun _ => 5).sum ≤ 5 := by
    have hcases := handleTagged_cases .rcv (N.tables me) key.rank key.tag d
    rcases hcases with ⟨_, _, he⟩ | ⟨_, _, _, he⟩ | ⟨_, _, he⟩ <;> rw [htaken, he] <;> simp [Outcome.carried]
  have hin := cost_update (c := fun _ => 5) h.inHand (me, ⟨key.tag, key.rank⟩)
    (N.inHand (me, ⟨key.tag, key.rank⟩) ++ taken)
  rw [hm] at hmsgs
  simp only [List.map_append, List.map_cons, List.sum_append, List.sum_cons] at hmsgs hin
  unfold load Net.handle
  simp only [← htaken]
  omega

theorem load_notify (h : N.Bounded) {k : Rank × Key} {th : Thread} {d : BufferDescription}
    {before after : List (Thread × BufferDescription)} (hw : N.written k = before ++ (th, d) :: after) :
    (Net.notify { N with written := Function.update N.written k (before ++ after) } d).load w < N.load w := by
  have hwritten := cost_update (c := fun _ => 2) h.written k (before ++ after)
  have hflight := cost_update (c := Op.steps w) h.flight d.address (N.flight d.address ++ [.bare])
  rw [hw] at hwritten
  simp only [List.map_append, List.map_cons, List.map_nil, List.sum_append, List.sum_cons, List.sum_nil, Op.steps]
    at hwritten hflight
  unfold load Net.notify Net.post
  simp only
  omega

theorem load_write (h : N.Bounded) {k : Rank × Key} {th : Thread} {t : Transfer BufferDescription}
    {before after : List (Thread × Transfer BufferDescription)} (hi : N.inHand k = before ++ (th, t) :: after) :
    (Net.iSendRecvComm { N with inHand := Function.update N.inHand k (before ++ after) } k th t).load w <
      N.load w := by
  have hinHand := cost_update (c := fun _ => 5) h.inHand k (before ++ after)
  rw [hi] at hinHand
  simp only [List.map_append, List.map_cons, List.sum_append, List.sum_cons] at hinHand
  unfold Net.iSendRecvComm
  split
  · next op hop =>
    have hle : op.steps w ≤ 2 := by
      unfold Passive.write at hop
      split at hop
      · cases hop
      · split at hop <;> cases hop <;> simp [Op.steps]
    have hwritten := cost_update (c := fun _ => 2) h.written k (N.written k ++ [(th, t.desc .src)])
    have hflight := cost_update (c := Op.steps w) h.flight (t.desc .rcv).address
      (N.flight (t.desc .rcv).address ++ [op])
    simp only [List.map_append, List.map_cons, List.map_nil, List.sum_append, List.sum_cons, List.sum_nil]
      at hwritten hflight
    unfold load Net.post
    simp only
    omega
  · unfold load Net.throw
    simp only
    omega

/-- **What is on its way gets on**, or it is a user's operation. -/
theorem exists_lighter (passive : Thread) (w : X → Nat) (h : N.Bounded) (hN : ¬ N.Delivered) :
    (∃ N', Step passive N N' ∧ N'.load w < N.load w) ∨
      ∃ a x before after, N.flight a = before ++ .user x :: after := by
  by_cases hi : ∀ k, N.inHand k = []
  · by_cases hw : ∀ k, N.written k = []
    · by_cases hm : ∀ k, N.msgs k = []
      · obtain ⟨a, ha⟩ : ∃ a, N.flight a ≠ [] := by
          by_contra hf
          exact hN ⟨fun a => not_not.mp (not_exists.mp hf a), hm, hi, hw⟩
        obtain ⟨op, after, hop⟩ := List.exists_cons_of_ne_nil ha
        cases op with
        | packet b v =>
          have hf : N.flight a = [] ++ .packet b v :: after := hop
          refine .inl ⟨_, .store N a b v [] after hf, load_flight h hf [.bare] ?_ rfl rfl rfl rfl⟩
          simp [Op.steps]
        | bare =>
          have hf : N.flight a = [] ++ .bare :: after := hop
          exact .inl ⟨_, .arrive N a [] after hf, load_flight h hf [] Nat.one_pos rfl rfl rfl rfl⟩
        | user x => exact .inr ⟨a, x, [], after, hop⟩
      · obtain ⟨⟨me, key⟩, hk⟩ := not_forall.mp hm
        obtain ⟨d, after, hd⟩ := List.exists_cons_of_ne_nil hk
        have hfree : N.Free me passive := fun key => by
          rw [hi, hw]
          exact ⟨fun _ => List.not_mem_nil, fun _ => List.not_mem_nil⟩
        have hd : N.msgs (me, key) = [] ++ d :: after := hd
        exact .inl ⟨_, .deliver N me key d [] after hd hfree, load_deliver h hd⟩
    · obtain ⟨k, hk⟩ := not_forall.mp hw
      obtain ⟨⟨th, d⟩, after, hd⟩ := List.exists_cons_of_ne_nil hk
      have hd : N.written k = [] ++ (th, d) :: after := hd
      exact .inl ⟨_, .notify N k th d [] after hd, load_notify h hd⟩
  · obtain ⟨k, hk⟩ := not_forall.mp hi
    obtain ⟨⟨th, t⟩, after, ht⟩ := List.exists_cons_of_ne_nil hk
    have ht : N.inHand k = [] ++ (th, t) :: after := ht
    exact .inl ⟨_, .write N k th t [] after ht, load_write h ht⟩

end Net

end GaspiCxx.Passive
