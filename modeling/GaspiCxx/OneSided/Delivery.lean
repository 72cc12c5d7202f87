import GaspiCxx.OneSided.Fabric

/-!
# The network can always deliver

An operation in flight has at most three phases ahead of it, and no phase waits
for anything. From every state the network alone reaches one with nothing in
flight.
-/

namespace GaspiCxx.OneSided

variable {Port Loc Val : Type}

/-- The phases an operation has ahead of it. -/
def Phase.left : Phase Val → Nat
  | .posted => 3
  | .read _ => 2
  | .stored => 1

namespace Fabric

/-- The phases ahead of the operations towards `p`. -/
def ahead (F : Fabric Port Loc Val) (p : Port) : Nat := ((F.flight p).map Phase.left).sum

def outstanding (F : Fabric Port Loc Val) (A : Finset Port) : Nat := ∑ p ∈ A, F.ahead p

theorem sum_set {l : List (Phase Val)} {i : Nat} {a b : Phase Val} (h : l[i]? = some a) :
    ((l.set i b).map Phase.left).sum + a.left = (l.map Phase.left).sum + b.left := by
  obtain ⟨hi, ha⟩ := List.getElem?_eq_some_iff.mp h
  have hl : l = l.take i ++ a :: l.drop (i + 1) := by
    rw [← ha, List.getElem_cons_drop, List.take_append_drop]
  rw [List.set_eq_take_append_cons_drop, if_pos hi]
  conv_rhs => rw [hl]
  simp only [List.map_append, List.map_cons, List.sum_append, List.sum_cons]
  omega

theorem sum_eraseIdx {l : List (Phase Val)} {i : Nat} {a : Phase Val} (h : l[i]? = some a) :
    ((l.eraseIdx i).map Phase.left).sum + a.left = (l.map Phase.left).sum := by
  obtain ⟨hi, ha⟩ := List.getElem?_eq_some_iff.mp h
  have hl : l = l.take i ++ a :: l.drop (i + 1) := by
    rw [← ha, List.getElem_cons_drop, List.take_append_drop]
  rw [List.eraseIdx_eq_take_drop_succ]
  conv_rhs => rw [hl]
  simp only [List.map_append, List.map_cons, List.sum_append, List.sum_cons]
  omega

variable [DecidableEq Port] [DecidableEq Loc] {W : Wiring Port Loc} {F F' : Fabric Port Loc Val} {p : Port} {i : Nat}

/-- A phase is a phase less at one port. -/
theorem ahead_of_advance (h : F.advance W p i = some F') (q : Port) :
    if q = p then F'.ahead q < F.ahead q else F'.ahead q = F.ahead q := by
  by_cases hq : q = p
  · subst hq
    rw [if_pos rfl]
    obtain ⟨hi, -, rfl⟩ | ⟨hi, -, rfl⟩ | ⟨v, hi, rfl⟩ | ⟨hi, rfl⟩ := advance_cases h
    · have := sum_set (b := .read (F.mem (W.loc (W.peer q)))) hi
      simp only [ahead, setPhase, Function.update_self, Phase.left] at this ⊢
      omega
    · have := sum_eraseIdx hi
      simp only [ahead, notify, Function.update_self, Phase.left] at this ⊢
      omega
    · have := sum_set (b := .stored) hi
      simp only [ahead, setPhase, write, Function.update_self, Phase.left] at this ⊢
      omega
    · have := sum_eraseIdx hi
      simp only [ahead, notify, Function.update_self, Phase.left] at this ⊢
      omega
  · rw [if_neg hq]
    obtain ⟨-, -, rfl⟩ | ⟨-, -, rfl⟩ | ⟨v, -, rfl⟩ | ⟨-, rfl⟩ := advance_cases h <;>
      simp only [ahead, setPhase, notify, write, Function.update_of_ne hq]

theorem outstanding_of_advance {A : Finset Port} (hp : p ∈ A) (h : F.advance W p i = some F') :
    F'.outstanding A < F.outstanding A := by
  refine Finset.sum_lt_sum (fun q _ => ?_) ⟨p, hp, ?_⟩
  · have := ahead_of_advance h q
    split at this
    · exact this.le
    · exact this.le
  · simpa using ahead_of_advance h p

/-- Steps of the network. -/
def Moves (W : Wiring Port Loc) (F F' : Fabric Port Loc Val) : Prop := ∃ p i, F.advance W p i = some F'

/-- Operations towards finitely many ports can all be delivered. -/
theorem exists_delivered (W : Wiring Port Loc) (F : Fabric Port Loc Val) (hfin : {p | F.flight p ≠ []}.Finite) :
    ∃ F', Relation.ReflTransGen (Moves W) F F' ∧ F'.Delivered := by
  obtain ⟨A, hA⟩ : ∃ A : Finset Port, ∀ p, F.flight p ≠ [] → p ∈ A :=
    ⟨hfin.toFinset, fun p hp => hfin.mem_toFinset.mpr hp⟩
  clear hfin
  induction hn : F.outstanding A using Nat.strong_induction_on generalizing F with
  | _ n ih =>
    by_cases hd : F.Delivered
    · exact ⟨F, .refl, hd⟩
    · obtain ⟨p, hp⟩ := not_forall.mp hd
      obtain ⟨G, hG⟩ := advance_of_flight W hp
      obtain ⟨F', hrun, hd'⟩ := ih _ (hn ▸ outstanding_of_advance (hA p hp) hG) G
        (fun q hq => hA q (flight_of_advance hG hq)) rfl
      exact ⟨F', .head ⟨p, 0, hG⟩ hrun, hd'⟩

end Fabric

end GaspiCxx.OneSided
