import GaspiCxx.OneSided.Ledger
import GaspiCxx.Passive.Service

/-!
# What one key of one rank's service holds

The posts of either role under a key pair up in order: `Meeting.Accounts` says
where they are. `W` transfers have been written and `S` of them have notified
their source; every other post waits in its map, in a message or in a thread's
hand, with the buffer its rank holds for this key.
-/

namespace GaspiCxx.Passive

open OneSided

structure Meeting (Thread : Type) where
  table : Role → Option BufferDescription
  msgs : List BufferDescription
  inHand : List (Thread × Transfer BufferDescription)
  written : List (Thread × BufferDescription)

variable {Thread V X : Type}

def Net.meeting (N : Net Thread V X) (k : Rank × Key) : Meeting Thread where
  table role := (N.tables k.1).buffers role k.2
  msgs := N.msgs k
  inHand := N.inHand k
  written := N.written k

namespace Meeting

/-- Nobody uses the key. -/
structure Idle (M : Meeting Thread) : Prop where
  table : ∀ role, M.table role = none
  msgs : M.msgs = []
  inHand : M.inHand = []
  written : M.written = []

/-- Receive posts that have not reached the maps. -/
def early (M : Meeting Thread) : Role → List BufferDescription
  | .src => []
  | .rcv => M.msgs

/-- What a handler does to its key when its own map has no entry. -/
def handle (M : Meeting Thread) (th : Thread) (role : Role) (key : Key) (desc : BufferDescription) :
    Meeting Thread :=
  match M.table role.other with
  | some found =>
    { M with
      table := Function.update M.table role.other none
      inHand := M.inHand ++ [(th, ⟨key, pairUp role desc found⟩)] }
  | none => { M with table := Function.update M.table role (some desc) }

structure Accounts (M : Meeting Thread) (desc : Role → Option BufferDescription) (posts : Role → Nat)
    (W S : Nat) : Prop where
  posts : ∀ role, posts role =
    W + M.inHand.length + (M.table role).toList.length + (M.early role).length
  writes : W = S + M.written.length
  apart : M.table .src = none ∨ M.table .rcv = none
  table : ∀ role d, M.table role = some d → desc role = some d
  early : ∀ role, ∀ d ∈ M.early role, desc role = some d
  inHand : ∀ th t, (th, t) ∈ M.inHand → ∀ role, desc role = some (t.desc role)
  written : ∀ th d, (th, d) ∈ M.written → desc .src = some d

variable {M : Meeting Thread} {desc desc' : Role → Option BufferDescription} {posts : Role → Nat} {W S : Nat}
  {role : Role} {key : Key} {d : BufferDescription} {th : Thread}

theorem Idle.accounts (h : M.Idle) (desc : Role → Option BufferDescription) :
    M.Accounts desc (fun _ => 0) 0 0 where
  posts role := by
    have he : M.early role = [] := by cases role <;> simp [early, h.msgs]
    simp [h.inHand, h.table role, he]
  writes := by simp [h.written]
  apart := .inl (h.table .src)
  table role d hd := by rw [h.table] at hd; cases hd
  early role d hd := by cases role <;> simp [Meeting.early, h.msgs] at hd
  inHand th t ht := by simp [h.inHand] at ht
  written th d hd := by simp [h.written] at hd

namespace Accounts

theorem le (h : M.Accounts desc posts W S) : S ≤ W := by
  rw [h.writes]; omega

theorem le_posts (h : M.Accounts desc posts W S) (role : Role) : W ≤ posts role := by
  rw [h.posts role]; omega

/-- All posts of a role have been written: none is in a map, a message or a hand. -/
theorem none_left (h : M.Accounts desc posts W S) (hp : posts role = W) :
    M.table role = none ∧ M.early role = [] ∧ M.inHand = [] := by
  have := h.posts role
  refine ⟨?_, ?_, ?_⟩
  · cases ht : M.table role with
    | none => rfl
    | some d => rw [ht] at this; simp only [Option.toList_some, List.length_singleton] at this; omega
  · exact List.length_eq_zero_iff.mp (by omega)
  · exact List.length_eq_zero_iff.mp (by omega)

/-- The handler of a post whose map has no entry. -/
theorem handle (h : M.Accounts desc posts W S) (th : Thread) (key : Key) (hown : M.table role = none) (hd : desc role = some d) :
    (M.handle th role key d).Accounts desc (bump posts role) W S := by
  unfold Meeting.handle
  cases hother : M.table role.other with
  | none =>
    refine ⟨fun r => ?_, h.writes, ?_, fun r e he => ?_, h.early, h.inHand, h.written⟩
    · have hr := h.posts r
      rw [bump_apply]
      by_cases hrr : r = role
      · subst hrr
        simp only [hown, Option.toList_none, List.length_nil, Function.update_self, Option.toList_some,
          List.length_singleton, if_true, Meeting.early] at hr ⊢
        omega
      · simp only [Function.update_of_ne hrr, if_neg hrr, Nat.add_zero, Meeting.early] at hr ⊢
        exact hr
    · cases role with
      | src => exact .inr (by simpa [Role.other] using hother)
      | rcv => exact .inl (by simpa [Role.other] using hother)
    · by_cases hrr : r = role
      · subst hrr
        simp only [Function.update_self] at he
        rw [← he]; exact hd
      · simp only [Function.update_of_ne hrr] at he
        exact h.table r e he
  | some found =>
    refine ⟨fun r => ?_, h.writes, ?_, fun r e he => ?_, h.early, fun th' t ht => ?_, h.written⟩
    · have hr := h.posts r
      rw [bump_apply]
      simp only [List.length_append, List.length_singleton, Meeting.early] at hr ⊢
      obtain rfl | rfl := Role.eq_or_other role r
      · simp only [hown, Option.toList_none, List.length_nil, Function.update_of_ne r.ne_other, if_true] at hr ⊢
        omega
      · simp only [hother, Option.toList_some, List.length_singleton, Function.update_self, Option.toList_none,
          List.length_nil, if_neg role.other_ne] at hr ⊢
        omega
    · cases role with
      | src => exact .inl (by simpa [Role.other] using hown)
      | rcv => exact .inr (by simpa [Role.other] using hown)
    · obtain rfl | rfl := Role.eq_or_other role r
      · simp only [Function.update_of_ne r.ne_other, hown] at he; cases he
      · simp only [Function.update_self] at he; cases he
    · rw [List.mem_append, List.mem_singleton] at ht
      rcases ht with ht | ht
      · exact h.inHand th' t ht
      · obtain ⟨rfl, rfl⟩ := Prod.mk.inj ht
        intro r
        obtain rfl | rfl := Role.eq_or_other role r
        · simpa using hd
        · simpa using h.table _ _ hother

/-- A message is taken out, before its handler runs. -/
theorem receive (h : M.Accounts desc posts W S) {before after : List BufferDescription}
    (hm : M.msgs = before ++ d :: after) :
    desc .rcv = some d ∧ ∃ posts', bump posts' .rcv = posts ∧
      ({ M with msgs := before ++ after } : Meeting Thread).Accounts desc posts' W S := by
  have hd : d ∈ M.msgs := by rw [hm]; simp
  refine ⟨h.early .rcv d hd, Function.update posts .rcv (posts .rcv - 1), ?_, ?_⟩
  · have hr := h.posts .rcv
    simp only [Meeting.early, hm, List.length_append, List.length_cons] at hr
    funext r
    cases r with
    | src => simp [bump]
    | rcv => simp only [bump, Function.update_self]; omega
  · refine ⟨fun r => ?_, h.writes, h.apart, h.table, fun r e he => ?_, h.inHand, h.written⟩
    · have hr := h.posts r
      cases r with
      | src => simpa [Meeting.early] using hr
      | rcv =>
        simp only [Meeting.early, hm, List.length_append, List.length_cons] at hr
        simp only [Meeting.early, Function.update_self, List.length_append]
        omega
    · cases r with
      | src => simp [Meeting.early] at he
      | rcv =>
        apply h.early .rcv e
        simp only [Meeting.early, List.mem_append] at he
        simp only [Meeting.early, hm, List.mem_append, List.mem_cons]
        tauto

/-- A receive post leaves in a message. -/
theorem send (h : M.Accounts desc posts W S) (hd : desc .rcv = some d) :
    ({ M with msgs := M.msgs ++ [d] } : Meeting Thread).Accounts desc (bump posts .rcv) W S := by
  refine ⟨fun r => ?_, h.writes, h.apart, h.table, fun r e he => ?_, h.inHand, h.written⟩
  · have hr := h.posts r
    rw [bump_apply]
    cases r with
    | src => simpa [Meeting.early] using hr
    | rcv =>
      simp only [Meeting.early, List.length_append, List.length_singleton, if_true] at hr ⊢
      omega
  · cases r with
    | src => simp [Meeting.early] at he
    | rcv =>
      simp only [Meeting.early, List.mem_append, List.mem_singleton] at he
      rcases he with he | rfl
      · exact h.early .rcv e he
      · exact hd

/-- A transfer in hand is written. -/
theorem write (h : M.Accounts desc posts W S) {t : Transfer BufferDescription}
    {before after : List (Thread × Transfer BufferDescription)} (hm : M.inHand = before ++ (th, t) :: after) :
    (∀ role, desc role = some (t.desc role)) ∧
      ({ M with inHand := before ++ after, written := M.written ++ [(th, t.desc .src)] } : Meeting Thread).Accounts
        desc posts (W + 1) S := by
  have ht := h.inHand th t (by rw [hm]; simp)
  refine ⟨ht, fun r => ?_, ?_, h.apart, h.table, h.early, fun th' t' ht' => ?_, fun th' d hd => ?_⟩
  · have hr := h.posts r
    simp only [hm, List.length_append, List.length_cons, Meeting.early] at hr ⊢
    omega
  · have hw := h.writes
    simp only [List.length_append, List.length_singleton]
    omega
  · apply h.inHand th' t'
    rw [hm]
    rw [List.mem_append] at ht' ⊢
    rw [List.mem_cons]
    tauto
  · rw [List.mem_append, List.mem_singleton] at hd
    rcases hd with hd | hd
    · exact h.written th' d hd
    · obtain ⟨-, rfl⟩ := Prod.mk.inj hd
      exact ht .src

/-- A written transfer notifies its source. -/
theorem notify (h : M.Accounts desc posts W S) {before after : List (Thread × BufferDescription)}
    (hm : M.written = before ++ (th, d) :: after) :
    desc .src = some d ∧
      ({ M with written := before ++ after } : Meeting Thread).Accounts desc posts W (S + 1) := by
  refine ⟨h.written th d (by rw [hm]; simp), h.posts, ?_, h.apart, h.table, h.early, h.inHand, fun th' e he => ?_⟩
  · have hw := h.writes
    simp only [hm, List.length_append, List.length_cons] at hw ⊢
    omega
  · apply h.written th' e
    rw [hm]
    rw [List.mem_append] at he ⊢
    rw [List.mem_cons]
    tauto

/-- A role none of whose posts is on its way may change its buffer. -/
theorem redesc (h : M.Accounts desc posts W S) (hs : desc' .src = desc .src ∨ posts .src = S)
    (hr : desc' .rcv = desc .rcv ∨ posts .rcv = W) : M.Accounts desc' posts W S := by
  have hle := h.le
  have hsrc : posts .src = S → W = S ∧ M.written = [] := by
    intro he
    have := h.le_posts .src
    have hw := h.writes
    refine ⟨by omega, List.length_eq_zero_iff.mp (by omega)⟩
  have key : ∀ role, desc' role = desc role ∨ posts role = W := by
    intro role
    cases role with
    | rcv => exact hr
    | src => exact hs.imp_right fun he => by rw [he, (hsrc he).1]
  refine ⟨h.posts, h.writes, h.apart, fun role d hd => ?_, fun role d hd => ?_, fun th t ht role => ?_,
    fun th d hd => ?_⟩
  · rcases key role with he | he
    · rw [he]; exact h.table role d hd
    · rw [(h.none_left he).1] at hd; cases hd
  · rcases key role with he | he
    · rw [he]; exact h.early role d hd
    · rw [(h.none_left he).2.1] at hd; cases hd
  · rcases key role with he | he
    · rw [he]; exact h.inHand th t ht role
    · rw [(h.none_left he).2.2] at ht; cases ht
  · rcases hs with he | he
    · rw [he]; exact h.written th d hd
    · rw [(hsrc he).2] at hd; cases hd

/-- With no message, transfer or notification on its way all pairs of posts have
been written and notified. -/
theorem settled (h : M.Accounts desc posts W S) (hm : M.msgs = []) (hh : M.inHand = []) (hw : M.written = []) :
    S = W ∧ W = min (posts .src) (posts .rcv) := by
  have hs := h.posts .src
  have hr := h.posts .rcv
  have hww := h.writes
  simp only [Meeting.early, hm, hh, hw, List.length_nil] at hs hr hww
  refine ⟨by omega, ?_⟩
  rcases h.apart with ha | ha
  · rw [ha, Option.toList_none, List.length_nil] at hs
    omega
  · rw [ha, Option.toList_none, List.length_nil] at hr
    omega

end Accounts

end Meeting

end GaspiCxx.Passive
