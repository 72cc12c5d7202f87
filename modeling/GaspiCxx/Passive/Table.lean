import GaspiCxx.Runs.Trace

/-!
# The tagged rendezvous of `Passive`

`iSendTagMessg` and `iRecvTagMessg` meet in two maps keyed by tag and rank: a
description either finds its counterpart in the other map, takes it out and
carries both to `iSendRecvComm`, or is queued in its own map. The maps are only
touched under the mutex; the transfer itself runs after it is released.

The two handlers are one function with the roles exchanged. What a key holds is
conserved: every description accepted for a role is queued, in the hand of a
thread or in a started transfer, with one description of the other role beside
it in the last two cases.
-/

namespace GaspiCxx.Passive

open Runs

/-- `Passive::Rank` (`int`) and `Passive::Tag` (`long`): only compared here. -/
abbrev Rank := Int
abbrev Tag := Int

structure Key where
  tag : Tag
  rank : Rank
  deriving DecidableEq, Repr

inductive Role where
  | src
  | rcv
  deriving DecidableEq, Repr

def Role.other : Role → Role
  | .src => .rcv
  | .rcv => .src

@[simp] theorem Role.other_other (role : Role) : role.other.other = role := by cases role <;> rfl

@[simp] theorem Role.other_ne (role : Role) : role.other ≠ role := by cases role <;> decide

@[simp] theorem Role.ne_other (role : Role) : role ≠ role.other := by cases role <;> decide

theorem Role.eq_or_other (role r : Role) : r = role ∨ r = role.other := by
  cases role <;> cases r <;> simp [Role.other]

/-- `srcTargetBuffers_` and `rcvTargetBuffers_`. -/
structure Tables (D : Type) where
  buffers : Role → Key → Option D

namespace Tables

variable {D : Type}

def empty : Tables D := ⟨fun _ _ => none⟩

def srcTargetBuffers_ (T : Tables D) : Key → Option D := T.buffers .src

def rcvTargetBuffers_ (T : Tables D) : Key → Option D := T.buffers .rcv

def set (T : Tables D) (role : Role) (key : Key) (d : Option D) : Tables D :=
  ⟨Function.update T.buffers role (Function.update (T.buffers role) key d)⟩

@[simp] theorem empty_buffers (role : Role) (key : Key) : (empty : Tables D).buffers role key = none := rfl

@[simp] theorem set_same (T : Tables D) (role : Role) (key : Key) (d : Option D) :
    (T.set role key d).buffers role key = d := by
  simp [set]

theorem set_role (T : Tables D) {role r : Role} (key κ : Key) (d : Option D) (h : r ≠ role) :
    (T.set role key d).buffers r κ = T.buffers r κ := by
  simp [set, h]

theorem set_key (T : Tables D) (role r : Role) {key κ : Key} (d : Option D) (h : κ ≠ key) :
    (T.set role key d).buffers r κ = T.buffers r κ := by
  by_cases hr : r = role
  · subst hr; simp [set, h]
  · exact T.set_role key κ d hr

end Tables

/-- The two descriptions `iSendRecvComm` is called with. -/
structure Transfer (D : Type) where
  key : Key
  desc : Role → D

/-- What a handler did: called `iSendRecvComm`, inserted, or thrown. -/
inductive Outcome (D : Type) where
  | iSendRecvComm (t : Transfer D)
  | inserted
  | throws (what : String)

/-- The text after `CODE_ORIGIN`. -/
def existsAlready (key : Key) : String :=
  "key (" ++ toString key.tag ++ ", " ++ toString key.rank ++ ") exists already"

section Handlers

variable {D : Type}

def pairUp (role : Role) (mine found : D) (r : Role) : D := if r = role then mine else found

@[simp] theorem pairUp_mine (role : Role) (mine found : D) : pairUp role mine found role = mine := if_pos rfl

@[simp] theorem pairUp_found (role : Role) (mine found : D) : pairUp role mine found role.other = found :=
  if_neg role.other_ne

/-- The locked section of both handlers: `find` in the other map and `erase`, or
`insert` into the own map, which fails when the key is there. -/
def handleTagged (role : Role) (T : Tables D) (rank : Rank) (tag : Tag) (desc : D) : Outcome D × Tables D :=
  let key : Key := ⟨tag, rank⟩
  match T.buffers role.other key with
  | some found => (.iSendRecvComm ⟨key, pairUp role desc found⟩, T.set role.other key none)
  | none =>
    match T.buffers role key with
    | some _ => (.throws (existsAlready key), T)
    | none => (.inserted, T.set role key (some desc))

def handleTaggedSrcBufferDesc (T : Tables D) (rank : Rank) (tag : Tag) (srcTargetBufferDesc : D) :
    Outcome D × Tables D :=
  handleTagged .src T rank tag srcTargetBufferDesc

def handleTaggedRcvBufferDesc (T : Tables D) (rank : Rank) (tag : Tag) (rcvTargetBufferDesc : D) :
    Outcome D × Tables D :=
  handleTagged .rcv T rank tag rcvTargetBufferDesc

/-- All a handler can do to its key. -/
theorem handleTagged_cases (role : Role) (T : Tables D) (rank : Rank) (tag : Tag) (desc : D) :
    (∃ found, T.buffers role.other ⟨tag, rank⟩ = some found ∧
      handleTagged role T rank tag desc =
        (.iSendRecvComm ⟨⟨tag, rank⟩, pairUp role desc found⟩, T.set role.other ⟨tag, rank⟩ none)) ∨
    (∃ d, T.buffers role.other ⟨tag, rank⟩ = none ∧ T.buffers role ⟨tag, rank⟩ = some d ∧
      handleTagged role T rank tag desc = (.throws (existsAlready ⟨tag, rank⟩), T)) ∨
    (T.buffers role.other ⟨tag, rank⟩ = none ∧ T.buffers role ⟨tag, rank⟩ = none ∧
      handleTagged role T rank tag desc = (.inserted, T.set role ⟨tag, rank⟩ (some desc))) := by
  unfold handleTagged
  cases hother : T.buffers role.other ⟨tag, rank⟩ with
  | some found => left; exact ⟨found, rfl, by simp only [hother]⟩
  | none =>
    cases hown : T.buffers role ⟨tag, rank⟩ with
    | some d => right; left; exact ⟨d, rfl, rfl, by simp only [hother, hown]⟩
    | none => right; right; exact ⟨rfl, rfl, by simp only [hother, hown]⟩

/-- No key is in both maps. -/
def Tables.KeysDisjoint (T : Tables D) : Prop := ∀ key, T.buffers .src key = none ∨ T.buffers .rcv key = none

theorem Tables.keysDisjoint_of {T : Tables D} (role : Role)
    (h : ∀ key, T.buffers role key = none ∨ T.buffers role.other key = none) : T.KeysDisjoint := by
  intro key
  cases role
  · exact h key
  · exact (h key).symm

theorem empty_keysDisjoint : (Tables.empty : Tables D).KeysDisjoint := fun _ => .inl rfl

theorem handleTagged_keysDisjoint {T : Tables D} (h : T.KeysDisjoint) (role : Role) (rank : Rank) (tag : Tag)
    (desc : D) : (handleTagged role T rank tag desc).2.KeysDisjoint := by
  have hd := h
  obtain ⟨found, hf, he⟩ | ⟨d, -, -, he⟩ | ⟨hother, hown, he⟩ := handleTagged_cases role T rank tag desc
  · rw [he]
    refine Tables.keysDisjoint_of role.other fun key => ?_
    by_cases hk : key = ⟨tag, rank⟩
    · subst hk; left; exact T.set_same _ _ _
    · rw [T.set_key _ _ _ hk, T.set_key _ _ _ hk]
      rcases h key with h | h <;> cases role <;> simp [Role.other, h]
  · rw [he]; exact hd
  · rw [he]
    refine Tables.keysDisjoint_of role fun key => ?_
    by_cases hk : key = ⟨tag, rank⟩
    · subst hk; right; rw [T.set_role _ _ _ role.other_ne]; exact hother
    · rw [T.set_key _ _ _ hk, T.set_key _ _ _ hk]
      rcases h key with h | h <;> cases role <;> simp [Role.other, h]

end Handlers

/-!
## Threads

A user thread or the passive thread is either outside the handlers or, after
its locked section found a counterpart, on its way into `iSendRecvComm`.
-/

section Threads

variable {Thread D : Type}

structure State (Thread D : Type) where
  tables : Tables D
  /-- Between the unlock and the call of `iSendRecvComm`. -/
  inHand : List (Thread × Transfer D)
  started : List (Transfer D)

def State.initial : State Thread D := ⟨Tables.empty, [], []⟩

/-- The locked section of a handler with its result, or the transfer after it. -/
inductive Label (Thread D : Type) where
  | handle (th : Thread) (role : Role) (key : Key) (desc : D) (o : Outcome D)
  | iSendRecvComm (th : Thread)

def Outcome.carried : Outcome D → List (Transfer D)
  | .iSendRecvComm t => [t]
  | .inserted => []
  | .throws _ => []

inductive Step : State Thread D → Label Thread D → State Thread D → Prop where
  | handle (S : State Thread D) (th : Thread) (role : Role) (key : Key) (desc : D)
      (free : ∀ t, (th, t) ∉ S.inHand) :
      Step S (.handle th role key desc (handleTagged role S.tables key.rank key.tag desc).1)
        { S with
          tables := (handleTagged role S.tables key.rank key.tag desc).2
          inHand := (handleTagged role S.tables key.rank key.tag desc).1.carried.map (Prod.mk th) ++ S.inHand }
  | iSendRecvComm (S : State Thread D) (th : Thread) (t : Transfer D) (before after : List (Thread × Transfer D))
      (h : S.inHand = before ++ (th, t) :: after) :
      Step S (.iSendRecvComm th) { S with inHand := before ++ after, started := S.started ++ [t] }

abbrev Run (ls : List (Label Thread D)) (S : State Thread D) : Prop := Trace Step State.initial ls S

/-- The description a move adds to a role's side of a key: none when it throws. -/
def Label.accepted (role : Role) (key : Key) : Label Thread D → List D
  | .handle _ r k desc o =>
    match o with
    | .throws _ => []
    | _ => if r = role ∧ k = key then [desc] else []
  | .iSendRecvComm _ => []

/-- The transfers of a key handed to `iSendRecvComm`. -/
def State.handed (S : State Thread D) (key : Key) : List (Transfer D) :=
  (S.inHand.map Prod.snd ++ S.started).filter fun t => t.key = key

/-- Where a role's descriptions of a key are. -/
def State.held (S : State Thread D) (role : Role) (key : Key) : List D :=
  (S.tables.buffers role key).toList ++ (S.handed key).map fun t => t.desc role

theorem handle_held {S S' : State Thread D} {th : Thread} {r : Role} {k : Key} {desc : D} {o : Outcome D}
    (h : Step S (.handle th r k desc o) S') (role : Role) (key : Key) :
    (S'.held role key).Perm ((Label.handle th r k desc o).accepted role key ++ S.held role key) := by
  cases h
  obtain ⟨found, hf, he⟩ | ⟨d, -, -, he⟩ | ⟨-, hown, he⟩ := handleTagged_cases r S.tables k.rank k.tag desc
  · rw [he]
    by_cases hk : k = key
    · subst hk
      obtain rfl | rfl := Role.eq_or_other r role
      · -- the caller's own description goes straight into the transfer
        simp only [State.held, State.handed, Outcome.carried, Label.accepted, and_self, if_true]
        rw [Tables.set_role _ _ _ _ role.ne_other]
        simp
      · -- the counterpart leaves the map for the transfer
        simp [State.held, State.handed, Outcome.carried, Label.accepted, hf]
    · have hk' : key ≠ k := fun e => hk e.symm
      simp only [State.held, State.handed, Outcome.carried, Label.accepted]
      rw [Tables.set_key _ _ _ _ hk']
      simp [hk]
  · rw [he]
    simp [State.held, State.handed, Outcome.carried, Label.accepted]
  · rw [he]
    simp only [State.held, State.handed, Outcome.carried, Label.accepted]
    by_cases hk : k = key
    · subst hk
      obtain rfl | rfl := Role.eq_or_other r role
      · simp [hown]
      · rw [Tables.set_role _ _ _ _ r.other_ne]
        simp
    · have hk' : key ≠ k := fun e => hk e.symm
      rw [Tables.set_key _ _ _ _ hk']
      simp [hk]

theorem transfer_held {S S' : State Thread D} {th : Thread} (h : Step S (.iSendRecvComm th) S') (role : Role)
    (key : Key) : (S'.held role key).Perm (S.held role key) := by
  cases h with
  | iSendRecvComm _ _ _ _ hin =>
    unfold State.held State.handed
    apply List.Perm.append_left
    apply List.Perm.map
    apply List.Perm.filter
    rw [hin]
    simp only [List.map_append, List.map_cons, List.append_assoc]
    apply List.Perm.append_left _
    rw [List.cons_append, ← List.append_assoc]
    exact List.perm_append_singleton _ _

theorem Step.held {S S' : State Thread D} {l : Label Thread D} (h : Step S l S') (role : Role) (key : Key) :
    (S'.held role key).Perm (l.accepted role key ++ S.held role key) := by
  cases l with
  | handle th r k desc o => exact handle_held h role key
  | iSendRecvComm th => exact transfer_held h role key

theorem Step.keysDisjoint {S S' : State Thread D} {l : Label Thread D} (h : Step S l S')
    (hd : S.tables.KeysDisjoint) : S'.tables.KeysDisjoint := by
  cases h with
  | handle _ role key desc _ => exact handleTagged_keysDisjoint hd role key.rank key.tag desc
  | iSendRecvComm _ _ _ _ _ => exact hd

/-- A throwing handler does nothing else: it throws when the key waits in its
own map, and leaves maps and transfers alone. -/
theorem Step.throws {S S' : State Thread D} {th : Thread} {role : Role} {key : Key} {desc : D} {what : String}
    (h : Step S (.handle th role key desc (.throws what)) S') :
    S' = S ∧ what = existsAlready key ∧ (S.tables.buffers role key).isSome := by
  generalize hl : Label.handle th role key desc (.throws what) = l at h
  cases h with
  | iSendRecvComm _ _ _ _ _ => cases hl
  | handle _ role' key' desc' _ =>
    injection hl with _ hr hkey hdesc ho
    subst hr hkey hdesc
    obtain ⟨found, -, he⟩ | ⟨d, -, hd, he⟩ | ⟨-, -, he⟩ :=
      handleTagged_cases role S.tables key.rank key.tag desc
    · rw [he] at ho; cases ho
    · rw [he] at ho ⊢
      injection ho with ho
      exact ⟨by simp [Outcome.carried], ho, by rw [hd]; rfl⟩
    · rw [he] at ho; cases ho

theorem Run.keysDisjoint {ls : List (Label Thread D)} {S : State Thread D} (h : Run ls S) :
    S.tables.KeysDisjoint :=
  h.invariant (P := fun S => S.tables.KeysDisjoint) empty_keysDisjoint fun _ _ _ hd hs => hs.keysDisjoint hd

theorem Run.held {ls : List (Label Thread D)} {S : State Thread D} (h : Run ls S) (role : Role) (key : Key) :
    (S.held role key).Perm (ls.flatMap (Label.accepted role key)) :=
  h.balance (H := fun S => S.held role key) rfl fun _ _ _ hs => hs.held role key

/-- The maps never share a key; what was accepted for a role is in its map or
was handed to `iSendRecvComm`, each time together with one description of the
other role and the same key; a call that throws changes nothing. `D` is any
type, so descriptions may carry the number of their call. -/
theorem tagged_rendezvous_conserved {ls : List (Label Thread D)} {S : State Thread D} (h : Run ls S) :
    (∀ key, S.tables.srcTargetBuffers_ key = none ∨ S.tables.rcvTargetBuffers_ key = none) ∧
    (∀ key, (ls.flatMap (Label.accepted .src key)).Perm
        ((S.tables.srcTargetBuffers_ key).toList ++ (S.handed key).map fun t => t.desc .src) ∧
      (ls.flatMap (Label.accepted .rcv key)).Perm
        ((S.tables.rcvTargetBuffers_ key).toList ++ (S.handed key).map fun t => t.desc .rcv)) ∧
    ∀ (th : Thread) (role : Role) (key : Key) (desc : D) (what : String) (S' : State Thread D),
      Step S (.handle th role key desc (.throws what)) S' → what = existsAlready key ∧ S' = S := by
  refine ⟨Run.keysDisjoint h, fun key => ⟨(Run.held h .src key).symm, (Run.held h .rcv key).symm⟩, ?_⟩
  intro th role key desc what S' hs
  exact ⟨hs.throws.2.1, hs.throws.1⟩

/-- A source post, the matching receive post on another thread, its transfer. -/
theorem tagged_rendezvous_conserved_once :
    ∃ (ls : List (Label Bool Nat)) (S : State Bool Nat), S.started.length = 1 ∧
      ((∀ key, S.tables.srcTargetBuffers_ key = none ∨ S.tables.rcvTargetBuffers_ key = none) ∧
      (∀ key, (ls.flatMap (Label.accepted .src key)).Perm
          ((S.tables.srcTargetBuffers_ key).toList ++ (S.handed key).map fun t => t.desc .src) ∧
        (ls.flatMap (Label.accepted .rcv key)).Perm
          ((S.tables.rcvTargetBuffers_ key).toList ++ (S.handed key).map fun t => t.desc .rcv)) ∧
      ∀ (th : Bool) (role : Role) (key : Key) (desc : Nat) (what : String) (S' : State Bool Nat),
        Step S (.handle th role key desc (.throws what)) S' → what = existsAlready key ∧ S' = S) := by
  have posted : Trace Step (State.initial : State Bool Nat) _ _ :=
    .single (.handle _ true .src ⟨3, 1⟩ 7 (by intro t h; cases h))
  have met := posted.snoc (.handle _ false .rcv ⟨3, 1⟩ 8 (by intro t h; cases h))
  have done := met.snoc (.iSendRecvComm _ false _ [] [] rfl)
  exact ⟨_, _, rfl, tagged_rendezvous_conserved done⟩

end Threads

end GaspiCxx.Passive
