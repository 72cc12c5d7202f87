import GaspiCxx.Passive.Buffers

/-!
# Posting, waiting, and what happens by itself

A post finds its own map without an entry, so no handler throws. Each operation
moves one counter of the view; `Consistent.step` is what the passive threads,
the threads in `iSendRecvComm` and the network do on their own, which no program
notices.
-/

namespace GaspiCxx.Passive

open OneSided

variable {Chan Q Thread V X : Type}

/-- One more post of channel `c`. -/
def bumpPosts [DecidableEq Chan] (posts : Role → Chan → Nat) (role : Role) (c : Chan) : Role → Chan → Nat :=
  Function.update posts role (bump (posts role) c)

theorem bumpPosts_apply [DecidableEq Chan] (posts : Role → Chan → Nat) (role r : Role) (c c' : Chan) :
    bumpPosts posts role c r c' = posts r c' + if r = role ∧ c' = c then 1 else 0 := by
  unfold bumpPosts
  by_cases hr : r = role
  · subst hr; simp [bump_apply]
  · simp [hr]

/-! ## The maps -/

theorem handle_meeting (N : Net Thread V X) {me : Rank} (th : Thread) {role : Role} {key : Key}
    (d : BufferDescription) (hown : (N.meeting (me, key)).table role = none) :
    (N.handle me th role key.rank key.tag d).meeting (me, key) = (N.meeting (me, key)).handle th role key d ∧
      (N.handle me th role key.rank key.tag d).errors = N.errors := by
  have hown' : (N.tables me).buffers role key = none := hown
  unfold Net.handle Net.meeting Meeting.handle
  obtain ⟨found, hf, he⟩ | ⟨d', -, hd, -⟩ | ⟨hother, -, he⟩ := handleTagged_cases role (N.tables me) key.rank key.tag d
  · rw [he]
    simp only [hf, Function.update_self, Outcome.carried, List.map_cons, List.map_nil, Outcome.thrown,
      List.append_nil, Meeting.mk.injEq, and_true]
    funext r
    by_cases hr : r = role.other
    · subst hr; simp
    · rw [Tables.set_role _ _ _ _ hr, Function.update_of_ne hr]
  · rw [hown'] at hd; cases hd
  · rw [he]
    simp only [hother, Function.update_self, Outcome.carried, List.map_nil, List.append_nil, Outcome.thrown,
      Meeting.mk.injEq, and_true]
    funext r
    by_cases hr : r = role
    · subst hr; simp
    · rw [Tables.set_role _ _ _ _ hr, Function.update_of_ne hr]

theorem handle_meeting_ne (N : Net Thread V X) {me : Rank} (th : Thread) (role : Role) {key : Key}
    (d : BufferDescription) {k : Rank × Key} (hk : k ≠ (me, key)) :
    (N.handle me th role key.rank key.tag d).meeting k = N.meeting k := by
  unfold Net.handle Net.meeting
  simp only [Function.update_of_ne hk, Meeting.mk.injEq, and_true]
  funext r
  by_cases hme : k.1 = me
  · have hkey : k.2 ≠ key := fun he => hk (Prod.ext hme he)
    rw [hme, Function.update_self]
    obtain ⟨found, -, he⟩ | ⟨d', -, -, he⟩ | ⟨-, -, he⟩ :=
      handleTagged_cases role (N.tables me) key.rank key.tag d
    · rw [he]; exact Tables.set_key _ _ _ _ hkey
    · rw [he]
    · rw [he]; exact Tables.set_key _ _ _ _ hkey
  · rw [Function.update_of_ne hme]

namespace Consistent

variable {L : Layout Chan Q} {G G' : Q → Op V X → Prop} {H H' : Q → Prop} {w : View Chan Q V}
  {N N' : Net Thread V X} {posted : Port Chan Q → Nat} {p : Port Chan Q} {d : BufferDescription} {c : Chan} {q : Q}
/-! ## Posting -/

section

variable [DecidableEq Chan]

/-- A post changes what its own meeting place holds, and no other. -/
theorem posting (h : Consistent L G H w N posted) (role : Role) (hp : w.posts role c = w.taken (role.port c))
    (hm : role = .src → w.made c = w.taken (.send c) + 1)
    {tables : Rank → Tables BufferDescription} {msgs : Rank × Key → List BufferDescription}
    {inHand : Rank × Key → List (Thread × Transfer BufferDescription)} {errors : List String}
    (hN : N' = { N with tables := tables, msgs := msgs, inHand := inHand, errors := errors })
    (he : errors = [])
    (hmeet : (N'.meeting (L.meet c)).Accounts (fun r => w.held (r.port c)) (bump (fun r => w.posts r c) role)
      (posted (.recv c)) (posted (.send c)))
    (hother : ∀ k, k ≠ L.meet c → N'.meeting k = N.meeting k) :
    Consistent L G H { w with posts := bumpPosts w.posts role c } N' posted := by
  subst hN
  refine { h with
    errors := he, meets := fun c' => ?_, unused := fun k hk => ?_, cap := fun r c' => ?_, made := fun c' => ?_ }
  · by_cases hc : c' = c
    · subst hc
      have hfun : (fun r => bumpPosts w.posts role c' r c') = bump (fun r => w.posts r c') role := by
        funext r
        rw [bumpPosts_apply, bump_apply]
        simp only [and_true]
      simp only [hfun]
      exact hmeet
    · have hfun : (fun r => bumpPosts w.posts role c r c') = fun r => w.posts r c' := by
        funext r
        rw [bumpPosts_apply, if_neg fun he => hc he.2, Nat.add_zero]
      simp only [hfun]
      rw [hother _ fun hk => hc (L.meet_inj hk)]
      exact h.meets c'
  · rw [hother k (hk c).symm]
    exact h.unused k hk
  · have := h.cap r c'
    simp only [bumpPosts_apply]
    split
    · next hrc => obtain ⟨rfl, rfl⟩ := hrc; omega
    · omega
  · have := h.made c'
    simp only [bumpPosts_apply]
    split
    · next hrc => obtain ⟨rfl, rfl⟩ := hrc; have := hm rfl; simp only [Role.port] at hp; omega
    · omega

/-- A post runs its handler: its own map has no entry. -/
theorem handle (h : Consistent L G H w N posted) (role : Role) (th : Thread)
    (hd : w.held (role.port c) = some d) (hp : w.posts role c = w.taken (role.port c))
    (hm : role = .src → w.made c = w.taken (.send c) + 1) :
    Consistent L G H { w with posts := bumpPosts w.posts role c }
      (N.handle (L.sender c) th role (L.key c).rank (L.key c).tag d) posted := by
  have hacc := h.meets c
  have hown : (N.meeting (L.meet c)).table role = none := by
    have hans := h.answered role hp
    have hle := hacc.le_posts role
    have hle' := hacc.le
    refine (hacc.none_left ?_).1
    cases role with
    | src => simp only [Role.port] at hans; omega
    | rcv => exact hans.symm
  obtain ⟨hmeet, herr⟩ := handle_meeting N th d hown
  refine h.posting role hp hm rfl (herr.trans h.errors) ?_ fun k hk => handle_meeting_ne N th role d hk
  unfold Layout.meet
  rw [hmeet]
  exact hacc.handle th (L.key c) hown hd

theorem iSendTagMessg (h : Consistent L G H w N posted) (th : Thread) (hd : w.held (.send c) = some d)
    (hp : w.posts .src c = w.taken (.send c)) (hm : w.made c = w.taken (.send c) + 1) :
    Consistent L G H { w with posts := bumpPosts w.posts .src c }
      (N.iSendTagMessg (L.sender c) th (L.receiver c) (L.key c).tag d) posted :=
  h.handle .src th hd hp fun _ => hm

theorem iRecvTagMessg (h : Consistent L G H w N posted) (th : Thread) (hd : w.held (.recv c) = some d)
    (hp : w.posts .rcv c = w.taken (.recv c)) :
    Consistent L G H { w with posts := bumpPosts w.posts .rcv c }
      (N.iRecvTagMessg (L.receiver c) th (L.sender c) (L.key c).tag d) posted := by
  have hkey : (⟨(L.key c).tag, L.receiver c⟩ : Key) = L.key c := rfl
  unfold Net.iRecvTagMessg
  split
  · next hself =>
    have hh := h.handle .rcv th hd hp (by simp)
    rw [hself] at hh ⊢
    exact hh
  · rw [hkey]
    refine h.posting .rcv hp (by simp) rfl h.errors ?_ fun k hk => ?_
    · have hstep := (h.meets c).send hd
      simp only [Net.meeting, Layout.meet, Function.update_self] at hstep ⊢
      exact hstep
    · unfold Net.meeting
      simp only [Meeting.mk.injEq, and_true, true_and]
      exact Function.update_of_ne hk ..

end

/-! ## Waiting and notifying -/

section

variable [DecidableEq Chan] [DecidableEq Q]

/-- A rank finds a notification: what it stands for is there. -/
theorem take (h : Consistent L G H w N posted) (hd : w.held p = some d)
    (hN : N.waitForNotification d = some N') :
    Here H N.memory w.next p d ∧ posted p = w.taken p + 1 ∧
      Consistent L G H { w with taken := bump w.taken p } N' posted := by
  obtain ⟨hf, rfl⟩ := Net.waitForNotification_some hN
  obtain ⟨hhere, hs, hl⟩ := (h.signals.pending p d hd).take hf
  refine ⟨hhere, hs, { h with signals := ?_, cap := fun role c => ?_, made := fun c => ?_, loaded := fun c hm => ?_ }⟩
  · have hnext : ∀ c, p ≠ .recv c → bump w.taken p (.recv c) = w.taken (.recv c) := by
      intro c hne
      rw [bump_apply, if_neg hne.symm, Nat.add_zero]
    refine h.signals.changeFlag hd (.idle ?_ hl rfl) (fun q hq => ⟨rfl, ?_⟩) ?_ ?_
    · simp only [bump_apply, if_true, hs]
    · simp only [bump_apply, if_neg hq, Nat.add_zero]
    · intro q e hqp _ _ op hg
      cases q with
      | send c => exact hg
      | other q => exact hg
      | recv c => simpa only [Good, View.next, hnext c hqp.symm] using hg
    · intro q e hqp _ _ hh
      cases q with
      | send c => exact hh
      | other q => exact hh
      | recv c => simpa only [Here, View.next, hnext c hqp.symm] using hh
  · have := h.cap role c
    simp only [bump_apply]
    omega
  · have := h.made c
    simp only [bump_apply]
    omega
  · have hmade := (h.made c).2
    have hne : ¬ .send c = p := by
      rintro rfl
      simp only [bump_apply, if_true] at hm
      omega
    simp only [bump_apply, if_neg hne, Nat.add_zero] at hm ⊢
    exact h.loaded c hm

/-- An operation is sent to a port with nothing on its way to it. -/
theorem sending (h : Consistent L G H w N posted) (hd : w.held p = some d) (hs : posted p = w.taken p) {op : Op V X}
    (hg : Good G N.memory w.next p d op) :
    Signals BufferDescription.address (Good G N.memory w.next) (Here H N.memory w.next) w.held (bump posted p)
      w.taken (Function.update N.flight d.address (N.flight d.address ++ [op])) N.flag := by
  have hpend := (h.signals.pending p d hd).post hs hg
  refine h.signals.changeFlight hd ?_ (fun q hq => ⟨?_, rfl⟩) (fun _ _ _ _ _ _ hg => hg)
    (fun _ _ _ _ _ hh => hh)
  · rw [bump_apply, if_pos rfl]
    exact hpend
  · rw [bump_apply, if_neg hq, Nat.add_zero]

/-- A rank sends an operation to a notification that is not a channel's. -/
theorem post (h : Consistent L G H w N posted) (hd : w.held (.other q) = some d)
    (hs : w.sent q = w.taken (.other q)) {op : Op V X} (hg : G q op) :
    Consistent L G H { w with sent := bump w.sent q } (N.post d op) (bump posted (.other q)) := by
  have hne : ∀ p : Port Chan Q, p ≠ .other q → bump posted (.other q) p = posted p := by
    intro p hp
    rw [bump_apply, if_neg hp, Nat.add_zero]
  refine { h with
    signals := h.sending hd ((h.sent q).trans hs) hg, meets := fun c => ?_, sent := fun q' => ?_ }
  · rw [hne (.recv c) (by simp), hne (.send c) (by simp)]
    exact h.meets c
  · simp only [bump_apply, h.sent, Port.other.injEq]

end

/-- An operation of a user in flight is on its way to a notification that is not a channel's. -/
theorem user_op (h : Consistent L G H w N posted) {a : Rank × Slot} {before after : List (Op V X)} {x : X}
    (hf : N.flight a = before ++ .user x :: after) :
    ∃ q d, w.held (.other q) = some d ∧ d.address = a ∧ w.sent q = w.taken (.other q) + 1 ∧ G q (.user x) := by
  obtain ⟨p, d, hd, rfl⟩ := h.signals.port_of_flight (a := a) (by rw [hf]; simp)
  obtain ⟨-, -, hs, -, hg⟩ := (h.signals.pending p d hd).single hf
  cases p with
  | send c => cases hg
  | recv c =>
    rcases hg with hg | ⟨hg, -⟩ <;> cases hg
  | other q => exact ⟨q, d, hd, rfl, by rw [← h.sent q, hs], hg⟩

/-- The network moves an operation of a user on, and the user's memory with it. -/
theorem evolve (h : Consistent L G H w N posted) (hd : w.held (.other q) = some d) {before after : List (Op V X)}
    {op op' : Op V X} (hf : N.flight d.address = before ++ op :: after)
    (hG : ∀ q' e, q' ≠ q → w.held (.other q') = some e → w.sent q' = w.taken (.other q') + 1 →
      (∀ op, G q' op → G' q' op) ∧ (H q' → H' q')) (hg : G' q op') :
    Consistent L G' H' w
      { N with flight := Function.update N.flight d.address (before ++ op' :: after) } posted := by
  refine { h with signals := ?_ }
  refine h.signals.changeFlight hd ((h.signals.pending _ d hd).evolve hf hg) (fun p hp => ⟨rfl, rfl⟩) ?_ ?_
  · intro p e hp he hs op hop
    cases p with
    | send c => exact hop
    | recv c => exact hop
    | other q' => exact (hG q' e (fun hq => hp (by rw [hq])) he (by rw [← h.sent q', hs])).1 op hop
  · intro p e hp he hs hh
    cases p with
    | send c => exact hh
    | recv c => exact hh
    | other q' => exact (hG q' e (fun hq => hp (by rw [hq])) he (by rw [← h.sent q', hs])).2 hh

/-! ## What happens by itself -/

/-- A meeting place that holds anything is a channel's. -/
theorem channel_of_meeting (h : Consistent L G H w N posted) {k : Rank × Key} (hk : ¬ (N.meeting k).Idle) :
    ∃ c, L.meet c = k := by
  by_contra hno
  exact hk (h.unused k fun c hc => hno ⟨c, hc⟩)

/-- With a post of the receiver in a message, its map has no entry. -/
theorem table_rcv_none (h : Consistent L G H w N posted) (hm : (N.meeting (L.meet c)).msgs ≠ []) :
    (N.meeting (L.meet c)).table .rcv = none := by
  have hcap := h.cap .rcv c
  have htaken := h.taken_le (.recv c)
  have hr := (h.meets c).posts .rcv
  have hlen : 0 < ((N.meeting (L.meet c)).early .rcv).length := List.length_pos_iff.mpr hm
  simp only [Role.port] at hcap
  cases ht : (N.meeting (L.meet c)).table .rcv with
  | none => rfl
  | some e =>
    rw [ht] at hr
    simp only [Option.toList_some, List.length_singleton] at hr
    omega

/-- The passive thread of the sender receives the receiver's message. -/
theorem deliver (h : Consistent L G H w N posted) {me : Rank} {key : Key} (th : Thread)
    {before after : List BufferDescription} (hm : N.msgs (me, key) = before ++ d :: after) :
    Consistent L G H w
      (Net.handle { N with msgs := Function.update N.msgs (me, key) (before ++ after) } me th .rcv key.rank
        key.tag d) posted := by
  have hne : (N.meeting (me, key)).msgs ≠ [] := by simp [Net.meeting, hm]
  obtain ⟨c, hc⟩ := h.channel_of_meeting fun hi => hne hi.msgs
  rw [← hc] at hne
  obtain ⟨rfl, rfl⟩ := Prod.mk.inj hc
  obtain ⟨hd, posts', hposts, hacc⟩ := (h.meets c).receive hm
  have hmeet : Net.meeting { N with msgs := Function.update N.msgs (L.sender c, L.key c) (before ++ after) }
      (L.sender c, L.key c) = { N.meeting (L.meet c) with msgs := before ++ after } := by
    unfold Net.meeting
    simp only [Function.update_self]
    rfl
  have hsame : ∀ k, k ≠ (L.sender c, L.key c) →
      Net.meeting { N with msgs := Function.update N.msgs (L.sender c, L.key c) (before ++ after) } k =
        N.meeting k := by
    intro k hk
    unfold Net.meeting
    simp only [Function.update_of_ne hk]
  have hown : (Net.meeting { N with msgs := Function.update N.msgs (L.sender c, L.key c) (before ++ after) }
      (L.sender c, L.key c)).table .rcv = none := by
    rw [hmeet]
    exact h.table_rcv_none hne
  obtain ⟨hhandled, herr⟩ := handle_meeting _ th d hown
  refine { h with errors := herr.trans h.errors, meets := fun c' => ?_, unused := fun k hk => ?_ }
  · by_cases hcc : c' = c
    · subst hcc
      have hstep := hacc.handle th (L.key c') (h.table_rcv_none hne) hd
      rw [hposts, ← hmeet, ← hhandled] at hstep
      exact hstep
    · have hk : L.meet c' ≠ (L.sender c, L.key c) := fun he => hcc (L.meet_inj he)
      rw [handle_meeting_ne _ th .rcv d hk, hsame _ hk]
      exact h.meets c'
  · have hk' : k ≠ (L.sender c, L.key c) := (hk c).symm
    rw [handle_meeting_ne _ th .rcv d hk', hsame _ hk']
    exact h.unused k hk

/-- A packet reaches the receive buffer. -/
theorem store (h : Consistent L G H w N posted) (hG : ∀ q b v, ¬ G q (.packet b v)) {a : Rank × Slot}
    {b : Rank × Block} {v : V} {before after : List (Op V X)} (hf : N.flight a = before ++ .packet b v :: after) :
    Consistent L G H w
      { N with
        memory := Function.update N.memory b v
        flight := Function.update N.flight a (before ++ .bare :: after) } posted := by
  obtain ⟨p, d, hd, rfl⟩ := h.signals.port_of_flight (a := a) (by rw [hf]; simp)
  have hpend := h.signals.pending p d hd
  obtain ⟨-, -, -, -, hg⟩ := hpend.single hf
  cases p with
  | send c => cases hg
  | other q => exact absurd hg (hG q b v)
  | recv c =>
    obtain ⟨rfl, rfl⟩ : b = d.place ∧ v = w.next c := by
      rcases hg with hg | ⟨hg, -⟩
      · injection hg with h1 h2; exact ⟨h1, h2⟩
      · cases hg
    have hplace : ∀ (role : Role) c' e, (role.port c' : Port Chan Q) ≠ .recv c → w.held (role.port c') = some e →
        Function.update N.memory d.place (w.next c) e.place = N.memory e.place := by
      intro role c' e hne he
      exact Function.update_of_ne (fun hp => hne (h.place_inj role .rcv he hd hp)) ..
    refine { h with signals := ?_, loaded := fun c' hm => ?_ }
    · refine h.signals.changeFlight hd (hpend.evolve hf (.inr ⟨rfl, Function.update_self ..⟩))
        (fun p hp => ⟨rfl, rfl⟩) ?_ ?_
      · intro p e hp he _ op hop
        cases p with
        | send c' => exact hop
        | other q => exact hop
        | recv c' => simpa only [Good, hplace .rcv c' e hp he] using hop
      · intro p e hp he _ hh
        cases p with
        | send c' => exact hh
        | other q => exact hh
        | recv c' => simpa only [Here, hplace .rcv c' e hp he] using hh
    · obtain ⟨e, he, hmem⟩ := h.loaded c' hm
      exact ⟨e, he, (hplace .src c' e (by rintro ⟨⟩) he).trans hmem⟩

/-- A notification arrives. -/
theorem arrive (h : Consistent L G H w N posted) (hH : ∀ q, G q .bare → H q) {a : Rank × Slot}
    {before after : List (Op V X)} (hf : N.flight a = before ++ .bare :: after) :
    Consistent L G H w
      { N with
        flag := Function.update N.flag a true
        flight := Function.update N.flight a (before ++ after) } posted := by
  obtain ⟨p, d, hd, rfl⟩ := h.signals.port_of_flight (a := a) (by rw [hf]; simp)
  have hpend := h.signals.pending p d hd
  obtain ⟨-, -, -, -, hg⟩ := hpend.single hf
  have hhere : Here H N.memory w.next p d := by
    cases p with
    | send c => trivial
    | other q => exact hH q hg
    | recv c =>
      rcases hg with hg | ⟨-, hg⟩
      · cases hg
      · exact hg
  refine { h with signals := ?_ }
  exact h.signals.change hd (hpend.arrive hf hhere) (fun p hp => ⟨rfl, rfl⟩) (fun _ _ _ _ _ _ hg => hg)
    (fun _ _ _ _ _ hh => hh)

section

variable [DecidableEq Chan] [DecidableEq Q]

/-- One transfer more is written, or one source more notified, at the meeting place of `c`. -/
theorem moved (h : Consistent L G H w N posted) (role : Role) {flight : Rank × Slot → List (Op V X)}
    {inHand : Rank × Key → List (Thread × Transfer BufferDescription)}
    {written : Rank × Key → List (Thread × BufferDescription)}
    (hN : N' = { N with flight := flight, inHand := inHand, written := written })
    (hsig : Signals BufferDescription.address (Good G N.memory w.next) (Here H N.memory w.next) w.held
      (bump posted (role.port c)) w.taken flight N.flag)
    (hmeet : (N'.meeting (L.meet c)).Accounts (fun r => w.held (r.port c)) (fun r => w.posts r c)
      (bump posted (role.port c) (.recv c)) (bump posted (role.port c) (.send c)))
    (hother : ∀ k, k ≠ L.meet c → N'.meeting k = N.meeting k) :
    Consistent L G H w N' (bump posted (role.port c)) := by
  subst hN
  refine { h with signals := hsig, meets := fun c' => ?_, unused := fun k hk => ?_, sent := fun q => ?_ }
  · by_cases hc : c' = c
    · subst hc; exact hmeet
    · have hne : ∀ r : Role, bump posted (role.port c) (r.port c' : Port Chan Q) = posted (r.port c') := by
        intro r
        rw [bump_apply, if_neg fun hp => hc (port_inj r role hp).2, Nat.add_zero]
      rw [hother _ fun hk => hc (L.meet_inj hk)]
      have hs : bump posted (role.port c) (.send c' : Port Chan Q) = posted (.send c') := hne .src
      have hr : bump posted (role.port c) (.recv c' : Port Chan Q) = posted (.recv c') := hne .rcv
      rw [hs, hr]
      exact h.meets c'
  · rw [hother k (hk c).symm]
    exact h.unused k hk
  · rw [bump_apply, if_neg (port_ne_other role c q).symm, Nat.add_zero]
    exact h.sent q

/-- A thread writes the packet of the transfer it has in hand. -/
theorem iSendRecvComm (h : Consistent L G H w N posted) {k : Rank × Key} {th : Thread}
    {t : Transfer BufferDescription} {before after : List (Thread × Transfer BufferDescription)}
    (hm : N.inHand k = before ++ (th, t) :: after) :
    ∃ posted', Consistent L G H w
      (Net.iSendRecvComm { N with inHand := Function.update N.inHand k (before ++ after) } k th t) posted' := by
  obtain ⟨c, rfl⟩ := h.channel_of_meeting (k := k) fun hi => by
    have hnil : N.inHand k = [] := hi.inHand
    rw [hm] at hnil
    simp at hnil
  obtain ⟨hdesc, hacc⟩ := (h.meets c).write hm
  have hsrc : w.held (.send c) = some (t.desc .src) := hdesc .src
  have hrcv : w.held (.recv c) = some (t.desc .rcv) := hdesc .rcv
  -- both posts of this packet are made, and neither was answered before
  have hlen : 0 < (N.meeting (L.meet c)).inHand.length := by
    have hin : (N.meeting (L.meet c)).inHand = before ++ (th, t) :: after := hm
    rw [hin, List.length_append, List.length_cons]
    omega
  have hps := (h.meets c).posts .src
  have hpr := (h.meets c).posts .rcv
  have hcs := h.cap .src c
  have hcr := h.cap .rcv c
  have hts := h.taken_le (.send c)
  have htr := h.taken_le (.recv c)
  have hle := (h.meets c).le
  have hmd := h.made c
  simp only [Role.port] at hcs hcr
  obtain ⟨e, he, hload⟩ := h.loaded c (by omega)
  rw [hsrc] at he
  obtain rfl := Option.some.inj he
  have hmem : N.memory (L.sender c, (t.desc .src).block) = w.next c := by
    have hplace : (t.desc .src).place = (L.sender c, (t.desc .src).block) :=
      Prod.ext (h.rank _ _ hsrc) rfl
    rw [← hplace, hload, View.next]
    congr 1
    omega
  have hw : write (t.desc .src) (t.desc .rcv)
      (.packet (t.desc .rcv).place (N.memory (L.sender c, (t.desc .src).block))) =
      (.ok (.packet (t.desc .rcv).place (w.next c)) : Except String (Op V X)) := by
    rw [hmem]
    refine write_of_le ?_ ?_
    · rw [h.size .src c _ hsrc, h.size .rcv c _ hrcv]
    · rw [h.size .src c _ hsrc]; exact L.size_pos
  refine ⟨bump posted (.recv c), ?_⟩
  unfold Net.iSendRecvComm
  simp only [Layout.meet] at hw ⊢
  rw [hw]
  refine h.moved .rcv rfl (h.sending hrcv (by omega) (.inl rfl)) ?_ fun k hk => ?_
  · simp only [Role.port, bump_apply, if_true, reduceCtorEq, if_false, Nat.add_zero]
    simp only [Net.meeting, Net.post, Layout.meet, Function.update_self] at hacc ⊢
    exact hacc
  · unfold Layout.meet at hk
    simp only [Net.meeting, Net.post, Function.update_of_ne hk]

/-- A thread notifies the source of the transfer it has written. -/
theorem notify (h : Consistent L G H w N posted) {k : Rank × Key} {th : Thread}
    {before after : List (Thread × BufferDescription)} (hm : N.written k = before ++ (th, d) :: after) :
    ∃ posted', Consistent L G H w
      (Net.notify { N with written := Function.update N.written k (before ++ after) } d) posted' := by
  obtain ⟨c, rfl⟩ := h.channel_of_meeting (k := k) fun hi => by
    have hnil : N.written k = [] := hi.written
    rw [hm] at hnil
    simp at hnil
  obtain ⟨hsrc, hacc⟩ := (h.meets c).notify hm
  have hlen : 0 < (N.meeting (L.meet c)).written.length := by
    have hin : (N.meeting (L.meet c)).written = before ++ (th, d) :: after := hm
    rw [hin, List.length_append, List.length_cons]
    omega
  have hps := (h.meets c).le_posts .src
  have hww := (h.meets c).writes
  have hcs := h.cap .src c
  have hts := h.taken_le (.send c)
  simp only [Role.port] at hcs hsrc
  refine ⟨bump posted (.send c), h.moved .src rfl (h.sending hsrc (by omega) rfl) ?_ fun k hk => ?_⟩
  · simp only [Role.port, bump_apply, if_true, reduceCtorEq, if_false, Nat.add_zero]
    simp only [Net.meeting, Net.notify, Net.post, Function.update_self] at hacc ⊢
    exact hacc
  · simp only [Net.meeting, Net.notify, Net.post, Function.update_of_ne hk]

/-- **Whatever happens by itself keeps the net consistent with what the programs know.** -/
theorem step (h : Consistent L G H w N posted) (hG : ∀ q b v, ¬ G q (.packet b v)) (hH : ∀ q, G q .bare → H q)
    {passive : Thread} (hs : Net.Step passive N N') : ∃ posted', Consistent L G H w N' posted' := by
  cases hs with
  | deliver me key d before after hm _ => exact ⟨posted, h.deliver passive hm⟩
  | write k th t before after hm => exact h.iSendRecvComm hm
  | notify k th d before after hm => exact h.notify hm
  | store a b v before after hf => exact ⟨posted, h.store hG hf⟩
  | arrive a before after hf => exact ⟨posted, h.arrive hH hf⟩

end

end Consistent

end GaspiCxx.Passive
