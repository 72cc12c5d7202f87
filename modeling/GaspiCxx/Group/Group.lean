import GaspiCxx.Collectives.Exchange.Model

/-!
# Groups (`group/Group`)

Every process constructs a group from the same list of global ranks, and its place
in the list is its `Rank`. Both kinds of rank are `unsigned short`. A place always
fits, as a list without duplicates has at most `2^16` entries. The size does not
fit if the list has all of them, and `contains_rank` cuts it to zero.

**`groups_agree`**: all members number the group in the same way, from zero on and
each by its own rank, and the conversions between the two kinds of rank are inverse
to each other; in the group of all processes they change nothing.
-/

namespace GaspiCxx.GroupMembers

abbrev GlobalRank := UInt16

/-- `Rank::Type`. -/
abbrev Rank := UInt16

structure Group where
  group : List GlobalRank
  /-- `_group_rank`. -/
  rank : Rank
  nodup : group.Nodup
  rank_lt : rank.toNat < group.length

/-! ## Places -/

section

variable {l : List GlobalRank} {g g' : GlobalRank} {r : Rank}

/-- A list without duplicates has every `unsigned short` at most once. -/
theorem length_le (h : l.Nodup) : l.length ≤ 2 ^ 16 := by
  have hnodup : (l.map UInt16.toNat).Nodup := h.map fun _ _ => UInt16.toNat_inj.mp
  have hsubset : l.map UInt16.toNat ⊆ List.range (2 ^ 16) := fun k hk => by
    obtain ⟨g, -, rfl⟩ := List.mem_map.mp hk
    exact List.mem_range.mpr g.toNat_lt
  simpa using (List.subperm_of_subset hnodup hsubset).length_le

/-- `Rank(std::distance(begin, std::find(begin, end, global_rank)))`. -/
def distance (l : List GlobalRank) (global_rank : GlobalRank) : Rank := UInt16.ofNat (l.idxOf global_rank)

theorem distance_toNat (h : l.Nodup) (hg : g ∈ l) : (distance l g).toNat = l.idxOf g := by
  have hlt := List.idxOf_lt_length_of_mem hg
  have hle := length_le h
  exact UInt16.toNat_ofNat_of_lt' (by show l.idxOf g < 2 ^ 16; omega)

theorem distance_eq_iff (h : l.Nodup) (hg : g ∈ l) : distance l g = r ↔ l[r.toNat]? = some g := by
  rw [← UInt16.toNat_inj, distance_toNat h hg]
  constructor
  · rintro he
    rw [← he]
    exact List.getElem?_idxOf hg
  · intro hr
    obtain ⟨hlt, rfl⟩ := List.getElem?_eq_some_iff.mp hr
    exact h.idxOf_getElem _ hlt

end

namespace Group

/-- `Group(group_ranks)` in the process `global_rank`, with the texts after `CODE_ORIGIN`. -/
def construct (group_ranks : List GlobalRank) (global_rank : GlobalRank) : Except String Group :=
  if group_ranks.length = 0 then .error "Cannot create empty group"
  else if unique : group_ranks.dedup.length ≠ group_ranks.length then
    .error "Cannot create group containing duplicated ranks"
  else if found : group_ranks.idxOf global_rank = group_ranks.length then
    .error "Current rank does not belong to group"
  else
    have nodup : group_ranks.Nodup :=
      List.dedup_eq_self.mp ((List.dedup_sublist _).eq_of_length (not_not.mp unique))
    have member : global_rank ∈ group_ranks := not_not.mp (mt List.idxOf_eq_length_iff.mpr found)
    .ok {
      group := group_ranks
      rank := distance group_ranks global_rank
      nodup := nodup
      rank_lt := distance_toNat nodup member ▸ List.idxOf_lt_length_of_mem member }

/-- `detail::generate_group_all`, for `Group()`. -/
def generate_group_all (nProc : UInt16) : List GlobalRank := (List.range nProc.toNat).map UInt16.ofNat

variable (G : Group)

def size : Nat := G.group.length

def global_rank : GlobalRank := G.group.get ⟨G.rank.toNat, G.rank_lt⟩

def contains_rank (rank : Rank) : Bool := rank < UInt16.ofNat G.size

def contains_global_rank (global_rank : GlobalRank) : Bool := G.group.idxOf global_rank != G.group.length

def toGlobalRank (group_rank : Rank) : Except String GlobalRank :=
  if invalid : G.size ≤ group_rank.toNat then
    .error ("Invalid group GlobalRank " ++ toString group_rank ++ ". Allowed range [0," ++ toString G.size ++ ")!")
  else .ok (G.group.get ⟨group_rank.toNat, Nat.lt_of_not_le invalid⟩)

def toGroupRank (global_rank : GlobalRank) : Except String Rank :=
  if G.group.idxOf global_rank ≠ G.group.length then .ok (distance G.group global_rank)
  else .error ("Global GlobalRank " ++ toString global_rank ++ " not part of group!")

/-! ## What the calls return -/

variable {G} {H : Group} {ranks : List GlobalRank} {p q g : GlobalRank} {r : Rank}

theorem construct_eq_ok_iff : construct ranks p = .ok G ↔
    p ∈ ranks ∧ G.group = ranks ∧ G.rank = distance ranks p := by
  unfold construct
  constructor
  · intro h
    split at h
    · cases h
    · split at h
      · cases h
      · split at h
        · cases h
        · next found =>
          obtain rfl := Except.ok.inj h
          exact ⟨not_not.mp (mt List.idxOf_eq_length_iff.mpr found), rfl, rfl⟩
  · obtain ⟨group, rank, nodup, rank_lt⟩ := G
    rintro ⟨hp, hgroup, hrank⟩
    obtain rfl : group = ranks := hgroup
    obtain rfl : rank = distance group p := hrank
    rw [if_neg (List.length_pos_of_mem hp).ne', dif_neg (by simp [nodup.dedup]),
      dif_neg (List.idxOf_lt_length_of_mem hp).ne]

theorem construct_ok_iff : (∃ G, construct ranks p = .ok G) ↔ ranks.Nodup ∧ p ∈ ranks := by
  constructor
  · rintro ⟨G, h⟩
    obtain ⟨hp, rfl, -⟩ := construct_eq_ok_iff.mp h
    exact ⟨G.nodup, hp⟩
  · rintro ⟨hn, hp⟩
    exact ⟨⟨ranks, distance ranks p, hn, distance_toNat hn hp ▸ List.idxOf_lt_length_of_mem hp⟩,
      construct_eq_ok_iff.mpr ⟨hp, rfl, rfl⟩⟩

theorem toGlobalRank_eq_ok_iff : G.toGlobalRank r = .ok g ↔ G.group[r.toNat]? = some g := by
  unfold toGlobalRank
  split
  · next invalid => simp [List.getElem?_eq_none (show G.group.length ≤ r.toNat from invalid)]
  · next valid =>
    rw [List.getElem?_eq_getElem (Nat.lt_of_not_le valid), Except.ok.injEq, Option.some.injEq]
    rfl

theorem toGroupRank_of_mem (hg : g ∈ G.group) : G.toGroupRank g = .ok (distance G.group g) :=
  if_pos (List.idxOf_lt_length_of_mem hg).ne

theorem mem_of_toGroupRank (h : G.toGroupRank g = .ok r) : g ∈ G.group := by
  unfold toGroupRank at h
  split at h
  · next found => exact not_not.mp (mt List.idxOf_eq_length_iff.mpr found)
  · cases h

theorem toGroupRank_eq_ok_iff : G.toGroupRank g = .ok r ↔ G.group[r.toNat]? = some g := by
  constructor
  · intro h
    have hg := mem_of_toGroupRank h
    rw [toGroupRank_of_mem hg] at h
    exact (distance_eq_iff G.nodup hg).mp (Except.ok.inj h)
  · intro h
    have hg := List.mem_of_getElem? h
    rw [toGroupRank_of_mem hg, (distance_eq_iff G.nodup hg).mpr h]

theorem size_le (G : Group) : G.size ≤ 2 ^ 16 := length_le G.nodup

theorem toGlobalRank_ok_iff : (∃ g, G.toGlobalRank r = .ok g) ↔ r.toNat < G.size := by
  simp only [toGlobalRank_eq_ok_iff, List.getElem?_eq_some_iff]
  exact ⟨fun ⟨_, hlt, _⟩ => hlt, fun hlt => ⟨_, hlt, rfl⟩⟩

theorem contains_global_rank_iff : G.contains_global_rank g = true ↔ g ∈ G.group := by
  unfold contains_global_rank
  rw [bne_iff_ne, ne_eq, List.idxOf_eq_length_iff, not_not]

/-- The size is cut to 16 bits. -/
theorem contains_rank_iff : G.contains_rank r = true ↔ r.toNat < G.size ∧ G.size < 2 ^ 16 := by
  unfold contains_rank
  rw [decide_eq_true_iff, UInt16.lt_iff_toNat_lt, UInt16.toNat_ofNat']
  have hle := G.size_le
  rcases Nat.lt_or_ge G.size (2 ^ 16) with hlt | hge
  · rw [Nat.mod_eq_of_lt hlt]
    exact (and_iff_left hlt).symm
  · obtain he : G.size = 2 ^ 16 := Nat.le_antisymm hle hge
    rw [he]
    simp

end Group

/-! ## All members -/

section

open GaspiCxx.GroupMembers.Group

variable {ranks : List GlobalRank} {p q g : GlobalRank} {G H : Group} {r : Rank}

theorem rank_getElem (h : construct ranks p = .ok G) : ranks[G.rank.toNat]? = some p := by
  obtain ⟨hp, rfl, hr⟩ := construct_eq_ok_iff.mp h
  exact (distance_eq_iff G.nodup hp).mp hr.symm

/-- The list counts the processes. -/
theorem all_getElem {nProc : UInt16} : (generate_group_all nProc)[r.toNat]? = some g ↔ r = g ∧ r < nProc := by
  unfold generate_group_all
  rw [List.getElem?_map, Option.map_eq_some_iff, UInt16.lt_iff_toNat_lt]
  constructor
  · rintro ⟨k, hk, rfl⟩
    obtain ⟨hlt, rfl⟩ := List.getElem?_eq_some_iff.mp hk
    rw [List.getElem_range, UInt16.ofNat_toNat]
    exact ⟨rfl, by simpa using hlt⟩
  · rintro ⟨rfl, hlt⟩
    exact ⟨r.toNat, List.getElem?_range hlt, UInt16.ofNat_toNat⟩

theorem all_nodup (nProc : UInt16) : (generate_group_all nProc).Nodup := by
  refine List.Nodup.map_on (fun j hj k hk he => ?_) List.nodup_range
  have hn := nProc.toNat_lt
  have hj := List.mem_range.mp hj
  have hk := List.mem_range.mp hk
  have hmod := congrArg UInt16.toNat he
  rwa [UInt16.toNat_ofNat_of_lt' (by show j < 2 ^ 16; omega),
    UInt16.toNat_ofNat_of_lt' (by show k < 2 ^ 16; omega)] at hmod

/-- In the group of all processes a rank is its global rank. -/
theorem construct_all {nProc : UInt16} (hp : p < nProc) :
    ∃ G, construct (generate_group_all nProc) p = .ok G ∧ G.rank = p ∧
      ∀ r, r < nProc → G.toGlobalRank r = .ok r ∧ G.toGroupRank r = .ok r := by
  obtain ⟨G, h⟩ := construct_ok_iff.mpr ⟨all_nodup nProc, List.mem_of_getElem? (all_getElem.mpr ⟨rfl, hp⟩)⟩
  have hrank := all_getElem.mp (rank_getElem h)
  obtain ⟨-, hgroup, -⟩ := construct_eq_ok_iff.mp h
  refine ⟨G, h, hrank.1, fun r hr => ?_⟩
  have hself : G.group[r.toNat]? = some r := hgroup ▸ all_getElem.mpr ⟨rfl, hr⟩
  exact ⟨toGlobalRank_eq_ok_iff.mpr hself, toGroupRank_eq_ok_iff.mpr hself⟩

/-- The group as the exchanging collectives have it. -/
def Group.members (G : Group) : Collectives.Exchange.Group G.size where
  toGlobalRank i := (G.group.get i).toNat
  inj p q h := by
    have hget : G.group.get p = G.group.get q := UInt16.toNat_inj.mp (Int.ofNat_inj.mp h)
    exact List.nodup_iff_injective_get.mp G.nodup hget

theorem members_toGlobalRank (i : Fin G.size) :
    ∃ g, G.toGlobalRank (UInt16.ofNat i) = .ok g ∧ G.members.toGlobalRank i = g.toNat := by
  have hlt : i.val < 2 ^ 16 := Nat.lt_of_lt_of_le i.isLt G.size_le
  refine ⟨G.group.get i, toGlobalRank_eq_ok_iff.mpr ?_, rfl⟩
  rw [UInt16.toNat_ofNat_of_lt' hlt]
  exact List.getElem?_eq_getElem i.isLt

/-- What the groups that are constructed from `ranks` in all processes have to do with each other. -/
structure Agreed (ranks : List GlobalRank) : Prop where
  constructs : ∀ p, (∃ G, construct ranks p = .ok G) ↔ ranks.Nodup ∧ p ∈ ranks
  own : ∀ p G, construct ranks p = .ok G → G.group = ranks ∧ G.global_rank = p ∧ G.toGroupRank p = .ok G.rank
  /-- Each member knows each by the rank that the other has for itself. -/
  same : ∀ p q G H, construct ranks p = .ok G → construct ranks q = .ok H →
    G.toGroupRank q = .ok H.rank ∧ G.toGlobalRank H.rank = .ok q ∧ (G.rank = H.rank ↔ p = q)
  numbered : ∀ p G, construct ranks p = .ok G → ∀ r,
    r.toNat < G.size ↔ ∃ q H, construct ranks q = .ok H ∧ H.rank = r
  /-- The conversions are inverse to each other and throw for all others. -/
  inverse : ∀ p G, construct ranks p = .ok G → ∀ r g, G.toGlobalRank r = .ok g ↔ G.toGroupRank g = .ok r
  contains_global_rank : ∀ p G, construct ranks p = .ok G → ∀ g,
    G.contains_global_rank g = true ↔ ∃ r, G.toGroupRank g = .ok r
  contains_rank : ∀ p G, construct ranks p = .ok G → ∀ r,
    G.contains_rank r = true ↔ (∃ g, G.toGlobalRank r = .ok g) ∧ G.size < 2 ^ 16
  /-- `Group()`: each rank is its global rank. -/
  all : ∀ nProc, ranks = generate_group_all nProc → ∀ p, p < nProc →
    ∃ G, construct ranks p = .ok G ∧ G.rank = p ∧ ∀ r, r < nProc → G.toGlobalRank r = .ok r ∧ G.toGroupRank r = .ok r
  /-- Where the exchanging collectives send what is meant for a member. -/
  members : ∀ p G, construct ranks p = .ok G → ∀ i : Fin G.size,
    ∃ g, G.toGlobalRank (UInt16.ofNat i) = .ok g ∧ G.members.toGlobalRank i = g.toNat

/-- **All members of a group agree about its ranks.** -/
theorem groups_agree (ranks : List GlobalRank) : Agreed ranks where
  constructs _ := construct_ok_iff
  own p G h := by
    obtain ⟨hp, rfl, hr⟩ := construct_eq_ok_iff.mp h
    obtain ⟨hlt, he⟩ := List.getElem?_eq_some_iff.mp (rank_getElem h)
    exact ⟨rfl, he, hr ▸ toGroupRank_of_mem hp⟩
  same p q G H h h' := by
    have hp := rank_getElem h
    have hq := rank_getElem h'
    obtain ⟨-, rfl, -⟩ := construct_eq_ok_iff.mp h
    refine ⟨toGroupRank_eq_ok_iff.mpr hq, toGlobalRank_eq_ok_iff.mpr hq, fun he => ?_, ?_⟩
    · rw [he, hq] at hp
      exact (Option.some.inj hp).symm
    · rintro rfl
      obtain rfl := Except.ok.inj (h.symm.trans h')
      rfl
  numbered p G h r := by
    obtain ⟨-, rfl, -⟩ := construct_eq_ok_iff.mp h
    rw [← toGlobalRank_ok_iff]
    constructor
    · rintro ⟨q, hq⟩
      have hr := toGlobalRank_eq_ok_iff.mp hq
      obtain ⟨H, hH⟩ := construct_ok_iff.mpr ⟨G.nodup, List.mem_of_getElem? hr⟩
      obtain ⟨hmem, -, hrank⟩ := construct_eq_ok_iff.mp hH
      exact ⟨q, H, hH, hrank.trans ((distance_eq_iff G.nodup hmem).mpr hr)⟩
    · rintro ⟨q, H, hH, rfl⟩
      exact ⟨q, toGlobalRank_eq_ok_iff.mpr (rank_getElem hH)⟩
  inverse _ _ _ _ _ := toGlobalRank_eq_ok_iff.trans toGroupRank_eq_ok_iff.symm
  contains_global_rank p G _ g := by
    rw [contains_global_rank_iff]
    exact ⟨fun hg => ⟨_, toGroupRank_of_mem hg⟩, fun ⟨_, h⟩ => mem_of_toGroupRank h⟩
  contains_rank _ _ _ _ := by
    rw [contains_rank_iff, toGlobalRank_ok_iff]
  all _ hall _ hp := hall ▸ construct_all hp
  members _ _ _ := members_toGlobalRank

end

end GaspiCxx.GroupMembers
