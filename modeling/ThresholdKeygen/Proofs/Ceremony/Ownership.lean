import ThresholdKeygen.Proofs.Ceremony.Weighted
import ThresholdKeygen.Proofs.WeightedParty.BlamedSlots

/-!
# Owners of keys

The keys of a weighted ceremony are divided among its parties, and no ceremony starts in which a key
has no owner or two of them. Main statement: `keys_partitioned`, on the division of the keys, on the
validation of parties with any sets of keys, and on the owners in a ceremony that has started.
-/

namespace ThresholdKeygen

variable {K : Type} [Suite K] {σ : Type}

namespace WeightedParty

/-- That the position of a party and its keys are numbers that messages can show. -/
structure Shown (w : WeightedParty K) : Prop where
  position : isWritable w.position = true
  key : ∀ key ∈ w.keys, isWritable key = true

/-- The position of a party and whatever keys it has been given are indices of slots. -/
theorem Reachable.shown {w : WeightedParty K} (h : w.Reachable) : w.Shown where
  position := by
    induction h with
    | @created parties core w hcore h =>
      have hposition : core.position ∈ upTo core.n :=
        mem_upTo.2 ((mem_upTo.1 hcore.position_mem).imp_right (le_trans · hcore.dealers_le))
      rw [create] at h
      split at h
      · cases h
      · obtain rfl := Except.ok.inj h
        exact isWritable_of_mem_upTo hcore.sound.n_lt hposition
    | @performed _ _ source operation w h ih =>
      rwa [h.settled.position_eq_of_run (.single (.perform source operation w))]
  key key hkey := isWritable_of_mem_upTo h.settled.core.n_lt (h.settled.slots key hkey)

end WeightedParty

namespace Weighted

open WeightedParty

section Members

omit [Suite K]

/-- Parties without keys are given those of their ranges, and are then accepted. -/
theorem exists_assigned {parties keys : Int} (hparties : 1 ≤ parties) (hkeys : parties ≤ keys)
    {ranges : Mapping Int (Int × Int)} (hranges : ∀ i ∈ upTo parties, ranges.get? i =
      some (KeyPartition.firstKey parties keys i, KeyPartition.firstKey parties keys (i + 1)))
    {members : List (WeightedParty K)} (hpositions : (members.map position).Perm (upTo parties))
    (hmembers : ∀ w ∈ members, w.core.n = keys ∧ ∀ key, key ∉ w.keys) :
    ∃ assigned, members.mapM (assignRange ranges) = .ok assigned ∧
      validateParties assigned keys = .ok () := by
  have hassign : ∀ (place : Nat) w, members[place]? = some w → ∃ w', assignRange ranges w = .ok w' ∧
      (members[place]?).map position = some w'.position ∧
        ∀ key, key ∈ w'.keys ↔ KeyPartition.Owns parties keys w'.position key := by
    intro place w hplace
    have hw := List.mem_of_getElem? hplace
    have hposition := hpositions.mem_iff.1 (List.mem_map_of_mem hw)
    obtain ⟨hn, hnone⟩ := hmembers w hw
    obtain ⟨owned, slotStages, hassign, howned, -⟩ :=
      exists_assignRange (hranges _ hposition) fun key hkey => by
        rw [hn]
        exact KeyPartition.Owns.mem_upTo hparties hkeys (KeyPartition.mem_keysOfRange.1 hkey)
          hposition
    refine ⟨_, hassign, by rw [hplace]; rfl, fun key => ?_⟩
    rw [howned, KeyPartition.mem_keysOfRange, or_iff_right (hnone key)]
    rfl
  obtain ⟨assigned, hmapM, hlength, hassigned⟩ := exists_mapM_eq_ok hassign
  have hsame : assigned.map position = members.map position := by
    refine List.ext_getElem? fun place => ?_
    rw [List.getElem?_map, List.getElem?_map]
    cases hplace : assigned[place]? with
    | some w => exact (hassigned place w hplace).1.symm
    | none =>
      rw [List.getElem?_eq_none_iff, hlength] at hplace
      rw [List.getElem?_eq_none hplace]
  refine ⟨assigned, hmapM, KeyPartition.validate_of_owns hparties hkeys ?_ fun owner howner => ?_⟩
  · rw [List.map_map]
    exact hsame ▸ hpositions
  · obtain ⟨w, hw, rfl⟩ := List.mem_map.1 howner
    obtain ⟨place, hplace⟩ := List.mem_iff_getElem?.1 hw
    exact (hassigned place w hplace).2

/-- What the validation of any parties comes to. -/
structure Validated (parties : List (WeightedParty K)) (keys : Int) : Prop where
  accepted : validateParties parties keys = .ok () ↔
    (parties.Pairwise fun v w => ∀ key ∈ v.keys, key ∉ w.keys) ∧
      ∀ key ∈ upTo keys, ∃ w ∈ parties, key ∈ w.keys
  verdict : KeyPartition.Verdict (parties.map fun w => (w.position, w.keys)) keys
    (validateParties parties keys)
  refused (hshown : ∀ w ∈ parties, w.Shown) (h : validateParties parties keys ≠ .ok ()) :
    ∃ fault, validateParties parties keys = .error (.configuration fault)

theorem validateParties_eq_ok_iff {parties : List (WeightedParty K)} {keys : Int} :
    validateParties parties keys = .ok () ↔
      (parties.Pairwise fun v w => ∀ key ∈ v.keys, key ∉ w.keys) ∧
        ∀ key ∈ upTo keys, ∃ w ∈ parties, key ∈ w.keys := by
  rw [validateParties, KeyPartition.validate_eq_ok_iff, List.pairwise_map]
  simp only [List.mem_map, exists_exists_and_eq_and]

theorem validated (parties : List (WeightedParty K)) (keys : Int) : Validated parties keys where
  accepted := validateParties_eq_ok_iff
  verdict := KeyPartition.verdict_validate _ keys
  refused hshown h := by
    have hverdict := KeyPartition.verdict_validate (parties.map fun w => (w.position, w.keys)) keys
    rw [← validateParties] at hverdict
    generalize validateParties parties keys = outcome at h hverdict
    cases hverdict with
    | valid => exact absurd rfl h
    | uncovered => exact ⟨_, rfl⟩
    | @twice first second key hparties hfirst =>
      obtain ⟨v, hv, rfl⟩ := List.mem_map.1 (hparties.subset (.head _))
      obtain ⟨w, hw, rfl⟩ := List.mem_map.1 (hparties.subset (.tail _ (.head _)))
      refine ⟨.keyOwnedTwice key v.position w.position, ?_⟩
      rw [Error.parameters_eq, if_pos]
      simp [ConfigurationFault.numbers, (hshown v hv).key key hfirst, (hshown v hv).position,
        (hshown w hw).position]

/-- The only party with a key is its owner. -/
theorem filter_owner_eq {members : List (WeightedParty K)}
    (hdisjoint : members.Pairwise fun v w => ∀ key ∈ v.keys, key ∉ w.keys) {w : WeightedParty K}
    (hw : w ∈ members) {key : Int} (hkey : key ∈ w.keys) :
    (members.filter fun v => key ∈ v.keys) = [w] := by
  obtain ⟨before, after, rfl⟩ := List.append_of_mem hw
  obtain ⟨-, hafter, hbefore⟩ := List.pairwise_append.1 hdisjoint
  have hnone : (before.filter fun v => key ∈ v.keys) = [] := by
    rw [List.filter_eq_nil_iff]
    intro v hv hkey'
    exact hbefore v hv w (.head _) key (of_decide_eq_true hkey') hkey
  have hnone' : (after.filter fun v => key ∈ v.keys) = [] := by
    rw [List.filter_eq_nil_iff]
    intro v hv hkey'
    exact (List.pairwise_cons.1 hafter).1 v hv key hkey (of_decide_eq_true hkey')
  rw [List.filter_append, hnone, List.filter_cons, if_pos (decide_eq_true hkey), hnone']
  rfl

end Members

/-- In a ceremony that has started, every key has exactly one owner. -/
theorem delivers_ownerOf [RandomSource σ] (config : Config) :
    Delivers (start config : ExceptT Error (StateM σ) (Ceremony (WeightedParty K))) fun c =>
      ∀ key ∈ upTo config.shareIndices, ∃ w, ownerOf c key = .ok w ∧
        (c.members.filter fun v => key ∈ v.keys) = [w] := by
  rw [start]
  split
  · exact .refused
  · refine .bind (.any fun parties => .bind (.steady fun counts _ => ?_))
    refine .bind (.steady fun members _ => .bind (.steady fun _ hvalid => .pure ?_))
    obtain ⟨hdisjoint, hcover⟩ := validateParties_eq_ok_iff.1 hvalid
    intro key hkey
    obtain ⟨w, hw, hmem⟩ := hcover key hkey
    have howner := filter_owner_eq hdisjoint hw hmem
    refine ⟨w, ?_, howner⟩
    rw [ownerOf, ← List.head?_filter, howner]
    rfl

/-- The ranges of the parties divide the keys evenly, and parties that are given their ranges are
accepted; any parties are accepted when their keys are disjoint and cover all keys, and refused as a
wrong configuration otherwise, whatever keys they have been assigned; in a ceremony that has
started, every key has exactly one owner. -/
theorem keys_partitioned [RandomSource σ] :
    (∀ parties keys : Int, 1 ≤ parties → parties ≤ keys → ∃ counts,
      KeyPartition.counts parties keys = .ok counts ∧
      KeyPartition.Divides parties keys (KeyPartition.ranges counts) ∧
      ∀ members : List (WeightedParty K), (members.map position).Perm (upTo parties) →
        (∀ w ∈ members, w.core.n = keys ∧ ∀ key, key ∉ w.keys) → ∃ assigned,
          members.mapM (assignRange (KeyPartition.ranges counts)) = .ok assigned ∧
            validateParties assigned keys = .ok ()) ∧
    (∀ (parties : List (WeightedParty K)) (keys : Int), Validated parties keys) ∧
    (∀ w : WeightedParty K, w.Reachable → w.Shown) ∧
    ∀ (config : Config) (source : σ) (c : Ceremony (WeightedParty K)),
      ((start config).run.run source).1 = .ok c → ∀ key ∈ upTo config.shareIndices,
        ∃ w, ownerOf c key = .ok w ∧ (c.members.filter fun v => key ∈ v.keys) = [w] := by
  refine ⟨fun parties keys hparties hkeys => ?_, validated, fun _ hw => hw.shown,
    fun config source c hstart => ?_⟩
  · refine ⟨_, KeyPartition.counts_eq hparties hkeys, KeyPartition.divides_ranges hparties hkeys,
      fun members hpositions hmembers => ?_⟩
    exact exists_assigned hparties hkeys (fun i hi => KeyPartition.ranges_get? hparties hi)
      hpositions hmembers
  · exact delivers_ownerOf config source c hstart

/-- A party without keys at one of two positions, with five slots. -/
def vacant (x : Int) : WeightedParty ResidueKey :=
  ⟨2, .newcomer 5 2 1 x (.bytes []) [1], .empty, .empty, .empty, .empty⟩

theorem reachable_vacant {x : Int} (hx : x = 1 ∨ x = 2) : (vacant x).Reachable := by
  have hcore : (vacant x).core.Reachable := by
    refine .created (Tape.new [[1]] [] "") 5 1 x (some 2) (.bytes []) _ ?_
    rcases hx with rfl | rfl <;> rfl
  exact .created hcore (show create 2 _ = .ok (vacant x) from rfl)

/-- Two parties are given their ranges of five keys, the second one first; two that have both been
assigned the second key are refused; and the last key of a ceremony of the same sizes has an
owner. -/
theorem exists_keys_partitioned :
    (∃ counts assigned, KeyPartition.counts 2 5 = .ok counts ∧
      [vacant 2, vacant 1].mapM (assignRange (KeyPartition.ranges counts)) = .ok assigned ∧
        validateParties assigned 5 = .ok ()) ∧
    (∃ v w : WeightedParty ResidueKey, v.Reachable ∧ w.Reachable ∧ 2 ∈ v.keys ∧
      2 ∈ w.keys ∧ validateParties [v, w] 5 ≠ .ok () ∧
        ∃ fault, validateParties [v, w] 5 = .error (.configuration fault)) ∧
    ∃ (config : Config) (c : Ceremony (WeightedParty ResidueKey)),
      ((start config).run.run (Tape.new [] [] "")).1 = .ok c ∧ 5 ∈ upTo config.shareIndices ∧
        ∃ w, ownerOf c 5 = .ok w ∧ (c.members.filter fun v => 5 ∈ v.keys) = [w] := by
  obtain ⟨hdivision, hvalidated, hshown, howners⟩ := keys_partitioned (K := ResidueKey) (σ := Tape)
  obtain ⟨counts, hcounts, -, hassigned⟩ := hdivision 2 5 (by decide) (by decide)
  obtain ⟨assigned, hassign, hvalid⟩ := hassigned [vacant 2, vacant 1] (by decide) (by
    intro w hw
    simp only [List.mem_cons, List.not_mem_nil, or_false] at hw
    rcases hw with rfl | rfl <;> exact ⟨rfl, fun _ => List.not_mem_nil⟩)
  have hv : ((vacant 1).assignKeys [1, 2]).2.Reachable :=
    .performed (Tape.new [] [] "") (.assignKeys [1, 2]) (reachable_vacant (.inl rfl))
  have hw : ((vacant 2).assignKeys [2, 3, 4, 5]).2.Reachable :=
    .performed (Tape.new [] [] "") (.assignKeys [2, 3, 4, 5]) (reachable_vacant (.inr rfl))
  have hoverlap : validateParties [((vacant 1).assignKeys [1, 2]).2,
      ((vacant 2).assignKeys [2, 3, 4, 5]).2] 5 ≠ .ok () := by
    rw [Ne, (hvalidated _ 5).accepted]
    decide
  have hrefused := (hvalidated _ 5).refused
    (List.forall_mem_cons.2 ⟨hshown _ hv, List.forall_mem_singleton.2 (hshown _ hw)⟩) hoverlap
  have hconfig : (⟨2, 3, some 5, .bytes [], .broadcast, none⟩ : Config).Sized := by
    constructor <;> decide
  obtain ⟨c, hstart, -⟩ := succeeds_start (K := ResidueKey) hconfig rfl (Tape.new [] [] "")
  have hkey : 5 ∈ upTo (⟨2, 3, some 5, .bytes [], .broadcast, none⟩ : Config).shareIndices := by
    decide
  exact ⟨⟨counts, assigned, hcounts, hassign, hvalid⟩,
    ⟨_, _, hv, hw, by decide, by decide, hoverlap, hrefused⟩,
    ⟨_, c, hstart, hkey, howners _ _ c hstart 5 hkey⟩⟩

end Weighted

end ThresholdKeygen
