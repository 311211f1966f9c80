import ThresholdKeygen.Ceremony.Weighted
import ThresholdKeygen.Proofs.Ceremony.Exchange
import ThresholdKeygen.Proofs.KeyPartition
import ThresholdKeygen.Proofs.Point.Residues
import ThresholdKeygen.Proofs.WeightedParty

/-!
# Weighted ceremonies among honest parties

A weighted ceremony is followed round by round like a plain one, with the slots of each party beside
its participant. Main statement: `weightedRun_completes`, a ceremony with a feasible configuration
succeeds whatever its parties draw, its key slots are divided among the parties, and each slot ends
with the key material of one sharing.
-/

namespace ThresholdKeygen.Weighted

variable {K : Type} [Suite K] {σ : Type}

open Ceremony WeightedParty

variable {config : Config} {inboxes : Mapping Int Inbox} {s : Sharing}
  {c : Ceremony (WeightedParty K)}

/-! ### States of a run -/

/-- An honest participant that has come to a stage and has the power map. -/
structure Prepared (s : Sharing) (n : Int) (stage : Stage) (x : Int) (p : Participant K) : Prop
    extends p.Honest s n x where
  le_stage : stage ≤ p.stage
  powerMap : p.powerMap.isSome

/-- That a key is in the range of the party at a position. -/
def Owns (config : Config) (x key : Int) : Prop :=
  KeyPartition.Owns config.participants config.shareIndices x key

/-- A party that has the keys of its range. -/
structure Owner (config : Config) (x : Int) (w : WeightedParty K) : Prop where
  parties_eq : w.parties = config.participants
  mem_keys : ∀ key, key ∈ w.keys ↔ Owns config x key

/-- A party none of whose slots has been verified. -/
structure Opened (config : Config) (x : Int) (w : WeightedParty K) : Prop
    extends Owner config x w where
  stage_le : ∀ key, stageAt w.slotStages key ≤ .sharesDistributed

/-- A party that has received shares for the slots that a relation assigns to its position. -/
structure Receiving (config : Config) (s : Sharing) (H : Int → Int → Prop) (x : Int)
    (w : WeightedParty K) : Prop extends Opened config x w where
  dealt : w.core.Dealt s config.shareIndices x
  filled : ∀ key, H x key → Filled s w.inboxes key

/-- A party all of whose slots have the shares of all parties. -/
structure Supplied (config : Config) (s : Sharing) (x : Int) (w : WeightedParty K) : Prop
    extends Owner config x w where
  filled : ∀ key ∈ w.keys, Filled s w.inboxes key

/-- A party all of whose slots have their signing shares. -/
structure Signed (config : Config) (s : Sharing) (x : Int) (w : WeightedParty K) : Prop
    extends Owner config x w where
  signed : ∀ key ∈ w.keys, w.signingShares.get? key = some (s.value key)

/-- What a party has at the end of a run: all that it can know of a sharing, and the signing share
of each of its slots. -/
structure Finished (config : Config) (s : Sharing) (x : Int) (w : WeightedParty K) : Prop
    extends Owner config x w where
  keyed : w.core.Keyed s config.shareIndices x
  signingShareOf_eq : ∀ key ∈ w.keys, w.signingShareOf key = .ok (some (s.value key))
  slotStage_eq : ∀ key ∈ w.keys, w.slotStage key = .ok .groupKeyDerived

theorem owns_mem_upTo (hconfig : config.Sized) {x key : Int} (hx : x ∈ upTo config.participants)
    (h : Owns config x key) : key ∈ upTo config.shareIndices :=
  KeyPartition.Owns.mem_upTo hconfig.one_le_participants hconfig.participants_le h hx

omit [Suite K] in
theorem Owner.mem_upTo (hconfig : config.Sized) {x : Int} {w : WeightedParty K}
    (h : Owner config x w) (hx : x ∈ upTo config.participants) :
    ∀ key ∈ w.keys, key ∈ upTo config.shareIndices :=
  fun key hkey => owns_mem_upTo hconfig hx ((h.mem_keys key).1 hkey)

/-! ### Creation -/

/-- A party that has no keys yet around a newcomer. -/
def Unassigned (config : Config) (t : Nat) (x : Int) (w : WeightedParty K) : Prop :=
  ∃ core : Participant K,
    core.New config.shareIndices config.participants t config.label.toItem x ∧
      w = ⟨config.participants, core, .empty, .empty, .empty, .empty⟩

theorem succeeds_createParty [RandomSource σ] (hconfig : config.Sized) {t : Nat}
    (ht : config.threshold = t) {x : Int} (h₁ : 1 ≤ x) (h₂ : x ≤ config.participants) :
    Succeeds (createParty config x : ExceptT Error (StateM σ) (WeightedParty K))
      (Unassigned config t x) := by
  obtain ⟨hparticipants, hcount, ht₁, ht₂, hslots⟩ := hconfig
  have hcreate : Succeeds (Participant.create config.shareIndices t x (some config.participants)
      config.label.toItem : ExceptT Error (StateM σ) (Participant K)) _ :=
    Participant.succeeds_create (by omega) (by omega) hcount h₁ h₂ (by omega) rfl _
  rw [createParty, ht]
  refine .bind (hcreate.mono fun core hcore => .steady ?_ ⟨core, hcore, rfl⟩)
  obtain ⟨polynomial, -, -, rfl⟩ := hcore
  exact if_neg (not_not.2 rfl)

omit [Suite K] in
/-- A party is given the keys of its range, all of which are slots. -/
theorem exists_assignRange {w : WeightedParty K} {ranges : Mapping Int (Int × Int)}
    {range : Int × Int} (hrange : ranges.get? w.position = some range)
    (hslots : ∀ key ∈ KeyPartition.keysOfRange range, key ∈ upTo w.core.n) :
    ∃ owned slotStages, assignRange ranges w = .ok { w with keys := owned, slotStages } ∧
      (∀ key, key ∈ owned ↔ key ∈ w.keys ∨ key ∈ KeyPartition.keysOfRange range) ∧
      ∀ key, stageAt slotStages key = stageAt w.slotStages key := by
  obtain ⟨owned, slotStages, hassign, howned⟩ := assignKeys_eq w hslots
  refine ⟨owned, slotStages, ?_, howned⟩
  rw [assignRange, hrange]
  simp only
  rw [hassign]

omit [Suite K] in
/-- A party without keys is given those of its range. -/
theorem assignRange_eq (hconfig : config.Sized) {x : Int} (hx : x ∈ upTo config.participants)
    {ranges : Mapping Int (Int × Int)} (hrange : ranges.get? x =
      some (KeyPartition.firstKey config.participants config.shareIndices x,
        KeyPartition.firstKey config.participants config.shareIndices (x + 1)))
    {core : Participant K} (hposition : core.position = x) (hn : core.n = config.shareIndices) :
    ∃ w, assignRange ranges ⟨config.participants, core, .empty, .empty, .empty, .empty⟩ = .ok w ∧
      w.core = core ∧ w.signingShares = .empty ∧ Opened config x w := by
  let w : WeightedParty K := ⟨config.participants, core, .empty, .empty, .empty, .empty⟩
  rw [← hposition] at hrange
  obtain ⟨owned, slotStages, hassign, howned, hstages⟩ :=
    exists_assignRange (w := w) hrange fun key hkey => by
      have howns : Owns config core.position key := KeyPartition.mem_keysOfRange.1 hkey
      exact hn ▸ owns_mem_upTo hconfig (hposition ▸ hx) howns
  refine ⟨{ w with keys := owned, slotStages }, hassign, rfl, rfl, ⟨rfl, fun key => ?_⟩,
    fun key => ?_⟩
  · have hnone : key ∉ w.keys := List.not_mem_nil
    rw [howned, KeyPartition.mem_keysOfRange, or_iff_right hnone, ← hposition]
    rfl
  · rw [hstages]
    exact Nat.zero_le _

section Partition

omit [Suite K]

variable (hconfig : config.Sized) (h : c.Seats config inboxes (Owner config))

include hconfig h

/-- No two parties have a key in common. -/
theorem pairwise_disjoint : c.members.Pairwise fun v w => ∀ key ∈ v.keys, key ∉ w.keys := by
  rw [List.pairwise_iff_getElem]
  intro i j hi hj hij key hkey hkey'
  have howns := (h.seated i _ (List.getElem?_eq_getElem hi)).mem_keys key
  have howns' := (h.seated j _ (List.getElem?_eq_getElem hj)).mem_keys key
  have := KeyPartition.Owns.unique hconfig.one_le_participants hconfig.participants_le
    (howns.1 hkey) (howns'.1 hkey')
  omega

/-- The keys of all parties together are all keys. -/
theorem exists_owner_iff {key : Int} :
    (∃ w ∈ c.members, key ∈ w.keys) ↔ key ∈ upTo config.shareIndices := by
  constructor
  · rintro ⟨w, hw, hkey⟩
    obtain ⟨x, hx, howner⟩ := h.exists_seat hw
    exact howner.mem_upTo hconfig hx key hkey
  · intro hkey
    obtain ⟨x, hx, howns⟩ := KeyPartition.exists_owner hconfig.one_le_participants hkey
    obtain ⟨place, w, rfl, hw⟩ := h.exists_member hx
    exact ⟨w, List.mem_of_getElem? hw, ((h.seated place w hw).mem_keys key).2 howns⟩

theorem validateParties_eq : validateParties c.members config.shareIndices = .ok () := by
  refine KeyPartition.validate_eq_ok_iff.2 ⟨?_, fun key hkey => ?_⟩
  · rw [List.pairwise_map]
    exact pairwise_disjoint hconfig h
  · obtain ⟨w, hw, hmem⟩ := (exists_owner_iff hconfig h).2 hkey
    exact ⟨_, List.mem_map_of_mem hw, hmem⟩

end Partition

/-- How a ceremony starts: the parties are created, the keys are divided among them, and every key
has one owner. -/
theorem start_eq [RandomSource σ] (hweighted : config.weighted = true) {source source' : σ}
    {parties members : List (WeightedParty K)} {counts : Mapping Int Int}
    (hparties : (createFrom (createParty config) config.participants.toNat 1).run.run source =
      (.ok parties, source'))
    (hcounts : KeyPartition.counts config.participants config.shareIndices = .ok counts)
    (hmembers : parties.mapM (assignRange (KeyPartition.ranges counts)) = .ok members)
    (hvalid : validateParties members config.shareIndices = .ok ()) :
    (start config).run.run source = ((.ok ⟨config, members, .empty, []⟩ :
      Except Error (Ceremony (WeightedParty K))), source') := by
  rw [start, hweighted]
  change (createFrom (createParty config) config.participants.toNat 1 >>= _ :
    ExceptT Error (StateM σ) (Ceremony (WeightedParty K))).run.run source = _
  rw [ExceptT.run_bind, StateT.run_bind, hparties, hcounts]
  change (liftM (parties.mapM (assignRange (KeyPartition.ranges counts))) >>= _ :
    ExceptT Error (StateM σ) (Ceremony (WeightedParty K))).run.run source' = _
  rw [hmembers]
  change (liftM (validateParties members config.shareIndices) >>= _ :
    ExceptT Error (StateM σ) (Ceremony (WeightedParty K))).run.run source' = _
  rw [hvalid]
  rfl

/-- Creation succeeds, the polynomials that are drawn are a sharing, and every party has its
range. -/
theorem succeeds_start [RandomSource σ] (hconfig : config.Sized)
    (hweighted : config.weighted = true) :
    Succeeds (start config : ExceptT Error (StateM σ) (Ceremony (WeightedParty K))) fun c =>
      ∃ s : Sharing, s.DealtFor config ∧ c.Seats config .empty fun x w =>
        w.core.Enrolled s config.shareIndices x ∧ Opened config x w := by
  have hparticipants := hconfig.one_le_participants
  obtain ⟨t, ht⟩ : ∃ t : Nat, config.threshold = t :=
    ⟨config.threshold.toNat, by have := hconfig.one_le_threshold; omega⟩
  have hcreate : Succeeds (createFrom (createParty config) config.participants.toNat 1 :
      ExceptT Error (StateM σ) (List (WeightedParty K))) _ :=
    succeeds_createFrom (R := Unassigned config t) fun x h₁ h₂ =>
      succeeds_createParty hconfig ht h₁ (by omega)
  rw [start, if_neg (by simp [hweighted])]
  refine .bind (hcreate.mono ?_)
  rintro parties ⟨hlength, hparties⟩
  have hassign : ∀ (place : Nat) w, parties[place]? = some w → ∃ w',
      assignRange (KeyPartition.ranges (.ofList ((upTo config.participants).map fun i =>
        (i, KeyPartition.rangeSize config.participants config.shareIndices i)))) w = .ok w' ∧
      w'.core.New config.shareIndices config.participants t config.label.toItem (place + 1) ∧
        Opened config (place + 1) w' := by
    intro place w hw
    obtain ⟨hplace, -⟩ := List.getElem?_eq_some_iff.1 hw
    have hx : (place : Int) + 1 ∈ upTo config.participants := mem_upTo.2 ⟨by omega, by omega⟩
    obtain ⟨core, hcore, rfl⟩ := hparties place w hw
    obtain ⟨w', hassign, rfl, -, hopened⟩ := assignRange_eq hconfig hx
      (KeyPartition.ranges_get? hparticipants hx) hcore.position_eq hcore.n_eq
    exact ⟨w', hassign, hcore, hopened⟩
  obtain ⟨members, hmembers, hlength', hassigned⟩ := exists_mapM_eq_ok hassign
  have hlength'' : (members.length : Int) = config.participants := by omega
  obtain ⟨s, hs, henrolled⟩ :=
    exists_enrolled hlength'' ht fun place w hw => (hassigned place w hw).1
  have hseats : (⟨config, members, .empty, []⟩ : Ceremony (WeightedParty K)).Seats config .empty
      fun x w => w.core.Enrolled s config.shareIndices x ∧ Opened config x w :=
    ⟨rfl, rfl, hlength'', fun place w hw => ⟨henrolled place w hw, (hassigned place w hw).2⟩⟩
  refine .bind (.steady (KeyPartition.counts_eq hparticipants hconfig.participants_le)
    (.bind (.steady hmembers (.bind (.steady (validateParties_eq hconfig
      (hseats.mono fun _ _ _ hw => hw.2.toOwner)) (.pure ⟨s, hs, hseats⟩))))))

/-! ### Shares -/

/-- The inbox for a key holds the shares of all parties. -/
theorem inboxFor_eq {R : Int → WeightedParty K → Prop} (hdealers : s.dealers = config.participants)
    (h : c.Seats config inboxes R) (hR : ∀ x w, R x w → w.core.Dealt s config.shareIndices x)
    {key : Int} (hkey : key ∈ upTo config.shareIndices) :
    ∃ inbox, inboxFor key c.members = .ok inbox ∧ s.DealtTo key inbox := by
  have hshares : (c.members.mapM fun dealer : WeightedParty K => do
      return (dealer.position, ← dealer.core.shareFor key) : Except Error (List (Int × Scalar))) =
      .ok (c.members.map fun dealer =>
        (positionOf dealer, (s.dealt (positionOf dealer)).evaluate key)) := by
    apply mapM_eq_ok
    intro dealer hdealer
    obtain ⟨x, -, hseat⟩ := h.exists_seat hdealer
    have hdealt := hR x dealer hseat
    have hposition : positionOf dealer = x := hdealt.position_eq
    rw [hdealt.shareFor_eq hkey, hposition]
    exact congrArg (fun y => Except.ok (y, (s.dealt x).evaluate key)) hposition
  have hlist : (c.members.map fun dealer =>
      (positionOf dealer, (s.dealt (positionOf dealer)).evaluate key)) =
      (c.members.map positionOf).map fun i => (i, (s.dealt i).evaluate key) := by
    rw [List.map_map]
    rfl
  refine ⟨_, by rw [inboxFor, hshares]; rfl, fun i => ?_⟩
  rw [hlist, Mapping.get?_ofList, hdealers]
  simp only [h.mem_positions fun x w hw => (hR x w hw).position_eq]

theorem reaches_deliverSlot (hconfig : config.Sized)
    (hdealers : s.dealers = config.participants) {H : Int → Int → Prop}
    (h : c.Seats config inboxes (Receiving config s H)) {place : Nat} {key : Int}
    (hplace : place < c.members.length) (howns : Owns config (place + 1) key) :
    (deliverSlot place key : Action σ K Unit).Reaches c fun _ c' => c'.Seats config inboxes
      (Receiving config s fun x k => H x k ∨ x = place + 1 ∧ k = key) := by
  obtain ⟨w, hw⟩ : ∃ w, c.members[place]? = some w := ⟨_, List.getElem?_eq_getElem hplace⟩
  have hreceiving := h.seated place w hw
  have hx := h.mem_upTo hw
  obtain ⟨inbox, hinbox, hdealt⟩ :=
    inboxFor_eq hdealers h (fun _ _ hw => hw.dealt) (owns_mem_upTo hconfig hx howns)
  have hslots : ∀ key ∈ w.keys, key ∈ upTo w.core.n :=
    hreceiving.dealt.n_eq ▸ hreceiving.mem_upTo hconfig hx
  have hsenders : ∀ i ∈ inbox.keys, 1 ≤ i ∧ i ≤ w.parties := by
    intro i hi
    rw [hreceiving.parties_eq, ← hdealers]
    exact mem_upTo.1 (hdealt.mem_keys_iff.1 hi)
  obtain ⟨slotStages, hstore, hstages⟩ := storeShares_eq hslots ((hreceiving.mem_keys key).2 howns)
    hreceiving.dealt.consistent.failure_eq (hreceiving.stage_le key) hsenders
  refine .bind (.get (.bind (.steady hinbox (.bind (reaches_onMember hw hstore
    (.pure (h.set ?_ fun i other hi hother => ?_)))))))
  · refine { hreceiving with stage_le := hstages hreceiving.stage_le, filled := ?_ }
    intro k hk
    by_cases hkey : k = key
    · subst hkey
      exact ⟨inbox, by rw [Mapping.get?_put, if_pos rfl], hdealt⟩
    · obtain ⟨inbox', hinbox', hdealt'⟩ := hreceiving.filled k (by simpa [hkey] using hk)
      exact ⟨inbox', by rw [Mapping.get?_put, if_neg hkey]; exact hinbox', hdealt'⟩
  · refine { hother with filled := ?_ }
    rintro k (hk | ⟨hx, -⟩)
    · exact hother.filled k hk
    · exact absurd (by omega) hi

/-- A party receives the shares for some keys of its range. -/
theorem reaches_deliverSlots (hconfig : config.Sized)
    (hdealers : s.dealers = config.participants) {H : Int → Int → Prop}
    (h : c.Seats config inboxes (Receiving config s H)) {place : Nat} {keys : List Int}
    (hplace : place < c.members.length) (howns : ∀ key ∈ keys, Owns config (place + 1) key) :
    (keys.forM (deliverSlot place) : Action σ K Unit).Reaches c fun _ c' => c'.Seats config inboxes
      (Receiving config s fun x k => H x k ∨ x = place + 1 ∧ k ∈ keys) := by
  refine Run.Reaches.forM (I := fun (done : List Int) (c' : Ceremony (WeightedParty K)) =>
    c'.Seats config inboxes
      (Receiving config s fun x k => H x k ∨ x = place + 1 ∧ k ∈ done)) ?_ ?_
  · refine h.mono fun x w _ hw => { hw with filled := ?_ }
    rintro k (hk | ⟨-, hk⟩)
    · exact hw.filled k hk
    · exact absurd hk List.not_mem_nil
  · intro done key rest c₁ hmem h₁
    have hlength : place < c₁.members.length := by
      have := h.length_eq
      have := h₁.length_eq
      omega
    refine (reaches_deliverSlot hconfig hdealers h₁ hlength
      (howns key (by rw [hmem]; simp))).mono fun _ c' h' => ?_
    refine h'.mono fun x w _ hw => { hw with filled := fun k hk => hw.filled k ?_ }
    rwa [List.mem_append, List.mem_singleton, and_or_left, ← or_assoc] at hk

/-- Slots receive the shares of all parties, party by party. -/
theorem reaches_deliverKeys (hconfig : config.Sized) (hdealers : s.dealers = config.participants)
    (h : c.Seats config inboxes (Receiving config s fun _ _ => False)) :
    (c.members.zipIdx.forM fun entry => entry.1.keys.sorted.forM (deliverSlot entry.2) :
      Action σ K Unit).Reaches c fun _ c' => c'.Seats config inboxes
        (Receiving config s (Owns config)) := by
  refine (Run.Reaches.forM (I := fun (done : List (WeightedParty K × Nat)) c' =>
    c'.Seats config inboxes (Receiving config s fun x k =>
      ∃ entry ∈ done, x = (entry.2 : Int) + 1 ∧ k ∈ entry.1.keys)) ?_ ?_).mono fun _ c' h' => ?_
  · exact h.mono fun x w _ hw => { hw with filled := by simp }
  · rintro done ⟨party, place⟩ rest c₂ hmem h₂
    have hentry : (party, place) ∈ c.members.zipIdx := by rw [hmem]; simp
    have hparty : c.members[place]? = some party := List.mem_zipIdx_iff_getElem?.1 hentry
    have hlength : place < c₂.members.length := by
      obtain ⟨hplace, -⟩ := List.getElem?_eq_some_iff.1 hparty
      have := h.length_eq
      have := h₂.length_eq
      omega
    refine (reaches_deliverSlots hconfig hdealers h₂ hlength fun key hkey =>
      ((h.seated place party hparty).mem_keys key).1 (KeySet.mem_sorted.1 hkey)).mono ?_
    refine fun _ c' h' => h'.mono fun x w _ hw => { hw with filled := ?_ }
    rintro k ⟨entry, hentry, hx, hk⟩
    apply hw.filled k
    rcases List.mem_append.1 hentry with hdone | hlast
    · exact .inl ⟨entry, hdone, hx, hk⟩
    · rw [List.mem_singleton.1 hlast] at hx hk
      exact .inr ⟨hx, KeySet.mem_sorted.2 hk⟩
  · refine h'.mono fun x w hx hw => { hw with filled := fun key hkey => ?_ }
    obtain ⟨place, party, rfl, hparty⟩ := h.exists_member hx
    exact hw.filled key ⟨(party, place), List.mem_zipIdx_iff_getElem?.2 hparty, rfl,
      ((h.seated place party hparty).mem_keys key).2 hkey⟩

/-- Every slot of every party receives the shares of all parties. -/
theorem reaches_distributeShares (hconfig : config.Sized)
    (hdealers : s.dealers = config.participants)
    (h : c.Seats config inboxes fun x w =>
      w.core.Ready s config.shareIndices x ∧ Opened config x w) :
    (distributeShares : Action σ K Unit).Reaches c fun _ c' => c'.Seats config inboxes fun x w =>
      w.core.Dealt s config.shareIndices x ∧ Supplied config s x w := by
  have hdeal : ∀ x (w : WeightedParty K), x ∈ upTo config.participants →
      w.core.Ready s config.shareIndices x ∧ Opened config x w →
        ∃ w', onCore w Participant.dealShares = (.ok (), w') ∧
          Receiving config s (fun _ _ => False) x w' := by
    rintro x w - ⟨hready, hopened⟩
    obtain ⟨p, hdeal, hdealt⟩ := hready.dealShares_eq
    exact ⟨{ w with core := p }, onCore_eq hdeal,
      { hopened with dealt := hdealt, filled := fun _ hfalse => hfalse.elim }⟩
  refine .bind ((reaches_steadyRound h hdeal).mono fun _ c₁ h₁ => .bind (.get ?_))
  refine (reaches_deliverKeys hconfig hdealers h₁).mono fun _ c' h' => ?_
  exact h'.mono fun x w _ hw =>
    ⟨hw.dealt, { hw with filled := fun key hkey => hw.filled key ((hw.mem_keys key).1 hkey) }⟩

/-! ### Keys -/

variable [LawfulSuite K]

theorem reaches_verifyShares [RandomSource σ] (hconfig : config.Feasible)
    (h : c.Seats config inboxes fun x w =>
      w.core.Dealt s config.shareIndices x ∧ Supplied config s x w) :
    (verifyShares : Action σ K Unit).Reaches c fun _ c' => c'.Seats config inboxes fun x w =>
      Prepared s config.shareIndices .sharesVerified x w.core ∧ Supplied config s x w := by
  have hderive : ∀ x (w : WeightedParty K), x ∈ upTo config.participants →
      w.core.Dealt s config.shareIndices x ∧ Supplied config s x w →
        ∃ w', onCore w (fun p => forget p.derivePowerMap) = (.ok (), w') ∧
          Prepared s config.shareIndices .sharesDistributed x w'.core ∧
          Supplied config s x w' := by
    rintro x w - ⟨hdealt, hsupplied⟩
    obtain ⟨m, hderive, hm⟩ := hdealt.consistent.derivePowerMap_eq
    refine ⟨{ w with core := { w.core with powerMap := some m } }, onCore_eq (forget_eq hderive),
      { hdealt with
        consistent := hdealt.consistent.consistent_powerMap hm
        le_stage := ?_
        powerMap := rfl }, { hsupplied with }⟩
    exact Nat.le_of_eq (congrArg Stage.rank hdealt.stage_eq.symm)
  refine .bind ((reaches_steadyRound h hderive).mono fun _ c₁ h₁ => reaches_round h₁ ?_)
  rintro x w hx ⟨hprepared, hsupplied⟩
  obtain ⟨m, hm⟩ := Option.isSome_iff_exists.1 hprepared.powerMap
  have hslots : ∀ key ∈ w.keys, key ∈ upTo w.core.n :=
    hprepared.n_eq ▸ hsupplied.mem_upTo hconfig.sized hx
  refine (always_verifyShares hslots hprepared.consistent hm hprepared.le_stage
    hsupplied.filled).mono ?_
  rintro _ ⟨slotStages, rfl⟩
  exact ⟨rfl, { hprepared with
    consistent := hprepared.consistent.consistent_advance _
    le_stage := Stage.le_later_right _ _ }, { hsupplied with }⟩

theorem computeOwnShares_eq (hconfig : config.Feasible) {x : Int}
    (hx : x ∈ upTo config.participants) {w : WeightedParty K}
    (hprepared : Prepared s config.shareIndices .sharesVerified x w.core)
    (hsupplied : Supplied config s x w) :
    ∃ w', computeOwnShares w = (.ok (), w') ∧
      w'.core.Announced s config.shareIndices (Owns config) x ∧ Signed config s x w' := by
  have hkeys := hsupplied.mem_upTo hconfig.sized hx
  have hslots : ∀ key ∈ w.keys, key ∈ upTo w.core.n := hprepared.n_eq ▸ hkeys
  obtain ⟨shares, signingShares, slotStages, hcompute, hsigned⟩ := computeSigningShares_eq hslots
    hprepared.consistent.failure_eq hprepared.le_stage
    fun key hkey => (hsupplied.filled key hkey).exists_sum
  have hadvanced := hprepared.consistent.consistent_advance .signingShareComputed
  obtain ⟨slotStages', hpublish⟩ := @publishOwnShares_eq K _ s
    { w with signingShares, slotStages, core := w.core.advance .signingShareComputed } hslots _
    hadvanced (Stage.le_later_right _ _) hsigned
  let core := (w.core.advance .signingShareComputed).withPublicShares s w.keys.sorted
  refine ⟨{ w with signingShares, slotStages := slotStages', core }, ?_, { hprepared with
    consistent := hadvanced.consistent_publicShares fun y hy =>
      mem_upTo.1 (hslots y (KeySet.mem_sorted.1 hy))
    le_stage := Stage.le_later_right _ _
    announced := fun y hy => ?_ }, { hsupplied with signed := hsigned }⟩
  · rw [computeOwnShares, hcompute]
    simp only [andThen, hpublish]
    rfl
  · have hmem : y ∈ w.keys.sorted := KeySet.mem_sorted.2 ((hsupplied.mem_keys y).2 hy)
    rw [Participant.get?_withPublicShares, if_pos hmem]
    rfl

theorem reaches_derivePublicShares (hconfig : config.Feasible) (hs : s.DealtFor config)
    (h : c.Seats config inboxes fun x w =>
      Prepared s config.shareIndices .sharesVerified x w.core ∧ Supplied config s x w) :
    (derivePublicShares : Action σ K Unit).Reaches c fun _ c' => c'.Seats config inboxes fun x w =>
      w.core.Published s config.shareIndices x ∧ Signed config s x w := by
  refine .bind ((reaches_steadyRound h fun x w hx hw =>
    computeOwnShares_eq hconfig hx hw.1 hw.2).mono fun _ c₁ h₁ => ?_)
  have hmaps : (propagateMaps : Action σ K Unit).Reaches c₁ fun _ c' =>
      c'.Seats config inboxes fun x (w : WeightedParty K) =>
        (w.core.Announced s config.shareIndices (Owns config) x ∧ w.core.shareMap.isSome) ∧
          Signed config s x w :=
    reaches_propagateMaps (P := fun x p => p.Announced s config.shareIndices (Owns config) x)
      (Q := fun x p => p.Announced s config.shareIndices (Owns config) x ∧ p.shareMap.isSome)
      (Φ := Signed config s) hconfig hs (fun _ _ _ hw => { hw with }) (fun _ _ hp => hp.equipped)
      (fun _ _ hp => ⟨hp.announced_withPublicMaps, rfl⟩) h₁
  refine .bind (hmaps.mono fun _ c₂ h₂ => reaches_steadyRound h₂ ?_)
  rintro x w - ⟨⟨hannounced, hmap⟩, hsigned⟩
  obtain ⟨shares, p, hpublish, hpublished, -⟩ := hannounced.publishShares_eq hmap
    fun y hy => (hsigned.mem_keys y).1 hy
  exact ⟨{ w with core := p }, forget_eq (by rw [publishShares, hpublish]; rfl), hpublished,
    { hsigned with }⟩

theorem crossCheck_eq (hconfig : config.Feasible) {first : WeightedParty K}
    {others : List (WeightedParty K)}
    (hmembers : ∀ v ∈ first :: others, ∃ y, Finished config s y v) {w : WeightedParty K} {x : Int}
    (hx : x ∈ upTo config.participants) (hw : Finished config s x w) :
    crossCheck (first :: others) w = .ok () := by
  obtain ⟨y, hfirst⟩ := hmembers first (.head _)
  have hothers : ∀ key ∈ w.keys.scan, (do
      let own ← w.core.publicShareOf key
      (first :: others).forM fun other => do
        if (← other.core.publicShareOf key) != own then
          throw (Error.failedCheck .publicShareMismatch (.keyShare key other.position) [key])) =
      .ok () := by
    intro key hkey
    have hslot := hw.mem_upTo hconfig.sized hx key (KeySet.mem_scan.1 hkey)
    rw [hw.keyed.publicShareOf_eq hslot, ok_bind]
    apply forM_eq_ok
    intro v hv
    obtain ⟨z, hv⟩ := hmembers v hv
    rw [hv.keyed.publicShareOf_eq hslot, ok_bind, bne_self_eq_false]
    rfl
  rw [crossCheck, hw.keyed.groupKey_eq]
  simp only [List.head?_cons, Option.bind_some, hfirst.keyed.groupKey_eq, bne_self_eq_false]
  exact forM_eq_ok hothers

/-- What a weighted ceremony ends with: the keys are divided among the parties, every party has all
that it can know of a sharing, the result has its group key and public shares, and the signing
shares of enough slots recover its values. -/
structure Completed (config : Config) (s : Sharing) (result : Result K)
    (c : Ceremony (WeightedParty K)) : Prop where
  length_eq : (c.members.length : Int) = config.participants
  disjoint : c.members.Pairwise fun v w => ∀ key ∈ v.keys, key ∉ w.keys
  exists_owner : ∀ key, (∃ w ∈ c.members, key ∈ w.keys) ↔ key ∈ upTo config.shareIndices
  finished : ∀ (place : Nat) w, c.members[place]? = some w → Finished config s (place + 1) w
  groupKey_eq : result.groupKey = some (.ofScalar (s.value 0))
  publicShares_eq : result.publicShares = s.publicShares (upTo config.shareIndices)
  recovers : ∀ points : List (Int × Scalar), (points.map Prod.fst).Nodup →
    config.threshold ≤ points.length →
    (∀ point ∈ points, ∃ w ∈ c.members,
      point.1 ∈ w.keys ∧ w.signingShareOf point.1 = .ok (some point.2)) →
      ∀ y : Int, interpolate points y = .ok (s.value y)

omit [LawfulSuite K] in
theorem Completed.of_seats (hconfig : config.Feasible) (hs : s.DealtFor config)
    (h : c.Seats config inboxes (Finished config s)) : Completed config s c.result c := by
  have howners := h.mono fun _ _ _ hw => hw.toOwner
  obtain ⟨hkey, hshares⟩ := result_eq hconfig (fun _ _ hw => hw.keyed) h
  refine ⟨h.length_eq, pairwise_disjoint hconfig.sized howners,
    fun _ => exists_owner_iff hconfig.sized howners, h.seated, hkey, hshares,
    fun points hnodup hlength hpoints y => ?_⟩
  refine hs.interpolate_eq hconfig hnodup hlength (fun point hpoint => ?_) y
  obtain ⟨w, hw, hmem, hshare⟩ := hpoints point hpoint
  obtain ⟨x, hx, hfinished⟩ := h.exists_seat hw
  rw [hfinished.signingShareOf_eq point.1 hmem] at hshare
  exact ⟨hfinished.mem_upTo hconfig.sized hx point.1 hmem,
    (Option.some.inj (Except.ok.inj hshare)).symm⟩

theorem reaches_deriveGroupKey (hconfig : config.Feasible) (hs : s.DealtFor config)
    (h : c.Seats config inboxes fun x w =>
      w.core.Published s config.shareIndices x ∧ Signed config s x w) :
    (deriveGroupKey : Action σ K (Result K)).Reaches c fun result c' =>
      Completed config s result c' := by
  have hthreshold := hs.one_le_threshold hconfig
  have hderive : ∀ x (w : WeightedParty K), x ∈ upTo config.participants →
      w.core.Published s config.shareIndices x ∧ Signed config s x w →
        ∃ w', forget w.deriveGroupKey = (.ok (), w') ∧ Finished config s x w' := by
    rintro x w hx ⟨hpublished, hsigned⟩
    obtain ⟨key, p, hderive, hkeyed, -⟩ := hpublished.deriveGroupKey_eq hthreshold
    have hslots : ∀ key ∈ w.keys, key ∈ upTo p.n := hkeyed.n_eq ▸ hsigned.mem_upTo hconfig.sized hx
    obtain ⟨slotStages, hadvance, hstages⟩ := deriveGroupKey_eq hderive hslots
    let w' : WeightedParty K := { w with core := p, slotStages }
    refine ⟨w', forget_eq hadvance, { hsigned with
      keyed := hkeyed
      signingShareOf_eq := fun key hkey => ?_
      slotStage_eq := fun key hkey => ?_ }⟩
    · rw [signingShareOf, requireOwned_eq (w := w') hkey, ok_bind, slotOf_eq (w := w') hslots hkey,
        ok_bind]
      exact congrArg Except.ok (hsigned.signed key hkey)
    · rw [slotStage_eq (w := w') hslots hkey, hstages key hkey]
  refine .bind ((reaches_steadyRound h hderive).mono fun _ c₁ h₁ => ?_)
  refine Run.Reaches.mono (reaches_crossCheck hconfig
    (fun first others x w hmembers hx hw => crossCheck_eq hconfig hmembers hx hw) h₁) ?_
  rintro _ c₂ ⟨h₂, rfl⟩
  exact .of_seats hconfig hs h₂

/-! ### Runs -/

/-- A weighted ceremony among honest parties succeeds whatever they draw, in either mode of the
public maps and also when its threshold is larger than the number of its parties, and completes with
the sharing of the polynomials that they have drawn. -/
theorem weightedRun_completes [RandomSource σ] (hconfig : config.Feasible)
    (hweighted : config.weighted = true) :
    Succeeds (start config : ExceptT Error (StateM σ) (Ceremony (WeightedParty K))) fun c =>
      ∃ s : Sharing, s.DealtFor config ∧
        (∀ (place : Nat) w, c.members[place]? = some w →
          w.core.polynomial = s.dealt (place + 1)) ∧
        (run : Action σ K (Result K)).Reaches c fun result c' => Completed config s result c' := by
  refine (succeeds_start hconfig.sized hweighted).mono ?_
  rintro c ⟨s, hs, hseats⟩
  refine ⟨s, hs, fun place w hw => (hseats.seated place w hw).1.polynomial_eq, ?_⟩
  have hdealers := hs.dealers_eq
  rw [run]
  refine .bind (Run.Reaches.mono (reaches_exchangeCommitments (Φ := Opened config)
    (fun _ _ _ hw => { hw with }) hdealers hseats) fun _ c₁ h₁ => ?_)
  refine .bind ((reaches_verifyProofs hconfig hs (fun _ _ hw => hw.1.toHonest) h₁).mono
    fun _ c₂ h₂ => ?_)
  refine .bind ((reaches_distributeShares hconfig.sized hdealers h₂).mono fun _ c₃ h₃ => ?_)
  refine .bind ((reaches_verifyShares hconfig h₃).mono fun _ c₄ h₄ => ?_)
  refine .bind ((reaches_derivePublicShares hconfig hs h₄).mono fun _ c₅ h₅ => ?_)
  exact reaches_deriveGroupKey hconfig hs h₅

/-- Two parties with five slots, any three of which recover what the parties share. -/
theorem exists_weightedRun_completes : ∃ config : Config,
    config.Feasible ∧ config.weighted = true ∧ config.participants < config.threshold ∧
    Succeeds (start config : ExceptT Error (StateM Tape) (Ceremony (WeightedParty ResidueKey)))
      fun c => ∃ s : Sharing, s.DealtFor config ∧
        (∀ (place : Nat) w, c.members[place]? = some w →
          w.core.polynomial = s.dealt (place + 1)) ∧
        (run : Action Tape ResidueKey (Result ResidueKey)).Reaches c fun result c' =>
          Completed config s result c' := by
  have hconfig : (⟨2, 3, some 5, .bytes [], .broadcast, none⟩ : Config).Feasible := by
    refine ⟨?_, ?_, ?_, ?_, ?_, [], rfl, ?_⟩ <;> decide
  exact ⟨_, hconfig, rfl, by decide, weightedRun_completes hconfig rfl⟩

end ThresholdKeygen.Weighted
