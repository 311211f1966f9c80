import ThresholdKeygen.Proofs.Ceremony.Round
import ThresholdKeygen.Proofs.Participant.Keys

/-!
# Exchanges among honest members

What crosses the members of a ceremony whatever wraps their participants: commitments, proofs of
knowledge and public maps. What members keep beside their participants stays as it is.
-/

namespace ThresholdKeygen.Ceremony

variable {K : Type} [Suite K] {σ M : Type} [Member M K]

variable {config : Config} {inboxes : Mapping Int Inbox} {s : Sharing} {n : Int}
  {Φ : Int → M → Prop} {c : Ceremony M}

/-! ### Commitments -/

/-- That the participant of a member is enrolled and has heard from the dealers that a relation
assigns to its position. -/
structure Heard (s : Sharing) (n : Int) (Φ : Int → M → Prop) (H : Int → Int → Prop) (x : Int)
    (member : M) : Prop where
  enrolled : (Member.core member).Enrolled s n x
  outside : Φ x member
  heard : ∀ i, H x i → ((Member.core member).commitments.slots.get? i).isSome

theorem Heard.mono {H H' : Int → Int → Prop} {x : Int} {member : M} (h : Heard s n Φ H x member)
    (hHH' : ∀ i, H' x i → H x i) : Heard s n Φ H' x member :=
  { h with heard := fun i hi => h.heard i (hHH' i hi) }

section Commitments

variable [LawfulMember M]

theorem reaches_deliverCommitment [LawfulSuite K] (hΦ : Outside Φ)
    (hdealers : s.dealers = config.participants) {H : Int → Int → Prop}
    (h : c.Seats config inboxes (Heard s n Φ H)) {sender receiver : Nat}
    (hsender : sender < c.members.length) (hreceiver : receiver < c.members.length) :
    (deliverCommitment sender receiver : Run σ (Ceremony M) Unit).Reaches c fun _ c' =>
      c'.Seats config inboxes
        (Heard s n Φ fun x i => H x i ∨ x = receiver + 1 ∧ i = sender + 1) := by
  obtain ⟨dealer, hdealer⟩ : ∃ dealer, c.members[sender]? = some dealer :=
    ⟨_, List.getElem?_eq_getElem hsender⟩
  obtain ⟨member, hmember⟩ : ∃ member, c.members[receiver]? = some member :=
    ⟨_, List.getElem?_eq_getElem hreceiver⟩
  obtain ⟨h₁, h₂⟩ := mem_upTo.1 (h.mem_upTo hdealer)
  rw [← hdealers] at h₂
  have hdealt := (h.seated sender dealer hdealer).enrolled
  have hheard := h.seated receiver member hmember
  obtain ⟨p, hreceive, henrolled, hslots⟩ := hheard.enrolled.receiveCommitment_eq h₁ h₂
  have hcore : onCore member (fun p => p.receiveCommitment (Member.core dealer).position
      (.ofCoefficients (s.dealt (sender + 1)))) = (.ok (), Member.withCore member p) := by
    rw [hdealt.position_eq]
    exact onCore_eq hreceive
  rw [deliverCommitment]
  refine .bind (.get ?_)
  simp only [hdealer]
  refine .bind (.steady (hdealt.commitment_eq h₁ h₂) ?_)
  refine .bind (reaches_onMember hmember hcore (.pure (h.set ?_ fun i other hi hother => ?_)))
  · refine ⟨?_, hΦ _ _ _ hheard.outside, ?_⟩ <;> rw [LawfulMember.core_withCore]
    · exact henrolled
    · rintro i (hi | ⟨-, rfl⟩)
      · exact (hslots i).2 (.inr (hheard.heard i hi))
      · exact (hslots _).2 (.inl rfl)
  · apply hother.mono
    rintro j (hj | ⟨hx, -⟩)
    · exact hj
    · exact absurd (by omega) hi

/-- One member delivers its commitment to all others, after which everybody has heard from it. -/
theorem reaches_deliverToAll [LawfulSuite K] (hΦ : Outside Φ)
    (hdealers : s.dealers = config.participants) {H : Int → Int → Prop}
    (h : c.Seats config inboxes (Heard s n Φ H)) {count : Nat} (hcount : c.members.length = count)
    {sender : Nat} (hsender : sender < count) :
    ((List.range count).forM fun receiver =>
      if sender = receiver then return else deliverCommitment sender receiver :
        Run σ (Ceremony M) Unit).Reaches c fun _ c' =>
      c'.Seats config inboxes (Heard s n Φ fun x i => H x i ∨ i = sender + 1) := by
  -- the first receivers have also heard from the sender
  let heard (done : List Nat) (c' : Ceremony M) : Prop :=
    c'.Seats config inboxes (Heard s n Φ fun x i => H x i ∨ i = sender + 1 ∧ Among done x)
  refine (Run.Reaches.forM (I := heard) ?_ ?_).mono fun _ c' h' => ?_
  · refine h.mono fun x member _ hmember => hmember.mono ?_
    rintro i (hi | ⟨-, hnone⟩)
    · exact hi
    · exact absurd hnone not_among_nil
  · intro done receiver rest c₁ hrange h₁
    have hlength : c₁.members.length = count := by
      have := h.length_eq
      have := h₁.length_eq
      omega
    have hreceiver : receiver < count := by
      rw [← List.mem_range, hrange]
      simp
    split
    · rename_i heq
      refine .pure (h₁.mono fun x member _ hmember => { hmember with heard := ?_ })
      rintro i (hi | ⟨rfl, hx⟩)
      · exact hmember.heard i (.inl hi)
      · rcases among_append_singleton.1 hx with hx | rfl
        · exact hmember.heard _ (.inr ⟨rfl, hx⟩)
        · rw [heq]
          exact hmember.enrolled.own
    · refine (reaches_deliverCommitment hΦ hdealers h₁ (hlength ▸ hsender)
        (hlength ▸ hreceiver)).mono fun _ c' h' => ?_
      refine h'.mono fun x member _ hmember => hmember.mono ?_
      rintro i (hi | ⟨rfl, hx⟩)
      · exact .inl (.inl hi)
      · rcases among_append_singleton.1 hx with hx | hx
        · exact .inl (.inr ⟨rfl, hx⟩)
        · exact .inr ⟨hx, rfl⟩
  · refine h'.mono fun x member hx hmember => hmember.mono ?_
    rintro i (hi | rfl)
    · exact .inl hi
    · rw [← h.length_eq, hcount] at hx
      exact .inr ⟨rfl, among_range hx⟩

/-- Afterwards every member has heard from all dealers. -/
theorem reaches_exchangeCommitments [LawfulSuite K] (hΦ : Outside Φ)
    (hdealers : s.dealers = config.participants)
    (h : c.Seats config inboxes fun x member =>
      (Member.core member).Enrolled s n x ∧ Φ x member) :
    (exchangeCommitments : Run σ (Ceremony M) Unit).Reaches c fun _ c' =>
      c'.Seats config inboxes fun x member => (Member.core member).Ready s n x ∧ Φ x member := by
  -- everybody has heard from each of the first senders
  let heard (done : List Nat) (c' : Ceremony M) : Prop :=
    c'.Seats config inboxes (Heard s n Φ fun _ => Among done)
  refine .bind (.get ((Run.Reaches.forM (I := heard) ?_ ?_).mono fun _ c' h' => ?_))
  · apply h.mono
    intro x member _ hmember
    exact ⟨hmember.1, hmember.2, fun i hnone => absurd hnone not_among_nil⟩
  · intro done sender rest c₁ hrange h₁
    have hsender : sender < c.members.length := by
      rw [← List.mem_range, hrange]
      simp
    have hlength : c₁.members.length = c.members.length := by
      have := h.length_eq
      have := h₁.length_eq
      omega
    refine (reaches_deliverToAll hΦ hdealers h₁ hlength hsender).mono fun _ c' h' => ?_
    exact h'.mono fun x member _ hmember => hmember.mono fun i hi => among_append_singleton.1 hi
  · apply h'.mono
    intro x member hx hmember
    refine ⟨hmember.enrolled.ready fun i h₁ h₂ => hmember.heard i ?_, hmember.outside⟩
    apply among_range
    rw [h.length_eq, ← hdealers]
    exact mem_upTo.2 ⟨h₁, h₂⟩

end Commitments

/-! ### Proofs of knowledge -/

section Proofs

variable [LawfulSuite K] [RandomSource σ] {label context : Bytes}
  (hcontext : Transcript.runContext (.bytes label : Item K) n s.dealers s.threshold = .ok context)

/-- That a proof is one of the constant term of a dealer. -/
def ProvesConstant (s : Sharing) (context : Bytes) (proof : Int × KnowledgeProof K) : Prop :=
  1 ≤ proof.1 ∧ proof.1 ≤ s.dealers ∧
    proof.2.verify (.ofScalar ((s.dealt proof.1).headD 0)) proof.1 (.bytes context) = .ok true

include hcontext

theorem succeeds_collectProofs (hencodable : (.bytes context : Item K).Encodable)
    (hpositions : s.dealers < 2 ^ 256) (hthreshold : 1 ≤ s.threshold) (hnonzero : s.Nonzero)
    {members : List M}
    (hmembers : ∀ member ∈ members, ∃ x ∈ upTo s.dealers, (Member.core member).Honest s n x) :
    Succeeds (collectProofs (some (.bytes label)) members :
        ExceptT Error (StateM σ) (List (Int × KnowledgeProof K)))
      fun proofs => ∀ proof ∈ proofs, ProvesConstant s context proof := by
  refine .mapM fun member hmember => ?_
  obtain ⟨x, hx, hhonest⟩ := hmembers member hmember
  obtain ⟨h₁, h₂⟩ := mem_upTo.1 hx
  have hposition : (.int x : Item K).Encodable := Item.encodable_int (by omega) (by omega)
  refine .bind ((hhonest.succeeds_prove h₁ h₂ hthreshold hnonzero _ hcontext hencodable
    hposition).mono fun proof hproof => .pure ?_)
  rw [hhonest.position_eq]
  exact ⟨h₁, h₂, hproof⟩

omit [RandomSource σ] in
theorem checkProofs_eq (hthreshold : 1 ≤ s.threshold) {proofs : List (Int × KnowledgeProof K)}
    (hproofs : ∀ proof ∈ proofs, ProvesConstant s context proof) {p : Participant K} {x : Int}
    (hp : p.Honest s n x) : checkProofs (some (.bytes label)) proofs p = .ok () := by
  have haccepted : ∀ proof ∈ proofs, (do
      let constant ← p.constantOf proof.1 (← p.commitments.commitmentOf proof.1)
      return (proof.1, ← p.verifyPublished (some (.bytes label)) (some proof.2.announcement)
        proof.2.response proof.1 constant)) = .ok (proof.1, true) := by
    intro proof hproof
    obtain ⟨h₁, h₂, hverify⟩ := hproofs proof hproof
    rw [hp.consistent.committed.commitmentOf_eq h₁ h₂, ok_bind, hp.constantOf_eq h₁ h₂ hthreshold,
      ok_bind, hp.verifyPublished_eq h₁ h₂ hthreshold _ hcontext hverify]
    rfl
  have hrejected : rejectedProofs (some (.bytes label)) proofs p = .ok [] := by
    rw [rejectedProofs, mapM_eq_ok haccepted]
    simp
  rw [checkProofs, hrejected]
  rfl

end Proofs

/-- All members make proofs and accept those of all others. -/
theorem reaches_verifyProofs [LawfulSuite K] [RandomSource σ] (hconfig : config.Feasible)
    (hs : s.DealtFor config) {R : Int → M → Prop}
    (hR : ∀ x member, R x member → (Member.core member).Honest s config.shareIndices x)
    (h : c.Seats config inboxes R) :
    (verifyProofs : Run σ (Ceremony M) Unit).Reaches c fun _ c' => c'.Seats config inboxes R := by
  obtain ⟨hparticipants, hcount, ht₁, ht₂, hn, label, hlabel, hlength⟩ := hconfig
  obtain ⟨hdealers, hthreshold, hnonzero⟩ := hs
  obtain ⟨context, hcontext, hencodable⟩ := Transcript.exists_runContext (K := K)
    (Item.encodable_bytes hlength)
    (Item.encodable_int (n := config.shareIndices) (by omega) (by omega))
    (Item.encodable_int (n := s.dealers) (by omega) (by omega))
    (Item.encodable_int (n := s.threshold) (by omega) (by omega))
  have htoItem : c.config.label.toItem? = some (.bytes label : Item K) := by
    rw [h.config_eq, hlabel]
    rfl
  have hhonest : ∀ member ∈ c.members,
      ∃ x ∈ upTo s.dealers, (Member.core member).Honest s config.shareIndices x := by
    intro member hmember
    obtain ⟨x, hx, hseat⟩ := h.exists_seat hmember
    exact ⟨x, hdealers ▸ hx, hR x member hseat⟩
  have hproofs := succeeds_collectProofs (σ := σ) hcontext hencodable (by omega) (by omega) hnonzero
    hhonest
  refine .bind (.get ?_)
  simp only [htoItem]
  refine .bind (.besides (hproofs.mono fun proofs hproofs => ?_))
  exact reaches_inspection h fun x member _ hmember =>
    checkProofs_eq hcontext (by omega) hproofs (hR x member hmember)

/-! ### Public maps -/

section Maps

variable [LawfulSuite K]

/-- Importing both maps from the snapshots of the first member. -/
theorem importMaps_eq {p : Participant K} (h : p.Equipped s n) (hthreshold : 1 ≤ s.threshold)
    (hn : 1 ≤ n) {joint shares : Bytes}
    (hjoint : (s.jointCommitment : JointCommitment K).toBytes = .ok joint)
    (hshares : (s.shareMap n : ShareMap K).toBytes = .ok shares) (recompute : Bool) :
    importMaps joint shares recompute p = (.ok (), p.withPublicMaps s n) := by
  obtain ⟨rfl, hconsistent, hstage, hpowers⟩ := h
  obtain ⟨m, hm⟩ := Option.isSome_iff_exists.1 hpowers
  have himport : { p with joint := some s.jointCommitment }.importShareMap shares recompute =
      (.ok (s.shareMap p.n), p.withPublicMaps s p.n) :=
    hconsistent.consistent_joint.importShareMap_eq hstage (Int.le_of_lt hn) hshares hm recompute
  rw [importMaps, hconsistent.importJoint_eq hstage hthreshold hjoint]
  simp only [andThen, himport]
  rfl

/-- A member derives both maps. -/
theorem exists_derived [LawfulMember M] (hΦ : Outside Φ) {x : Int} {member : M}
    (h : (Member.core member).Equipped s n) {joint shares : Bytes}
    (hjoint : (s.jointCommitment : JointCommitment K).toBytes = .ok joint)
    (hshares : (s.shareMap n : ShareMap K).toBytes = .ok shares) (hmember : Φ x member) :
    ∃ p derived, onCore member Participant.deriveJoint =
        (.ok s.jointCommitment, Member.withCore member p) ∧
      onCore (Member.withCore member p) Participant.deriveShareMap =
        (.ok (s.shareMap n), derived) ∧
      Member.core derived = (Member.core member).withPublicMaps s n ∧ Φ x derived := by
  obtain ⟨p, hjoint, hshareMap⟩ := h.deriveMaps_eq hjoint hshares
  rw [← LawfulMember.core_withCore member p] at hshareMap
  exact ⟨p, _, onCore_eq hjoint, onCore_eq hshareMap, LawfulMember.core_withCore _ _,
    hΦ _ _ _ (hΦ _ _ _ hmember)⟩

/-- Afterwards every member has the public maps, in either mode. -/
theorem reaches_propagateMaps [LawfulMember M] (hconfig : config.Feasible) (hs : s.DealtFor config)
    (hΦ : Outside Φ) {P Q : Int → Participant K → Prop}
    (hP : ∀ x p, P x p → p.Equipped s config.shareIndices)
    (hmaps : ∀ x p, P x p → Q x (p.withPublicMaps s config.shareIndices))
    (h : c.Seats config inboxes fun x member => P x (Member.core member) ∧ Φ x member) :
    (propagateMaps : Run σ (Ceremony M) Unit).Reaches c fun _ c' =>
      c'.Seats config inboxes fun x member => Q x (Member.core member) ∧ Φ x member := by
  obtain ⟨first, others, hfirst, hPfirst, hΦfirst⟩ := h.exists_first hconfig
  have hhead : c.members[0]? = some first := by rw [hfirst]; rfl
  obtain ⟨hparticipants, hcount, ht₁, ht₂, hn, -⟩ := hconfig
  obtain ⟨hdealers, hthreshold, -⟩ := hs
  obtain ⟨jointBytes, hjointBytes⟩ := s.exists_jointSnapshot (K := K) (by
    rw [Point.width]
    omega)
  obtain ⟨shareBytes, hshareBytes⟩ := s.exists_shareMapSnapshot (K := K) (n := config.shareIndices)
    (by
      rw [Point.width]
      omega)
  obtain ⟨p, derived, hjoint, hderived, hcore, hΦderived⟩ :=
    exists_derived hΦ (hP _ _ hPfirst) hjointBytes hshareBytes hΦfirst
  -- the first member has both maps, and the others are as they were
  have hseats : { c with members := c.members.set 0 derived }.Seats config inboxes
      fun x member => if x = 1 then Q x (Member.core member) ∧ Φ x member
        else P x (Member.core member) ∧ Φ x member := by
    refine h.set ⟨hcore ▸ hmaps _ _ hPfirst, hΦderived⟩ fun i other hi hother => ?_
    rwa [if_neg (by omega)]
  rw [hfirst, List.set_cons_zero] at hseats
  have hhead' : (c.members.set 0 (Member.withCore first p))[0]? =
      some (Member.withCore first p) := by
    rw [hfirst]
    rfl
  refine .bind (reaches_onMember hhead hjoint
    (.bind (reaches_onMember hhead' hderived (.bind (.get ?_)))))
  simp only [hfirst, List.set_cons_zero]
  have hjointSnapshot : (Member.core derived).jointSnapshot = .ok jointBytes := by
    rw [hcore]
    exact hjointBytes
  have hshareSnapshot : (Member.core derived).shareMapSnapshot = .ok shareBytes := by
    rw [hcore]
    exact hshareBytes
  refine .bind (.steady hjointSnapshot (.bind (.steady hshareSnapshot ?_)))
  have hrecorded := hseats.record "derive-external-q-w-map"
  refine .bind (.modify (.bind (.get (reaches_roundAmong (R := fun x member =>
    P x (Member.core member) ∧ Φ x member) hrecorded List.nodup_range' ?_ ?_ ?_))))
  · intro place member hmember hplace
    have hseated := hrecorded.seated place member hmember
    have := List.left_le_of_mem_range' hplace
    rwa [if_neg (by omega)] at hseated
  · intro place member hmember hplace
    have hseated := hrecorded.seated place member hmember
    obtain ⟨-, hlast⟩ := mem_upTo.1 (hrecorded.mem_upTo hmember)
    rw [← h.length_eq, hfirst, List.length_cons] at hlast
    rw [List.mem_range'_1] at hplace
    rwa [if_pos (by omega)] at hseated
  · rintro x member ⟨hmember, hΦmember⟩
    rw [steadyTask, onCore_eq (importMaps_eq (hP x _ hmember) (by omega) (by omega) hjointBytes
      hshareBytes _)]
    refine .pure ⟨rfl, ?_, hΦ x _ _ hΦmember⟩
    rw [LawfulMember.core_withCore]
    exact hmaps x _ hmember

end Maps

/-! ### Results -/

omit [Suite K] in
/-- A comparison that passes for all members leaves them as they are, and the result is theirs. -/
theorem reaches_crossCheck (hconfig : config.Feasible) {R : Int → M → Prop}
    {check : List M → M → Except Error Unit}
    (hcheck : ∀ first others x member, (∀ other ∈ first :: others, ∃ y, R y other) →
      x ∈ upTo config.participants → R x member → check (first :: others) member = .ok ())
    (h : c.Seats config inboxes R) :
    (do
      round "cross-check" (inspection (check (← get).members))
      return (← get).result : Run σ (Ceremony M) (Result K)).Reaches c fun result c' =>
        c'.Seats config inboxes R ∧ result = c'.result := by
  obtain ⟨first, others, hfirst, -⟩ := h.exists_first hconfig
  have hothers : ∀ other ∈ first :: others, ∃ y, R y other := by
    intro other hother
    obtain ⟨y, -, hy⟩ := h.exists_seat (hfirst ▸ hother)
    exact ⟨y, hy⟩
  have hchecks : (round "cross-check" (inspection (check c.members)) :
      Run σ (Ceremony M) Unit).Reaches c fun _ c' => c'.Seats config inboxes R := by
    apply reaches_inspection h
    intro x member hx hmember
    rw [hfirst]
    exact hcheck first others x member hothers hx hmember
  exact .bind (.get (.bind (hchecks.mono fun _ c' h' => .bind (.get (.pure ⟨h', rfl⟩)))))

/-- The first member hands over the group key and the public shares. -/
theorem result_eq (hconfig : config.Feasible) {R : Int → M → Prop}
    (hR : ∀ x member, R x member → (Member.core member).Keyed s n x)
    (h : c.Seats config inboxes R) : c.result.groupKey = some (.ofScalar (s.value 0)) ∧
      c.result.publicShares = s.publicShares (upTo n) := by
  obtain ⟨first, others, hfirst, hRfirst⟩ := h.exists_first hconfig
  have hkeyed := hR 1 first hRfirst
  rw [result, hfirst]
  exact ⟨hkeyed.groupKey_eq, hkeyed.knownPublicShares_eq⟩

end ThresholdKeygen.Ceremony
