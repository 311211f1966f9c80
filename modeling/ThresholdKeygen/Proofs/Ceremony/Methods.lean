import ThresholdKeygen.Proofs.Ceremony.CrossCheck
import ThresholdKeygen.Proofs.Ceremony.Evolution

/-!
# The rounds of ceremonies

Every round of a ceremony is tracked, and the last rounds have no result where the ceremony is
doomed: whoever has failed derives no group key, and members who are divided do not all agree. Main
statements: `Closing.tracks_lastRounds` and `Closing.barren_lastRounds`.
-/

namespace ThresholdKeygen

variable {K : Type} [Suite K] {σ : Type}

open Relation

/-! ### Rounds of plain ceremonies -/

namespace Plain

open Ceremony

theorem tracks_collectShare (sender receiver : Participant K) :
    (collectShare sender receiver : Action σ K Unit).Tracks :=
  .bind (.steady (refuses_of_ordinary (sender.ordinary_shareFor _))) fun _ => .modify fun _ => rfl

theorem tracks_deliverInbox (place : Nat) : (deliverInbox place : Action σ K Unit).Tracks := by
  refine .bind .get fun c =>
    .bind (tracks_onMember place (fun p => ?_) fun p => ?_) fun _ => .pure _
  · exact p.steps_perform (.receiveShares _)
  · exact refuses_of_ordinary (p.ordinary_receiveShares _)

theorem tracks_distributeShares : (distributeShares : Action σ K Unit).Tracks := by
  refine .bind (tracks_steadyRound _ Participant.careful_dealShares) fun _ => .bind .get fun c => ?_
  refine .bind (.forM (fun sender => .forM (fun receiver => ?_) _) _) fun _ => ?_
  · exact tracks_collectShare sender receiver
  · exact .forM tracks_deliverInbox _

theorem tracks_verifyShares [RandomSource σ] : (verifyShares : Action σ K Unit).Tracks :=
  .bind (tracks_steadyRound _ fun p => p.careful_derivePowerMap.forget) fun _ =>
    tracks_round _ fun p source => p.careful_verifyShares source none none

theorem tracks_derivePublicShares : (derivePublicShares : Action σ K Unit).Tracks :=
  .bind (tracks_steadyRound _ careful_computeOwnShare) fun _ => .bind tracks_propagateMaps fun _ =>
    tracks_steadyRound _ fun p => (p.careful_publishShares _).forget

end Plain

/-! ### Rounds of weighted ceremonies -/

namespace Weighted

open Ceremony

theorem tracks_deliverSlot (place : Nat) (key : Int) :
    (deliverSlot place key : Action σ K Unit).Tracks := by
  refine .bind .get fun c => .bind (.steady (refuses_of_ordinary (ordinary_inboxFor _ _))) ?_
  refine fun inbox => .bind (tracks_onMember place (fun w => ?_) fun w => ?_) fun _ => .pure _
  · exact w.steps_perform (.storeShares key (.ofInbox inbox))
  · exact refuses_of_ordinary (w.ordinary_storeShares key (.ofInbox inbox))

theorem tracks_distributeShares : (distributeShares : Action σ K Unit).Tracks := by
  refine .bind (tracks_steadyRound _ fun w => ?_) fun _ => .bind .get fun c => ?_
  · exact Careful.onCore (Participant.careful_dealShares _)
  · refine .forM (fun seat => ?_) _
    obtain ⟨w, place⟩ := seat
    exact .forM (tracks_deliverSlot place) _

theorem tracks_verifyShares [RandomSource σ] : (verifyShares : Action σ K Unit).Tracks := by
  refine .bind (tracks_steadyRound _ fun w => ?_) fun _ =>
    tracks_round _ fun w source => w.careful_verifyShares source
  exact Careful.onCore (Participant.careful_derivePowerMap _).forget

theorem tracks_derivePublicShares : (derivePublicShares : Action σ K Unit).Tracks :=
  .bind (tracks_steadyRound _ careful_computeOwnShares) fun _ => .bind tracks_propagateMaps fun _ =>
    tracks_steadyRound _ fun w => w.careful_publishShares.forget

end Weighted

/-! ### The last rounds -/

namespace Ceremony

variable {M : Type} [Member M K] [Stepping M]

/-- The last rounds of a ceremony: the members derive the group key and compare what they have. -/
def lastRounds (work : M → Answer M Unit) (check : List M → M → Except Error Unit) :
    Run σ (Ceremony M) (Result K) := do
  round "calculate-group-public-key" (steadyTask work)
  round "cross-check" (inspection (check (← get).members))
  return (← get).result

/-- What the last rounds rely on: only who has not failed derives a group key, and a check compares
it and the public shares of the indices that a member owns. -/
structure Closing (work : M → Answer M Unit) (check : List M → M → Except Error Unit) : Prop where
  careful : ∀ member, Careful member (work member)
  derived : ∀ member, (work member).1 = .ok () → (Member.core member).aborted = false ∧
    (Member.core (work member).2).groupKey.isSome = true
  agrees : ∀ members member, check members member = .ok () →
    ∃ indices, (∀ x, Stepping.Owns member x → x ∈ indices) ∧ Agrees members indices member
  differs : ∀ members member refusal, check members member = .error refusal →
    refusal.isVerification = true →
      ∃ indices, (∀ x ∈ indices, Stepping.Owns member x) ∧ Differs members indices member

/-- A difference between members who know everything divides the ceremony. -/
theorem divided_of_differs {c : Ceremony M} (hinformed : c.Informed)
    (hkeys : ∀ member ∈ c.members, (Member.core member).groupKey.isSome = true) {member : M}
    (hmember : member ∈ c.members) {indices : List Int}
    (hindices : ∀ x ∈ indices, Stepping.Owns member x)
    (hdiffers : Differs c.members indices member) : c.Divided := by
  cases hdiffers with
  | key hkey =>
    cases hc : c.members with
    | nil =>
      rw [hc] at hmember
      cases hmember
    | cons first others =>
      have hfirst : first ∈ c.members := by
        rw [hc]
        exact .head _
      obtain ⟨a, ha⟩ := Option.isSome_iff_exists.1 (hkeys member hmember)
      obtain ⟨b, hb⟩ := Option.isSome_iff_exists.1 (hkeys first hfirst)
      rw [hc, List.head?_cons, Option.bind_some, ha, hb, bne_iff_toBytes_ne] at hkey
      exact .keys hmember hfirst ha hb fun heq => hkey (congrArg some heq)
  | @share x hx other hother hown hindex hne =>
    obtain ⟨a, ha⟩ := Option.isSome_iff_exists.1 (hinformed member hmember x hown)
    obtain ⟨b, hb⟩ := Option.isSome_iff_exists.1 (hinformed other hother x hindex)
    rw [ha, hb, bne_iff_toBytes_ne] at hne
    exact .shares hmember hother (hindices x hx) ha hb fun heq => hne (congrArg some heq.symm)

/-- In a divided ceremony somebody does not agree with all. -/
theorem Divided.exists_not_agrees {c : Ceremony M} (h : c.Divided) :
    ∃ member ∈ c.members, ∀ indices, (∀ x, Stepping.Owns member x → x ∈ indices) →
      ¬ Agrees c.members indices member := by
  cases h with
  | @keys member other hmember hother a b ha hb hne =>
    by_cases hfirst : (some a).map Point.toBytes = (c.members.head?.bind
        fun first => (Member.core first).groupKey).map Point.toBytes
    · -- the first member has the key of the one, and thus not that of the other
      refine ⟨other, hother, fun _ _ hagrees => ?_⟩
      have hkey := hagrees.key
      rw [hb, bne_eq_false_iff_toBytes_eq, ← hfirst] at hkey
      exact hne (Option.some.inj hkey).symm
    · refine ⟨member, hmember, fun _ _ hagrees => hfirst ?_⟩
      have hkey := hagrees.key
      rwa [ha, bne_eq_false_iff_toBytes_eq] at hkey
  | @shares owner other howner hother x howns a b ha hb hne =>
    refine ⟨owner, howner, fun indices hindices hagrees => ?_⟩
    have hshare := hagrees.shares x (hindices x howns) other hother
    rw [ha, hb, bne_eq_false_iff_toBytes_eq] at hshare
    exact hne (Option.some.inj hshare).symm

namespace Closing

variable {work : M → Answer M Unit} {check : List M → M → Except Error Unit}
  (h : Closing work check)

include h

/-- When the members compare something, all have derived a group key. -/
theorem tracks_lastRounds : (lastRounds work check : Run σ (Ceremony M) (Result K)).Tracks := by
  intro c
  refine .bind (((tracks_steadyRound _ h.careful c).and (steadyRound_ends _ work c)).mono ?_)
  rintro answer c₁ ⟨htracked, hok, hmembers⟩
  cases answer with
  | error refusal =>
    refine ⟨htracked.evolves, ?_⟩
    rintro round failures ⟨⟩
    exact htracked.ruined round failures rfl
  | ok _ =>
    have hkeys : ∀ member ∈ c₁.members, (Member.core member).groupKey.isSome = true := by
      intro member' hmember'
      rw [hmembers] at hmember'
      obtain ⟨member, hmember, rfl⟩ := List.mem_map.1 hmember'
      exact (h.derived member (hok.1 rfl member hmember)).2
    refine .bind (.get (.bind ((inspection_ends "cross-check" _ c₁).mono ?_)))
    rintro _ c₂ ⟨hsame, refused, rfl, hrefused⟩
    have hevolves := htracked.evolves.trans (.of_members_eq hsame)
    cases hsettle : settle "cross-check" refused with
    | ok _ => exact .bind (.get (.pure (.ok hevolves)))
    | error refusal =>
      refine ⟨hevolves, ?_⟩
      rintro round failures ⟨⟩ ⟨failure, hfailure, hverification⟩ - hinformed
      obtain ⟨rfl, rfl⟩ := of_settle_eq_roundAborted hsettle
      obtain ⟨member, hmember, -, hcheck⟩ :=
        (hrefused failure).1 (Error.mem_byPosition hfailure)
      obtain ⟨indices, hindices, hdiffers⟩ := h.differs _ member _ hcheck hverification
      rw [← hsame] at hkeys hmember hdiffers
      exact .inr (divided_of_differs (hinformed rfl) hkeys hmember hindices hdiffers)

/-- A doomed ceremony does not get through the last rounds. -/
theorem barren_lastRounds {c : Ceremony M} (hsettled : c.Settled) (hdoomed : c.Doomed) :
    (lastRounds work check : Run σ (Ceremony M) (Result K)).Ends c fun answer _ =>
      ∀ result, answer ≠ .ok result := by
  refine .bind (((tracks_steadyRound _ h.careful c).and (steadyRound_ends _ work c)).mono ?_)
  rintro answer c₁ ⟨htracked, hok, hmembers⟩
  cases answer with
  | error refusal => rintro _ ⟨⟩
  | ok _ =>
    refine .bind (.get (.bind ((inspection_ends "cross-check" _ c₁).mono ?_)))
    rintro _ c₂ ⟨-, refused, rfl, hrefused⟩
    cases hsettle : settle "cross-check" refused with
    | error refusal => rintro _ ⟨⟩
    | ok _ =>
      exfalso
      obtain ⟨member, hmember, hfailed⟩ | hdivided := hdoomed
      · rw [(h.derived member (hok.1 rfl member hmember)).1] at hfailed
        cases hfailed
      · obtain ⟨member, hmember, hdisagrees⟩ :=
          (hdivided.evolves hsettled htracked.evolves).exists_not_agrees
        cases hcheck : check c₁.members member with
        | ok _ =>
          obtain ⟨indices, hindices, hagrees⟩ := h.agrees _ member hcheck
          exact hdisagrees indices hindices hagrees
        | error refusal =>
          have hmem := (hrefused (_, refusal)).2 ⟨member, hmember, rfl, hcheck⟩
          rw [settle_eq_ok_iff.1 hsettle] at hmem
          cases hmem

end Closing

end Ceremony

open Ceremony

/-- Who derives a group key has not failed, and keeps the key. -/
theorem Participant.of_deriveGroupKey_eq_ok {p : Participant K} {key : Point K}
    (h : p.deriveGroupKey.1 = .ok key) :
    p.aborted = false ∧ p.deriveGroupKey.2.groupKey = some key := by
  obtain ⟨p', hresult⟩ := exists_of_attempt_eq_ok h
  rw [deriveGroupKey, hresult]
  obtain ⟨_, hstage, hrest⟩ := bind_eq_ok_iff.1 hresult
  obtain ⟨_, -, hkey⟩ := bind_eq_ok_iff.1 hrest
  refine ⟨by rw [aborted, (of_requireStage_eq_ok hstage).1]; rfl, ?_⟩
  cases hknown : p.groupKey with
  | some known =>
    rw [hknown] at hkey
    obtain ⟨rfl, rfl⟩ := Prod.mk.inj (Except.ok.inj hkey)
    rfl
  | none =>
    rw [hknown] at hkey
    obtain ⟨sum, -, hkey⟩ := bind_eq_ok_iff.1 hkey
    obtain ⟨rfl, rfl⟩ := Prod.mk.inj (Except.ok.inj hkey)
    rfl

theorem eq_ok_of_forget {S α : Type} {answer : Answer S α} (h : (forget answer).1 = .ok ()) :
    ∃ a, answer.1 = .ok a := by
  rw [forget] at h
  cases hresult : answer.1 with
  | ok a => exact ⟨a, rfl⟩
  | error refusal =>
    rw [hresult] at h
    cases h

theorem Plain.closing :
    Closing (M := Participant K) (fun p => forget p.deriveGroupKey) crossCheck where
  careful p := p.careful_deriveGroupKey.forget
  derived p hok := by
    obtain ⟨key, hkey⟩ := eq_ok_of_forget hok
    obtain ⟨hfailed, hgroup⟩ := Participant.of_deriveGroupKey_eq_ok hkey
    exact ⟨hfailed, Option.isSome_iff_exists.2 ⟨key, hgroup⟩⟩
  agrees members p hok := by
    refine ⟨[p.position], fun x hx => List.mem_singleton.2 hx, ?_⟩
    obtain ⟨-, hagrees⟩ | ⟨finding, hfail, -⟩ | ⟨other, -, -, hfail⟩ := crossCheck_cases members p
    · exact hagrees
    · cases hok.symm.trans hfail
    · cases hok.symm.trans hfail
  differs members p refusal hrefused hverification := by
    refine ⟨[p.position], fun x hx => List.mem_singleton.1 hx, ?_⟩
    obtain ⟨hpass, -⟩ | ⟨finding, -, hdiffers⟩ | ⟨other, -, -, hfail⟩ := crossCheck_cases members p
    · cases hrefused.symm.trans hpass
    · exact hdiffers
    · rw [Except.error.inj (hrefused.symm.trans hfail),
        Error.isVerification_eq_false (Error.isOrdinary_parameters _)] at hverification
      cases hverification

namespace Weighted

/-- What the check of a party comes to, for the keys that it owns. -/
theorem crossCheck_cases (members : List (WeightedParty K)) (w : WeightedParty K) :
    crossCheck members w = .ok () ∧ Agrees members w.keys.scan w ∨
      (∃ refusal, crossCheck members w = .error refusal ∧ Differs members w.keys.scan w) ∨
      ∃ fault, crossCheck members w = .error (.parameters fault) := by
  rw [crossCheck]
  split
  · rename_i hkey
    exact .inr (.inl ⟨_, rfl, .key hkey⟩)
  · rename_i hkey
    obtain ⟨hpass, hall⟩ | ⟨key, hmem, e, he, hfail⟩ := forM_cases (fun key =>
      compareIndex members w (fun other => .failedCheck .publicShareMismatch
        (.keyShare key other.position) [key]) key) w.keys.scan
    · refine .inl ⟨hpass, Bool.eq_false_iff.2 hkey, fun x hx => ?_⟩
      obtain ⟨-, hagree⟩ | ⟨other, -, hfail, -⟩ | ⟨other, -, -, hfail⟩ :=
        compareIndex_cases members w (fun other => .failedCheck .publicShareMismatch
          (.keyShare x other.position) [x]) x
      · exact hagree
      · cases (hall x hx).symm.trans hfail
      · cases (hall x hx).symm.trans hfail
    · obtain ⟨hpass, -⟩ | ⟨other, hother, -, hw, hindex, hdiffers⟩ | ⟨other, -, -, houtside⟩ :=
        compareIndex_cases members w (fun other => .failedCheck .publicShareMismatch
          (.keyShare key other.position) [key]) key
      · cases he.symm.trans hpass
      · exact .inr (.inl ⟨e, hfail, .share hmem hother hw hindex hdiffers⟩)
      · exact .inr (.inr ⟨_, hfail.trans (he.symm.trans houtside)⟩)

/-- A party derives a group key when its participant does. -/
theorem of_deriveGroupKey_eq_ok {w : WeightedParty K} {key : Point K}
    (h : w.deriveGroupKey.1 = .ok key) :
    w.core.aborted = false ∧ w.deriveGroupKey.2.core.groupKey.isSome = true := by
  rw [WeightedParty.deriveGroupKey, WeightedParty.onCore] at h ⊢
  cases hderive : w.core.deriveGroupKey.1 with
  | error refusal =>
    rw [hderive] at h
    cases h
  | ok derived =>
    obtain ⟨hfailed, hkey⟩ := Participant.of_deriveGroupKey_eq_ok hderive
    refine ⟨hfailed, ?_⟩
    dsimp only
    rw [WeightedParty.core_advanceSlots, hkey]
    rfl

theorem closing :
    Closing (M := WeightedParty K) (fun w => forget w.deriveGroupKey) crossCheck where
  careful w := w.careful_deriveGroupKey.forget
  derived w hok := by
    obtain ⟨key, hkey⟩ := eq_ok_of_forget hok
    exact of_deriveGroupKey_eq_ok hkey
  agrees members w hok := by
    refine ⟨w.keys.scan, fun x hx => KeySet.mem_scan.2 hx, ?_⟩
    obtain ⟨-, hagrees⟩ | ⟨refusal, hfail, -⟩ | ⟨fault, hfail⟩ := crossCheck_cases members w
    · exact hagrees
    · cases hok.symm.trans hfail
    · cases hok.symm.trans hfail
  differs members w refusal hrefused hverification := by
    refine ⟨w.keys.scan, fun x hx => KeySet.mem_scan.1 hx, ?_⟩
    obtain ⟨hpass, -⟩ | ⟨_, -, hdiffers⟩ | ⟨fault, hfail⟩ := crossCheck_cases members w
    · cases hrefused.symm.trans hpass
    · exact hdiffers
    · rw [Except.error.inj (hrefused.symm.trans hfail),
        Error.isVerification_eq_false (Error.isOrdinary_parameters _)] at hverification
      cases hverification

end Weighted

/-! ### Methods by name -/

namespace Ceremony

variable {M : Type} [Member M K] [Stepping M]

/-- That a run has no result from where a ceremony is doomed. -/
def Barren {α : Type} (m : Run σ (Ceremony M) α) : Prop :=
  ∀ c, c.Settled → c.Doomed → m.Ends c fun answer _ => ∀ a, answer ≠ .ok a

namespace Barren

variable {α β : Type} {m : Run σ (Ceremony M) α} {f : α → Run σ (Ceremony M) β}

theorem bind (hm : Barren m) : Barren (m >>= f) := by
  intro c hsettled hdoomed
  refine .bind ((hm c hsettled hdoomed).mono fun answer _ hanswer => ?_)
  cases answer with
  | error refusal => rintro _ ⟨⟩
  | ok a => exact absurd rfl (hanswer a)

theorem behind (hm : m.Tracks) (hf : ∀ a, Barren (f a)) : Barren (m >>= f) := by
  intro c hsettled hdoomed
  refine .bind ((hm c).mono fun answer c₁ htracked => ?_)
  cases answer with
  | error refusal => rintro _ ⟨⟩
  | ok a =>
    exact hf a c₁ (htracked.evolves.settled hsettled) (hdoomed.evolves hsettled htracked.evolves)

end Barren

/-- What is known of the rounds of a kind of ceremonies. -/
structure Followed (rounds : Rounds σ M K) [RandomSource σ] : Prop where
  distributeShares : rounds.distributeShares.Tracks
  verifyShares : rounds.verifyShares.Tracks
  derivePublicShares : rounds.derivePublicShares.Tracks
  deriveGroupKey : rounds.deriveGroupKey.Tracks
  barren : Barren rounds.deriveGroupKey
  run_eq : rounds.run = (do
    exchangeCommitments
    verifyProofs
    rounds.distributeShares
    rounds.verifyShares
    rounds.derivePublicShares
    rounds.deriveGroupKey)

namespace Followed

variable [RandomSource σ] {rounds : Rounds σ M K} (h : Followed rounds)

include h

theorem tracks_run : rounds.run.Tracks := by
  rw [h.run_eq]
  exact .bind tracks_exchangeCommitments fun _ => .bind tracks_verifyProofs fun _ =>
    .bind h.distributeShares fun _ => .bind h.verifyShares fun _ =>
      .bind h.derivePublicShares fun _ => h.deriveGroupKey

theorem barren_run : Barren rounds.run := by
  rw [h.run_eq]
  exact .behind tracks_exchangeCommitments fun _ => .behind tracks_verifyProofs fun _ =>
    .behind h.distributeShares fun _ => .behind h.verifyShares fun _ =>
      .behind h.derivePublicShares fun _ => h.barren

theorem tracks_named (name : String) : (rounds.named name).Tracks := by
  unfold Rounds.named
  split
  · exact .bind tracks_exchangeCommitments fun _ => .pure _
  · exact .bind tracks_verifyProofs fun _ => .pure _
  · exact .bind h.distributeShares fun _ => .pure _
  · exact .bind h.verifyShares fun _ => .pure _
  · exact .bind h.derivePublicShares fun _ => .pure _
  · exact .bind h.deriveGroupKey fun _ => .pure _
  · exact .bind h.tracks_run fun _ => .pure _
  · exact fun c => .throw (.error (.refl c) rfl)

/-- From where a ceremony is doomed, no method has a result. -/
theorem named_ends (name : String) {c : Ceremony M} (hsettled : c.Settled) (hdoomed : c.Doomed) :
    (rounds.named name).Ends c fun answer _ => ∀ result, answer ≠ .ok (some result) := by
  have hquiet : ∀ round : Run σ (Ceremony M) Unit, (do round; return none :
      Run σ (Ceremony M) (Option (Result K))).Ends c fun answer _ =>
        ∀ result, answer ≠ .ok (some result) := by
    refine fun round => .bind (.any fun answer c' => ?_)
    cases answer with
    | error refusal => rintro _ ⟨⟩
    | ok _ => exact .pure (by rintro _ ⟨⟩)
  have hbarren : ∀ {m : Run σ (Ceremony M) (Result K)}, Barren m → (do return some (← m) :
      Run σ (Ceremony M) (Option (Result K))).Ends c fun answer _ =>
        ∀ result, answer ≠ .ok (some result) :=
    fun hm => (hm.bind c hsettled hdoomed).mono fun answer _ hanswer result => hanswer (some result)
  unfold Rounds.named
  split
  · exact hquiet _
  · exact hquiet _
  · exact hquiet _
  · exact hquiet _
  · exact hquiet _
  · exact hbarren h.barren
  · exact hbarren h.barren_run
  · exact .throw (by rintro _ ⟨⟩)

end Followed

end Ceremony

theorem Plain.followed [RandomSource σ] : Followed (Plain.rounds : Rounds σ (Participant K) K) where
  distributeShares := tracks_distributeShares
  verifyShares := tracks_verifyShares
  derivePublicShares := tracks_derivePublicShares
  deriveGroupKey := closing.tracks_lastRounds
  barren _ hsettled hdoomed := closing.barren_lastRounds hsettled hdoomed
  run_eq := rfl

theorem Weighted.followed [RandomSource σ] :
    Followed (Weighted.rounds : Rounds σ (WeightedParty K) K) where
  distributeShares := tracks_distributeShares
  verifyShares := tracks_verifyShares
  derivePublicShares := tracks_derivePublicShares
  deriveGroupKey := closing.tracks_lastRounds
  barren _ hsettled hdoomed := closing.barren_lastRounds hsettled hdoomed
  run_eq := rfl

end ThresholdKeygen
