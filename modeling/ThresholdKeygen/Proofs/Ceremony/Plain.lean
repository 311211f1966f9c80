import ThresholdKeygen.Ceremony.Plain
import ThresholdKeygen.Proofs.Ceremony.Exchange
import ThresholdKeygen.Proofs.Point.Residues

/-!
# Plain ceremonies among honest participants

A plain ceremony is followed round by round, each of which takes the participants from one state of
the run to the next one. Main statement: `plainRun_completes`, a ceremony with a feasible
configuration succeeds whatever its participants draw, and hands out the key material of one
sharing.
-/

namespace ThresholdKeygen

variable {K : Type} [Suite K] {σ : Type}

namespace Participant

/-! ### States of a run -/

/-- An honest participant that has received the shares of all dealers. -/
structure Supplied (s : Sharing) (n x : Int) (p : Participant K) : Prop extends Honest s n x p where
  stage_eq : p.stage = .sharesDistributed
  dealtTo : s.DealtTo x p.sharesIn

/-- An honest participant that has verified the shares of all dealers. -/
structure Checked (s : Sharing) (n x : Int) (p : Participant K) : Prop extends Honest s n x p where
  le_stage : .sharesVerified ≤ p.stage
  dealtTo : s.DealtTo x p.sharesIn
  powerMap : p.powerMap.isSome

/-- An honest participant that has its signing share and has announced its image. -/
structure Signed (s : Sharing) (n x : Int) (p : Participant K) : Prop
    extends Announced s n (fun x y => y = x) x p where
  signingShare_some : p.signingShare = some (s.value x)

/-- What a participant has at the end of a run: all that it can know of a sharing, and its signing
share. -/
structure Finished (s : Sharing) (n x : Int) (p : Participant K) : Prop extends Keyed s n x p where
  signingShare_eq : p.signingShare = some (s.value x)

variable {s : Sharing} {n x : Int} {p : Participant K}

theorem Dealt.receiveShares_eq (h : p.Dealt s n x) {inbox : Inbox} (hinbox : s.DealtTo x inbox) :
    ∃ p', p.receiveShares (.ofInbox inbox) = (.ok (), p') ∧ p'.Supplied s n x := by
  have hstage : ¬ Stage.sharesVerified ≤ p.stage := by rw [h.stage_eq]; decide
  obtain ⟨sharesIn, hreceive, hdealt⟩ :=
    h.consistent.receiveShares_eq hstage h.sharesIn_eq hinbox
  exact ⟨_, hreceive, { h with consistent := { h.consistent with }, dealtTo := hdealt }⟩

theorem Supplied.derivePowerMap_eq (h : p.Supplied s n x) :
    ∃ m p', p.derivePowerMap = (.ok m, p') ∧ p'.Supplied s n x ∧ p'.powerMap.isSome := by
  obtain ⟨m, hderive, hm⟩ := h.consistent.derivePowerMap_eq
  exact ⟨m, _, hderive, { h with consistent := h.consistent.consistent_powerMap hm }, rfl⟩

theorem Supplied.always_verifyShares [RandomSource σ] [LawfulSuite K] (h : p.Supplied s n x)
    (hpowers : p.powerMap.isSome) (hx : x ∈ upTo n) :
    Always (p.verifyShares none none : StateM σ _) fun answer =>
      answer.1 = .ok () ∧ answer.2.Checked s n x := by
  obtain ⟨h₁, h₂⟩ := mem_upTo.1 hx
  obtain ⟨m, hm⟩ := Option.isSome_iff_exists.1 hpowers
  have hstage : .sharesDistributed ≤ p.stage := by rw [h.stage_eq]; exact Nat.le_refl _
  have hposition := h.position_eq
  have hn := h.n_eq
  subst hposition hn
  refine (h.consistent.always_verifyShares hm hstage h.dealtTo h₁ h₂).mono ?_
  rintro _ rfl
  exact ⟨rfl, { h with
    consistent := h.consistent.consistent_advance _
    le_stage := Stage.le_later_right _ _
    powerMap := hpowers }⟩

theorem Checked.computeOwnShare_eq [LawfulSuite K] (h : p.Checked s n x) (hx : x ∈ upTo n) :
    ∃ p', Plain.computeOwnShare p = (.ok (), p') ∧ p'.Signed s n x := by
  obtain ⟨h₁, h₂⟩ := mem_upTo.1 hx
  have hposition := h.position_eq
  have hn := h.n_eq
  subst hposition hn
  have hsigned := h.consistent.consistent_signingShare.consistent_advance .signingShareComputed
  have hstage : Stage.signingShareComputed ≤
      ({ p with signingShare := some (s.value p.position) }.advance .signingShareComputed).stage :=
    Stage.le_later_right _ _
  have hpublish := hsigned.publishOwnShare_eq (x := p.position) hstage
    (Option.getD_none) h₁ h₂ (Option.none_or)
  rw [Plain.computeOwnShare, h.consistent.computeSigningShare_eq h.le_stage h.dealtTo]
  simp only [Ceremony.andThen, hpublish]
  refine ⟨_, rfl, { h with
    consistent := hsigned.consistent_publicShares ?_
    le_stage := hstage
    signingShare_some := rfl
    announced := ?_ }⟩
  · rintro y hy
    rw [List.mem_singleton.1 hy]
    exact ⟨h₁, h₂⟩
  · rintro _ rfl
    rw [get?_withPublicShares, if_pos (List.mem_singleton_self _)]
    rfl

end Participant

namespace Plain

open Ceremony Participant

variable {config : Config} {inboxes : Mapping Int Inbox} {s : Sharing} {n : Int}
  {c : Ceremony (Participant K)}

/-! ### Inboxes -/

/-- That inboxes hold the shares for an index from the dealers that a relation assigns to it, and no
others. -/
def Collected (s : Sharing) (n : Int) (H : Int → Int → Prop) (inboxes : Mapping Int Inbox) : Prop :=
  ∀ y ∈ upTo n, ∀ i,
    (H y i → ((inboxes.get? y).getD .empty).get? i = some ((s.dealt i).evaluate y)) ∧
      (¬ H y i → ((inboxes.get? y).getD .empty).get? i = none)

omit [Suite K] in
theorem Collected.congr {H H' : Int → Int → Prop} (h : Collected s n H inboxes)
    (hHH' : ∀ y ∈ upTo n, ∀ i, H' y i ↔ H y i) : Collected s n H' inboxes := by
  intro y hy i
  rw [hHH' y hy i]
  exact h y hy i

theorem reaches_collectShare {H : Int → Int → Prop} (h : Collected s n H c.inboxes)
    {sender receiver : Participant K} {x y : Int} (hsender : sender.Dealt s n x)
    (hreceiver : receiver.position = y) (hy : y ∈ upTo n) :
    (collectShare sender receiver : Action σ K Unit).Reaches c fun _ c' =>
      ∃ inboxes, c' = { c with inboxes } ∧
        Collected s n (fun z i => H z i ∨ z = y ∧ i = x) inboxes := by
  refine .bind (.steady (hreceiver ▸ hsender.shareFor_eq hy) (.modify ⟨_, rfl, fun z hz i => ?_⟩))
  obtain ⟨hheld, hmissing⟩ := h z hz i
  rw [hreceiver, hsender.position_eq, Mapping.get?_put]
  by_cases hzy : z = y
  · subst hzy
    rw [if_pos rfl, Option.getD_some, Mapping.get?_put]
    by_cases hix : i = x
    · subst hix
      simp
    · simpa [hix] using And.intro hheld hmissing
  · simpa [hzy] using And.intro hheld hmissing

/-- One sender is through with all receivers. -/
theorem reaches_collectFrom {H : Int → Int → Prop} (h : Collected s n H c.inboxes)
    {sender : Participant K} {x : Int} (hsender : sender.Dealt s n x)
    {members : List (Participant K)} (hmembers : ∀ p ∈ members, p.position ∈ upTo n) :
    (members.forM fun receiver => collectShare sender receiver : Action σ K Unit).Reaches c
      fun _ c' => ∃ inboxes, c' = { c with inboxes } ∧
        Collected s n (fun y i => H y i ∨ i = x ∧ y ∈ members.map position) inboxes := by
  refine Run.Reaches.forM (I := fun (done : List (Participant K)) c' =>
    ∃ inboxes, c' = { c with inboxes } ∧
    Collected s n (fun y i => H y i ∨ i = x ∧ y ∈ done.map position) inboxes) ?_ ?_
  · exact ⟨c.inboxes, rfl, by simpa using h⟩
  · rintro done receiver rest _ hmem ⟨inboxes, rfl, hcollected⟩
    have hreceiver := hmembers receiver (by rw [hmem]; simp)
    refine (reaches_collectShare hcollected hsender rfl hreceiver).mono ?_
    rintro _ _ ⟨inboxes', rfl, hcollected'⟩
    refine ⟨inboxes', rfl, hcollected'.congr fun y hy i => ?_⟩
    rw [List.map_append, List.mem_append, List.map_singleton, List.mem_singleton, and_or_left,
      or_assoc, and_comm (a := y = receiver.position)]

/-- All senders are through with all receivers. -/
theorem reaches_collectShares (h : Collected s n (fun _ _ => False) c.inboxes)
    {members : List (Participant K)} (hmembers : ∀ p ∈ members, ∃ x ∈ upTo n, p.Dealt s n x)
    (hpositions : ∀ y ∈ upTo n, y ∈ members.map position) :
    (members.forM fun sender => members.forM fun receiver => collectShare sender receiver :
      Action σ K Unit).Reaches c fun _ c' => ∃ inboxes, c' = { c with inboxes } ∧
        Collected s n (fun _ i => i ∈ members.map position) inboxes := by
  have hreceivers : ∀ p ∈ members, p.position ∈ upTo n := by
    intro p hp
    obtain ⟨x, hx, hdealt⟩ := hmembers p hp
    rwa [hdealt.position_eq]
  refine Run.Reaches.forM (I := fun (done : List (Participant K)) c' =>
    ∃ inboxes, c' = { c with inboxes } ∧
    Collected s n (fun _ i => i ∈ done.map position) inboxes) ?_ ?_
  · exact ⟨c.inboxes, rfl, by simpa using h⟩
  · rintro done sender rest _ hmem ⟨inboxes, rfl, hcollected⟩
    obtain ⟨x, hx, hsender⟩ := hmembers sender (by rw [hmem]; simp)
    refine (reaches_collectFrom hcollected hsender hreceivers).mono ?_
    rintro _ _ ⟨inboxes', rfl, hcollected'⟩
    refine ⟨inboxes', rfl, hcollected'.congr fun y hy i => ?_⟩
    rw [List.map_append, List.mem_append, List.map_singleton, List.mem_singleton,
      hsender.position_eq, and_iff_left (hpositions y hy)]

/-- Every participant receives what all dealers deal to its position. -/
theorem reaches_deliverInboxes (h : c.Seats config inboxes fun x p => p.Dealt s n x)
    (hinboxes : ∀ y ∈ upTo config.participants, s.DealtTo y ((inboxes.get? y).getD .empty)) :
    ((List.range c.members.length).forM deliverInbox : Action σ K Unit).Reaches c fun _ c' =>
      c'.Seats config inboxes fun x p => p.Supplied s n x := by
  -- the participants at the first places have received their inboxes
  let received (done : List Nat) (c' : Ceremony (Participant K)) : Prop :=
    c'.Seats config inboxes fun x p =>
      if (x - 1).toNat ∈ done then p.Supplied s n x else p.Dealt s n x
  have hplace : ∀ place : Nat, ((place : Int) + 1 - 1).toNat = place := by omega
  refine (Run.Reaches.forM (I := received) ?_ ?_).mono fun _ c' h' => ?_
  · exact h.mono fun x p _ hp => (if_neg List.not_mem_nil).mpr hp
  · intro done place rest c₁ hrange h₁
    have hlength : place < c₁.members.length := by
      have hmem : place ∈ List.range c.members.length := by rw [hrange]; simp
      have := List.mem_range.1 hmem
      have := h.length_eq
      have := h₁.length_eq
      omega
    have hfresh : place ∉ done := by
      have hnodup := hrange ▸ List.nodup_range (n := c.members.length)
      exact fun hdone => (List.nodup_append.1 hnodup).2.2 place hdone place (.head _) rfl
    obtain ⟨p, hp⟩ : ∃ p, c₁.members[place]? = some p := ⟨_, List.getElem?_eq_getElem hlength⟩
    have hdealt := h₁.seated place p hp
    rw [hplace, if_neg hfresh] at hdealt
    obtain ⟨p', hreceive, hsupplied⟩ := hdealt.receiveShares_eq (hinboxes _ (h₁.mem_upTo hp))
    rw [← hdealt.position_eq, ← h₁.inboxes_eq] at hreceive
    refine .bind (.get (.bind (reaches_onMember hp hreceive (.pure (h₁.set ?_ ?_)))))
    · rw [hplace, if_pos (by simp)]
      exact hsupplied
    · intro i other hi hother
      rw [hplace] at hother ⊢
      simpa [hi] using hother
  · apply h'.mono
    intro x p hx hp
    obtain ⟨hx₁, hx₂⟩ := mem_upTo.1 hx
    have := h.length_eq
    rwa [if_pos (List.mem_range.2 (by omega))] at hp

/-- All shares that have been dealt are collected and delivered. -/
theorem reaches_handOver (hn : n = config.participants) (hdealers : s.dealers = n)
    (hempty : Collected s n (fun _ _ => False) inboxes)
    (h : c.Seats config inboxes fun x p => p.Dealt s n x) :
    (do
      c.members.forM fun sender => c.members.forM fun receiver => collectShare sender receiver
      (List.range c.members.length).forM deliverInbox : Action σ K Unit).Reaches c fun _ c' =>
        ∃ inboxes, c'.Seats config inboxes fun x p => p.Supplied s n x := by
  subst hn
  have hmembers : ∀ p ∈ c.members, ∃ x ∈ upTo config.participants,
      p.Dealt s config.participants x := fun p hp => h.exists_seat hp
  have hpositions : ∀ y, y ∈ c.members.map position ↔ y ∈ upTo config.participants :=
    fun _ => h.mem_positions fun _ _ hp => hp.position_eq
  have hcollect := reaches_collectShares (σ := σ) (c := c) (by rwa [h.inboxes_eq]) hmembers
    fun y hy => (hpositions y).2 hy
  refine .bind (hcollect.mono ?_)
  rintro _ _ ⟨inboxes', rfl, hcollected⟩
  have h' : { c with inboxes := inboxes' }.Seats config inboxes' fun x (p : Participant K) =>
      p.Dealt s config.participants x := { h with inboxes_eq := rfl }
  refine (reaches_deliverInboxes h' fun y hy i => ?_).mono fun _ c' h' => ⟨inboxes', h'⟩
  obtain ⟨hheld, hmissing⟩ := hcollected y hy i
  split
  · exact hheld ((hpositions i).2 (hdealers ▸ ‹i ∈ _›))
  · exact hmissing fun hi => ‹i ∉ _› (hdealers ▸ (hpositions i).1 hi)

theorem reaches_distributeShares (hn : n = config.participants) (hdealers : s.dealers = n)
    (hempty : Collected s n (fun _ _ => False) inboxes)
    (h : c.Seats config inboxes fun x p => p.Ready s n x) :
    (distributeShares : Action σ K Unit).Reaches c fun _ c' =>
      ∃ inboxes, c'.Seats config inboxes fun x p => p.Supplied s n x :=
  .bind ((reaches_steadyRound h fun _ _ _ hp => hp.dealShares_eq).mono fun _ _ h₁ =>
    .bind (.get (reaches_handOver hn hdealers hempty h₁)))

/-! ### Results -/

/-- What a plain ceremony ends with: every participant has all that it can know of a sharing, the
result has its group key and public shares, and enough signing shares recover its values. -/
structure Completed (config : Config) (s : Sharing) (result : Result K)
    (c : Ceremony (Participant K)) : Prop where
  length_eq : (c.members.length : Int) = config.participants
  finished : ∀ (place : Nat) p, c.members[place]? = some p →
    p.Finished s config.participants (place + 1)
  groupKey_eq : result.groupKey = some (.ofScalar (s.value 0))
  publicShares_eq : result.publicShares = s.publicShares (upTo config.participants)
  recovers : ∀ points : List (Int × Scalar), (points.map Prod.fst).Nodup →
    config.threshold ≤ points.length →
    (∀ point ∈ points, ∃ p ∈ c.members, p.position = point.1 ∧ p.signingShare = some point.2) →
      ∀ y : Int, interpolate points y = .ok (s.value y)

theorem Completed.of_seats (hconfig : config.Feasible) (hs : s.DealtFor config)
    (hn : config.shareIndices = config.participants)
    (h : c.Seats config inboxes fun x p => p.Finished s config.participants x) :
    Completed config s c.result c := by
  obtain ⟨hkey, hshares⟩ := result_eq hconfig (fun _ _ hp => hp.toKeyed) h
  refine ⟨h.length_eq, h.seated, hkey, hshares, fun points hnodup hlength hpoints y => ?_⟩
  refine hs.interpolate_eq hconfig hnodup hlength (fun point hpoint => ?_) y
  obtain ⟨p, hp, hposition, hshare⟩ := hpoints point hpoint
  obtain ⟨x, hx, hfinished⟩ := h.exists_seat hp
  rw [hfinished.signingShare_eq] at hshare
  rw [← hposition, hfinished.position_eq, hn]
  exact ⟨hx, (Option.some.inj hshare).symm⟩

/-! ### Rounds -/

variable [LawfulSuite K]

theorem reaches_verifyShares [RandomSource σ] (hn : n = config.participants)
    (h : c.Seats config inboxes fun x p => p.Supplied s n x) :
    (verifyShares : Action σ K Unit).Reaches c fun _ c' =>
      c'.Seats config inboxes fun x p => p.Checked s n x := by
  subst hn
  have hderive : ∀ x (p : Participant K), x ∈ upTo config.participants →
      p.Supplied s config.participants x → ∃ p', forget p.derivePowerMap = (.ok (), p') ∧
        p'.Supplied s config.participants x ∧ p'.powerMap.isSome := by
    intro x p _ hp
    obtain ⟨m, p', hderive, hp'⟩ := hp.derivePowerMap_eq
    exact ⟨p', forget_eq hderive, hp'⟩
  refine .bind ((reaches_steadyRound h hderive).mono fun _ c₁ h₁ => ?_)
  exact reaches_round h₁ fun x p hx hp => hp.1.always_verifyShares hp.2 hx

theorem reaches_derivePublicShares (hconfig : config.Feasible) (hs : s.DealtFor config)
    (hn : config.shareIndices = config.participants)
    (h : c.Seats config inboxes fun x p => p.Checked s config.shareIndices x) :
    (derivePublicShares : Action σ K Unit).Reaches c fun _ c' =>
      c'.Seats config inboxes fun x p =>
        p.Published s config.shareIndices x ∧ p.signingShare = some (s.value x) := by
  refine .bind ((reaches_steadyRound h fun x p hx hp =>
    hp.computeOwnShare_eq (hn ▸ hx)).mono fun _ c₁ h₁ => ?_)
  have hmaps : (propagateMaps : Action σ K Unit).Reaches c₁ fun _ c' =>
      c'.Seats config inboxes fun x (p : Participant K) =>
        (p.Signed s config.shareIndices x ∧ p.shareMap.isSome) ∧ True :=
    reaches_propagateMaps (P := fun x p => p.Signed s config.shareIndices x)
      (Q := fun x p => p.Signed s config.shareIndices x ∧ p.shareMap.isSome)
      (Φ := fun _ _ => True) hconfig hs (fun _ _ _ _ => trivial) (fun _ _ hp => hp.equipped)
      (fun _ _ hp => ⟨⟨hp.announced_withPublicMaps, hp.signingShare_some⟩, rfl⟩)
      (h₁.mono fun _ _ _ hp => ⟨hp, trivial⟩)
  refine .bind (hmaps.mono fun _ c₂ h₂ => reaches_steadyRound h₂ fun x p _ hmember => ?_)
  obtain ⟨⟨hp, hmap⟩, -⟩ := hmember
  have hown : ∀ y ∈ [p.position], y = x := by
    intro y hy
    rw [List.mem_singleton.1 hy, hp.position_eq]
  obtain ⟨shares, p', hpublish, hp', hshare⟩ := hp.publishShares_eq hmap hown
  exact ⟨p', forget_eq hpublish, hp', hshare.trans hp.signingShare_some⟩

theorem crossCheck_eq {first : Participant K} {others : List (Participant K)}
    (hmembers : ∀ q ∈ first :: others, ∃ x, q.Finished s n x) {p : Participant K} {x : Int}
    (hp : p.Finished s n x) (hx : x ∈ upTo n) : crossCheck (first :: others) p = .ok () := by
  obtain ⟨y, hfirst⟩ := hmembers first (.head _)
  have hothers : (first :: others).forM (fun q => do
      if (← q.publicShareOf x) != some (Point.ofScalar (s.value x)) then
        throw (Error.failedCheck .publicShareMismatch (.participantShare x q.position) [x])) =
      .ok () := by
    apply forM_eq_ok
    intro q hq
    obtain ⟨z, hq⟩ := hmembers q hq
    rw [hq.publicShareOf_eq hx, ok_bind, bne_self_eq_false]
    rfl
  rw [crossCheck, hp.position_eq, hp.groupKey_eq, hp.publicShareOf_eq hx]
  simp only [List.head?_cons, Option.bind_some, hfirst.groupKey_eq, bne_self_eq_false, ok_bind]
  exact hothers

theorem reaches_deriveGroupKey (hconfig : config.Feasible) (hs : s.DealtFor config)
    (hn : config.shareIndices = config.participants)
    (h : c.Seats config inboxes fun x p =>
      p.Published s config.shareIndices x ∧ p.signingShare = some (s.value x)) :
    (deriveGroupKey : Action σ K (Result K)).Reaches c fun result c' =>
      Completed config s result c' := by
  have hthreshold := hs.one_le_threshold hconfig
  rw [hn] at h
  have hderive : ∀ x (p : Participant K), x ∈ upTo config.participants →
      p.Published s config.participants x ∧ p.signingShare = some (s.value x) →
        ∃ p', forget p.deriveGroupKey = (.ok (), p') ∧ p'.Finished s config.participants x := by
    rintro x p - ⟨hp, hsigned⟩
    obtain ⟨key, p', hderive, hp', hshare⟩ := hp.deriveGroupKey_eq hthreshold
    exact ⟨p', forget_eq hderive, hp', hshare.trans hsigned⟩
  refine .bind ((reaches_steadyRound h hderive).mono fun _ c₁ h₁ => ?_)
  refine Run.Reaches.mono (reaches_crossCheck hconfig
    (fun first others x p hmembers hx hp => crossCheck_eq hmembers hp hx) h₁) ?_
  rintro _ c₂ ⟨h₂, rfl⟩
  exact .of_seats hconfig hs hn h₂

/-! ### Runs -/

omit [LawfulSuite K] in
/-- Creation succeeds, and the polynomials that are drawn are a sharing. -/
theorem succeeds_start [RandomSource σ] (hconfig : config.Sized) (hplain : config.keys = none) :
    Succeeds (start config : ExceptT Error (StateM σ) (Ceremony (Participant K))) fun c =>
      ∃ s : Sharing, s.DealtFor config ∧
        c.Seats config c.inboxes (fun x p => p.Enrolled s config.participants x) ∧
        Collected s config.participants (fun _ _ => False) c.inboxes := by
  obtain ⟨hparticipants, hcount, ht₁, ht₂, hslots⟩ := hconfig
  have hn := Config.shareIndices_of_none hplain
  obtain ⟨t, ht⟩ : ∃ t : Nat, config.threshold = t := ⟨config.threshold.toNat, by omega⟩
  have hcreate : Succeeds (createFrom (fun position =>
      Participant.create config.participants t position none config.label.toItem)
      config.participants.toNat 1 : ExceptT Error (StateM σ) (List (Participant K))) _ :=
    succeeds_createFrom
      (R := New config.participants config.participants t (config.label.toItem : Item K))
      fun x h₁ h₂ => succeeds_create (by omega) (by omega) le_rfl h₁ (by omega) (by omega) rfl _
  rw [start, if_neg (by simp [Config.weighted, hplain]), ht]
  refine .bind (hcreate.mono ?_)
  rintro members ⟨hlength, hmembers⟩
  have hlength' : (members.length : Int) = config.participants := by omega
  obtain ⟨s, hs, henrolled⟩ := exists_enrolled hlength' ht hmembers
  refine .pure ⟨s, hs, ⟨rfl, rfl, hlength', henrolled⟩, fun y hy i => ?_⟩
  rw [Mapping.get?_ofList, if_pos hy]
  exact ⟨False.elim, fun _ => rfl⟩

/-- A plain ceremony among honest participants succeeds whatever they draw, in either mode of the
public maps, and completes with the sharing of the polynomials that they have drawn. -/
theorem plainRun_completes [RandomSource σ] (hconfig : config.Feasible)
    (hplain : config.keys = none) :
    Succeeds (start config : ExceptT Error (StateM σ) (Ceremony (Participant K))) fun c =>
      ∃ s : Sharing, s.DealtFor config ∧
        (∀ (place : Nat) p, c.members[place]? = some p → p.polynomial = s.dealt (place + 1)) ∧
        (run : Action σ K (Result K)).Reaches c fun result c' => Completed config s result c' := by
  have hn : config.shareIndices = config.participants := by rw [Config.shareIndices, hplain]; rfl
  refine (succeeds_start hconfig.sized hplain).mono ?_
  rintro c ⟨s, hs, hseats, hinboxes⟩
  refine ⟨s, hs, fun place p hp => (hseats.seated place p hp).polynomial_eq, ?_⟩
  have hdealers := hs.dealers_eq
  rw [run]
  refine .bind (Run.Reaches.mono (reaches_exchangeCommitments (Φ := fun _ _ => True)
    (fun _ _ _ _ => trivial) hdealers (hseats.mono fun _ _ _ hp => ⟨hp, trivial⟩))
      fun _ c₁ h₁ => ?_)
  refine .bind ((reaches_verifyProofs hconfig hs (fun _ _ hp => hn ▸ hp.1.toHonest) h₁).mono
    fun _ c₂ h₂ => ?_)
  refine .bind ((reaches_distributeShares rfl hdealers hinboxes
    (h₂.mono fun _ _ _ hp => hp.1)).mono ?_)
  rintro _ c₃ ⟨inboxes, h₃⟩
  refine .bind ((reaches_verifyShares rfl h₃).mono fun _ c₄ h₄ => ?_)
  rw [← hn] at h₄
  refine .bind ((reaches_derivePublicShares hconfig hs hn h₄).mono fun _ c₅ h₅ => ?_)
  exact reaches_deriveGroupKey hconfig hs hn h₅

/-- Three participants, two of whom recover what they share. -/
theorem exists_plainRun_completes : ∃ config : Config, config.Feasible ∧ config.keys = none ∧
    Succeeds (start config : ExceptT Error (StateM Tape) (Ceremony (Participant ResidueKey)))
      fun c => ∃ s : Sharing, s.DealtFor config ∧
        (∀ (place : Nat) p, c.members[place]? = some p → p.polynomial = s.dealt (place + 1)) ∧
        (run : Action Tape ResidueKey (Result ResidueKey)).Reaches c fun result c' =>
          Completed config s result c' := by
  have hconfig : (⟨3, 2, none, .bytes [], .broadcast, none⟩ : Config).Feasible := by
    refine ⟨?_, ?_, ?_, ?_, ?_, [], rfl, ?_⟩ <;> decide
  exact ⟨_, hconfig, rfl, plainRun_completes hconfig rfl⟩

end Plain

end ThresholdKeygen
