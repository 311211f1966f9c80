import ThresholdKeygen.Proofs.Ceremony.CrossCheck
import ThresholdKeygen.Proofs.Ceremony.InStep
import ThresholdKeygen.Proofs.Ceremony.Weighted
import ThresholdKeygen.Proofs.Participant.Blind

/-!
# Parties with a single slot

A party whose only key is its position does what a participant at this position does. Its shares lie
in a slot, and the participant that it wraps has none; apart from them both have the same data, so
that operations that are blind to shares come to the same.
-/

namespace ThresholdKeygen

variable {K : Type} [Suite K] {σ α : Type}

/-- The participant without the shares that it has received, and without their sum. -/
def Participant.bare (p : Participant K) : Participant K := p.holding .empty none

namespace Participant.Blind

variable {operation : Participant K → Answer (Participant K) α} (h : Blind operation)

include h

omit [Suite K] in
theorem bare (p : Participant K) :
    operation p.bare = ((operation p).1, (operation p).2.bare) := h.commutes p .empty none

omit [Suite K] in
theorem sharesIn_eq (p : Participant K) : (operation p).2.sharesIn = p.sharesIn :=
  congrArg (fun answer => answer.2.sharesIn) (h.commutes p p.sharesIn p.signingShare)

omit [Suite K] in
theorem signingShare_eq (p : Participant K) : (operation p).2.signingShare = p.signingShare :=
  congrArg (fun answer => answer.2.signingShare) (h.commutes p p.sharesIn p.signingShare)

end Participant.Blind

/-- What a participant at a position has of shares, beside what a party keeps for its slots. -/
abbrev Holdings := Int → Inbox → Option Scalar → Mapping Int Delivery → Mapping Int Stage → Prop

/-- That a party whose only key is its position has, apart from shares, the data of a participant
among as many dealers as share indices. -/
structure Mirrors (n : Int) (Φ : Holdings) (x : Int) (p : Participant K) (w : WeightedParty K) :
    Prop where
  core_eq : w.core = p.bare
  position_eq : p.position = x
  n_eq : p.n = n
  dealers_eq : p.dealers = n
  position_mem : x ∈ upTo n
  members_eq : w.keys.members = [x]
  parties_eq : w.parties = n
  signingShare_eq : w.signingShares.get? x = p.signingShare
  holdings : Φ x p.sharesIn p.signingShare w.inboxes w.slotStages

/-- That slots are still open for shares. -/
def Open : Holdings := fun _ _ _ _ stages =>
  ∀ key, WeightedParty.stageAt stages key ≤ .sharesDistributed

/-- That the slot has the same shares from all dealers. -/
def Loaded (n : Int) : Holdings := fun x sharesIn _ inboxes _ =>
  ∃ inbox, inboxes.get? x = some (.ofInbox inbox) ∧ (∀ i, inbox.get? i = sharesIn.get? i) ∧
    ∀ i, i ∈ inbox.keys ↔ i ∈ upTo n

/-- That there is a signing share. -/
def HasShare : Holdings := fun _ _ share _ _ => share.isSome

namespace Mirrors

variable {n : Int} {Φ : Holdings} {x : Int} {p : Participant K} {w : WeightedParty K}
  (h : Mirrors n Φ x p w)

include h

omit [Suite K]

theorem mem_keys {key : Int} : key ∈ w.keys ↔ key = x := by
  change key ∈ w.keys.members ↔ _
  rw [h.members_eq, List.mem_singleton]

theorem sorted_eq : w.keys.sorted = [x] := by
  rw [KeySet.sorted, h.members_eq, List.mergeSort_singleton]

theorem scan_eq : w.keys.scan = [x] := by
  rw [KeySet.scan, h.members_eq, List.mergeSort_singleton]

/-- The only key is a slot. -/
theorem slots : ∀ key ∈ w.keys, key ∈ upTo w.core.n := by
  intro key hkey
  rw [h.mem_keys.1 hkey, h.core_eq]
  change x ∈ upTo p.n
  rw [h.n_eq]
  exact h.position_mem

/-- Operations that are blind to shares come to the same. -/
theorem blind {operation : Participant K → Answer (Participant K) α}
    (hoperation : Participant.Blind operation) :
    Alike (fun a p' b w' => a = b ∧ Mirrors n Φ x p' w')
      (fun refusal p' refusal' w' => refusal = refusal' ∧ Mirrors n Φ x p' w')
      (operation p) (w.onCore (operation w.core)) := by
  obtain ⟨hn, hposition, hdealers⟩ := hoperation.samePlace p
  have hmirrors : Mirrors n Φ x (operation p).2 { w with core := (operation p).2.bare } := by
    refine { h with
      core_eq := rfl
      position_eq := hposition.trans h.position_eq
      n_eq := hn.trans h.n_eq
      dealers_eq := hdealers.trans h.dealers_eq
      signingShare_eq := h.signingShare_eq.trans (hoperation.signingShare_eq p).symm
      holdings := ?_ }
    rw [hoperation.sharesIn_eq, hoperation.signingShare_eq]
    exact h.holdings
  rw [WeightedParty.onCore, h.core_eq, hoperation.bare]
  generalize operation p = answer at hmirrors
  obtain ⟨_ | a, p'⟩ := answer
  · exact .error ⟨rfl, hmirrors⟩
  · exact .ok ⟨rfl, hmirrors⟩

theorem onCore {operation : Participant K → Answer (Participant K) α}
    (hoperation : Participant.Blind operation) :
    Alike (fun _ p' _ w' => Mirrors n Φ x p' w') (fun _ _ _ _ => True)
      (Ceremony.onCore p operation) (Ceremony.onCore w operation) :=
  (h.blind hoperation).mono (fun _ _ _ _ hleft => hleft.2) fun _ _ _ _ _ => trivial

/-- Where such an operation of the participant succeeds, that of the party does. -/
theorem exists_onCore {operation : Participant K → Answer (Participant K) α}
    (hoperation : Participant.Blind operation) {a : α} {p' : Participant K}
    (hanswer : operation p = (.ok a, p')) :
    ∃ w', Ceremony.onCore w operation = (.ok a, w') ∧ Mirrors n Φ x p' w' := by
  have halike := h.blind hoperation
  rw [hanswer] at halike
  obtain ⟨_, w', hanswer', rfl, hmirrors⟩ := halike.exists_of_ok
  exact ⟨w', hanswer', hmirrors⟩

end Mirrors

/-! ### Shares -/

section Replace

omit [Suite K]

variable {n x : Int} {p : Participant K} {w : WeightedParty K} {inbox : Inbox}

/-- Both take shares from all dealers in place of those that they have. -/
theorem Mirrors.replace (h : Mirrors n Open x p w) (hfailure : p.failure = none)
    (hstage : ¬ .sharesVerified ≤ p.stage) (hsharesIn : ∀ i ∈ p.sharesIn.keys, i ∈ upTo n)
    (hinbox : ∀ i, i ∈ inbox.keys ↔ i ∈ upTo n) :
    p.receiveShares (.ofInbox inbox) =
        (.ok (), { p with sharesIn := p.sharesIn.putAll inbox.entries }) ∧
      ∃ w', w.storeShares x (.ofInbox inbox) = (.ok (), w') ∧
        Mirrors n (Loaded n) x { p with sharesIn := p.sharesIn.putAll inbox.entries } w' := by
  have hmem : ∀ entry ∈ inbox.entries, 1 ≤ entry.1 ∧ entry.1 ≤ p.dealers := by
    intro entry hentry
    rw [h.dealers_eq]
    exact mem_upTo.1 ((hinbox entry.1).1 (List.mem_map_of_mem hentry))
  have hreceive : p.receiveShares (.ofInbox inbox) =
      (.ok (), { p with sharesIn := p.sharesIn.putAll inbox.entries }) := by
    rw [Participant.receiveShares, if_neg hstage]
    exact p.storeShares_eq hmem
  obtain ⟨slotStages, hstore, -⟩ := WeightedParty.storeShares_eq h.slots (h.mem_keys.2 rfl)
    (h.core_eq ▸ hfailure) (h.holdings x) fun i hi => by
      rw [h.parties_eq]
      exact mem_upTo.1 ((hinbox i).1 hi)
  refine ⟨hreceive, _, hstore, { h with holdings := ⟨inbox, ?_, fun i => ?_, hinbox⟩ }⟩
  · rw [Mapping.get?_put, if_pos rfl]
  · rw [Mapping.get?_putAll_entries]
    cases hshare : inbox.get? i with
    | some share => rfl
    | none =>
      -- who sends nothing now is no dealer, and has sent nothing before
      refine (Option.not_isSome_iff_eq_none.1 fun hsome => ?_).symm
      have hi := (hinbox i).2 (hsharesIn i (Mapping.mem_keys_iff.2 hsome))
      rw [Mapping.mem_keys_iff, hshare] at hi
      cases hi

end Replace

/-! ### Verification -/

/-- That two refusals blame the same, and that those who refuse have stopped at the same stage. -/
structure FailedAlike (x : Int) (refusal : Error) (p : Participant K) (refusal' : Error)
    (w : WeightedParty K) : Prop where
  position_eq : p.position = x
  position'_eq : w.position = x
  isProtocol : refusal.isProtocol = true
  isProtocol' : refusal'.isProtocol = true
  offenders_eq : refusal.offenders = refusal'.offenders
  stage_eq : p.stage = w.core.stage
  aborted : p.aborted = true
  aborted' : w.core.aborted = true

section Verify

variable [LawfulSuite K] [RandomSource σ] {n x : Int} {s : Sharing} {p : Participant K}
  {w : WeightedParty K} {powerMap : PowerMap} (h : Mirrors n (Loaded n) x p w)
  (hconsistent : p.Consistent s) (hm : p.powerMap = some powerMap)

include h hconsistent hm

/-- A check of the slot is one of the inbox, which passes or blames somebody for the batch. -/
theorem Mirrors.checkShares_eq : ∃ delivery, w.inboxOf x = .ok delivery ∧
    (w.core.checkShares delivery x : ExceptT Error (StateM σ) Unit) =
      p.checkShares (.ofInbox p.sharesIn) x ∧
    Always (p.checkShares (.ofInbox p.sharesIn) x : ExceptT Error (StateM σ) Unit).run
      fun outcome => outcome = .ok () ∨
        ∃ blamed, outcome = .error (.failedCheck .share (.shareBatch x) blamed) := by
  obtain ⟨inbox, hinbox, hsame, hsenders⟩ := h.holdings
  have hdealers : ∀ i, i ∈ inbox.keys ↔ 1 ≤ i ∧ i ≤ p.dealers := by
    intro i
    rw [hsenders, h.dealers_eq, mem_upTo]
  have hdealers' : ∀ i, i ∈ p.sharesIn.keys ↔ 1 ≤ i ∧ i ≤ p.dealers := by
    intro i
    rw [← hdealers, Mapping.mem_keys_iff, Mapping.mem_keys_iff, hsame]
  obtain ⟨h₁, h₂⟩ := mem_upTo.1 h.position_mem
  rw [← h.n_eq] at h₂
  have hmap := hconsistent.powerMap_eq powerMap hm
  refine ⟨_, WeightedParty.inboxOf_eq h.slots (h.mem_keys.2 rfl) hinbox, ?_,
    Participant.always_checkShares_whole hconsistent.committed hconsistent.gaps_eq hm hmap hdealers'
      h₁ h₂⟩
  rw [h.core_eq]
  change p.checkShares (.ofInbox inbox) x = _
  rw [Participant.checkShares_eq_checkBatch hconsistent.committed hconsistent.gaps_eq hm hmap
    hdealers h₁ h₂, Participant.checkShares_eq_checkBatch hconsistent.committed hconsistent.gaps_eq
    hm hmap hdealers' h₁ h₂, p.checkBatch_congr hsame]

omit [LawfulSuite K] in
/-- What the participant comes to, by the outcome of its check. -/
theorem Mirrors.verifyShares_eq (hstage : .sharesDistributed ≤ p.stage) :
    (p.verifyShares none none : StateM σ _) = (do
      let outcome ← (p.checkShares (.ofInbox p.sharesIn) x).run
      return p.verifyAttempt (outcome.map fun _ => ((), p.advance .sharesVerified))) := by
  have hcomplete : p.requireCommitments = .ok () := by
    rw [Participant.requireCommitments, hconsistent.committed.missing_eq]
    rfl
  rw [Participant.verifyShares]
  simp only [Option.getD_none, Participant.checkDealtShares, Participant.requirePowerMap_eq hm,
    hcomplete, Participant.requireStage_eq hconsistent.failure_eq hstage, h.position_eq]
  rfl

/-- Both verify the same shares. -/
theorem Mirrors.verify (hstage : .sharesDistributed ≤ p.stage) :
    Together (fun _ p' _ w' => Mirrors n (Loaded n) x p' w') (FailedAlike x)
      (p.verifyShares none none : StateM σ _) w.verifyShares := by
  obtain ⟨delivery, hinbox, hcheck, hends⟩ := h.checkShares_eq (σ := σ) hconsistent hm
  have hrequire : w.core.requireStage .sharesDistributed = .ok () := by
    rw [h.core_eq]
    exact Participant.requireStage_eq hconsistent.failure_eq hstage
  have hposition : w.position = x := by
    rw [WeightedParty.position, h.core_eq]
    exact h.position_eq
  obtain ⟨slotStages, hadvance, -⟩ :=
    WeightedParty.advanceSlot_eq h.slots .sharesVerified (h.mem_keys.2 rfl)
  intro source
  rw [h.verifyShares_eq hconsistent hm hstage, StateT.run_bind]
  have houtcome := hends source
  rw [← hcheck] at houtcome ⊢
  generalize hrun : (w.core.checkShares delivery x).run.run source = outcome at houtcome ⊢
  obtain ⟨outcome, rest⟩ := outcome
  obtain rfl | ⟨blamed, rfl⟩ := houtcome
  · have hweighted : w.verifyShares.run source = ((.ok (),
        { w with slotStages, core := w.core.advance .sharesVerified }), rest) :=
      WeightedParty.run_verifyShares_judged hrequire (h.sorted_eq ▸
        WeightedParty.run_checkSlots_pass hinbox hrun hadvance)
    rw [hweighted]
    exact ⟨.ok { h with core_eq := by rw [h.core_eq]; rfl }, rfl⟩
  · have hweighted : w.verifyShares.run source = (w.settleSlots [(x, ascending blamed)], rest) :=
      WeightedParty.run_verifyShares_judged hrequire (h.sorted_eq ▸
        WeightedParty.run_checkSlots_blame hinbox hrun rfl)
    rw [hweighted]
    refine ⟨.error ⟨h.position_eq, hposition, rfl, rfl, ?_, ?_, ?_, ?_⟩, rfl⟩
    · change ascending blamed = ascending (ascending blamed ++ [])
      rw [List.append_nil, ascending_eq_self (pairwise_ascending blamed)]
    · change p.stage = w.core.stage
      rw [h.core_eq]
      rfl
    · change (p.failure.or (some _)).isSome = true
      rw [hconsistent.failure_eq]
      rfl
    · change (w.core.failure.or (some _)).isSome = true
      rw [h.core_eq]
      change (p.failure.or (some _)).isSome = true
      rw [hconsistent.failure_eq]
      rfl

end Verify

/-! ### Keys -/

/-- Without further notice a participant publishes its own signing share. -/
theorem Participant.publishOwnShare_own {p : Participant K} {share : Scalar}
    (h : p.signingShare = some share) :
    p.publishOwnShare none none = p.publishOwnShare (some share) (some p.position) := by
  rw [publishOwnShare, publishOwnShare, h]
  rfl

namespace Mirrors

variable {n x : Int} {Φ : Holdings} {p : Participant K} {w : WeightedParty K}

omit [Suite K] in
theorem advanceSlots (h : Mirrors n Φ x p w) (stage : Stage) :
    ∃ slotStages, w.advanceSlots stage [x] = (.ok (), { w with slotStages }) := by
  obtain ⟨slotStages, hadvance, -⟩ := WeightedParty.advanceSlots_eq h.slots stage
    (List.forall_mem_singleton.2 (h.mem_keys.2 rfl))
  exact ⟨slotStages, hadvance⟩

/-- Both publish the image of the same signing share. -/
theorem publishOwnShare (h : Mirrors n HasShare x p w)
    (hrequire : p.requireStage .signingShareComputed = .ok ()) :
    Alike (fun _ p' _ w' => Mirrors n HasShare x p' w') (fun _ _ _ _ => True)
      (Ceremony.forget (p.publishOwnShare none none)) (Ceremony.forget w.publishOwnShares) := by
  obtain ⟨share, hshare⟩ := Option.isSome_iff_exists.1 h.holdings
  have hrequire' : w.core.requireStage .signingShareComputed = .ok () := h.core_eq ▸ hrequire
  have halike := h.blind (Participant.blind_publishOwnShare share x)
  rw [Participant.publishOwnShare_own hshare, h.position_eq, WeightedParty.publishOwnShares,
    hrequire', h.sorted_eq]
  dsimp only
  rw [WeightedParty.publishSlots, WeightedParty.slotOf_eq h.slots (h.mem_keys.2 rfl)]
  dsimp only
  rw [h.signingShare_eq, hshare]
  dsimp only
  generalize p.publishOwnShare (some share) (some x) = answer at halike
  generalize w.onCore (w.core.publishOwnShare (some share) (some x)) = answer' at halike
  cases halike with
  | error => exact .error trivial
  | @ok point p' _ w' hleft =>
    obtain ⟨-, hleft⟩ := hleft
    obtain ⟨slotStages, hadvance⟩ := hleft.advanceSlots .publicSharesComputed
    simp only [WeightedParty.publishSlots, Except.map, hleft.sorted_eq, hadvance]
    exact .ok { hleft with }

omit [Suite K] in
/-- Both compute the same signing share. -/
theorem computeSigningShare (h : Mirrors n (Loaded n) x p w) :
    Alike (fun _ p' _ w' => p'.requireStage .signingShareComputed = .ok () ∧
        Mirrors n HasShare x p' w') (fun _ _ _ _ => True)
      p.computeSigningShare w.computeSigningShares := by
  cases hrequire : p.requireStage .sharesVerified with
  | error refusal =>
    have hrequire' : w.core.requireStage .sharesVerified = .error refusal := h.core_eq ▸ hrequire
    rw [Participant.computeSigningShare, hrequire, WeightedParty.computeSigningShares, hrequire']
    exact .error trivial
  | ok =>
    obtain ⟨inbox, hinbox, hsame, hsenders⟩ := h.holdings
    obtain ⟨hfailure, hstage⟩ := Participant.of_requireStage_eq_ok hrequire
    have hmissing : ((upTo p.dealers).filter fun i => (p.sharesIn.get? i).isNone) = [] := by
      refine List.filter_eq_nil_iff.2 fun i hi => ?_
      rw [h.dealers_eq, ← hsenders, Mapping.mem_keys_iff, hsame] at hi
      rw [← Option.not_isSome, hi]
      exact Bool.false_ne_true
    have hsum : Scalar.sum inbox.values = Scalar.sum p.sharesIn.values := by
      rw [Scalar.sum_eq, Scalar.sum_eq]
      exact ((Mapping.entries_perm_of_get?_eq hsame).map Prod.snd).sum_eq
    have hslot : ∀ key ∈ w.keys, ∃ delivery, w.inboxes.get? key = some delivery ∧
        delivery.sum = .ok (Scalar.sum p.sharesIn.values) := by
      intro key hkey
      obtain rfl := h.mem_keys.1 hkey
      refine ⟨_, hinbox, ?_⟩
      rw [Delivery.sum, Delivery.toInbox?_ofInbox, ← hsum]
    obtain ⟨shares, signingShares, slotStages, hcompute, hsigned⟩ :=
      WeightedParty.computeSigningShares_eq h.slots (h.core_eq ▸ hfailure) (h.core_eq ▸ hstage)
        hslot
    rw [Participant.computeSigningShare, hrequire, ok_bind, hcompute]
    simp only [hmissing]
    have hreached : ({ p with signingShare := some (Scalar.sum p.sharesIn.values) }.advance
        .signingShareComputed).requireStage .signingShareComputed = .ok () := by
      refine Participant.requireStage_eq ?_ (Stage.le_later_right _ _)
      exact hfailure
    refine .ok ⟨hreached, { h with
      core_eq := by rw [h.core_eq]; rfl
      signingShare_eq := hsigned x (h.mem_keys.2 rfl)
      holdings := rfl }⟩

/-- Both compute the same signing share, and publish its image. -/
theorem computeOwnShare (h : Mirrors n (Loaded n) x p w) :
    Alike (fun _ p' _ w' => Mirrors n HasShare x p' w') (fun _ _ _ _ => True)
      (Plain.computeOwnShare p) (Weighted.computeOwnShares w) := by
  have halike := h.computeSigningShare
  rw [Plain.computeOwnShare, Weighted.computeOwnShares]
  generalize p.computeSigningShare = answer at halike
  generalize w.computeSigningShares = answer' at halike
  cases halike with
  | error => exact .error trivial
  | ok hleft => exact hleft.2.publishOwnShare hleft.1

/-- Both derive the same group key. -/
theorem deriveGroupKey (h : Mirrors n HasShare x p w) :
    Alike (fun _ p' _ w' => Mirrors n HasShare x p' w') (fun _ _ _ _ => True)
      (Ceremony.forget p.deriveGroupKey) (Ceremony.forget w.deriveGroupKey) := by
  have halike := h.blind Participant.blind_deriveGroupKey
  rw [WeightedParty.deriveGroupKey]
  generalize p.deriveGroupKey = answer at halike
  generalize w.onCore w.core.deriveGroupKey = answer' at halike
  cases halike with
  | error => exact .error trivial
  | @ok key p' _ w' hleft =>
    obtain ⟨-, hleft⟩ := hleft
    obtain ⟨slotStages, hadvance⟩ := hleft.advanceSlots .groupKeyDerived
    simp only [hleft.scan_eq, hadvance]
    exact .ok { hleft with }

omit [Suite K] in
theorem signingShareOf_eq (h : Mirrors n Φ x p w) :
    w.signingShareOf x = .ok p.signingShare := by
  rw [WeightedParty.signingShareOf_eq h.slots (h.mem_keys.2 rfl), h.signingShare_eq]

end Mirrors

/-! ### Comparisons -/

omit [Suite K] in
theorem Mirrors.cores_eq {n : Int} {Φ : Holdings} {members : List (Participant K)}
    {parties : List (WeightedParty K)}
    (h : List.Forall₂ (fun p w => ∃ x, Mirrors n Φ x p w) members parties) :
    parties.map Member.core = members.map Participant.bare := by
  induction h with
  | nil => rfl
  | cons hpair _ ih =>
    obtain ⟨x, hmirrors⟩ := hpair
    rw [List.map_cons, List.map_cons, ih]
    exact congrArg (· :: _) hmirrors.core_eq

section Compare

variable {n x : Int} {Φ : Holdings} {members : List (Participant K)}
  {parties : List (WeightedParty K)}
  (hcores : parties.map Member.core = members.map Participant.bare)

include hcores

omit [Suite K] in
theorem head_groupKey_eq : parties.head?.bind (fun w => w.core.groupKey) =
    members.head?.bind Participant.groupKey := by
  have hhead := congrArg (fun cores => cores.head?.bind Participant.groupKey) hcores
  simp only [List.head?_map, Option.bind_map] at hhead
  exact hhead

/-- Both agree with all others, or do not. -/
theorem Mirrors.crossCheck_eq_ok_iff {p : Participant K} {w : WeightedParty K}
    (h : Mirrors n Φ x p w) :
    Plain.crossCheck members p = .ok () ↔ Weighted.crossCheck parties w = .ok () := by
  have hkey : (w.core.groupKey != parties.head?.bind fun w => w.core.groupKey) =
      (p.groupKey != members.head?.bind Participant.groupKey) := by
    rw [head_groupKey_eq hcores, h.core_eq]
    rfl
  have hcompare : ∀ (refusal : Participant K → Error) (refusal' : WeightedParty K → Error),
      Ceremony.compareIndex members p refusal x = .ok () ↔
        Ceremony.compareIndex parties w refusal' x = .ok () := by
    intro refusal refusal'
    have hcore : Member.core w = p.bare := h.core_eq
    rw [Ceremony.compareIndex_eq_ok_iff, Ceremony.compareIndex_eq_ok_iff, hcores, hcore]
    refine exists_congr fun own => and_congr_right fun _ => ?_
    rw [List.forall_mem_map, List.forall_mem_map]
    exact .rfl
  rw [Plain.crossCheck, Weighted.crossCheck, hkey, h.position_eq, h.scan_eq]
  cases p.groupKey != members.head?.bind Participant.groupKey with
  | true =>
    refine iff_of_false (fun h => ?_) fun h => ?_
    · cases h
    · cases h
  | false =>
    have honly : ∀ check : Int → Except Error Unit, [x].forM check = .ok () ↔ check x = .ok () :=
      fun check => forM_eq_ok_iff.trans List.forall_mem_singleton
    exact (hcompare _ _).trans (honly _).symm

end Compare

omit [Suite K] in
/-- Both have the same result. -/
theorem Mirrors.result_eq {c : Ceremony (Participant K)} {d : Ceremony (WeightedParty K)}
    (hcores : d.members.map Member.core = c.members.map Participant.bare)
    (hrounds : c.rounds = d.rounds) : c.result = d.result := by
  have hhead : d.members.head?.map Member.core = c.members.head?.map Participant.bare := by
    rw [← List.head?_map, ← List.head?_map, hcores]
  have hpositions : d.members.map Ceremony.positionOf = c.members.map Ceremony.positionOf := by
    have hmap := congrArg (List.map Participant.position) hcores
    rwa [List.map_map, List.map_map] at hmap
  rw [Ceremony.result, Ceremony.result, hhead, hpositions, hrounds]
  cases c.members.head? <;> rfl

end ThresholdKeygen
