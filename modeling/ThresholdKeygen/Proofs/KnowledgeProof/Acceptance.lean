import ThresholdKeygen.Proofs.Participant.Reachable
import ThresholdKeygen.Proofs.Transcript

/-!
# Accepted proofs of knowledge

A proof with the announcement `k·G` and the response `z` is accepted for the key `a·G` exactly when
neither `a` nor `k` is zero and `z = k + c·a` for its challenge `c`. Main statement:
`acceptance_exact`, with what follows from this relation: made proofs are accepted, no two responses
are, two proofs that answer different challenges with one announcement give the secret away, and a
participant accepts exactly the proofs that fit its run and the constants registered with it.
-/

namespace ThresholdKeygen

variable {K : Type}

/-! ### Other hash functions -/

/-- The suite with another hash function. -/
@[reducible] def Suite.rehashed (suite : Suite K) (hash : Bytes → Digest) : Suite K :=
  { suite with hash }

/-- No law speaks of the hash function. -/
theorem LawfulSuite.rehashed [suite : Suite K] [laws : LawfulSuite K] (hash : Bytes → Digest) :
    @LawfulSuite K (suite.rehashed hash) :=
  letI := suite.rehashed hash
  { length_encode := laws.length_encode
    sign_encode := laws.sign_encode
    decode?_eq_some_iff := laws.decode?_eq_some_iff
    exists_ofScalar := laws.exists_ofScalar
    ofScalar_injOn := laws.ofScalar_injOn
    scale_ofScalar := laws.scale_ofScalar
    combine?_eq_some := laws.combine?_eq_some
    combine?_eq_none := laws.combine?_eq_none
    decode?_flipSign := laws.decode?_flipSign }

variable [suite : Suite K]

namespace KnowledgeProof

/-- Whether a proof is accepted when a given function is the hash. -/
def verifyUnder (hash : Bytes → Digest) (proof : KnowledgeProof K) (publicKey : Point K)
    (position : Int) (context : Item K) : Except Error Bool :=
  letI := suite.rehashed hash
  proof.verify publicKey position context

/-- The challenge that a proof answers when a given function is the hash. -/
def challengeUnder (hash : Bytes → Digest) (proof : KnowledgeProof K) (publicKey : Point K)
    (position : Int) (context : Item K) : Except Error Scalar :=
  letI := suite.rehashed hash
  proof.challenge publicKey position context

/-! ### The relation -/

variable [laws : LawfulSuite K]

/-- The relation that acceptance checks, by the discrete logarithms of the two points. -/
theorem verify_ofScalar_iff {nonce secret response : Scalar} {position : Int} {context : Item K} :
    (⟨.ofScalar nonce, response⟩ : KnowledgeProof K).verify (.ofScalar secret) position context =
        .ok true ↔
      secret ≠ 0 ∧ nonce ≠ 0 ∧ ∃ c, Transcript.challenge context position (.ofScalar nonce)
        (.ofScalar secret : Point K) = .ok c ∧ response = nonce + c * secret := by
  rw [verify_eq_ok_true_iff, Point.log_ofScalar, Point.log_ofScalar]
  rfl

omit laws in
/-- Every proof is judged where the context and the position have encodings. -/
theorem exists_verify {position : Int} {context : Item K} (hcontext : context.Encodable)
    (hposition : (.int position : Item K).Encodable) (proof : KnowledgeProof K)
    (publicKey : Point K) : ∃ verdict, proof.verify publicKey position context = .ok verdict := by
  rw [verify]
  split
  · exact ⟨false, rfl⟩
  · obtain ⟨c, hc⟩ :=
      Transcript.exists_challenge hcontext hposition proof.announcement publicKey
    rw [challenge, hc]
    exact ⟨_, rfl⟩

/-- No two responses to the challenge are accepted. -/
theorem response_unique {announcement publicKey : Point K} {z z' : Scalar} {position : Int}
    {context : Item K}
    (h : (⟨announcement, z⟩ : KnowledgeProof K).verify publicKey position context = .ok true)
    (h' : (⟨announcement, z'⟩ : KnowledgeProof K).verify publicKey position context = .ok true) :
    z = z' := by
  obtain ⟨-, -, c, hc, hz⟩ := verify_eq_ok_true_iff.1 h
  obtain ⟨-, -, c', hc', hz'⟩ := verify_eq_ok_true_iff.1 h'
  have hsame : c = c' := Except.ok.inj (hc.symm.trans hc')
  rw [hsame] at hz
  exact hz.trans hz'.symm

/-- A proof that is made is accepted, whatever nonce has been drawn for it. -/
theorem delivers_prove {σ : Type} [RandomSource σ] {secret : Scalar} (hsecret : secret ≠ 0)
    (position : Int) (context : Item K) :
    Delivers (prove secret (.ofScalar secret) position context :
        ExceptT Error (StateM σ) (KnowledgeProof K))
      fun proof => proof.verify (.ofScalar secret) position context = .ok true := by
  have hdraw : Delivers (liftM (drawScalar position : StateM σ Scalar) :
      ExceptT Error (StateM σ) Scalar) (· ≠ 0) := fun source _ hnonce =>
    Except.ok.inj hnonce ▸ always_drawScalar position source
  exact .bind (hdraw.mono fun nonce hnonce =>
    .steady fun proof hmade => verify_withNonce hnonce hsecret hmade)

/-! ### Special soundness -/

/-- The relation under another hash function. -/
theorem verifyUnder_iff {hash : Bytes → Digest} {nonce secret response : Scalar} {position : Int}
    {context : Item K} :
    (⟨.ofScalar nonce, response⟩ : KnowledgeProof K).verifyUnder hash (.ofScalar secret) position
        context = .ok true ↔
      secret ≠ 0 ∧ nonce ≠ 0 ∧ ∃ c, (⟨.ofScalar nonce, response⟩ : KnowledgeProof K).challengeUnder
        hash (.ofScalar secret) position context = .ok c ∧ response = nonce + c * secret :=
  @verify_ofScalar_iff K (suite.rehashed hash) (LawfulSuite.rehashed hash) nonce secret response
    position context

/-- Two responses to different challenges with one announcement determine the secret. -/
theorem div_eq_secret {hash hash' : Bytes → Digest} {announcement : Point K}
    {secret z z' c c' : Scalar} {position position' : Int} {context context' : Item K}
    (h : (⟨announcement, z⟩ : KnowledgeProof K).verifyUnder hash (.ofScalar secret) position
      context = .ok true)
    (h' : (⟨announcement, z'⟩ : KnowledgeProof K).verifyUnder hash' (.ofScalar secret) position'
      context' = .ok true)
    (hc : (⟨announcement, z⟩ : KnowledgeProof K).challengeUnder hash (.ofScalar secret) position
      context = .ok c)
    (hc' : (⟨announcement, z'⟩ : KnowledgeProof K).challengeUnder hash' (.ofScalar secret) position'
      context' = .ok c')
    (hne : c ≠ c') : Scalar.div (z - z') (c - c') = .ok secret := by
  rw [← Point.ofScalar_log announcement] at h h' hc hc'
  obtain ⟨-, -, d, hd, hz⟩ := verifyUnder_iff.1 h
  obtain ⟨-, -, d', hd', hz'⟩ := verifyUnder_iff.1 h'
  obtain rfl : c = d := Except.ok.inj (hc.symm.trans hd)
  obtain rfl : c' = d' := Except.ok.inj (hc'.symm.trans hd')
  have hdiffer : c - c' ≠ 0 := sub_ne_zero.2 hne
  have hquotient : (z - z') * (c - c')⁻¹ = secret := by
    rw [hz, hz', add_sub_add_left_eq_sub, ← sub_mul, mul_comm, inv_mul_cancel_left₀ hdiffer]
  rw [Scalar.div, Scalar.inv_eq hdiffer, ok_bind, hquotient]
  rfl

end KnowledgeProof

/-! ### Participants -/

namespace Participant

/-- That a key is the constant which has been registered for a dealer, if one has. -/
def AgreesOn (p : Participant K) (peer : Int) (constant : Point K) : Prop :=
  ∀ commitment, p.commitments.slots.get? peer = some commitment →
    p.constantOf peer commitment = .ok (some constant)

section Sound

variable {p : Participant K} (h : p.Sound)

include h

omit suite in
theorem Sound.exists_constantOf {peer : Int} {commitment : Commitment K}
    (hcommitment : p.commitments.slots.get? peer = some commitment) :
    ∃ constant, p.constantOf peer commitment = .ok constant := by
  have hlength := h.length_points peer commitment hcommitment
  have hpos : 0 < commitment.points.length := by
    have := h.one_le_threshold
    omega
  rw [constantOf]
  split
  · exact ⟨none, rfl⟩
  · refine ⟨some commitment.points[0], ?_⟩
    rw [Commitment.constant, ← Nat.cast_zero, pointAt_natCast hpos]
    rfl

/-- The comparison with the registered constant comes to a verdict. -/
theorem Sound.exists_agreesWith [LawfulEncoding K] {peer : Int} (h₁ : 1 ≤ peer)
    (h₂ : peer ≤ p.dealers) (constant : Point K) :
    ∃ agrees, p.agreesWith peer (some constant) = .ok agrees ∧
      (agrees = true ↔ p.AgreesOn peer constant) := by
  have hsender : p.commitments.checkSender peer = .ok () := if_pos ⟨h₁, h₂⟩
  rw [agreesWith, CommitmentTable.get, hsender, ok_bind]
  cases hregistered : p.commitments.slots.get? peer with
  | none => exact ⟨true, rfl, by simp [AgreesOn, hregistered]⟩
  | some commitment =>
    obtain ⟨registered, hconstant⟩ := h.exists_constantOf hregistered
    refine ⟨registered == some constant, by simp [hconstant], ?_⟩
    simp [AgreesOn, hregistered, hconstant]

/-- A run has a context when its label has an encoding. -/
theorem Sound.exists_runContext (hdealers : p.dealers ≤ p.n) (hpos : 0 ≤ p.dealers)
    {label : Option (Item K)} (hlabel : (label.getD p.context).Encodable) :
    ∃ context, p.runContext label = .ok context ∧ context.Encodable := by
  have hn := h.n_lt
  have hthreshold := h.threshold_le
  have hone := h.one_le_threshold
  have hslots : maxSlots < 2 ^ 256 := by decide
  obtain ⟨bytes, hbytes, hencodable⟩ := Transcript.exists_runContext hlabel
    (Item.encodable_int (n := p.n) (by omega) (by omega))
    (Item.encodable_int (n := p.dealers) (by omega) (by omega))
    (Item.encodable_int (n := p.threshold) (by omega) (by omega))
  exact ⟨.bytes bytes, by rw [runContext, hbytes]; rfl, hencodable⟩

/-- A participant accepts what is accepted in the context of its run, unless it has registered
another constant. -/
theorem Sound.verifyProof_iff [LawfulEncoding K] {label : Option (Item K)} {peer : Int}
    (h₁ : 1 ≤ peer) (h₂ : peer ≤ p.dealers) {proof : KnowledgeProof K} {constant : Point K} :
    p.verifyProof label proof peer constant = .ok true ↔
      p.AgreesOn peer constant ∧ ∃ context, p.runContext label = .ok context ∧
        proof.verify constant peer context = .ok true := by
  obtain ⟨agrees, hverdict, hagrees⟩ := h.exists_agreesWith h₁ h₂ constant
  rw [verifyProof, hverdict, ok_bind, ← hagrees]
  cases agrees with
  | false => simp
  | true => simp [bind_eq_ok_iff]

/-- A participant judges every proof for a dealer when the label of the run has an encoding. -/
theorem Sound.exists_verifyProof [LawfulEncoding K] (hdealers : p.dealers ≤ p.n)
    {label : Option (Item K)} (hlabel : (label.getD p.context).Encodable) {peer : Int}
    (h₁ : 1 ≤ peer) (h₂ : peer ≤ p.dealers) (proof : KnowledgeProof K) (constant : Point K) :
    ∃ verdict, p.verifyProof label proof peer constant = .ok verdict := by
  obtain ⟨agrees, hverdict, -⟩ := h.exists_agreesWith h₁ h₂ constant
  rw [verifyProof, hverdict, ok_bind]
  cases agrees with
  | false => exact ⟨false, rfl⟩
  | true =>
    obtain ⟨context, hcontext, hencodable⟩ := h.exists_runContext hdealers (by omega) hlabel
    have hn := h.n_lt
    have hslots : maxSlots < 2 ^ 256 := by decide
    have hpeer : (.int peer : Item K).Encodable := Item.encodable_int (by omega) (by omega)
    obtain ⟨verdict, haccepted⟩ :=
      KnowledgeProof.exists_verify hencodable hpeer proof constant
    exact ⟨verdict, by simp [hcontext, haccepted]⟩

end Sound

/-- What a participant makes of the proofs for a dealer, in a run with a label. -/
structure JudgesProofs (p : Participant K) (label : Option (Item K)) (peer : Int) : Prop where
  accepted_iff (nonce secret response : Scalar) :
    p.verifyProof label ⟨.ofScalar nonce, response⟩ peer (.ofScalar secret) = .ok true ↔
      p.AgreesOn peer (.ofScalar secret) ∧ secret ≠ 0 ∧ nonce ≠ 0 ∧ ∃ context c,
        p.runContext label = .ok context ∧ Transcript.challenge context peer (.ofScalar nonce)
          (.ofScalar secret : Point K) = .ok c ∧ response = nonce + c * secret
  decided (hlabel : (label.getD p.context).Encodable) (proof : KnowledgeProof K)
    (constant : Point K) : ∃ verdict, p.verifyProof label proof peer constant = .ok verdict

theorem Reachable.judgesProofs [LawfulSuite K] {p : Participant K} (h : p.Reachable)
    (label : Option (Item K)) {peer : Int} (h₁ : 1 ≤ peer) (h₂ : peer ≤ p.dealers) :
    p.JudgesProofs label peer where
  accepted_iff nonce secret response := by
    rw [h.sound.verifyProof_iff h₁ h₂]
    simp only [KnowledgeProof.verify_ofScalar_iff]
    constructor
    · rintro ⟨hagrees, context, hcontext, hsecret, hnonce, c, hc, hresponse⟩
      exact ⟨hagrees, hsecret, hnonce, context, c, hcontext, hc, hresponse⟩
    · rintro ⟨hagrees, hsecret, hnonce, context, c, hcontext, hc, hresponse⟩
      exact ⟨hagrees, context, hcontext, hsecret, hnonce, c, hc, hresponse⟩
  decided hlabel := h.sound.exists_verifyProof h.dealers_le hlabel h₁ h₂

end Participant

/-! ### Acceptance -/

variable (K) in
/-- What it takes for proofs of knowledge to be accepted, and what an accepted proof gives away. -/
structure AcceptanceExact : Prop where
  accepted_iff (nonce secret response : Scalar) (position : Int) (context : Item K) :
    (⟨.ofScalar nonce, response⟩ : KnowledgeProof K).verify (.ofScalar secret) position context =
        .ok true ↔
      secret ≠ 0 ∧ nonce ≠ 0 ∧ ∃ c, Transcript.challenge context position (.ofScalar nonce)
        (.ofScalar secret : Point K) = .ok c ∧ response = nonce + c * secret
  decided (position : Int) (context : Item K) (hposition : (.int position : Item K).Encodable)
    (hcontext : context.Encodable) (proof : KnowledgeProof K) (publicKey : Point K) :
    ∃ verdict, proof.verify publicKey position context = .ok verdict
  made_accepted {σ : Type} [RandomSource σ] (source : σ) (secret : Scalar) (hsecret : secret ≠ 0)
    (position : Int) (context : Item K) (proof : KnowledgeProof K)
    (hmade : ((KnowledgeProof.prove secret (.ofScalar secret) position context).run.run source).1 =
      .ok proof) : proof.verify (.ofScalar secret) position context = .ok true
  made {σ : Type} [RandomSource σ] (source : σ) (secret : Scalar) (hsecret : secret ≠ 0)
    (position : Int) (context : Item K) (hposition : (.int position : Item K).Encodable)
    (hcontext : context.Encodable) : ∃ proof : KnowledgeProof K,
      ((KnowledgeProof.prove secret (.ofScalar secret) position context).run.run source).1 =
        .ok proof
  response_unique (announcement publicKey : Point K) (position : Int) (context : Item K)
    (z z' : Scalar)
    (h : (⟨announcement, z⟩ : KnowledgeProof K).verify publicKey position context = .ok true)
    (h' : (⟨announcement, z'⟩ : KnowledgeProof K).verify publicKey position context = .ok true) :
    z = z'
  extracted (hash hash' : Bytes → Digest) (announcement : Point K) (secret z z' c c' : Scalar)
    (position : Int) (context context' : Item K)
    (h : (⟨announcement, z⟩ : KnowledgeProof K).verifyUnder hash (.ofScalar secret) position
      context = .ok true)
    (h' : (⟨announcement, z'⟩ : KnowledgeProof K).verifyUnder hash' (.ofScalar secret) position
      context' = .ok true)
    (hc : (⟨announcement, z⟩ : KnowledgeProof K).challengeUnder hash (.ofScalar secret) position
      context = .ok c)
    (hc' : (⟨announcement, z'⟩ : KnowledgeProof K).challengeUnder hash' (.ofScalar secret) position
      context' = .ok c')
    (hne : c ≠ c') : Scalar.div (z - z') (c - c') = .ok secret
  judged (p : Participant K) (hp : p.Reachable) (label : Option (Item K)) (peer : Int)
    (h₁ : 1 ≤ peer) (h₂ : peer ≤ p.dealers) : p.JudgesProofs label peer

/-- Proofs of knowledge are accepted exactly when they satisfy their relation. -/
theorem acceptance_exact [LawfulSuite K] : AcceptanceExact K where
  accepted_iff _ _ _ _ _ := KnowledgeProof.verify_ofScalar_iff
  decided _ _ hposition hcontext := KnowledgeProof.exists_verify hcontext hposition
  made_accepted source _ hsecret position context :=
    KnowledgeProof.delivers_prove hsecret position context source
  made source _ hsecret _ _ hposition hcontext := by
    obtain ⟨proof, hmade, -⟩ := KnowledgeProof.succeeds_prove hsecret hcontext hposition source
    exact ⟨proof, hmade⟩
  response_unique _ _ _ _ _ _ := KnowledgeProof.response_unique
  extracted _ _ _ _ _ _ _ _ _ _ _ := KnowledgeProof.div_eq_secret
  judged _ hp label _ h₁ h₂ := hp.judgesProofs label h₁ h₂

/-- With one announcement and the secret five, a response to the challenge zero and one to the
challenge one, which two constant hash functions ask; and the only participant of a run. -/
theorem exists_acceptance_exact : ∃ (hash hash' : Bytes → Digest) (announcement : Point ResidueKey)
    (z z' c c' : Scalar),
    (⟨announcement, z⟩ : KnowledgeProof ResidueKey).verifyUnder hash (.ofScalar 5) 1 (.bytes []) =
      .ok true ∧
    (⟨announcement, z'⟩ : KnowledgeProof ResidueKey).verifyUnder hash' (.ofScalar 5) 1 (.bytes []) =
      .ok true ∧ c ≠ c' ∧ Scalar.div (z - z') (c - c') = .ok 5 ∧
    Participant.lone.Reachable ∧ Participant.lone.JudgesProofs none 1 := by
  let hash : Bytes → Digest := fun _ => ⟨Bytes.ofNat 32 0, by simp⟩
  let hash' : Bytes → Digest := fun _ => ⟨Bytes.ofNat 32 1, by simp⟩
  have haccepted : (⟨.ofScalar 3, 3⟩ : KnowledgeProof ResidueKey).verifyUnder hash (.ofScalar 5) 1
      (.bytes []) = .ok true := eq_ok_of_toOption (by decide +kernel)
  have haccepted' : (⟨.ofScalar 3, 8⟩ : KnowledgeProof ResidueKey).verifyUnder hash' (.ofScalar 5) 1
      (.bytes []) = .ok true := eq_ok_of_toOption (by decide +kernel)
  have hchallenge : (⟨.ofScalar 3, 3⟩ : KnowledgeProof ResidueKey).challengeUnder hash
      (.ofScalar 5) 1 (.bytes []) = .ok 0 := eq_ok_of_toOption (by decide +kernel)
  have hchallenge' : (⟨.ofScalar 3, 8⟩ : KnowledgeProof ResidueKey).challengeUnder hash'
      (.ofScalar 5) 1 (.bytes []) = .ok 1 := eq_ok_of_toOption (by decide +kernel)
  exact ⟨hash, hash', .ofScalar 3, 3, 8, 0, 1, haccepted, haccepted', by decide,
    acceptance_exact.extracted _ _ _ _ _ _ _ _ _ _ _ haccepted haccepted' hchallenge hchallenge'
      (by decide), Participant.reachable_lone,
    acceptance_exact.judged _ Participant.reachable_lone none 1 (by decide) (by decide)⟩

end ThresholdKeygen
