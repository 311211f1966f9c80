import ThresholdKeygen.Participant.Dealing
import ThresholdKeygen.Proofs.Item
import ThresholdKeygen.Proofs.Point.Residues

/-!
# What a proof of knowledge is bound to

The challenge of a proof covers a position and the context of a run, and the context covers the
label and the parameters of the run. Main statement: `collide_of_replay`, whatever function the hash
is, a proof that is accepted on two occasions shows two inputs on which it collides.
-/

namespace ThresholdKeygen

variable {K : Type} [Suite K]

/-! ### Inputs of the hash -/

theorem Digest.bytes_injective : Function.Injective Digest.bytes := by
  rintro ⟨bytes, _⟩ ⟨bytes', _⟩ h
  cases h
  rfl

namespace Transcript

/-- The byte string that the tagged hash of some items covers. -/
def input (tag : Bytes) (items : List (Item K)) : Except Error Bytes :=
  return taggedBytes K tag (← Item.encodeAll items)

/-- That two sequences of items give different inputs to the hash under a tag, with digests that
are read alike. -/
def Collide {β : Type} (read : Digest → β) (tag : Bytes) (items items' : List (Item K)) : Prop :=
  ∃ bytes bytes', input tag items = .ok bytes ∧ input tag items' = .ok bytes' ∧ bytes ≠ bytes' ∧
    read (Suite.hash (K := K) bytes) = read (Suite.hash (K := K) bytes')

theorem tagged_eq_ok_iff {tag : Bytes} {items : List (Item K)} {digest : Digest} :
    tagged tag items = .ok digest ↔
      ∃ bytes, input tag items = .ok bytes ∧ Suite.hash (K := K) bytes = digest := by
  rw [tagged, input]
  cases Item.encodeAll items <;> simp [taggedDigest]

variable [LawfulEncoding K]

/-- Items of known shapes are determined by the input that they give. -/
theorem input_inj {tag bytes : Bytes} {shapes : List Item.Shape} {items items' : List (Item K)}
    (hitems : Item.HaveShapes shapes items) (hitems' : Item.HaveShapes shapes items')
    (h : input tag items = .ok bytes) (h' : input tag items' = .ok bytes) : items = items' := by
  obtain ⟨content, hcontent, hbytes⟩ := bind_eq_ok_iff.1 h
  obtain ⟨content', hcontent', hbytes'⟩ := bind_eq_ok_iff.1 h'
  have hsame : taggedBytes K tag content = taggedBytes K tag content' :=
    Except.ok.inj (hbytes.trans hbytes'.symm)
  obtain rfl := List.append_cancel_left hsame
  exact Item.encodeAll_inj hitems hitems' hcontent hcontent'

/-- Different items of the same shapes collide where their digests are read alike. -/
theorem collide_of_ne {β : Type} {read : Digest → β} {tag bytes bytes' : Bytes}
    {shapes : List Item.Shape} {items items' : List (Item K)}
    (hitems : Item.HaveShapes shapes items) (hitems' : Item.HaveShapes shapes items')
    (hne : items ≠ items') (h : input tag items = .ok bytes) (h' : input tag items' = .ok bytes')
    (hread : read (Suite.hash (K := K) bytes) = read (Suite.hash (K := K) bytes')) :
    Collide read tag items items' := by
  refine ⟨bytes, bytes', h, h', ?_, hread⟩
  rintro rfl
  exact hne (input_inj hitems hitems' h h')

end Transcript

/-! ### Accepted proofs -/

namespace KnowledgeProof

variable [LawfulSuite K] {proof : KnowledgeProof K} {publicKey : Point K}

/-- A proof is accepted when neither point is the identity and its equation holds for the
challenge. -/
theorem verify_eq_ok_true_iff {position : Int} {context : Item K} :
    proof.verify publicKey position context = .ok true ↔
      publicKey.log ≠ 0 ∧ proof.announcement.log ≠ 0 ∧
        ∃ c, proof.challenge publicKey position context = .ok c ∧
          proof.response = proof.announcement.log + c * publicKey.log := by
  rw [verify]
  by_cases hidentity : (publicKey.isIdentity || proof.announcement.isIdentity) = true
  · rw [if_pos hidentity]
    rw [Bool.or_eq_true, Point.isIdentity_iff, Point.isIdentity_iff] at hidentity
    constructor
    · rintro ⟨⟩
    · rintro ⟨hkey, hannouncement, -⟩
      exact absurd hidentity (not_or.2 ⟨hkey, hannouncement⟩)
  · rw [if_neg hidentity]
    rw [Bool.or_eq_true, Point.isIdentity_iff, Point.isIdentity_iff, not_or] at hidentity
    have hequation : ∀ c : Scalar,
        (Point.ofScalar proof.response == proof.announcement + c • publicKey) = true ↔
          proof.response = proof.announcement.log + c * publicKey.log := by
      intro c
      rw [beq_iff_eq, Point.eq_iff_log_eq, Point.log_ofScalar, Point.log_add, Point.log_smul]
    refine Iff.trans bind_eq_ok_iff ⟨?_, ?_⟩
    · rintro ⟨c, hc, haccepted⟩
      exact ⟨hidentity.1, hidentity.2, c, hc, (hequation c).1 (Except.ok.inj haccepted)⟩
    · rintro ⟨-, -, c, hc, hresponse⟩
      exact ⟨c, hc, congrArg _ ((hequation c).2 hresponse)⟩

/-- A proof answers at most one challenge to a key. -/
theorem challenge_unique {position position' : Int} {context context' : Item K}
    (h : proof.verify publicKey position context = .ok true)
    (h' : proof.verify publicKey position' context' = .ok true) :
    ∃ c, proof.challenge publicKey position context = .ok c ∧
      proof.challenge publicKey position' context' = .ok c := by
  obtain ⟨hkey, -, c, hc, hresponse⟩ := verify_eq_ok_true_iff.1 h
  obtain ⟨-, -, c', hc', hresponse'⟩ := verify_eq_ok_true_iff.1 h'
  have hproduct : c * publicKey.log = c' * publicKey.log :=
    add_left_cancel (hresponse.symm.trans hresponse')
  obtain rfl := mul_right_cancel₀ hkey hproduct
  exact ⟨c, hc, hc'⟩

end KnowledgeProof

/-! ### Occasions -/

/-- What a proof of knowledge is meant for: a position in a run with a label and parameters. -/
@[ext] structure Occasion where
  label : Bytes
  count : Int
  dealers : Int
  threshold : Int
  position : Int
deriving DecidableEq

namespace Occasion

/-- That a hash can cover what an occasion consists of. -/
structure Encodable (o : Occasion) : Prop where
  label_lt : o.label.length < 2 ^ 32
  count_nonneg : 0 ≤ o.count
  count_lt : o.count < 2 ^ 256
  dealers_nonneg : 0 ≤ o.dealers
  dealers_lt : o.dealers < 2 ^ 256
  threshold_nonneg : 0 ≤ o.threshold
  threshold_lt : o.threshold < 2 ^ 256
  position_nonneg : 0 ≤ o.position
  position_lt : o.position < 2 ^ 256

/-- What the context of a run covers. -/
def contextItems (o : Occasion) : List (Item K) :=
  [.bytes o.label, .int o.count, .int o.dealers, .int o.threshold]

/-- What the challenge of a proof covers in a context. -/
def challengeItems (o : Occasion) (context : Bytes) (announcement publicKey : Point K) :
    List (Item K) :=
  [.bytes context, .int o.position, .point announcement, .point publicKey]

variable (K) in
/-- The context of the run. -/
def context (o : Occasion) : Except Error Bytes :=
  Transcript.runContext (.bytes o.label : Item K) o.count o.dealers o.threshold

omit [Suite K] in
theorem haveShapes_contextItems {o : Occasion} (ho : o.Encodable) :
    Item.HaveShapes [.bytes, .int, .int, .int] (o.contextItems : List (Item K)) :=
  .cons (.bytes ho.label_lt) (.cons (.int ho.count_nonneg ho.count_lt)
    (.cons (.int ho.dealers_nonneg ho.dealers_lt)
      (.cons (.int ho.threshold_nonneg ho.threshold_lt) .nil)))

omit [Suite K] in
theorem haveShapes_challengeItems {o : Occasion} (ho : o.Encodable) {context : Bytes}
    (hcontext : context.length < 2 ^ 32) (announcement publicKey : Point K) :
    Item.HaveShapes [.bytes, .int, .point, .point]
      (o.challengeItems context announcement publicKey) :=
  .cons (.bytes hcontext) (.cons (.int ho.position_nonneg ho.position_lt)
    (.cons (.point announcement) (.cons (.point publicKey) .nil)))

end Occasion

/-- Whether a proof is accepted for a key on an occasion. -/
def KnowledgeProof.verifyOn (proof : KnowledgeProof K) (publicKey : Point K) (o : Occasion) :
    Except Error Bool := do
  proof.verify publicKey o.position (.bytes (← o.context K))

/-- A proof that a participant accepts from a dealer is accepted on the occasion of the
participant's run and the dealer's position. -/
theorem Participant.verifyOn_of_verifyProof {p : Participant K} {label : Bytes}
    {proof : KnowledgeProof K} {peer : Int} {constant : Point K}
    (h : p.verifyProof (some (.bytes label)) proof peer constant = .ok true) :
    proof.verifyOn constant ⟨label, p.n, p.dealers, p.threshold, peer⟩ = .ok true := by
  obtain ⟨agrees, -, hrest⟩ := bind_eq_ok_iff.1 h
  cases agrees with
  | false => cases hrest
  | true =>
    obtain ⟨context, hcontext, haccepted⟩ := bind_eq_ok_iff.1 hrest
    obtain ⟨bytes, hbytes, heq⟩ := bind_eq_ok_iff.1 hcontext
    obtain rfl := Except.ok.inj heq
    exact bind_eq_ok_iff.2 ⟨bytes, hbytes, haccepted⟩

/-! ### Replayed proofs -/

open Transcript in
/-- A proof that is accepted for the same key on two different occasions shows a collision: the
hash gives the contexts of the two runs the same digest, or the two challenges the same residue. -/
theorem collide_of_replay [LawfulSuite K] {proof : KnowledgeProof K} {publicKey : Point K}
    {o o' : Occasion} (ho : o.Encodable) (ho' : o'.Encodable) (hne : o ≠ o')
    (h : proof.verifyOn publicKey o = .ok true) (h' : proof.verifyOn publicKey o' = .ok true) :
    Collide id contextTag (o.contextItems : List (Item K)) o'.contextItems ∨
      ∃ context context', o.context K = .ok context ∧ o'.context K = .ok context' ∧
        Collide (fun digest => Scalar.ofBytesReduced digest.bytes) proofTag
          (o.challengeItems context proof.announcement publicKey)
          (o'.challengeItems context' proof.announcement publicKey) := by
  obtain ⟨context, hcontext, haccepted⟩ := bind_eq_ok_iff.1 h
  obtain ⟨context', hcontext', haccepted'⟩ := bind_eq_ok_iff.1 h'
  -- The two runs.
  obtain ⟨digest, hdigest, hbytes⟩ := bind_eq_ok_iff.1 hcontext
  obtain ⟨digest', hdigest', hbytes'⟩ := bind_eq_ok_iff.1 hcontext'
  obtain ⟨run, hrun, rfl⟩ := tagged_eq_ok_iff.1 hdigest
  obtain ⟨run', hrun', rfl⟩ := tagged_eq_ok_iff.1 hdigest'
  obtain rfl := Except.ok.inj hbytes
  obtain rfl := Except.ok.inj hbytes'
  -- The two challenges, which are the same.
  obtain ⟨c, hc, hc'⟩ := KnowledgeProof.challenge_unique haccepted haccepted'
  obtain ⟨digest, hchallenge, hread⟩ := bind_eq_ok_iff.1 hc
  obtain ⟨digest', hchallenge', hread'⟩ := bind_eq_ok_iff.1 hc'
  obtain ⟨asked, hasked, rfl⟩ := tagged_eq_ok_iff.1 hchallenge
  obtain ⟨asked', hasked', rfl⟩ := tagged_eq_ok_iff.1 hchallenge'
  have hsame := (Except.ok.inj hread).trans (Except.ok.inj hread').symm
  by_cases hcollide : Suite.hash (K := K) run = Suite.hash (K := K) run' ∧
      (o.contextItems : List (Item K)) ≠ o'.contextItems
  · exact .inl (collide_of_ne (Occasion.haveShapes_contextItems ho)
      (Occasion.haveShapes_contextItems ho') hcollide.2 hrun hrun' hcollide.1)
  · refine .inr ⟨_, _, hcontext, hcontext', collide_of_ne
      (Occasion.haveShapes_challengeItems ho (by simp [Digest.length_bytes]) _ _)
      (Occasion.haveShapes_challengeItems ho' (by simp [Digest.length_bytes]) _ _)
      (fun hitems => hcollide ?_) hasked hasked' hsame⟩
    -- Equal challenges have the context and the position in common, so that the runs differ.
    simp only [Occasion.challengeItems, List.cons.injEq, Item.bytes.injEq, Item.int.injEq] at hitems
    obtain ⟨hdigests, hposition, -⟩ := hitems
    refine ⟨Digest.bytes_injective hdigests, fun hruns => hne ?_⟩
    simp only [Occasion.contextItems, List.cons.injEq, Item.bytes.injEq, Item.int.injEq] at hruns
    obtain ⟨hlabel, hcount, hdealers, hthreshold, -⟩ := hruns
    exact Occasion.ext hlabel hcount hdealers hthreshold hposition

/-! ### A hash that tells nothing apart -/

/-- The residues as keys, with a hash that is constant. -/
def UnhashedKey : Type := ResidueKey

namespace UnhashedKey

instance : Suite UnhashedKey where
  ofScalar := (Suite.ofScalar : Scalar → ResidueKey)
  scale := (Suite.scale : Scalar → ResidueKey → ResidueKey)
  combine? := (Suite.combine? : List ResidueKey → Option ResidueKey)
  encode := (Suite.encode : ResidueKey → Bytes)
  decode? := (Suite.decode? : Bytes → Option ResidueKey)
  hash _ := ⟨List.replicate 32 0, rfl⟩

/-- No law speaks of the hash. -/
instance : LawfulSuite UnhashedKey where
  length_encode := LawfulEncoding.length_encode (K := ResidueKey)
  sign_encode := LawfulEncoding.sign_encode (K := ResidueKey)
  decode?_eq_some_iff := LawfulEncoding.decode?_eq_some_iff (K := ResidueKey)
  exists_ofScalar := LawfulSuite.exists_ofScalar (K := ResidueKey)
  ofScalar_injOn := LawfulSuite.ofScalar_injOn (K := ResidueKey)
  scale_ofScalar := LawfulSuite.scale_ofScalar (K := ResidueKey)
  combine?_eq_some := LawfulSuite.combine?_eq_some (K := ResidueKey)
  combine?_eq_none := LawfulSuite.combine?_eq_none (K := ResidueKey)
  decode?_flipSign := LawfulSuite.decode?_flipSign (K := ResidueKey)

end UnhashedKey

/-- With a constant hash a proof made for the first position of a run is accepted for the second
one, where the two challenges collide. -/
theorem exists_collide_of_replay : ∃ (proof : KnowledgeProof UnhashedKey)
    (publicKey : Point UnhashedKey) (o o' : Occasion), o.Encodable ∧ o'.Encodable ∧ o ≠ o' ∧
    proof.verifyOn publicKey o = .ok true ∧ proof.verifyOn publicKey o' = .ok true ∧
    (Transcript.Collide id Transcript.contextTag (o.contextItems : List (Item UnhashedKey))
        o'.contextItems ∨
      ∃ context context', o.context UnhashedKey = .ok context ∧
        o'.context UnhashedKey = .ok context' ∧
        Transcript.Collide (fun digest => Scalar.ofBytesReduced digest.bytes) Transcript.proofTag
          (o.challengeItems context proof.announcement publicKey)
          (o'.challengeItems context' proof.announcement publicKey)) := by
  have ho : (⟨[], 2, 2, 1, 1⟩ : Occasion).Encodable := by constructor <;> decide
  have ho' : (⟨[], 2, 2, 1, 2⟩ : Occasion).Encodable := by constructor <;> decide
  have haccepted : (⟨.ofScalar 3, 3⟩ : KnowledgeProof UnhashedKey).verifyOn (.ofScalar 5)
      ⟨[], 2, 2, 1, 1⟩ = .ok true := by
    exact eq_ok_of_toOption (by decide +kernel)
  have haccepted' : (⟨.ofScalar 3, 3⟩ : KnowledgeProof UnhashedKey).verifyOn (.ofScalar 5)
      ⟨[], 2, 2, 1, 2⟩ = .ok true := by
    exact eq_ok_of_toOption (by decide +kernel)
  exact ⟨_, _, _, _, ho, ho', by decide, haccepted, haccepted',
    collide_of_replay ho ho' (by decide) haccepted haccepted'⟩

end ThresholdKeygen
