import ThresholdKeygen.KnowledgeProof
import ThresholdKeygen.Proofs.Draws
import ThresholdKeygen.Proofs.Point.Logarithm

/-!
# Completeness of proofs of knowledge

The items of the protocol hashes have encodings, and a proof that was made for a key, a position and
a context is accepted there, unless its nonce or the secret is zero.
-/

namespace ThresholdKeygen

variable {K : Type} [Suite K]

/-! ### Encodable items -/

namespace Item

/-- An item that has an encoding. -/
def Encodable (item : Item K) : Prop := ∃ bytes, item.encode = .ok bytes

theorem encodeLength_eq {length : Nat} (h : length < 2 ^ 32) :
    encodeLength length = .ok (Bytes.ofNat 4 length) := if_pos h

theorem encodeInt_eq {n : Int} (h₀ : 0 ≤ n) (h : n < 2 ^ 256) :
    encodeInt n = .ok (Bytes.ofNat Scalar.width n.toNat) := by
  have hwide : n < Int.pow 2 256 := h
  rw [encodeInt, if_neg (not_lt.2 h₀), if_pos hwide]

theorem encodable_bytes {content : Bytes} (h : content.length < 2 ^ 32) :
    Encodable (.bytes content : Item K) := by
  rw [Encodable, encode, encodeLength_eq h]
  exact ⟨_, rfl⟩

theorem encodable_int {n : Int} (h₀ : 0 ≤ n) (h : n < 2 ^ 256) : Encodable (.int n : Item K) := by
  rw [Encodable, encode, encodeInt_eq h₀ h]
  exact ⟨_, rfl⟩

theorem encodable_point (p : Point K) : Encodable (.point p) := by
  rw [Encodable, encode]
  exact ⟨_, rfl⟩

theorem exists_encodeAll {items : List (Item K)} (h : ∀ item ∈ items, item.Encodable) :
    ∃ bytes, encodeAll items = .ok bytes := by
  induction items with
  | nil => exact ⟨[], by rw [encodeAll]; rfl⟩
  | cons item items ih =>
    obtain ⟨⟨first, hfirst⟩, hrest⟩ := List.forall_mem_cons.1 h
    obtain ⟨rest, hencode⟩ := ih hrest
    rw [encodeAll, hfirst, hencode]
    exact ⟨_, rfl⟩

end Item

namespace Transcript

theorem exists_tagged (tag : Bytes) (items : List (Item K)) (h : ∀ item ∈ items, item.Encodable) :
    ∃ digest, tagged tag items = .ok digest := by
  obtain ⟨bytes, hbytes⟩ := Item.exists_encodeAll h
  rw [tagged, hbytes]
  exact ⟨_, rfl⟩

/-- A run has a context when its label and its parameters have encodings. -/
theorem exists_runContext {label : Item K} {count dealers threshold : Int}
    (hlabel : label.Encodable) (hcount : (.int count : Item K).Encodable)
    (hdealers : (.int dealers : Item K).Encodable)
    (hthreshold : (.int threshold : Item K).Encodable) :
    ∃ bytes, runContext label count dealers threshold = .ok bytes ∧
      (.bytes bytes : Item K).Encodable := by
  obtain ⟨digest, hdigest⟩ := exists_tagged contextTag
    [label, .int count, .int dealers, .int threshold]
    (by simp [hlabel, hcount, hdealers, hthreshold])
  refine ⟨digest.bytes, by rw [runContext, hdigest]; rfl, Item.encodable_bytes ?_⟩
  rw [digest.length_bytes]
  decide

theorem exists_challenge {context : Item K} {position : Int} (hcontext : context.Encodable)
    (hposition : (.int position : Item K).Encodable) (announcement publicKey : Point K) :
    ∃ c, challenge context position announcement publicKey = .ok c := by
  obtain ⟨digest, hdigest⟩ := exists_tagged proofTag
    [context, .int position, .point announcement, .point publicKey]
    (by simp [hcontext, hposition, Item.encodable_point])
  rw [challenge, hdigest]
  exact ⟨_, rfl⟩

end Transcript

/-! ### Proofs -/

namespace KnowledgeProof

/-- A proof that was made is accepted. -/
theorem verify_withNonce [LawfulSuite K] {nonce secret : Scalar} (hnonce : nonce ≠ 0)
    (hsecret : secret ≠ 0) {position : Int} {context : Item K} {proof : KnowledgeProof K}
    (hproof : withNonce nonce secret (.ofScalar secret) position context = .ok proof) :
    proof.verify (.ofScalar secret) position context = .ok true := by
  obtain ⟨c, hc, hmade⟩ := bind_eq_ok_iff.1 hproof
  obtain rfl := Except.ok.inj hmade
  have hkey : (Point.ofScalar secret : Point K).isIdentity = false := by
    rw [← Bool.not_eq_true, Point.isIdentity_iff, Point.log_ofScalar]
    exact hsecret
  have hannouncement : (Point.ofScalar nonce : Point K).isIdentity = false := by
    rw [← Bool.not_eq_true, Point.isIdentity_iff, Point.log_ofScalar]
    exact hnonce
  have hequation : (Point.ofScalar (nonce + c * secret) : Point K) =
      .ofScalar nonce + c • (.ofScalar secret : Point K) := by
    rw [Point.eq_iff_log_eq]
    simp
  rw [verify, hkey, hannouncement, challenge, hc, hequation]
  simp

/-- Making a proof succeeds, and the proof is accepted. -/
theorem succeeds_prove [LawfulSuite K] {σ : Type} [RandomSource σ] {secret : Scalar}
    (hsecret : secret ≠ 0) {position : Int} {context : Item K} (hcontext : context.Encodable)
    (hposition : (.int position : Item K).Encodable) :
    Succeeds (prove secret (.ofScalar secret) position context :
        ExceptT Error (StateM σ) (KnowledgeProof K))
      fun proof => proof.verify (.ofScalar secret) position context = .ok true := by
  refine .bind (.lift ((always_drawScalar position).mono fun nonce hnonce => ?_))
  obtain ⟨c, hc⟩ := Transcript.exists_challenge hcontext hposition (.ofScalar nonce)
    (.ofScalar secret)
  have hmade : withNonce nonce secret (.ofScalar secret) position context =
      .ok ⟨.ofScalar nonce, nonce + c * secret⟩ := by
    rw [withNonce, hc]
    rfl
  exact .steady hmade (verify_withNonce hnonce hsecret hmade)

end KnowledgeProof

end ThresholdKeygen
