import ThresholdKeygen.KnowledgeProof
import ThresholdKeygen.Proofs.Secp256k1.Encoding
import ThresholdKeygen.Proofs.Snapshot

/-!
# Commitments and proofs as byte strings

Scalars and points have fixed widths; a proof is one of each, a commitment is a number in four bytes
and as many points. Main statement: `wireFormats_exact`, readers of commitments and proofs accept
exactly the byte strings of these forms, and each only for the value that is written so.
-/

namespace ThresholdKeygen

/-- A writer and a reader that undo each other: the values that fit are written as the byte strings
of a form. -/
structure WireFormat {V : Type} (Fits : V → Prop) (HasForm : Bytes → Prop) (write : V → Bytes)
    (read : Bytes → Except Error V) : Prop where
  /-- Every value that fits is read from what is written for it. -/
  read_write (v : V) (hfits : Fits v) : read (write v) = .ok v
  /-- Nothing else is read as that value. -/
  write_of_read (bytes : Bytes) (v : V) (hread : read bytes = .ok v) : Fits v ∧ write v = bytes
  /-- What is not read is refused as a wrong value. -/
  refuses_read (bytes : Bytes) : Refuses (read bytes) fun refusal => ∃ fault, refusal = .value fault
  /-- Read is what has the form. -/
  reads_iff (bytes : Bytes) : (∃ v, read bytes = .ok v) ↔ HasForm bytes

theorem WireFormat.of_reads {V : Type} {Fits : V → Prop} {HasForm : Bytes → Prop}
    {write : V → Bytes} {read : Bytes → Except Error V}
    (hreads : ∀ bytes v, read bytes = .ok v ↔ Fits v ∧ bytes = write v)
    (hrefuses : ∀ bytes, Refuses (read bytes) fun refusal => ∃ fault, refusal = .value fault)
    (hform : ∀ bytes, HasForm bytes ↔ ∃ v, Fits v ∧ bytes = write v) :
    WireFormat Fits HasForm write read where
  read_write v hfits := (hreads _ v).2 ⟨hfits, rfl⟩
  write_of_read bytes v hread := ((hreads bytes v).1 hread).imp_right Eq.symm
  refuses_read := hrefuses
  reads_iff bytes := by simp only [hreads, hform]

/-! ### Scalars -/

namespace Scalar

theorem toNat_toBytes (a : Scalar) : Bytes.toNat a.toBytes = a.val := by
  have hwide : groupOrder < 256 ^ width := by decide
  exact Bytes.toNat_ofNat (a.val_lt.trans hwide)

/-- A scalar is read from its own encoding and from no other byte string. -/
theorem ofBytes?_eq_ok_iff {bytes : Bytes} {a : Scalar} :
    ofBytes? bytes = .ok a ↔ bytes = a.toBytes := by
  constructor
  · intro h
    rw [ofBytes?] at h
    split at h
    · cases h
    · rename_i hlength
      split at h
      · obtain rfl := Except.ok.inj h
        rw [toBytes, ← not_not.1 hlength, Bytes.ofNat_toNat]
      · cases h
  · rintro rfl
    have hlt : Bytes.toNat a.toBytes < groupOrder := a.toNat_toBytes ▸ a.val_lt
    rw [ofBytes?, if_neg (by simp), dif_pos hlt]
    exact congrArg Except.ok (ext a.toNat_toBytes)

/-- Thirty-two bytes are an encoding when their value is below the group order. -/
theorem exists_toBytes_iff {bytes : Bytes} :
    (∃ a : Scalar, bytes = a.toBytes) ↔ bytes.length = width ∧ bytes.toNat < groupOrder := by
  constructor
  · rintro ⟨a, rfl⟩
    exact ⟨a.length_toBytes, a.toNat_toBytes ▸ a.val_lt⟩
  · rintro ⟨hlength, hlt⟩
    refine ⟨⟨bytes.toNat, hlt⟩, ?_⟩
    rw [toBytes, ← hlength, Bytes.ofNat_toNat]

theorem refuses_ofBytes? (bytes : Bytes) :
    Refuses (ofBytes? bytes) fun refusal => ∃ fault, refusal = .value fault := by
  rw [ofBytes?]
  split
  · exact .error ⟨_, rfl⟩
  · split
    · exact .ok
    · exact .error ⟨_, rfl⟩

end Scalar

variable {K : Type} [Suite K]

/-! ### Refusals of points -/

theorem Point.refuses_ofBytes? (bytes : Bytes) :
    Refuses (ofBytes? bytes : Except Error (Point K)) fun refusal =>
      ∃ fault, refusal = .value fault := by
  rw [ofBytes?]
  split
  · exact .error ⟨_, rfl⟩
  · split
    · exact .ok
    · split
      · exact .ok
      · exact .error ⟨_, rfl⟩

theorem refuses_unpackPoints (count : Nat) (bytes : Bytes) :
    Refuses (unpackPoints count bytes : Except Error (List (Point K))) fun refusal =>
      ∃ fault, refusal = .value fault := by
  induction count generalizing bytes with
  | zero => exact .ok
  | succ count ih => exact .bind (Point.refuses_ofBytes? _) fun _ => .bind (ih _) fun _ => .ok

/-! ### Commitments -/

namespace Commitment

variable (K) in
/-- A number in four bytes, and that many encodings of points. -/
def HasForm (bytes : Bytes) : Prop :=
  ∃ codes : List Bytes, codes.length < 2 ^ 32 ∧ (∀ code ∈ codes, Point.IsCode K code) ∧
    bytes = Bytes.ofNat 4 codes.length ++ codes.flatten

theorem refuses_ofBytes? (bytes : Bytes) :
    Refuses (ofBytes? bytes : Except Error (Commitment K)) fun refusal =>
      ∃ fault, refusal = .value fault := by
  simp only [ofBytes?]
  split
  · exact .error ⟨_, rfl⟩
  · split
    · exact .error ⟨_, rfl⟩
    · exact .bind (refuses_unpackPoints _ _) fun _ => .ok

variable [LawfulEncoding K]

/-- A commitment is read from its own encoding, if its number of points has four bytes, and from no
other byte string. -/
theorem ofBytes?_eq_ok_iff {bytes : Bytes} {c : Commitment K} :
    ofBytes? bytes = .ok c ↔ c.points.length < 2 ^ 32 ∧ bytes = c.toBytes := by
  simp only [ofBytes?]
  constructor
  · intro h
    split at h
    · cases h
    · split at h
      · cases h
      · rename_i hlength
        obtain ⟨points, hpoints, hc⟩ := bind_eq_ok_iff.1 h
        obtain rfl := Except.ok.inj hc
        exact packPoints_of_unpackPoints (not_not.1 hlength) hpoints
  · rintro ⟨hcount, rfl⟩
    have hlength := length_packPoints c.points
    rw [toBytes, toNat_take_packPoints hcount, if_neg (by omega), if_neg (not_not.2 hlength),
      unpackPoints_drop_packPoints]
    rfl

theorem hasForm_iff {bytes : Bytes} :
    HasForm K bytes ↔ ∃ c : Commitment K, c.points.length < 2 ^ 32 ∧ bytes = c.toBytes := by
  constructor
  · rintro ⟨codes, hcount, hcodes, rfl⟩
    obtain ⟨points, rfl⟩ := Point.exists_points hcodes
    rw [List.length_map] at hcount
    exact ⟨⟨points⟩, hcount, (Snapshot.packPoints_eq points).symm⟩
  · rintro ⟨c, hcount, rfl⟩
    refine ⟨c.points.map Point.toBytes, by rwa [List.length_map], ?_,
      Snapshot.packPoints_eq c.points⟩
    simp [Point.isCode_toBytes]

end Commitment

/-! ### Proofs of knowledge -/

namespace KnowledgeProof

variable (K) in
/-- An encoding of a point, and thirty-two bytes with a value below the group order. -/
def HasForm (bytes : Bytes) : Prop :=
  ∃ code response : Bytes, Point.IsCode K code ∧ response.length = Scalar.width ∧
    response.toNat < groupOrder ∧ bytes = code ++ response

theorem refuses_ofBytes? (bytes : Bytes) :
    Refuses (ofBytes? bytes : Except Error (KnowledgeProof K)) fun refusal =>
      ∃ fault, refusal = .value fault := by
  rw [ofBytes?]
  split
  · exact .bind (.error ⟨_, rfl⟩) fun _ => .bind (Point.refuses_ofBytes? _) fun _ =>
      .bind (Scalar.refuses_ofBytes? _) fun _ => .ok
  · exact .bind (Point.refuses_ofBytes? _) fun _ => .bind (Scalar.refuses_ofBytes? _) fun _ => .ok

variable [LawfulEncoding K]

/-- A proof is read from its own encoding and from no other byte string. -/
theorem ofBytes?_eq_ok_iff {bytes : Bytes} {proof : KnowledgeProof K} :
    ofBytes? bytes = .ok proof ↔ bytes = proof.toBytes := by
  constructor
  · intro h
    rw [ofBytes?] at h
    split at h
    · cases h
    · obtain ⟨announcement, hannouncement, hrest⟩ := bind_eq_ok_iff.1 h
      obtain ⟨response, hresponse, hproof⟩ := bind_eq_ok_iff.1 hrest
      obtain rfl := Except.ok.inj hproof
      rw [toBytes, ← Point.ofBytes?_eq_ok_iff.1 hannouncement,
        ← Scalar.ofBytes?_eq_ok_iff.1 hresponse, List.take_append_drop]
  · rintro rfl
    have htake : proof.toBytes.take Point.width = proof.announcement.toBytes :=
      List.take_left' (Point.length_toBytes _)
    have hdrop : proof.toBytes.drop Point.width = proof.response.toBytes :=
      List.drop_left' (Point.length_toBytes _)
    rw [ofBytes?, if_neg (by simp [toBytes]), htake, hdrop, Point.ofBytes?_toBytes,
      Scalar.ofBytes?_eq_ok_iff.2 rfl]
    rfl

theorem hasForm_iff {bytes : Bytes} :
    HasForm K bytes ↔ ∃ proof : KnowledgeProof K, bytes = proof.toBytes := by
  constructor
  · rintro ⟨code, response, hcode, hlength, hlt, rfl⟩
    obtain ⟨p, rfl⟩ := Point.isCode_iff.1 hcode
    obtain ⟨s, rfl⟩ := Scalar.exists_toBytes_iff.2 ⟨hlength, hlt⟩
    exact ⟨⟨p, s⟩, rfl⟩
  · rintro ⟨⟨p, s⟩, rfl⟩
    obtain ⟨hlength, hlt⟩ := Scalar.exists_toBytes_iff.1 ⟨s, rfl⟩
    exact ⟨p.toBytes, s.toBytes, Point.isCode_toBytes p, hlength, hlt, rfl⟩

end KnowledgeProof

/-! ### Both formats -/

/-- Commitments with fewer than 2³² points and proofs are read from what is written for them, from
nothing else, and everything that does not have their form is refused. -/
theorem wireFormats_exact [LawfulEncoding K] :
    WireFormat (fun c : Commitment K => c.points.length < 2 ^ 32) (Commitment.HasForm K)
      Commitment.toBytes Commitment.ofBytes? ∧
    WireFormat (fun _ : KnowledgeProof K => True) (KnowledgeProof.HasForm K)
      KnowledgeProof.toBytes KnowledgeProof.ofBytes? := by
  constructor
  · exact .of_reads (fun _ _ => Commitment.ofBytes?_eq_ok_iff) Commitment.refuses_ofBytes?
      fun _ => Commitment.hasForm_iff
  · refine .of_reads (fun _ _ => ?_) KnowledgeProof.refuses_ofBytes? fun _ => ?_
    · rw [true_and]
      exact KnowledgeProof.ofBytes?_eq_ok_iff
    · simp only [true_and]
      exact KnowledgeProof.hasForm_iff

open Secp256k1 in
/-- On the curve, a commitment with the identity among its points, and a proof whose response is the
group order. -/
theorem exists_wireFormats_exact :
    Commitment.ofBytes? (⟨[.identity, .key base]⟩ : Commitment Affine).toBytes =
      .ok (⟨[.identity, .key base]⟩ : Commitment Affine) ∧
    ¬ ∃ proof : KnowledgeProof Affine,
      KnowledgeProof.ofBytes? (base.encode ++ Bytes.ofNat Scalar.width groupOrder) = .ok proof := by
  obtain ⟨hcommitments, hproofs⟩ := wireFormats_exact (K := Affine)
  refine ⟨hcommitments.read_write _ (by decide), ?_⟩
  rw [hproofs.reads_iff]
  rintro ⟨code, response, hcode, hlength, hlt, hbytes⟩
  have hcode : base.encode.length = code.length := by
    obtain ⟨p, rfl⟩ := Point.isCode_iff.1 hcode
    rw [Point.length_toBytes]
    exact LawfulEncoding.length_encode base
  obtain ⟨-, rfl⟩ := List.append_inj hbytes hcode
  rw [Bytes.toNat_ofNat (by decide)] at hlt
  exact absurd hlt (Nat.lt_irrefl _)

end ThresholdKeygen
