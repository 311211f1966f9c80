import ThresholdKeygen.Proofs.Bytes
import ThresholdKeygen.Proofs.KnowledgeProof
import ThresholdKeygen.Proofs.Sharing

/-!
# Public maps of a sharing

Power maps hold the powers of all indices, and with them the joint commitment yields the images of
the joint values. Snapshots of public maps are read as they were written; there is one as long as
the points are few enough for a length in four bytes.
-/

namespace ThresholdKeygen

/-! ### Power maps -/

namespace PowerMap

theorem derive_eq (n : Int) (t : Nat) :
    derive n t = .ok ⟨t, (upTo n).map fun x : Int => powersFrom x 1 t⟩ := by
  have hpowers : ∀ x ∈ upTo n,
      powers (Scalar.ofInt x) (t : Int) = .ok (powersFrom (x : Scalar) 1 t) := by
    intro x _
    rw [powers, if_neg (by omega), Int.toNat_natCast]
    rfl
  rw [derive, mapM_eq_ok hpowers]
  rfl

variable {n : Int} {t : Nat} {m : PowerMap} (h : derive n t = .ok m)

include h

theorem threshold_eq : m.threshold = t := by
  rw [derive_eq] at h
  exact congrArg threshold (Except.ok.inj h).symm

theorem rows_eq : m.rows = (upTo n).map fun x : Int => powersFrom x 1 t := by
  rw [derive_eq] at h
  exact congrArg rows (Except.ok.inj h).symm

theorem row_eq {x : Int} (h₁ : 1 ≤ x) (h₂ : x ≤ n) : m.row x = .ok (powersFrom x 1 t) := by
  rw [row, if_neg (by omega), rows_eq h, List.getElem?_map, getElem?_upTo h₁ h₂]
  rfl

end PowerMap

/-! ### Public maps -/

section Lengths

variable {K : Type} [Suite K]

theorem JointCommitment.length_of_derive {table : CommitmentTable K} {q : JointCommitment K}
    (h : derive table = .ok q) : q.points.length = table.threshold.toNat := by
  rw [derive] at h
  split at h
  · obtain rfl := Except.ok.inj h
    simp
  · cases h

theorem ShareMap.length_of_derive {q : JointCommitment K} {m : PowerMap} {w : ShareMap K}
    (h : derive q m = .ok w) : w.shares.length = m.rows.length := by
  rw [derive] at h
  split at h
  · cases h
  · obtain ⟨shares, hshares, hw⟩ := bind_eq_ok_iff.1 h
    obtain rfl := Except.ok.inj hw
    exact (mapM_eq_ok_iff.1 hshares).length_eq.symm

end Lengths

namespace Sharing

variable (s : Sharing) {K : Type} [Suite K]

/-- The images of the values of the joint polynomial at some indices. -/
def publicShares (indices : List Int) : List (Int × Point K) :=
  indices.map fun x => (x, Point.ofScalar (s.value x))

@[simp] theorem threshold_jointCommitment :
    (s.jointCommitment : JointCommitment K).threshold = s.threshold := by
  simp [jointCommitment, JointCommitment.threshold, Coefficients.commit]

theorem share_shareMap {n x : Int} (h₁ : 1 ≤ x) (h₂ : x ≤ n) :
    (s.shareMap n : ShareMap K).share x = .ok (Point.ofScalar (s.value x)) := by
  rw [ShareMap.share, if_neg (by omega), shareMap, List.getElem?_map, getElem?_upTo h₁ h₂]
  rfl

variable [LawfulSuite K]

/-- A row of powers evaluates the joint commitment to the image of the joint value. -/
theorem evaluate_jointCommitment (x : Int) :
    (s.jointCommitment : JointCommitment K).evaluate (powersFrom x 1 s.threshold) =
      .ok (Point.ofScalar (s.value x)) := by
  have hlength : (powersFrom x 1 s.threshold).length =
      (s.joint.commit : List (Point K)).length := by
    simp [Coefficients.commit]
  have hsum := Coefficients.sum_zipWith_powersFrom (x : Scalar) 1 s.joint
  rw [length_joint, one_mul, evaluate_joint] at hsum
  rw [JointCommitment.evaluate, jointCommitment, if_neg (not_not.2 hlength),
    Point.lincomb_eq hlength, Coefficients.map_log_commit, hsum]

theorem derive_shareMap {n : Int} {m : PowerMap} (hm : PowerMap.derive n s.threshold = .ok m) :
    ShareMap.derive (s.jointCommitment : JointCommitment K) m = .ok (s.shareMap n) := by
  have hrows : m.rows.mapM (s.jointCommitment : JointCommitment K).evaluate =
      .ok ((upTo n).map fun x => Point.ofScalar (s.value x)) := by
    rw [PowerMap.rows_eq hm, List.mapM_map]
    exact mapM_eq_ok fun (x : Int) _ => s.evaluate_jointCommitment (K := K) x
  have hthresholds : ¬ m.threshold ≠ ((s.jointCommitment : JointCommitment K).threshold : Int) := by
    simp [PowerMap.threshold_eq hm]
  rw [ShareMap.derive, if_neg hthresholds, hrows]
  rfl

end Sharing

section Equality

variable {K : Type} [Suite K] [LawfulEncoding K]

instance : LawfulBEq (Commitment K) where
  rfl := by
    intro c
    exact beq_self_eq_true c.points
  eq_of_beq := by
    rintro ⟨points⟩ ⟨points'⟩ h
    exact congrArg Commitment.mk (eq_of_beq (show (points == points') = true from h))

instance : LawfulBEq (JointCommitment K) where
  rfl := by
    intro q
    exact beq_self_eq_true q.points
  eq_of_beq := by
    rintro ⟨points⟩ ⟨points'⟩ h
    exact congrArg JointCommitment.mk (eq_of_beq (show (points == points') = true from h))

instance : LawfulBEq (ShareMap K) where
  rfl := by
    intro w
    exact beq_self_eq_true w.shares
  eq_of_beq := by
    rintro ⟨shares⟩ ⟨shares'⟩ h
    exact congrArg ShareMap.mk (eq_of_beq (show (shares == shares') = true from h))

end Equality

/-! ### Snapshots -/

section Snapshots

variable {K : Type} [Suite K]

theorem length_flatMap_toBytes [LawfulEncoding K] (points : List (Point K)) :
    (points.flatMap Point.toBytes).length = points.length * Point.width := by
  induction points with
  | nil => rfl
  | cons p points ih =>
    rw [List.flatMap_cons, List.length_append, ih, Point.length_toBytes, List.length_cons,
      Nat.succ_mul, Nat.add_comm]

theorem unpackPoints_flatMap [LawfulEncoding K] (points : List (Point K)) :
    unpackPoints points.length (points.flatMap Point.toBytes) = .ok points := by
  induction points with
  | nil => rfl
  | cons p points ih =>
    have htake : (p.toBytes ++ points.flatMap Point.toBytes).take Point.width = p.toBytes :=
      List.take_left' (Point.length_toBytes p)
    have hdrop : (p.toBytes ++ points.flatMap Point.toBytes).drop Point.width =
        points.flatMap Point.toBytes := List.drop_left' (Point.length_toBytes p)
    rw [List.length_cons, List.flatMap_cons, unpackPoints, htake, hdrop, Point.ofBytes?_toBytes, ih]
    rfl

theorem length_packPoints [LawfulEncoding K] (points : List (Point K)) :
    (packPoints points).length = 4 + points.length * Point.width := by
  rw [packPoints, List.length_append, Bytes.length_ofNat, length_flatMap_toBytes]

/-- The number of points stands in front of them. -/
theorem toNat_take_packPoints {points : List (Point K)} (hcount : points.length < 2 ^ 32) :
    Bytes.toNat ((packPoints points).take 4) = points.length := by
  rw [packPoints, List.take_left' (Bytes.length_ofNat 4 _)]
  exact Bytes.toNat_ofNat hcount

theorem unpackPoints_drop_packPoints [LawfulEncoding K] (points : List (Point K)) :
    unpackPoints points.length ((packPoints points).drop 4) = .ok points := by
  rw [packPoints, List.drop_left' (Bytes.length_ofNat 4 _), unpackPoints_flatMap]

namespace Snapshot

omit [Suite K] in
theorem length_kindBytes_lt (kind : MapKind) : (kindBytes kind).length < 2 ^ 32 := by
  cases kind <;> decide +kernel

/-- There is a digest of a body whose length has four bytes. -/
theorem exists_snapshotDigest (kind : MapKind) {body : Bytes} (hbody : body.length < 2 ^ 32) :
    ∃ digest : Digest, Transcript.snapshotDigest K (kindBytes kind) body = .ok digest.bytes := by
  obtain ⟨digest, hdigest⟩ := Transcript.exists_tagged (K := K) Transcript.snapshotTag
    [.bytes (kindBytes kind), .bytes body] (by
      simp only [List.mem_cons, List.not_mem_nil, or_false]
      rintro _ (rfl | rfl)
      · exact Item.encodable_bytes (length_kindBytes_lt kind)
      · exact Item.encodable_bytes hbody)
  exact ⟨digest, by rw [Transcript.snapshotDigest, hdigest]; rfl⟩

/-- There is no digest of a longer body. -/
theorem snapshotDigest_eq_error (kind : MapKind) {body : Bytes} (hbody : 2 ^ 32 ≤ body.length) :
    Transcript.snapshotDigest K (kindBytes kind) body = .error (.overflow .tooBig) := by
  have hlength : Item.encodeLength body.length = .error (.overflow .tooBig) :=
    if_neg (not_lt.2 hbody)
  simp only [Transcript.snapshotDigest, Transcript.tagged, Item.encodeAll, Item.encode,
    Item.encodeLength_eq (length_kindBytes_lt kind), hlength]
  rfl

theorem length_of_snapshotDigest {kind body digest : Bytes}
    (h : Transcript.snapshotDigest K kind body = .ok digest) : digest.length = digestWidth := by
  obtain ⟨digest, -, hbytes⟩ := bind_eq_ok_iff.1 h
  obtain rfl := Except.ok.inj hbytes
  exact digest.length_bytes

theorem pack_eq_ok_iff {kind : MapKind} {points : List (Point K)} {bytes : Bytes} :
    pack kind points = .ok bytes ↔ ∃ digest,
      Transcript.snapshotDigest K (kindBytes kind) (packPoints points) = .ok digest ∧
        bytes = packPoints points ++ digest := by
  rw [pack, bind_eq_ok_iff]
  simp only [pure_eq_ok, Except.ok.injEq, eq_comm]

/-- The body of a snapshot is all of it but the digest. -/
theorem take_of_pack {kind : MapKind} {points : List (Point K)} {bytes : Bytes}
    (h : pack kind points = .ok bytes) :
    bytes.take (bytes.length - digestWidth) = packPoints points := by
  obtain ⟨digest, hdigest, rfl⟩ := pack_eq_ok_iff.1 h
  rw [List.length_append, length_of_snapshotDigest hdigest, Nat.add_sub_cancel]
  exact List.take_left

variable [LawfulEncoding K]

/-- Points have a snapshot when their encodings and their number have a length in four bytes. -/
theorem exists_pack (kind : MapKind) {points : List (Point K)}
    (hbody : 4 + Point.width * points.length < 2 ^ 32) : ∃ bytes, pack kind points = .ok bytes := by
  have hlength : (packPoints points).length < 2 ^ 32 := by rwa [length_packPoints, Nat.mul_comm]
  obtain ⟨digest, hdigest⟩ := exists_snapshotDigest (K := K) kind hlength
  exact ⟨_, pack_eq_ok_iff.2 ⟨_, hdigest, rfl⟩⟩

/-- More points have none. -/
theorem pack_eq_error (kind : MapKind) {points : List (Point K)}
    (hbody : 2 ^ 32 ≤ 4 + Point.width * points.length) :
    pack kind points = .error (.overflow .tooBig) := by
  rw [pack, snapshotDigest_eq_error kind (by rwa [length_packPoints, Nat.mul_comm])]
  rfl

/-- The name of a map is refused exactly when its points have no snapshot. -/
theorem map_fingerprint_eq_error_iff {kind : MapKind} {points : List (Point K)} {refusal : Error} :
    (pack kind points).map fingerprint = .error refusal ↔
      refusal = .overflow .tooBig ∧ 2 ^ 32 ≤ 4 + Point.width * points.length := by
  obtain hbody | hbody := lt_or_ge (4 + Point.width * points.length) (2 ^ 32)
  · obtain ⟨bytes, hpack⟩ := exists_pack kind hbody
    rw [hpack, map_ok]
    exact ⟨nofun, fun h => absurd hbody (not_lt.2 h.2)⟩
  · rw [pack_eq_error kind hbody, map_error]
    exact ⟨fun h => ⟨(Except.error.inj h).symm, hbody⟩, fun h => by rw [h.1]⟩

theorem lt_of_pack_eq_ok {kind : MapKind} {points : List (Point K)} {bytes : Bytes}
    (h : pack kind points = .ok bytes) : 4 + Point.width * points.length < 2 ^ 32 := by
  by_contra hbody
  rw [pack_eq_error kind (not_lt.1 hbody)] at h
  cases h

/-- Reading undoes writing. -/
theorem unpack_pack {kind : MapKind} {points : List (Point K)} {bytes : Bytes}
    (h : pack kind points = .ok bytes) : unpack kind bytes = .ok points := by
  have hcount := lt_of_pack_eq_ok h
  have hbody := length_packPoints points
  have htake := take_of_pack h
  obtain ⟨digest, hdigest, rfl⟩ := pack_eq_ok_iff.1 h
  have hwidth := length_of_snapshotDigest hdigest
  have hlength : (packPoints points ++ digest).length = (packPoints points).length + digestWidth :=
    by rw [List.length_append, hwidth]
  have hdrop : (packPoints points ++ digest).drop
      ((packPoints points ++ digest).length - digestWidth) = digest := by
    rw [hlength, Nat.add_sub_cancel]
    exact List.drop_left
  rw [Point.width] at hcount
  rw [unpack, if_neg (by omega)]
  simp only [htake, hdrop, hdigest, ok_bind, ne_eq, not_true, if_false,
    toNat_take_packPoints (show points.length < 2 ^ 32 by omega), hbody,
    unpackPoints_drop_packPoints, pure_eq_ok]

end Snapshot

section Reading

variable [LawfulEncoding K]

theorem JointCommitment.ofBytes?_toBytes {q : JointCommitment K} {bytes : Bytes}
    (hbytes : q.toBytes = .ok bytes) (hne : q.points ≠ []) : ofBytes? bytes = .ok q := by
  rw [ofBytes?, Snapshot.unpack_pack hbytes]
  simp [hne]

theorem ShareMap.ofBytes?_toBytes {w : ShareMap K} {bytes : Bytes}
    (hbytes : w.toBytes = .ok bytes) : ofBytes? bytes = .ok w := by
  rw [ofBytes?, Snapshot.unpack_pack hbytes]
  rfl

end Reading

end Snapshots

namespace Sharing

variable (s : Sharing) {K : Type} [Suite K]

@[simp] theorem length_shares_shareMap (n : Int) :
    (s.shareMap n : ShareMap K).shares.length = n.toNat := by
  simp [shareMap]

variable [LawfulEncoding K]

theorem exists_jointSnapshot (hcount : 4 + Point.width * s.threshold < 2 ^ 32) :
    ∃ bytes, (s.jointCommitment : JointCommitment K).toBytes = .ok bytes := by
  refine Snapshot.exists_pack .joint ?_
  change 4 + Point.width * (s.jointCommitment : JointCommitment K).threshold < 2 ^ 32
  rwa [threshold_jointCommitment]

theorem exists_shareMapSnapshot {n : Int} (hcount : 4 + Point.width * n < 2 ^ 32) :
    ∃ bytes, (s.shareMap n : ShareMap K).toBytes = .ok bytes := by
  refine Snapshot.exists_pack .shares ?_
  rw [Point.width] at hcount
  rw [length_shares_shareMap, Point.width]
  omega

end Sharing

end ThresholdKeygen
