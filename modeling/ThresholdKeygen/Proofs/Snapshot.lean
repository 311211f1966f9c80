import ThresholdKeygen.Proofs.PublicMap
import ThresholdKeygen.Proofs.Transcript

/-!
# Snapshots of public maps

A snapshot is a number in four bytes, as many point encodings, and a digest of all that and of the
kind of the map. Main statement: `snapshots_exact`, a reader accepts exactly the byte strings of
this form, what it makes of one is written as that byte string again, and a byte string that both
readers accept shows a collision of the hash.
-/

namespace ThresholdKeygen

variable {K : Type} [Suite K]

/-! ### Encodings of points -/

namespace Point

variable (K) in
/-- That a byte string is the encoding of a point: 33 zero bytes or what the backend accepts as the
encoding of a key. -/
def IsCode (code : Bytes) : Prop :=
  code = identityBytes ∨ code.length = width ∧ ∃ k : K, Suite.decode? code = some k

variable [LawfulEncoding K]

theorem ofBytes?_eq_ok_iff {code : Bytes} {p : Point K} :
    ofBytes? code = .ok p ↔ code = p.toBytes := by
  refine ⟨fun h => ?_, fun h => h ▸ ofBytes?_toBytes p⟩
  rw [ofBytes?] at h
  split at h
  · cases h
  · split at h
    · obtain rfl := Except.ok.inj h
      assumption
    · split at h
      · rename_i k hk
        obtain rfl := Except.ok.inj h
        exact LawfulEncoding.decode?_eq_some_iff.1 hk
      · cases h

theorem isCode_toBytes (p : Point K) : IsCode K p.toBytes := by
  cases p with
  | identity => exact .inl rfl
  | key k => exact .inr ⟨length_toBytes (key k), k, LawfulEncoding.decode?_eq_some_iff.2 rfl⟩

theorem isCode_iff {code : Bytes} : IsCode K code ↔ ∃ p : Point K, code = p.toBytes := by
  constructor
  · rintro (rfl | ⟨-, k, hk⟩)
    · exact ⟨identity, rfl⟩
    · exact ⟨key k, LawfulEncoding.decode?_eq_some_iff.1 hk⟩
  · rintro ⟨p, rfl⟩
    exact isCode_toBytes p

/-- Codes are the encodings of points, one by one. -/
theorem exists_points {codes : List Bytes} (h : ∀ code ∈ codes, IsCode K code) :
    ∃ points : List (Point K), codes = points.map toBytes := by
  induction codes with
  | nil => exact ⟨[], rfl⟩
  | cons code codes ih =>
    obtain ⟨hcode, hcodes⟩ := List.forall_mem_cons.1 h
    obtain ⟨p, rfl⟩ := isCode_iff.1 hcode
    obtain ⟨points, rfl⟩ := ih hcodes
    exact ⟨p :: points, rfl⟩

end Point

/-! ### Reading points -/

section Points

variable [LawfulEncoding K]

/-- What is read as some points begins with their encodings. -/
theorem of_unpackPoints_eq_ok {count : Nat} {bytes : Bytes} {points : List (Point K)}
    (h : unpackPoints count bytes = .ok points) :
    points.length = count ∧ points.flatMap Point.toBytes = bytes.take (count * Point.width) := by
  induction count generalizing bytes points with
  | zero =>
    obtain rfl := Except.ok.inj h
    simp
  | succ count ih =>
    obtain ⟨p, hp, hrest⟩ := bind_eq_ok_iff.1 h
    obtain ⟨others, hothers, hpoints⟩ := bind_eq_ok_iff.1 hrest
    obtain rfl := Except.ok.inj hpoints
    obtain ⟨hcount, hcodes⟩ := ih hothers
    refine ⟨by rw [List.length_cons, hcount], ?_⟩
    rw [List.flatMap_cons, hcodes, ← Point.ofBytes?_eq_ok_iff.1 hp, Nat.succ_mul, Nat.add_comm,
      List.take_add]

/-- A number in four bytes and as many points are read from what is written for them only. -/
theorem packPoints_of_unpackPoints {body : Bytes} {points : List (Point K)}
    (hlength : body.length = 4 + Bytes.toNat (body.take 4) * Point.width)
    (h : unpackPoints (Bytes.toNat (body.take 4)) (body.drop 4) = .ok points) :
    points.length < 2 ^ 32 ∧ body = packPoints points := by
  obtain ⟨hcount, hcodes⟩ := of_unpackPoints_eq_ok h
  have hwidth : (body.take 4).length = 4 := by rw [List.length_take]; omega
  have hrest : (body.drop 4).length = points.length * Point.width := by
    rw [List.length_drop, hlength, hcount, Nat.add_sub_cancel_left]
  have hlt := Bytes.toNat_lt (body.take 4)
  have hwrite := Bytes.ofNat_toNat (body.take 4)
  rw [hwidth, ← hcount] at hlt hwrite
  rw [← hcount, List.take_of_length_le hrest.le] at hcodes
  exact ⟨hlt, by rw [packPoints, hwrite, hcodes, List.take_append_drop]⟩

end Points

/-! ### Reading snapshots -/

namespace Snapshot

/-- The items that the digest of a snapshot covers. -/
def items (kind : MapKind) (body : Bytes) : List (Item K) :=
  [.bytes (kindBytes kind), .bytes body]

variable (K) in
/-- The digest of the kind of a map and a body, which there is when the length of the body has four
bytes. -/
def digestOf (kind : MapKind) (body : Bytes) : Except Error Digest :=
  Transcript.tagged Transcript.snapshotTag (items kind body : List (Item K))

omit [Suite K] in
theorem haveShapes_items (kind : MapKind) {body : Bytes} (hbody : body.length < 2 ^ 32) :
    Item.HaveShapes [.bytes, .bytes] (items kind body : List (Item K)) :=
  .cons (.bytes (length_kindBytes_lt kind)) (.cons (.bytes hbody) .nil)

theorem snapshotDigest_eq_ok_iff {kind : MapKind} {body bytes : Bytes} :
    Transcript.snapshotDigest K (kindBytes kind) body = .ok bytes ↔
      ∃ digest, digestOf K kind body = .ok digest ∧ bytes = digest.bytes := by
  rw [Transcript.snapshotDigest, bind_eq_ok_iff]
  simp only [pure_eq_ok, Except.ok.injEq, eq_comm, digestOf, items]

/-- A reader that refuses says what is wrong with the snapshot. -/
theorem refuses_unpack (kind : MapKind) {bytes : Bytes}
    (hbody : bytes.length - digestWidth < 2 ^ 32) :
    Refuses (unpack kind bytes : Except Error (List (Point K))) fun refusal =>
      ∃ fault, refusal = .snapshot fault := by
  have hshort : (bytes.take (bytes.length - digestWidth)).length < 2 ^ 32 := by
    rw [List.length_take]
    omega
  obtain ⟨digest, hdigest⟩ := exists_snapshotDigest (K := K) kind hshort
  simp only [unpack, hdigest, ok_bind]
  split
  · exact .error ⟨_, rfl⟩
  · split
    · exact .error ⟨_, rfl⟩
    · split
      · exact .error ⟨_, rfl⟩
      · split
        · exact .ok
        · exact .error ⟨_, rfl⟩

/-! ### The form of a snapshot -/

variable (K) in
/-- The form of the snapshots of a kind of map with at least some number of points: the number of
points, that many encodings of points, and the digest of the kind and of all these bytes. -/
def HasForm (kind : MapKind) (least : Nat) (bytes : Bytes) : Prop :=
  ∃ (codes : List Bytes) (digest : Digest), least ≤ codes.length ∧ codes.length < 2 ^ 32 ∧
    (∀ code ∈ codes, Point.IsCode K code) ∧
    digestOf K kind (Bytes.ofNat 4 codes.length ++ codes.flatten) = .ok digest ∧
    bytes = Bytes.ofNat 4 codes.length ++ codes.flatten ++ digest.bytes

theorem packPoints_eq (points : List (Point K)) :
    packPoints points =
      Bytes.ofNat 4 (points.map Point.toBytes).length ++ (points.map Point.toBytes).flatten := by
  rw [packPoints, List.length_map, List.flatMap_def]

variable [LawfulEncoding K]

/-- Points are read from the snapshot that is written for them and from no other byte string. -/
theorem unpack_eq_ok_iff {kind : MapKind} {bytes : Bytes} {points : List (Point K)} :
    unpack kind bytes = .ok points ↔ pack kind points = .ok bytes := by
  refine ⟨fun h => ?_, unpack_pack⟩
  simp only [unpack] at h
  split at h
  · cases h
  · obtain ⟨digest, hdigest, h⟩ := bind_eq_ok_iff.1 h
    split at h
    · cases h
    · rename_i hsame
      split at h
      · cases h
      · rename_i hlength
        split at h
        · rename_i read hread
          obtain rfl := Except.ok.inj h
          have hbody : (bytes.take (bytes.length - digestWidth)).length = 4 + _ :=
            not_not.1 hlength
          obtain ⟨-, hpoints⟩ := packPoints_of_unpackPoints hbody hread
          refine pack_eq_ok_iff.2 ⟨digest, hpoints ▸ hdigest, ?_⟩
          rw [← hpoints, ← not_not.1 hsame, List.take_append_drop]
        · cases h

/-- What has the form of a snapshot is the snapshot of some points. -/
theorem hasForm_iff {kind : MapKind} {least : Nat} {bytes : Bytes} :
    HasForm K kind least bytes ↔ ∃ points : List (Point K),
      least ≤ points.length ∧ pack kind points = .ok bytes := by
  constructor
  · rintro ⟨codes, digest, hleast, -, hcodes, hdigest, rfl⟩
    obtain ⟨points, rfl⟩ := Point.exists_points hcodes
    rw [← packPoints_eq] at hdigest ⊢
    rw [List.length_map] at hleast
    exact ⟨points, hleast,
      pack_eq_ok_iff.2 ⟨_, snapshotDigest_eq_ok_iff.2 ⟨digest, hdigest, rfl⟩, rfl⟩⟩
  · rintro ⟨points, hleast, hpack⟩
    have hcount := lt_of_pack_eq_ok hpack
    rw [Point.width] at hcount
    obtain ⟨_, hsnapshot, rfl⟩ := pack_eq_ok_iff.1 hpack
    obtain ⟨digest, hdigest, rfl⟩ := snapshotDigest_eq_ok_iff.1 hsnapshot
    rw [packPoints_eq] at hdigest
    refine ⟨points.map Point.toBytes, digest, by rwa [List.length_map],
      by rw [List.length_map]; omega, ?_, hdigest, by rw [← packPoints_eq]⟩
    simp [Point.isCode_toBytes]

/-- A reader and a writer of the snapshots of a kind of map, each map with at least some number of
points, that undo each other. -/
structure Exact {M : Type} (kind : MapKind) (least : Nat) (points : M → List (Point K))
    (write : M → Except Error Bytes) (fingerprint : M → Except Error String)
    (read : Bytes → Except Error M) : Prop where
  /-- A map is read from its snapshot. -/
  read_write (m : M) (hleast : least ≤ (points m).length)
    (hbody : 4 + Point.width * (points m).length < 2 ^ 32) :
    ∃ bytes, write m = .ok bytes ∧ read bytes = .ok m
  /-- The name of a map is found again. -/
  fingerprint_read_write (m : M) (hleast : least ≤ (points m).length)
    (hbody : 4 + Point.width * (points m).length < 2 ^ 32) :
    ∃ bytes name, write m = .ok bytes ∧ fingerprint m = .ok name ∧
      (read bytes >>= fingerprint) = .ok name
  /-- Nothing is read but what is written. -/
  write_of_read (bytes : Bytes) (m : M) (hread : read bytes = .ok m) : write m = .ok bytes
  /-- What is not read is refused as a snapshot. -/
  refuses_read (bytes : Bytes) (hbody : bytes.length - digestWidth < 2 ^ 32) :
    Refuses (read bytes) fun refusal => ∃ fault, refusal = .snapshot fault
  /-- Read is what has the form of a snapshot. -/
  reads_iff (bytes : Bytes) : (∃ m, read bytes = .ok m) ↔ HasForm K kind least bytes

/-- A reader is exact when it reads the points of a snapshot and refuses too few. -/
theorem Exact.of_unpack {M : Type} {kind : MapKind} {least : Nat} {points : M → List (Point K)}
    (ofPoints : List (Point K) → M) (hpoints : ∀ l, points (ofPoints l) = l)
    (hofPoints : ∀ m, ofPoints (points m) = m) {read : Bytes → Except Error M}
    (hread : ∀ bytes, read bytes = unpack kind bytes >>= fun l =>
      if least ≤ l.length then .ok (ofPoints l) else .error (.snapshot .empty)) :
    Exact kind least points (fun m => pack kind (points m))
      (fun m => (pack kind (points m)).map fingerprint) read := by
  have hreads : ∀ {bytes m}, read bytes = .ok m ↔
      pack kind (points m) = .ok bytes ∧ least ≤ (points m).length := by
    intro bytes m
    rw [hread, bind_eq_ok_iff]
    constructor
    · rintro ⟨l, hl, hm⟩
      split at hm
      · obtain rfl := Except.ok.inj hm
        rw [hpoints]
        exact ⟨unpack_eq_ok_iff.1 hl, ‹_›⟩
      · cases hm
    · rintro ⟨hpack, hleast⟩
      exact ⟨points m, unpack_eq_ok_iff.2 hpack, by rw [if_pos hleast, hofPoints]⟩
  refine ⟨fun m hleast hbody => ?_, fun m hleast hbody => ?_, fun bytes m hm => (hreads.1 hm).1,
    fun bytes hbody => ?_, fun bytes => ?_⟩
  · obtain ⟨bytes, hpack⟩ := exists_pack kind hbody
    exact ⟨bytes, hpack, hreads.2 ⟨hpack, hleast⟩⟩
  · obtain ⟨bytes, hpack⟩ := exists_pack kind hbody
    have hname : (pack kind (points m)).map fingerprint = .ok (fingerprint bytes) := by
      rw [hpack, map_ok]
    exact ⟨bytes, _, hpack, hname, by rw [hreads.2 ⟨hpack, hleast⟩, ok_bind, hname]⟩
  · rw [hread]
    refine (refuses_unpack kind hbody).bind fun l => ?_
    split
    · exact .ok
    · exact .error ⟨_, rfl⟩
  · rw [hasForm_iff]
    constructor
    · rintro ⟨m, hm⟩
      obtain ⟨hpack, hleast⟩ := hreads.1 hm
      exact ⟨points m, hleast, hpack⟩
    · rintro ⟨l, hleast, hpack⟩
      refine ⟨ofPoints l, hreads.2 ?_⟩
      rw [hpoints]
      exact ⟨hpack, hleast⟩

end Snapshot

/-! ### The two kinds of map -/

section Maps

variable [LawfulEncoding K]

theorem JointCommitment.exact_snapshots :
    Snapshot.Exact .joint 1 (points : JointCommitment K → List (Point K)) toBytes fingerprint
      ofBytes? := by
  refine .of_unpack mk (fun _ => rfl) (fun _ => rfl) fun bytes => ?_
  rw [ofBytes?]
  congr 1
  funext l
  cases l with
  | nil => rfl
  | cons p l => simp

theorem ShareMap.exact_snapshots :
    Snapshot.Exact .shares 0 (shares : ShareMap K → List (Point K)) toBytes fingerprint
      ofBytes? := by
  refine .of_unpack mk (fun _ => rfl) (fun _ => rfl) fun bytes => ?_
  rw [ofBytes?]
  congr 1

open Snapshot in
/-- What both readers accept is a body whose digests as one kind of map and as the other are the
same. -/
theorem collide_of_reads {bytes : Bytes} {q : JointCommitment K} {w : ShareMap K}
    (hq : JointCommitment.ofBytes? bytes = .ok q) (hw : ShareMap.ofBytes? bytes = .ok w) :
    Transcript.Collide id Transcript.snapshotTag
      (items .joint (bytes.take (bytes.length - digestWidth)) : List (Item K))
      (items .shares (bytes.take (bytes.length - digestWidth))) := by
  have hjoint : pack .joint q.points = .ok bytes :=
    JointCommitment.exact_snapshots.write_of_read bytes q hq
  have hshares : pack .shares w.shares = .ok bytes :=
    ShareMap.exact_snapshots.write_of_read bytes w hw
  have hcut := take_of_pack hjoint
  have hbodies : packPoints w.shares = packPoints q.points := (take_of_pack hshares).symm.trans hcut
  have hlt : (packPoints q.points).length < 2 ^ 32 := by
    rw [length_packPoints, Nat.mul_comm]
    exact lt_of_pack_eq_ok hjoint
  obtain ⟨_, hsnapshot, hbytes⟩ := pack_eq_ok_iff.1 hjoint
  obtain ⟨_, hsnapshot', hbytes'⟩ := pack_eq_ok_iff.1 hshares
  rw [hbodies] at hsnapshot' hbytes'
  obtain ⟨digest, hdigest, rfl⟩ := snapshotDigest_eq_ok_iff.1 hsnapshot
  obtain ⟨digest', hdigest', rfl⟩ := snapshotDigest_eq_ok_iff.1 hsnapshot'
  obtain rfl := Digest.bytes_injective (List.append_cancel_left (hbytes.symm.trans hbytes'))
  obtain ⟨covered, hcovered, hhash⟩ := Transcript.tagged_eq_ok_iff.1 hdigest
  obtain ⟨covered', hcovered', hhash'⟩ := Transcript.tagged_eq_ok_iff.1 hdigest'
  rw [hcut]
  refine Transcript.collide_of_ne (haveShapes_items _ hlt) (haveShapes_items _ hlt) ?_ hcovered
    hcovered' (hhash.trans hhash'.symm)
  intro hitems
  simp only [items, List.cons.injEq, Item.bytes.injEq] at hitems
  exact absurd hitems.1 (by decide +kernel)

/-- Snapshots of both kinds of map are read and written exactly, and what is read as both kinds
shows a collision of the hash on the two kinds. -/
theorem snapshots_exact :
    Snapshot.Exact .joint 1 (JointCommitment.points : JointCommitment K → List (Point K))
      JointCommitment.toBytes JointCommitment.fingerprint JointCommitment.ofBytes? ∧
    Snapshot.Exact .shares 0 (ShareMap.shares : ShareMap K → List (Point K))
      ShareMap.toBytes ShareMap.fingerprint ShareMap.ofBytes? ∧
    ∀ (bytes : Bytes) (q : JointCommitment K) (w : ShareMap K),
      JointCommitment.ofBytes? bytes = .ok q → ShareMap.ofBytes? bytes = .ok w →
      Transcript.Collide id Transcript.snapshotTag
        (Snapshot.items .joint (bytes.take (bytes.length - Snapshot.digestWidth)) : List (Item K))
        (Snapshot.items .shares (bytes.take (bytes.length - Snapshot.digestWidth))) :=
  ⟨JointCommitment.exact_snapshots, ShareMap.exact_snapshots,
    fun _ _ _ hq hw => collide_of_reads hq hw⟩

end Maps

/-- With a constant hash the snapshot of a joint commitment with one point is read as a map of
public shares too, where the digests of the two kinds collide. -/
theorem exists_collide_of_snapshots : ∃ (bytes : Bytes) (q : JointCommitment UnhashedKey)
    (w : ShareMap UnhashedKey), JointCommitment.ofBytes? bytes = .ok q ∧
    ShareMap.ofBytes? bytes = .ok w ∧ Snapshot.HasForm UnhashedKey .joint 1 bytes ∧
    Transcript.Collide id Transcript.snapshotTag
      (Snapshot.items .joint (bytes.take (bytes.length - Snapshot.digestWidth)) :
        List (Item UnhashedKey))
      (Snapshot.items .shares (bytes.take (bytes.length - Snapshot.digestWidth))) := by
  obtain ⟨hjoint, hshares, hboth⟩ := snapshots_exact (K := UnhashedKey)
  obtain ⟨bytes, hwrite, hq⟩ := hjoint.read_write ⟨[.ofScalar 5]⟩ (by decide) (by decide)
  obtain ⟨bytes', hwrite', hw⟩ := hshares.read_write ⟨[.ofScalar 5]⟩ (by decide) (by decide)
  have hsame : (⟨[.ofScalar 5]⟩ : JointCommitment UnhashedKey).toBytes.toOption =
      (⟨[.ofScalar 5]⟩ : ShareMap UnhashedKey).toBytes.toOption := by decide +kernel
  rw [hwrite, hwrite'] at hsame
  obtain rfl := Option.some.inj hsame
  exact ⟨_, _, _, hq, hw, (hjoint.reads_iff _).1 ⟨_, hq⟩, hboth _ _ _ hq hw⟩

end ThresholdKeygen
