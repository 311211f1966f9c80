import ThresholdKeygen.Proofs.Transcript

/-!
# Inputs of the protocol hashes

An item of a shape has an encoding exactly when its lengths and numbers fit their fields. Main
statement: `inputs_unambiguous`, the encodings of items of one shape are different and none begins
with another, so that what a hash covers determines the items that it was given; in particular each
of the three protocol hashes covers different byte strings for different arguments.
-/

namespace ThresholdKeygen

variable {K : Type}

/-! ### Items of a shape -/

namespace Item

mutual

/-- That an item is of the kind that a shape says, whatever its lengths and numbers are. -/
inductive Matches : Shape → Item K → Prop where
  | bytes (content : Bytes) : Matches .bytes (.bytes content)
  | int (n : Int) : Matches .int (.int n)
  | scalar (s : Scalar) : Matches .scalar (.scalar s)
  | point (p : Point K) : Matches .point (.point p)
  | list {shape : Shape} {items : List (Item K)}
      (hitems : AllMatch (List.replicate items.length shape) items) :
      Matches (.list shape) (.list items)
  | tuple {shapes : List Shape} {items : List (Item K)} (hitems : AllMatch shapes items) :
      Matches (.tuple shapes) (.list items)

/-- That the items of a sequence are of the kinds that the shapes of another say. -/
inductive AllMatch : List Shape → List (Item K) → Prop where
  | nil : AllMatch [] []
  | cons {shape : Shape} {shapes : List Shape} {item : Item K} {items : List (Item K)}
      (hitem : Matches shape item) (hitems : AllMatch shapes items) :
      AllMatch (shape :: shapes) (item :: items)

end

mutual

/-- An item of a shape is of the kind that the shape says. -/
theorem HasShape.matches : ∀ {item : Item K} {shape : Shape}, HasShape shape item →
    Matches shape item
  | _, _, .bytes _ => .bytes _
  | _, _, .int _ _ => .int _
  | _, _, .scalar s => .scalar s
  | _, _, .point p => .point p
  | _, _, .list _ hitems => .list hitems.allMatch
  | _, _, .tuple _ hitems => .tuple hitems.allMatch

/-- Items of some shapes are of the kinds that the shapes say. -/
theorem HaveShapes.allMatch : ∀ {items : List (Item K)} {shapes : List Shape},
    HaveShapes shapes items → AllMatch shapes items
  | _, _, .nil => .nil
  | _, _, .cons hitem hitems => .cons hitem.matches hitems.allMatch

end

/-! ### Items with an encoding -/

variable [Suite K]

theorem lt_of_encodeLength_eq_ok {length : Nat} {bytes : Bytes}
    (h : encodeLength length = .ok bytes) : length < 2 ^ 32 := by
  rw [encodeLength] at h
  split at h
  · assumption
  · cases h

theorem bounds_of_encodeInt_eq_ok {n : Int} {bytes : Bytes} (h : encodeInt n = .ok bytes) :
    0 ≤ n ∧ n < 2 ^ 256 := by
  rw [encodeInt] at h
  split at h
  · cases h
  · split at h
    · rename_i hnonneg hlt
      exact ⟨not_lt.1 hnonneg, hlt⟩
    · cases h

mutual

/-- The lengths and numbers of an item that has an encoding fit their fields. -/
theorem hasShape_of_encode : ∀ (item : Item K) {shape : Shape} {bytes : Bytes},
    Matches shape item → item.encode = .ok bytes → HasShape shape item
  | .bytes content, _, _, .bytes _, h => by
    rw [encode] at h
    obtain ⟨length, hlength, -⟩ := bind_eq_ok_iff.1 h
    exact .bytes (lt_of_encodeLength_eq_ok hlength)
  | .int n, _, _, .int _, h => by
    rw [encode] at h
    obtain ⟨hnonneg, hlt⟩ := bounds_of_encodeInt_eq_ok h
    exact .int hnonneg hlt
  | .scalar s, _, _, .scalar _, _ => .scalar s
  | .point p, _, _, .point _, _ => .point p
  | .list items, _, _, .list hitems, h => by
    rw [encode] at h
    obtain ⟨parts, hparts, hrest⟩ := bind_eq_ok_iff.1 h
    obtain ⟨length, hlength, -⟩ := bind_eq_ok_iff.1 hrest
    exact .list (lt_of_encodeLength_eq_ok hlength) (haveShapes_of_encodeAll items hitems hparts)
  | .list items, _, _, .tuple hitems, h => by
    rw [encode] at h
    obtain ⟨parts, hparts, hrest⟩ := bind_eq_ok_iff.1 h
    obtain ⟨length, hlength, -⟩ := bind_eq_ok_iff.1 hrest
    exact .tuple (lt_of_encodeLength_eq_ok hlength) (haveShapes_of_encodeAll items hitems hparts)

/-- The lengths and numbers of items that have encodings fit their fields. -/
theorem haveShapes_of_encodeAll : ∀ (items : List (Item K)) {shapes : List Shape} {bytes : Bytes},
    AllMatch shapes items → encodeAll items = .ok bytes → HaveShapes shapes items
  | [], _, _, .nil, _ => .nil
  | item :: items, _, _, .cons hitem hitems, h => by
    rw [encodeAll] at h
    obtain ⟨first, hfirst, hrest⟩ := bind_eq_ok_iff.1 h
    obtain ⟨others, hothers, -⟩ := bind_eq_ok_iff.1 hrest
    exact .cons (hasShape_of_encode item hitem hfirst)
      (haveShapes_of_encodeAll items hitems hothers)

end

theorem encodable_list {items : List (Item K)} (hlength : items.length < 2 ^ 32)
    (hitems : ∀ item ∈ items, item.Encodable) : Encodable (.list items) := by
  obtain ⟨parts, hparts⟩ := exists_encodeAll hitems
  rw [Encodable, encode, hparts, ok_bind, encodeLength_eq hlength]
  exact ⟨_, rfl⟩

mutual

/-- An item of a shape whose lengths and numbers fit their fields has an encoding. -/
theorem encodable_of_hasShape : ∀ (item : Item K) {shape : Shape},
    HasShape shape item → item.Encodable
  | .bytes _, _, .bytes hlength => encodable_bytes hlength
  | .int _, _, .int hnonneg hlt => encodable_int hnonneg hlt
  | .scalar s, _, .scalar _ => ⟨s.toBytes, by rw [encode]; rfl⟩
  | .point p, _, .point _ => encodable_point p
  | .list items, _, .list hlength hitems | .list items, _, .tuple hlength hitems =>
    encodable_list hlength (encodable_of_haveShapes items hitems)

/-- Items of known shapes have encodings, one by one. -/
theorem encodable_of_haveShapes : ∀ (items : List (Item K)) {shapes : List Shape},
    HaveShapes shapes items → ∀ item ∈ items, item.Encodable
  | [], _, .nil => by simp
  | item :: items, _, .cons hitem hitems =>
    List.forall_mem_cons.2 ⟨encodable_of_hasShape item hitem, encodable_of_haveShapes items hitems⟩

end

/-- The items of a shape are those of its kind that have an encoding. -/
theorem hasShape_iff {shape : Shape} {item : Item K} :
    HasShape shape item ↔ Matches shape item ∧ item.Encodable := by
  constructor
  · intro h
    exact ⟨h.matches, encodable_of_hasShape item h⟩
  · rintro ⟨h, bytes, hbytes⟩
    exact hasShape_of_encode item h hbytes

/-! ### Different items -/

variable [LawfulEncoding K]

/-- No encoding of an item of a kind begins with that of another one. -/
theorem eq_of_encode_isPrefix {shape : Shape} {item item' : Item K} {bytes bytes' : Bytes}
    (h : Matches shape item) (h' : Matches shape item') (hcode : item.encode = .ok bytes)
    (hcode' : item'.encode = .ok bytes') (hbegins : bytes <+: bytes') : item = item' := by
  obtain ⟨rest, hrest⟩ := hbegins
  exact (encode_append_inj item (hasShape_of_encode item h hcode)
    (hasShape_of_encode item' h' hcode') hcode hcode'
    (hrest.trans (List.append_nil bytes').symm)).1

/-- Items of the same kinds have different encodings. -/
theorem eq_of_encodeAll_eq {shapes : List Shape} {items items' : List (Item K)} {bytes : Bytes}
    (h : AllMatch shapes items) (h' : AllMatch shapes items') (hcode : encodeAll items = .ok bytes)
    (hcode' : encodeAll items' = .ok bytes) : items = items' :=
  encodeAll_inj (haveShapes_of_encodeAll items h hcode) (haveShapes_of_encodeAll items' h' hcode')
    hcode hcode'

end Item

/-! ### The protocol hashes -/

variable [Suite K]

namespace Transcript

/-- What the hash of a challenge covers behind its tag. -/
def challengeContent (context : Bytes) (position : Int) (announcement publicKey : Point K) :
    Except Error Bytes :=
  Item.encodeAll [.bytes context, .int position, .point announcement, .point publicKey]

variable (K) in
/-- What the hash of a run context covers behind its tag. -/
def contextContent (label : Bytes) (count dealers threshold : Int) : Except Error Bytes :=
  Item.encodeAll [(.bytes label : Item K), .int count, .int dealers, .int threshold]

variable (K) in
/-- What the digest of a snapshot covers behind its tag. -/
def snapshotContent (kind body : Bytes) : Except Error Bytes :=
  Item.encodeAll [(.bytes kind : Item K), .bytes body]

theorem tagged_eq (tag : Bytes) (items : List (Item K)) :
    tagged tag items = (Item.encodeAll items).map (taggedDigest K tag) := by
  rw [tagged]
  cases Item.encodeAll items <;> rfl

theorem challenge_eq (context : Bytes) (position : Int) (announcement publicKey : Point K) :
    challenge (.bytes context) position announcement publicKey =
      (challengeContent context position announcement publicKey).map fun content =>
        Scalar.ofBytesReduced (taggedDigest K proofTag content).bytes := by
  rw [challenge, tagged_eq, ← challengeContent]
  cases challengeContent context position announcement publicKey <;> rfl

theorem runContext_eq (label : Bytes) (count dealers threshold : Int) :
    runContext (.bytes label : Item K) count dealers threshold =
      (contextContent K label count dealers threshold).map fun content =>
        (taggedDigest K contextTag content).bytes := by
  rw [runContext, tagged_eq, ← contextContent]
  cases contextContent K label count dealers threshold <;> rfl

theorem snapshotDigest_eq (kind body : Bytes) :
    snapshotDigest K kind body = (snapshotContent K kind body).map fun content =>
      (taggedDigest K snapshotTag content).bytes := by
  rw [snapshotDigest, tagged_eq, ← snapshotContent]
  cases snapshotContent K kind body <;> rfl

/-- The digest of a snapshot covers both byte strings behind their lengths. -/
theorem snapshotContent_eq {kind body : Bytes} (hkind : kind.length < 2 ^ 32)
    (hbody : body.length < 2 ^ 32) : snapshotContent K kind body =
      .ok (Bytes.ofNat 4 kind.length ++ kind ++ (Bytes.ofNat 4 body.length ++ body)) := by
  simp only [snapshotContent, Item.encodeAll, Item.encode, Item.encodeLength_eq hkind,
    Item.encodeLength_eq hbody]
  simp

variable [LawfulEncoding K]

/-- The content of a challenge determines all that the challenge is for. -/
theorem challengeContent_inj {context context' content : Bytes} {position position' : Int}
    {announcement announcement' publicKey publicKey' : Point K}
    (h : challengeContent context position announcement publicKey = .ok content)
    (h' : challengeContent context' position' announcement' publicKey' = .ok content) :
    context = context' ∧ position = position' ∧ announcement = announcement' ∧
      publicKey = publicKey' := by
  have hkinds : ∀ (context : Bytes) (position : Int) (announcement publicKey : Point K),
      Item.AllMatch [.bytes, .int, .point, .point]
        [.bytes context, .int position, .point announcement, .point publicKey] :=
    fun _ _ _ _ => .cons (.bytes _) (.cons (.int _) (.cons (.point _) (.cons (.point _) .nil)))
  have hsame := Item.eq_of_encodeAll_eq (hkinds _ _ _ _) (hkinds _ _ _ _) h h'
  simpa only [List.cons.injEq, Item.bytes.injEq, Item.int.injEq, Item.point.injEq, and_true]
    using hsame

/-- The content of a run context determines the label and the parameters of the run. -/
theorem contextContent_inj {label label' content : Bytes}
    {count count' dealers dealers' threshold threshold' : Int}
    (h : contextContent K label count dealers threshold = .ok content)
    (h' : contextContent K label' count' dealers' threshold' = .ok content) :
    label = label' ∧ count = count' ∧ dealers = dealers' ∧ threshold = threshold' := by
  have hkinds : ∀ (label : Bytes) (count dealers threshold : Int),
      Item.AllMatch [.bytes, .int, .int, .int]
        [(.bytes label : Item K), .int count, .int dealers, .int threshold] :=
    fun _ _ _ _ => .cons (.bytes _) (.cons (.int _) (.cons (.int _) (.cons (.int _) .nil)))
  have hsame := Item.eq_of_encodeAll_eq (hkinds _ _ _ _) (hkinds _ _ _ _) h h'
  simpa only [List.cons.injEq, Item.bytes.injEq, Item.int.injEq, and_true] using hsame

/-- The content of the digest of a snapshot determines the kind and the body. -/
theorem snapshotContent_inj {kind kind' body body' content : Bytes}
    (h : snapshotContent K kind body = .ok content)
    (h' : snapshotContent K kind' body' = .ok content) : kind = kind' ∧ body = body' := by
  have hkinds : ∀ kind body : Bytes,
      Item.AllMatch [.bytes, .bytes] [(.bytes kind : Item K), .bytes body] :=
    fun _ _ => .cons (.bytes _) (.cons (.bytes _) .nil)
  have hsame := Item.eq_of_encodeAll_eq (hkinds _ _) (hkinds _ _) h h'
  simpa only [List.cons.injEq, Item.bytes.injEq, and_true] using hsame

end Transcript

/-! ### All inputs -/

variable (K) in
/-- That what a hash covers can be told apart: items of one shape by their encodings, sequences of
items by what is hashed behind the tag, and so the arguments of the three protocol hashes. -/
structure InputsUnambiguous : Prop where
  hasShape_iff (shape : Item.Shape) (item : Item K) :
    Item.HasShape shape item ↔ Item.Matches shape item ∧ item.Encodable
  encode_injective (shape : Item.Shape) (item item' : Item K) (h : Item.Matches shape item)
    (h' : Item.Matches shape item') (bytes : Bytes) (hcode : item.encode = .ok bytes)
    (hcode' : item'.encode = .ok bytes) : item = item'
  encode_prefix_free (shape : Item.Shape) (item item' : Item K) (h : Item.Matches shape item)
    (h' : Item.Matches shape item') (bytes bytes' : Bytes) (hcode : item.encode = .ok bytes)
    (hcode' : item'.encode = .ok bytes') (hbegins : bytes <+: bytes') : bytes = bytes'
  tagged_eq (tag : Bytes) (items : List (Item K)) : Transcript.tagged tag items =
    (Item.encodeAll items).map (Transcript.taggedDigest K tag)
  tagged_injective (shapes : List Item.Shape) (items items' : List (Item K))
    (h : Item.AllMatch shapes items) (h' : Item.AllMatch shapes items') (content : Bytes)
    (hcontent : Item.encodeAll items = .ok content)
    (hcontent' : Item.encodeAll items' = .ok content) : items = items'
  challenge_eq (context : Bytes) (position : Int) (announcement publicKey : Point K) :
    Transcript.challenge (.bytes context) position announcement publicKey =
      (Transcript.challengeContent context position announcement publicKey).map fun content =>
        Scalar.ofBytesReduced (Transcript.taggedDigest K Transcript.proofTag content).bytes
  challenge_injective (context context' : Bytes) (position position' : Int)
    (announcement announcement' publicKey publicKey' : Point K) (content : Bytes)
    (h : Transcript.challengeContent context position announcement publicKey = .ok content)
    (h' : Transcript.challengeContent context' position' announcement' publicKey' = .ok content) :
    context = context' ∧ position = position' ∧ announcement = announcement' ∧
      publicKey = publicKey'
  runContext_eq (label : Bytes) (count dealers threshold : Int) :
    Transcript.runContext (.bytes label : Item K) count dealers threshold =
      (Transcript.contextContent K label count dealers threshold).map fun content =>
        (Transcript.taggedDigest K Transcript.contextTag content).bytes
  runContext_injective (label label' : Bytes)
    (count count' dealers dealers' threshold threshold' : Int) (content : Bytes)
    (h : Transcript.contextContent K label count dealers threshold = .ok content)
    (h' : Transcript.contextContent K label' count' dealers' threshold' = .ok content) :
    label = label' ∧ count = count' ∧ dealers = dealers' ∧ threshold = threshold'
  snapshot_eq (kind body : Bytes) : Transcript.snapshotDigest K kind body =
    (Transcript.snapshotContent K kind body).map fun content =>
      (Transcript.taggedDigest K Transcript.snapshotTag content).bytes
  snapshot_encoded (kind body : Bytes) (hkind : kind.length < 2 ^ 32)
    (hbody : body.length < 2 ^ 32) : Transcript.snapshotContent K kind body =
      .ok (Bytes.ofNat 4 kind.length ++ kind ++ (Bytes.ofNat 4 body.length ++ body))
  snapshot_injective (kind kind' body body' content : Bytes)
    (h : Transcript.snapshotContent K kind body = .ok content)
    (h' : Transcript.snapshotContent K kind' body' = .ok content) : kind = kind' ∧ body = body'

/-- The inputs of all hashes can be told apart. -/
theorem inputs_unambiguous [LawfulEncoding K] : InputsUnambiguous K where
  hasShape_iff _ _ := Item.hasShape_iff
  encode_injective _ _ _ h h' _ hcode hcode' :=
    Item.eq_of_encode_isPrefix h h' hcode hcode' List.prefix_rfl
  encode_prefix_free _ _ _ h h' _ _ hcode hcode' hbegins := by
    obtain rfl := Item.eq_of_encode_isPrefix h h' hcode hcode' hbegins
    exact Except.ok.inj (hcode.symm.trans hcode')
  tagged_eq := Transcript.tagged_eq
  tagged_injective _ _ _ h h' _ := Item.eq_of_encodeAll_eq h h'
  challenge_eq := Transcript.challenge_eq
  challenge_injective _ _ _ _ _ _ _ _ _ := Transcript.challengeContent_inj
  runContext_eq := Transcript.runContext_eq
  runContext_injective _ _ _ _ _ _ _ _ _ := Transcript.contextContent_inj
  snapshot_eq := Transcript.snapshotDigest_eq
  snapshot_encoded _ _ := Transcript.snapshotContent_eq
  snapshot_injective _ _ _ _ _ := Transcript.snapshotContent_inj

/-- Two lists of pairs that differ only in how their bytes are spread over the pairs: neither
encoding begins with the other. -/
theorem exists_inputs_unambiguous : ∃ (item item' : Item ResidueKey) (bytes bytes' : Bytes),
    Item.HasShape (.list (.tuple [.bytes, .bytes])) item ∧
      Item.HasShape (.list (.tuple [.bytes, .bytes])) item' ∧
      item.encode = .ok bytes ∧ item'.encode = .ok bytes' ∧ ¬ bytes <+: bytes' := by
  have hlist : ∀ a b : Bytes, a.length < 2 ^ 32 → b.length < 2 ^ 32 →
      Item.HasShape (K := ResidueKey) (.list (.tuple [.bytes, .bytes]))
        (.list [.list [.bytes a, .bytes b]]) := fun a b ha hb =>
    .list (by simp) (.cons (.tuple (by simp) (.cons (.bytes ha) (.cons (.bytes hb) .nil))) .nil)
  have hfirst := hlist [1] [] (by decide) (by decide)
  have hsecond := hlist [] [1] (by decide) (by decide)
  obtain ⟨hkind, bytes, hcode⟩ := (inputs_unambiguous.hasShape_iff _ _).1 hfirst
  obtain ⟨hkind', bytes', hcode'⟩ := (inputs_unambiguous.hasShape_iff _ _).1 hsecond
  refine ⟨_, _, bytes, bytes', hfirst, hsecond, hcode, hcode', fun hbegins => ?_⟩
  have hsame := inputs_unambiguous.encode_prefix_free _ _ _ hkind hkind' _ _ hcode hcode' hbegins
  have hitems := inputs_unambiguous.encode_injective _ _ _ hkind hkind' _ hcode (hsame ▸ hcode')
  simp at hitems

end ThresholdKeygen
