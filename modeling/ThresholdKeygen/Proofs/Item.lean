import ThresholdKeygen.Proofs.Bytes
import ThresholdKeygen.Proofs.KnowledgeProof

/-!
# Items of known shapes

A hash covers its items one after the other. Where the shapes of the items are known, their
encodings can be told apart in the concatenation. Main statement: `encodeAll_append_inj`, two
sequences of items of the same shapes are equal as soon as byte strings that begin with their
encodings are; nothing that follows an encoding can be taken for a part of it.
-/

namespace ThresholdKeygen

theorem Scalar.toBytes_injective : Function.Injective Scalar.toBytes := by
  intro a b h
  have hwide : groupOrder < 256 ^ Scalar.width := by decide
  exact Scalar.ext (Bytes.ofNat_inj (a.val_lt.trans hwide) (b.val_lt.trans hwide) h)

namespace Item

variable {K : Type}

/-! ### Shapes -/

/-- What is known of an item before it is read. -/
inductive Shape where
  | bytes
  | int
  | scalar
  | point
  | list (of : Shape)
  | tuple (of : List Shape)

mutual

/-- That an item has a shape, and that its lengths and numbers fit their fields. -/
inductive HasShape : Shape → Item K → Prop where
  | bytes {content : Bytes} (hlength : content.length < 2 ^ 32) : HasShape .bytes (.bytes content)
  | int {n : Int} (hnonneg : 0 ≤ n) (hlt : n < 2 ^ 256) : HasShape .int (.int n)
  | scalar (s : Scalar) : HasShape .scalar (.scalar s)
  | point (p : Point K) : HasShape .point (.point p)
  | list {shape : Shape} {items : List (Item K)} (hlength : items.length < 2 ^ 32)
      (hitems : HaveShapes (List.replicate items.length shape) items) :
      HasShape (.list shape) (.list items)
  | tuple {shapes : List Shape} {items : List (Item K)} (hlength : items.length < 2 ^ 32)
      (hitems : HaveShapes shapes items) : HasShape (.tuple shapes) (.list items)

/-- That the items of a sequence have the shapes of another, each at its place. -/
inductive HaveShapes : List Shape → List (Item K) → Prop where
  | nil : HaveShapes [] []
  | cons {shape : Shape} {shapes : List Shape} {item : Item K} {items : List (Item K)}
      (hitem : HasShape shape item) (hitems : HaveShapes shapes items) :
      HaveShapes (shape :: shapes) (item :: items)

end

/-! ### Reading what is in front -/

variable [Suite K]

/-- What stands behind a length is read off it. -/
theorem length_append_inj {n m : Nat} {body body' : Bytes} (hn : n < 2 ^ 32) (hm : m < 2 ^ 32)
    (h : Bytes.ofNat 4 n ++ body = Bytes.ofNat 4 m ++ body') : n = m ∧ body = body' := by
  obtain ⟨hlength, hbody⟩ := List.append_inj h (by simp)
  exact ⟨Bytes.ofNat_inj hn hm hlength, hbody⟩

theorem encode_bytes_eq {content bytes : Bytes} (hlength : content.length < 2 ^ 32)
    (h : (.bytes content : Item K).encode = .ok bytes) :
    bytes = Bytes.ofNat 4 content.length ++ content := by
  rw [encode, encodeLength_eq hlength] at h
  exact (Except.ok.inj h).symm

theorem encode_int_eq {n : Int} {bytes : Bytes} (hnonneg : 0 ≤ n) (hlt : n < 2 ^ 256)
    (h : (.int n : Item K).encode = .ok bytes) : bytes = Bytes.ofNat Scalar.width n.toNat := by
  rw [encode, encodeInt_eq hnonneg hlt] at h
  exact (Except.ok.inj h).symm

/-- Lists of the same length stand in front when their encodings do. -/
theorem encode_list_append_inj {items items' : List (Item K)} {bytes bytes' rest rest' : Bytes}
    (hlength : items.length < 2 ^ 32) (hlength' : items'.length < 2 ^ 32)
    (hcode : (.list items : Item K).encode = .ok bytes)
    (hcode' : (.list items' : Item K).encode = .ok bytes') (h : bytes ++ rest = bytes' ++ rest') :
    items.length = items'.length ∧ ∃ parts parts', encodeAll items = .ok parts ∧
      encodeAll items' = .ok parts' ∧ parts ++ rest = parts' ++ rest' := by
  rw [encode] at hcode hcode'
  obtain ⟨parts, hparts, hbytes⟩ := bind_eq_ok_iff.1 hcode
  obtain ⟨parts', hparts', hbytes'⟩ := bind_eq_ok_iff.1 hcode'
  rw [encodeLength_eq hlength] at hbytes
  rw [encodeLength_eq hlength'] at hbytes'
  obtain rfl := Except.ok.inj hbytes
  obtain rfl := Except.ok.inj hbytes'
  rw [List.append_assoc, List.append_assoc] at h
  obtain ⟨hsame, hbody⟩ := length_append_inj hlength hlength' h
  exact ⟨hsame, parts, parts', hparts, hparts', hbody⟩

mutual

/-- An item of known shape is read off any byte string that begins with its encoding. -/
theorem encode_append_inj [LawfulEncoding K] : ∀ (item : Item K) {shape : Shape}
    {item' : Item K} {bytes bytes' rest rest' : Bytes}, HasShape shape item → HasShape shape item' →
    item.encode = .ok bytes → item'.encode = .ok bytes' → bytes ++ rest = bytes' ++ rest' →
    item = item' ∧ rest = rest'
  | .bytes content, _, _, _, _, _, _, .bytes hlength, .bytes hlength', hcode, hcode', h => by
    rw [encode_bytes_eq hlength hcode, encode_bytes_eq hlength' hcode', List.append_assoc,
      List.append_assoc] at h
    obtain ⟨hsame, hbody⟩ := length_append_inj hlength hlength' h
    obtain ⟨rfl, hrest⟩ := List.append_inj hbody hsame
    exact ⟨rfl, hrest⟩
  | .int n, _, _, _, _, _, _, .int hnonneg hlt, .int hnonneg' hlt', hcode, hcode', h => by
    rw [encode_int_eq hnonneg hlt hcode, encode_int_eq hnonneg' hlt' hcode'] at h
    obtain ⟨hdigits, hrest⟩ := List.append_inj h (by simp)
    have hfits : n.toNat < 256 ^ Scalar.width := by rw [Scalar.width]; omega
    have hsame := Bytes.ofNat_inj hfits (by rw [Scalar.width]; omega) hdigits
    exact ⟨congrArg _ (by omega), hrest⟩
  | .scalar s, _, _, _, _, _, _, .scalar _, .scalar s', hcode, hcode', h => by
    rw [encode] at hcode hcode'
    obtain rfl := Except.ok.inj hcode
    obtain rfl := Except.ok.inj hcode'
    obtain ⟨hcode, hrest⟩ := List.append_inj h (by simp)
    exact ⟨congrArg _ (Scalar.toBytes_injective hcode), hrest⟩
  | .point p, _, _, _, _, _, _, .point _, .point p', hcode, hcode', h => by
    rw [encode] at hcode hcode'
    obtain rfl := Except.ok.inj hcode
    obtain rfl := Except.ok.inj hcode'
    obtain ⟨hcode, hrest⟩ := List.append_inj h (by simp)
    exact ⟨congrArg _ (Point.toBytes_injective hcode), hrest⟩
  | .list items, _, _, _, _, _, _, .list hlength hitems, .list hlength' hitems', hcode, hcode',
      h => by
    obtain ⟨hsame, parts, parts', hparts, hparts', hbody⟩ :=
      encode_list_append_inj hlength hlength' hcode hcode' h
    obtain ⟨rfl, hrest⟩ := encodeAll_append_inj items hitems (hsame ▸ hitems') hparts hparts' hbody
    exact ⟨rfl, hrest⟩
  | .list items, _, _, _, _, _, _, .tuple hlength hitems, .tuple hlength' hitems', hcode, hcode',
      h => by
    obtain ⟨-, parts, parts', hparts, hparts', hbody⟩ :=
      encode_list_append_inj hlength hlength' hcode hcode' h
    obtain ⟨rfl, hrest⟩ := encodeAll_append_inj items hitems hitems' hparts hparts' hbody
    exact ⟨rfl, hrest⟩

/-- Items of known shapes are read off any byte string that begins with their encodings. -/
theorem encodeAll_append_inj [LawfulEncoding K] : ∀ (items : List (Item K))
    {shapes : List Shape} {items' : List (Item K)} {bytes bytes' rest rest' : Bytes},
    HaveShapes shapes items → HaveShapes shapes items' → encodeAll items = .ok bytes →
    encodeAll items' = .ok bytes' → bytes ++ rest = bytes' ++ rest' → items = items' ∧ rest = rest'
  | [], _, _, _, _, _, _, .nil, .nil, hcode, hcode', h => by
    rw [encodeAll] at hcode hcode'
    obtain rfl := Except.ok.inj hcode
    obtain rfl := Except.ok.inj hcode'
    exact ⟨rfl, h⟩
  | item :: items, _, _, _, _, _, _, .cons hitem hitems, .cons hitem' hitems', hcode, hcode',
      h => by
    rw [encodeAll] at hcode hcode'
    obtain ⟨first, hfirst, hrest⟩ := bind_eq_ok_iff.1 hcode
    obtain ⟨others, hothers, hbytes⟩ := bind_eq_ok_iff.1 hrest
    obtain ⟨first', hfirst', hrest'⟩ := bind_eq_ok_iff.1 hcode'
    obtain ⟨others', hothers', hbytes'⟩ := bind_eq_ok_iff.1 hrest'
    obtain rfl := Except.ok.inj hbytes
    obtain rfl := Except.ok.inj hbytes'
    rw [List.append_assoc, List.append_assoc] at h
    obtain ⟨rfl, hbehind⟩ := encode_append_inj item hitem hitem' hfirst hfirst' h
    obtain ⟨rfl, hend⟩ := encodeAll_append_inj items hitems hitems' hothers hothers' hbehind
    exact ⟨rfl, hend⟩

end

/-- Items of the same shapes with the same encoding are the same. -/
theorem encodeAll_inj [LawfulEncoding K] {shapes : List Shape} {items items' : List (Item K)}
    {bytes : Bytes} (hitems : HaveShapes shapes items) (hitems' : HaveShapes shapes items')
    (hcode : encodeAll items = .ok bytes) (hcode' : encodeAll items' = .ok bytes) :
    items = items' :=
  (encodeAll_append_inj items hitems hitems' hcode hcode' (Eq.refl (bytes ++ []))).1

end Item

end ThresholdKeygen
