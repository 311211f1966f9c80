import ThresholdKeygen.BatchCheck
import ThresholdKeygen.Proofs.Draws
import ThresholdKeygen.Proofs.Sharing

/-!
# The batch equation

On a complete table the batch equation compares the weighted sum of the shares with that of the
values which the dealers committed to. Correct shares therefore pass for all weights, so that a
share which fails alone is not correct; a part with several shares may pass by chance.
-/

namespace ThresholdKeygen

theorem Inbox.mem_bySender {inbox : Inbox} {sender : Int} {share : Scalar} :
    (sender, share) ∈ inbox.bySender ↔ inbox.get? sender = some share := by
  rw [bySender, (List.mergeSort_perm _ _).mem_iff, Mapping.get?_eq_some_iff]

/-- The order in which shares have come does not matter. -/
theorem Inbox.bySender_congr {inbox inbox' : Inbox} (h : ∀ i, inbox.get? i = inbox'.get? i) :
    inbox.bySender = inbox'.bySender := by
  have hsorted : ∀ entries : List (Int × Scalar), List.Pairwise (fun a b => a.1 ≤ b.1)
      (entries.mergeSort fun a b => a.1 ≤ b.1) := fun entries =>
    (List.pairwise_mergeSort (by simp; omega) (by simp; omega) entries).imp (by simp)
  have hperm : inbox.bySender.Perm inbox'.bySender :=
    (List.mergeSort_perm _ _).trans
      ((Mapping.entries_perm_of_get?_eq h).trans (List.mergeSort_perm _ _).symm)
  refine hperm.eq_of_pairwise (fun a b ha hb hab hba => ?_) (hsorted _) (hsorted _)
  have hsender : a.1 = b.1 := by omega
  have ha := Inbox.mem_bySender.1 (hperm.mem_iff.1 ha)
  rw [hsender, Inbox.mem_bySender.1 hb] at ha
  exact Prod.ext hsender (Option.some.inj ha).symm

namespace BatchCheck

variable {K : Type} [Suite K] {s : Sharing} {table : CommitmentTable K}
  {shares : List (Int × Scalar)}

/-- That the commitments of the senders of some shares have arrived, and belong to a sharing. -/
def Backed (s : Sharing) (table : CommitmentTable K) (shares : List (Int × Scalar)) : Prop :=
  ∀ share ∈ shares, (1 ≤ share.1 ∧ share.1 ≤ s.dealers) ∧
    table.commitmentOf share.1 = .ok (.ofCoefficients (s.dealt share.1))

theorem backed_of_committedIn (h : s.CommittedIn table)
    (hshares : ∀ share ∈ shares, 1 ≤ share.1 ∧ share.1 ≤ s.dealers) : Backed s table shares :=
  fun share hshare => ⟨hshares share hshare,
    h.commitmentOf_eq (hshares share hshare).1 (hshares share hshare).2⟩

/-- The values that the senders of some shares committed to, each times a weight. -/
def committedSum (s : Sharing) (weights : List Scalar) (shares : List (Int × Scalar)) (x : Int) :
    Scalar :=
  (List.zipWith (fun w share => w * (s.dealt share.1).evaluate x) weights shares).sum

/-- The weighted sum of the coefficients of one degree. -/
def weightedCoefficient (s : Sharing) (weights : List Scalar) (shares : List (Int × Scalar))
    (k : Nat) : Scalar :=
  ((weights.zip shares).map fun (w, share) => w * (s.dealt share.1).getD k 0).sum

variable (hshares : Backed s table shares)

include hshares

theorem evaluate_weightedCoefficients (weights : List Scalar) (x : Int) :
    Coefficients.evaluate ((List.range s.threshold).map (weightedCoefficient s weights shares)) x =
      committedSum s weights shares x := by
  have hvalue : ∀ entry ∈ weights.zip shares,
      Coefficients.evaluate ((List.range s.threshold).map fun k =>
        entry.1 * (s.dealt entry.2.1).getD k 0) x =
          entry.1 * (s.dealt entry.2.1).evaluate x := by
    intro entry hentry
    obtain ⟨⟨h₁, h₂⟩, -⟩ := hshares entry.2 (List.of_mem_zip hentry).2
    rw [Coefficients.evaluate_map_mul, ← s.length_dealt entry.2.1 h₁ h₂,
      Coefficients.map_range_getD]
  unfold weightedCoefficient
  rw [Coefficients.evaluate_map_sum, List.map_congr_left hvalue, committedSum, List.zip,
    List.map_zipWith]

theorem column_eq {k : Nat} (hk : k < s.threshold) : column table (shares.map Prod.fst) k =
    .ok ((shares.map Prod.fst).map fun i => Point.ofScalar ((s.dealt i).getD k 0)) := by
  apply mapM_eq_ok
  intro i hi
  obtain ⟨share, hshare, rfl⟩ := List.mem_map.1 hi
  obtain ⟨⟨h₁, h₂⟩, hcommitment⟩ := hshares share hshare
  have hlength : k < (s.dealt share.1).length := by rwa [s.length_dealt share.1 h₁ h₂]
  have hpoints : k <
      (Commitment.ofCoefficients (s.dealt share.1) : Commitment K).points.length := by
    simpa [Commitment.ofCoefficients, Coefficients.commit] using hlength
  rw [hcommitment, ok_bind, pointAt_natCast hpoints]
  simp [Commitment.ofCoefficients, Coefficients.commit, hlength]

variable [LawfulSuite K]

/-- One term of the right side: a power of the index times the coefficients of its degree. -/
theorem term_eq {weights : List Scalar} (hlength : weights.length = shares.length) {k : Nat}
    (hk : k < s.threshold) (power : Scalar) (hpower : k = 0 → power = 1) :
    (do
      let combined ← Point.lincomb weights (← column table (shares.map Prod.fst) k)
      return if k = 0 then combined else power • combined : Except Error (Point K)) =
      .ok (Point.ofScalar (power * weightedCoefficient s weights shares k)) := by
  have hsum : (List.zipWith (· * ·) weights
      (((shares.map Prod.fst).map fun i => (Point.ofScalar ((s.dealt i).getD k 0) : Point K)).map
        Point.log)).sum = weightedCoefficient s weights shares k := by
    simp only [weightedCoefficient, List.map_map, List.zipWith_map_right, List.zip,
      List.map_zipWith, Function.comp_apply, Point.log_ofScalar]
  rw [column_eq hshares hk, ok_bind, Point.lincomb_eq (by simpa using hlength), hsum,
    ok_bind]
  refine congrArg Except.ok (Point.log_injective ?_)
  split
  · rw [hpower ‹_›, one_mul]
  · rw [Point.log_smul, Point.log_ofScalar, Point.log_ofScalar]

theorem terms_eq {weights : List Scalar} (hlength : weights.length = shares.length) (x : Int) :
    ((powersFrom (x : Scalar) 1 s.threshold).zipIdx.mapM fun (power, k) => do
      let combined ← Point.lincomb weights (← column table (shares.map Prod.fst) k)
      return if k = 0 then combined else power • combined : Except Error (List (Point K))) =
      .ok ((powersFrom (x : Scalar) 1 s.threshold).zipIdx.map fun (power, k) =>
        Point.ofScalar (power * weightedCoefficient s weights shares k)) := by
  apply mapM_eq_ok
  rintro ⟨power, k⟩ hmem
  rw [List.mk_mem_zipIdx_iff_getElem?] at hmem
  have hk : k < s.threshold := by
    rw [← Coefficients.length_powersFrom (x : Scalar) 1 s.threshold]
    exact List.getElem?_eq_some_iff.1 hmem |>.1
  apply term_eq hshares hlength hk power
  rintro rfl
  obtain ⟨t, ht⟩ := Nat.exists_eq_succ_of_ne_zero (Nat.ne_of_gt hk)
  rw [ht, powersFrom] at hmem
  exact (Option.some.inj hmem).symm

/-- The batch equation holds when the weighted sums of the shares and of the committed values
agree. -/
theorem equation_eq {weights : List Scalar} (hlength : weights.length = shares.length) (x : Int) :
    equation weights shares table (powersFrom x 1 s.threshold) =
      .ok (decide ((List.zipWith (fun w share => w * share.2) weights shares).sum =
        committedSum s weights shares x)) := by
  have hright : (((powersFrom (x : Scalar) 1 s.threshold).zipIdx.map fun (power, k) =>
      (Point.ofScalar (power * weightedCoefficient s weights shares k) : Point K)).map
        Point.log).sum = committedSum s weights shares x := by
    have hvalue := Coefficients.sum_zipWith_powersFrom (x : Scalar) 1
      ((List.range s.threshold).map (weightedCoefficient s weights shares))
    rw [evaluate_weightedCoefficients hshares weights, one_mul, List.length_map,
      List.length_range] at hvalue
    rw [← hvalue, List.zipIdx_eq_zip_range', Coefficients.length_powersFrom]
    simp [List.zip, List.map_zipWith, List.zipWith_map_right, List.range_eq_range']
  rw [equation, terms_eq hshares hlength, ok_bind, pure_eq_ok, Scalar.sum_eq]
  refine congrArg Except.ok (Bool.eq_iff_iff.2 ?_)
  rw [beq_iff_eq, decide_eq_true_iff, Point.eq_iff_log_eq, Point.log_ofScalar, Point.log_sum,
    hright]

/-! ### Fresh weights -/

variable {σ : Type} [RandomSource σ] (who : Int)

/-- A share that its sender committed to. -/
def Correct (s : Sharing) (x : Int) (share : Int × Scalar) : Prop :=
  share.2 = (s.dealt share.1).evaluate x

omit [Suite K] [LawfulSuite K] hshares in
theorem sum_eq_committedSum {weights : List Scalar} {x : Int}
    (hcorrect : ∀ share ∈ shares, Correct s x share) :
    (List.zipWith (fun w share => w * share.2) weights shares).sum =
      committedSum s weights shares x := by
  rw [committedSum]
  induction weights generalizing shares with
  | nil => simp
  | cons w weights ih =>
    cases shares with
    | nil => rfl
    | cons share shares =>
      obtain ⟨hshare, hshares⟩ := List.forall_mem_cons.1 hcorrect
      simp only [List.zipWith_cons_cons, List.sum_cons]
      rw [ih hshares, hshare]

omit [Suite K] [LawfulSuite K] hshares in
theorem always_freshWeights (count : Nat) :
    Always (freshWeights who count : StateM σ (List Scalar)) (·.length = count) := by
  rw [freshWeights]
  split
  · rename_i hcount
    exact .pure hcount.symm
  · exact always_drawWeights who _ count

/-- Correct shares pass, whatever the weights. -/
theorem succeeds_holds (x : Int) :
    Succeeds (holds who shares table (powersFrom x 1 s.threshold) : ExceptT Error (StateM σ) Bool)
      fun verdict => (∀ share ∈ shares, Correct s x share) → verdict = true := by
  rw [holds]
  split
  · exact .pure fun _ => rfl
  · refine .bind (.lift ((always_freshWeights who shares.length).mono fun weights hlength => ?_))
    exact .steady (equation_eq hshares hlength x) fun hcorrect =>
      decide_eq_true (sum_eq_committedSum hcorrect)

/-- Halving blames only senders whose share is not correct. -/
theorem succeeds_bisect (x : Int) :
    Succeeds (bisect who table (powersFrom x 1 s.threshold) shares :
        ExceptT Error (StateM σ) (List Int)) fun blamed =>
      ∀ i ∈ blamed, ∃ share ∈ shares, share.1 = i ∧ ¬ Correct s x share := by
  induction hsize : shares.length using Nat.strong_induction_on generalizing shares with
  | _ size ih =>
    subst hsize
    rw [bisect]
    refine .bind ((succeeds_holds hshares who x).mono fun verdict hverdict => ?_)
    cases verdict with
    | true => exact .pure (by simp)
    | false =>
      rw [if_neg (by simp)]
      split
      · -- a part with one share fails because of that share
        refine .pure fun i hi => ?_
        obtain ⟨share, hshare, rfl⟩ := List.mem_map.1 hi
        refine ⟨share, hshare, rfl, fun hcorrect => ?_⟩
        have hall : ∀ other ∈ shares, Correct s x other := by
          intro other hother
          have hone : shares.length ≤ 1 := ‹_›
          obtain ⟨only, rfl⟩ := List.length_eq_one_iff.1
            (Nat.le_antisymm hone (List.length_pos_of_mem hshare))
          rw [List.mem_singleton.1 hother, ← List.mem_singleton.1 hshare]
          exact hcorrect
        exact absurd (hverdict hall) (by simp)
      · have hleft := ih (shares.take (shares.length / 2)).length (by simp; omega)
          (fun share hmem => hshares share (List.mem_of_mem_take hmem)) rfl
        have hright := ih (shares.drop (shares.length / 2)).length (by simp; omega)
          (fun share hmem => hshares share (List.mem_of_mem_drop hmem)) rfl
        refine .bind (hleft.mono fun left hl => .bind (hright.mono fun right hr => .pure ?_))
        intro i hi
        rcases List.mem_append.1 hi with hi | hi
        · obtain ⟨share, hmem, hblame⟩ := hl i hi
          exact ⟨share, List.mem_of_mem_take hmem, hblame⟩
        · obtain ⟨share, hmem, hblame⟩ := hr i hi
          exact ⟨share, List.mem_of_mem_drop hmem, hblame⟩

end BatchCheck

end ThresholdKeygen
