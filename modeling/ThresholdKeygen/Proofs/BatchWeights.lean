import Mathlib.Algebra.BigOperators.Fin
import Mathlib.Data.Fintype.BigOperators
import Mathlib.Data.Int.ConditionallyCompleteOrder
import Mathlib.Data.Int.Interval
import ThresholdKeygen.Proofs.BatchCheck
import ThresholdKeygen.Proofs.CommitmentTable
import ThresholdKeygen.Proofs.Point.Residues

/-!
# Weights that let a batch pass

The batch equation is linear in the weights: the coefficient of a weight is how far the share that
it belongs to is from the one its sender committed to. Main statement: `verify_discerns`, correct
shares pass for all weights, a single wrong share for none, and several wrong shares, which may
cancel, for at most one value of some weight when the others are given.
-/

namespace ThresholdKeygen

/-! ### Weights from a tape -/

namespace Tape

theorem nextWeight_eq (bits : Nat) {tries : Nat} (htries : 0 < tries) {tape : Tape} {w : Int}
    {rest : List Int} (hw : w ≠ 0) (h : tape.weights = w :: rest) :
    nextWeight bits tries tape = (Scalar.ofInt w, { tape with weights := rest }) := by
  obtain ⟨tries, rfl⟩ := Nat.exists_eq_succ_of_ne_zero htries.ne'
  simp only [nextWeight, rawWeight, h, if_neg hw]

/-- The weights that are drawn from a tape are those that it has, unless they are zero. -/
theorem run_drawWeights (who : Int) (bits : Nat) {weights : List Int} (hne : ∀ w ∈ weights, w ≠ 0)
    {tape : Tape} {rest : List Int} (h : tape.weights = weights ++ rest) :
    (drawWeights who bits weights.length : StateM Tape (List Scalar)).run tape =
      (weights.map Scalar.ofInt, { tape with weights := rest }) := by
  induction weights generalizing tape with
  | nil =>
    obtain ⟨_, _, _, _, _⟩ := tape
    obtain rfl := h
    rfl
  | cons w weights ih =>
    obtain ⟨hw, hweights⟩ := List.forall_mem_cons.1 hne
    have hfirst : (drawWeight who bits : StateM Tape Scalar).run tape =
        (Scalar.ofInt w, { tape with weights := weights ++ rest }) :=
      nextWeight_eq bits (by rw [h, List.length_append, List.length_cons]; omega) hw h
    have hothers : (drawWeights who bits weights.length : StateM Tape (List Scalar)).run
        { tape with weights := weights ++ rest } =
          (weights.map Scalar.ofInt, { tape with weights := rest }) := ih hweights rfl
    rw [List.length_cons, drawWeights, StateT.run_bind, hfirst]
    change (fun answer : List Scalar × Tape => (Scalar.ofInt w :: answer.1, answer.2))
      ((drawWeights who bits weights.length : StateM Tape (List Scalar)).run _) = _
    rw [hothers]
    rfl

end Tape

namespace BatchCheck

/-! ### Solutions of a linear equation -/

/-- A linear equation with a coefficient that is not zero determines one of its unknowns. -/
theorem card_solutions_le {m : Nat} {bound : Int} (hbound : bound < groupOrder)
    (d : Fin (m + 1) → Scalar) {j : Fin (m + 1)} (hj : d j ≠ 0) :
    ((Fintype.piFinset fun _ : Fin (m + 1) => Finset.Icc 1 bound).filter fun w =>
      ∑ i, (w i : Scalar) * d i = 0).card ≤ bound.toNat ^ m := by
  have hcard : (Fintype.piFinset fun _ : Fin m => Finset.Icc 1 bound).card = bound.toNat ^ m := by
    simp
  rw [← hcard]
  -- Leaving out the unknown `w j` loses nothing, since the equation gives it back.
  refine Finset.card_le_card_of_injOn (fun w k => w (j.succAbove k)) ?_ ?_
  · intro w hw
    have hrange := Fintype.mem_piFinset.1 (Finset.mem_filter.1 hw).1
    exact Finset.mem_coe.2 (Fintype.mem_piFinset.2 fun k => hrange (j.succAbove k))
  · intro w hw v hv hothers
    obtain ⟨hwrange, hwsum⟩ := Finset.mem_filter.1 hw
    obtain ⟨hvrange, hvsum⟩ := Finset.mem_filter.1 hv
    have hother : ∀ k, w (j.succAbove k) = v (j.succAbove k) := congrFun hothers
    have hcast : (w j : Scalar) = v j := by
      rw [Fin.sum_univ_succAbove _ j] at hwsum hvsum
      simp only [hother] at hwsum
      exact mul_right_cancel₀ hj (add_right_cancel (hwsum.trans hvsum.symm))
    have hwj := Finset.mem_Icc.1 (Fintype.mem_piFinset.1 hwrange j)
    have hvj := Finset.mem_Icc.1 (Fintype.mem_piFinset.1 hvrange j)
    funext i
    rcases Fin.eq_self_or_eq_succAbove j i with rfl | ⟨k, rfl⟩
    · exact Scalar.intCast_injOn (by omega) (by omega) (by omega) (by omega) hcast
    · exact hother k

/-! ### Discrepancies -/

variable {K : Type} [Suite K]

/-- How far a share is from the one that its sender committed to. -/
def discrepancy (s : Sharing) (x : Int) (share : Int × Scalar) : Scalar :=
  share.2 - (s.dealt share.1).evaluate x

theorem discrepancy_eq_zero_iff {s : Sharing} {x : Int} {share : Int × Scalar} :
    discrepancy s x share = 0 ↔ Correct s x share := sub_eq_zero

/-- That a share, taken alone, passes with the commitment of its sender. -/
def Passes (table : CommitmentTable K) (x : Int) (share : Int × Scalar) : Prop :=
  ∃ c, table.commitmentOf share.1 = .ok c ∧ c.verifyShare share.2 x = true

theorem sum_sub_committedSum (s : Sharing) (weights : List Scalar) (shares : List (Int × Scalar))
    (x : Int) :
    (List.zipWith (fun w share => w * share.2) weights shares).sum -
      committedSum s weights shares x =
        (List.zipWith (fun w share => w * discrepancy s x share) weights shares).sum := by
  rw [committedSum]
  induction weights generalizing shares with
  | nil => simp
  | cons w weights ih =>
    cases shares with
    | nil => simp
    | cons share shares =>
      simp only [List.zipWith_cons_cons, List.sum_cons]
      rw [← ih shares, discrepancy]
      ring

section Backed

variable [LawfulSuite K] {s : Sharing} {table : CommitmentTable K} {shares : List (Int × Scalar)}
  (hshares : Backed s table shares)

include hshares

theorem passes_iff {share : Int × Scalar} (hshare : share ∈ shares) (x : Int) :
    Passes table x share ↔ Correct s x share := by
  rw [Passes, (hshares share hshare).2, Correct]
  constructor
  · rintro ⟨c, hc, hpasses⟩
    obtain rfl := Except.ok.inj hc
    rwa [Commitment.verifyShare_iff, Commitment.logs_ofCoefficients] at hpasses
  · intro hcorrect
    refine ⟨_, rfl, ?_⟩
    rwa [Commitment.verifyShare_iff, Commitment.logs_ofCoefficients]

/-- The batch equation says that the weighted discrepancies cancel. -/
theorem equation_eq_discrepancies {weights : List Scalar} (hlength : weights.length = shares.length)
    (x : Int) : equation weights shares table (powersFrom x 1 s.threshold) =
      .ok (decide
        ((List.zipWith (fun w share => w * discrepancy s x share) weights shares).sum = 0)) := by
  rw [equation_eq hshares hlength]
  refine congrArg Except.ok (Bool.eq_iff_iff.2 ?_)
  rw [decide_eq_true_iff, decide_eq_true_iff, ← sum_sub_committedSum, sub_eq_zero]

end Backed

/-- Registered commitments belong to a sharing, whether or not all dealers have registered one. -/
theorem exists_backed [LawfulSuite K] {table : CommitmentTable K} (htable : table.Built)
    {inbox : Inbox} (hregistered : ∀ i ∈ inbox.keys, table.contains i = true) {t : Nat}
    (ht : table.threshold = t) :
    ∃ s : Sharing, s.threshold = t ∧ Backed s table inbox.bySender := by
  refine ⟨⟨table.dealers, t,
    fun i => ((table.slots.get? i).map Commitment.logs).getD (List.replicate t 0), ?_⟩, rfl, ?_⟩
  · intro i _ _
    cases hc : table.slots.get? i with
    | none => simp
    | some c =>
      have := (htable.slot hc).2.2
      simp only [Option.map_some, Option.getD_some, Commitment.length_logs]
      omega
  · rintro ⟨i, share⟩ hshare
    have hsender : i ∈ inbox.keys :=
      Mapping.mem_keys_iff.2 (by rw [Inbox.mem_bySender.1 hshare]; rfl)
    obtain ⟨h₁, h₂, hsome⟩ := of_decide_eq_true (hregistered i hsender)
    obtain ⟨c, hc⟩ := Option.isSome_iff_exists.1 hsome
    refine ⟨⟨h₁, h₂⟩, ?_⟩
    rw [CommitmentTable.commitmentOf, CommitmentTable.get, CommitmentTable.checkSender,
      if_pos ⟨h₁, h₂⟩]
    simp [hc]

/-! ### Verdicts -/

/-- The weight vectors for `m` shares: those without zero. -/
noncomputable def weightVectors (m : Nat) : Finset (Fin m → Int) :=
  Fintype.piFinset fun _ => Finset.Icc 1 (2 ^ weightBits - 1)

/-- The verdict on an inbox when given weights are drawn. -/
def verdict (who : Int) (inbox : Inbox) (table : CommitmentTable K) (row : List Scalar) {m : Nat}
    (weights : Fin m → Int) : Except Error Bool :=
  ((verify who inbox table row : ExceptT Error (StateM Tape) Bool).run.run
    (Tape.new [] (List.ofFn weights) "")).1

/-- Whether an inbox passes when given weights are drawn. -/
def accepts (who : Int) (inbox : Inbox) (table : CommitmentTable K) (row : List Scalar) {m : Nat}
    (weights : Fin m → Int) : Bool :=
  match verdict who inbox table row weights with
  | .ok agrees => agrees
  | .error _ => false

/-- What the batch check makes of an inbox with shares for an index: it always comes to a verdict,
accepts correct shares for all weights, and wrong ones for few. -/
structure Discerns (who : Int) (inbox : Inbox) (table : CommitmentTable K) (x : Int)
    (row : List Scalar) : Prop where
  decides : ∀ {σ : Type} [RandomSource σ] (source : σ), ∃ agrees,
    ((verify who inbox table row : ExceptT Error (StateM σ) Bool).run.run source).1 = .ok agrees
  of_all_pass : (∀ share ∈ inbox.entries, Passes table x share) →
    ∀ {σ : Type} [RandomSource σ] (source : σ),
      ((verify who inbox table row : ExceptT Error (StateM σ) Bool).run.run source).1 = .ok true
  card_accepted_le : 2 ≤ inbox.entries.length →
    (∃ share ∈ inbox.entries, ¬ Passes table x share) →
      ((weightVectors inbox.entries.length).filter fun weights =>
        accepts who inbox table row weights).card ≤
          (2 ^ 128 - 1) ^ (inbox.entries.length - 1)
  of_one_failing : ∀ share ∈ inbox.entries, ¬ Passes table x share →
    (∀ other ∈ inbox.entries, other ≠ share → Passes table x other) →
      ∀ weights ∈ weightVectors inbox.entries.length,
        verdict who inbox table row weights = .ok false
  of_single : ∀ i share c, inbox.entries = [(i, share)] → table.commitmentOf i = .ok c →
    ∀ {σ : Type} [RandomSource σ] (source : σ),
      ((verify who inbox table row : ExceptT Error (StateM σ) Bool).run.run source).1 =
        .ok (c.verifyShare share x)

section Verdicts

variable {σ : Type} [RandomSource σ] (who : Int)

theorem run_holds {shares : List (Int × Scalar)} (hne : shares ≠ []) (table : CommitmentTable K)
    (row : List Scalar) (source : σ) :
    ((holds who shares table row : ExceptT Error (StateM σ) Bool).run.run source).1 =
      equation ((freshWeights who shares.length : StateM σ _).run source).1 shares table row := by
  rw [holds, if_neg (by simpa using hne)]
  rfl

variable [LawfulSuite K] {s : Sharing} {table : CommitmentTable K} {shares : List (Int × Scalar)}
  (hshares : Backed s table shares)

include hshares

/-- The verdict on shares compares the weighted discrepancies with zero. -/
theorem run_holds_eq (hne : shares ≠ []) (x : Int) (source : σ) :
    ((holds who shares table (powersFrom x 1 s.threshold) :
      ExceptT Error (StateM σ) Bool).run.run source).1 = .ok (decide
        ((List.zipWith (fun w share => w * discrepancy s x share)
          ((freshWeights who shares.length : StateM σ _).run source).1 shares).sum = 0)) := by
  rw [run_holds who hne]
  exact equation_eq_discrepancies hshares (always_freshWeights who _ source) x

/-- A single share is checked alone. -/
theorem run_holds_singleton {share : Int × Scalar} (hone : shares = [share]) (x : Int)
    (source : σ) :
    ((holds who shares table (powersFrom x 1 s.threshold) :
      ExceptT Error (StateM σ) Bool).run.run source).1 =
        .ok (decide (discrepancy s x share = 0)) := by
  rw [run_holds_eq who hshares (by simp [hone])]
  subst hone
  have hweights : ((freshWeights who 1 : StateM σ _).run source).1 = [1] := rfl
  simp [hweights]

end Verdicts

section Vectors

variable [LawfulSuite K] {s : Sharing} {table : CommitmentTable K} {inbox : Inbox} {m : Nat}
  (who : Int) (hinbox : Backed s table inbox.bySender) (hm : inbox.bySender.length = m)

include hinbox hm

/-- The verdict on several shares is a linear equation in the weights. -/
theorem verdict_eq (hseveral : 2 ≤ m) (x : Int) {weights : Fin m → Int}
    (hweights : weights ∈ weightVectors m) :
    verdict who inbox table (powersFrom x 1 s.threshold) weights = .ok (decide
      (∑ i, (weights i : Scalar) * discrepancy s x (inbox.bySender.get (i.cast hm.symm)) = 0)) := by
  subst hm
  have hne : ∀ w ∈ List.ofFn weights, w ≠ 0 := by
    intro w hw
    obtain ⟨i, rfl⟩ := (List.mem_ofFn' _ _).1 hw
    have := Finset.mem_Icc.1 (Fintype.mem_piFinset.1 hweights i)
    omega
  have hdrawn : (drawWeights who weightBits (List.ofFn weights).length : StateM Tape _).run
      (Tape.new [] (List.ofFn weights) "") =
        ((List.ofFn weights).map Scalar.ofInt, Tape.new [] [] "") :=
    Tape.run_drawWeights who weightBits hne (List.append_nil _).symm
  rw [List.length_ofFn] at hdrawn
  rw [verdict, verify, run_holds_eq who hinbox (by rintro h; simp [h] at hseveral), freshWeights,
    if_neg (by omega), hdrawn]
  have hsum : (List.zipWith (fun w share => w * discrepancy s x share)
      ((List.ofFn weights).map Scalar.ofInt) inbox.bySender).sum =
        ∑ i, (weights i : Scalar) * discrepancy s x (inbox.bySender.get i) := by
    rw [← List.sum_ofFn]
    refine congrArg List.sum (List.ext_getElem (by simp) fun i _ _ => ?_)
    simp [Scalar.ofInt_eq_intCast]
  exact congrArg (fun total : Scalar => Except.ok (decide (total = 0))) hsum

/-- Several shares of which some are wrong pass for at most one value of some weight, whatever the
other weights are. -/
theorem card_accepts_le (hseveral : 2 ≤ m) {x : Int} {share : Int × Scalar}
    (hshare : share ∈ inbox.bySender) (hwrong : ¬ Correct s x share) :
    ((weightVectors m).filter fun weights =>
      accepts who inbox table (powersFrom x 1 s.threshold) weights).card ≤
        (2 ^ 128 - 1) ^ (m - 1) := by
  obtain ⟨m, rfl⟩ := Nat.exists_eq_succ_of_ne_zero (show m ≠ 0 by omega)
  obtain ⟨j, hj⟩ := List.get_of_mem hshare
  have hcoefficient : discrepancy s x (inbox.bySender.get ((j.cast hm).cast hm.symm)) ≠ 0 := by
    rw [Fin.cast_cast, Fin.cast_eq_self, hj]
    exact mt discrepancy_eq_zero_iff.1 hwrong
  have haccepts : ∀ weights ∈ weightVectors (m + 1),
      accepts who inbox table (powersFrom x 1 s.threshold) weights = true ↔
        ∑ i, (weights i : Scalar) * discrepancy s x (inbox.bySender.get (i.cast hm.symm)) = 0 := by
    intro weights hweights
    rw [accepts, verdict_eq who hinbox hm hseveral x hweights]
    exact decide_eq_true_iff
  have hbound : (2 : Int) ^ weightBits - 1 < groupOrder := by decide
  rw [Finset.filter_congr haccepts]
  exact card_solutions_le hbound
    (fun i => discrepancy s x (inbox.bySender.get (i.cast hm.symm))) hcoefficient

/-- With a single wrong share nothing cancels. -/
theorem verdict_of_one_wrong {x : Int} {share : Int × Scalar} (hshare : share ∈ inbox.bySender)
    (hwrong : ¬ Correct s x share)
    (hothers : ∀ other ∈ inbox.bySender, other ≠ share → Correct s x other) {weights : Fin m → Int}
    (hweights : weights ∈ weightVectors m) :
    verdict who inbox table (powersFrom x 1 s.threshold) weights = .ok false := by
  have hnodup : inbox.bySender.Nodup :=
    (List.mergeSort_perm _ _).nodup_iff.2 (List.Nodup.of_map Prod.fst inbox.nodup_keys)
  have hdiffers := mt discrepancy_eq_zero_iff.1 hwrong
  obtain ⟨j, hj⟩ := List.get_of_mem hshare
  have hpos := j.pos
  -- A single share has the weight one, whatever the tape holds.
  rcases Nat.eq_or_lt_of_le hpos with hone | hseveral
  · obtain ⟨only, hsingle⟩ := List.length_eq_one_iff.1 hone.symm
    rw [hsingle, List.mem_singleton] at hshare
    rw [verdict, verify, run_holds_singleton who hinbox (hshare ▸ hsingle),
      decide_eq_false hdiffers]
  · rw [verdict_eq who hinbox hm (hm ▸ hseveral) x hweights]
    refine congrArg Except.ok (decide_eq_false ?_)
    rw [Finset.sum_eq_single (j.cast hm)]
    · rw [Fin.cast_cast, Fin.cast_eq_self, hj]
      have hrange := Finset.mem_Icc.1 (Fintype.mem_piFinset.1 hweights (j.cast hm))
      have hweight : (weights (j.cast hm) : Scalar) ≠ 0 := by
        rw [← Int.cast_zero]
        exact (Scalar.intCast_ne_of_lt le_rfl (by omega)
          (lt_of_le_of_lt hrange.2 (by decide))).symm
      exact mul_ne_zero hweight hdiffers
    · intro i _ hi
      have hother : inbox.bySender.get (i.cast hm.symm) ≠ share := by
        rw [← hj]
        intro heq
        have hplace : i.cast hm.symm = j := List.nodup_iff_injective_get.1 hnodup heq
        exact hi (by rw [← hplace, Fin.cast_cast, Fin.cast_eq_self])
      rw [discrepancy_eq_zero_iff.2 (hothers _ (List.get_mem _ _) hother), mul_zero]
    · exact fun hmem => absurd (Finset.mem_univ _) hmem

end Vectors

/-- The batch check tells correct shares from wrong ones, up to the stated share of the weights. -/
theorem verify_discerns [LawfulSuite K] {table : CommitmentTable K} (htable : table.Built)
    {inbox : Inbox} (hregistered : ∀ i ∈ inbox.keys, table.contains i = true) {x : Int}
    {row : List Scalar} (hrow : powers (Scalar.ofInt x) table.threshold = .ok row) (who : Int) :
    Discerns who inbox table x row := by
  obtain ⟨hthreshold, rfl⟩ : 0 ≤ table.threshold ∧
      row = powersFrom (x : Scalar) 1 table.threshold.toNat := by
    rw [powers] at hrow
    split at hrow
    · cases hrow
    · exact ⟨by omega, (Except.ok.inj hrow).symm⟩
  obtain ⟨s, hs, hinbox⟩ := exists_backed htable hregistered (Int.toNat_of_nonneg hthreshold).symm
  rw [← hs]
  have hperm : inbox.bySender.Perm inbox.entries := List.mergeSort_perm _ _
  have hmem : ∀ {share}, share ∈ inbox.entries ↔ share ∈ inbox.bySender := hperm.mem_iff.symm
  have hlength : inbox.bySender.length = inbox.entries.length := hperm.length_eq
  constructor
  · intro σ _ source
    by_cases hempty : inbox.bySender = []
    · exact ⟨true, by rw [verify, hempty]; rfl⟩
    · exact ⟨_, run_holds_eq who hinbox hempty x source⟩
  · intro hpass σ _ source
    obtain ⟨agrees, hrun, hagrees⟩ := succeeds_holds hinbox who x source
    rw [hagrees fun share hshare => (passes_iff hinbox hshare x).1 (hpass share (hmem.2 hshare))]
      at hrun
    exact hrun
  · rintro hseveral ⟨share, hshare, hfails⟩
    exact card_accepts_le who hinbox hlength hseveral (hmem.1 hshare)
      (mt (passes_iff hinbox (hmem.1 hshare) x).2 hfails)
  · intro share hshare hfails hothers weights hweights
    exact verdict_of_one_wrong who hinbox hlength (hmem.1 hshare)
      (mt (passes_iff hinbox (hmem.1 hshare) x).2 hfails)
      (fun other hother hne => (passes_iff hinbox hother x).1 (hothers other (hmem.2 hother) hne))
      hweights
  · intro i share c hone hc σ _ source
    have hsingle : inbox.bySender = [(i, share)] := List.perm_singleton.1 (hone ▸ hperm)
    have hpasses : c.verifyShare share x = true ↔ Passes table x (i, share) :=
      ⟨fun h => ⟨c, hc, h⟩, fun ⟨c', hc', h⟩ => Except.ok.inj (hc.symm.trans hc') ▸ h⟩
    rw [verify, run_holds_singleton who hinbox hsingle]
    refine congrArg Except.ok (Bool.eq_iff_iff.2 ?_)
    rw [decide_eq_true_iff, discrepancy_eq_zero_iff, hpasses]
    exact (passes_iff hinbox (hmem.1 (by simp [hone])) x).symm

/-- Two shares for the only coefficient of each of two dealers, one of them wrong. -/
theorem exists_verify_discerns : ∃ (table : CommitmentTable ResidueKey) (inbox : Inbox)
    (row : List Scalar), table.Built ∧ (∀ i ∈ inbox.keys, table.contains i = true) ∧
      powers (Scalar.ofInt 2) table.threshold = .ok row ∧
      (∃ share ∈ inbox.entries, ¬ Passes table 2 share) ∧ Discerns 1 inbox table 2 row := by
  let c : Commitment ResidueKey := ⟨[Point.generator]⟩
  let table : CommitmentTable ResidueKey := ⟨2, 1, (Mapping.empty.put 1 c).put 2 c⟩
  have htable : table.Built :=
    .register 2 c (.register 1 c (.new 2 1 rfl) rfl) rfl
  let inbox : Inbox := .ofList [(1, 1), (2, 2)]
  have hregistered : ∀ i ∈ inbox.keys, table.contains i = true := by decide
  refine ⟨table, inbox, [1], htable, hregistered, rfl, ⟨(2, 2), by decide, ?_⟩,
    verify_discerns htable hregistered rfl 1⟩
  rintro ⟨_, ⟨⟩, hpasses⟩
  exact absurd hpasses (by decide)

end BatchCheck

end ThresholdKeygen
