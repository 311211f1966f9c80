import ThresholdKeygen.Proofs.BatchWeights

/-!
# Halving failing parts

The senders that halving blames, beside the tests that it makes on the way. Main statement:
`findInvalid_isolates`, they are named in ascending order and have all sent wrong shares, and what
is wrong with the others is in parts that a test has accepted, where several wrong shares cancel.
-/

namespace ThresholdKeygen

theorem Inbox.pairwise_bySender (inbox : Inbox) :
    inbox.bySender.Pairwise fun a b => a.1 < b.1 := by
  have hsorted : inbox.bySender.Pairwise fun a b => a.1 ≤ b.1 :=
    (List.pairwise_mergeSort (by simp; omega) (by simp; omega) inbox.entries).imp (by simp)
  have hnodup : (inbox.bySender.map Prod.fst).Nodup :=
    ((List.mergeSort_perm _ _).map Prod.fst).nodup_iff.2 inbox.nodup_keys
  exact hsorted.imp₂ (fun _ _ hle hne => lt_of_le_of_ne hle hne) (List.pairwise_map.1 hnodup)

namespace BatchCheck

/-- What halving has found out about a part: a test accepts it, it is a single share that fails, or
it fails and both halves are looked at. -/
inductive Bisection where
  | accepted (part : List (Int × Scalar))
  | single (part : List (Int × Scalar))
  | halved (left right : Bisection)

namespace Bisection

/-- The senders of the single shares that fail. -/
def blamed : Bisection → List Int
  | accepted _ => []
  | single part => part.map Prod.fst
  | halved left right => left.blamed ++ right.blamed

/-- The parts that a test accepts. -/
def passed : Bisection → List (List (Int × Scalar))
  | accepted part => [part]
  | single _ => []
  | halved left right => left.passed ++ right.passed

end Bisection

variable {K : Type} [Suite K] {σ : Type} [RandomSource σ]

/-- Halving as in `bisect`, with all that it finds out. -/
def trace (who : Int) (table : CommitmentTable K) (row : List Scalar)
    (shares : List (Int × Scalar)) : ExceptT Error (StateM σ) Bisection := do
  if ← holds who shares table row then return .accepted shares
  if _ : shares.length ≤ 1 then return .single shares
  else
    let half := shares.length / 2
    let left ← trace who table row (shares.take half)
    let right ← trace who table row (shares.drop half)
    return .halved left right
termination_by shares.length
decreasing_by
  · simp only [List.length_take]; omega
  · simp only [List.length_drop]; omega

/-- Halving blames the senders of the single shares that fail, by the same tests. -/
theorem bisect_eq (who : Int) (table : CommitmentTable K) (row : List Scalar)
    (shares : List (Int × Scalar)) :
    (bisect who table row shares : ExceptT Error (StateM σ) (List Int)) =
      Bisection.blamed <$> trace who table row shares := by
  induction hsize : shares.length using Nat.strong_induction_on generalizing shares with
  | _ size ih =>
    subst hsize
    rw [bisect, trace, map_bind]
    refine bind_congr fun verdict => ?_
    cases verdict with
    | true => rfl
    | false =>
      simp only [Bool.false_eq_true, if_false]
      split
      · rfl
      · rw [ih _ (by simp; omega) _ rfl, ih _ (by simp; omega) _ rfl]
        simp [Bisection.blamed]

/-! ### Weights other than zero -/

section Weights

variable {who : Int} (hweights : Always (drawWeight who weightBits : StateM σ Scalar) (· ≠ 0))

include hweights

theorem always_drawWeights_ne_zero (count : Nat) :
    Always (drawWeights who weightBits count : StateM σ (List Scalar)) fun weights =>
      weights.length = count ∧ ∀ w ∈ weights, w ≠ 0 := by
  induction count with
  | zero => exact .pure ⟨rfl, by simp⟩
  | succ count ih =>
    refine .bind (hweights.mono fun w hw => .bind (ih.mono fun weights h => ?_))
    exact .pure ⟨by rw [List.length_cons, h.1], List.forall_mem_cons.2 ⟨hw, h.2⟩⟩

theorem always_freshWeights_ne_zero (count : Nat) :
    Always (freshWeights who count : StateM σ (List Scalar)) fun weights =>
      weights.length = count ∧ ∀ w ∈ weights, w ≠ 0 := by
  rw [freshWeights]
  split
  · rename_i hcount
    exact .pure ⟨hcount.symm, by simp⟩
  · exact always_drawWeights_ne_zero hweights count

end Weights

/-- What differs from a commitment is not made up for by shares that agree with theirs. -/
theorem sum_discrepancies_ne_zero {s : Sharing} {x : Int} {weights : List Scalar}
    {shares : List (Int × Scalar)} (hlength : weights.length = shares.length)
    (hweights : ∀ w ∈ weights, w ≠ 0) (hnodup : shares.Nodup) {share : Int × Scalar}
    (hshare : share ∈ shares) (hwrong : ¬ Correct s x share)
    (hothers : ∀ other ∈ shares, other ≠ share → Correct s x other) :
    (List.zipWith (fun w share => w * discrepancy s x share) weights shares).sum ≠ 0 := by
  induction weights generalizing shares with
  | nil => simp [List.length_eq_zero_iff.1 hlength.symm] at hshare
  | cons w weights ih =>
    cases shares with
    | nil => cases hshare
    | cons first shares =>
      obtain ⟨hw, hweights⟩ := List.forall_mem_cons.1 hweights
      obtain ⟨hfirst, hnodup⟩ := List.nodup_cons.1 hnodup
      obtain ⟨hhead, htail⟩ := List.forall_mem_cons.1 hothers
      rw [List.zipWith_cons_cons, List.sum_cons]
      rcases List.mem_cons.1 hshare with rfl | hshare
      · -- the shares behind it agree, and add nothing
        have hrest : (List.zipWith (fun w share => w * discrepancy s x share)
            weights shares).sum = 0 := by
          rw [← sum_sub_committedSum, sub_eq_zero]
          exact sum_eq_committedSum fun other hother =>
            htail other hother (ne_of_mem_of_not_mem hother hfirst)
        rw [hrest, add_zero]
        exact mul_ne_zero hw (mt discrepancy_eq_zero_iff.1 hwrong)
      · have hcorrect := hhead (ne_of_mem_of_not_mem hshare hfirst).symm
        rw [discrepancy_eq_zero_iff.2 hcorrect, mul_zero, zero_add]
        exact ih (Nat.succ.inj hlength) hweights hnodup hshare htail

/-! ### Accounts -/

/-- That a halving of some shares blames senders of wrong ones, and that each wrong share of
another sender is in an accepted part, together with a further one. -/
structure Accounts (table : CommitmentTable K) (x : Int) (shares : List (Int × Scalar))
    (tree : Bisection) : Prop where
  sublist : tree.blamed.Sublist (shares.map Prod.fst)
  fails : ∀ i ∈ tree.blamed, ∃ share ∈ shares, share.1 = i ∧ ¬ Passes table x share
  missed : ∀ share ∈ shares, ¬ Passes table x share → share.1 ∉ tree.blamed →
    ∃ part ∈ tree.passed, part <:+: shares ∧ share ∈ part ∧
      ∃ other ∈ part, other.1 ≠ share.1 ∧ ¬ Passes table x other

namespace Accounts

variable {table : CommitmentTable K} {x : Int} {shares : List (Int × Scalar)}

theorem accepted (h : ∀ share ∈ shares, ¬ Passes table x share →
    ∃ other ∈ shares, other.1 ≠ share.1 ∧ ¬ Passes table x other) :
    Accounts table x shares (.accepted shares) where
  sublist := List.nil_sublist _
  fails := by simp [Bisection.blamed]
  missed := fun share hshare hwrong _ =>
    ⟨shares, .head _, List.infix_rfl, hshare, h share hshare hwrong⟩

theorem single (hone : shares.length ≤ 1) (h : ∃ share ∈ shares, ¬ Passes table x share) :
    Accounts table x shares (.single shares) where
  sublist := List.Sublist.refl _
  fails := by
    intro i hi
    obtain ⟨share, hshare, rfl⟩ := List.mem_map.1 hi
    obtain ⟨wrong, hmem, hwrong⟩ := h
    obtain ⟨only, rfl⟩ := List.length_eq_one_iff.1
      (Nat.le_antisymm hone (List.length_pos_of_mem hshare))
    rw [List.mem_singleton.1 hmem, ← List.mem_singleton.1 hshare] at hwrong
    exact ⟨share, hshare, rfl, hwrong⟩
  missed := fun share hshare _ hblamed => absurd (List.mem_map_of_mem hshare) hblamed

/-- What halves account for, the whole accounts for. -/
theorem halved {front back : List (Int × Scalar)} {left right : Bisection}
    (hleft : Accounts table x front left) (hright : Accounts table x back right) :
    Accounts table x (front ++ back) (.halved left right) where
  sublist := by
    rw [List.map_append]
    exact hleft.sublist.append hright.sublist
  fails := by
    intro i hi
    rcases List.mem_append.1 hi with hi | hi
    · obtain ⟨share, hmem, hshare⟩ := hleft.fails i hi
      exact ⟨share, List.mem_append_left _ hmem, hshare⟩
    · obtain ⟨share, hmem, hshare⟩ := hright.fails i hi
      exact ⟨share, List.mem_append_right _ hmem, hshare⟩
  missed := by
    intro share hshare hwrong hblamed
    rw [Bisection.blamed, List.mem_append, not_or] at hblamed
    rcases List.mem_append.1 hshare with hshare | hshare
    · obtain ⟨part, hpart, hinfix, hfound⟩ := hleft.missed share hshare hwrong hblamed.1
      exact ⟨part, List.mem_append_left _ hpart,
        hinfix.trans (List.prefix_append _ _).isInfix, hfound⟩
    · obtain ⟨part, hpart, hinfix, hfound⟩ := hright.missed share hshare hwrong hblamed.2
      exact ⟨part, List.mem_append_right _ hpart,
        hinfix.trans (List.suffix_append _ _).isInfix, hfound⟩

end Accounts

section Backed

variable [LawfulSuite K] {s : Sharing} {table : CommitmentTable K} {shares : List (Int × Scalar)}
  (hshares : Backed s table shares) (hascending : shares.Pairwise fun a b => a.1 < b.1) {who : Int}
  (hweights : Always (drawWeight who weightBits : StateM σ Scalar) (· ≠ 0)) (x : Int)

include hshares hascending hweights

/-- Shares that do not pass hold a wrong one, and shares that pass do not hold only one. -/
theorem succeeds_holds_verdict :
    Succeeds (holds who shares table (powersFrom x 1 s.threshold) : ExceptT Error (StateM σ) Bool)
      fun verdict =>
        (verdict = false → ∃ share ∈ shares, ¬ Passes table x share) ∧
          (verdict = true → ∀ share ∈ shares, ¬ Passes table x share →
            ∃ other ∈ shares, other.1 ≠ share.1 ∧ ¬ Passes table x other) := by
  rw [holds]
  split
  · rename_i hempty
    exact .pure ⟨by simp, by simp [List.isEmpty_iff.1 hempty]⟩
  · refine .bind (.lift ((always_freshWeights_ne_zero hweights shares.length).mono ?_))
    rintro weights ⟨hlength, hne⟩
    refine .steady (equation_eq hshares hlength x) ⟨fun hverdict => ?_, fun hverdict => ?_⟩
    · by_contra! hpass
      refine of_decide_eq_false hverdict (sum_eq_committedSum fun share hshare => ?_)
      exact (passes_iff hshares hshare x).1 (hpass share hshare)
    · intro share hshare hwrong
      by_contra! hpass
      have hsenders : (shares.map Prod.fst).Nodup :=
        (List.pairwise_map.2 hascending).imp fun h => h.ne
      have hcancel : (List.zipWith (fun w share => w * discrepancy s x share)
          weights shares).sum = 0 := by
        rw [← sum_sub_committedSum, of_decide_eq_true hverdict, sub_self]
      refine sum_discrepancies_ne_zero hlength hne (.of_map _ hsenders) hshare
        (mt (passes_iff hshares hshare x).2 hwrong) (fun other hother hdiffers => ?_) hcancel
      refine (passes_iff hshares hother x).1 (hpass other hother fun hsender => hdiffers ?_)
      exact List.inj_on_of_nodup_map hsenders hother hshare hsender

theorem succeeds_trace :
    Succeeds (trace who table (powersFrom x 1 s.threshold) shares :
      ExceptT Error (StateM σ) Bisection) (Accounts table x shares) := by
  induction hsize : shares.length using Nat.strong_induction_on generalizing shares with
  | _ size ih =>
    subst hsize
    rw [trace]
    refine .bind ((succeeds_holds_verdict hshares hascending hweights x).mono ?_)
    rintro verdict ⟨hfalse, htrue⟩
    cases verdict with
    | true => exact .pure (.accepted (htrue rfl))
    | false =>
      rw [if_neg (by simp)]
      split
      · exact .pure (.single ‹_› (hfalse rfl))
      · have hleft := ih (shares.take (shares.length / 2)).length (by simp; omega)
          (fun share hmem => hshares share (List.mem_of_mem_take hmem))
          (hascending.sublist (List.take_sublist _ _)) rfl
        have hright := ih (shares.drop (shares.length / 2)).length (by simp; omega)
          (fun share hmem => hshares share (List.mem_of_mem_drop hmem))
          (hascending.sublist (List.drop_sublist _ _)) rfl
        refine .bind (hleft.mono fun left hl => .bind (hright.mono fun right hr => .pure ?_))
        have hwhole := hl.halved hr
        rwa [List.take_append_drop] at hwhole

end Backed

/-- What comes of halving an inbox with shares for an index, given the tests on the way. -/
structure Isolates (inbox : Inbox) (table : CommitmentTable K) (x : Int) (tree : Bisection) :
    Prop where
  ascending : tree.blamed.Pairwise (· < ·)
  fails : ∀ i ∈ tree.blamed, ∃ share, inbox.get? i = some share ∧ ¬ Passes table x (i, share)
  missed : ∀ i share, inbox.get? i = some share → ¬ Passes table x (i, share) →
    i ∉ tree.blamed → ∃ part ∈ tree.passed, part <:+: inbox.bySender ∧ (i, share) ∈ part ∧
      ∃ other ∈ part, other.1 ≠ i ∧ ¬ Passes table x other
  exact_of_passed : (∀ part ∈ tree.passed, ∀ share ∈ part, Passes table x share) →
    ∀ i, i ∈ tree.blamed ↔ ∃ share, inbox.get? i = some share ∧ ¬ Passes table x (i, share)

theorem Accounts.isolates {inbox : Inbox} {table : CommitmentTable K} {x : Int} {tree : Bisection}
    (h : Accounts table x inbox.bySender tree) : Isolates inbox table x tree := by
  have hfails : ∀ i ∈ tree.blamed, ∃ share, inbox.get? i = some share ∧
      ¬ Passes table x (i, share) := by
    intro i hi
    obtain ⟨⟨_, share⟩, hmem, rfl, hwrong⟩ := h.fails i hi
    exact ⟨share, Inbox.mem_bySender.1 hmem, hwrong⟩
  exact {
    ascending := (List.pairwise_map.2 inbox.pairwise_bySender).sublist h.sublist
    fails := hfails
    missed := fun i share hshare => h.missed (i, share) (Inbox.mem_bySender.2 hshare)
    exact_of_passed := by
      refine fun hpassed i => ⟨hfails i, ?_⟩
      rintro ⟨share, hshare, hwrong⟩
      by_contra hblamed
      obtain ⟨part, hpart, -, hmem, -⟩ :=
        h.missed (i, share) (Inbox.mem_bySender.2 hshare) hwrong hblamed
      exact hwrong (hpassed part hpart _ hmem) }

/-- Registered commitments belong to a sharing with as many coefficients as there are powers. -/
theorem exists_backed_row [LawfulSuite K] {table : CommitmentTable K} (htable : table.Built)
    {inbox : Inbox} (hregistered : ∀ i ∈ inbox.keys, table.contains i = true) {x : Int}
    {row : List Scalar} (hrow : powers (Scalar.ofInt x) table.threshold = .ok row) :
    ∃ s : Sharing, row = powersFrom (x : Scalar) 1 s.threshold ∧
      Backed s table inbox.bySender := by
  rw [powers] at hrow
  split at hrow
  · cases hrow
  · obtain ⟨s, hs, hinbox⟩ := exists_backed htable hregistered
      (Int.toNat_of_nonneg (show 0 ≤ table.threshold by omega)).symm
    exact ⟨s, by rw [hs]; exact (Except.ok.inj hrow).symm, hinbox⟩

/-- Halving finds wrong shares only, and all of them unless some cancel in a test. -/
theorem findInvalid_isolates [LawfulSuite K] {table : CommitmentTable K} (htable : table.Built)
    {inbox : Inbox} (hregistered : ∀ i ∈ inbox.keys, table.contains i = true) {x : Int}
    {row : List Scalar} (hrow : powers (Scalar.ofInt x) table.threshold = .ok row) {who : Int}
    (hweights : Always (drawWeight who weightBits : StateM σ Scalar) fun weight =>
      ∃ w : Int, 1 ≤ w ∧ w ≤ 2 ^ 128 - 1 ∧ weight = Scalar.ofInt w) (source : σ) :
    ∃ tree : Bisection,
      ((trace who table row inbox.bySender : ExceptT Error (StateM σ) _).run.run source).1 =
        .ok tree ∧
      ((findInvalid who inbox table row : ExceptT Error (StateM σ) _).run.run source).1 =
        .ok tree.blamed ∧
      Isolates inbox table x tree := by
  obtain ⟨s, rfl, hinbox⟩ := exists_backed_row htable hregistered hrow
  have hne : Always (drawWeight who weightBits : StateM σ Scalar) (· ≠ 0) := by
    refine hweights.mono ?_
    rintro _ ⟨w, hpos, hle, rfl⟩
    rw [Scalar.ofInt_eq_intCast, ← Int.cast_zero]
    exact (Scalar.intCast_ne_of_lt le_rfl (by omega) (lt_of_le_of_lt hle (by decide))).symm
  obtain ⟨tree, htree, haccounts⟩ := succeeds_trace hinbox inbox.pairwise_bySender hne x source
  refine ⟨tree, htree, ?_, haccounts.isolates⟩
  rw [findInvalid, bisect_eq, ExceptT.run_map, StateT.run_map]
  exact congrArg (Except.map Bisection.blamed) htree

end BatchCheck

/-! ### Equal weights -/

/-- A source that hands out nothing but ones. -/
structure Ones where

instance : RandomSource Ones where
  nextScalar _ source := (⟨1, Tape.one_nonzero⟩, source)
  nextWeight _ _ source := (1, source)

namespace BatchCheck

/-- The wrong shares of two dealers cancel when their weights are equal: nobody is blamed. -/
theorem exists_findInvalid_isolates : ∃ (table : CommitmentTable ResidueKey) (inbox : Inbox)
    (row : List Scalar) (tree : Bisection), table.Built ∧
      (∀ i ∈ inbox.keys, table.contains i = true) ∧
      powers (Scalar.ofInt 3) table.threshold = .ok row ∧
      (∀ i ∈ [1, 2], ∃ share, inbox.get? i = some share ∧ ¬ Passes table 3 (i, share)) ∧
      ((findInvalid 1 inbox table row : ExceptT Error (StateM Ones) _).run.run ⟨⟩).1 =
        .ok tree.blamed ∧
      Isolates inbox table 3 tree ∧ tree.blamed = [] := by
  let c : Commitment ResidueKey := ⟨[Point.generator]⟩
  let table : CommitmentTable ResidueKey := ⟨2, 1, (Mapping.empty.put 1 c).put 2 c⟩
  have htable : table.Built :=
    .register 2 c (.register 1 c (.new 2 1 rfl) rfl) rfl
  let inbox : Inbox := .ofList [(1, 2), (2, 0)]
  have hregistered : ∀ i ∈ inbox.keys, table.contains i = true := by decide
  have hweights : Always (drawWeight 1 weightBits : StateM Ones Scalar) fun weight =>
      ∃ w : Int, 1 ≤ w ∧ w ≤ 2 ^ 128 - 1 ∧ weight = Scalar.ofInt w :=
    fun _ => ⟨1, by decide, by decide, rfl⟩
  have hrow : powers (Scalar.ofInt 3) table.threshold = .ok [1] := rfl
  obtain ⟨tree, -, hrun, hisolates⟩ := findInvalid_isolates htable hregistered hrow hweights ⟨⟩
  have hnobody : ((findInvalid 1 inbox table [1] : ExceptT Error (StateM Ones) _).run.run ⟨⟩).1 =
      .ok [] := by
    have hsorted : inbox.bySender = [(1, 2), (2, 0)] := List.mergeSort_of_pairwise (by decide)
    rw [findInvalid, hsorted, bisect]
    rfl
  refine ⟨table, inbox, [1], tree, htable, hregistered, hrow, ?_, hrun, hisolates,
    (Except.ok.inj (hnobody.symm.trans hrun)).symm⟩
  have hfails : ∀ i share, table.commitmentOf i = .ok c → c.verifyShare share 3 = false →
      ¬ Passes table 3 (i, share) := by
    rintro i share hc hshare ⟨_, hc', hpasses⟩
    obtain rfl := Except.ok.inj (hc.symm.trans hc')
    exact absurd (hshare.symm.trans hpasses) (by decide)
  intro i hi
  rcases List.mem_pair.1 hi with rfl | rfl
  · exact ⟨2, rfl, hfails 1 2 rfl (by decide)⟩
  · exact ⟨0, rfl, hfails 2 0 rfl (by decide)⟩

end BatchCheck

end ThresholdKeygen
