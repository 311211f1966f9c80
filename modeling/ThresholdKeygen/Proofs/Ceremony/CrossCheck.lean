import ThresholdKeygen.Ceremony.Plain
import ThresholdKeygen.Proofs.Ceremony.Round
import ThresholdKeygen.Proofs.Ceremony.Turns
import ThresholdKeygen.Proofs.Participant.Consistent

/-!
# Cross-checks

At the end of a plain ceremony the members compare what they have derived. Each looks for its own
public share only, but in the hands of everybody, so that together they see whatever public shares
somebody holds, as when forged public maps were imported. Main statement: `deriveGroupKey_discerns`,
there is a result exactly when the members are unanimous, and else those are named who differ.
-/

namespace ThresholdKeygen

variable {K : Type} [Suite K] {σ : Type}

/-- Points that may be missing are the same when their encodings are. -/
theorem beq_iff_toBytes_eq {a b : Option (Point K)} :
    (a == b) = true ↔ a.map Point.toBytes = b.map Point.toBytes := by
  cases a with
  | none => cases b <;> simp
  | some p =>
    cases b with
    | none => simp
    | some q =>
      change (p.toBytes == q.toBytes) = true ↔ _
      simp

theorem bne_iff_toBytes_ne {a b : Option (Point K)} :
    (a != b) = true ↔ a.map Point.toBytes ≠ b.map Point.toBytes := by
  rw [bne, Bool.not_eq_true', ← Bool.not_eq_true, beq_iff_toBytes_eq]

theorem bne_eq_false_iff_toBytes_eq {a b : Option (Point K)} :
    (a != b) = false ↔ a.map Point.toBytes = b.map Point.toBytes := by
  rw [← Bool.not_eq_true, bne_iff_toBytes_ne, not_not]

namespace Participant

/-! ### Members before the last round -/

/-- That a participant at a position is ready for the last round: it has not failed, has come far
enough, holds the whole commitments of all dealers, and has published the image of a signing share
for its own position. Nothing is said of its other public shares. -/
structure Poised (n x : Int) (share : Scalar) (p : Participant K) : Prop where
  n_eq : p.n = n
  position_eq : p.position = x
  failure_eq : p.failure = none
  le_stage : .publicSharesComputed ≤ p.stage
  missing_eq : p.commitments.missing = []
  points_ne_nil : ∀ i c, p.commitments.slots.get? i = some c → c.points ≠ []
  gaps_eq : p.gaps.keys = []
  own_eq : p.publicShares.get? x = some (.ofScalar share)

/-- The group key that a participant derives, if it derives one. -/
def derivedKey (p : Participant K) : Option (Point K) := p.deriveGroupKey.1.toOption

namespace Poised

variable {n x : Int} {share : Scalar} {p : Participant K} (h : p.Poised n x share)

include h

/-- All constants are there. -/
theorem exists_sumConstants : ∃ key, p.sumConstants = .ok key := by
  have hconstant : ∀ (i : Nat) entry, p.commitments.items[i]? = some entry →
      ∃ point, entry.2.constant = .ok point ∧ True := by
    intro i entry hentry
    obtain ⟨dealer, -, hslot⟩ := List.mem_filterMap.1 (List.mem_of_getElem? hentry)
    obtain ⟨c, hc, rfl⟩ := Option.map_eq_some_iff.1 hslot
    have hpoints := List.length_pos_iff.2 (h.points_ne_nil dealer c hc)
    exact ⟨_, pointAt_natCast hpoints, trivial⟩
  obtain ⟨constants, hconstants, -⟩ := exists_mapM_eq_ok hconstant
  have hvalues : p.gaps.values = [] := by
    have hentries : p.gaps.entries = [] := List.map_eq_nil_iff.1 h.gaps_eq
    rw [Mapping.values, hentries, List.map_nil]
  refine ⟨Point.sum constants, ?_⟩
  rw [sumConstants, hconstants, ok_bind, hvalues]
  rfl

theorem exists_deriveGroupKey : ∃ key, p.deriveGroupKey =
    (.ok key, { p with groupKey := some key }.advance .groupKeyDerived) := by
  have hcomplete : p.requireCommitments = .ok () := by
    rw [requireCommitments, h.missing_eq]
    rfl
  rw [deriveGroupKey, requireStage_eq h.failure_eq h.le_stage, ok_bind, hcomplete, ok_bind]
  cases hkey : p.groupKey with
  | some key => exact ⟨key, rfl⟩
  | none =>
    obtain ⟨key, hsum⟩ := h.exists_sumConstants
    refine ⟨key, ?_⟩
    rw [hsum]
    rfl

/-- Of what members compare, deriving the group key changes nothing but the group key. -/
theorem deriveGroupKey_spec : (Ceremony.forget p.deriveGroupKey).1 = .ok () ∧
    p.deriveGroupKey.2.groupKey = p.derivedKey ∧ p.deriveGroupKey.2.n = n ∧
      p.deriveGroupKey.2.position = x ∧
        p.deriveGroupKey.2.publicShares = p.publicShares := by
  obtain ⟨key, hkey⟩ := h.exists_deriveGroupKey
  rw [derivedKey, hkey]
  exact ⟨rfl, rfl, h.n_eq, h.position_eq, rfl⟩

end Poised

end Participant

omit [Suite K] in
theorem Participant.publicShareOf_eq {p : Participant K} {index : Int} (h : index ∈ upTo p.n) :
    p.publicShareOf index = .ok (p.publicShares.get? index) := by
  obtain ⟨h₁, h₂⟩ := mem_upTo.1 h
  rw [publicShareOf, checkIndex_eq h₁ h₂]
  rfl

omit [Suite K] in
theorem Participant.publicShareOf_eq_error {p : Participant K} {index : Int}
    (h : index ∉ upTo p.n) : p.publicShareOf index =
      .error (.parameters (.shareIndexOutside index p.n)) := by
  rw [publicShareOf, checkIndex, if_neg (mt mem_upTo.2 h)]
  rfl

namespace Ceremony

/-! ### The check of one member -/

variable {M : Type} [Member M K]

/-- That a member has the group key of the first one, and everybody has the public shares of some
indices that it has. -/
structure Agrees (members : List M) (indices : List Int) (member : M) : Prop where
  key : ((Member.core member).groupKey !=
    members.head?.bind fun first => (Member.core first).groupKey) = false
  shares : ∀ x ∈ indices, ∀ other ∈ members, ((Member.core other).publicShares.get? x !=
    (Member.core member).publicShares.get? x) = false

/-- That a member has another group key than the first one, or that somebody has another public
share of one of some indices than it has. -/
inductive Differs (members : List M) (indices : List Int) (member : M) : Prop where
  | key (h : ((Member.core member).groupKey !=
      members.head?.bind fun first => (Member.core first).groupKey) = true) :
      Differs members indices member
  | share {x : Int} (hx : x ∈ indices) {other : M} (hother : other ∈ members)
      (hmember : x ∈ upTo (Member.core member).n) (hindex : x ∈ upTo (Member.core other).n)
      (h : ((Member.core other).publicShares.get? x !=
        (Member.core member).publicShares.get? x) = true) : Differs members indices member

/-- Looks for the public share of an index that a member has in the hands of all. -/
def compareIndex (members : List M) (member : M) (refusal : M → Error) (index : Int) :
    Except Error Unit := do
  let own ← (Member.core member).publicShareOf index
  members.forM fun other => do
    if (← (Member.core other).publicShareOf index) != own then throw (refusal other)

/-- What comparing an index comes to: all agree, or the first who does not is reported, or somebody
has no such index. -/
theorem compareIndex_cases (members : List M) (member : M) (refusal : M → Error) (index : Int) :
    compareIndex members member refusal index = .ok () ∧
        (∀ other ∈ members, ((Member.core other).publicShares.get? index !=
          (Member.core member).publicShares.get? index) = false) ∨
      (∃ other ∈ members, compareIndex members member refusal index = .error (refusal other) ∧
        index ∈ upTo (Member.core member).n ∧ index ∈ upTo (Member.core other).n ∧
          ((Member.core other).publicShares.get? index !=
            (Member.core member).publicShares.get? index) = true) ∨
      ∃ other, (other = member ∨ other ∈ members) ∧ index ∉ upTo (Member.core other).n ∧
        compareIndex members member refusal index =
          .error (.parameters (.shareIndexOutside index (Member.core other).n)) := by
  rw [compareIndex]
  by_cases hmember : index ∈ upTo (Member.core member).n
  · rw [Participant.publicShareOf_eq hmember, ok_bind]
    obtain ⟨hpass, hall⟩ | ⟨other, hother, e, he, hfail⟩ := forM_cases (fun other => do
      if (← (Member.core other).publicShareOf index) !=
          (Member.core member).publicShares.get? index then throw (refusal other)) members
    · refine .inl ⟨hpass, fun other hother => ?_⟩
      have hcheck := hall other hother
      by_cases hindex : index ∈ upTo (Member.core other).n
      · rw [Participant.publicShareOf_eq hindex, ok_bind] at hcheck
        split at hcheck
        · cases hcheck
        · rwa [Bool.not_eq_true] at *
      · rw [Participant.publicShareOf_eq_error hindex] at hcheck
        cases hcheck
    · by_cases hindex : index ∈ upTo (Member.core other).n
      · rw [Participant.publicShareOf_eq hindex, ok_bind] at he
        split at he
        · rename_i hdiffers
          obtain rfl := Except.error.inj he
          exact .inr (.inl ⟨other, hother, hfail, hmember, hindex, hdiffers⟩)
        · cases he
      · rw [Participant.publicShareOf_eq_error hindex] at he
        obtain rfl := Except.error.inj he
        exact .inr (.inr ⟨other, .inr hother, hindex, hfail⟩)
  · rw [Participant.publicShareOf_eq_error hmember]
    exact .inr (.inr ⟨member, .inl rfl, hmember, rfl⟩)

/-- Comparing an index passes when everybody has it, with the same public share. -/
theorem compareIndex_eq_ok_iff {members : List M} {member : M} {refusal : M → Error} {index : Int} :
    compareIndex members member refusal index = .ok () ↔
      ∃ own, (Member.core member).publicShareOf index = .ok own ∧
        ∀ q ∈ members.map Member.core, ∃ share, q.publicShareOf index = .ok share ∧
          (share != own) = false := by
  rw [compareIndex, bind_eq_ok_iff]
  refine exists_congr fun own => and_congr_right fun _ => ?_
  rw [forM_eq_ok_iff, List.forall_mem_map]
  refine forall₂_congr fun other _ => ?_
  rw [bind_eq_ok_iff]
  refine exists_congr fun share => and_congr_right fun _ => ?_
  cases hshare : share != own with
  | true => exact ⟨nofun, nofun⟩
  | false => exact ⟨fun _ => rfl, fun _ => rfl⟩

end Ceremony

namespace Plain

open Ceremony Participant

/-- Who agrees with all passes the check; who does not is named itself. -/
theorem crossCheck_cases (members : List (Participant K)) (p : Participant K) :
    crossCheck members p = .ok () ∧ Agrees members [p.position] p ∨
      (∃ finding, crossCheck members p =
        .error (.failedCheck .publicShareMismatch finding [p.position]) ∧
          Differs members [p.position] p) ∨
      ∃ other, (other = p ∨ other ∈ members) ∧ p.position ∉ upTo other.n ∧
        crossCheck members p = .error (.parameters (.shareIndexOutside p.position other.n)) := by
  rw [crossCheck]
  split
  · rename_i hkey
    exact .inr (.inl ⟨_, rfl, .key hkey⟩)
  · rename_i hkey
    obtain ⟨hpass, hall⟩ | ⟨other, hother, hfail, hp, hindex, hdiffers⟩ | houtside :=
      compareIndex_cases members p (fun other => .failedCheck .publicShareMismatch
        (.participantShare p.position other.position) [p.position]) p.position
    · refine .inl ⟨hpass, Bool.eq_false_iff.2 hkey, ?_⟩
      intro x hx
      rw [List.mem_singleton.1 hx]
      exact hall
    · exact .inr (.inl ⟨_, hfail, .share (List.mem_singleton_self _) hother hp hindex hdiffers⟩)
    · exact .inr (.inr houtside)

/-! ### The check of all -/

/-- That a member derives another group key than the first one, or that some member has another
public share for its position than the image of its signing share. -/
def Dissents (share : Int → Scalar) (members : List (Participant K)) (p : Participant K) : Prop :=
  (p.derivedKey != members.head?.bind derivedKey) = true ∨ ∃ other ∈ members,
    (other.publicShares.get? p.position != some (.ofScalar (share p.position))) = true

/-- That all members derive the same group key, and hold the images of the signing shares as the
public shares of all positions. -/
structure Unanimous (n : Int) (share : Int → Scalar) (members : List (Participant K)) : Prop where
  keys : ∀ p ∈ members, ∀ q ∈ members, (p.derivedKey == q.derivedKey) = true
  shares : ∀ p ∈ members, ∀ x ∈ upTo n,
    (p.publicShares.get? x == some (.ofScalar (share x))) = true

variable {config : Config} {inboxes : Mapping Int Inbox} {share : Int → Scalar}
  {c : Ceremony (Participant K)}

/-- The partial checks of all members add up to a check of the whole table. -/
theorem unanimous_iff
    (h : c.Seats config inboxes fun x p => p.Poised config.participants x (share x)) :
    Unanimous config.participants share c.members ↔
      ∀ p ∈ c.members, ¬ Dissents share c.members p := by
  constructor
  · rintro hall p hp (hkey | ⟨other, hother, hshare⟩)
    · cases hmembers : c.members with
      | nil =>
        rw [hmembers] at hp
        cases hp
      | cons first others =>
        have hfirst := hall.keys p hp first (by rw [hmembers]; exact .head _)
        rw [hmembers, List.head?_cons, Option.bind_some, bne, hfirst] at hkey
        cases hkey
    · obtain ⟨x, hx, hseat⟩ := h.exists_seat hp
      rw [hseat.position_eq, bne, hall.shares other hother x hx] at hshare
      cases hshare
  · intro hnone
    refine ⟨fun p hp q hq => ?_, fun p hp x hx => ?_⟩
    · have hfirst : ∀ q ∈ c.members, q.derivedKey.map Point.toBytes =
          (c.members.head?.bind derivedKey).map Point.toBytes := by
        intro q hq
        by_contra hkey
        exact hnone q hq (.inl (bne_iff_toBytes_ne.2 hkey))
      exact beq_iff_toBytes_eq.2 ((hfirst p hp).trans (hfirst q hq).symm)
    · obtain ⟨place, owner, rfl, howner⟩ := h.exists_member hx
      have hmem := List.mem_of_getElem? howner
      have hposition := (h.seated place owner howner).position_eq
      by_contra hshare
      refine hnone owner hmem (.inr ⟨p, hp, ?_⟩)
      rw [hposition, bne, Bool.not_eq_true', ← Bool.not_eq_true]
      exact hshare

/-- What the last round comes to: a result when the members are unanimous, and otherwise an abort
that reports and blames exactly the positions of those who dissent. -/
structure Discerned (n : Int) (share : Int → Scalar) (members : List (Participant K))
    (answer : Except Error (Result K)) : Prop where
  isOk_iff : (∃ result, answer = .ok result) ↔ Unanimous n share members
  aborted : ¬ Unanimous n share members → ∃ failures,
    answer = .error (.roundAborted "cross-check" failures) ∧
      ∀ x, (x ∈ failures.map Prod.fst ↔ ∃ p ∈ members, p.position = x ∧ Dissents share members p) ∧
        (x ∈ (Error.roundAborted "cross-check" failures).offenders ↔
          ∃ p ∈ members, p.position = x ∧ Dissents share members p)

/-- That some refusals are those of the members who dissent, each of which blames its position. -/
structure Dissenters (share : Int → Scalar) (members : List (Participant K))
    (refused : List (Int × Error)) : Prop where
  dissents : ∀ entry ∈ refused, ∃ p ∈ members, p.position = entry.1 ∧ Dissents share members p ∧
    ∃ finding, entry.2 = .failedCheck .publicShareMismatch finding [entry.1]
  mem_refused : ∀ p ∈ members, Dissents share members p → ∃ refusal, (p.position, refusal) ∈ refused

namespace Dissenters

variable {n : Int} {members : List (Participant K)} {refused : List (Int × Error)}
  (h : Dissenters share members refused)

include h

theorem isProtocol : ∀ entry ∈ refused, entry.2.isProtocol = true := by
  intro entry hentry
  obtain ⟨_, -, -, -, finding, hrefusal⟩ := h.dissents entry hentry
  rw [hrefusal]
  rfl

variable (hunanimous : Unanimous n share members ↔ ∀ p ∈ members, ¬ Dissents share members p)

include hunanimous

theorem discerned_ok (hnone : refused = []) {result : Result K} :
    Discerned n share members (.ok result) := by
  have hall : Unanimous n share members := by
    refine hunanimous.2 fun p hp hdissents => ?_
    obtain ⟨refusal, hmem⟩ := h.mem_refused p hp hdissents
    rw [hnone] at hmem
    cases hmem
  exact ⟨iff_of_true ⟨result, rfl⟩ hall, fun hnot => absurd hall hnot⟩

theorem discerned_error (hsome : refused ≠ []) :
    Discerned n share members (.error (.abortRound "cross-check" refused)) := by
  obtain ⟨entry, hentry⟩ := List.exists_mem_of_ne_nil refused hsome
  have hnot : ¬ Unanimous n share members := by
    obtain ⟨p, hp, -, hdissents, -⟩ := h.dissents entry hentry
    exact fun hall => hunanimous.1 hall p hp hdissents
  refine ⟨iff_of_false (by rintro ⟨_, ⟨⟩⟩) hnot, fun _ => ⟨_, rfl, fun x => ⟨?_, ?_⟩⟩⟩
  · rw [Error.mem_positions_byPosition, List.mem_map]
    constructor
    · rintro ⟨entry, hentry, rfl⟩
      obtain ⟨p, hp, hposition, hdissents, -⟩ := h.dissents entry hentry
      exact ⟨p, hp, hposition, hdissents⟩
    · rintro ⟨p, hp, rfl, hdissents⟩
      obtain ⟨refusal, hmem⟩ := h.mem_refused p hp hdissents
      exact ⟨_, hmem, rfl⟩
  · rw [Error.mem_offenders_roundAborted]
    constructor
    · rintro ⟨entry, hentry, hblamed⟩
      obtain ⟨p, hp, hposition, hdissents, finding, hrefusal⟩ :=
        h.dissents entry (Error.mem_byPosition hentry)
      rw [hrefusal, Error.failedCheck, Error.offenders, mem_ascending,
        List.mem_singleton] at hblamed
      exact ⟨p, hp, hposition.trans hblamed.symm, hdissents⟩
    · rintro ⟨p, hp, rfl, hdissents⟩
      obtain ⟨refusal, hmem⟩ := h.mem_refused p hp hdissents
      have hposition : p.position ∈ (Error.byPosition refused).map Prod.fst :=
        Error.mem_positions_byPosition.2 (List.mem_map.2 ⟨_, hmem, rfl⟩)
      obtain ⟨entry, hentry, heq⟩ := List.mem_map.1 hposition
      obtain ⟨_, -, -, -, finding, hrefusal⟩ := h.dissents entry (Error.mem_byPosition hentry)
      refine ⟨entry, hentry, ?_⟩
      rw [hrefusal, Error.failedCheck, Error.offenders, mem_ascending, heq]
      exact List.mem_singleton_self _

end Dissenters

/-- Who has derived the group key passes the check unless it dissents. -/
theorem crossCheck_derived
    (h : c.Seats config inboxes fun x p => p.Poised config.participants x (share x))
    {p : Participant K} (hp : p ∈ c.members) {members : List (Participant K)}
    (hmembers : members = c.members.map fun q => q.deriveGroupKey.2) :
    crossCheck members p.deriveGroupKey.2 = .ok () ∧ ¬ Dissents share c.members p ∨
      ∃ finding, crossCheck members p.deriveGroupKey.2 =
        .error (.failedCheck .publicShareMismatch finding [p.position]) ∧
          Dissents share c.members p := by
  have hspec : ∀ q ∈ c.members, q.deriveGroupKey.2.groupKey = q.derivedKey ∧
      q.deriveGroupKey.2.n = config.participants ∧
        q.deriveGroupKey.2.publicShares = q.publicShares := by
    intro q hq
    obtain ⟨_, -, hseat⟩ := h.exists_seat hq
    obtain ⟨-, hkey, hn, -, hshares⟩ := hseat.deriveGroupKey_spec
    exact ⟨hkey, hn, hshares⟩
  have hfirst : members.head?.bind (·.groupKey) = c.members.head?.bind derivedKey := by
    rw [hmembers]
    cases hc : c.members with
    | nil => rfl
    | cons first others => exact (hspec first (by rw [hc]; exact .head _)).1
  obtain ⟨x, hx, hseat⟩ := h.exists_seat hp
  obtain ⟨hkey, -, hshares⟩ := hspec p hp
  have hposition : p.deriveGroupKey.2.position = p.position :=
    hseat.deriveGroupKey_spec.2.2.2.1.trans hseat.position_eq.symm
  have hown : p.publicShares.get? p.position = some (.ofScalar (share p.position)) := by
    rw [hseat.position_eq]
    exact hseat.own_eq
  have hmem : ∀ q ∈ c.members, q.deriveGroupKey.2 ∈ members := by
    intro q hq
    rw [hmembers]
    exact List.mem_map_of_mem hq
  obtain ⟨hpass, hagrees⟩ | ⟨finding, hfail, hdiffers⟩ | ⟨other, hother, houtside, -⟩ :=
    crossCheck_cases members p.deriveGroupKey.2
  · refine .inl ⟨hpass, ?_⟩
    rintro (hdissent | ⟨other, hother, hdissent⟩)
    · rw [← hkey, ← hfirst] at hdissent
      exact Bool.false_ne_true (hagrees.key.symm.trans hdissent)
    · have hagree := hagrees.shares _ (List.mem_singleton_self _) _ (hmem other hother)
      rw [← hown, ← hshares, ← (hspec other hother).2.2, ← hposition] at hdissent
      exact Bool.false_ne_true (hagree.symm.trans hdissent)
  · refine .inr ⟨finding, hposition ▸ hfail, ?_⟩
    cases hdiffers with
    | key hdiffers =>
      refine .inl ?_
      rw [← hkey, ← hfirst]
      exact hdiffers
    | share hx hother _ _ hdiffers =>
      rw [hmembers] at hother
      obtain ⟨other, hmember, rfl⟩ := List.mem_map.1 hother
      refine .inr ⟨other, hmember, ?_⟩
      rw [← hown, ← hshares, ← (hspec other hmember).2.2, ← hposition,
        ← List.mem_singleton.1 hx]
      exact hdiffers
  · have hn : other.n = config.participants := by
      obtain rfl | hother := hother
      · exact (hspec p hp).2.1
      · rw [hmembers] at hother
        obtain ⟨q, hq, rfl⟩ := List.mem_map.1 hother
        exact (hspec q hq).2.1
    rw [hposition, hseat.position_eq, hn] at houtside
    exact absurd hx houtside

/-- The check of all members reports those who dissent. -/
theorem dissenters_of_refused
    (h : c.Seats config inboxes fun x p => p.Poised config.participants x (share x))
    {members : List (Participant K)} {refused : List (Int × Error)}
    (hmembers : members = c.members.map fun q => (forget q.deriveGroupKey).2)
    (hrefused : ∀ entry, entry ∈ refused ↔ ∃ q ∈ members,
      positionOf q = entry.1 ∧ crossCheck members q = .error entry.2) :
    Dissenters share c.members refused := by
  have hposition : ∀ p ∈ c.members, positionOf p.deriveGroupKey.2 = p.position := by
    intro p hp
    obtain ⟨_, -, hseat⟩ := h.exists_seat hp
    exact hseat.deriveGroupKey_spec.2.2.2.1.trans hseat.position_eq.symm
  refine ⟨fun entry hentry => ?_, fun p hp hdissents => ?_⟩
  · obtain ⟨_, hmember, hentry, hcheck⟩ := (hrefused entry).1 hentry
    rw [hmembers] at hmember
    obtain ⟨p, hp, rfl⟩ := List.mem_map.1 hmember
    replace hentry : p.position = entry.1 := (hposition p hp).symm.trans hentry
    obtain ⟨hpass, -⟩ | ⟨finding, hfail, hdissents⟩ := crossCheck_derived h hp hmembers
    · cases hpass.symm.trans hcheck
    · obtain hrefusal := Except.error.inj (hfail.symm.trans hcheck)
      exact ⟨p, hp, hentry, hdissents, finding, hentry ▸ hrefusal.symm⟩
  · obtain ⟨-, hagrees⟩ | ⟨finding, hfail, -⟩ := crossCheck_derived h hp hmembers
    · exact absurd hdissents hagrees
    · refine ⟨_, (hrefused (p.position, _)).2 ⟨p.deriveGroupKey.2, ?_, hposition p hp, hfail⟩⟩
      rw [hmembers]
      exact List.mem_map_of_mem hp

/-- Whatever public shares its members hold of each other, a ceremony in which all are ready for the
last round ends with a result exactly when they are unanimous. Otherwise the round names those who
dissent, and nobody else. -/
theorem deriveGroupKey_discerns [RandomSource σ]
    (h : c.Seats config inboxes fun x p => p.Poised config.participants x (share x)) :
    (deriveGroupKey : Action σ K (Result K)).Ends c fun answer _ =>
      Discerned config.participants share c.members answer := by
  have hderive : ∀ p ∈ c.members, (forget p.deriveGroupKey).1 = .ok () := by
    intro p hp
    obtain ⟨_, -, hseat⟩ := h.exists_seat hp
    exact hseat.deriveGroupKey_spec.1
  refine .bind ((steadyRound_ends _ _ c).mono ?_)
  rintro _ c₁ ⟨hok, hmembers⟩
  rw [hok.2 hderive]
  refine .bind (.get (.bind ((inspection_ends "cross-check" _ c₁).mono ?_)))
  rintro _ c₂ ⟨-, refused, rfl, hrefused⟩
  have hrefusals := dissenters_of_refused h hmembers hrefused
  by_cases hnone : refused = []
  · rw [settle_eq_ok_iff.2 hnone]
    exact .bind (.get (.pure (hrefusals.discerned_ok (unanimous_iff h) hnone)))
  · rw [settle_of_isProtocol hrefusals.isProtocol hnone]
    exact hrefusals.discerned_error (unanimous_iff h) hnone

/-- A member among two, each of whom has dealt a constant polynomial, before the last round. -/
def memberOfTwo (position : Int) (publicShares : List (Int × Point ResidueKey)) :
    Participant ResidueKey :=
  { newcomer 2 2 1 position (.bytes []) [Scalar.ofInt position] with
    commitments := ⟨2, 1, .ofList ((upTo 2).map fun i => (i, .ofCoefficients [Scalar.ofInt i]))⟩
    publicShares := .ofList publicShares
    stage := .publicSharesComputed }

theorem poised_memberOfTwo {position : Int} {share : Scalar}
    {publicShares : List (Int × Point ResidueKey)}
    (hown : (Mapping.ofList publicShares).get? position = some (.ofScalar share)) :
    (memberOfTwo position publicShares).Poised 2 position share where
  n_eq := rfl
  position_eq := rfl
  failure_eq := rfl
  le_stage := Nat.le_refl _
  missing_eq := rfl
  points_ne_nil := by
    intro i c hc
    rw [memberOfTwo, Mapping.get?_ofList (upTo 2)] at hc
    split at hc
    · obtain rfl := Option.some.inj hc
      exact List.cons_ne_nil _ _
    · cases hc
  gaps_eq := rfl
  own_eq := hown

/-- Two members, the second of whom holds a forged public share of the first. -/
theorem exists_deriveGroupKey_discerns :
    ∃ (config : Config) (c : Ceremony (Participant ResidueKey)) (share : Int → Scalar),
      (c.Seats config .empty fun x p => p.Poised config.participants x (share x)) ∧
      (∃ p ∈ c.members, p.position = 1 ∧ Dissents share c.members p) ∧
      (∃ p ∈ c.members, p.position = 2 ∧ ¬ Dissents share c.members p) ∧
      (deriveGroupKey : Action Tape ResidueKey (Result ResidueKey)).Ends c fun answer _ =>
        Discerned config.participants share c.members answer := by
  let config : Config := ⟨2, 1, none, .bytes [], .broadcast, none⟩
  let first := memberOfTwo 1 [(1, .ofScalar 3), (2, .ofScalar 3)]
  let second := memberOfTwo 2 [(1, .ofScalar 4), (2, .ofScalar 3)]
  have hseats : (⟨config, [first, second], .empty, []⟩ : Ceremony (Participant ResidueKey)).Seats
      config .empty fun x p => p.Poised config.participants x 3 := by
    refine ⟨rfl, rfl, rfl, fun place member hmember => ?_⟩
    match place with
    | 0 =>
      obtain rfl := Option.some.inj hmember
      exact poised_memberOfTwo rfl
    | 1 =>
      obtain rfl := Option.some.inj hmember
      exact poised_memberOfTwo rfl
    | place + 2 => cases hmember
  refine ⟨config, _, fun _ => 3, hseats, ⟨first, .head _, rfl, .inr ⟨second, by simp, ?_⟩⟩,
    ⟨second, by simp, rfl, ?_⟩, deriveGroupKey_discerns hseats⟩
  · decide +kernel
  · rintro (hkey | ⟨other, hother, hdiffers⟩)
    · exact absurd hkey (by decide +kernel)
    · have hagree : ∀ p ∈ [first, second],
          (p.publicShares.get? second.position != some (.ofScalar 3)) = false := by decide +kernel
      rw [hagree other hother] at hdiffers
      cases hdiffers

end Plain

end ThresholdKeygen
