import ThresholdKeygen.Proofs.Draws
import ThresholdKeygen.Proofs.WeightedParty

/-!
# Own draws

When every position draws from a source of its own, what a member draws does not depend on what the
others have drawn before. A computation is confined to a position when it touches no other source;
the computations of participants and parties are confined to their positions. Main statements:
`Participant.confined_verifyShares` and `WeightedParty.confined_verifyShares`.
-/

namespace ThresholdKeygen

variable {τ : Type} {α β : Type}

/-- A source of randomness for every position. -/
@[ext]
structure Sources (τ : Type) where
  of : Int → τ

namespace Sources

/-- The sources when that of a position has become another one. -/
def put (sources : Sources τ) (who : Int) (source : τ) : Sources τ :=
  ⟨Function.update sources.of who source⟩

@[simp]
theorem of_put_self (sources : Sources τ) (who : Int) (source : τ) :
    (sources.put who source).of who = source := Function.update_self ..

theorem of_put_of_ne {who other : Int} (h : other ≠ who) (sources : Sources τ) (source : τ) :
    (sources.put who source).of other = sources.of other := Function.update_of_ne h ..

@[simp]
theorem put_of (sources : Sources τ) (who : Int) : sources.put who (sources.of who) = sources :=
  Sources.ext (Function.update_eq_self ..)

@[simp]
theorem put_put (sources : Sources τ) (who : Int) (first second : τ) :
    (sources.put who first).put who second = sources.put who second :=
  Sources.ext (Function.update_idem ..)

/-- Who draws, draws from the own source. -/
instance [RandomSource τ] : RandomSource (Sources τ) where
  nextScalar who sources :=
    let (s, rest) := RandomSource.nextScalar who (sources.of who)
    (s, sources.put who rest)
  nextWeight who bits sources :=
    let (w, rest) := RandomSource.nextWeight who bits (sources.of who)
    (w, sources.put who rest)

end Sources

/-! ### Confined computations -/

/-- That a computation is one on the source of a position. -/
def Confined (who : Int) (m : StateM (Sources τ) α) : Prop :=
  ∃ own : StateM τ α, ∀ sources, m.run sources =
    ((own.run (sources.of who)).1, sources.put who (own.run (sources.of who)).2)

namespace Confined

variable {who : Int}

theorem pure (a : α) : Confined who (pure a : StateM (Sources τ) α) :=
  ⟨Pure.pure a, fun sources => Prod.ext rfl (sources.put_of who).symm⟩

theorem bind {m : StateM (Sources τ) α} {f : α → StateM (Sources τ) β} (hm : Confined who m)
    (hf : ∀ a, Confined who (f a)) : Confined who (m >>= f) := by
  obtain ⟨own, hown⟩ := hm
  choose next hnext using hf
  refine ⟨own >>= next, fun sources => ?_⟩
  rw [StateT.run_bind, StateT.run_bind, hown]
  exact (hnext _ _).trans (by rw [Sources.of_put_self, Sources.put_put]; rfl)

/-- What a confined computation comes to only depends on the source of its position. -/
theorem run_eq {m : StateM (Sources τ) α} (h : Confined who m) {sources sources' : Sources τ}
    (hsame : sources'.of who = sources.of who) :
    m.run sources' = ((m.run sources).1, sources'.put who ((m.run sources).2.of who)) := by
  obtain ⟨own, hown⟩ := h
  rw [hown, hown, hsame, Sources.of_put_self]

/-- A confined computation leaves the sources of the other positions alone. -/
theorem of_run {m : StateM (Sources τ) α} (h : Confined who m) (sources : Sources τ) {other : Int}
    (hne : other ≠ who) : (m.run sources).2.of other = sources.of other := by
  obtain ⟨own, hown⟩ := h
  rw [hown, Sources.of_put_of_ne hne]

/-! ### Computations that may refuse -/

/-- A step that may refuse, and what follows it. -/
theorem bindExcept {m : ExceptT Error (StateM (Sources τ)) α}
    {f : α → ExceptT Error (StateM (Sources τ)) β} (hm : Confined who m.run)
    (hf : ∀ a, Confined who (f a).run) : Confined who (m >>= f).run := by
  rw [ExceptT.run_bind]
  refine .bind hm fun answer => ?_
  cases answer with
  | ok a => exact hf a
  | error refusal => exact .pure _

/-- A step that draws nothing. -/
theorem steady (x : Except Error α) :
    Confined who (liftM x : ExceptT Error (StateM (Sources τ)) α).run := .pure x

/-- A step that refuses. -/
theorem throw (refusal : Error) :
    Confined who (throw refusal : ExceptT Error (StateM (Sources τ)) α).run := .pure _

/-- A step that only draws. -/
theorem lift {m : StateM (Sources τ) α} (h : Confined who m) :
    Confined who (liftM m : ExceptT Error (StateM (Sources τ)) α).run :=
  .bind h fun _ => .pure _

end Confined

/-! ### Draws -/

variable [RandomSource τ] {K : Type} [Suite K] (who : Int)

theorem confined_drawWeight (bits : Nat) :
    Confined who (drawWeight who bits : StateM (Sources τ) Scalar) :=
  ⟨drawWeight who bits, fun _ => rfl⟩

theorem confined_drawWeights (bits count : Nat) :
    Confined who (drawWeights who bits count : StateM (Sources τ) (List Scalar)) := by
  induction count with
  | zero => exact .pure _
  | succ count ih => exact .bind (confined_drawWeight who bits) fun _ => .bind ih fun _ => .pure _

namespace BatchCheck

theorem confined_freshWeights (count : Nat) :
    Confined who (freshWeights who count : StateM (Sources τ) (List Scalar)) := by
  rw [freshWeights]
  split
  · exact .pure _
  · exact confined_drawWeights who weightBits count

theorem confined_holds (shares : List (Int × Scalar)) (table : CommitmentTable K)
    (row : List Scalar) :
    Confined who (holds who shares table row : ExceptT Error (StateM (Sources τ)) Bool).run := by
  rw [holds]
  split
  · exact .pure _
  · exact .bindExcept (.lift (confined_freshWeights who _)) fun _ => .steady _

theorem confined_bisect (table : CommitmentTable K) (row : List Scalar)
    (shares : List (Int × Scalar)) :
    Confined who (bisect who table row shares :
      ExceptT Error (StateM (Sources τ)) (List Int)).run := by
  induction shares using bisect.induct with
  | case1 shares ihleft ihright =>
    rw [bisect]
    refine .bindExcept (confined_holds who shares table row) fun passed => ?_
    split
    · exact .pure _
    · split
      · exact .pure _
      · rename_i hmany
        exact .bindExcept (ihleft hmany) fun _ => .bindExcept (ihright hmany) fun _ => .pure _

end BatchCheck

theorem Delivery.confined_weighed (delivery : Delivery) :
    Confined who (delivery.weighed who : ExceptT Error (StateM (Sources τ)) Inbox).run := by
  rw [weighed]
  split
  · exact .pure _
  · exact .bindExcept (.lift (BatchCheck.confined_freshWeights who _)) fun _ => .throw _

/-! ### Participants -/

namespace Participant

variable (p : Participant K)

theorem confined_culprits (inbox : Inbox) (row : List Scalar) (index : Int) :
    Confined p.position (p.culprits inbox row index :
      ExceptT Error (StateM (Sources τ)) (List Int)).run := by
  refine .bindExcept (BatchCheck.confined_bisect p.position _ row _) fun isolated => ?_
  split
  · exact .steady _
  · exact .pure _

omit [Suite K] in
theorem confined_requireWhole (shares : Nat) :
    Confined p.position (p.requireWhole shares : ExceptT Error (StateM (Sources τ)) Unit).run := by
  rw [requireWhole]
  split
  · exact .bindExcept (.lift (BatchCheck.confined_freshWeights _ _)) fun _ => .throw _
  · exact .pure _

theorem confined_checkShares (delivery : Delivery) (index : Int) :
    Confined p.position (p.checkShares delivery index :
      ExceptT Error (StateM (Sources τ)) Unit).run := by
  refine .bindExcept (.steady _) fun _ => .bindExcept (.steady _) fun powerMap =>
    .bindExcept (.steady _) fun _ => ?_
  dsimp only
  split
  · exact .throw _
  · refine .bindExcept (.steady _) fun row =>
      .bindExcept (Delivery.confined_weighed _ delivery) fun inbox =>
      .bindExcept (p.confined_requireWhole _) fun _ =>
      .bindExcept (BatchCheck.confined_holds _ _ _ row) fun passed => ?_
    split
    · exact .pure _
    · exact .bindExcept (p.confined_culprits inbox row index) fun _ => .throw _

theorem confined_verifyShares (delivery : Option Delivery) (index : Option Int) :
    Confined p.position (p.verifyShares delivery index :
      StateM (Sources τ) (Answer (Participant K) Unit)) := by
  refine .bind ?_ fun _ => .pure _
  exact .bindExcept (.steady _) fun _ => .bindExcept (.steady _) fun _ =>
    .bindExcept (.steady _) fun _ => p.confined_checkShares _ _

end Participant

/-! ### Weighted parties -/

namespace WeightedParty

/-- Checking slots leaves the participant of a party alone, so that all draws are for its
position. -/
theorem confined_checkSlots (keys : List Int) (w : WeightedParty K) :
    Confined w.position (w.checkSlots keys :
      StateM (Sources τ) (Answer (WeightedParty K) (List (Int × List Int)))) := by
  induction keys generalizing w with
  | nil => exact .pure _
  | cons key rest ih =>
    rw [checkSlots]
    split
    · exact .pure _
    · refine .bind (w.core.confined_checkShares _ key) fun checked => ?_
      split
      · split
        · rename_i w' hadvance
          have hcore : w'.position = w.position := by
            rw [position, position, core_advanceSlot hadvance]
          rw [← hcore]
          exact ih w'
        · exact .pure _
      · split
        · exact .bind (ih w) fun _ => .pure _
        · exact .pure _

theorem confined_verifyShares (w : WeightedParty K) :
    Confined w.position (w.verifyShares :
      StateM (Sources τ) (Answer (WeightedParty K) Unit)) := by
  rw [verifyShares]
  split
  · exact .pure _
  · refine .bind (confined_checkSlots _ w) fun answer => ?_
    split <;> exact .pure _

end WeightedParty

end ThresholdKeygen
