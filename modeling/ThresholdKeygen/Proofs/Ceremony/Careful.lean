import ThresholdKeygen.Ceremony.Plain
import ThresholdKeygen.Proofs.Ceremony.Round
import ThresholdKeygen.Proofs.Ceremony.Turns
import ThresholdKeygen.Proofs.Ordinary
import ThresholdKeygen.Proofs.WeightedParty.Persistence

/-!
# Careful members

In the rounds of a ceremony, a member only goes through operations, and when a verification fails in
one of them, the participant of the member remembers it. This holds of the tasks of all rounds but
the first and the last, which only look.
-/

namespace ThresholdKeygen

variable {K : Type} [Suite K] {σ : Type} [RandomSource σ]

open Relation

/-! ### Members and their steps -/

/-- Members that go through operations, among them all those on their participants, and keep what
they have recorded. -/
class Stepping (M : Type) {K : outParam Type} [Suite K] [Member M K] where
  Step : M → M → Prop
  /-- That a member owns a share index. -/
  Owns : M → Int → Prop
  /-- That a member is in a state to which operations lead. -/
  Settled : M → Prop
  steps_withCore : ∀ {member : M} {p : Participant K},
    ReflTransGen Participant.Step (Member.core member) p →
      ReflTransGen Step member (Member.withCore member p)
  run : ∀ {member member' : M}, Settled member → ReflTransGen Step member member' →
    Settled member' ∧ (Member.core member).Persists (Member.core member') ∧
      ∀ x, Owns member x → Owns member' x

instance : Stepping (Participant K) where
  Step := Participant.Step
  Owns p x := x = p.position
  Settled := Participant.Settled
  steps_withCore h := h
  run h hrun := by
    obtain ⟨hsettled, hpersists⟩ := h.run hrun
    refine ⟨hsettled, hpersists, ?_⟩
    rintro _ rfl
    exact (Participant.parameters_eq_of_run hrun).2.symm

instance : Stepping (WeightedParty K) where
  Step := WeightedParty.Step
  Owns w x := x ∈ w.keys
  Settled := WeightedParty.Settled
  steps_withCore := by
    intro w p h
    refine ReflTransGen.lift (fun p => { w with core := p }) ?_ _ _ h
    rintro p _ ⟨source, operation, _⟩
    exact .perform source (.onCore operation) { w with core := p }
  run h hrun := by
    obtain ⟨hsettled, hpersists⟩ := h.run hrun
    exact ⟨hsettled, hpersists.core, hpersists.key_mem⟩

variable {M : Type} [Member M K] [Stepping M]

/-! ### Careful operations -/

/-- That an operation on a member is made of steps, and that the participant of the member remembers
a verification that fails. -/
structure Careful {α : Type} (member : M) (answer : Answer M α) : Prop where
  steps : ReflTransGen Stepping.Step member answer.2
  records : Refuses answer.1 fun refusal =>
    refusal.isVerification = true → (Member.core answer.2).aborted = true

namespace Careful

variable {α β : Type} {member : M}

/-- There is nothing to remember where refusals are ordinary. -/
theorem records_of_ordinary {result : Except Error α} (h : Ordinary result) {P : Prop} :
    Refuses result fun refusal => refusal.isVerification = true → P := by
  refine h.mono fun refusal hrefusal hverification => ?_
  rw [Error.isVerification_eq_false hrefusal] at hverification
  cases hverification

theorem ofOrdinary {answer : Answer M α} (hsteps : ReflTransGen Stepping.Step member answer.2)
    (h : Ordinary answer.1) : Careful member answer where
  steps := hsteps
  records := records_of_ordinary h

theorem forget {answer : Answer M α} (h : Careful member answer) :
    Careful member (Ceremony.forget answer) := ⟨h.steps, h.records.map _⟩

theorem andThen {first : Answer M α} {second : M → Answer M Unit} (hfirst : Careful member first)
    (hsecond : ∀ member, Careful member (second member)) :
    Careful member (Ceremony.andThen first second) := by
  obtain ⟨result, member'⟩ := first
  cases result with
  | error refusal => exact ⟨hfirst.steps, .error (hfirst.records refusal rfl)⟩
  | ok a => exact ⟨hfirst.steps.trans (hsecond member').steps, (hsecond member').records⟩

theorem onCore [LawfulMember M] {operation : Participant K → Answer (Participant K) α}
    (h : Careful (Member.core member) (operation (Member.core member))) :
    Careful member (Ceremony.onCore member operation) := by
  refine ⟨Stepping.steps_withCore h.steps, ?_⟩
  refine h.records.mono fun refusal hrecords hverification => ?_
  rw [Ceremony.onCore, LawfulMember.core_withCore]
  exact hrecords hverification

end Careful

namespace Participant

variable (p : Participant K)

/-- An operation that draws nothing is a step. -/
theorem steps_perform (operation : Operation K) :
    ReflTransGen Step p ((operation.perform p).run (Tape.new [] [] "")).1 :=
  .single (.perform _ operation p)

omit [Suite K] in
theorem aborted_abort (refusal : Error) : (p.abort refusal).aborted = true := by
  rw [aborted, abort]
  cases p.failure <;> rfl

omit [Suite K] in
theorem records_verifyAttempt {α : Type} (result : Except Error (α × Participant K)) :
    Refuses (p.verifyAttempt result).1 fun refusal =>
      refusal.isVerification = true → (p.verifyAttempt result).2.aborted = true := by
  cases result with
  | ok answer => exact .ok
  | error refusal =>
    refine .error fun hverification => ?_
    rw [verifyAttempt, if_pos hverification]
    exact p.aborted_abort refusal

theorem careful_dealShares : Careful p p.dealShares :=
  .ofOrdinary (p.steps_perform .dealShares) p.ordinary_dealShares

theorem careful_derivePowerMap : Careful p p.derivePowerMap :=
  .ofOrdinary (p.steps_perform .derivePowerMap) p.ordinary_derivePowerMap

theorem careful_verifyShares (source : σ) (delivery : Option Delivery) (index : Option Int) :
    Careful p ((p.verifyShares delivery index).run source).1 where
  steps := .single (.perform source (.verifyShares delivery index) p)
  records := p.records_verifyAttempt _

theorem careful_computeSigningShare : Careful p p.computeSigningShare :=
  .ofOrdinary (p.steps_perform .computeSigningShare) p.ordinary_computeSigningShare

theorem careful_publishOwnShare (signingShare : Option Scalar) (index : Option Int) :
    Careful p (p.publishOwnShare signingShare index) where
  steps := p.steps_perform (.publishOwnShare signingShare index)
  records := p.records_verifyAttempt _

theorem careful_importMaps (joint shareMap : Bytes) (recompute : Bool) :
    Careful p (Ceremony.importMaps joint shareMap recompute p) := by
  have hjoint : Careful p (p.importJoint joint recompute) :=
    ⟨p.steps_perform (.importJoint joint recompute), p.records_verifyAttempt _⟩
  refine hjoint.andThen fun p => .forget ?_
  exact ⟨p.steps_perform (.importShareMap shareMap recompute), p.records_verifyAttempt _⟩

theorem careful_publishShares (excluded : List Int) : Careful p (p.publishShares excluded) where
  steps := p.steps_perform (.publishShares excluded)
  records := p.records_verifyAttempt _

theorem careful_deriveGroupKey : Careful p p.deriveGroupKey :=
  .ofOrdinary (p.steps_perform .deriveGroupKey) p.ordinary_deriveGroupKey

end Participant

namespace WeightedParty

variable (w : WeightedParty K)

/-- An operation that draws nothing is a step. -/
theorem steps_perform (operation : Operation K) :
    ReflTransGen Step w ((operation.perform w).run (Tape.new [] [] "")).1 :=
  .single (.perform _ operation w)

/-- A verification of slots ends before its end only with ordinary refusals. -/
theorem ordinary_checkSlots (keys : List Int) :
    Always (w.checkSlots keys : StateM σ _) fun answer => Ordinary answer.1 := by
  induction keys generalizing w with
  | nil => exact .pure .ok
  | cons key rest ih =>
    rw [checkSlots]
    cases hinbox : w.inboxOf key with
    | error refusal => exact .pure (.error (w.ordinary_inboxOf key refusal hinbox))
    | ok delivery =>
      dsimp only
      have hcheck := w.core.declines_checkShares (σ := σ) delivery key
      refine .bind (Always.mono hcheck fun outcome hrefuses => ?_)
      cases outcome with
      | ok _ =>
        dsimp only
        cases hadvance : w.advanceSlot .sharesVerified key with
        | error refusal => exact .pure (.error (w.ordinary_advanceSlot _ key refusal hadvance))
        | ok w' => exact ih w'
      | error refusal =>
        dsimp only
        split
        · exact .bind ((ih w).mono fun answer hanswer => .pure (hanswer.map _))
        · rename_i hcheck
          exact .pure (.error ((hrefuses refusal rfl).resolve_left hcheck))

theorem careful_verifyShares (source : σ) : Careful w (w.verifyShares.run source).1 := by
  suffices h : Always (w.verifyShares : StateM σ _) fun answer => Refuses answer.1 fun refusal =>
      refusal.isVerification = true → answer.2.core.aborted = true from
    ⟨.single (.perform source .verifyShares w), h source⟩
  rw [verifyShares]
  cases hstage : w.core.requireStage .sharesDistributed with
  | error refusal =>
    exact .pure (Careful.records_of_ordinary (.error (w.core.ordinary_requireStage _ _ hstage)))
  | ok _ =>
    refine .bind ((w.ordinary_checkSlots _).mono ?_)
    rintro ⟨result, w'⟩ hordinary
    cases result with
    | error refusal =>
      exact .pure (Careful.records_of_ordinary (.error (hordinary refusal rfl)))
    | ok failed =>
      refine .pure ?_
      rw [settleSlots]
      split
      · exact .ok
      · exact .error fun _ => Participant.aborted_abort _ _

theorem careful_computeSigningShares : Careful w w.computeSigningShares :=
  .ofOrdinary (w.steps_perform .computeSigningShares) w.ordinary_computeSigningShares

/-- Publishing stops at a slot whose public share is in conflict. -/
theorem records_publishSlots (keys : List Int) :
    Refuses (w.publishSlots keys).1 fun refusal =>
      refusal.isVerification = true → (w.publishSlots keys).2.core.aborted = true := by
  induction keys generalizing w with
  | nil => exact .ok
  | cons key rest ih =>
    rw [publishSlots]
    cases hslot : w.slotOf key with
    | error refusal =>
      exact Careful.records_of_ordinary (.error (w.ordinary_slotOf key refusal hslot))
    | ok slot =>
      dsimp only
      cases w.signingShares.get? slot with
      | none => exact Careful.records_of_ordinary (.error rfl)
      | some share =>
        dsimp only
        have hrecords := (w.core.careful_publishOwnShare (some share) (some key)).records
        rw [onCore]
        cases hpublish : (w.core.publishOwnShare (some share) (some key)).1 with
        | error refusal => exact .error (hrecords refusal hpublish)
        | ok point => exact (ih _).map _

theorem careful_publishOwnShares : Careful w w.publishOwnShares := by
  refine ⟨w.steps_perform .publishOwnShares, ?_⟩
  rw [publishOwnShares]
  cases hstage : w.core.requireStage .signingShareComputed with
  | error refusal =>
    exact Careful.records_of_ordinary (.error (w.core.ordinary_requireStage _ _ hstage))
  | ok _ =>
    have hrecords := w.records_publishSlots w.keys.sorted
    dsimp only
    generalize w.publishSlots w.keys.sorted = answer at hrecords ⊢
    obtain ⟨result, w'⟩ := answer
    cases result with
    | error refusal => exact .error (hrecords refusal rfl)
    | ok published =>
      exact Careful.records_of_ordinary ((w'.ordinary_advanceSlots _ _).map _)

theorem careful_publishShares : Careful w w.publishShares where
  steps := w.steps_perform .publishShares
  records := (w.core.careful_publishShares w.keys.members).records

theorem careful_deriveGroupKey : Careful w w.deriveGroupKey :=
  .ofOrdinary (w.steps_perform .deriveGroupKey) w.ordinary_deriveGroupKey

end WeightedParty

/-! ### Tasks of several operations -/

theorem Plain.careful_computeOwnShare (p : Participant K) : Careful p (computeOwnShare p) :=
  .andThen p.careful_computeSigningShare fun p => .forget (p.careful_publishOwnShare none none)

theorem Weighted.careful_computeOwnShares (w : WeightedParty K) : Careful w (computeOwnShares w) :=
  .andThen w.careful_computeSigningShares fun w => .forget w.careful_publishOwnShares

end ThresholdKeygen
