import ThresholdKeygen.Proofs.Participant.InPlace
import ThresholdKeygen.Proofs.WeightedParty.Persistence

/-!
# Deliveries, whole or torn

A delivery of shares should be stored as a whole, or not at all when it is refused. A weighted party
looks at all senders before it stores anything. A participant stores what it has got when it comes
upon a sender that is no dealer, so that a refused delivery can be torn. Main statement:
`deliveries_whole`, which deliveries are torn and where, and that those to slots never are.
-/

namespace ThresholdKeygen

variable {K : Type} {σ : Type}

namespace Participant

variable {p : Participant K} {delivery : Delivery}

/-- That a number is that of a dealer. -/
def IsDealer (p : Participant K) (sender : Int) : Prop := 1 ≤ sender ∧ sender ≤ p.dealers

instance (p : Participant K) : DecidablePred p.IsDealer :=
  fun _ => inferInstanceAs (Decidable (_ ∧ _))

/-- The participant with shares in its inbox, or gaps where there were shares. -/
def withShares (p : Participant K) (entries : List (Int × Option Scalar)) : Participant K :=
  { p with sharesIn := p.sharesIn.assignAll entries }

/-- How a participant answers a delivery: it refuses one to a closed inbox, and of any other it
stores what comes before the first sender that is no dealer. -/
inductive Receives (p : Participant K) (delivery : Delivery) :
    Answer (Participant K) Unit → Prop where
  | closed (hclosed : .sharesVerified ≤ p.stage) :
    Receives p delivery (.error (.state .inboxClosed), p)
  | stored (hopen : ¬ .sharesVerified ≤ p.stage)
      (hdealers : ∀ entry ∈ delivery.entries, p.IsDealer entry.1) :
    Receives p delivery (.ok (), p.withShares delivery.entries)
  | cut (hopen : ¬ .sharesVerified ≤ p.stage) {accepted rest : List (Int × Option Scalar)}
      {stranger : Int × Option Scalar}
      (hentries : delivery.entries = accepted ++ stranger :: rest)
      (hdealers : ∀ entry ∈ accepted, p.IsDealer entry.1) (hstranger : ¬ p.IsDealer stranger.1) :
    Receives p delivery
      (.error (.parameters (.senderOutside stranger.1 p.dealers)), p.withShares accepted)

theorem storeShares_cons_dealer {entry : Int × Option Scalar} (h : p.IsDealer entry.1)
    (rest : List (Int × Option Scalar)) :
    p.storeShares (entry :: rest) = (p.withShares [entry]).storeShares rest := if_pos h

theorem storeShares_cons_stranger {entry : Int × Option Scalar} (h : ¬ p.IsDealer entry.1)
    (rest : List (Int × Option Scalar)) : p.storeShares (entry :: rest) =
      (.error (.parameters (.senderOutside entry.1 p.dealers)), p) := if_neg h

theorem storeShares_append {accepted : List (Int × Option Scalar)}
    (h : ∀ entry ∈ accepted, p.IsDealer entry.1) (rest : List (Int × Option Scalar)) :
    p.storeShares (accepted ++ rest) = (p.withShares accepted).storeShares rest := by
  induction accepted generalizing p with
  | nil => rfl
  | cons entry accepted ih =>
    obtain ⟨hentry, haccepted⟩ := List.forall_mem_cons.1 h
    rw [List.cons_append, storeShares_cons_dealer hentry]
    exact ih haccepted

theorem storeShares_cut {accepted : List (Int × Option Scalar)} {stranger : Int × Option Scalar}
    (hdealers : ∀ entry ∈ accepted, p.IsDealer entry.1) (hstranger : ¬ p.IsDealer stranger.1)
    (rest : List (Int × Option Scalar)) : p.storeShares (accepted ++ stranger :: rest) =
      (.error (.parameters (.senderOutside stranger.1 p.dealers)), p.withShares accepted) :=
  (storeShares_append hdealers _).trans
    (storeShares_cons_stranger (p := p.withShares accepted) hstranger rest)

theorem receives_receiveShares (p : Participant K) (delivery : Delivery) :
    p.Receives delivery (p.receiveShares delivery) := by
  rw [receiveShares]
  split
  · exact .closed ‹_›
  rename_i hopen
  cases hfind : delivery.entries.find? fun entry => ¬ p.IsDealer entry.1 with
  | none =>
    have hdealers : ∀ entry ∈ delivery.entries, p.IsDealer entry.1 := by
      simpa using List.find?_eq_none.1 hfind
    have hstore := storeShares_append hdealers []
    rw [List.append_nil] at hstore
    rw [hstore]
    exact .stored hopen hdealers
  | some stranger =>
    obtain ⟨hstranger, accepted, rest, hentries, haccepted⟩ :=
      List.find?_eq_some_iff_append.1 hfind
    have hdealers : ∀ entry ∈ accepted, p.IsDealer entry.1 := by simpa using haccepted
    have houtside : ¬ p.IsDealer stranger.1 := by simpa using hstranger
    rw [hentries, storeShares_cut hdealers houtside]
    exact .cut hopen hentries hdealers houtside

/-- That an answer to a delivery leaves its shares in the inbox, or the inbox as it was; nothing
else of the participant changes. -/
structure Whole (p : Participant K) (delivery : Delivery)
    (answer : Answer (Participant K) Unit) : Prop where
  frame : answer.2 = { p with sharesIn := answer.2.sharesIn }
  refused : ∀ refusal, answer.1 = .error refusal →
    ∀ sender, answer.2.sharesIn.get? sender = p.sharesIn.get? sender
  stored : answer.1 = .ok () → ∀ sender, answer.2.sharesIn.get? sender =
    (delivery.get? sender).getD (p.sharesIn.get? sender)

/-- That a delivery to an open inbox names somebody who is no dealer after a dealer whose share is
not there yet. -/
def Torn (p : Participant K) (delivery : Delivery) : Prop :=
  ¬ .sharesVerified ≤ p.stage ∧ ∃ accepted stranger rest,
    delivery.entries = accepted ++ stranger :: rest ∧ ¬ p.IsDealer stranger.1 ∧
      (∀ entry ∈ accepted, p.IsDealer entry.1) ∧
      ∃ entry ∈ accepted, p.sharesIn.get? entry.1 ≠ entry.2

theorem get?_withShares_of_mem {entries : List (Int × Option Scalar)}
    (hnodup : (entries.map Prod.fst).Nodup) {entry : Int × Option Scalar}
    (hentry : entry ∈ entries) : (p.withShares entries).sharesIn.get? entry.1 = entry.2 := by
  have hfind := (Mapping.findEntry_eq_some_iff hnodup).2 hentry
  exact (Mapping.get?_assignAll _ hnodup _).trans (by rw [hfind, Option.getD_some])

/-- Storing what is stored already changes nothing. -/
theorem get?_withShares_of_stored {entries : List (Int × Option Scalar)}
    (hnodup : (entries.map Prod.fst).Nodup)
    (h : ∀ entry ∈ entries, p.sharesIn.get? entry.1 = entry.2) (sender : Int) :
    (p.withShares entries).sharesIn.get? sender = p.sharesIn.get? sender := by
  refine (Mapping.get?_assignAll _ hnodup _).trans ?_
  cases hfind : Mapping.findEntry sender entries with
  | none => rfl
  | some choice => exact (h _ (Mapping.mem_of_findEntry hfind)).symm

theorem nodup_of_append {accepted rest : List (Int × Option Scalar)}
    (h : delivery.entries = accepted ++ rest) : (accepted.map Prod.fst).Nodup := by
  have hnodup := delivery.nodup_keys
  rw [h, List.map_append] at hnodup
  exact (List.nodup_append.1 hnodup).1

theorem Torn.not_whole (h : p.Torn delivery) : ¬ p.Whole delivery (p.receiveShares delivery) := by
  obtain ⟨hopen, accepted, stranger, rest, hentries, hstranger, hdealers, entry, hentry, hne⟩ := h
  have hanswer : p.receiveShares delivery =
      (.error (.parameters (.senderOutside stranger.1 p.dealers)), p.withShares accepted) := by
    rw [receiveShares, if_neg hopen, hentries, storeShares_cut hdealers hstranger]
  intro hwhole
  rw [hanswer] at hwhole
  refine hne ((hwhole.refused _ rfl entry.1).symm.trans ?_)
  exact get?_withShares_of_mem (nodup_of_append hentries) hentry

/-- The deliveries that are torn are those whose shares are left behind by a refusal. -/
theorem whole_iff (p : Participant K) (delivery : Delivery) :
    p.Whole delivery (p.receiveShares delivery) ↔ ¬ p.Torn delivery := by
  refine ⟨fun hwhole htorn => htorn.not_whole hwhole, fun htorn => ?_⟩
  have hreceives := p.receives_receiveShares delivery
  generalize p.receiveShares delivery = answer at hreceives ⊢
  cases hreceives with
  | closed => exact { frame := rfl, refused := fun _ _ _ => rfl, stored := by rintro ⟨⟩ }
  | stored =>
    exact {
      frame := rfl
      refused := by rintro _ ⟨⟩
      stored := fun _ sender => Mapping.get?_assignAll _ delivery.nodup_keys sender }
  | @cut hopen accepted rest stranger hentries hdealers hstranger =>
    have hstored : ∀ entry ∈ accepted, p.sharesIn.get? entry.1 = entry.2 := by
      intro entry hentry
      by_contra hne
      exact htorn ⟨hopen, accepted, stranger, rest, hentries, hstranger, hdealers, entry, hentry,
        hne⟩
    exact {
      frame := rfl
      refused := fun _ _ => get?_withShares_of_stored (nodup_of_append hentries) hstored
      stored := by rintro ⟨⟩ }

end Participant

namespace WeightedParty

open Run

variable {w : WeightedParty K} {key : Int} {delivery : Delivery}

/-! ### Storing in place -/

/-- Refuses a sender that is none of the parties. -/
def requireParty (sender : Int) : Run σ (WeightedParty K) Unit := do
  let w ← get
  if ¬ (1 ≤ sender ∧ sender ≤ w.parties) then
    throw (.parameters (.senderOutside sender w.parties))

/-- Moves a slot forward in place. -/
def advanceInPlace (stage : Stage) (key : Int) : Run σ (WeightedParty K) Unit := do
  let w ← get
  if (← w.slotStage key) < stage then
    set { w with slotStages := w.slotStages.put (← w.slotOf key) stage }

/-- Stores the shares for a slot in place, one step after the other. -/
def storeInPlace (key : Int) (delivery : Delivery) : Run σ (WeightedParty K) Unit := do
  let w ← get
  w.requireOwned key
  w.core.requireStage .created
  if Stage.sharesVerified ≤ (← w.slotStage key) then throw (.state (.slotVerified key))
  delivery.keys.forM requireParty
  set { w with inboxes := w.inboxes.put (← w.slotOf key) delivery }
  advanceInPlace .sharesDistributed key

theorem run_requireParties (senders : List Int) :
    (senders.forM requireParty : Run σ (WeightedParty K) PUnit).run.run w =
      match senders.find? fun i => ¬ (1 ≤ i ∧ i ≤ w.parties) with
      | none => pure (.ok ⟨⟩, w)
      | some stranger => pure (.error (.parameters (.senderOutside stranger w.parties)), w) := by
  induction senders with
  | nil => rfl
  | cons sender senders ih =>
    by_cases hsender : 1 ≤ sender ∧ sender ≤ w.parties
    · have hrun : (requireParty sender : Run σ (WeightedParty K) Unit).run.run w =
          pure (.ok (), w) := by
        rw [requireParty, run_get, if_neg (not_not.2 hsender)]
        rfl
      rw [List.find?_cons_of_neg (by simpa using hsender)]
      exact (run_bind_of_eq hrun).trans ih
    · have hrun : (requireParty sender : Run σ (WeightedParty K) Unit).run.run w =
          pure (.error (.parameters (.senderOutside sender w.parties)), w) := by
        rw [requireParty, run_get, if_pos hsender]
        rfl
      rw [List.find?_cons, decide_eq_true hsender]
      exact run_bind_of_refused hrun

theorem run_advanceInPlace (stage : Stage) (key : Int) :
    (advanceInPlace stage key : Run σ (WeightedParty K) Unit).run.run w =
      pure (attempt w do return ((), ← w.advanceSlot stage key)) := by
  rw [advanceInPlace, run_get, advanceSlot, bind_assoc]
  refine run_check fun current _ => ?_
  by_cases hlt : current < stage
  · rw [if_pos hlt, if_pos hlt, bind_assoc]
    exact run_check fun slot _ => rfl
  · rw [if_neg hlt, if_neg hlt]
    rfl

/-- Storing in place cannot be refused once something has been written. -/
theorem run_storeInPlace (hslots : ∀ key ∈ w.keys, key ∈ upTo w.core.n) (key : Int)
    (delivery : Delivery) :
    (storeInPlace key delivery : Run σ (WeightedParty K) Unit).run.run w =
      pure (w.storeShares key delivery) := by
  rw [storeInPlace, run_get]
  refine run_check fun _ howned => run_check fun _ _ => run_check fun stage _ => ?_
  have hkey := of_requireOwned_eq_ok howned
  dsimp only
  split
  · rfl
  cases hfind : delivery.keys.find? fun i => ¬ (1 ≤ i ∧ i ≤ w.parties) with
  | some stranger =>
    have hrun := run_requireParties (σ := σ) (w := w) delivery.keys
    rw [hfind] at hrun
    exact run_bind_of_refused hrun
  | none =>
    have hrun := run_requireParties (σ := σ) (w := w) delivery.keys
    rw [hfind] at hrun
    obtain ⟨slotStages, hadvance, -⟩ := advanceSlot_eq (w := { w with
      inboxes := w.inboxes.put key delivery }) hslots .sharesDistributed hkey
    rw [slotOf_eq hslots hkey]
    refine (run_bind_of_eq hrun).trans ((run_bind_of_eq rfl).trans ?_)
    refine (run_advanceInPlace _ _).trans ?_
    simp only [ok_bind]
    rw [hadvance]
    rfl

/-! ### Slots as a whole -/

/-- That an answer to a delivery for a slot leaves it in the inbox of the slot, which moves on, or
the party as it was. -/
structure Whole (w : WeightedParty K) (key : Int) (delivery : Delivery)
    (answer : Answer (WeightedParty K) Unit) : Prop where
  refused : ∀ refusal, answer.1 = .error refusal → answer.2 = w
  frame : answer.1 = .ok () → ∃ slotStages, answer.2 = { w with
    inboxes := w.inboxes.put key delivery, slotStages } ∧
      Raises .sharesDistributed [key] w.slotStages slotStages
  stored : answer.1 = .ok () → answer.2.inboxOf key = .ok delivery

theorem whole_storeShares (hslots : ∀ key ∈ w.keys, key ∈ upTo w.core.n) (key : Int)
    (delivery : Delivery) : w.Whole key delivery (w.storeShares key delivery) := by
  have hstores := stores_storeShares hslots key delivery
  generalize w.storeShares key delivery = answer at hstores ⊢
  cases hstores with
  | refused refusal =>
    exact { refused := fun _ _ => rfl, frame := by rintro ⟨⟩, stored := by rintro ⟨⟩ }
  | @stored slotStages hkey _ _ hraise =>
    have hput : (w.inboxes.put key delivery).get? key = some delivery := by
      rw [Mapping.get?_put, if_pos rfl]
    exact {
      refused := by rintro _ ⟨⟩
      frame := fun _ => ⟨slotStages, rfl, hraise⟩
      stored := fun _ => inboxOf_eq (w := { w with
        inboxes := w.inboxes.put key delivery, slotStages }) hslots hkey hput }

end WeightedParty

/-- What a delivery leaves behind at a participant is known for every order of its entries, and is
the whole of it or nothing unless the delivery is torn; a slot of a party is given all of a delivery
or nothing, also when the steps of the party are taken in place. -/
theorem deliveries_whole [Suite K] :
    (∀ (p : Participant K) (delivery : Delivery),
      p.Receives delivery (p.receiveShares delivery) ∧
        (p.Whole delivery (p.receiveShares delivery) ↔ ¬ p.Torn delivery)) ∧
    ∀ (w : WeightedParty K) (key : Int) (delivery : Delivery), w.Reachable →
      (WeightedParty.storeInPlace key delivery : Run σ (WeightedParty K) Unit).run.run w =
          pure (w.storeShares key delivery) ∧
        w.Whole key delivery (w.storeShares key delivery) :=
  ⟨fun p delivery => ⟨p.receives_receiveShares delivery, p.whole_iff delivery⟩,
    fun _ key delivery hw => ⟨WeightedParty.run_storeInPlace hw.settled.slots key delivery,
      WeightedParty.whole_storeShares hw.settled.slots key delivery⟩⟩

/-- A party with one key stores the share of the only dealer for it. -/
theorem exists_deliveries_whole : ∃ (w : WeightedParty ResidueKey) (delivery : Delivery),
    w.Reachable ∧ (w.storeShares 1 delivery).1.toOption = some () ∧
      w.Whole 1 delivery (w.storeShares 1 delivery) := by
  have hcreated := @WeightedParty.Reachable.created ResidueKey _ 1 _ _
    Participant.reachable_lone rfl
  have hassigned := hcreated.performed (Tape.new [] [] "") (.assignKeys [1])
  exact ⟨_, .ofInbox (.ofList [(1, 5)]), hassigned, by decide +kernel,
    ((deliveries_whole (σ := Tape)).2 _ 1 _ hassigned).2⟩

/-- A participant refuses a delivery for its second sender, who is no dealer, and keeps the share of
the first, which was not there before. -/
theorem exists_torn : ∃ (p : Participant ResidueKey) (delivery : Delivery), p.Reachable ∧
    p.Torn delivery ∧ (∃ refusal, (p.receiveShares delivery).1 = .error refusal) ∧
    p.sharesIn.get? 1 = none ∧ (p.receiveShares delivery).2.sharesIn.get? 1 = some 5 := by
  have htorn : Participant.lone.Torn (.ofInbox (.ofList [(1, 5), (2, 7)])) :=
    ⟨by decide, [(1, some 5)], (2, some 7), [], rfl, by decide, by decide, (1, some 5), by decide,
      by decide⟩
  exact ⟨_, _, Participant.reachable_lone, htorn, ⟨_, rfl⟩, rfl, rfl⟩

end ThresholdKeygen
