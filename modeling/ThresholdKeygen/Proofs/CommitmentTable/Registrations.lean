import ThresholdKeygen.Participant.Basic
import ThresholdKeygen.Proofs.CommitmentTable
import ThresholdKeygen.Proofs.Point.Residues

/-!
# Registrations in any order

The commitments that are delivered to a table: repeated ones, contradicting ones, ones of a wrong
length and ones for nobody who is a dealer. Main statement: `writeOnce_of_new`, every slot keeps the
first commitment that fits, and the answer to a further delivery says how it relates to that one.
Deliveries without a contradiction hence lead to the same table in every order. A refusal that would
have to show a number with too many digits is none of the parameters (`exists_misfit_without_text`).
-/

namespace ThresholdKeygen

variable {K : Type} [Suite K]

/-- A commitment that is delivered for a sender. -/
structure Registration (K : Type) where
  sender : Int
  commitment : Commitment K

namespace Registration

/-- That a registration is for a dealer and has as many points as the threshold. -/
def Fits (dealers threshold : Int) (r : Registration K) : Prop :=
  (1 ≤ r.sender ∧ r.sender ≤ dealers) ∧ (r.commitment.points.length : Int) = threshold

instance (dealers threshold : Int) : DecidablePred (Fits (K := K) dealers threshold) :=
  fun _ => inferInstanceAs (Decidable (_ ∧ _))

/-- What is wrong with a registration that does not fit. -/
def fault (dealers threshold : Int) (r : Registration K) : ConfigurationFault :=
  if 1 ≤ r.sender ∧ r.sender ≤ dealers then
    .commitmentLength r.sender r.commitment.points.length threshold
  else .senderOutside r.sender dealers

/-- The first commitment that fits among those for a dealer. -/
def first (dealers threshold i : Int) (calls : List (Registration K)) : Option (Commitment K) :=
  (calls.find? fun r => r.sender = i ∧ r.Fits dealers threshold).map commitment

/-- That the commitments which fit are the same for the same sender. -/
def ConflictFree (dealers threshold : Int) (calls : List (Registration K)) : Prop :=
  ∀ r ∈ calls, ∀ r' ∈ calls, r.Fits dealers threshold → r'.Fits dealers threshold →
    r.sender = r'.sender → (r.commitment == r'.commitment) = true

variable {dealers threshold i : Int} {calls calls' : List (Registration K)}

omit [Suite K] in
theorem first_cons (r : Registration K) :
    first dealers threshold i (r :: calls) =
      (if r.sender = i ∧ r.Fits dealers threshold then some r.commitment else none).or
        (first dealers threshold i calls) := by
  by_cases hr : r.sender = i ∧ r.Fits dealers threshold
  · rw [first, List.find?_cons_of_pos (by simpa using hr), if_pos hr]
    rfl
  · rw [first, List.find?_cons_of_neg (by simpa using hr), if_neg hr]
    rfl

omit [Suite K] in
theorem exists_of_first_eq_some {c : Commitment K}
    (h : first dealers threshold i calls = some c) :
    ∃ r ∈ calls, r.sender = i ∧ r.Fits dealers threshold ∧ r.commitment = c := by
  obtain ⟨r, hr, hc⟩ := Option.map_eq_some_iff.1 h
  obtain ⟨hsender, hfits⟩ : r.sender = i ∧ r.Fits dealers threshold := by
    simpa using List.find?_some hr
  exact ⟨r, List.mem_of_find?_eq_some hr, hsender, hfits, hc⟩

omit [Suite K] in
theorem first_eq_none_iff :
    first dealers threshold i calls = none ↔
      ∀ r ∈ calls, ¬ (r.sender = i ∧ r.Fits dealers threshold) := by
  rw [first, Option.map_eq_none_iff, List.find?_eq_none]
  simp only [decide_eq_true_iff]

/-- Without contradictions, what is delivered decides what comes first, in whatever order. -/
theorem first_beq_first (hmembers : ∀ r, r ∈ calls ↔ r ∈ calls')
    (hfree : ConflictFree dealers threshold calls) :
    (first dealers threshold i calls == first dealers threshold i calls') = true := by
  cases hc : first dealers threshold i calls with
  | none =>
    have hc' : first dealers threshold i calls' = none :=
      first_eq_none_iff.2 fun r hr => first_eq_none_iff.1 hc r ((hmembers r).2 hr)
    rw [hc']
    rfl
  | some c =>
    obtain ⟨r, hr, hsender, hfits, rfl⟩ := exists_of_first_eq_some hc
    cases hc' : first dealers threshold i calls' with
    | none => exact absurd ⟨hsender, hfits⟩ (first_eq_none_iff.1 hc' r ((hmembers r).1 hr))
    | some c' =>
      obtain ⟨r', hr', hsender', hfits', rfl⟩ := exists_of_first_eq_some hc'
      exact hfree r hr r' ((hmembers r').2 hr') hfits hfits' (hsender.trans hsender'.symm)

end Registration

namespace CommitmentTable

/-! ### Deliveries -/

/-- The answer to a registration, and the table that it leaves behind. -/
def deliver (table : CommitmentTable K) (r : Registration K) : Answer (CommitmentTable K) Bool :=
  attempt table (table.register r.sender r.commitment)

/-- The table that registrations leave behind, one after the other. -/
def deliverAll (table : CommitmentTable K) (calls : List (Registration K)) : CommitmentTable K :=
  calls.foldl (fun table r => (table.deliver r).2) table

/-- How a table answers a registration: it refuses what does not fit, fills a vacant slot, and
compares with what is in the slot otherwise. -/
inductive Answers (table : CommitmentTable K) (r : Registration K) :
    Answer (CommitmentTable K) Bool → Prop where
  | misfit (h : ¬ r.Fits table.dealers table.threshold) :
    Answers table r (.error (.parameters (r.fault table.dealers table.threshold)), table)
  | stored (h : r.Fits table.dealers table.threshold)
      (hslot : table.slots.get? r.sender = none) :
    Answers table r (.ok true, { table with slots := table.slots.put r.sender r.commitment })
  | repeated (h : r.Fits table.dealers table.threshold) {held : Commitment K}
      (hslot : table.slots.get? r.sender = some held)
      (hheld : (held == r.commitment) = true) : Answers table r (.ok false, table)
  | conflict (h : r.Fits table.dealers table.threshold) {held : Commitment K}
      (hslot : table.slots.get? r.sender = some held)
      (hheld : (held == r.commitment) = false) :
    Answers table r (.error
      (.verification .commitmentConflict (.secondCommitment r.sender) [r.sender]), table)

section Deliver

variable {table : CommitmentTable K} {r : Registration K}

theorem answers_misfit (h : ¬ r.Fits table.dealers table.threshold) :
    table.Answers r (table.deliver r) := by
  suffices hdeliver : table.deliver r =
      (.error (.parameters (r.fault table.dealers table.threshold)), table) from
    hdeliver ▸ .misfit h
  rw [deliver, register, checkSender, Registration.fault]
  by_cases hsender : 1 ≤ r.sender ∧ r.sender ≤ table.dealers
  · have hlength : (r.commitment.points.length : Int) ≠ table.threshold :=
      fun hlength => h ⟨hsender, hlength⟩
    rw [if_pos hsender, if_pos hsender, ok_bind, if_pos hlength]
    rfl
  · rw [if_neg hsender, if_neg hsender]
    rfl

theorem answers_fitting (h : r.Fits table.dealers table.threshold) :
    table.Answers r (table.deliver r) := by
  rw [deliver, register, checkSender, if_pos h.1, ok_bind, if_neg (not_not.2 h.2)]
  cases hslot : table.slots.get? r.sender with
  | none => exact .stored h hslot
  | some held =>
    cases hheld : held == r.commitment with
    | true =>
      simp only [hheld]
      exact .repeated h hslot hheld
    | false =>
      simp only [hheld]
      exact .conflict h hslot hheld

theorem answers_deliver (table : CommitmentTable K) (r : Registration K) :
    table.Answers r (table.deliver r) := by
  by_cases h : r.Fits table.dealers table.threshold
  · exact answers_fitting h
  · exact answers_misfit h

/-- A delivery changes at most one slot, and only when it was vacant. -/
theorem get?_deliver (table : CommitmentTable K) (r : Registration K) (i : Int) :
    (table.deliver r).2.slots.get? i = (table.slots.get? i).or
      (if r.sender = i ∧ r.Fits table.dealers table.threshold then some r.commitment
        else none) := by
  have hanswer := table.answers_deliver r
  generalize table.deliver r = answer at hanswer ⊢
  cases hanswer with
  | misfit h => simp [h]
  | stored h hslot =>
    by_cases hi : i = r.sender
    · simp [hi, hslot, h]
    · simp [hi, Ne.symm hi]
  | repeated h hslot _ | conflict h hslot _ =>
    by_cases hi : r.sender = i
    · simp [← hi, hslot]
    · simp [hi]

theorem deliver_bounds (table : CommitmentTable K) (r : Registration K) :
    (table.deliver r).2.dealers = table.dealers ∧
      (table.deliver r).2.threshold = table.threshold := by
  have hanswer := table.answers_deliver r
  generalize table.deliver r = answer at hanswer ⊢
  cases hanswer <;> exact ⟨rfl, rfl⟩

theorem deliverAll_bounds (table : CommitmentTable K) (calls : List (Registration K)) :
    (table.deliverAll calls).dealers = table.dealers ∧
      (table.deliverAll calls).threshold = table.threshold := by
  induction calls generalizing table with
  | nil => exact ⟨rfl, rfl⟩
  | cons r calls ih =>
    obtain ⟨hdealers, hthreshold⟩ := deliver_bounds table r
    exact ⟨(ih _).1.trans hdealers, (ih _).2.trans hthreshold⟩

/-- After any deliveries, a slot that was vacant holds what came first of what fits. -/
theorem get?_deliverAll (table : CommitmentTable K) (calls : List (Registration K)) (i : Int) :
    (table.deliverAll calls).slots.get? i = (table.slots.get? i).or
      (Registration.first table.dealers table.threshold i calls) := by
  induction calls generalizing table with
  | nil => exact Option.or_none.symm
  | cons r calls ih =>
    obtain ⟨hdealers, hthreshold⟩ := deliver_bounds table r
    change ((table.deliver r).2.deliverAll calls).slots.get? i = _
    rw [ih, get?_deliver, hdealers, hthreshold, Option.or_assoc, ← Registration.first_cons]

theorem Built.deliver (h : Built table) (r : Registration K) : Built (table.deliver r).2 := by
  rw [CommitmentTable.deliver]
  cases hregister : table.register r.sender r.commitment with
  | error refusal => exact h
  | ok stored => exact .register r.sender r.commitment h hregister

theorem Built.deliverAll (h : Built table) (calls : List (Registration K)) :
    Built (table.deliverAll calls) := by
  induction calls generalizing table with
  | nil => exact h
  | cons r calls ih => exact ih (h.deliver r)

end Deliver

/-! ### Readings -/

/-- That the readings of a table tell, in ascending order, which of its slots are filled and with
what. -/
structure Coherent (table : CommitmentTable K) : Prop where
  senders_ascending : table.senders.Pairwise (· < ·)
  missing_ascending : table.missing.Pairwise (· < ·)
  partition : (table.senders ++ table.missing).Perm (upTo table.dealers)
  mem_senders : ∀ i, i ∈ table.senders ↔ (table.slots.get? i).isSome
  size_eq : table.size = table.senders.length
  isComplete_iff : table.isComplete = true ↔ table.missing = []
  items_senders : table.items.map Prod.fst = table.senders
  mem_items : ∀ i c, (i, c) ∈ table.items ↔ table.slots.get? i = some c

section Readings

variable {table table' : CommitmentTable K}

theorem Built.mem_senders (h : Built table) (i : Int) :
    i ∈ table.senders ↔ (table.slots.get? i).isSome := by
  rw [senders, List.mem_filter, mem_upTo, and_iff_right_iff_imp]
  intro hi
  obtain ⟨c, hc⟩ := Option.isSome_iff_exists.1 hi
  exact ⟨(h.slot hc).1, (h.slot hc).2.1⟩

omit [Suite K] in
theorem perm_upTo (table : CommitmentTable K) :
    (table.senders ++ table.missing).Perm (upTo table.dealers) := by
  have hmissing : table.missing =
      (upTo table.dealers).filter fun i => !(table.slots.get? i).isSome := by
    simp only [missing, Option.not_isSome]
  rw [senders, hmissing]
  exact List.filter_append_perm _ _

omit [Suite K] in
theorem map_fst_items (table : CommitmentTable K) : table.items.map Prod.fst = table.senders := by
  rw [items, senders, List.map_filterMap]
  induction upTo table.dealers with
  | nil => rfl
  | cons i rest ih =>
    cases hslot : table.slots.get? i with
    | none => simpa [hslot] using ih
    | some c => simpa [hslot] using ih

theorem Built.size_eq (h : Built table) : table.size = table.senders.length := by
  have hperm : table.slots.keys.Perm table.senders := by
    refine (List.perm_ext_iff_of_nodup table.slots.nodup_keys
      ((nodup_upTo _).filter _)).2 fun i => ?_
    exact Mapping.mem_keys_iff.trans (h.mem_senders i).symm
  rw [← hperm.length_eq, Mapping.keys, List.length_map]
  rfl

theorem Built.coherent (h : Built table) : table.Coherent where
  senders_ascending := (pairwise_upTo _).filter _
  missing_ascending := (pairwise_upTo _).filter _
  partition := table.perm_upTo
  mem_senders := h.mem_senders
  size_eq := h.size_eq
  isComplete_iff := List.isEmpty_iff
  items_senders := table.map_fst_items
  mem_items := by
    intro i c
    rw [items, List.mem_filterMap]
    constructor
    · rintro ⟨j, -, hj⟩
      obtain ⟨d, hd, heq⟩ := Option.map_eq_some_iff.1 hj
      obtain ⟨rfl, rfl⟩ := Prod.mk.inj heq
      exact hd
    · intro hc
      obtain ⟨h₁, h₂, -⟩ := h.slot hc
      exact ⟨i, mem_upTo.2 ⟨h₁, h₂⟩, by rw [hc, Option.map_some]⟩

/-- That two tables cannot be told apart by their readings. -/
structure Alike (table table' : CommitmentTable K) : Prop where
  dealers_eq : table.dealers = table'.dealers
  threshold_eq : table.threshold = table'.threshold
  slots_beq : ∀ i, (table.slots.get? i == table'.slots.get? i) = true
  senders_eq : table.senders = table'.senders
  missing_eq : table.missing = table'.missing
  size_eq : table.size = table'.size
  isComplete_eq : table.isComplete = table'.isComplete
  items_beq : (table.items == table'.items) = true

theorem isSome_eq_of_beq {a b : Option (Commitment K)} (h : (a == b) = true) :
    a.isSome = b.isSome := by
  cases a <;> cases b <;> first | rfl | cases h

theorem items_beq_items (hdealers : table.dealers = table'.dealers)
    (hslots : ∀ i, (table.slots.get? i == table'.slots.get? i) = true) :
    (table.items == table'.items) = true := by
  rw [items, items, hdealers]
  induction upTo table'.dealers with
  | nil => rfl
  | cons i rest ih =>
    have hi := hslots i
    rw [List.filterMap_cons, List.filterMap_cons]
    cases hc : table.slots.get? i with
    | none =>
      cases hc' : table'.slots.get? i with
      | none => exact ih
      | some c' => simp [hc, hc'] at hi
    | some c =>
      cases hc' : table'.slots.get? i with
      | none => simp [hc, hc'] at hi
      | some c' =>
        have hentry : ((i, c) == (i, c')) = true :=
          Bool.and_eq_true_iff.2 ⟨beq_self_eq_true i, by simpa [hc, hc'] using hi⟩
        exact Bool.and_eq_true_iff.2 ⟨hentry, ih⟩

theorem Built.alike (h : Built table) (h' : Built table')
    (hdealers : table.dealers = table'.dealers)
    (hthreshold : table.threshold = table'.threshold)
    (hslots : ∀ i, (table.slots.get? i == table'.slots.get? i) = true) : table.Alike table' := by
  have hsome : ∀ i, (table.slots.get? i).isSome = (table'.slots.get? i).isSome :=
    fun i => isSome_eq_of_beq (hslots i)
  have hsenders : table.senders = table'.senders := by
    simp only [senders, hdealers, hsome]
  have hmissing : table.missing = table'.missing := by
    simp only [missing, hdealers, ← Option.not_isSome, hsome]
  exact {
    dealers_eq := hdealers
    threshold_eq := hthreshold
    slots_beq := hslots
    senders_eq := hsenders
    missing_eq := hmissing
    size_eq := by rw [h.size_eq, h'.size_eq, hsenders]
    isComplete_eq := by rw [isComplete, isComplete, hmissing]
    items_beq := items_beq_items hdealers hslots }

end Readings

/-! ### First deliveries -/

/-- What deliveries to a table mean that holds nothing at first. -/
structure WriteOnce (dealers threshold : Int) (start : CommitmentTable K) : Prop where
  bounds : ∀ calls, (start.deliverAll calls).dealers = dealers ∧
    (start.deliverAll calls).threshold = threshold
  slot : ∀ calls i, (start.deliverAll calls).slots.get? i =
    Registration.first dealers threshold i calls
  stored : ∀ calls r, ((start.deliverAll calls).deliver r).1 = .ok true ↔
    r.Fits dealers threshold ∧ Registration.first dealers threshold r.sender calls = none
  repeated : ∀ calls r, ((start.deliverAll calls).deliver r).1 = .ok false ↔
    r.Fits dealers threshold ∧ ∃ held,
      Registration.first dealers threshold r.sender calls = some held ∧
        (held == r.commitment) = true
  conflict : ∀ calls r, ((start.deliverAll calls).deliver r).1 =
      .error (.verification .commitmentConflict (.secondCommitment r.sender) [r.sender]) ↔
    r.Fits dealers threshold ∧ ∃ held,
      Registration.first dealers threshold r.sender calls = some held ∧
        (held == r.commitment) = false
  /-- The refusal is one of the parameters where its text can show the numbers in it. -/
  misfit : ∀ calls r, ((start.deliverAll calls).deliver r).1 =
      .error (if (r.fault dealers threshold).numbers.all isWritable then
        .configuration (r.fault dealers threshold) else .value .tooManyDigits) ↔
    ¬ r.Fits dealers threshold
  refused : ∀ calls r refusal, ((start.deliverAll calls).deliver r).1 = .error refusal →
    ((start.deliverAll calls).deliver r).2 = start.deliverAll calls
  coherent : ∀ calls, (start.deliverAll calls).Coherent
  alike : ∀ calls calls', (∀ r, r ∈ calls ↔ r ∈ calls') →
    Registration.ConflictFree dealers threshold calls →
      (start.deliverAll calls).Alike (start.deliverAll calls')

section WriteOnce

variable {table : CommitmentTable K} {r : Registration K}

theorem parameters_ne_conflict (fault : ConfigurationFault) (finding : Finding)
    (offenders : List Int) :
    Error.parameters fault ≠ .verification .commitmentConflict finding offenders := by
  rw [Error.parameters_eq]
  split <;> nofun

theorem stored_iff : (table.deliver r).1 = .ok true ↔
    r.Fits table.dealers table.threshold ∧ table.slots.get? r.sender = none := by
  have hanswer := table.answers_deliver r
  generalize table.deliver r = answer at hanswer ⊢
  cases hanswer <;> simp_all

theorem repeated_iff : (table.deliver r).1 = .ok false ↔
    r.Fits table.dealers table.threshold ∧ ∃ held, table.slots.get? r.sender = some held ∧
      (held == r.commitment) = true := by
  have hanswer := table.answers_deliver r
  generalize table.deliver r = answer at hanswer ⊢
  cases hanswer <;> simp_all

theorem conflict_iff : (table.deliver r).1 =
      .error (.verification .commitmentConflict (.secondCommitment r.sender) [r.sender]) ↔
    r.Fits table.dealers table.threshold ∧ ∃ held, table.slots.get? r.sender = some held ∧
      (held == r.commitment) = false := by
  have hanswer := table.answers_deliver r
  generalize table.deliver r = answer at hanswer ⊢
  cases hanswer <;> simp_all [parameters_ne_conflict]

theorem misfit_iff : (table.deliver r).1 =
      .error (.parameters (r.fault table.dealers table.threshold)) ↔
    ¬ r.Fits table.dealers table.threshold := by
  have hanswer := table.answers_deliver r
  generalize table.deliver r = answer at hanswer ⊢
  cases hanswer <;> simp_all [(parameters_ne_conflict _ _ _).symm]

/-- A refused delivery leaves the table as it was. -/
theorem deliver_of_refused {refusal : Error} (h : (table.deliver r).1 = .error refusal) :
    (table.deliver r).2 = table := by
  have hanswer := table.answers_deliver r
  generalize table.deliver r = answer at hanswer h ⊢
  cases hanswer with
  | stored => cases h
  | misfit | repeated | conflict => rfl

end WriteOnce

/-- Every slot of a table keeps the first commitment that fits it. -/
theorem writeOnce_of_new {dealers threshold : Int} {start : CommitmentTable K}
    (h : new dealers threshold = .ok start) : start.WriteOnce dealers threshold := by
  have hbuilt : Built start := .new dealers threshold h
  obtain rfl := yields_new dealers threshold _ h
  have hbounds := deliverAll_bounds (⟨dealers, threshold, .empty⟩ : CommitmentTable K)
  have hslot : ∀ calls i, (deliverAll (⟨dealers, threshold, .empty⟩ : CommitmentTable K)
      calls).slots.get? i = Registration.first dealers threshold i calls :=
    fun calls i => (get?_deliverAll _ calls i).trans Option.none_or
  exact {
    bounds := hbounds
    slot := hslot
    stored := by
      intro calls r
      rw [stored_iff, hslot, (hbounds calls).1, (hbounds calls).2]
    repeated := by
      intro calls r
      rw [repeated_iff, hslot, (hbounds calls).1, (hbounds calls).2]
    conflict := by
      intro calls r
      rw [conflict_iff, hslot, (hbounds calls).1, (hbounds calls).2]
    misfit := by
      intro calls r
      have hmisfit : ((deliverAll ⟨dealers, threshold, .empty⟩ calls).deliver r).1 = .error _ ↔ _ :=
        misfit_iff
      rw [(hbounds calls).1, (hbounds calls).2] at hmisfit
      exact hmisfit
    refused := fun calls r refusal => deliver_of_refused
    coherent := fun calls => (hbuilt.deliverAll calls).coherent
    alike := by
      intro calls calls' hmembers hfree
      refine (hbuilt.deliverAll calls).alike (hbuilt.deliverAll calls') ?_ ?_ fun i => ?_
      · rw [(hbounds calls).1, (hbounds calls').1]
      · rw [(hbounds calls).2, (hbounds calls').2]
      · rw [hslot, hslot]
        exact Registration.first_beq_first hmembers hfree }

/-- The second of two dealers delivers its commitment twice, around that of the first. -/
theorem exists_writeOnce_of_new : ∃ (start : CommitmentTable ResidueKey)
    (calls : List (Registration ResidueKey)), new 2 1 = .ok start ∧ start.WriteOnce 2 1 ∧
      calls.map Registration.sender = [2, 1, 2] ∧ (∀ r ∈ calls, r.Fits 2 1) ∧
      Registration.ConflictFree 2 1 calls := by
  have hnew : new 2 1 = .ok (⟨2, 1, .empty⟩ : CommitmentTable ResidueKey) := rfl
  refine ⟨_, [⟨2, ⟨[.generator]⟩⟩, ⟨1, ⟨[.identity]⟩⟩, ⟨2, ⟨[.generator]⟩⟩], hnew,
    writeOnce_of_new hnew, rfl, by decide, ?_⟩
  rw [Registration.ConflictFree]
  decide

/-- A sender that is no dealer and has too many digits is not refused as a parameter. -/
theorem exists_misfit_without_text : ∃ (start : CommitmentTable ResidueKey)
    (r : Registration ResidueKey), new 1 1 = .ok start ∧ ¬ r.Fits 1 1 ∧
      (start.deliver r).1 = .error (.value .tooManyDigits) := by
  have hlarge : 1 < Nat.pow 10 maxDigits := by decide +kernel
  generalize hsender : Nat.pow 10 maxDigits = sender at hlarge
  have hmisfit : ¬ (⟨sender, ⟨[.generator]⟩⟩ : Registration ResidueKey).Fits 1 1 := by
    rintro ⟨⟨-, hle⟩, -⟩
    exact absurd (Int.ofNat_le.1 hle) (Nat.not_le.2 hlarge)
  have hnumber : isWritable sender = false := by
    rw [isWritable, hsender, Int.natAbs_natCast]
    exact decide_eq_false (Nat.lt_irrefl _)
  refine ⟨⟨1, 1, .empty⟩, ⟨sender, ⟨[.generator]⟩⟩, rfl, hmisfit, ?_⟩
  rw [misfit_iff.2 hmisfit, Registration.fault, if_neg fun h => hmisfit ⟨h, rfl⟩, Error.parameters,
    Error.written, Error.hasText]
  simp [Error.numbers, ConfigurationFault.numbers, hnumber]

end CommitmentTable

end ThresholdKeygen
