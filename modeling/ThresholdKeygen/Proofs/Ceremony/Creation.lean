import ThresholdKeygen.Proofs.Ceremony.Plain
import ThresholdKeygen.Proofs.Ceremony.Weighted
import ThresholdKeygen.Proofs.Config

/-!
# Creation from configurations

Which ceremonies a valid configuration has. Main statement: `configs_suffice`, fields that are read
as a configuration make the plain ceremony or the weighted one as they say, never both, and either
is created whenever its tables fit into memory.
-/

namespace ThresholdKeygen

variable {K : Type} [Suite K] {σ : Type} [RandomSource σ] {config : Config}

/-! ### Room -/

/-- That there is no room for a table. -/
inductive Error.IsNoRoom : Error → Prop where
  | outOfMemory : IsNoRoom .outOfMemory
  | noSize : IsNoRoom (.overflow .noSize)

theorem checkSlots_eq_error {slots : Int} (h : maxSlots < slots) :
    ∃ refusal, checkSlots slots = .error refusal ∧ refusal.IsNoRoom := by
  by_cases hsize : wordBound ≤ slots
  · exact ⟨_, if_pos hsize, .noSize⟩
  · rw [checkSlots, if_neg hsize]
    exact ⟨_, if_pos h, .outOfMemory⟩

theorem Participant.fails_create {n dealers position : Int} {threshold : Nat}
    (ht₁ : 1 ≤ threshold) (ht₂ : threshold ≤ n) (hd : dealers ≤ n) (hx₁ : 1 ≤ position)
    (hx₂ : position ≤ dealers) (hslots : maxSlots ≤ n) {choice : Option Int}
    (hchoice : choice.getD n = dealers) (context : Item K) :
    Fails (create n threshold position choice context : ExceptT Error (StateM σ) _)
      Error.IsNoRoom := by
  rw [create, hchoice, if_neg (by omega), if_neg (by omega), if_neg (by omega), if_neg (by omega)]
  refine .after ((Coefficients.succeeds_sample position ht₁).mono ?_)
  rintro polynomial ⟨hlength, -⟩
  rw [CommitmentTable.new, if_neg (by omega)]
  by_cases hdealers : dealers < maxSlots
  · have hempty : (do checkSlots (dealers + 1); return ⟨dealers, threshold, .empty⟩ :
        Except Error (CommitmentTable K)) = .ok ⟨dealers, threshold, .empty⟩ := by
      rw [checkSlots_eq (by omega)]
      rfl
    obtain ⟨refusal, hcheck, hrefusal⟩ := checkSlots_eq_error (show maxSlots < n + 1 by omega)
    exact .after (.steady hempty (.after (.steady (CommitmentTable.register_empty hx₁ hx₂ hlength)
      (.bind (.steady hcheck hrefusal)))))
  · obtain ⟨refusal, hcheck, hrefusal⟩ :=
      checkSlots_eq_error (show maxSlots < dealers + 1 by omega)
    have hempty : (do checkSlots (dealers + 1); return ⟨dealers, threshold, .empty⟩ :
        Except Error (CommitmentTable K)) = .error refusal := by
      rw [hcheck]
      rfl
    exact .bind (.steady hempty hrefusal)

namespace Ceremony

omit [RandomSource σ] in
theorem fails_createFrom {M : Type} {create : Int → ExceptT Error (StateM σ) M} {count : Nat}
    {next : Int} {P : Error → Prop} (hcount : 0 < count) (h : Fails (create next) P) :
    Fails (createFrom create count next) P := by
  obtain ⟨count, rfl⟩ := Nat.exists_eq_add_of_lt hcount
  rw [Nat.zero_add, createFrom]
  exact .bind h

end Ceremony

/-! ### Kinds of ceremonies -/

/-- That a ceremony has been created as its configuration says: its members hold their parts of a
sharing at the positions `1, …, participants`, and nothing else yet. -/
def Ceremony.Created {M : Type} [Member M K] (config : Config) (c : Ceremony M) : Prop :=
  ∃ s : Sharing, s.DealtFor config ∧ c.Seats config c.inboxes fun x member =>
    (Member.core member).Enrolled s config.shareIndices x

/-- Which ceremonies are created for a configuration: the one of its kind where there is room for
its tables, and never the other one. -/
structure Config.Suffices (σ K : Type) [Suite K] [RandomSource σ] (config : Config) : Prop where
  plain : config.keys = none → config.shareIndices < maxSlots →
    Succeeds (Plain.start config : ExceptT Error (StateM σ) (Ceremony (Participant K)))
      (Ceremony.Created config)
  plain_noRoom : config.keys = none → maxSlots ≤ config.shareIndices →
    Fails (Plain.start config : ExceptT Error (StateM σ) (Ceremony (Participant K)))
      Error.IsNoRoom
  plain_refused : config.keys ≠ none →
    Fails (Plain.start config : ExceptT Error (StateM σ) (Ceremony (Participant K)))
      (· = .configuration .weighted)
  weighted : config.keys ≠ none → config.shareIndices < maxSlots →
    Succeeds (Weighted.start config : ExceptT Error (StateM σ) (Ceremony (WeightedParty K)))
      (Ceremony.Created config)
  weighted_noRoom : config.keys ≠ none → maxSlots ≤ config.shareIndices →
    Fails (Weighted.start config : ExceptT Error (StateM σ) (Ceremony (WeightedParty K)))
      Error.IsNoRoom
  weighted_refused : config.keys = none →
    Fails (Weighted.start config : ExceptT Error (StateM σ) (Ceremony (WeightedParty K)))
      (· = .configuration .notWeighted)

namespace Config

theorem weighted_iff : config.weighted = true ↔ config.keys ≠ none := by
  rw [weighted, Option.isSome_iff_ne_none]

namespace Valid

variable (h : config.Valid)

include h

theorem participants_le_shareIndices : config.participants ≤ config.shareIndices := by
  rw [shareIndices]
  cases hkeys : config.keys with
  | none => exact le_rfl
  | some keys => exact h.participants_le keys hkeys

theorem sized (hroom : config.shareIndices < maxSlots) : config.Sized :=
  ⟨h.one_le_participants, h.participants_le_shareIndices, h.one_le_threshold, h.threshold_le,
    hroom⟩

/-- The threshold as a number of points. -/
theorem exists_threshold : ∃ t : Nat, config.threshold = t ∧ 1 ≤ t ∧ t ≤ config.shareIndices := by
  have := h.one_le_threshold
  have := h.threshold_le
  exact ⟨config.threshold.toNat, by omega, by omega, by omega⟩

theorem fails_plain (hplain : config.keys = none) (hslots : maxSlots ≤ config.shareIndices) :
    Fails (Plain.start config : ExceptT Error (StateM σ) (Ceremony (Participant K)))
      Error.IsNoRoom := by
  have hparticipants := h.one_le_participants
  obtain ⟨t, ht, ht₁, ht₂⟩ := h.exists_threshold
  rw [shareIndices_of_none hplain] at hslots ht₂
  rw [Plain.start, if_neg (by simp [weighted, hplain]), ht]
  exact .bind (Ceremony.fails_createFrom (by omega)
    (Participant.fails_create ht₁ ht₂ le_rfl le_rfl hparticipants hslots rfl _))

theorem fails_weighted (hweighted : config.keys ≠ none)
    (hslots : maxSlots ≤ config.shareIndices) :
    Fails (Weighted.start config : ExceptT Error (StateM σ) (Ceremony (WeightedParty K)))
      Error.IsNoRoom := by
  have hparticipants := h.one_le_participants
  obtain ⟨t, ht, ht₁, ht₂⟩ := h.exists_threshold
  have hfirst : Fails (Weighted.createParty config 1 : ExceptT Error (StateM σ) (WeightedParty K))
      Error.IsNoRoom := by
    rw [Weighted.createParty, ht]
    exact .bind (Participant.fails_create ht₁ ht₂ h.participants_le_shareIndices le_rfl
      hparticipants hslots rfl _)
  rw [Weighted.start, if_neg (by simp [weighted_iff.2 hweighted])]
  exact .bind (Ceremony.fails_createFrom (by omega) hfirst)

theorem suffices_start : config.Suffices σ K where
  plain hplain hroom := by
    refine (Plain.succeeds_start (h.sized hroom) hplain).mono ?_
    rintro c ⟨s, hs, hseats, -⟩
    rw [← shareIndices_of_none hplain] at hseats
    exact ⟨s, hs, hseats⟩
  plain_noRoom := h.fails_plain
  plain_refused hweighted := by
    rw [Plain.start, if_pos (weighted_iff.2 hweighted)]
    exact .bind (.throw rfl)
  weighted hweighted hroom := by
    refine (Weighted.succeeds_start (h.sized hroom) (weighted_iff.2 hweighted)).mono ?_
    rintro c ⟨s, hs, hseats⟩
    have hinboxes := hseats.inboxes_eq
    exact ⟨s, hs, hinboxes ▸ hseats.mono fun _ _ _ hw => hw.1⟩
  weighted_noRoom := h.fails_weighted
  weighted_refused hplain := by
    rw [Weighted.start, if_pos (by simp [Config.weighted, hplain])]
    exact .bind (.throw rfl)

end Valid

end Config

/-- Fields are read as a valid configuration, or refused as none unless a number is infinite; and a
configuration that was read suffices for the ceremony of its kind. -/
theorem configs_suffice : (∀ fields, Config.Reading fields) ∧
    ∀ fields config, Config.ofFields fields = .ok config → config.Suffices σ K :=
  ⟨Config.read_ofFields, fun fields config hconfig =>
    (((Config.read_ofFields fields).eq_ok_iff config).1 hconfig).2.suffices_start⟩

/-- Numbers that are a text, an integer and a fraction, a null value and a field too many: three
parties share six slots, and there is no plain ceremony for them. -/
theorem exists_configs_suffice : ∃ fields config, Config.ofFields fields = .ok config ∧
    config.participants = 3 ∧ config.threshold = 4 ∧ config.keys = some 6 ∧
    Succeeds (Weighted.start config : ExceptT Error (StateM Tape) (Ceremony (WeightedParty _)))
      (Ceremony.Created (K := ResidueKey) config) ∧
    Fails (Plain.start config : ExceptT Error (StateM Tape) (Ceremony (Participant ResidueKey)))
      (· = .configuration .weighted) := by
  let config : Config := ⟨3, 4, some 6, .bytes (Bytes.ofText "run"), .recompute, none⟩
  have hread : Config.ofFields [("participants", .text " 3 "), ("threshold", .int 4),
      ("keys", .float 6.5), ("context", .text "run"), ("map_mode", .text "recompute"),
      ("max_workers", .null), ("comment", .list [])] = .ok config := rfl
  have hsuffices := (configs_suffice (σ := Tape) (K := ResidueKey)).2 _ config hread
  exact ⟨_, config, hread, rfl, rfl, rfl, hsuffices.weighted nofun (by decide),
    hsuffices.plain_refused nofun⟩

/-- An infinite number of participants is refused, but not as a wrong configuration; and a
configuration with `2^63` slots is read, though neither ceremony is created for it. -/
theorem exists_config_insufficient :
    Config.ofFields [("participants", .float (1 / 0)), ("threshold", .int 1)] =
      .error (.overflow .infinite) ∧
    ∃ config, Config.ofFields [("participants", .int 1), ("threshold", .int 1),
        ("keys", .int (2 ^ 63))] = .ok config ∧
      ((Plain.start config).run.run (Tape.new [[7]] [] "")).1 = (.error (.configuration .weighted) :
        Except Error (Ceremony (Participant ResidueKey))) ∧
      ((Weighted.start config).run.run (Tape.new [[7]] [] "")).1 = (.error (.overflow .noSize) :
        Except Error (Ceremony (WeightedParty ResidueKey))) :=
  ⟨rfl, ⟨1, 1, some (2 ^ 63), .bytes [], .broadcast, none⟩, rfl, rfl, rfl⟩

end ThresholdKeygen
