import ThresholdKeygen.Config.Basic
import ThresholdKeygen.Proofs.Refusal

/-!
# Reading configurations

Fields with values of any kind are a configuration when their numbers can be read as integers and
are in range. Main statement: `Config.read_ofFields`, on which fields are one, and on the refusal of
all others: as a wrong configuration, except that an infinite number is no wrong value.
-/

namespace ThresholdKeygen

/-! ### Integers -/

namespace Datum

/-- That a value is a floating-point infinity. -/
def IsInfinite (value : Datum) : Prop :=
  ∃ x negative, value = .float x ∧ Decimal.shape x = .infinite negative

theorem toInt_of_isInfinite {value : Datum} (h : value.IsInfinite) :
    value.toInt = .error (.overflow .infinite) := by
  obtain ⟨x, negative, rfl, hshape⟩ := h
  rw [toInt, hshape]

end Datum

/-- Why fields are no configuration: they are wrong, or a value in them is. -/
inductive Error.IsInvalidity : Error → Prop where
  | configuration (fault : ConfigurationFault) : IsInvalidity (.configuration fault)
  | value (fault : ValueFault) : IsInvalidity (.value fault)
  | kind (fault : KindFault) : IsInvalidity (.kind fault)

theorem Error.IsInvalidity.parameters (fault : ConfigurationFault) :
    (Error.parameters fault).IsInvalidity := by
  rw [Error.parameters_eq]
  split
  · exact .configuration fault
  · exact .value .tooManyDigits

/-- A value that is no integer is infinite, or wrong. -/
theorem Datum.refuses_toInt (value : Datum) : Refuses value.toInt fun refusal =>
    refusal.IsInvalidity ∨ refusal = .overflow .infinite ∧ value.IsInfinite := by
  have hread (s : List Text.CodePoint) : Refuses (readInt s) fun refusal =>
      refusal.IsInvalidity ∨ refusal = .overflow .infinite ∧ value.IsInfinite := by
    rw [readInt]
    cases Text.readPoints s with
    | error fault => exact .error (.inl (.value _))
    | ok n => exact .ok
  cases value with
  | bool b => exact .ok
  | int n => exact .ok
  | float x =>
    rw [toInt]
    split
    · exact .error (.inl (.value _))
    · rename_i negative hshape
      exact .error (.inr ⟨rfl, x, negative, rfl, hshape⟩)
    · exact .ok
  | text s => exact hread _
  | illFormed s => exact hread s
  | null | list items | table inline entries | moment kind shown => exact .error (.inl (.kind _))

namespace Config

/-! ### Validation -/

/-- That the parameters of a configuration are in range. -/
structure Valid (config : Config) : Prop where
  one_le_participants : 1 ≤ config.participants
  participants_le : ∀ keys, config.keys = some keys → config.participants ≤ keys
  one_le_threshold : 1 ≤ config.threshold
  threshold_le : config.threshold ≤ config.shareIndices
  one_le_workers : ∀ workers, config.maxWorkers = some workers → 1 ≤ workers

/-- Refuses under a condition. -/
def refuseIf (condition : Prop) [Decidable condition] (refusal : Error) : Except Error Unit :=
  if condition then .error refusal else .ok ()

theorem refuseIf_eq_ok_iff {condition : Prop} [Decidable condition] {refusal : Error} :
    refuseIf condition refusal = .ok () ↔ ¬ condition := by
  simp [refuseIf]

theorem refuses_refuseIf (condition : Prop) [Decidable condition] {P : Error → Prop}
    {refusal : Error} (h : P refusal) : Refuses (refuseIf condition refusal) P := by
  rw [refuseIf]
  split
  · exact .error h
  · exact .ok

/-- A check of a value that may be missing. -/
theorem optional_eq_ok_iff {value : Option Int} {check : Int → Except Error Unit} :
    value.forM check = .ok () ↔ ∀ n, value = some n → check n = .ok () := by
  cases value with
  | none => simp [Option.forM]
  | some n => simp [Option.forM]

theorem refuses_optional {value : Option Int} {check : Int → Except Error Unit}
    {P : Error → Prop} (h : ∀ n, Refuses (check n) P) : Refuses (value.forM check) P := by
  cases value with
  | none => exact .ok
  | some n => exact h n

/-- Validation is four checks in a row. -/
theorem validate_eq (config : Config) : config.validate = (do
    refuseIf (config.participants < 1) (.configuration .noParticipant)
    config.keys.forM fun keys => refuseIf (keys < config.participants)
      (.parameters (.fewerKeysThanParticipants keys config.participants))
    refuseIf (¬ (1 ≤ config.threshold ∧ config.threshold ≤ config.shareIndices))
      (.parameters (.thresholdOutside config.threshold config.shareIndices))
    config.maxWorkers.forM fun workers => refuseIf (workers < 1) (.configuration .noWorker)) := by
  obtain ⟨participants, threshold, keys, label, mapMode, maxWorkers⟩ := config
  cases keys <;> cases maxWorkers
  all_goals
    simp only [validate, refuseIf, Option.forM]
    repeat' split
    all_goals rfl

theorem validate_eq_ok_iff {config : Config} : config.validate = .ok () ↔ config.Valid := by
  rw [validate_eq]
  simp only [check_bind_eq_ok_iff, optional_eq_ok_iff, refuseIf_eq_ok_iff, Int.not_lt,
    Decidable.not_not]
  constructor
  · rintro ⟨hparticipants, hkeys, ⟨hthreshold, hle⟩, hworkers⟩
    exact ⟨hparticipants, hkeys, hthreshold, hle, hworkers⟩
  · rintro ⟨hparticipants, hkeys, hthreshold, hle, hworkers⟩
    exact ⟨hparticipants, hkeys, ⟨hthreshold, hle⟩, hworkers⟩

theorem refuses_validate (config : Config) : Refuses config.validate Error.IsInvalidity := by
  rw [validate_eq]
  refine .bind (refuses_refuseIf _ (.configuration _)) fun _ => ?_
  refine .bind (refuses_optional fun _ => refuses_refuseIf _ (.parameters _)) fun _ => ?_
  refine .bind (refuses_refuseIf _ (.parameters _)) fun _ => ?_
  exact refuses_optional fun _ => refuses_refuseIf _ (.configuration _)

/-! ### Numbers -/

/-- That a field is there and infinite. -/
def InfiniteAt (fields : List (String × Datum)) (name : String) : Prop :=
  ∃ value, Datum.field? name fields = some value ∧ value.IsInfinite

/-- The fields with numbers, in the order in which they are read, and whether they may be missing
or null. -/
def numberFields : List (String × Bool) :=
  [("participants", false), ("threshold", false), ("keys", true), ("max_workers", true)]

/-- The number of a field. -/
def numberOf (fields : List (String × Datum)) : String × Bool → Except Error (Option Int)
  | (name, false) => (requiredInt name fields).map some
  | (name, true) => optionalInt name fields

section Numbers

variable (fields : List (String × Datum))

theorem refuses_requiredInt (name : String) : Refuses (requiredInt name fields) fun refusal =>
    refusal.IsInvalidity ∨ refusal = .overflow .infinite ∧ InfiniteAt fields name := by
  rw [requiredInt]
  split
  · rename_i value hvalue
    exact value.refuses_toInt.mono fun _ => .imp_right (.imp_right fun h => ⟨value, hvalue, h⟩)
  · exact .error (.inl (.configuration _))

theorem refuses_optionalInt (name : String) : Refuses (optionalInt name fields) fun refusal =>
    refusal.IsInvalidity ∨ refusal = .overflow .infinite ∧ InfiniteAt fields name := by
  rw [optionalInt]
  split
  · exact .ok
  · exact .ok
  · rename_i value _ hvalue
    exact (value.refuses_toInt.map some).mono fun _ =>
      .imp_right (.imp_right fun h => ⟨value, hvalue, h⟩)

theorem refuses_numberOf (field : String × Bool) : Refuses (numberOf fields field) fun refusal =>
    refusal.IsInvalidity ∨ refusal = .overflow .infinite ∧ InfiniteAt fields field.1 := by
  obtain ⟨name, optional⟩ := field
  cases optional with
  | false => exact (refuses_requiredInt fields name).map some
  | true => exact refuses_optionalInt fields name

variable {fields}

theorem requiredInt_of_field? {name : String} {value : Datum}
    (h : Datum.field? name fields = some value) : requiredInt name fields = value.toInt := by
  rw [requiredInt, h]

theorem optionalInt_of_field? {name : String} {value : Datum}
    (h : Datum.field? name fields = some value) (hnull : value ≠ .null) :
    optionalInt name fields = value.toInt.map some := by
  rw [optionalInt, h]
  split
  · contradiction
  · rename_i heq
    exact absurd (Option.some.inj heq) hnull
  · rename_i heq
    obtain rfl := Option.some.inj heq
    rfl

/-- An infinite number overflows, and nothing else does. -/
theorem numberOf_eq_overflow_iff {field : String × Bool} :
    numberOf fields field = .error (.overflow .infinite) ↔ InfiniteAt fields field.1 := by
  constructor
  · intro h
    obtain hinvalid | ⟨-, hinfinite⟩ := refuses_numberOf fields field _ h
    · cases hinvalid
    · exact hinfinite
  · rintro ⟨value, hvalue, hinfinite⟩
    have hread := Datum.toInt_of_isInfinite hinfinite
    have hnull : value ≠ .null := by
      obtain ⟨x, negative, rfl, -⟩ := hinfinite
      nofun
    obtain ⟨name, optional⟩ := field
    cases optional with
    | false => rw [numberOf, requiredInt_of_field? hvalue, hread, map_error]
    | true => rw [numberOf, optionalInt_of_field? hvalue hnull, hread, map_error]

end Numbers

/-! ### Fields -/

/-- That fields give the numbers, the label and the mode of a configuration. -/
structure Describes (fields : List (String × Datum)) (config : Config) : Prop where
  participants_eq : requiredInt "participants" fields = .ok config.participants
  threshold_eq : requiredInt "threshold" fields = .ok config.threshold
  keys_eq : optionalInt "keys" fields = .ok config.keys
  maxWorkers_eq : optionalInt "max_workers" fields = .ok config.maxWorkers
  label_eq : RunLabel.ofField (Datum.field? "context" fields) = .ok config.label
  mapMode_eq : modeOf (Datum.field? "map_mode" fields) = .ok config.mapMode

theorem readFields_eq_ok_iff {fields : List (String × Datum)} {config : Config} :
    readFields fields = .ok config ↔ Describes fields config ∧ config.Valid := by
  simp only [readFields, bind_eq_ok_iff, pure_eq_ok, Except.ok.injEq]
  constructor
  · rintro ⟨participants, hparticipants, threshold, hthreshold, keys, hkeys, maxWorkers,
      hmaxWorkers, label, hlabel, mapMode, hmapMode, ⟨⟩, hvalid, rfl⟩
    exact ⟨⟨hparticipants, hthreshold, hkeys, hmaxWorkers, hlabel, hmapMode⟩,
      validate_eq_ok_iff.1 hvalid⟩
  · rintro ⟨⟨hparticipants, hthreshold, hkeys, hmaxWorkers, hlabel, hmapMode⟩, hvalid⟩
    exact ⟨_, hparticipants, _, hthreshold, _, hkeys, _, hmaxWorkers, _, hlabel, _, hmapMode, (),
      validate_eq_ok_iff.2 hvalid, rfl⟩

theorem refuses_label (field : Option Datum) :
    Refuses (RunLabel.ofField field) Error.IsInvalidity := by
  match field with
  | none => exact .ok
  | some (.illFormed s) => exact .error (.value _)
  | some .null | some (.bool _) | some (.int _) | some (.float _) | some (.text _)
  | some (.list _) | some (.table ..) | some (.moment ..) => exact .ok

theorem refuses_modeOf (field : Option Datum) : Refuses (modeOf field) Error.IsInvalidity := by
  rw [modeOf, MapMode.ofDatum.eq_def]
  split
  · exact .ok
  · exact .ok
  · split
    · exact .error (.configuration _)
    · exact .error (.value _)

/-- What is left to read behind the numbers. -/
def readRest (fields : List (String × Datum)) (participants threshold : Int)
    (keys maxWorkers : Option Int) : Except Error Config := do
  let label ← RunLabel.ofField (Datum.field? "context" fields)
  let mapMode ← modeOf (Datum.field? "map_mode" fields)
  let config := { participants, threshold, keys, label, mapMode, maxWorkers }
  config.validate
  return config

theorem readFields_eq (fields : List (String × Datum)) : readFields fields = (do
    let participants ← requiredInt "participants" fields
    let threshold ← requiredInt "threshold" fields
    let keys ← optionalInt "keys" fields
    let maxWorkers ← optionalInt "max_workers" fields
    readRest fields participants threshold keys maxWorkers) := rfl

theorem refuses_readRest (fields : List (String × Datum)) (participants threshold : Int)
    (keys maxWorkers : Option Int) :
    Refuses (readRest fields participants threshold keys maxWorkers) Error.IsInvalidity :=
  .bind (refuses_label _) fun _ => .bind (refuses_modeOf _) fun _ =>
    .bind (refuses_validate _) fun _ => .ok

theorem refuses_readFields (fields : List (String × Datum)) : Refuses (readFields fields)
    fun refusal => refusal.IsInvalidity ∨ refusal = .overflow .infinite := by
  have hrequired (name : String) : Refuses (requiredInt name fields) fun refusal =>
      refusal.IsInvalidity ∨ refusal = .overflow .infinite :=
    (refuses_requiredInt fields name).mono fun _ => .imp_right And.left
  have hoptional (name : String) : Refuses (optionalInt name fields) fun refusal =>
      refusal.IsInvalidity ∨ refusal = .overflow .infinite :=
    (refuses_optionalInt fields name).mono fun _ => .imp_right And.left
  rw [readFields_eq]
  exact .bind (hrequired _) fun _ => .bind (hrequired _) fun _ => .bind (hoptional _) fun _ =>
    .bind (hoptional _) fun _ => (refuses_readRest fields _ _ _ _).mono fun _ => .inl

/-- Reading overflows where reading the numbers does. -/
theorem readFields_eq_overflow_iff {fields : List (String × Datum)} :
    readFields fields = .error (.overflow .infinite) ↔
      numberFields.mapM (numberOf fields) = .error (.overflow .infinite) := by
  rw [readFields_eq]
  simp only [numberFields, List.mapM_cons, List.mapM_nil, numberOf]
  cases requiredInt "participants" fields with
  | error refusal => simp
  | ok participants =>
  cases requiredInt "threshold" fields with
  | error refusal => simp
  | ok threshold =>
  cases optionalInt "keys" fields with
  | error refusal => simp
  | ok keys =>
  cases optionalInt "max_workers" fields with
  | error refusal => simp
  | ok maxWorkers =>
    -- behind the numbers nothing overflows
    refine iff_of_false (fun h => ?_) (by simp)
    cases refuses_readRest fields participants threshold keys maxWorkers _ h

/-- That the first number which cannot be read is infinite. -/
def StopsAtInfinity (fields : List (String × Datum)) : Prop :=
  ∃ before field after, numberFields = before ++ field :: after ∧
    (∀ other ∈ before, ∃ n, numberOf fields other = .ok n) ∧ InfiniteAt fields field.1

/-- What reading fields comes to: the configuration that they describe if it is valid, and else a
refusal. An infinite number is the only one that is not refused as a wrong configuration. -/
structure Reading (fields : List (String × Datum)) : Prop where
  eq_ok_iff : ∀ config, ofFields fields = .ok config ↔ Describes fields config ∧ config.Valid
  refusal : ∀ refusal, ofFields fields = .error refusal →
    (∃ fault, refusal = .configuration fault) ∨ refusal = .overflow .infinite
  eq_overflow_iff : ofFields fields = .error (.overflow .infinite) ↔ StopsAtInfinity fields

theorem exists_invalidate {refusal : Error} (h : refusal.IsInvalidity) :
    ∃ fault, invalidate refusal = .configuration fault := by
  cases h <;> exact ⟨_, rfl⟩

/-- Fields are read, refused as no configuration, or stopped at an infinite number. -/
theorem ofFields_cases (fields : List (String × Datum)) :
    (∃ config, readFields fields = .ok config ∧ ofFields fields = .ok config) ∨
    (∃ refusal fault, refusal.IsInvalidity ∧ readFields fields = .error refusal ∧
      ofFields fields = .error (.configuration fault)) ∨
    readFields fields = .error (.overflow .infinite) ∧
      ofFields fields = .error (.overflow .infinite) := by
  rw [ofFields]
  cases hread : readFields fields with
  | ok config => exact .inl ⟨config, rfl, rfl⟩
  | error refusal =>
    obtain hinvalid | rfl := refuses_readFields fields refusal hread
    · obtain ⟨fault, hfault⟩ := exists_invalidate hinvalid
      exact .inr (.inl ⟨refusal, fault, hinvalid, rfl, congrArg Except.error hfault⟩)
    · exact .inr (.inr ⟨rfl, rfl⟩)

/-- Any fields are read as the valid configuration that they describe, or refused. -/
theorem read_ofFields (fields : List (String × Datum)) : Reading fields where
  eq_ok_iff config := by
    rw [← readFields_eq_ok_iff]
    obtain ⟨config', hread, hof⟩ | ⟨refusal, fault, -, hread, hof⟩ | ⟨hread, hof⟩ :=
      ofFields_cases fields
    all_goals simp [hread, hof]
  refusal refusal hrefusal := by
    obtain ⟨config', -, hof⟩ | ⟨_, fault, -, -, hof⟩ | ⟨-, hof⟩ := ofFields_cases fields
    all_goals rw [hof] at hrefusal
    · cases hrefusal
    · exact .inl ⟨fault, (Except.error.inj hrefusal).symm⟩
    · exact .inr (Except.error.inj hrefusal).symm
  eq_overflow_iff := by
    have hstops : readFields fields = .error (.overflow .infinite) ↔ StopsAtInfinity fields := by
      rw [readFields_eq_overflow_iff, mapM_eq_error_iff]
      simp only [numberOf_eq_overflow_iff, StopsAtInfinity]
    rw [← hstops]
    obtain ⟨config', hread, hof⟩ | ⟨refusal, fault, hinvalid, hread, hof⟩ | ⟨hread, hof⟩ :=
      ofFields_cases fields
    · simp [hread, hof]
    · rw [hread, hof]
      cases hinvalid <;> simp
    · simp [hread, hof]

end Config

end ThresholdKeygen
