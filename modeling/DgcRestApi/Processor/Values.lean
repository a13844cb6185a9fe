import DgcRestApi.Processor.State

/-!
# Reported values

`_make_new_reported_value` turns a submitted value into the one that is stored, and
`_validate_struct_values` checks a struct against its schema at every depth.
-/

namespace DgcRestApi
open Fallible

/-- A cast `as u32`. -/
def asU32 (n : Nat) : Nat := n % 2 ^ 32

/-- The length test that opens `_validate_struct_values`. -/
def checkStructLength (structValues : List PropertyValue)
    (schemaValues : List PropertySchema) : Except ApplyError Unit :=
  rejectIf (structValues.length ≠ schemaValues.length)
    (.InvalidTransaction ("Provided struct does not match schema length: " ++
      (toString structValues.length ++ (" != " ++ toString schemaValues.length))))

mutual

/-- The loop body of `_validate_struct_values`, for one schema entry. -/
def validateStructMember (structValues : List PropertyValue) :
    PropertySchema → Except ApplyError Unit
  | { name, dataType, structProperties, .. } =>
    match structValues.find? (fun val => val.name = name) with
    | none => .error (.InvalidTransaction
        ("Provided struct missing required property from schema: " ++ name))
    | some value =>
      if value.dataType ≠ dataType then
        .error (.InvalidTransaction ("Struct property \"" ++
          (name ++ ("\" must have data type: " ++ dataType.debug))))
      else if dataType = .STRUCT then
        match checkStructLength value.structValues structProperties with
        | .ok _ => validateStructMembers value.structValues structProperties
        | .error e => .error e
      else .ok ()

/-- The loop of `_validate_struct_values` over the schema entries. -/
def validateStructMembers (structValues : List PropertyValue) :
    List PropertySchema → Except ApplyError Unit
  | [] => .ok ()
  | schema :: schemas =>
    match validateStructMember structValues schema with
    | .ok _ => validateStructMembers structValues schemas
    | .error e => .error e

end

def validateStructValues (structValues : List PropertyValue)
    (schemaValues : List PropertySchema) : Except ApplyError Unit :=
  match checkStructLength structValues schemaValues with
  | .ok _ => validateStructMembers structValues schemaValues
  | .error e => .error e

/-- At a struct member the loop body is the recursive call of the source. -/
theorem validateStructMember_eq (structValues : List PropertyValue) (schema : PropertySchema) :
    validateStructMember structValues schema =
      match structValues.find? (fun val => val.name = schema.name) with
      | none => .error (.InvalidTransaction
          ("Provided struct missing required property from schema: " ++ schema.name))
      | some value =>
        if value.dataType ≠ schema.dataType then
          .error (.InvalidTransaction ("Struct property \"" ++
            (schema.name ++ ("\" must have data type: " ++ schema.dataType.debug))))
        else if schema.dataType = .STRUCT then
          validateStructValues value.structValues schema.structProperties
        else .ok () := by
  cases schema
  rw [validateStructMember]
  rfl

theorem checkStructLength_eq_ok {structValues : List PropertyValue}
    {schemaValues : List PropertySchema} :
    checkStructLength structValues schemaValues = .ok () ↔
      structValues.length = schemaValues.length := by
  rw [checkStructLength,rejectIf_eq_ok,not_not]

theorem validateStructMembers_eq_ok {structValues : List PropertyValue}
    {schemas : List PropertySchema} :
    validateStructMembers structValues schemas = .ok () ↔
      ∀ schema ∈ schemas, validateStructMember structValues schema = .ok () := by
  induction schemas with
  | nil => simp [validateStructMembers]
  | cons schema schemas ih =>
    rw [validateStructMembers,List.forall_mem_cons,← ih]
    cases validateStructMember structValues schema with
    | ok _ => exact (and_iff_right rfl).symm
    | error e => exact iff_of_false nofun fun h => nomatch h.1

/-- What a struct is accepted for: as many values as entries, and for each entry a value of
its name whose data type is the entry's, and which is accepted in turn if that is a struct. -/
theorem validateStructValues_eq_ok {structValues : List PropertyValue}
    {schemas : List PropertySchema} :
    validateStructValues structValues schemas = .ok () ↔ structValues.length = schemas.length ∧
      ∀ schema ∈ schemas, ∃ value,
        structValues.find? (fun val => val.name = schema.name) = some value ∧
          value.dataType = schema.dataType ∧ (schema.dataType = .STRUCT →
            validateStructValues value.structValues schema.structProperties = .ok ()) := by
  have hmember : ∀ schema, validateStructMember structValues schema = .ok () ↔ ∃ value,
      structValues.find? (fun val => val.name = schema.name) = some value ∧
        value.dataType = schema.dataType ∧ (schema.dataType = .STRUCT →
          validateStructValues value.structValues schema.structProperties = .ok ()) := by
    intro schema
    rw [validateStructMember_eq]
    cases structValues.find? (fun val => val.name = schema.name) with
    | none => simp
    | some value => by_cases htype : value.dataType = schema.dataType <;> simp [htype]
  rw [← checkStructLength_eq_ok,← forall₂_congr fun schema _ => hmember schema,
    ← validateStructMembers_eq_ok,validateStructValues]
  cases checkStructLength structValues schemas with
  | ok _ => exact (and_iff_right rfl).symm
  | error e => exact iff_of_false nofun fun h => nomatch h.1

/-- The stored form of a submitted value: only the field of its data type is set. -/
def makeNewReportedValue (reporterIndex timestamp : Nat) (value : PropertyValue)
    (property : Property) : Except ApplyError ReportedValue :=
  let reportedValue : ReportedValue := { reporterIndex, timestamp }
  match value.dataType with
  | .TYPE_UNSET => .error (.InvalidTransaction "DataType is not set")
  | .BYTES => .ok { reportedValue with bytesValue := value.bytesValue }
  | .BOOLEAN => .ok { reportedValue with booleanValue := value.booleanValue }
  | .NUMBER => .ok { reportedValue with numberValue := value.numberValue }
  | .STRING => .ok { reportedValue with stringValue := value.stringValue }
  | .ENUM =>
    match property.enumOptions.findIdx? (fun name => name = value.enumValue) with
    | some index => .ok { reportedValue with enumValue := asU32 index }
    | none => .error (.InvalidTransaction
        ("Provided enum name is not a valid option: " ++ value.enumValue))
  | .STRUCT =>
    match validateStructValues value.structValues property.structProperties with
    | .ok _ => .ok { reportedValue with structValues := value.structValues }
    | .error e => .error e
  | .LOCATION => .ok { reportedValue with locationValue := some (value.locationValue.getD {}) }

/-- What an accepted value is stored as. -/
inductive Makes (i t : Nat) (value : PropertyValue) (property : Property) : ReportedValue → Prop
  | bytes (h : value.dataType = .BYTES) : Makes i t value property
      { reporterIndex := i, timestamp := t, bytesValue := value.bytesValue }
  | boolean (h : value.dataType = .BOOLEAN) : Makes i t value property
      { reporterIndex := i, timestamp := t, booleanValue := value.booleanValue }
  | number (h : value.dataType = .NUMBER) : Makes i t value property
      { reporterIndex := i, timestamp := t, numberValue := value.numberValue }
  | string (h : value.dataType = .STRING) : Makes i t value property
      { reporterIndex := i, timestamp := t, stringValue := value.stringValue }
  | enum {index : Nat} (h : value.dataType = .ENUM)
      (hindex : property.enumOptions.findIdx? (fun name => name = value.enumValue) =
        some index) : Makes i t value property
      { reporterIndex := i, timestamp := t, enumValue := asU32 index }
  | struct (h : value.dataType = .STRUCT)
      (hstruct : validateStructValues value.structValues property.structProperties = .ok ()) :
      Makes i t value property
        { reporterIndex := i, timestamp := t, structValues := value.structValues }
  | location (h : value.dataType = .LOCATION) : Makes i t value property
      { reporterIndex := i, timestamp := t, locationValue := some (value.locationValue.getD {}) }

theorem makeNewReportedValue_eq_ok {i t : Nat} {value : PropertyValue} {property : Property}
    {v : ReportedValue} :
    makeNewReportedValue i t value property = .ok v ↔ Makes i t value property v := by
  constructor
  · intro h
    unfold makeNewReportedValue at h
    split at h
    case h_1 => exact nomatch h
    case h_2 hd => cases h; exact .bytes hd
    case h_3 hd => cases h; exact .boolean hd
    case h_4 hd => cases h; exact .number hd
    case h_5 hd => cases h; exact .string hd
    case h_6 hd =>
      split at h
      · next hindex => cases h; exact .enum hd hindex
      · exact nomatch h
    case h_7 hd =>
      split at h
      · next hstruct => cases h; exact .struct hd hstruct
      · exact nomatch h
    case h_8 hd => cases h; exact .location hd
  · rintro (hd | hd | hd | hd | ⟨hd,hindex⟩ | ⟨hd,hstruct⟩ | hd)
    all_goals simp only [makeNewReportedValue,hd]
    · simp only [hindex]
    · simp only [hstruct]

/-- A stored value carries the reporter and the timestamp it was made with. -/
theorem Makes.made {i t : Nat} {value : PropertyValue} {property : Property} {v : ReportedValue}
    (h : Makes i t value property v) : v.reporterIndex = i ∧ v.timestamp = t := by
  cases h <;> exact ⟨rfl,rfl⟩

/-- The errors a submitted value is refused with. -/
inductive ValueError : ApplyError → Prop
  | unset : ValueError (.InvalidTransaction "DataType is not set")
  | option (name : String) :
      ValueError (.InvalidTransaction ("Provided enum name is not a valid option: " ++ name))
  | length (m n : Nat) :
      ValueError (.InvalidTransaction ("Provided struct does not match schema length: " ++
        (toString m ++ (" != " ++ toString n))))
  | missing (name : String) :
      ValueError (.InvalidTransaction
        ("Provided struct missing required property from schema: " ++ name))
  | mistyped (name : String) (dataType : DataType) :
      ValueError (.InvalidTransaction ("Struct property \"" ++
        (name ++ ("\" must have data type: " ++ dataType.debug))))

theorem checkStructLength_raises {structValues : List PropertyValue}
    {schemaValues : List PropertySchema} :
    Raises (checkStructLength structValues schemaValues) ValueError :=
  raises_rejectIf (.length _ _)

mutual

theorem validateStructMember_raises {structValues : List PropertyValue} :
    ∀ schema, Raises (validateStructMember structValues schema) ValueError
  | { name, dataType, structProperties, .. } => by
    unfold validateStructMember
    split
    · exact raises_error (.missing name)
    · split
      · exact raises_error (.mistyped name dataType)
      · split
        · split
          · exact validateStructMembers_raises structProperties
          · next e hlen => exact raises_error (checkStructLength_raises e hlen)
        · exact raises_ok ()

theorem validateStructMembers_raises {structValues : List PropertyValue} :
    ∀ schemas, Raises (validateStructMembers structValues schemas) ValueError
  | [] => by
    unfold validateStructMembers
    exact raises_ok ()
  | schema :: schemas => by
    unfold validateStructMembers
    split
    · exact validateStructMembers_raises schemas
    · next e hschema => exact raises_error (validateStructMember_raises schema e hschema)

end

theorem validateStructValues_raises {structValues : List PropertyValue}
    {schemaValues : List PropertySchema} :
    Raises (validateStructValues structValues schemaValues) ValueError := by
  rw [validateStructValues]
  split
  · exact validateStructMembers_raises schemaValues
  · next e hlen => exact raises_error (checkStructLength_raises e hlen)

theorem makeNewReportedValue_raises {i t : Nat} {value : PropertyValue} {property : Property} :
    Raises (makeNewReportedValue i t value property) ValueError := by
  unfold makeNewReportedValue
  split
  case h_1 => exact raises_error .unset
  case h_6 =>
    split
    · exact raises_ok _
    · exact raises_error (.option _)
  case h_7 =>
    split
    · exact raises_ok _
    · next e hstruct => exact raises_error (validateStructValues_raises e hstruct)
  all_goals exact raises_ok _

/-- Of the property only the options and the struct schema are read. -/
theorem makeNewReportedValue_congr (i t : Nat) (value : PropertyValue) {p q : Property}
    (he : p.enumOptions = q.enumOptions) (hs : p.structProperties = q.structProperties) :
    makeNewReportedValue i t value p = makeNewReportedValue i t value q := by
  unfold makeNewReportedValue
  rw [he,hs]

end DgcRestApi
