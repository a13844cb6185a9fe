import DgcRestApi.Processor.Values
import Mathlib.Data.List.AList

/-!
# The record actions

`_create_participant`, `_create_record`, `_finalize_record`, `_create_table`,
`_update_properties` and `_revoke_reporter` of the handler, each as a function from the
state to the new state or an error. `expect` is the source's `match` of a lookup whose
`None` arm returns an error.
-/

namespace DgcRestApi
open Fallible Keyed

/-- A `HashMap<&str, V>`. -/
abbrev HashMap (α : Type) := AList (fun _ : String => α)

/-- The map filled by inserting every element under its name: the last one wins. -/
def insertByName {α : Type} (name : α → String) (l : List α) : HashMap α :=
  l.foldl (fun m a => m.insert (name a) a) ∅

/-- The order in which a hash map is iterated, any permutation of its entries. -/
structure IterOrder where
  order : {α : Type} → List (Sigma fun _ : String => α) → List (Sigma fun _ : String => α)
  perm : ∀ {α : Type} (es : List (Sigma fun _ : String => α)), (order es).Perm es

/-- The iteration orders of the three maps of `_create_record` in one execution. -/
structure Orders where
  tableSchema : IterOrder
  requiredProperties : IterOrder
  providedProperties : IterOrder

def createParticipant (env : Env) (payload : CreateParticipantAction) (state : State)
    (signer : String) (timestamp : Nat) : Except ApplyError State := do
  let name := payload.name
  absent (getParticipant env state signer)
    fun _ => .InvalidTransaction ("Participant already exists: " ++ name)
  setParticipant env state signer { publicKey := signer, name, timestamp }

def tableSchema (table : Table) : HashMap PropertySchema :=
  insertByName PropertySchema.name table.properties

def requiredProperties (table : Table) : HashMap PropertySchema :=
  insertByName PropertySchema.name (table.properties.filter (·.required))

def providedProperties (payload : CreateRecordAction) : HashMap PropertyValue :=
  insertByName PropertyValue.name payload.properties

/-- The loop body over the provided properties. -/
def checkProvided (schema : HashMap PropertySchema) (providedName : String)
    (provided : PropertyValue) : Except ApplyError Unit := do
  let required ← expect (.ok (schema.lookup providedName)) (.InvalidTransaction
    ("Provided property " ++ (providedName ++ " is not in schemata")))
  rejectIf (provided.dataType ≠ required.dataType) (.InvalidTransaction
    ("Value provided for " ++ (providedName ++ " is the wrong type")))
  rejectIf ((schema.lookup providedName).any (·.delayed)) (.InvalidTransaction
    ("Property is 'delayed', and cannot be set at record creation: " ++ providedName))

def newProperty (recordId signer propertyName : String) (property : PropertySchema) : Property :=
  { name := propertyName
    recordId
    dataType := property.dataType
    reporters := [{ publicKey := signer, authorized := true, index := 0 }]
    currentPage := 1
    wrapped := false
    fixed := property.fixed
    numberExponent := property.numberExponent
    enumOptions := property.enumOptions
    structProperties := property.structProperties
    unit := property.unit }

def newRecord (payload : CreateRecordAction) (signer : String) (timestamp : Nat) : Record :=
  let owner : AssociatedParticipant := { participantId := signer, timestamp }
  { recordId := payload.recordId
    table := payload.table
    owners := [owner]
    custodians := [owner]
    final := false }

/-- The values a new page starts with: the provided one, or none. -/
def initialValues (timestamp : Nat) (provided : Option PropertyValue) (property : Property) :
    Except ApplyError (List ReportedValue) :=
  match provided with
  | some value => do
    let reportedValue ← makeNewReportedValue 0 timestamp value property
    return [reportedValue]
  | none => return []

/-- `map[&key]`, which panics when there is no such key. -/
def mapIndex {α : Type} (map : HashMap α) (name : String) : Except ApplyError α :=
  match map.lookup name with
  | some value => .ok value
  | none => .error (.Panic "no entry found for key")

/-- The provided value of a property, indexed only when the map contains it. -/
def providedValue (provided : HashMap PropertyValue) (name : String) :
    Except ApplyError (Option PropertyValue) :=
  if name ∈ provided then do
    let value ← mapIndex provided name
    return some value
  else return none

theorem providedValue_eq (provided : HashMap PropertyValue) (name : String) :
    providedValue provided name = .ok (provided.lookup name) := by
  rw [providedValue,mapIndex]
  split
  · next hmem =>
    obtain ⟨value,hvalue⟩ := Option.isSome_iff_exists.mp (AList.lookup_isSome.mpr hmem)
    rw [hvalue]
    rfl
  · next hmem =>
    rw [AList.lookup_eq_none.mpr hmem]
    rfl

/-- The loop body over the table schema: the property and its first page. -/
def initProperty (env : Env) (recordId signer : String) (timestamp : Nat)
    (provided : HashMap PropertyValue) (state : State)
    (entry : Sigma fun _ : String => PropertySchema) : Except ApplyError State := do
  let property := newProperty recordId signer entry.1 entry.2
  let state ← setProperty env state recordId entry.1 property
  let value ← providedValue provided entry.1
  let reportedValues ← initialValues timestamp value property
  setPropertyPage env state recordId entry.1 1 { name := entry.1, recordId, reportedValues }

def createRecord (env : Env) (orders : Orders) (payload : CreateRecordAction) (state : State)
    (signer : String) (timestamp : Nat) : Except ApplyError State := do
  let _ ← expect (getParticipant env state signer) (.InvalidTransaction
    ("Participant is not register: " ++ signer))
  let recordId := payload.recordId
  absent (getRecord env state recordId)
    fun _ => .InvalidTransaction ("Record already exists: " ++ recordId)
  let name := payload.table
  let table ← expect (getTable env state name) (.InvalidTransaction
    ("Table does not exist " ++ name))
  let schema := tableSchema table
  let required := requiredProperties table
  let provided := providedProperties payload
  (orders.requiredProperties.order required.entries).forM fun entry =>
    rejectIf (entry.1 ∉ provided) (.InvalidTransaction
      ("Required property " ++ (entry.1 ++ " not provided")))
  (orders.providedProperties.order provided.entries).forM fun entry =>
    checkProvided schema entry.1 entry.2
  let state ← setRecord env state recordId (newRecord payload signer timestamp)
  (orders.tableSchema.order schema.entries).foldlM
    (initProperty env recordId signer timestamp provided) state

def finalizeRecord (env : Env) (payload : FinalizeRecordAction) (state : State)
    (signer : String) : Except ApplyError State := do
  let recordId := payload.recordId
  let finalRecord ← expect (getRecord env state recordId) (.InvalidTransaction
    ("Record does not exist: " ++ recordId))
  let owner ← expect (.ok finalRecord.owners.getLast?) (.InvalidTransaction
    "Owner was not found")
  let custodian ← expect (.ok finalRecord.custodians.getLast?) (.InvalidTransaction
    "Custodian was not found")
  rejectIf (owner.participantId ≠ signer ∨ custodian.participantId ≠ signer)
    (.InvalidTransaction "Must be owner and custodian to finalize record")
  rejectIf finalRecord.final (.InvalidTransaction ("Record is already final: " ++ recordId))
  setRecord env state recordId { finalRecord with final := true }

def createTable (env : Env) (payload : CreateTableAction) (state : State) (signer : String) :
    Except ApplyError State := do
  let name := payload.name
  -- the message names the signer, not the table
  absent (getTable env state name)
    fun _ => .InvalidTransaction ("Table already exists: " ++ signer)
  setTable env state name { name, properties := payload.properties }

def PROPERTY_PAGE_MAX_LENGTH : Nat := 256

/-- `a + b` on `u32` with overflow checks on. -/
def addU32 (a b : Nat) : Except ApplyError Nat :=
  if a + b < 2 ^ 32 then .ok (a + b) else .error (.Panic "attempt to add with overflow")

/-- The first reporter entry of the signer that is authorized. -/
def authorizedReporter (reporters : List Reporter) (signer : String) : Option Reporter :=
  reporters.find? (fun reporter => reporter.publicKey = signer && reporter.authorized)

theorem authorizedReporter_eq_some {reporters : List Reporter} {signer : String} {rep : Reporter}
    (h : authorizedReporter reporters signer = some rep) :
    rep ∈ reporters ∧ rep.publicKey = signer ∧ rep.authorized = true :=
  ⟨List.mem_of_find?_eq_some h,by simpa using List.find?_some h⟩

/-- Push a value and sort by timestamp, then by reporter index. -/
def pushReportedValue (page : PropertyPage) (value : ReportedValue) : PropertyPage :=
  let rank := fun rv : ReportedValue => toLex (rv.timestamp,rv.reporterIndex)
  { page with reportedValues := sortByKey rank (page.reportedValues ++ [value]) }

/-- The page number that follows a full page. -/
def nextPageNumber (pageNumber : Nat) : Except ApplyError Nat := do
  let next ← addU32 pageNumber 1
  -- a page number is compared with the capacity of a page
  return if next ≤ PROPERTY_PAGE_MAX_LENGTH then 1 else next

/-- The next page starts empty, whether it is new or written before. -/
def clearedPage (recordId name : String) (page : Option PropertyPage) : PropertyPage :=
  match page with
  | some newPage => { newPage with reportedValues := [] }
  | none => { name, recordId }

/-- A cleared page keeps its name and, up to `f`, its record. -/
theorem clearedPage_key {β : Type} {f : String → β} {r n : String} {page : Option PropertyPage}
    (h : ∀ p, page = some p → p.name = n ∧ f p.recordId = f r) :
    (clearedPage r n page).name = n ∧ f (clearedPage r n page).recordId = f r := by
  cases page with
  | none => exact ⟨rfl,rfl⟩
  | some p => exact h p rfl

def turnPage (prop : Property) (newPageNumber : Nat) : Property :=
  { prop with
    currentPage := newPageNumber
    wrapped := if newPageNumber = 1 ∧ !prop.wrapped then true else prop.wrapped }

/-- The loop body of `_update_properties`, for one update. -/
def updateProperty (env : Env) (recordId signer : String) (timestamp : Nat) (state : State)
    (update : PropertyValue) : Except ApplyError State := do
  let name := update.name
  let prop ← expect (getProperty env state recordId name) (.InvalidTransaction
    ("Record does not have provided poperty: " ++ name))
  let reporter ← expect (.ok (authorizedReporter prop.reporters signer)) (.InvalidTransaction
    ("Reporter is not authorized: " ++ signer))
  rejectIf prop.fixed (.InvalidTransaction
    ("Property is fixed and cannot be updated: " ++ prop.name))
  rejectIf (update.dataType ≠ prop.dataType) (.InvalidTransaction
    ("Update has wrong type: " ++ (update.dataType.debug ++ (" != " ++ prop.dataType.debug))))
  let pageNumber := prop.currentPage
  let page ← expect (getPropertyPage env state recordId name pageNumber) (.InvalidTransaction
    "Property page does not exist")
  let reportedValue ← makeNewReportedValue reporter.index timestamp update prop
  let page := pushReportedValue page reportedValue
  let state ← setPropertyPage env state recordId name pageNumber page
  if page.reportedValues.length ≥ PROPERTY_PAGE_MAX_LENGTH then do
    let newPageNumber ← nextPageNumber pageNumber
    let oldPage ← getPropertyPage env state recordId name newPageNumber
    let state ← setPropertyPage env state recordId name newPageNumber
      (clearedPage recordId name oldPage)
    setProperty env state recordId name (turnPage prop newPageNumber)
  else return state

def updateProperties (env : Env) (payload : UpdatePropertiesAction) (state : State)
    (signer : String) (timestamp : Nat) : Except ApplyError State := do
  let recordId := payload.recordId
  let updateRecord ← expect (getRecord env state recordId) (.InvalidTransaction
    ("Record does not exist: " ++ recordId))
  rejectIf updateRecord.final (.InvalidTransaction ("Record is final: " ++ recordId))
  payload.properties.foldlM (updateProperty env recordId signer timestamp) state

/-- The loop body of `_revoke_reporter` over the reporters: the flag and the rebuilt list. -/
def revokeEntry (reporterId : String) (acc : Bool × List Reporter) (reporter : Reporter) :
    Except ApplyError (Bool × List Reporter) :=
  if reporter.publicKey = reporterId then do
    rejectIf (!reporter.authorized) (.InvalidTransaction "Reporter is already unauthorized.")
    return (true,acc.2 ++ [{ reporter with authorized := false }])
  else return (acc.1,acc.2 ++ [reporter])

/-- The loop body of `_revoke_reporter` over the property names. -/
def revokeProperty (env : Env) (recordId reporterId : String) (state : State)
    (propName : String) : Except ApplyError State := do
  let prop ← expect (getProperty env state recordId propName) (.InvalidTransaction
    "Property does not exists")
  let (revoked,newReporters) ← prop.reporters.foldlM (revokeEntry reporterId) (false,[])
  rejectIf (!revoked) (.InvalidTransaction ("Reporter cannot be revoked: " ++ reporterId))
  setProperty env state recordId propName { prop with reporters := newReporters }

def revokeReporter (env : Env) (payload : RevokeReporterAction) (state : State)
    (signer : String) : Except ApplyError State := do
  let recordId := payload.recordId
  let revokeRecord ← expect (getRecord env state recordId) (.InvalidTransaction
    ("Record does not exists: " ++ recordId))
  let owner ← expect (.ok revokeRecord.owners.getLast?) (.InvalidTransaction
    "Owner was not found")
  rejectIf (owner.participantId ≠ signer) (.InvalidTransaction
    "Must be owner to revoke reporters")
  rejectIf revokeRecord.final (.InvalidTransaction ("Record is final: " ++ recordId))
  payload.properties.foldlM (revokeProperty env recordId payload.reporterId) state

end DgcRestApi
