import DgcRestApi.Kit.Reql
import DgcRestApi.LedgerSync.Db

/-!
# Queries for records

`retrieveRecords` of `db/records.js`: the records of a table whose properties have the values
that the client asks for. The query looks for a value in all fields of all reported values of a
property, and maps a record that has it not to an empty object instead of leaving it out.
`deleteRecords` of `transaction/records.js` finalizes whatever the query returns.
-/

namespace DgcRestApi.Server.Retrieval
open LedgerSync Fallible Keyed

/-! ## Values -/

/-- A field of a reported value, as it is stored. -/
inductive Stored
  | boolean (value : Bool)
  | number (value : Int)
  | string (value : String)
  | bytes (value : List UInt8)
  | location (value : Option Location)
  | enum (value : EnumDoc)
  | struct (value : List (String × FieldDoc))

/-- The field for a data type; `none` when the document does not have it. -/
def field (value : ReportedDoc) : DataType → Option Stored
  | .BOOLEAN => some (.boolean value.booleanValue)
  | .NUMBER => some (.number value.numberValue)
  | .STRING => some (.string value.stringValue)
  | .BYTES => some (.bytes value.bytesValue)
  | .LOCATION => some (.location value.locationValue)
  | .ENUM => if value.enumValue = .undefined then none else some (.enum value.enumValue)
  | .STRUCT => value.structValue.map .struct
  | .TYPE_UNSET => none

/-- What is left to the database and to JavaScript: the comparison of a stored value with one
of the client, and whether the latter is the number zero. -/
structure Comparison (Q : Type) where
  eq : Stored → Q → Bool
  isZero : Q → Bool

/-- The arguments of `retrieveRecords`; the query is an object with a key at least. -/
structure Params (Q : Type) where
  table : String
  query : List (String × Q)
  privateKey : String
  nonempty : query ≠ []

/-! ## Documents at a block -/

section Documents

variable (db : Db) (block : Nat)

def records : List Record :=
  (LedgerSync.getTable .records block db).filterMap fun doc => doc.body.toRecord

def properties : List Property :=
  (LedgerSync.getTable .properties block db).filterMap fun doc => doc.body.toProperty

def propertyPages : List PageDoc :=
  (LedgerSync.getTable .propertyPages block db).filterMap fun doc => doc.body.toPage

/-- The visible records of the table that are not final. -/
def candidates {Q : Type} (params : Params Q) : List Record :=
  (records db block).filter fun record => record.table = params.table && !record.final

def pagesOf (recordId : String) : List PageDoc :=
  (propertyPages db block).filter fun page => page.recordId = recordId

def pagesNamed (recordId propertyName : String) : List PageDoc :=
  (pagesOf db block recordId).filter fun page => page.name = propertyName

/-- `nth(0)` fails when there is none. -/
def findProperty (recordId propertyName : String) : Option Property :=
  (properties db block).find? fun p => p.recordId = recordId && p.name = propertyName

end Documents

/-! ## Queries -/

/-- An element of the answer; `{}` is the empty object. -/
structure Result where
  recordId : Option String := none
  properties : List (String × Option Stored) := []

section Queries

variable {Q : Type} (c : Comparison Q) (db : Db) (block : Nat)

/-- The last value among those that have the field of the type, or `null`. -/
def getFieldValue (dataType : DataType) (values : List ReportedDoc) : Option Stored :=
  (values.filterMap fun value => field value dataType).getLast?

def findPropertyValues (recordId : String) : Option (List (String × Option Stored)) :=
  (pagesOf db block recordId).mapM fun page =>
    (findProperty db block recordId page.name).map fun resource =>
      (page.name,getFieldValue resource.dataType page.reportedValues)

def retrieveRecord (recordId : String) : Option Result :=
  (findPropertyValues db block recordId).bind fun values =>
    (Reql.object values).map fun properties => { recordId := some recordId, properties }

/-- The condition of the branch in `findRecordId`. -/
def equalsAny (value : ReportedDoc) (propertyValue : Q) : Option Bool :=
  Reql.or ([.BOOLEAN,.NUMBER,.STRING,.BYTES,.LOCATION,.ENUM,.STRUCT].map fun dataType =>
    (field value dataType).map fun stored => c.eq stored propertyValue)

/-- The element of `findRecordId` for a key of the query. -/
def findRecordId (recordId : String) (e : String × Q) : Option (List String) :=
  Reql.concatMap (fun page : PageDoc => Reql.concatMap (fun value =>
    (equalsAny c value e.2).map fun found => if found then [page.recordId] else [])
      page.reportedValues) (pagesNamed db block recordId e.1)

/-- The function that the second query maps over the records. -/
def selectRecord (params : Params Q) (record : Record) : Option Result :=
  (params.query.mapM (findRecordId c db block record.recordId)).bind fun ids =>
    let result := ids.map fun id => if id.isEmpty then 0 else 1
    if Reql.add result < result.length then some {} else retrieveRecord db block record.recordId

/-- `params.query.length === 0`: a query has a length only when this is one of its keys. -/
def lengthIsZero (params : Params Q) : Bool := (params.query.lookup "length").any c.isZero

def retrieveRecordsQuery (params : Params Q) : Option (List Result) :=
  if lengthIsZero c params then
    (candidates db block params).mapM fun record => retrieveRecord db block record.recordId
  else (candidates db block params).mapM (selectRecord c db block params)

/-- The promise is rejected when the query fails, or when there is no block. -/
def retrieveRecords (params : Params Q) : Option (List Result) :=
  (currentBlock db).bind fun block => retrieveRecordsQuery c db block params

/-- The transactions of `deleteRecords`, each with the key that signs it. The results are
mapped without waiting, so `final` finds as many of them as have `arrived` by then. A
`recordId` that is undefined is encoded as the empty one. -/
def deleteRecords (params : Params Q) (arrived : Nat) : List (String × FinalizeRecordAction) :=
  (((retrieveRecords c db params).getD []).take arrived).map fun param =>
    (params.privateKey,{ recordId := param.recordId.getD "" })

end Queries

/-! ## What the queries should find -/

section Wanted

variable {Q : Type} (c : Comparison Q) (db : Db) (block : Nat) (params : Params Q)

/-- The last reported value of the current page, in the field of the property's own type. -/
def currentValue (recordId propertyName : String) : Option Stored :=
  (findProperty db block recordId propertyName).bind fun p =>
    ((pagesNamed db block recordId propertyName).find? fun page =>
      page.pageNum = p.currentPage).bind fun page =>
        page.reportedValues.getLast?.bind fun value => field value p.dataType

/-- Every queried property has the queried value. -/
def wanted (record : Record) : Bool :=
  params.query.all fun e =>
    (currentValue db block record.recordId e.1).any fun stored => c.eq stored e.2

/-- The answer has one result for each record that is wanted, and no other. -/
def Selects : Prop := ∃ results, retrieveRecords c db params = some results ∧
  (results.map Result.recordId).Perm
    (((candidates db block params).filter (wanted c db block params)).map fun record =>
      some record.recordId)

/-- Only records that are wanted are finalized, however many results have arrived. -/
def FinalizesOnly : Prop := ∀ arrived, ∀ tx ∈ deleteRecords c db params arrived,
  ∃ record ∈ candidates db block params, wanted c db block params record = true ∧
    tx.2.recordId = record.recordId

/-- The properties of the record can be collected: each of its pages has a property, and no
two are of one name. -/
structure Retrievable (recordId : String) : Prop where
  found : ∀ page ∈ pagesOf db block recordId, ∃ p, findProperty db block recordId page.name = some p
  single : ((pagesOf db block recordId).map PageDoc.name).Nodup

/-- No comparison with a reported value of the queried property meets a missing field. -/
def Comparable (recordId : String) (e : String × Q) : Prop :=
  ∀ page ∈ pagesNamed db block recordId e.1, ∀ value ∈ page.reportedValues,
    ∃ b, equalsAny c value e.2 = some b

end Wanted

section Answers

variable {Q : Type} {c : Comparison Q} {db : Db} {block : Nat} {params : Params Q}
variable {recordId : String} {record : Record} {result : Result} {e : String × Q}

theorem findPropertyValues_names {values : List (String × Option Stored)}
    (h : findPropertyValues db block recordId = some values) :
    values.map Prod.fst = (pagesOf db block recordId).map PageDoc.name := by
  refine mapM_map h fun page _ b hb => ?_
  obtain ⟨p,_,rfl⟩ := Option.map_eq_some_iff.mp hb
  rfl

theorem retrieveRecord_recordId (h : retrieveRecord db block recordId = some result) :
    result.recordId = some recordId := by
  obtain ⟨values,_,h⟩ := Option.bind_eq_some_iff.mp h
  obtain ⟨properties,_,rfl⟩ := Option.map_eq_some_iff.mp h
  rfl

theorem retrieveRecord_exists :
    (∃ result, retrieveRecord db block recordId = some result) ↔ Retrievable db block recordId := by
  constructor
  · rintro ⟨result,h⟩
    obtain ⟨values,hvalues,h⟩ := Option.bind_eq_some_iff.mp h
    obtain ⟨properties,hobject,_⟩ := Option.map_eq_some_iff.mp h
    have hdistinct := (Reql.object_eq_some.mp hobject).1
    rw [Distinct,findPropertyValues_names hvalues] at hdistinct
    refine ⟨fun page hpage => ?_,hdistinct⟩
    obtain ⟨b,hb⟩ := mapM_exists.mp ⟨values,hvalues⟩ page hpage
    obtain ⟨p,hp,_⟩ := Option.map_eq_some_iff.mp hb
    exact ⟨p,hp⟩
  · rintro ⟨hfound,hsingle⟩
    obtain ⟨values,hvalues⟩ : ∃ values, findPropertyValues db block recordId = some values := by
      refine mapM_exists.mpr fun page hpage => ?_
      obtain ⟨p,hp⟩ := hfound page hpage
      exact ⟨_,Option.map_eq_some_iff.mpr ⟨p,hp,rfl⟩⟩
    have hdistinct : Distinct Prod.fst values := by
      rwa [Distinct,findPropertyValues_names hvalues]
    refine ⟨_,Option.bind_eq_some_iff.mpr ⟨values,hvalues,Option.map_eq_some_iff.mpr
      ⟨values,Reql.object_eq_some.mpr ⟨hdistinct,rfl⟩,rfl⟩⟩⟩

theorem findRecordId_exists :
    (∃ ids, findRecordId c db block recordId e = some ids) ↔ Comparable c db block recordId e := by
  rw [findRecordId,Reql.concatMap_exists]
  refine forall₂_congr fun page _ => ?_
  rw [Reql.concatMap_exists]
  refine forall₂_congr fun value _ => ?_
  cases equalsAny c value e.2 <;> simp

/-- A current value that equals the queried one is found among the reported values. -/
theorem findRecordId_current {ids : List String} {stored : Stored}
    (hids : findRecordId c db block recordId e = some ids)
    (hcurrent : currentValue db block recordId e.1 = some stored)
    (heq : c.eq stored e.2 = true) : ids ≠ [] := by
  obtain ⟨p,hp,hcurrent⟩ := Option.bind_eq_some_iff.mp hcurrent
  obtain ⟨page,hpage,hcurrent⟩ := Option.bind_eq_some_iff.mp hcurrent
  obtain ⟨value,hvalue,hstored⟩ := Option.bind_eq_some_iff.mp hcurrent
  have hpage := List.mem_of_find?_eq_some hpage
  have hvalue := List.mem_of_getLast? hvalue
  obtain ⟨found,hfound⟩ := findRecordId_exists.mp ⟨ids,hids⟩ page hpage value hvalue
  -- the field of the property's own type is one of the fields that are compared
  have htrue : found = true := by
    refine Reql.or_true hfound (List.mem_map.mpr ⟨p.dataType,?_,?_⟩)
    · cases htype : p.dataType with
      | TYPE_UNSET =>
        rw [htype] at hstored
        cases hstored
      | _ => simp
    · rw [hstored,Option.map_some,heq]
  subst htrue
  obtain ⟨inner,hinner⟩ := Reql.concatMap_exists.mp ⟨ids,hids⟩ page hpage
  have hmem : page.recordId ∈ inner :=
    Reql.mem_concatMap hinner hvalue (by rw [hfound]; rfl) (List.mem_singleton_self _)
  exact List.ne_nil_of_mem (Reql.mem_concatMap hids hpage hinner hmem)

theorem selectRecord_eq {ids : List (List String)}
    (hids : params.query.mapM (findRecordId c db block record.recordId) = some ids) :
    selectRecord c db block params record =
      if [] ∈ ids then some {} else retrieveRecord db block record.recordId := by
  have hadd : Reql.add (ids.map fun id => if id.isEmpty then 0 else 1) < ids.length ↔ [] ∈ ids := by
    rw [(Reql.add_lt_length List.isEmpty ids).2]
    simp
  rw [selectRecord,hids,Option.bind_some]
  simp only [List.length_map,hadd]

/-- A result with an identifier is of a record that can be collected and was compared. -/
theorem selectRecord_some (h : selectRecord c db block params record = some result)
    (hid : result.recordId ≠ none) : Retrievable db block record.recordId ∧
      ∀ e ∈ params.query, Comparable c db block record.recordId e := by
  obtain ⟨ids,hids,_⟩ := Option.bind_eq_some_iff.mp h
  refine ⟨?_,fun e he => findRecordId_exists.mp (mapM_exists.mp ⟨ids,hids⟩ e he)⟩
  rw [selectRecord_eq hids] at h
  split at h
  · obtain rfl := Option.some.inj h
    exact absurd rfl hid
  · exact retrieveRecord_exists.mp ⟨result,h⟩

/-- A record that is wanted is selected, unless the query fails on it. -/
theorem selectRecord_wanted (hwanted : wanted c db block params record = true)
    (hretrievable : Retrievable db block record.recordId)
    (hcomparable : ∀ e ∈ params.query, Comparable c db block record.recordId e) :
    ∃ result, selectRecord c db block params record = some result ∧
      result.recordId = some record.recordId := by
  obtain ⟨ids,hids⟩ := mapM_exists.mpr fun e he => findRecordId_exists.mpr (hcomparable e he)
  have hfound : [] ∉ ids := by
    intro hmem
    obtain ⟨e,he,hnone⟩ := exists_of_forall₂ (mapM_eq_some.mp hids).flip _ hmem
    have hcurrent := List.all_eq_true.mp hwanted e he
    obtain ⟨stored,hstored,heq⟩ := (Option.any_eq_true ..).mp hcurrent
    exact findRecordId_current hnone hstored heq rfl
  obtain ⟨result,hresult⟩ := retrieveRecord_exists.mpr hretrievable
  refine ⟨result,?_,retrieveRecord_recordId hresult⟩
  rw [selectRecord_eq hids,if_neg hfound,hresult]

/-- The answer for one record, in either query. -/
theorem retrieveRecordsQuery_eq : retrieveRecordsQuery c db block params =
    (candidates db block params).mapM fun record => if lengthIsZero c params then
      retrieveRecord db block record.recordId else selectRecord c db block params record := by
  rw [retrieveRecordsQuery]
  split <;> rfl

theorem Selects.finalizesOnly (h : Selects c db block params) :
    FinalizesOnly c db block params := by
  obtain ⟨results,hresults,hperm⟩ := h
  intro arrived tx htx
  rw [deleteRecords,hresults] at htx
  obtain ⟨param,hparam,rfl⟩ := List.mem_map.mp htx
  have hmem : param.recordId ∈ results.map Result.recordId :=
    List.mem_map_of_mem (List.mem_of_mem_take hparam)
  obtain ⟨record,hrecord,hid⟩ := List.mem_map.mp (hperm.mem_iff.mp hmem)
  obtain ⟨hcandidate,hwanted⟩ := List.mem_filter.mp hrecord
  exact ⟨record,hcandidate,hwanted,by rw [← hid]; rfl⟩

end Answers

section Selection

variable {Q : Type} (c : Comparison Q) (db : Db) (block : Nat) (params : Params Q)

/-- The record is wanted, and the query does not fail on it. -/
structure Answerable (record : Record) : Prop where
  wanted : wanted c db block params record = true
  retrievable : Retrievable db block record.recordId
  comparable : lengthIsZero c params = false →
    ∀ e ∈ params.query, Comparable c db block record.recordId e

variable {c db block params}

theorem Answerable.answered {record : Record} (h : Answerable c db block params record) :
    ∃ result, (if lengthIsZero c params then retrieveRecord db block record.recordId
      else selectRecord c db block params record) = some result ∧
        result.recordId = some record.recordId := by
  split
  · obtain ⟨result,hresult⟩ := retrieveRecord_exists.mpr h.retrievable
    exact ⟨result,hresult,retrieveRecord_recordId hresult⟩
  · next hlength =>
    exact selectRecord_wanted h.wanted h.retrievable (h.comparable (by simpa using hlength))

/-- The answer has a result for every visible record of the table that is not final: it is
right only when all of them are wanted. -/
theorem Selects.answerable (hblock : currentBlock db = some block)
    (h : Selects c db block params) : ∀ record ∈ candidates db block params,
      Answerable c db block params record := by
  obtain ⟨results,hresults,hperm⟩ := h
  rw [retrieveRecords,hblock,Option.bind_some,retrieveRecordsQuery_eq] at hresults
  have hanswers := mapM_eq_some.mp hresults
  have hlength := hperm.length_eq
  rw [List.length_map,List.length_map,← hanswers.length_eq] at hlength
  have hall := List.length_filter_eq_length_iff.mp hlength.symm
  intro record hrecord
  obtain ⟨result,hresult,hanswer⟩ := exists_of_forall₂ hanswers record hrecord
  -- the answer has an identifier, so it is not the empty object
  have hid : result.recordId ≠ none := by
    intro hnone
    have hmem := hperm.mem_iff.mp (List.mem_map_of_mem hresult)
    obtain ⟨_,_,hid⟩ := List.mem_map.mp hmem
    cases hid.trans hnone
  refine ⟨hall record hrecord,?_,fun hzero => ?_⟩
  · split at hanswer
    · exact retrieveRecord_exists.mp ⟨result,hanswer⟩
    · exact (selectRecord_some hanswer hid).1
  · rw [hzero] at hanswer
    exact (selectRecord_some hanswer hid).2

theorem selects_of_answerable (hblock : currentBlock db = some block)
    (h : ∀ record ∈ candidates db block params, Answerable c db block params record) :
    Selects c db block params := by
  obtain ⟨results,hresults⟩ := mapM_exists.mpr fun record hrecord => by
    obtain ⟨result,hresult,_⟩ := (h record hrecord).answered
    exact ⟨result,hresult⟩
  refine ⟨results,?_,?_⟩
  · rw [retrieveRecords,hblock,Option.bind_some,retrieveRecordsQuery_eq,hresults]
  · have hids := mapM_map hresults fun record hrecord result hresult => by
      obtain ⟨result',hresult',hid⟩ := (h record hrecord).answered
      obtain rfl := Option.some.inj (hresult.symm.trans hresult')
      exact hid
    rw [hids,List.filter_eq_self.mpr fun record hrecord => (h record hrecord).wanted]

/-- The query selects the matching records, and only these are finalized, exactly when every
visible record of the table that is not final matches and the query fails on none. -/
theorem records_selected_iff (hblock : currentBlock db = some block) :
    Selects c db block params ∧ FinalizesOnly c db block params ↔
      ∀ record ∈ candidates db block params, Answerable c db block params record := by
  constructor
  · exact fun h => h.1.answerable hblock
  · intro h
    have hselects := selects_of_answerable hblock h
    exact ⟨hselects,hselects.finalizesOnly⟩

end Selection

namespace Sample

inductive Queried
  | text (s : String)
  | number (n : Int)

def equals : Stored → Queried → Bool
  | .string s,.text t => s = t
  | .enum (.name s),.text t => s = t
  | .number m,.number n => m = n
  | _,_ => false

def isZero : Queried → Bool
  | .number n => n = 0
  | .text _ => false

def comparison : Comparison Queried := ⟨equals,isZero⟩

def reported (timestamp : Nat) (color : String) : ReportedDoc where
  reporterIndex := 0
  timestamp := timestamp
  bytesValue := []
  booleanValue := false
  numberValue := 0
  stringValue := color
  enumValue := .name ""
  locationValue := none
  structValues := none
  structValue := some []

/-- The documents of a lamp whose color was reported as each of `colors` in turn. -/
def entries (colors : List String) : StateTable → List Entry
  | .records => [.record { recordId := "L", table := "lamp" }]
  | .properties =>
    [.property { name := "color", recordId := "L", dataType := .STRING, currentPage := 1 }]
  | .propertyPages => [.propertyPage ⟨"color","L",1,colors.mapIdx reported⟩]
  | _ => []

def db (colors : List String) : Db where
  tables t := (entries colors t).map fun e => ⟨e,40,MAX_SAFE_INTEGER⟩
  blocks := [⟨41,"head","",by decide,by decide⟩]

def colored (color : String) : Params Queried := ⟨"lamp",[("color",.text color)],"key",by simp⟩

end Sample

theorem records_selected_red :
    (candidates (Sample.db ["red"]) 41 (Sample.colored "red")).map Record.recordId = ["L"] ∧
      Selects Sample.comparison (Sample.db ["red"]) 41 (Sample.colored "red") ∧
      FinalizesOnly Sample.comparison (Sample.db ["red"]) 41 (Sample.colored "red") := by
  refine ⟨by decide +kernel,(records_selected_iff rfl).mpr fun record hrecord => ?_⟩
  obtain rfl : record = { recordId := "L", table := "lamp" } := List.mem_singleton.mp hrecord
  refine ⟨by decide +kernel,⟨fun page hpage => ?_,by decide +kernel⟩,
    fun _ e he page hpage v hv => ?_⟩
  · obtain rfl := List.mem_singleton.mp hpage
    exact ⟨_,rfl⟩
  · obtain rfl := List.mem_singleton.mp he
    obtain rfl := List.mem_singleton.mp hpage
    obtain rfl := List.mem_singleton.mp hv
    exact ⟨true,rfl⟩

/-- A lamp that was red is finalized although it is blue now; and where no lamp is green, a
record without an identifier is finalized. -/
theorem records_wrongly_selected :
    deleteRecords Sample.comparison (Sample.db ["red","blue"]) (Sample.colored "red") 1 =
      [("key",{ recordId := "L" })] ∧
    currentValue (Sample.db ["red","blue"]) 41 "L" "color" = some (.string "blue") ∧
    ¬(Selects Sample.comparison (Sample.db ["red","blue"]) 41 (Sample.colored "red") ∧
      FinalizesOnly Sample.comparison (Sample.db ["red","blue"]) 41 (Sample.colored "red")) ∧
    deleteRecords Sample.comparison (Sample.db ["red"]) (Sample.colored "green") 1 =
      [("key",{ recordId := "" })] ∧
    ¬(Selects Sample.comparison (Sample.db ["red"]) 41 (Sample.colored "green") ∧
      FinalizesOnly Sample.comparison (Sample.db ["red"]) 41 (Sample.colored "green")) := by
  refine ⟨rfl,rfl,fun h => ?_,rfl,fun h => ?_⟩
  all_goals
    have hwanted := (h.1.answerable rfl _ List.mem_cons_self).wanted
    revert hwanted
    decide +kernel

end DgcRestApi.Server.Retrieval
