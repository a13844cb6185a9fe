import DgcRestApi.Kit.Reql
import DgcRestApi.Kit.Run
import DgcRestApi.Processor.Values

/-!
# Records that the server creates

`createRecord` of `transaction/records.js` looks the table up once for every key of the data
and waits for none of these lookups. Each appends to a list of properties when it comes back,
while another chain of promises fetches the key of the batcher and then encodes the list as it
is at that time. Only the declared fields of a message are encoded, and the value of a STRUCT
is assigned to a field that `PropertyValue` does not have.
-/

namespace DgcRestApi.Server.Creation
open Fallible Keyed

variable {V : Type}

/-! ## Messages -/

/-- What protobufjs writes for a value that is assigned to a field of `PropertyValue`; `none`
where it throws. -/
structure Codec (V : Type) where
  bytes : V → Option (List UInt8)
  boolean : V → Option Bool
  number : V → Option Int
  string : V → Option String
  enum : V → Option String
  structs : V → Option (List PropertyValue)
  location : V → Option Location

/-- A `property` object; a field that is not assigned is `none`. -/
structure PropertyObject (V : Type) where
  name : String
  dataType : Nat
  bytesValue : Option V := none
  booleanValue : Option V := none
  numberValue : Option V := none
  stringValue : Option V := none
  enumValue : Option V := none
  structValue : Option V := none
  locationValue : Option V := none

/-- The object of a key of the data, by the type that the table gives it. -/
def property (name : String) (dataType : DataType) (value : V) : PropertyObject V :=
  match dataType with
  | .BYTES => { name, dataType := 1, bytesValue := some value }
  | .BOOLEAN => { name, dataType := 2, booleanValue := some value }
  | .NUMBER => { name, dataType := 3, numberValue := some value }
  | .STRING => { name, dataType := 4, stringValue := some value }
  | .ENUM => { name, dataType := 5, enumValue := some value }
  | .STRUCT => { name, dataType := 6, structValue := some value }
  | .LOCATION => { name, dataType := 7, locationValue := some value }
  | .TYPE_UNSET => { name, dataType := 0, bytesValue := some value }

/-- The numbers of `PropertySchema.DataType`. -/
def dataTypeOf : Nat → DataType
  | 1 => .BYTES
  | 2 => .BOOLEAN
  | 3 => .NUMBER
  | 4 => .STRING
  | 5 => .ENUM
  | 6 => .STRUCT
  | 7 => .LOCATION
  | _ => .TYPE_UNSET

def encodeField {α : Type} (write : V → Option α) (default : α) : Option V → Option α
  | none => some default
  | some value => write value

/-- `PropertyValue.create` and `encode`: `structValue` is no field of the message. -/
def encodeProperty (codec : Codec V) (p : PropertyObject V) : Option PropertyValue := do
  let bytesValue ← encodeField codec.bytes [] p.bytesValue
  let booleanValue ← encodeField codec.boolean false p.booleanValue
  let numberValue ← encodeField codec.number 0 p.numberValue
  let stringValue ← encodeField codec.string "" p.stringValue
  let enumValue ← encodeField codec.enum "" p.enumValue
  let locationValue ← encodeField (fun value => (codec.location value).map some) none
    p.locationValue
  return {
    name := p.name, dataType := dataTypeOf p.dataType
    bytesValue, booleanValue, numberValue, stringValue, enumValue, locationValue }

/-! ## Lookups -/

/-- Of `db/tables.js`; it fails when two resources have one name. -/
def arrayToObject (namedResources : List PropertySchema) :
    Option (List (String × PropertySchema)) :=
  Reql.object (namedResources.map fun resource => (resource.name,resource))

/-- The `properties` of what `tables.fetch` finds. The promise is rejected when the query
fails, and so is its reaction when the table is `null`. -/
def fetch (table : Option Table) : Option (List (String × PropertySchema)) :=
  table.bind fun t => arrayToObject t.properties

/-- What the reaction of a lookup pushes. -/
def pushed (table : Option Table) (propertyName : String) (value : V) : List (PropertyObject V) :=
  match fetch table with
  | none => []
  | some properties => (properties.filter fun e => e.1 = propertyName).map fun e =>
      property propertyName e.2.dataType value

/-! ## Calls -/

/-- The arguments of `createRecord`; `data` is an object. -/
structure Params (V : Type) where
  table : String
  data : List (String × V)
  distinct : Distinct Prod.fst data

/-- How far the promises of `create` are. -/
inductive Stage
  | compiling | awaiting | encoding | done
deriving DecidableEq, Repr

structure Call (V : Type) where
  /-- the lookups that have not come back -/
  pending : List (String × V)
  properties : List (PropertyObject V) := []
  stage : Stage := .compiling
  submitted : Option CreateRecordAction := none

inductive Event
  | fetched (propertyName : String) | compiled | answered | encoded
deriving DecidableEq, Repr

section Steps

variable (codec : Codec V) (table : Option Table) (params : Params V) (timestamp : Nat)

/-- The synchronous part of `createRecord`. -/
def createRecord : Call V where
  pending := params.data

/-- The last reaction of `create`; no transaction is submitted when the encoding throws. -/
def create (properties : List (PropertyObject V)) : Option CreateRecordAction :=
  (properties.mapM (encodeProperty codec)).map fun properties =>
    { recordId := params.table ++ toString timestamp, table := params.table, properties }

/-- What comes next, in any order. -/
inductive Step : Call V → Event → Call V → Prop
  | fetched {c : Call V} {propertyName : String} {value : V} {before after : List (String × V)}
      (h : c.pending = before ++ (propertyName,value) :: after) :
      Step c (.fetched propertyName)
        { c with
          pending := before ++ after
          properties := c.properties ++ pushed table propertyName value }
  | compiled {c : Call V} (h : c.stage = .compiling) :
      Step c .compiled { c with stage := .awaiting }
  | answered {c : Call V} (h : c.stage = .awaiting) :
      Step c .answered { c with stage := .encoding }
  | encoded {c : Call V} (h : c.stage = .encoding) :
      Step c .encoded
        { c with stage := .done, submitted := create codec params timestamp c.properties }

end Steps

/-! ## What is sent -/

/-- The properties of the table, if it is there. -/
def columns (table : Option Table) : List PropertySchema := (table.map Table.properties).getD []

/-- The key names a property of the table. -/
def Named (table : Option Table) (k : String) : Prop := ∃ col ∈ columns table, col.name = k

/-- The value is in the field that the processor reads for the type. -/
def Carries (codec : Codec V) (v : V) : DataType → PropertyValue → Prop
  | .TYPE_UNSET,_ => True
  | .BYTES,w => codec.bytes v = some w.bytesValue
  | .BOOLEAN,w => codec.boolean v = some w.booleanValue
  | .NUMBER,w => codec.number v = some w.numberValue
  | .STRING,w => codec.string v = some w.stringValue
  | .ENUM,w => codec.enum v = some w.enumValue
  | .STRUCT,w => codec.structs v = some w.structValues
  | .LOCATION,w => ∃ l, codec.location v = some l ∧ w.locationValue = some l

/-- One value for each key that names a property, with its type and what the client gave, and
no other value. -/
structure Sends (codec : Codec V) (table : Option Table) (data : List (String × V))
    (action : CreateRecordAction) : Prop where
  each : ∀ k v, (k,v) ∈ data → ∀ col ∈ columns table, col.name = k →
    ∃ w, action.properties.filter (fun w => w.name = k) = [w] ∧ w.dataType = col.dataType ∧
      Carries codec v col.dataType w
  only : ∀ w ∈ action.properties, ∃ v, (w.name,v) ∈ data ∧ Named table w.name

/-- What the encoding must find: no lookup that matters is missing or was refused, and no
STRUCT value is lost. -/
structure Complete (codec : Codec V) (table : Option Table) (data : List (String × V))
    (c : Call V) : Prop where
  fetched : ∀ e ∈ c.pending, ¬Named table e.1
  names : (∃ e ∈ data, Named table e.1) → Distinct PropertySchema.name (columns table)
  structs : ∀ e ∈ data, ∀ col ∈ columns table, col.name = e.1 → col.dataType = .STRUCT →
    codec.structs e.2 = some []

section Sent

variable {codec : Codec V} {table : Option Table} {params : Params V} {timestamp : Nat}
variable {c c' : Call V} {k : String} {v : V} {d : DataType} {p : PropertyObject V}
variable {w w' : PropertyValue} {col : PropertySchema} {data : List (String × V)}
variable {action : CreateRecordAction}

/-- The processor stores the same value for two that carry the same. -/
theorem Carries.stored (hw : Carries codec v d w) (hw' : Carries codec v d w')
    (hd : w.dataType = d) (hd' : w'.dataType = d) (i t : Nat) (q : Property) :
    makeNewReportedValue i t w q = makeNewReportedValue i t w' q := by
  unfold makeNewReportedValue
  rw [hd,hd']
  cases d with
  | LOCATION =>
    obtain ⟨l,hl,hw⟩ := hw
    obtain ⟨l',hl',hw'⟩ := hw'
    obtain rfl := Option.some.inj (hl.symm.trans hl')
    simp only [hw,hw']
  | _ => simp_all [Carries]

@[simp] theorem property_name : (property k d v).name = k := by
  cases d <;> rfl

theorem encodeProperty_name (h : encodeProperty codec p = some w) : w.name = p.name := by
  simp only [encodeProperty,Option.bind_eq_bind,Option.bind_eq_some_iff] at h
  obtain ⟨_,_,_,_,_,_,_,_,_,_,_,_,h⟩ := h
  rw [← Option.some.inj h]

theorem encodeProperty_dataType (h : encodeProperty codec (property k d v) = some w) :
    w.dataType = d := by
  simp only [encodeProperty,Option.bind_eq_bind,Option.bind_eq_some_iff] at h
  obtain ⟨_,_,_,_,_,_,_,_,_,_,_,_,h⟩ := h
  rw [← Option.some.inj h]
  cases d <;> rfl

/-- Each type has its field in the message but STRUCT, whose field stays empty. -/
theorem carries_iff (h : encodeProperty codec (property k d v) = some w) :
    Carries codec v d w ↔ (d = .STRUCT → codec.structs v = some []) := by
  simp only [encodeProperty,Option.bind_eq_bind,Option.bind_eq_some_iff] at h
  obtain ⟨_,hbytes,_,hboolean,_,hnumber,_,hstring,_,henum,_,hlocation,h⟩ := h
  rw [← Option.some.inj h]
  cases d with
  | TYPE_UNSET => exact iff_of_true trivial nofun
  | BYTES => exact iff_of_true hbytes nofun
  | BOOLEAN => exact iff_of_true hboolean nofun
  | NUMBER => exact iff_of_true hnumber nofun
  | STRING => exact iff_of_true hstring nofun
  | ENUM => exact iff_of_true henum nofun
  | STRUCT => exact (imp_iff_right rfl).symm
  | LOCATION =>
    obtain ⟨l,hl,rfl⟩ := Option.map_eq_some_iff.mp hlocation
    exact iff_of_true ⟨l,hl,rfl⟩ nofun

/-! ### Lookups that came back -/

theorem arrayToObject_eq_some {columns : List PropertySchema}
    {properties : List (String × PropertySchema)} : arrayToObject columns = some properties ↔
      Distinct PropertySchema.name columns ∧
        properties = columns.map fun resource => (resource.name,resource) := by
  rw [arrayToObject,Reql.object_eq_some,Distinct,List.map_map]
  rfl

theorem pushed_of_distinct (hd : Distinct PropertySchema.name (columns table))
    (hcol : col ∈ columns table) :
    pushed table col.name v = [property col.name col.dataType v] := by
  cases table with
  | none => cases hcol
  | some t =>
    have hfetch : fetch (some t) = _ := arrayToObject_eq_some.mpr ⟨hd,rfl⟩
    have hfilter : t.properties.filter (fun c => c.name = col.name) = [col] :=
      filter_distinct hd hcol
    simp only [pushed,hfetch,List.filter_map,Function.comp_def,hfilter,List.map_singleton]

theorem mem_pushed (h : p ∈ pushed table k v) : Distinct PropertySchema.name (columns table) ∧
    ∃ col ∈ columns table, col.name = k ∧ p = property k col.dataType v := by
  rw [pushed] at h
  split at h
  · cases h
  · next properties hfetch =>
    obtain ⟨t,rfl,hobject⟩ := Option.bind_eq_some_iff.mp hfetch
    obtain ⟨hd,rfl⟩ := arrayToObject_eq_some.mp hobject
    obtain ⟨e,he,rfl⟩ := List.mem_map.mp h
    obtain ⟨he,hname⟩ := List.mem_filter.mp he
    obtain ⟨col,hcol,rfl⟩ := List.mem_map.mp he
    exact ⟨hd,col,hcol,of_decide_eq_true hname,rfl⟩

theorem pushed_names : ((pushed table k v).map PropertyObject.name).Sublist [k] := by
  cases h : pushed table k v with
  | nil => exact List.nil_sublist _
  | cons p ps =>
    obtain ⟨hd,col,hcol,rfl,_⟩ := mem_pushed (h.symm ▸ List.mem_cons_self : p ∈ pushed table k v)
    rw [pushed_of_distinct hd hcol] at h
    rw [← h]
    simp

/-- The list holds what the lookups pushed that came back. -/
def Filled (table : Option Table) (data : List (String × V)) (c : Call V) : Prop :=
  ∃ done, data.Perm (done ++ c.pending) ∧
    c.properties = done.flatMap fun e => pushed table e.1 e.2

theorem filled_names (done : List (String × V)) :
    ((done.flatMap fun e => pushed table e.1 e.2).map PropertyObject.name).Sublist
      (done.map Prod.fst) := by
  induction done with
  | nil => exact List.Sublist.refl _
  | cons e done ih =>
    rw [List.flatMap_cons,List.map_append]
    exact pushed_names.append ih

theorem Step.filled {e : Event} (hs : Step codec table params timestamp c e c')
    (hc : Filled table params.data c) : Filled table params.data c' := by
  cases hs with
  | @fetched k v before after h =>
    obtain ⟨done,hperm,hproperties⟩ := hc
    refine ⟨done ++ [(k,v)],hperm.trans ?_,?_⟩
    · rw [h,List.append_assoc]
      exact List.perm_middle.append_left done
    · rw [hproperties,List.flatMap_append,List.flatMap_singleton]
  | _ => exact hc

/-- Where a value comes from that is sent. -/
theorem encoded_source {done : List (String × V)} {ws : List PropertyValue}
    (h : List.Forall₂ (fun p w => encodeProperty codec p = some w)
      (done.flatMap fun e => pushed table e.1 e.2) ws) (hw : w ∈ ws) :
    Distinct PropertySchema.name (columns table) ∧ ∃ v, (w.name,v) ∈ done ∧
      ∃ col ∈ columns table, col.name = w.name ∧
        encodeProperty codec (property w.name col.dataType v) = some w := by
  obtain ⟨p,hp,hencode⟩ := exists_of_forall₂ h.flip w hw
  obtain ⟨⟨k,v⟩,hdone,hp⟩ := List.mem_flatMap.mp hp
  obtain ⟨hd,col,hcol,hname,rfl⟩ := mem_pushed hp
  have hk : w.name = k := (encodeProperty_name hencode).trans property_name
  subst hk
  exact ⟨hd,v,hdone,col,hcol,hname,hencode⟩

theorem Sends.sent (h : Sends codec table data action) {e : String × V} (he : e ∈ data)
    (hcol : col ∈ columns table) (hname : col.name = e.1) :
    ∃ w ∈ action.properties, w.name = e.1 ∧ Carries codec e.2 col.dataType w := by
  obtain ⟨w,hfilter,_,hcarries⟩ := h.each e.1 e.2 he col hcol hname
  have hmem : w ∈ action.properties.filter fun w => w.name = e.1 :=
    hfilter ▸ List.mem_singleton_self w
  obtain ⟨hmem,hw⟩ := List.mem_filter.mp hmem
  exact ⟨w,hmem,of_decide_eq_true hw,hcarries⟩

section Encoded

variable (hdata : Distinct Prod.fst data) (hc : Filled table data c)
variable (hencode : c.properties.mapM (encodeProperty codec) = some action.properties)
include hdata hc hencode

/-- Every value that is sent comes from a lookup that came back. -/
theorem Sends.complete (h : Sends codec table data action) : Complete codec table data c := by
  obtain ⟨done,hperm,hproperties⟩ := hc
  have hencoded := mapM_eq_some.mp hencode
  rw [hproperties] at hencoded
  have hkeys := (hperm.map Prod.fst).nodup_iff.mp hdata
  rw [List.map_append] at hkeys
  refine ⟨fun e he hnamed => ?_,fun hnamed => ?_,fun e he col hcol hname htype => ?_⟩
  · obtain ⟨col,hcol,hname⟩ := hnamed
    have hmem := hperm.mem_iff.mpr (List.mem_append_right done he)
    obtain ⟨w,hw,hwname,_⟩ := h.sent hmem hcol hname
    obtain ⟨_,v,hdone,_⟩ := encoded_source hencoded hw
    have hdone : e.1 ∈ done.map Prod.fst := List.mem_map.mpr ⟨_,hdone,hwname⟩
    exact List.disjoint_of_nodup_append hkeys hdone (List.mem_map_of_mem he)
  · obtain ⟨e,he,col,hcol,hname⟩ := hnamed
    obtain ⟨w,hw,_⟩ := h.sent he hcol hname
    exact (encoded_source hencoded hw).1
  · obtain ⟨w,hw,hwname,hcarries⟩ := h.sent he hcol hname
    obtain ⟨hd,v,hdone,col',hcol',hname',hsource⟩ := encoded_source hencoded hw
    have hmem := hperm.mem_iff.mpr (List.mem_append_left c.pending hdone)
    obtain rfl : col' = col :=
      List.inj_on_of_nodup_map hd hcol' hcol (by rw [hname',hname,hwname])
    obtain rfl : (w.name,v) = e := List.inj_on_of_nodup_map hdata hmem he hwname
    exact (carries_iff hsource).mp hcarries htype

/-- When the lookups that matter came back, each pushed the one object of its key. -/
theorem Complete.sends (h : Complete codec table data c) : Sends codec table data action := by
  obtain ⟨done,hperm,hproperties⟩ := hc
  have hencoded := mapM_eq_some.mp hencode
  rw [hproperties] at hencoded
  have hkeys := (hperm.map Prod.fst).nodup_iff.mp hdata
  rw [List.map_append] at hkeys
  have hdistinct : Distinct PropertyValue.name action.properties := by
    rw [Distinct,mapM_map hencode fun p _ w hw => encodeProperty_name hw,hproperties]
    exact hkeys.of_append_left.sublist (filled_names done)
  refine ⟨fun k v hkv col hcol hname => ?_,fun w hw => ?_⟩
  · subst hname
    have hdone : (col.name,v) ∈ done := by
      rcases List.mem_append.mp (hperm.mem_iff.mp hkv) with hdone | hpending
      · exact hdone
      · exact absurd ⟨col,hcol,rfl⟩ (h.fetched _ hpending)
    have hpushed := pushed_of_distinct (v := v) (h.names ⟨_,hkv,col,hcol,rfl⟩) hcol
    have hp : property col.name col.dataType v ∈ done.flatMap fun e => pushed table e.1 e.2 :=
      List.mem_flatMap.mpr ⟨_,hdone,hpushed ▸ List.mem_singleton_self _⟩
    obtain ⟨w,hw,hsource⟩ := exists_of_forall₂ hencoded _ hp
    have hwname : w.name = col.name := (encodeProperty_name hsource).trans property_name
    refine ⟨w,?_,encodeProperty_dataType hsource,
      (carries_iff hsource).mpr (h.structs _ hkv col hcol rfl)⟩
    rw [← hwname]
    exact filter_distinct hdistinct hw
  · obtain ⟨_,v,hdone,col,hcol,hname,_⟩ := encoded_source hencoded hw
    exact ⟨v,hperm.mem_iff.mpr (List.mem_append_left _ hdone),col,hcol,hname⟩

/-- What the encoding sends is complete exactly when the state it finds is. -/
theorem sends_iff : Sends codec table data action ↔ Complete codec table data c :=
  ⟨Sends.complete hdata hc hencode,Complete.sends hdata hc hencode⟩

end Encoded

/-- Nothing is submitted before the encoding. -/
structure Going (table : Option Table) (data : List (String × V)) (c : Call V) : Prop where
  filled : Filled table data c
  unsent : c.stage ≠ .done → c.submitted = none

theorem Step.going {e : Event} (hs : Step codec table params timestamp c e c')
    (hc : Going table params.data c) : Going table params.data c' := by
  refine ⟨hs.filled hc.filled,fun hstage => ?_⟩
  cases hs with
  | fetched => exact hc.unsent hstage
  | compiled h | answered h => exact hc.unsent (by simp [h])
  | encoded => exact absurd rfl hstage

theorem going_createRecord : Going table params.data (createRecord params) where
  filled := ⟨[],.refl _,rfl⟩
  unsent _ := rfl

/-- The call has submitted nothing that is not complete. -/
def Faithful (codec : Codec V) (table : Option Table) (data : List (String × V)) (c : Call V) :
    Prop :=
  ∀ action, c.submitted = some action → Sends codec table data action

theorem Step.faithful_iff {e : Event} (hs : Step codec table params timestamp c e c')
    (hc : Going table params.data c) (hfaithful : Faithful codec table params.data c) :
    Faithful codec table params.data c' ↔ (e = .encoded →
      (∃ p ∈ c.properties, encodeProperty codec p = none) ∨
        Complete codec table params.data c) := by
  cases hs with
  | encoded =>
    rw [imp_iff_right rfl,← mapM_eq_none]
    cases hws : c.properties.mapM (encodeProperty codec) with
    | none => exact iff_of_true (fun action h => by simp [create,hws] at h) (.inl rfl)
    | some ws =>
      rw [or_iff_right (by simp),Faithful]
      simp only [create,hws,Option.map_some,Option.some.injEq,forall_eq']
      exact sends_iff params.distinct hc.filled hws
  | _ => exact iff_of_true hfaithful (fun h => by cases h)

/-- A transaction carries all that the client gave exactly when the lookups that matter came
back before the encoding, the table repeats no name and no STRUCT has a member; whatever comes
first of lookups and promises. -/
theorem record_values_sent_iff {h : List (Call V × Event)}
    (hr : Run (Step codec table params timestamp) (createRecord params) h c) :
    (∀ x ∈ Run.states h c, Faithful codec table params.data x) ↔
      ∀ e ∈ h, e.2 = .encoded → (∃ p ∈ e.1.properties, encodeProperty codec p = none) ∨
        Complete codec table params.data e.1 := by
  have hiff := hr.states_iff
    (fun x => Going table params.data x ∧ Faithful codec table params.data x)
    (fun e => e.2 = .encoded → (∃ p ∈ e.1.properties, encodeProperty codec p = none) ∨
      Complete codec table params.data e.1)
    (fun _ _ _ hx hs => by
      rw [and_iff_right (hs.going hx.1)]
      exact hs.faithful_iff hx.1 hx.2)
    ⟨going_createRecord,fun action h => by cases h⟩
  rw [← hiff]
  refine forall₂_congr fun x hx => ?_
  obtain ⟨h',hr'⟩ := hr.of_states hx
  have hgoing := hr'.invariant (Going table params.data) (fun _ _ _ hc hs => hs.going hc)
    going_createRecord
  exact (and_iff_right hgoing).symm

end Sent

namespace Sample

inductive Value
  | text (s : String)
  | members (ws : List PropertyValue)

def Value.string : Value → Option String
  | .text s => some s
  | .members _ => none

def Value.structs : Value → Option (List PropertyValue)
  | .text _ => none
  | .members ws => some ws

/-- Texts are encoded as strings, and lists of values as members. -/
def codec : Codec Value where
  bytes _ := none
  boolean _ := none
  number _ := none
  string := Value.string
  enum := Value.string
  structs := Value.structs
  location _ := none

def lamp : Table where
  name := "lamp"
  properties := [{ name := "color", dataType := .STRING },{ name := "parts", dataType := .STRUCT }]

def colored : Params Value := ⟨"lamp",[("color",.text "red")],List.nodup_singleton _⟩

def bulb : PropertyValue := { name := "bulb", dataType := .NUMBER, numberValue := 40 }

def assembled : Params Value := ⟨"lamp",[("parts",.members [bulb])],List.nodup_singleton _⟩

/-- The lookup of the color has come back first. -/
def fetched : Call Value where
  pending := []
  properties := [property "color" .STRING (.text "red")]

theorem fetched_step : Step codec (some lamp) colored 7 (createRecord colored) (.fetched "color")
    fetched :=
  @Step.fetched _ codec (some lamp) colored 7 (createRecord colored) "color" (.text "red") [] [] rfl

theorem assembled_step : Step codec (some lamp) assembled 7 (createRecord assembled)
    (.fetched "parts")
    { pending := [], properties := [property "parts" .STRUCT (.members [bulb])] } :=
  @Step.fetched _ codec (some lamp) assembled 7 (createRecord assembled) "parts" (.members [bulb])
    [] [] rfl

theorem complete_fetched (stage : Stage) :
    Complete codec (some lamp) colored.data { fetched with stage } where
  fetched e he := absurd he List.not_mem_nil
  names _ := by
    show ["color","parts"].Nodup
    decide
  structs := by
    intro e he col hcol hname htype
    rw [List.mem_singleton.mp he] at hname
    rcases List.mem_pair.mp hcol with rfl | rfl
    · cases htype
    · exact absurd hname (by decide)

end Sample

theorem record_values_sent_early : ∃ h c,
    Run (Step Sample.codec (some Sample.lamp) Sample.colored 7) (createRecord Sample.colored) h c ∧
      c.submitted = some { recordId := "lamp7", table := "lamp", properties :=
        [{ name := "color", dataType := .STRING, stringValue := "red" }] } ∧
      ∀ x ∈ Run.states h c, Faithful Sample.codec (some Sample.lamp) Sample.colored.data x := by
  have hr := (((Run.nil.snoc Sample.fetched_step).snoc (.compiled rfl)).snoc (.answered rfl)).snoc
    (.encoded rfl)
  refine ⟨_,_,hr,rfl,(record_values_sent_iff hr).mpr ?_⟩
  intro e he hencoded
  simp only [List.mem_cons,List.not_mem_nil,or_false] at he
  rcases he with rfl | rfl | rfl | rfl
  · exact .inr (Sample.complete_fetched _)
  all_goals cases hencoded

/-- The transaction is submitted before the lookup comes back and is empty; and when the lookup
is in time, the members of a struct are not sent. -/
theorem record_values_lost :
    (∃ h c, Run (Step Sample.codec (some Sample.lamp) Sample.colored 7)
      (createRecord Sample.colored) h c ∧ c.submitted = some
        { recordId := "lamp7", table := "lamp", properties := [] } ∧
      ¬ ∀ x ∈ Run.states h c, Faithful Sample.codec (some Sample.lamp) Sample.colored.data x) ∧
    ∃ h c, Run (Step Sample.codec (some Sample.lamp) Sample.assembled 7)
      (createRecord Sample.assembled) h c ∧ c.submitted = some
        { recordId := "lamp7", table := "lamp", properties :=
          [{ name := "parts", dataType := .STRUCT, structValues := [] }] } ∧
      ¬ ∀ x ∈ Run.states h c, Faithful Sample.codec (some Sample.lamp) Sample.assembled.data x := by
  constructor
  · have hr := (((@Run.nil _ _ (Step Sample.codec (some Sample.lamp) Sample.colored 7)
      (createRecord Sample.colored)).snoc (.compiled rfl)).snoc (.answered rfl)).snoc
        (.encoded rfl)
    refine ⟨_,_,hr,rfl,fun h => ?_⟩
    obtain ⟨w,hfilter,_⟩ := (h _ List.mem_cons_self _ rfl).each "color" (.text "red")
      List.mem_cons_self _ List.mem_cons_self rfl
    cases hfilter
  · have hr := (((Run.nil.snoc Sample.assembled_step).snoc (.compiled rfl)).snoc
      (.answered rfl)).snoc (.encoded rfl)
    refine ⟨_,_,hr,rfl,fun h => ?_⟩
    obtain ⟨w,hfilter,_,hcarries⟩ := (h _ List.mem_cons_self _ rfl).each "parts"
      (.members [Sample.bulb]) List.mem_cons_self _ (List.mem_cons_of_mem _ List.mem_cons_self) rfl
    obtain rfl : _ = w := List.singleton_inj.mp hfilter
    cases hcarries

end DgcRestApi.Server.Creation
