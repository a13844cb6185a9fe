import DgcRestApi.LedgerSync.Documents
import DgcRestApi.Processor.Structs

/-!
# What is stored is read back

The processor stores an enum as an index and a struct as a list of named values; the
conversion of a page turns the index into the name of the option and the list into an object.
An object has no member `__proto__`, so a struct with one is not read back.
-/

namespace DgcRestApi
open Keyed

/-- Integers up to `2^53` are doubles. -/
theorem toNumber_eq {n : Nat} (h : n ≤ 2 ^ 53) : toNumber n = n := by
  rcases Nat.lt_or_eq_of_le h with hlt | rfl
  · have hlog : n.log2 - 52 = 0 := by
      by_cases hn : n = 0
      · subst hn
        decide
      · have := (Nat.log2_lt hn).mpr hlt
        omega
    simp [toNumber,hlog,Nat.mod_one]
  · decide +kernel

theorem intToNumber_eq {n : Int} (h : n.natAbs ≤ 2 ^ 53) : intToNumber n = n := by
  rw [intToNumber,toNumber_eq h]
  exact Int.sign_mul_natAbs n

/-- A JavaScript array has fewer than `2^32` elements. -/
def Property.Decodable (p : Property) : Prop := p.enumOptions.length < 2 ^ 32

/-! ## Submitted leaves -/

/-- What a value that is no struct carries. -/
def PropertyValue.leaf (v : PropertyValue) : FieldDoc :=
  match v.dataType with
  | .BYTES => .bytes v.bytesValue
  | .BOOLEAN => .boolean v.booleanValue
  | .NUMBER => .number v.numberValue
  | .STRING => .string v.stringValue
  | .ENUM => .string v.enumValue
  | .LOCATION => .location v.locationValue
  | .STRUCT | .TYPE_UNSET => .undefined

/-- The leaf under a path of member names. -/
def PropertyValue.leafAt : List String → PropertyValue → Option FieldDoc
  | [], v => if v.dataType = .STRUCT then none else some v.leaf
  | n :: path, v =>
    if v.dataType = .STRUCT then (find PropertyValue.name n v.structValues).bind (leafAt path)
    else none

/-- The leaf under a path of keys. -/
def FieldDoc.leafAt : List String → FieldDoc → Option FieldDoc
  | [], .object _ => none
  | [], d => some d
  | n :: path, .object fields => (find Prod.fst n fields).bind fun f => leafAt path f.2
  | _ :: _, _ => none

/-- No entry at any level is named `__proto__`. -/
inductive NoProto : List PropertySchema → Prop
  | intro {cols : List PropertySchema} (names : ∀ col ∈ cols, col.name ≠ "__proto__")
      (nested : ∀ col ∈ cols, col.dataType = .STRUCT → NoProto col.structProperties) : NoProto cols

def Location.Safe (l : Location) : Prop :=
  l.latitude.natAbs ≤ 2 ^ 53 ∧ l.longitude.natAbs ≤ 2 ^ 53

/-- Every integer is within `2^53`. -/
inductive SafeIntegers : List PropertyValue → Prop
  | intro {vs : List PropertyValue}
      (number : ∀ v ∈ vs, v.dataType = .NUMBER → v.numberValue.natAbs ≤ 2 ^ 53)
      (location : ∀ v ∈ vs, v.dataType = .LOCATION → ∀ l ∈ v.locationValue, l.Safe)
      (nested : ∀ v ∈ vs, v.dataType = .STRUCT → SafeIntegers v.structValues) : SafeIntegers vs

/-- At every level the object has exactly the names of the entries as keys, and an object
exactly under those of the structs. -/
inductive ShapedBy : List PropertySchema → List (String × FieldDoc) → Prop
  | intro {cols : List PropertySchema} {obj : List (String × FieldDoc)}
      (keys : (obj.map Prod.fst).Perm (cols.map PropertySchema.name))
      (leaves : ∀ col ∈ cols, col.dataType ≠ .STRUCT → ∀ fields, (col.name,.object fields) ∉ obj)
      (structs : ∀ col ∈ cols, col.dataType = .STRUCT → ∃ fields, (col.name,.object fields) ∈ obj)
      (nested : ∀ col ∈ cols, col.dataType = .STRUCT → ∀ fields, (col.name,.object fields) ∈ obj →
        ShapedBy col.structProperties fields) : ShapedBy cols obj

/-! ## The conversion -/

theorem valueObjects_eq (vs : List PropertyValue) :
    valueObjects vs = vs.map PropertyValue.toObject := by
  induction vs with
  | nil => rfl
  | cons v vs ih => rw [valueObjects,ih,List.map_cons]

theorem structPairs_eq (vs : List PropertyValue) :
    structPairs vs = vs.map fun v => (v.name,v.field) := by
  induction vs with
  | nil => rfl
  | cons v vs ih => rw [structPairs,ih,List.map_cons]

@[simp] theorem PropertyValue.toObject_name (v : PropertyValue) : v.toObject.name = v.name := by
  cases v
  rfl

@[simp] theorem PropertyValue.toObject_dataType (v : PropertyValue) :
    v.toObject.dataType = v.dataType := by
  cases v
  rfl

/-- Of pairs with different names all are kept but one named `__proto__`. -/
theorem fromPairs_eq {α : Type} {pairs : List (String × α)} (h : (pairs.map Prod.fst).Nodup) :
    fromPairs pairs = pairs.filter fun p => p.1 ≠ "__proto__" := by
  have hfold : ∀ (rest acc : List (String × α)), ((acc ++ rest).map Prod.fst).Nodup →
      rest.foldl (fun obj p =>
        if p.1 = "__proto__" then obj
        else if obj.any fun q => q.1 == p.1 then obj.map fun q => if q.1 == p.1 then p else q
        else obj ++ [p]) acc = acc ++ rest.filter fun p => p.1 ≠ "__proto__" := by
    intro rest
    induction rest with
    | nil => exact fun acc _ => (List.append_nil acc).symm
    | cons p rest ih =>
      intro acc hnd
      rw [List.foldl_cons]
      by_cases hp : p.1 = "__proto__"
      · have hrest : ((acc ++ rest).map Prod.fst).Nodup :=
          hnd.sublist (((List.sublist_cons_self p rest).append_left acc).map _)
        rw [if_pos hp,ih acc hrest,List.filter_cons_of_neg (by simpa using hp)]
      · have hnew : ¬ acc.any (fun q => q.1 == p.1) = true := by
          intro hany
          obtain ⟨q,hq,he⟩ := List.any_eq_true.mp hany
          rw [List.map_append] at hnd
          exact (List.nodup_append.mp hnd).2.2 q.1 (List.mem_map_of_mem hq) p.1
            (List.mem_map_of_mem List.mem_cons_self) (by simpa using he)
        rw [if_neg hp,if_neg hnew,ih _ (by simpa using hnd),
          List.filter_cons_of_pos (by simpa using hp),List.append_assoc,List.singleton_append]
  exact hfold pairs [] (by simpa using h)

section Structs

variable {cols : List PropertySchema} {vs : List PropertyValue} {v : PropertyValue}

theorem xformStruct_eq (hnames : (vs.map PropertyValue.name).Nodup) :
    xformStruct (valueObjects vs) =
      (vs.filter fun v => v.name ≠ "__proto__").map fun v => (v.name,v.toObject.field) := by
  rw [xformStruct,structPairs_eq,valueObjects_eq,List.map_map,fromPairs_eq,List.filter_map]
  · simp [Function.comp_def]
  · simpa [Function.comp_def] using hnames

theorem NoProto.values (hp : NoProto cols) (hi : Instantiates cols vs) :
    ∀ v ∈ vs, v.name ≠ "__proto__" := by
  intro v hv
  obtain ⟨col,hcol,hmember⟩ := hi.entry v hv
  cases hp with
  | intro names _ => exact hmember.name ▸ names col hcol

theorem NoProto.nested (hp : NoProto cols) {col : PropertySchema} (hcol : col ∈ cols)
    (htype : col.dataType = .STRUCT) : NoProto col.structProperties := by
  cases hp with
  | intro _ nested => exact nested col hcol htype

/-- Without a member `__proto__` all members are kept. -/
theorem NoProto.xformStruct_eq (hp : NoProto cols) (hd : DistinctNames cols)
    (hi : Instantiates cols vs) :
    xformStruct (valueObjects vs) = vs.map fun v => (v.name,v.toObject.field) := by
  rw [DgcRestApi.xformStruct_eq (hi.names.nodup_iff.mpr hd.names),
    List.filter_eq_self.mpr fun v hv => by simpa using hp.values hi v hv]

theorem field_struct (h : v.dataType = .STRUCT) :
    v.toObject.field = .object (xformStruct (valueObjects v.structValues)) := by
  cases v
  cases h
  rfl

theorem Location.Safe.toObject {l : Location} (h : l.Safe) : l.toObject = l := by
  rw [Location.toObject,intToNumber_eq h.1,intToNumber_eq h.2]

theorem field_leaf (h : v.dataType ≠ .STRUCT)
    (hnumber : v.dataType = .NUMBER → v.numberValue.natAbs ≤ 2 ^ 53)
    (hlocation : v.dataType = .LOCATION → ∀ l ∈ v.locationValue, l.Safe) :
    v.toObject.field = v.leaf := by
  obtain ⟨name,dataType,bytes,boolean,number,string,enum,structs,location⟩ := v
  cases dataType with
  | STRUCT => exact absurd rfl h
  | NUMBER => exact congrArg FieldDoc.number (intToNumber_eq (hnumber rfl))
  | LOCATION =>
    refine congrArg FieldDoc.location ?_
    cases location with
    | none => rfl
    | some l => exact congrArg some (hlocation rfl l rfl).toObject
  | _ => rfl

theorem leafAt_leaf (h : v.dataType ≠ .STRUCT) (path : List String) :
    v.leaf.leafAt path = v.leafAt path := by
  rw [PropertyValue.leaf]
  cases hd : v.dataType with
  | STRUCT => exact absurd hd h
  | _ => cases path <;> simp [PropertyValue.leafAt,PropertyValue.leaf,FieldDoc.leafAt,hd]

theorem find_pairs (n : String) : find Prod.fst n (vs.map fun v => (v.name,v.toObject.field)) =
    (find PropertyValue.name n vs).map fun v => (v.name,v.toObject.field) := by
  rw [find,List.find?_map]
  rfl

theorem SafeIntegers.field_leaf (hs : SafeIntegers vs) (hv : v ∈ vs) (h : v.dataType ≠ .STRUCT) :
    v.toObject.field = v.leaf := by
  obtain ⟨number,location,_⟩ := hs
  exact DgcRestApi.field_leaf h (number v hv) (location v hv)

theorem SafeIntegers.nested (hs : SafeIntegers vs) (hv : v ∈ vs) (h : v.dataType = .STRUCT) :
    SafeIntegers v.structValues := by
  cases hs with
  | intro _ _ nested => exact nested v hv h

/-- The object has the leaves of the struct it is made from, under the same paths. -/
theorem leafAt_struct (path : List String) (htype : v.dataType = .STRUCT)
    (hd : DistinctNames cols) (hp : NoProto cols) (hi : Instantiates cols v.structValues)
    (hs : SafeIntegers v.structValues) :
    (FieldDoc.object (xformStruct (valueObjects v.structValues))).leafAt path =
      v.leafAt path := by
  induction path generalizing cols v with
  | nil =>
    rw [PropertyValue.leafAt,if_pos htype]
    rfl
  | cons n path ih =>
    rw [hp.xformStruct_eq hd hi,PropertyValue.leafAt,if_pos htype,FieldDoc.leafAt,find_pairs]
    cases hfind : find PropertyValue.name n v.structValues with
    | none => rfl
    | some w =>
      have hw := (find_some hfind).1
      change w.toObject.field.leafAt path = w.leafAt path
      by_cases hstruct : w.dataType = .STRUCT
      · -- the members of a struct are an instance of the schema of its entry
        obtain ⟨col,hcol,hmember⟩ := hi.entry w hw
        have hcolstruct := hmember.dataType.symm.trans hstruct
        rw [field_struct hstruct]
        exact ih hstruct (hd.nested hcol hcolstruct) (hp.nested hcol hcolstruct)
          (hmember.nested hcolstruct) (hs.nested hw hstruct)
      · rw [hs.field_leaf hw hstruct,leafAt_leaf hstruct]

/-- A member of the object is that of a value of the entry of its name. -/
theorem mem_xformStruct (hd : DistinctNames cols) (hi : Instantiates cols vs)
    {col : PropertySchema} (hcol : col ∈ cols) {d : FieldDoc}
    (hmem : (col.name,d) ∈ xformStruct (valueObjects vs)) :
    ∃ v ∈ vs, MemberOf col v ∧ d = v.toObject.field ∧ col.name ≠ "__proto__" := by
  rw [xformStruct_eq (hi.names.nodup_iff.mpr hd.names)] at hmem
  obtain ⟨v,hv,he⟩ := List.mem_map.mp hmem
  obtain ⟨hv,hproto⟩ := List.mem_filter.mp hv
  obtain ⟨hname,rfl⟩ := Prod.mk.inj he
  obtain ⟨col',hcol',hv'⟩ := hi.entry v hv
  obtain rfl : col' = col :=
    List.inj_on_of_nodup_map hd.names hcol' hcol (hv'.name.symm.trans hname)
  exact ⟨v,hv,hv',rfl,by simpa [hname] using hproto⟩

/-- The object of an instance has the shape of the schema. -/
theorem shapedBy_xformStruct (hd : DistinctNames cols) (hp : NoProto cols)
    (hi : Instantiates cols vs) (hs : SafeIntegers vs) :
    ShapedBy cols (xformStruct (valueObjects vs)) := by
  induction hd generalizing vs with
  | @intro cols names hnested ih =>
    have hd : DistinctNames cols := .intro names hnested
    refine .intro ?_ (fun col hcol htype fields hmem => ?_) (fun col hcol htype => ?_)
      fun col hcol htype fields hmem => ?_
    · rw [hp.xformStruct_eq hd hi]
      simpa [Function.comp_def] using hi.names
    · obtain ⟨v,hv,hv',he,_⟩ := mem_xformStruct hd hi hcol hmem
      have hleaf : v.dataType ≠ .STRUCT := hv'.dataType ▸ htype
      rw [hs.field_leaf hv hleaf,PropertyValue.leaf] at he
      split at he <;> exact nomatch he
    · obtain ⟨v,hv,hv'⟩ := ((instantiates_iff names).mp hi).2 col hcol
      rw [hp.xformStruct_eq hd hi]
      refine ⟨xformStruct (valueObjects v.structValues),List.mem_map.mpr ⟨v,hv,?_⟩⟩
      rw [field_struct (hv'.dataType.trans htype),hv'.name]
    · obtain ⟨v,hv,hv',he,_⟩ := mem_xformStruct hd hi hcol hmem
      have hstruct := hv'.dataType.trans htype
      rw [field_struct hstruct] at he
      obtain rfl := FieldDoc.object.inj he
      exact ih col hcol htype (hp.nested hcol htype) (hv'.nested htype) (hs.nested hv hstruct)

/-- An object of the shape of the schema shows that no entry is named `__proto__`. -/
theorem noProto_of_shapedBy (hd : DistinctNames cols) (hi : Instantiates cols vs)
    (hshape : ShapedBy cols (xformStruct (valueObjects vs))) : NoProto cols := by
  induction hd generalizing vs with
  | @intro cols names hnested ih =>
    have hd : DistinctNames cols := .intro names hnested
    obtain ⟨keys,_,structs,nested⟩ := hshape
    refine .intro (fun col hcol => ?_) fun col hcol htype => ?_
    · have hkey := keys.mem_iff.mpr (List.mem_map_of_mem hcol)
      obtain ⟨⟨_,d⟩,hmem,rfl⟩ := List.mem_map.mp hkey
      obtain ⟨_,_,_,_,hproto⟩ := mem_xformStruct hd hi hcol hmem
      exact hproto
    · obtain ⟨fields,hmem⟩ := structs col hcol htype
      obtain ⟨v,_,hv',he,_⟩ := mem_xformStruct hd hi hcol hmem
      have hshape' := nested col hcol htype fields hmem
      rw [field_struct (hv'.dataType.trans htype)] at he
      obtain rfl := FieldDoc.object.inj he
      exact ih col hcol htype (hv'.nested htype) hshape'

end Structs

/-- What is read back of a stored value: an enum is again the name of its option, a struct an
object with the leaves that were submitted. -/
structure ReadsBack (p : Property) (u : PropertyValue) (doc : ReportedDoc) : Prop where
  enum : p.dataType = .ENUM → doc.enumValue = .name u.enumValue
  struct : p.dataType = .STRUCT → doc.structValues.isNone ∧ ∃ obj, doc.structValue = some obj ∧
    ShapedBy p.structProperties obj ∧ ∀ path, (FieldDoc.object obj).leafAt path = u.leafAt path

section Reading

variable {i t : Nat} {u : PropertyValue} {p : Property} {v : ReportedValue}

theorem convert_enum (hmakes : Makes i t u p v) (htype : u.dataType = p.dataType)
    (hp : p.dataType = .ENUM) (hdec : p.Decodable) :
    (v.toObject.convert p.toObject).enumValue = .name u.enumValue := by
  cases hmakes with
  | @enum index _ hindex =>
    obtain ⟨hlt,hname,_⟩ := List.findIdx?_eq_some_iff_getElem.mp hindex
    have hu32 : asU32 index = index := Nat.mod_eq_of_lt (hlt.trans hdec)
    have hoption : p.enumOptions[index] = u.enumValue := by simpa using hname
    simp [ReportedDoc.convert,ReportedValue.toObject,Property.toObject,hp,hu32,EnumDoc.option,hlt,
      hoption]
  | _ h => exact nomatch h.symm.trans (htype.trans hp)

theorem convert_struct (hmakes : Makes i t u p v) (htype : u.dataType = p.dataType)
    (hp : p.dataType = .STRUCT) : (v.toObject.convert p.toObject).structValues = none ∧
      (v.toObject.convert p.toObject).structValue =
        some (xformStruct (valueObjects u.structValues)) ∧
      validateStructValues u.structValues p.structProperties = .ok () := by
  cases hmakes with
  | struct _ hstruct =>
    exact ⟨rfl,by simp [ReportedDoc.convert,ReportedValue.toObject,Property.toObject,hp],hstruct⟩
  | _ h => exact nomatch h.symm.trans (htype.trans hp)

end Reading

/-- What the processor stores, ledger sync reads back, unless it is a struct with a member
`__proto__` at some level. -/
theorem stored_read_back_iff {i t pageNum j : Nat} {u : PropertyValue} {p : Property}
    {v : ReportedValue} {page : PropertyPage} (htype : u.dataType = p.dataType)
    (hv : makeNewReportedValue i t u p = .ok v) (hpage : page.reportedValues[j]? = some v)
    (hdec : p.dataType = .ENUM → p.Decodable)
    (hstruct : p.dataType = .STRUCT →
      DistinctNames p.structProperties ∧ SafeIntegers u.structValues) :
    ∃ doc, ((page.toObject pageNum).convert (some p.toObject)).reportedValues[j]? = some doc ∧
      (ReadsBack p u doc ↔ (p.dataType = .STRUCT → NoProto p.structProperties)) := by
  have hmakes := makeNewReportedValue_eq_ok.mp hv
  refine ⟨v.toObject.convert p.toObject,?_,fun hread hp => ?_,fun hproto => ⟨fun hp => ?_,?_⟩⟩
  · simp [PropertyPage.toObject,PageDoc.convert,hpage,Property.toObject]
  · obtain ⟨_,hobj,hvalid⟩ := convert_struct hmakes htype hp
    obtain ⟨_,obj,hobj',hshape,_⟩ := hread.struct hp
    obtain rfl := Option.some.inj (hobj.symm.trans hobj')
    have hd := (hstruct hp).1
    exact noProto_of_shapedBy hd ((validateStructValues_iff hd).mp hvalid) hshape
  · exact convert_enum hmakes htype hp (hdec hp)
  · intro hp
    obtain ⟨hnone,hobj,hvalid⟩ := convert_struct hmakes htype hp
    obtain ⟨hd,hs⟩ := hstruct hp
    have hi := (validateStructValues_iff hd).mp hvalid
    refine ⟨by rw [hnone]; rfl,_,hobj,shapedBy_xformStruct hd (hproto hp) hi hs,fun path => ?_⟩
    exact leafAt_struct path (htype.trans hp) hd (hproto hp) hi hs

namespace Sample

def switch : Property :=
  { name := "e", recordId := "r", dataType := .ENUM, enumOptions := ["off","on","off"] }

def switched : PropertyValue := { name := "e", dataType := .ENUM, enumValue := "on" }

def box : Property :=
  { name := "s", recordId := "r", dataType := .STRUCT, structProperties := nested }

def boxed : PropertyValue :=
  { name := "s", dataType := .STRUCT, structValues := nestedValues members }

theorem noProto_nested : NoProto nested := by
  refine of_levels fun cols hcols hbelow => .intro ?_ hbelow
  rcases hcols with rfl | rfl <;> decide

theorem safeIntegers_members : SafeIntegers members := by
  constructor
  all_goals
    intro v hv htype
    simp only [members,List.mem_cons,List.not_mem_nil,or_false] at hv
    rcases hv with rfl | rfl <;> exact nomatch htype

theorem safeIntegers_boxed : SafeIntegers boxed.structValues := by
  constructor
  all_goals
    intro v hv htype
    simp only [boxed,nestedValues,List.mem_cons,List.not_mem_nil,or_false] at hv
    rcases hv with rfl | rfl
  all_goals first
    | exact safeIntegers_members
    | decide
    | exact nomatch htype

/-- A stored value on a page of its own. -/
def paged (v : ReportedValue) : PropertyPage := { reportedValues := [v] }

/-- A struct whose only member is named `__proto__`. -/
def prototyped : Property :=
  { name := "s", recordId := "r", dataType := .STRUCT,
    structProperties := [{ name := "__proto__", dataType := .BOOLEAN }] }

def prototypedValue : PropertyValue :=
  { name := "s", dataType := .STRUCT,
    structValues := [{ name := "__proto__", dataType := .BOOLEAN, booleanValue := true }] }

end Sample

theorem stored_read_back_boxed :
    (∃ v doc, makeNewReportedValue 0 5 Sample.switched Sample.switch = .ok v ∧
      (((Sample.paged v).toObject 1).convert (some Sample.switch.toObject)).reportedValues[0]? =
        some doc ∧ doc.enumValue = .name "on") ∧
    ∃ v doc obj, makeNewReportedValue 0 5 Sample.boxed Sample.box = .ok v ∧
      (((Sample.paged v).toObject 1).convert (some Sample.box.toObject)).reportedValues[0]? =
        some doc ∧ doc.structValue = some obj ∧ ShapedBy Sample.nested obj ∧
      (FieldDoc.object obj).leafAt ["s","c"] = some (.boolean true) := by
  constructor
  · have hv : makeNewReportedValue 0 5 Sample.switched Sample.switch =
      .ok { reporterIndex := 0, timestamp := 5, enumValue := 1 } := rfl
    obtain ⟨doc,hdoc,hiff⟩ := @stored_read_back_iff 0 5 1 0 Sample.switched Sample.switch _
      (Sample.paged _) rfl hv rfl (fun _ => (by decide : 3 < 2 ^ 32)) nofun
    exact ⟨_,doc,hv,hdoc,(hiff.mpr nofun).enum rfl⟩
  · have hok : validateStructValues Sample.boxed.structValues Sample.box.structProperties =
      .ok () := by decide +kernel
    have hv := makeNewReportedValue_eq_ok.mpr (@Makes.struct 0 5 Sample.boxed Sample.box rfl hok)
    obtain ⟨doc,hdoc,hiff⟩ := @stored_read_back_iff 0 5 1 0 Sample.boxed Sample.box _
      (Sample.paged _) rfl hv rfl nofun
      fun _ => ⟨Sample.distinctNames_nested,Sample.safeIntegers_boxed⟩
    obtain ⟨_,obj,hobj,hshape,hleaves⟩ := (hiff.mpr fun _ => Sample.noProto_nested).struct rfl
    exact ⟨_,doc,obj,hv,hdoc,hobj,hshape,hleaves ["s","c"]⟩

/-- The processor accepts the struct, and its leaf is lost: the object has no member. -/
theorem stored_read_back_prototyped :
    ∃ v doc, makeNewReportedValue 0 5 Sample.prototypedValue Sample.prototyped = .ok v ∧
      DistinctNames Sample.prototyped.structProperties ∧
      SafeIntegers Sample.prototypedValue.structValues ∧
      (((Sample.paged v).toObject 1).convert
        (some Sample.prototyped.toObject)).reportedValues[0]? = some doc ∧
      doc.structValue = some [] ∧
      Sample.prototypedValue.leafAt ["__proto__"] = some (.boolean true) ∧
      ¬ ReadsBack Sample.prototyped Sample.prototypedValue doc := by
  have hok : validateStructValues Sample.prototypedValue.structValues
      Sample.prototyped.structProperties = .ok () := by decide +kernel
  have hv := makeNewReportedValue_eq_ok.mpr
    (@Makes.struct 0 5 Sample.prototypedValue Sample.prototyped rfl hok)
  refine ⟨_,_,hv,?_,?_,rfl,rfl,rfl,fun hread => ?_⟩
  · refine .intro (by decide) fun col hcol htype => ?_
    rw [List.mem_singleton.mp hcol] at htype
    exact nomatch htype
  · refine .intro ?_ ?_ ?_
    all_goals
      intro v hv htype
      rw [List.mem_singleton.mp hv] at htype
      exact nomatch htype
  · obtain ⟨_,obj,hobj,_,hleaves⟩ := hread.struct rfl
    obtain rfl : [] = obj := Option.some.inj hobj
    exact nomatch hleaves ["__proto__"]

end DgcRestApi
