import DgcRestApi.Ledger.Acceptance

/-!
# Stored values and their schemas

A struct is checked against its schema member by member, by name and by data type, at every
depth. The options of an enum are looked up at the top level only, and no test asks whether a
type is unset or a name is listed twice. So a stored struct conforms to its schema exactly
when schema and value keep to that by themselves.
-/

namespace DgcRestApi
open Fallible

/-- The values of a struct are those of its schema: one for each entry and no other, of the
entry's data type, down through all structs. -/
inductive Conforms : List PropertySchema → List PropertyValue → Prop
  | intro {cols : List PropertySchema} {vs : List PropertyValue}
      (sole : ∀ col ∈ cols, (vs.map PropertyValue.name).count col.name = 1)
      (others : ∀ v ∈ vs, ∃ col ∈ cols, col.name = v.name)
      (set : ∀ col ∈ cols, col.dataType ≠ .TYPE_UNSET)
      (typed : ∀ col ∈ cols, ∀ v ∈ vs, v.name = col.name → v.dataType = col.dataType)
      (options : ∀ col ∈ cols, ∀ v ∈ vs, v.name = col.name → col.dataType = .ENUM →
        v.enumValue ∈ col.enumOptions)
      (nested : ∀ col ∈ cols, ∀ v ∈ vs, v.name = col.name → col.dataType = .STRUCT →
        Conforms col.structProperties v.structValues) : Conforms cols vs

/-- What is left unchecked of a struct: the schema lists no name twice and no unset type, and
an enum value is one of the options. -/
inductive Proper : List PropertySchema → List PropertyValue → Prop
  | intro {cols : List PropertySchema} {vs : List PropertyValue}
      (names : (cols.map PropertySchema.name).Nodup)
      (set : ∀ col ∈ cols, col.dataType ≠ .TYPE_UNSET)
      (options : ∀ col ∈ cols, ∀ v ∈ vs, v.name = col.name → col.dataType = .ENUM →
        v.enumValue ∈ col.enumOptions)
      (nested : ∀ col ∈ cols, ∀ v ∈ vs, v.name = col.name → col.dataType = .STRUCT →
        Proper col.structProperties v.structValues) : Proper cols vs

section Structs

variable {cols : List PropertySchema} {vs : List PropertyValue} {col : PropertySchema}
variable {v : PropertyValue}

/-- An accepted value whose name is unique was the one that was checked. -/
theorem validateStructValues_member (hok : validateStructValues vs cols = .ok ())
    (hnames : (vs.map PropertyValue.name).Nodup) (hcol : col ∈ cols) (hv : v ∈ vs)
    (hname : v.name = col.name) : v.dataType = col.dataType ∧ (col.dataType = .STRUCT →
      validateStructValues v.structValues col.structProperties = .ok ()) := by
  obtain ⟨w,hfind,hw⟩ := (validateStructValues_eq_ok.mp hok).2 col hcol
  have hwname : w.name = col.name := by simpa using List.find?_some hfind
  have hsame : v = w := List.inj_on_of_nodup_map hnames hv (List.mem_of_find?_eq_some hfind)
    (hname.trans hwname.symm)
  rw [hsame]
  exact hw

/-- As many values as entries: if the entries have different names, the values have the same
names. -/
theorem validateStructValues_names (hok : validateStructValues vs cols = .ok ())
    (hnames : (cols.map PropertySchema.name).Nodup) :
    (cols.map PropertySchema.name).Perm (vs.map PropertyValue.name) := by
  obtain ⟨hlen,hfound⟩ := validateStructValues_eq_ok.mp hok
  refine (List.subperm_of_subset hnames fun n hn => ?_).perm_of_length_le (by simp [hlen])
  obtain ⟨col,hcol,rfl⟩ := List.mem_map.mp hn
  obtain ⟨v,hfind,_⟩ := hfound col hcol
  have hname : v.name = col.name := by simpa using List.find?_some hfind
  exact List.mem_map.mpr ⟨v,List.mem_of_find?_eq_some hfind,hname⟩

theorem Proper.conforms (h : Proper cols vs) (hok : validateStructValues vs cols = .ok ()) :
    Conforms cols vs := by
  induction h with
  | intro names set options nested ih =>
    have hperm := validateStructValues_names hok names
    have hmember := fun col hcol v hv => @validateStructValues_member _ _ col v hok
      (hperm.nodup_iff.mp names) hcol hv
    refine .intro (fun col hcol => ?_) (fun v hv => ?_) set
      (fun col hcol v hv hname => (hmember col hcol v hv hname).1) options
      fun col hcol v hv hname htype => ?_
    · rw [← hperm.count_eq]
      exact List.count_eq_one_of_mem names (List.mem_map_of_mem hcol)
    · exact List.mem_map.mp (hperm.mem_iff.mpr (List.mem_map_of_mem hv))
    · exact ih col hcol v hv hname htype ((hmember col hcol v hv hname).2 htype)

theorem Conforms.proper (h : Conforms cols vs) (hok : validateStructValues vs cols = .ok ()) :
    Proper cols vs := by
  induction h with
  | @intro cols vs sole others set typed options nested ih =>
    -- every name among the values is the name of an entry, so it is there once
    have hvs : (vs.map PropertyValue.name).Nodup := by
      rw [List.nodup_iff_count_eq_one]
      intro n hn
      obtain ⟨v,hv,rfl⟩ := List.mem_map.mp hn
      obtain ⟨col,hcol,hname⟩ := others v hv
      exact hname ▸ sole col hcol
    have hperm : (vs.map PropertyValue.name).Perm (cols.map PropertySchema.name) := by
      refine (List.subperm_of_subset hvs fun n hn => ?_).perm_of_length_le ?_
      · obtain ⟨v,hv,rfl⟩ := List.mem_map.mp hn
        exact List.mem_map.mpr (others v hv)
      · simp [(validateStructValues_eq_ok.mp hok).1]
    refine .intro (hperm.nodup_iff.mp hvs) set options fun col hcol v hv hname htype => ?_
    exact ih col hcol v hv hname htype
      ((validateStructValues_member hok hvs hcol hv hname).2 htype)

end Structs

/-- A stored value of the property: of all the value fields only that of the property's type
is set, an enum index is one of an option, and a struct conforms to the schema. -/
structure Fits (p : Property) (v : ReportedValue) : Prop where
  bytes : p.dataType ≠ .BYTES → v.bytesValue = []
  boolean : p.dataType ≠ .BOOLEAN → v.booleanValue = false
  number : p.dataType ≠ .NUMBER → v.numberValue = 0
  string : p.dataType ≠ .STRING → v.stringValue = ""
  enum : p.dataType ≠ .ENUM → v.enumValue = 0
  struct : p.dataType ≠ .STRUCT → v.structValues = []
  location : p.dataType ≠ .LOCATION → v.locationValue = none
  option : p.dataType = .ENUM → v.enumValue < p.enumOptions.length
  conforms : p.dataType = .STRUCT → Conforms p.structProperties v.structValues

/-- Only the schema of the property matters. -/
theorem Fits.congr {p q : Property} {v : ReportedValue} (hschema : q.schema = p.schema)
    (h : Fits p v) : Fits q v := by
  have htype : q.dataType = p.dataType := congrArg PropertySchema.dataType hschema
  have hoptions : q.enumOptions = p.enumOptions := congrArg PropertySchema.enumOptions hschema
  have hstruct : q.structProperties = p.structProperties :=
    congrArg PropertySchema.structProperties hschema
  constructor
  all_goals simp only [htype,hoptions,hstruct]
  exacts [h.bytes,h.boolean,h.number,h.string,h.enum,h.struct,h.location,h.option,h.conforms]

/-- What a value of the right type is stored as. -/
theorem fits_iff {i t : Nat} {u : PropertyValue} {q : Property} {v : ReportedValue}
    (hv : makeNewReportedValue i t u q = .ok v) (htype : u.dataType = q.dataType) :
    Fits q v ↔ (q.dataType = .STRUCT → Proper q.structProperties u.structValues) := by
  cases makeNewReportedValue_eq_ok.mp hv with
  | @enum index hd hindex =>
    rw [htype] at hd
    have hlt : index < q.enumOptions.length :=
      (List.findIdx?_eq_some_iff_findIdx_eq.mp hindex).1
    refine iff_of_true ?_ (by simp [hd])
    constructor
    all_goals simp [hd]
    exact (Nat.mod_le index _).trans_lt hlt
  | struct hd hstruct =>
    rw [htype] at hd
    refine ⟨fun h _ => (h.conforms hd).proper hstruct,fun h => ?_⟩
    constructor
    all_goals simp [hd]
    exact (h hd).conforms hstruct
  | bytes hd | boolean hd | number hd | string hd | location hd =>
    rw [htype] at hd
    refine iff_of_true ?_ (by simp [hd])
    constructor <;> simp [hd]

namespace Ledger

variable {range : String → Address} {L L' : Ledger} {tx : Tx} {r n signer : String} {ts : Nat}
variable {u : PropertyValue}

/-- Every value on a page of a property fits it. -/
def Conforming (L : Ledger) : Prop :=
  ∀ r n k q page, L.property r n = some q → L.page r n k = some page →
    ∀ v ∈ page.reportedValues, Fits q v

theorem conforming_empty : Conforming empty := fun _ _ _ _ _ hq => nomatch hq

/-- The structs that a transaction submits, each with the schema it is checked against. -/
inductive Submits (L : Ledger) (tx : Tx) : List PropertySchema → List PropertyValue → Prop
  | created {a t n col u} (ha : tx.action = .CreateRecord a) (ht : L.table a.table = some t)
      (hcol : t.entry n = some col) (hu : a.value n = some u) (htype : col.dataType = .STRUCT) :
      Submits L tx col.structProperties u.structValues
  | updated {a u q} (ha : tx.action = .UpdateProperties a) (hu : u ∈ a.properties)
      (hq : L.property a.recordId u.name = some q) (htype : q.dataType = .STRUCT) :
      Submits L tx q.structProperties u.structValues

end Ledger

def Tx.submitted (tx : Tx) : List PropertyValue :=
  match tx.action with
  | .CreateRecord a => a.properties
  | .UpdateProperties a => a.properties
  | _ => []

namespace Ledger

theorem Submits.submitted {cols : List PropertySchema} {vs : List PropertyValue}
    (h : Submits L tx cols vs) : ∃ u ∈ tx.submitted, u.structValues = vs := by
  cases h with
  | @created a _ _ _ u ha _ _ hu =>
    refine ⟨u,?_,rfl⟩
    rw [Tx.submitted,ha]
    exact (List.mem_filter.mp (List.mem_of_getLast? hu)).1
  | @updated a u _ ha hu =>
    refine ⟨u,?_,rfl⟩
    rw [Tx.submitted,ha]
    exact hu

/-! ## One page -/

/-- There are no pages but the first. -/
def FirstPages (L : Ledger) : Prop := ∀ r n k page, L.page r n k = some page → k = 1

theorem firstPages_empty : FirstPages empty := fun _ _ _ _ hp => nomatch hp

/-- The page after a full one is page 1 again. -/
theorem Report.firstPages (hL : Paging range L) (h : FirstPages L)
    (hu : Report range r signer ts L u L') : FirstPages L' := by
  obtain ⟨q,page,v,hrep,hout⟩ := hu.outcome
  rw [hL.current _ _ _ hrep.property] at hout
  have hset : FirstPages (L.setPage range r u.name 1 (pushReportedValue page v)) := by
    intro r' n k page' hp
    rw [setPage_page] at hp
    split at hp
    · next hhit => exact hhit.2.2
    · exact h r' n k page' hp
  rcases hout with ⟨_,rfl⟩ | ⟨next,_,hnext,rfl⟩
  · exact hset
  · intro r' n k page' hp
    rw [setProperty_page,setPage_page] at hp
    split at hp
    · next hhit => exact hhit.2.2.trans (nextPageNumber_one hnext)
    · exact hset r' n k page' hp

theorem Step.firstPages (hL : Paging range L) (h : FirstPages L) (hstep : Step range L tx L') :
    FirstPages L' := by
  rcases hstep.property_cases with ⟨signer,ts,a,t,initial,rfl,hc⟩ |
      ⟨signer,ts,a,rec,rfl,hrec,_,hus⟩ | ⟨_,_,hpages,_⟩
  · intro r n k page hp
    rw [hc.eq,initProperties_page] at hp
    split at hp
    · next hhit => exact hhit.2.2
    · exact h r n k page hp
  · have hall := hus.invariant
      (fun L => Paging range L ∧ FirstPages L ∧ ∃ rec, L.record a.recordId = some rec)
      (fun L u L' _ ⟨hL,h,hrec⟩ hu => ⟨hL.report hrec hu,hu.firstPages hL h,
        hu.framed.record ▸ hrec⟩) ⟨hL,h,rec,hrec⟩
    exact hall.2.1
  · exact fun r n k page hp => h r n k page (hpages ▸ hp)

/-! ## Steps -/

/-- A value that an update stores. -/
theorem Reported.fits {q : Property} {v : ReportedValue} (h : Reported L r signer ts u v)
    (hq : L.property r u.name = some q) (htype : u.dataType = q.dataType)
    (hproper : q.dataType = .STRUCT → Proper q.structProperties u.structValues) : Fits q v := by
  obtain ⟨q₁,rep,hq₁,_,_,hv⟩ := h
  obtain rfl := Option.some.inj (hq.symm.trans hq₁)
  exact (fits_iff hv htype).mpr hproper

/-- The value of a new property. -/
theorem Created.fits {a : CreateRecordAction} {t : Table} {initial : String → List ReportedValue}
    (hc : Created range L signer ts a t initial L') {col : PropertySchema} {v : ReportedValue}
    (hcol : t.entry n = some col) (hv : v ∈ initial n)
    (hproper : ∀ u, a.value n = some u → col.dataType = .STRUCT →
      Proper col.structProperties u.structValues) :
    Fits (newProperty a.recordId signer n col) v := by
  have hvalues := hc.values n col (by rw [tableSchema_lookup,hcol])
  rw [providedProperties_lookup] at hvalues
  cases hu : a.value n with
  | none =>
    rw [hu] at hvalues
    rw [← Except.ok.inj hvalues] at hv
    exact absurd hv List.not_mem_nil
  | some u =>
    rw [hu] at hvalues
    obtain ⟨v',hv',hvalues⟩ := bind_eq_ok.mp hvalues
    rw [← Except.ok.inj hvalues,List.mem_singleton] at hv
    obtain ⟨col',hcol',_,htype⟩ := checkProvided_iff.mp
      (hc.provided n u (by rw [providedProperties_lookup,hu]))
    rw [tableSchema_lookup,hcol] at hcol'
    obtain rfl := Option.some.inj hcol'
    rw [hv]
    exact (fits_iff hv' htype).mpr (hproper u hu)

theorem Step.conforming (hL : Paging range L) (hfirst : FirstPages L) (hC : Conforming L)
    (hproper : ∀ cols vs, Submits L tx cols vs → Proper cols vs) (hstep : Step range L tx L') :
    Conforming L' := by
  intro r n k q' page hq' hp v hv
  rcases hstep.property_cases with ⟨signer,ts,a,t,initial,rfl,hc⟩ |
      ⟨signer,ts,a,rec,rfl,hrec,_,hus⟩ | ⟨_,_,hpages,hprop⟩
  · obtain rfl := hstep.firstPages hL hfirst r n k page hp
    rw [hc.eq,initProperties_property,tableSchema_lookup] at hq'
    rw [hc.eq,initProperties_page,tableSchema_lookup] at hp
    by_cases hhit : range r = range a.recordId ∧ ((t.entry n).map
        (newProperty a.recordId signer n)).isSome
    · -- the property and its page are replaced together
      rw [if_pos hhit] at hq'
      rw [if_pos ⟨hhit.1,hhit.2,rfl⟩] at hp
      obtain ⟨col,hcol,rfl⟩ := Option.map_eq_some_iff.mp hq'
      obtain rfl := Option.some.inj hp
      exact hc.fits hcol hv fun u hu htype => hproper _ _ (.created rfl hc.table hcol hu htype)
    · rw [if_neg hhit] at hq'
      rw [if_neg fun h => hhit ⟨h.1,h.2.1⟩] at hp
      exact hC r n 1 q' page hq' hp v hv
  · obtain ⟨q,hq,hturned⟩ := rel_some_right (hq' ▸ hus.turned_property hL.homed ⟨rec,hrec⟩ r n)
    refine Fits.congr hturned.schema ?_
    rcases hus.values hL.homed ⟨rec,hrec⟩ hp hv with ⟨page₀,hpage₀,hv₀⟩ | ⟨hrange,u,hu,rfl,hrep⟩
    · exact hC r n k q page₀ hq hpage₀ v hv₀
    · rw [hL.homed.property_congr _ _ hrange] at hq
      obtain ⟨q₁,hup⟩ := (reports_iff hL ⟨rec,hrec⟩).mp ⟨_,hus⟩ u hu
      obtain rfl := Option.some.inj (hq.symm.trans hup.property)
      exact hrep.fits hq hup.dataType fun htype => hproper _ _ (.updated rfl hu hq htype)
  · obtain ⟨q,hq,hev⟩ := rel_some_right (hq' ▸ hprop r n)
    exact Fits.congr hev.extends.schema (hC r n k q page hq (hpages ▸ hp) v hv)

end Ledger

theorem reachable_firstPages {env : Env} {h : List (State × Tx)} {s : State}
    (hr : Reachable env h s) : Ledger.FirstPages (ledger env s) := by
  induction hr with
  | nil => exact Ledger.firstPages_empty
  | snoc hr hacc ih =>
    exact (accepted_refines (reachable_refines hr).1 hacc).2.firstPages (reachable_paging hr) ih

/-- In a run in which only proper structs are submitted, every stored value fits its property
at all times. -/
theorem values_conform {env : Env} {h : List (State × Tx)} {s : State} (hr : Reachable env h s)
    (hproper : ∀ e ∈ h, ∀ cols vs, Ledger.Submits (ledger env e.1) e.2 cols vs →
      Proper cols vs) : ∀ x ∈ Run.states h s, Ledger.Conforming (ledger env x) := by
  have hall := hr.forall_states
    (fun x => (∃ h', Reachable env h' x) ∧ Ledger.Conforming (ledger env x))
    (fun e => ∀ cols vs, Ledger.Submits (ledger env e.1) e.2 cols vs → Proper cols vs) ?_ ?_ hproper
  · exact fun x hx => (hall x hx).2
  · rintro x tx x' ⟨⟨h',hr'⟩,hC⟩ hacc hq
    have hstep := (accepted_refines (reachable_refines hr').1 hacc).2
    exact ⟨⟨_,hr'.snoc hacc⟩,
      hstep.conforming (reachable_paging hr') (reachable_firstPages hr') hC hq⟩
  · exact ⟨⟨[],.nil⟩,Ledger.conforming_empty⟩

/-- Requests that submit no values. -/
theorem not_submitted {h : List (State × Tx)} {requests : List TpProcessRequest}
    (hmap : h.map (fun e => some e.2) = (requests.map TpProcessRequest.tx?).reverse)
    (hnone : requests.filterMap (fun r => r.tx?.bind fun tx =>
      tx.submitted.head?.map PropertyValue.name) = []) : ∀ e ∈ h, e.2.submitted = [] := by
  have hhead := filterMap_history hmap fun tx => tx.submitted.head?.map PropertyValue.name
  rw [hnone,List.reverse_nil,List.filterMap_eq_nil_iff] at hhead
  intro e he
  have hnil := hhead e he
  rwa [Option.map_eq_none_iff,List.head?_eq_none_iff] at hnil

namespace Sample

/-- A table whose column is a struct with an enum member. -/
def lamps : TpProcessRequest :=
  request "A"
    { action := .CREATE_TABLE, timestamp := 5
      createTable :=
        { name := "u"
          properties := [{ name := "s", dataType := .STRUCT
                           structProperties := [{ name := "e", dataType := .ENUM
                                                  enumOptions := ["on","off"] }] }] } }

def lamp (enumValue : String) : CreateRecordAction :=
  { recordId := "q", table := "u"
    properties := [{ name := "s", dataType := .STRUCT
                     structValues := [{ name := "e", dataType := .ENUM, enumValue }] }] }

def createLamp (enumValue : String) : TpProcessRequest :=
  request "A" { action := .CREATE_RECORD, timestamp := 6, createRecord := lamp enumValue }

/-- The names, types and options of a struct schema. -/
def entries (cols : List PropertySchema) : List (String × DataType × List String) :=
  cols.map fun col => (col.name,col.dataType,col.enumOptions)

theorem proper_lamp {cols : List PropertySchema} {enumValue : String}
    (h : entries cols = [("e",.ENUM,["on","off"])]) (hoption : enumValue ∈ ["on","off"]) :
    Proper cols [{ name := "e", dataType := .ENUM, enumValue }] := by
  obtain ⟨col,rfl,hcol⟩ := List.map_eq_singleton_iff.mp h
  simp only [Prod.mk.injEq] at hcol
  obtain ⟨_,htype,hoptions⟩ := hcol
  refine .intro (List.nodup_singleton _) ?_ ?_ ?_
  · simp [htype]
  · simpa [hoptions] using fun _ _ => hoption
  · simp [htype]

end Sample

theorem values_conform_sample : ∃ h : List (State × Tx),
    ∀ x ∈ Run.states
        ((Sample.plainly [Sample.lamps],⟨"A",6,.CreateRecord (Sample.lamp "on")⟩) :: h)
        (outcome (apply Sample.plain Sample.orders (Sample.createLamp "on")
          (Sample.plainly [Sample.lamps]))),
      Ledger.Conforming (ledger Sample.plain x) := by
  obtain ⟨h,hr,hmap⟩ := replay_run (@Sample.plainly_eq [Sample.lamps] (by decide +kernel))
  have hacc := @Sample.plainly_accepted (Sample.createLamp "on") (Sample.plainly [Sample.lamps])
    ⟨"A",6,.CreateRecord (Sample.lamp "on")⟩ rfl (by decide +kernel)
  have hnone := not_submitted hmap (by decide +kernel)
  refine ⟨h,values_conform (.snoc hr hacc) (List.forall_mem_cons.mpr ⟨fun cols vs hsub => ?_,
    fun e he cols vs hsub => ?_⟩)⟩
  · cases hsub with
    | @created a t n col u ha ht hcol hu =>
      obtain rfl := Action.CreateRecord.inj ha
      have hmem : u ∈ (Sample.lamp "on").properties :=
        (List.mem_filter.mp (List.mem_of_getLast? hu)).1
      obtain rfl := List.mem_singleton.mp hmem
      dsimp only [Sample.lamp] at ht
      obtain ⟨t',ht',hcols⟩ := Option.map_eq_some_iff.mp (show
        ((ledger Sample.plain (Sample.plainly [Sample.lamps])).table "u").map
          (fun t => t.properties.map fun col => Sample.entries col.structProperties) =
            some [[("e",.ENUM,["on","off"])]] by decide +kernel)
      rw [ht'] at ht
      obtain rfl := Option.some.inj ht
      have hentries := List.mem_map_of_mem (f := fun col => Sample.entries col.structProperties)
        (Table.entry_name hcol).1
      rw [hcols,List.mem_singleton] at hentries
      exact Sample.proper_lamp hentries (by decide)
    | updated ha => exact nomatch ha
  · obtain ⟨u,hu,_⟩ := hsub.submitted
    rw [hnone e he] at hu
    exact absurd hu List.not_mem_nil

/-- A record is created with a value that is no option of the enum. -/
def Sample.lit : List TpProcessRequest := [Sample.lamps,Sample.createLamp "up"]

/-- An enum member is stored without being one of its options. -/
theorem member_unchecked : ∃ h, Reachable Sample.plain h (Sample.plainly Sample.lit) ∧
    ¬ Ledger.Conforming (ledger Sample.plain (Sample.plainly Sample.lit)) := by
  obtain ⟨h,hr,_⟩ := replay_run (@Sample.plainly_eq Sample.lit (by decide +kernel))
  refine ⟨h,hr,fun hC => ?_⟩
  obtain ⟨q,hq,hschema⟩ := Option.map_eq_some_iff.mp (show
    ((ledger Sample.plain (Sample.plainly Sample.lit)).property "q" "s").map
      (fun q => (q.dataType,Sample.entries q.structProperties)) =
        some (.STRUCT,[("e",.ENUM,["on","off"])]) by decide +kernel)
  obtain ⟨page,hpage,hvalues⟩ := Option.map_eq_some_iff.mp (show
    ((ledger Sample.plain (Sample.plainly Sample.lit)).page "q" "s" 1).map
      (fun page => page.reportedValues.map fun v => v.structValues.map fun w =>
        (w.name,w.enumValue)) = some [[("e","up")]] by decide +kernel)
  obtain ⟨htype,hentries⟩ := Prod.mk.inj hschema
  obtain ⟨v,hv,hstruct⟩ := List.map_eq_singleton_iff.mp hvalues
  obtain ⟨w,hw,hwvalue⟩ := List.map_eq_singleton_iff.mp hstruct
  obtain ⟨col,hcol,hentry⟩ := List.map_eq_singleton_iff.mp hentries
  simp only [Prod.mk.injEq] at hwvalue hentry
  cases (hC "q" "s" 1 q page hq hpage v (hv ▸ List.mem_cons_self)).conforms htype with
  | intro _ _ _ _ options =>
    have hoption := options col (hcol ▸ List.mem_cons_self) w (hw ▸ List.mem_cons_self)
      (hwvalue.1.trans hentry.1.symm) hentry.2.1
    rw [hwvalue.2,hentry.2.2] at hoption
    exact absurd hoption (by decide)

end DgcRestApi
