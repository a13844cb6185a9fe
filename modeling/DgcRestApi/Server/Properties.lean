import DgcRestApi.LedgerSync.ReadBack
import DgcRestApi.LedgerSync.Reflection
import DgcRestApi.Server.Retrieval

/-!
# Queries for properties

`fetchProperty` of `db/records.js`: a property with its updates, each under the name of the
participant that reported it. On a database that shows the ledger the answer says what was
submitted, by whom and when: every update goes back to a transaction that its reporter signed.
-/

namespace DgcRestApi.Server.Properties
open LedgerSync Fallible Keyed Retrieval

/-- A participant as an update names it. -/
structure Identity where
  name : String
  publicKey : String
deriving DecidableEq, Repr

def badData : Identity := ⟨"BAD DATA","BAD DATA"⟩

structure Update where
  value : Retrieval.Stored
  timestamp : Nat
  reporter : Identity

/-- `orderBy(r.desc('timestamp'))`. Which of two updates of one time is first is up to the
database. -/
structure OrderBy where
  order : List Update → List Update
  perm : ∀ us, (order us).Perm us
  descending : ∀ us, (order us).Pairwise fun u v => v.timestamp ≤ u.timestamp

structure PropertyValues where
  name : String
  dataType : DataType
  fixed : Bool
  numberExponent : Int
  unit : String
  reporterKeys : List Reporter
  values : List Update

structure PropertyAnswer where
  name : String
  recordId : String
  reporters : List String
  dataType : DataType
  value : Option Update
  updates : List Update

section Queries

variable (o : OrderBy) (db : Db) (block : Nat)

def participants : List Participant := objects Entry.toParticipant .participants block db

/-- A key that cannot be evaluated is an error in the filter, which then selects nothing. -/
def getReporter (publicKey : Option String) : Identity :=
  ((participants db block).find? fun p => some p.publicKey = publicKey).elim badData fun p =>
    ⟨p.name,p.publicKey⟩

/-- If the data type is unknown, use `bytesValue`. -/
def getValue (dataType : DataType) (value : ReportedDoc) : Option Retrieval.Stored :=
  if dataType = .TYPE_UNSET then some (.bytes value.bytesValue) else field value dataType

def getUpdate (dataType : DataType) (reporterKeys : List Reporter) (value : ReportedDoc) :
    Option Update :=
  (getValue dataType value).map fun stored =>
    { value := stored
      timestamp := value.timestamp
      reporter := getReporter db block (reporterKeys[value.reporterIndex]?.map Reporter.publicKey) }

def findReportedValues (recordId propertyName : String) (dataType : DataType)
    (reporterKeys : List Reporter) : Option (List Update) :=
  (((pagesNamed db block recordId propertyName).flatMap PageDoc.reportedValues).mapM
    (getUpdate db block dataType reporterKeys)).map o.order

def getPropertyValues (recordId : String) (property : Property) : Option PropertyValues :=
  (findReportedValues o db block recordId property.name property.dataType property.reporters).map
    fun values =>
      { name := property.name
        dataType := property.dataType
        fixed := property.fixed
        numberExponent := property.numberExponent
        unit := property.unit
        reporterKeys := property.reporters
        values }

def getCurrentValue (propertyValue : PropertyValues) : Option Update := propertyValue.values.head?

def getAuthorizedReporterKeys (propertyValue : PropertyValues) : List String :=
  (propertyValue.reporterKeys.filter Reporter.authorized).map Reporter.publicKey

def fetchPropertyQuery (recordId name : String) : Option PropertyAnswer :=
  (findProperty db block recordId name).bind fun property =>
    (getPropertyValues o db block recordId property).map fun propertyValues =>
      { name
        recordId
        reporters := getAuthorizedReporterKeys propertyValues
        dataType := propertyValues.dataType
        value := getCurrentValue propertyValues
        updates := propertyValues.values }

def fetchProperty (recordId propertyName : String) : Option PropertyAnswer :=
  (currentBlock db).bind fun block => fetchPropertyQuery o db block recordId propertyName

end Queries

/-! ## What was submitted -/

/-- The stored value is the submitted one: of a struct an object of the shape of its schema, with
the submitted leaf under every path. -/
inductive Presents (p : Property) (u : PropertyValue) : Retrieval.Stored → Prop
  | bytes (h : u.dataType = .BYTES) : Presents p u (.bytes u.bytesValue)
  | boolean (h : u.dataType = .BOOLEAN) : Presents p u (.boolean u.booleanValue)
  | number (h : u.dataType = .NUMBER) : Presents p u (.number u.numberValue)
  | string (h : u.dataType = .STRING) : Presents p u (.string u.stringValue)
  | enum (h : u.dataType = .ENUM) : Presents p u (.enum (.name u.enumValue))
  | location (h : u.dataType = .LOCATION) :
      Presents p u (.location (some (u.locationValue.getD {})))
  | struct {obj : List (String × FieldDoc)} (h : u.dataType = .STRUCT)
      (shape : ShapedBy p.structProperties obj)
      (leaves : ∀ path, (FieldDoc.object obj).leafAt path = u.leafAt path) :
      Presents p u (.struct obj)

/-- A property whose values are read back: the names of a struct are distinct at every level, and
none is `__proto__`. -/
structure Readable (p : Property) : Prop where
  decodable : p.dataType = .ENUM → p.Decodable
  distinct : p.dataType = .STRUCT → DistinctNames p.structProperties
  noProto : p.dataType = .STRUCT → NoProto p.structProperties

/-- The transaction submits `u` as a value of the property. -/
inductive Provides (r n : String) (tx : Tx) (u : PropertyValue) : Prop
  | created {a : CreateRecordAction} (haction : tx.action = .CreateRecord a) (hr : a.recordId = r)
      (hu : a.value n = some u)
  | updated {a : UpdatePropertiesAction} (haction : tx.action = .UpdateProperties a)
      (hr : a.recordId = r) (hu : u ∈ a.properties) (hn : u.name = n)

section Values

variable {i t : Nat} {u : PropertyValue} {p : Property} {v : ReportedValue}

/-- What the processor makes of a value, and ledger sync of that, is the value. -/
theorem getValue_presents (hmakes : Makes i t u p v) (htype : u.dataType = p.dataType)
    (hread : Readable p) (hsafe : SafeIntegers [u]) :
    ∃ stored, getValue p.dataType (v.toObject.convert p.toObject) = some stored ∧
      Presents p u stored := by
  obtain ⟨hnumber,hlocation,hnested⟩ := hsafe
  have hmem : u ∈ [u] := List.mem_singleton_self u
  rw [← htype,getValue]
  cases hd : u.dataType with
  | ENUM =>
    have hp : p.dataType = .ENUM := htype.symm.trans hd
    rw [if_neg (by decide),field,convert_enum hmakes htype hp (hread.decodable hp)]
    exact ⟨_,if_neg nofun,.enum hd⟩
  | STRUCT =>
    have hp : p.dataType = .STRUCT := htype.symm.trans hd
    obtain ⟨_,hobj,hvalid⟩ := convert_struct hmakes htype hp
    have hdistinct := hread.distinct hp
    have hi := (validateStructValues_iff hdistinct).mp hvalid
    have hs := hnested u hmem hd
    rw [if_neg (by decide),field,hobj]
    exact ⟨_,rfl,.struct hd (shapedBy_xformStruct hdistinct (hread.noProto hp) hi hs)
      fun path => leafAt_struct path hd hdistinct (hread.noProto hp) hi hs⟩
  | NUMBER =>
    cases hmakes with
    | number =>
      refine ⟨.number (intToNumber u.numberValue),rfl,?_⟩
      rw [intToNumber_eq (hnumber u hmem hd)]
      exact .number hd
    | _ h => exact nomatch hd.symm.trans h
  | LOCATION =>
    cases hmakes with
    | location =>
      refine ⟨.location (some (u.locationValue.getD {}).toObject),rfl,?_⟩
      have hsafe : (u.locationValue.getD {}).Safe := by
        cases hl : u.locationValue with
        | none => exact ⟨Nat.zero_le _,Nat.zero_le _⟩
        | some l => exact hlocation u hmem hd l hl
      rw [hsafe.toObject]
      exact .location hd
    | _ h => exact nomatch hd.symm.trans h
  | BYTES =>
    cases hmakes with
    | bytes => exact ⟨_,rfl,.bytes hd⟩
    | _ h => exact nomatch hd.symm.trans h
  | BOOLEAN =>
    cases hmakes with
    | boolean => exact ⟨_,rfl,.boolean hd⟩
    | _ h => exact nomatch hd.symm.trans h
  | STRING =>
    cases hmakes with
    | string => exact ⟨_,rfl,.string hd⟩
    | _ h => exact nomatch hd.symm.trans h
  | TYPE_UNSET =>
    cases hmakes with
    | _ h => exact nomatch hd.symm.trans h

end Values

section Sources

variable {env : Env} {h : List (State × Tx)} {s : State} {r n : String} {p : Property}
variable {v : ReportedValue} {e : State × Tx}

/-- A value that a transaction wrote is made of one that it submits, of the property's type. -/
theorem reachable_provides (hr : Reachable env h s) (hd : DistinctAddresses env s)
    (hp : (ledger env s).property r n = some p) (he : e ∈ h)
    (hw : Ledger.Wrote r n (ledger env e.1) e.2 v) : ∃ u, Provides r n e.2 u ∧
      u.dataType = p.dataType ∧ Makes v.reporterIndex v.timestamp u p v := by
  obtain ⟨h₁,_,_,_,hr₁,hacc,_⟩ := hr.split he
  have hrun := (reachable_refines hr).2
  have hgrows : Ledger.Grows (ledger env e.1) (ledger env s) :=
    Ledger.run_grows_from hd hrun (mem_ledgers he)
  have hstep := (accepted_refines (reachable_refines hr₁).1 hacc).2
  cases hw with
  | @created a t col value haction hra ht hcol hvalue hv =>
    obtain ⟨hindex,htime⟩ := (makeNewReportedValue_eq_ok.mp hv).made
    have hext := Ledger.run_created_extends hd hrun hp (mem_ledgers he) haction hra ht hcol
    obtain ⟨t',initial,hc⟩ := hstep.created_of_action haction
    obtain rfl : t = t' := Option.some.inj (ht.symm.trans hc.table)
    obtain ⟨col',hcol',_,htype⟩ := checkProvided_iff.mp (hc.provided n value hvalue)
    rw [tableSchema_lookup,hcol] at hcol'
    obtain rfl := Option.some.inj hcol'
    refine ⟨value,.created haction hra (providedProperties_lookup a n ▸ hvalue),?_,?_⟩
    · exact htype.trans (congrArg PropertySchema.dataType hext.schema).symm
    · rw [makeNewReportedValue_congr 0 _ value
        (congrArg PropertySchema.enumOptions hext.schema).symm
        (congrArg PropertySchema.structProperties hext.schema).symm,← hindex,← htime] at hv
      exact makeNewReportedValue_eq_ok.mp hv
  | @updated a u haction hra hu hn hv =>
    subst hra hn
    obtain ⟨q,rep,hq,_,_,hv⟩ := hv
    obtain ⟨hindex,htime⟩ := (makeNewReportedValue_eq_ok.mp hv).made
    obtain ⟨p',hp',hext⟩ := hgrows.properties a.recordId u.name q hq
    obtain rfl : p = p' := Option.some.inj (hp.symm.trans hp')
    have htype : u.dataType = q.dataType := by
      rcases hstep.property_cases with ⟨_,_,_,_,_,he,_⟩ | ⟨_,_,a',rec,he,hrec,_,hus⟩ | ⟨_,hnot,_⟩
      · rw [he] at haction
        cases haction
      · rw [he] at haction
        cases haction
        obtain ⟨q',hup⟩ := (Ledger.reports_iff (reachable_paging hr₁) ⟨rec,hrec⟩).mp ⟨_,hus⟩ u hu
        obtain rfl := Option.some.inj (hq.symm.trans hup.property)
        exact hup.dataType
      · exact absurd haction (hnot a)
    refine ⟨u,.updated haction rfl hu rfl,?_,?_⟩
    · exact htype.trans (congrArg PropertySchema.dataType hext.schema).symm
    · rw [makeNewReportedValue_congr _ _ u
        (congrArg PropertySchema.enumOptions hext.schema).symm
        (congrArg PropertySchema.structProperties hext.schema).symm,← hindex,← htime] at hv
      exact makeNewReportedValue_eq_ok.mp hv

end Sources

/-! ## The answer -/

section Lookups

variable {L : Ledger} {db : Db} {block : Nat} {r n : String} {p : Property} {page : PropertyPage}

theorem findProperty_mirrors (hm : Mirrors L db block) :
    findProperty db block r n = L.ownProperty r n := by
  refine find?_eq_option fun q => ?_
  have hmem : q ∈ Retrieval.properties db block ↔ L.ownProperty q.recordId q.name = some q :=
    hm.mem_properties
  rw [hmem,Bool.and_eq_true,decide_eq_true_iff,decide_eq_true_iff]
  constructor
  · rintro ⟨hq,rfl,rfl⟩
    exact hq
  · intro hq
    have hkey : (Entry.property q).key = .property n r :=
      hm.key (by rw [Ledger.document_property,hq]; rfl)
    obtain ⟨rfl,rfl⟩ := Key.property.inj hkey
    exact ⟨hq,rfl,rfl⟩

/-- The page of a property as its document. -/
def pageDoc (p : Property) (page : PropertyPage) : PageDoc :=
  (page.toObject 1).convert (some p.toObject)

theorem document_ownPage (hp : L.ownProperty r n = some p) (hpage : L.ownPage r n 1 = some page)
    (hname : page.name = n) : L.document (.page n r 1) = some (.propertyPage (pageDoc p page)) := by
  have hr := (Ledger.ownPage_eq_some.mp hpage).2
  rw [Ledger.document_page,hpage,Option.map_some,hr,hname,hp]
  rfl

/-- There is one page, the first. -/
theorem pagesNamed_mirrors (hm : Mirrors L db block) (hfirst : L.FirstPages)
    (hp : L.ownProperty r n = some p) (hpage : L.ownPage r n 1 = some page)
    (hname : page.name = n) : pagesNamed db block r n = [pageDoc p page] := by
  have hdoc := document_ownPage hp hpage hname
  refine eq_toList (o := some _) (((hm.nodup_objects toPage_iff).filter _).filter _) fun doc => ?_
  rw [pagesNamed,List.mem_filter,pagesOf,List.mem_filter,decide_eq_true_iff,decide_eq_true_iff,
    Option.some.injEq]
  have hmem : doc ∈ propertyPages db block ↔ _ ∧ L.document _ = some (.propertyPage doc) :=
    hm.mem_objects toPage_iff
  rw [hmem]
  constructor
  · rintro ⟨⟨⟨_,hstored⟩,rfl⟩,rfl⟩
    have hfound : ∃ k, L.document (.page doc.name doc.recordId k) = some (.propertyPage doc) ∧
        k = 1 := by
      refine ⟨doc.pageNum,hstored,?_⟩
      have hstored : L.document (.page doc.name doc.recordId doc.pageNum) = some _ := hstored
      rw [Ledger.document_page,Option.map_eq_some_iff] at hstored
      obtain ⟨page',hpage',_⟩ := hstored
      exact hfirst _ _ _ page' (Ledger.ownPage_eq_some.mp hpage').1
    obtain ⟨_,hstored,rfl⟩ := hfound
    exact Entry.propertyPage.inj (Option.some.inj (hdoc.symm.trans hstored))
  · rintro rfl
    have hkey : (Entry.propertyPage (pageDoc p page)).key = .page n r 1 := hm.key hdoc
    obtain ⟨hn,hr,_⟩ := Key.page.inj hkey
    exact ⟨⟨⟨rfl,hkey ▸ hdoc⟩,hr⟩,hn⟩

theorem getReporter_mirrors {k : String} {q : Participant} (hm : Mirrors L db block)
    (hq : L.participant k = some q) : getReporter db block (some k) = ⟨q.name,k⟩ := by
  have hkey : (Entry.participant q.toObject).key = .publicKey k :=
    hm.key (by rw [Ledger.document_participant,hq]; rfl)
  have hk : q.publicKey = k := Key.publicKey.inj hkey
  have hfind : (participants db block).find? (fun p => some p.publicKey = some k) =
      some q.toObject := by
    refine find?_eq_option fun p => ?_
    rw [participants,hm.mem_participants,decide_eq_true_iff,Option.some.injEq,Option.some.injEq]
    constructor
    · rintro ⟨⟨q',hq',rfl⟩,rfl⟩
      exact congrArg Participant.toObject (Option.some.inj (hq.symm.trans hq'))
    · rintro rfl
      exact ⟨⟨q,hk ▸ hq,rfl⟩,hk⟩
  rw [getReporter,hfind]
  exact congrArg (Identity.mk q.name) hk

end Lookups

/-- The update says what a transaction of the history submitted, when, and who signed it. -/
def Signed (env : Env) (h : List (State × Tx)) (L : Ledger) (r n : String) (p : Property)
    (v : ReportedValue) (update : Update) : Prop :=
  ∃ e ∈ h, ∃ u q stored, Provides r n e.2 u ∧ WrittenBy r n p v (ledger env e.1) e.2 ∧
    L.participant e.2.signer = some q ∧ Presents p u stored ∧
    update = ⟨stored,e.2.timestamp,q.name,e.2.signer⟩

/-- The integers that the history submits for the property, and its times, are doubles. -/
def SafeHistory (r n : String) (h : List (State × Tx)) : Prop :=
  ∀ e ∈ h, ∀ u, Provides r n e.2 u → SafeIntegers [u] ∧ e.2.timestamp ≤ 2 ^ 53

/-- The answer for a property tells what its page holds: nothing is left out, nothing is there
twice, and the latest is the value. -/
structure Tells (env : Env) (h : List (State × Tx)) (L : Ledger) (p : Property)
    (page : PropertyPage) (answer : PropertyAnswer) : Prop where
  name : answer.name = p.name
  recordId : answer.recordId = p.recordId
  dataType : answer.dataType = p.dataType
  reporters : ∀ k, k ∈ answer.reporters ↔
    ∃ rep ∈ p.reporters, rep.publicKey = k ∧ rep.authorized = true
  value : answer.value = answer.updates.head?
  descending : answer.updates.Pairwise fun u v => v.timestamp ≤ u.timestamp
  updates : ∃ vs, vs.Perm page.reportedValues ∧
    List.Forall₂ (Signed env h L p.recordId p.name p) vs answer.updates

section Answers

variable {env : Env} {h : List (State × Tx)} {s : State} {db : Db} {block : Nat} {r n : String}
variable {p : Property} {page : PropertyPage} {v : ReportedValue}

theorem getUpdate_signed (hr : Reachable env h s) (hd : DistinctAddresses env s)
    (hsize : env.LimitsSize) (hm : Mirrors (ledger env s) db block)
    (hp : (ledger env s).ownProperty r n = some p) (hread : Readable p)
    (hsafe : SafeHistory r n h) (hpage : (ledger env s).ownPage r n 1 = some page)
    (hv : v ∈ page.reportedValues) :
    ∃ update, getUpdate db block p.dataType p.reporters (v.toObject.convert p.toObject) =
      some update ∧ Signed env h (ledger env s) r n p v update := by
  obtain ⟨hp,hown⟩ := Ledger.ownProperty_eq_some.mp hp
  obtain ⟨hpage,_⟩ := Ledger.ownPage_eq_some.mp hpage
  have hrun := (reachable_refines hr).2
  obtain ⟨_,_,rec,hrec⟩ := (reachable_homed hr).property r n p hp
  obtain ⟨_,hmem,hw⟩ := Ledger.run_written hd hrun r rec n 1 page v (hown ▸ hrec) hpage hv
  obtain ⟨e,he,rfl⟩ := List.mem_map.mp hmem
  obtain ⟨u,hu,htype,hmakes⟩ := reachable_provides hr hd hp he hw
  have hby := Ledger.run_writtenBy hd hrun hp (reachable_length hr hsize hp) (mem_ledgers he) hw
  obtain ⟨rep,hrep,hsigner⟩ := hby.key
  have hregistered := (reachable_sound hr).reporters r n p hp rep (List.mem_of_getElem? hrep)
  obtain ⟨q,hq⟩ := hsigner ▸ hregistered
  have hreporter : p.reporters[v.reporterIndex]?.map Reporter.publicKey = some e.2.signer := by
    rw [hrep,Option.map_some,hsigner]
  obtain ⟨hsafe,htimestamp⟩ := hsafe e he u hu
  obtain ⟨stored,hstored,hpresents⟩ := getValue_presents hmakes htype hread hsafe
  refine ⟨_,?_,e,he,u,q,stored,hu,hby,hq,hpresents,rfl⟩
  rw [getUpdate,hstored,Option.map_some]
  have hindex : (v.toObject.convert p.toObject).reporterIndex = v.reporterIndex := rfl
  have htime : (v.toObject.convert p.toObject).timestamp = toNumber v.timestamp := rfl
  rw [hindex,htime,hreporter,getReporter_mirrors hm hq,hby.timestamp,toNumber_eq htimestamp]

/-- A property has its first page. -/
theorem exists_ownPage (hr : Reachable env h s) (hd : DistinctAddresses env s)
    (hp : (ledger env s).ownProperty r n = some p) :
    ∃ page, (ledger env s).ownPage r n 1 = some page ∧ page.name = n := by
  obtain ⟨hp,hown⟩ := Ledger.ownProperty_eq_some.mp hp
  obtain ⟨page,hpage⟩ := (reachable_sound hr).paged r n p hp
  rw [reachable_firstPages hr r n _ page hpage] at hpage
  obtain ⟨hname,hrange,rec,hrec⟩ := (reachable_homed hr).page r n 1 page hpage
  obtain ⟨_,_,rec',hrec'⟩ := (reachable_homed hr).property r n p hp
  exact ⟨page,Ledger.ownPage_eq_some.mpr ⟨hpage,hd _ _ _ _ hrec (hown ▸ hrec') hrange⟩,hname⟩

theorem fetchProperty_tells (o : OrderBy) (hr : Reachable env h s) (hd : DistinctAddresses env s)
    (hsize : env.LimitsSize) (hm : Mirrors (ledger env s) db block)
    (hp : (ledger env s).ownProperty r n = some p) (hread : Readable p)
    (hsafe : SafeHistory r n h) (hpage : (ledger env s).ownPage r n 1 = some page)
    (hname : page.name = n) :
    ∃ answer, fetchProperty o db r n = some answer ∧
      Tells env h (ledger env s) p page answer := by
  obtain ⟨hn,_⟩ := (reachable_homed hr).property r n p (Ledger.ownProperty_eq_some.mp hp).1
  have hown := (Ledger.ownProperty_eq_some.mp hp).2
  have hpages := pagesNamed_mirrors hm (reachable_firstPages hr) hp hpage hname
  have hupdate := fun v hv => getUpdate_signed (v := v) hr hd hsize hm hp hread hsafe hpage hv
  have hvalues : ([pageDoc p page].flatMap PageDoc.reportedValues) =
      page.reportedValues.map fun v => v.toObject.convert p.toObject := by
    simp [pageDoc,PageDoc.convert,PropertyPage.toObject]
  obtain ⟨us,hus⟩ : ∃ us, ([pageDoc p page].flatMap PageDoc.reportedValues).mapM
      (getUpdate db block p.dataType p.reporters) = some us := by
    refine mapM_exists.mpr fun doc hdoc => ?_
    rw [hvalues] at hdoc
    obtain ⟨v,hv,rfl⟩ := List.mem_map.mp hdoc
    obtain ⟨update,hupdate,_⟩ := hupdate v hv
    exact ⟨update,hupdate⟩
  have hsigned : List.Forall₂ (Signed env h (ledger env s) r n p) page.reportedValues us := by
    have heach := mapM_eq_some.mp hus
    rw [hvalues,List.forall₂_map_left_iff] at heach
    refine ((List.forall₂_and_left (p := (· ∈ page.reportedValues)) _ _).mpr
      ⟨fun _ hv => hv,heach⟩).imp fun v update h => ?_
    obtain ⟨update',hu',hsigned⟩ := hupdate v h.1
    obtain rfl := Option.some.inj (h.2.symm.trans hu')
    exact hsigned
  have hanswer : fetchProperty o db r n = some
      { name := n
        recordId := r
        reporters := (p.reporters.filter Reporter.authorized).map Reporter.publicKey
        dataType := p.dataType
        value := (o.order us).head?
        updates := o.order us } := by
    rw [fetchProperty,hm.block,Option.bind_some,fetchPropertyQuery,findProperty_mirrors hm,hp,
      Option.bind_some,getPropertyValues,findReportedValues,hn,hpages,hus]
    rfl
  obtain ⟨vs,hperm,hforall⟩ : ∃ vs, vs.Perm page.reportedValues ∧
      List.Forall₂ (Signed env h (ledger env s) r n p) vs (o.order us) := by
    have hcomp : Relation.Comp (List.Forall₂ (Signed env h (ledger env s) r n p)) List.Perm
        page.reportedValues (o.order us) := ⟨us,hsigned,(o.perm us).symm⟩
    rw [List.forall₂_comp_perm_eq_perm_comp_forall₂] at hcomp
    obtain ⟨vs,hvs,hforall⟩ := hcomp
    exact ⟨vs,hvs.symm,hforall⟩
  refine ⟨_,hanswer,hn.symm,hown.symm,rfl,fun k => ?_,rfl,o.descending us,vs,hperm,?_⟩
  · rw [List.mem_map]
    refine exists_congr fun rep => ?_
    rw [List.mem_filter,and_assoc,and_comm (a := rep.publicKey = k)]
  · rwa [hown,hn]

/-- A client gets an answer for exactly the columns of the table of a record, and it tells what
was submitted for them: each update is what its reporter signed, with its own time and value. -/
theorem property_told (o : OrderBy) (hr : Reachable env h s) (hd : DistinctAddresses env s)
    (hsize : env.LimitsSize) (hm : Mirrors (ledger env s) db block)
    (hread : ∀ p, (ledger env s).property r n = some p → Readable p)
    (hsafe : SafeHistory r n h) :
    ((∃ answer, fetchProperty o db r n = some answer) ↔ (ledger env s).Listed r n) ∧
    ∀ answer, fetchProperty o db r n = some answer → ∃ p page,
      (ledger env s).property r n = some p ∧ (ledger env s).page r n 1 = some page ∧
        Tells env h (ledger env s) p page answer := by
  have hfound : ∀ {p}, (ledger env s).ownProperty r n = some p → ∃ page answer,
      (ledger env s).page r n 1 = some page ∧ fetchProperty o db r n = some answer ∧
        Tells env h (ledger env s) p page answer := by
    intro p hp
    obtain ⟨page,hpage,hname⟩ := exists_ownPage hr hd hp
    obtain ⟨answer,hanswer,htells⟩ := fetchProperty_tells o hr hd hsize hm hp
      (hread p (Ledger.ownProperty_eq_some.mp hp).1) hsafe hpage hname
    exact ⟨page,answer,(Ledger.ownPage_eq_some.mp hpage).1,hanswer,htells⟩
  have hanswered : ∀ answer, fetchProperty o db r n = some answer →
      ∃ p, (ledger env s).ownProperty r n = some p := by
    intro answer h
    rw [fetchProperty,hm.block,Option.bind_some,fetchPropertyQuery,findProperty_mirrors hm] at h
    obtain ⟨p,hp,_⟩ := Option.bind_eq_some_iff.mp h
    exact ⟨p,hp⟩
  refine ⟨⟨?_,?_⟩,fun answer h => ?_⟩
  · rintro ⟨answer,h⟩
    obtain ⟨p,hp⟩ := hanswered answer h
    obtain ⟨hp,hown⟩ := Ledger.ownProperty_eq_some.mp hp
    have hlisted := (reachable_sound hr).listed r n p hp
    rwa [hown,((reachable_homed hr).property r n p hp).1] at hlisted
  · rintro ⟨rec,t,col,hrec,ht,hcol⟩
    obtain ⟨p,hp,hown,_⟩ := (reachable_complete hr hd).property r rec t n col hrec ht hcol
    obtain ⟨_,answer,_,hanswer,_⟩ := hfound (Ledger.ownProperty_eq_some.mpr ⟨hp,hown⟩)
    exact ⟨answer,hanswer⟩
  · obtain ⟨p,hp⟩ := hanswered answer h
    obtain ⟨page,answer',hpage,hanswer,htells⟩ := hfound hp
    obtain rfl := Option.some.inj (h.symm.trans hanswer)
    exact ⟨p,page,(Ledger.ownProperty_eq_some.mp hp).1,hpage,htells⟩

end Answers

namespace Sample
open DgcRestApi.Sample

/-- Updates of one time stay in their order. -/
def orderBy : OrderBy where
  order := List.insertionSort fun u v => v.timestamp ≤ u.timestamp
  perm := List.perm_insertionSort _
  descending us := List.pairwise_insertionSort _ us

theorem readable_updated (p : Property)
    (hp : (ledger env (after updated)).property "r" "p" = some p) : Readable p := by
  have htype : ((ledger env (after updated)).property "r" "p").map Property.dataType =
      some .NUMBER := by decide +kernel
  rw [hp] at htype
  have htype : p.dataType = .NUMBER := Option.some.inj htype
  constructor
  all_goals
    intro h
    exact nomatch htype.symm.trans h

/-- The values that a transaction submits for the property. -/
def submitted (r n : String) (tx : Tx) : List PropertyValue :=
  match tx.action with
  | .CreateRecord a => if a.recordId = r then (a.value n).toList else []
  | .UpdateProperties a => if a.recordId = r then a.properties.filter fun u => u.name = n else []
  | _ => []

theorem mem_submitted {r n : String} {tx : Tx} {u : PropertyValue} (h : Provides r n tx u) :
    u ∈ submitted r n tx := by
  cases h with
  | created haction hr hu => simp [submitted,haction,hr,hu]
  | updated haction hr hu hn => simp [submitted,haction,hr,hu,hn]

theorem safeHistory_updated {h : List (State × Tx)} (hmap : h.map (fun e => some e.2) =
    ((base ++ updated).map TpProcessRequest.tx?).reverse) : SafeHistory "r" "p" h := by
  intro e he u hu
  have hall : ∀ o ∈ (base ++ updated).map TpProcessRequest.tx?, ∀ tx ∈ o,
      tx.timestamp ≤ 5 ∧ ∀ u ∈ submitted "r" "p" tx, u.dataType = .NUMBER ∧ u.numberValue = 7 := by
    decide +kernel
  have htx : some e.2 ∈ (base ++ updated).map TpProcessRequest.tx? := by
    rw [← List.mem_reverse,← hmap]
    exact List.mem_map_of_mem he
  obtain ⟨htime,hvalues⟩ := hall _ htx e.2 rfl
  obtain ⟨htype,hvalue⟩ := hvalues u (mem_submitted hu)
  refine ⟨.intro ?_ ?_ ?_,by omega⟩
  all_goals
    intro v hv htype'
    rw [List.mem_singleton.mp hv] at *
  · rw [hvalue]
    decide
  · exact nomatch htype.symm.trans htype'
  · exact nomatch htype.symm.trans htype'

theorem listed_updated {h : List (State × Tx)} (hr : Reachable env h (after updated)) :
    (ledger env (after updated)).Listed "r" "p" := by
  have hkey : ((ledger env (after updated)).property "r" "p").map
      (fun q => (q.recordId,q.name)) = some ("r","p") := by decide +kernel
  obtain ⟨q,hq,hkey⟩ := Option.map_eq_some_iff.mp hkey
  obtain ⟨hrecord,hname⟩ := Prod.mk.inj hkey
  exact hrecord ▸ hname ▸ (reachable_sound hr).listed "r" "p" q hq

end Sample

theorem property_told_updated : ∃ db answer,
    fetchProperty Sample.orderBy db "r" "p" = some answer ∧ answer.updates.length = 1 := by
  have hok : DgcRestApi.Sample.Valid DgcRestApi.Sample.updated := by decide +kernel
  obtain ⟨h,hr,hmap⟩ := DgcRestApi.Sample.reachable hok
  have hd := DgcRestApi.Sample.distinctAddresses hok (by decide +kernel)
  obtain ⟨db,hm⟩ := exists_mirror hr (n := 1) (by decide)
  obtain ⟨hiff,htells⟩ := property_told Sample.orderBy hr hd DgcRestApi.Sample.limitsSize hm
    Sample.readable_updated (Sample.safeHistory_updated hmap)
  obtain ⟨answer,hanswer⟩ := hiff.mpr (Sample.listed_updated hr)
  obtain ⟨p,page,_,hpage,ht⟩ := htells answer hanswer
  obtain ⟨vs,hperm,hforall⟩ := ht.updates
  refine ⟨db,answer,hanswer,?_⟩
  have hlength : ((ledger DgcRestApi.Sample.env (DgcRestApi.Sample.after
      DgcRestApi.Sample.updated)).page "r" "p" 1).map (fun page => page.reportedValues.length) =
        some 1 := by decide +kernel
  rw [hpage] at hlength
  rw [← hforall.length_eq,hperm.length_eq]
  exact Option.some.inj hlength

end DgcRestApi.Server.Properties
