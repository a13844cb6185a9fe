import DgcRestApi.Server.Properties

/-!
# Queries for records of the ledger

What `retrieveRecords` finds while the database shows the ledger. It has an element for every
record of the table that is not final: one with its properties if it matches, and the empty object
if not. A record matches when each queried property has reported the value, now or before.
-/

namespace DgcRestApi.Server.Queries
open LedgerSync Fallible Keyed Retrieval Properties

section Definitions

variable {Q : Type} (c : Comparison Q) (params : Retrieval.Params Q) (L : Ledger) (r : String)

/-- The values that are kept for a property, as documents. -/
def reported (n : String) : List ReportedDoc :=
  (L.ownProperty r n).elim [] fun p =>
    (L.ownPage r n 1).elim [] fun page => (pageDoc p page).reportedValues

/-- A record of the table that is not final. -/
def Candidate : Prop := ∃ rec, L.record r = some rec ∧ rec.table = params.table ∧ rec.final = false

/-- No value lacks a field that is compared. -/
def Compares : Prop := lengthIsZero c params = false →
  ∀ e ∈ params.query, ∀ v ∈ reported L r e.1, ∃ b, equalsAny c v e.2 = some b

def Matches : Prop := lengthIsZero c params = false →
  ∀ e ∈ params.query, ∃ v ∈ reported L r e.1, equalsAny c v e.2 = some true

/-- The element for a record that matches: each property with the last value of its type. -/
structure Describes (result : Result) : Prop where
  recordId : result.recordId = some r
  distinct : Distinct Prod.fst result.properties
  properties : ∀ n o, (n,o) ∈ result.properties ↔
    ∃ p, L.ownProperty r n = some p ∧ getFieldValue p.dataType (reported L r n) = o

end Definitions

section Pages

variable {env : Env} {h : List (State × Tx)} {s : State} {db : Db} {block : Nat} {r n : String}
variable {p : Property} {page : PropertyPage} {doc : PageDoc} {L : Ledger} {result : Result}

theorem reported_eq (hp : L.ownProperty r n = some p) (hpage : L.ownPage r n 1 = some page) :
    reported L r n = (pageDoc p page).reportedValues := by
  rw [reported,hp,Option.elim_some,hpage,Option.elim_some]

/-- Whatever has a page is a property. -/
theorem exists_ownProperty (hr : Reachable env h s) (hd : DistinctAddresses env s) {k : Nat}
    (hpage : (ledger env s).ownPage r n k = some page) :
    ∃ p, (ledger env s).ownProperty r n = some p := by
  obtain ⟨hpage,hown⟩ := Ledger.ownPage_eq_some.mp hpage
  have hcomplete := reachable_complete hr hd
  obtain ⟨rec,t,col,hrec,ht,hcol⟩ := hcomplete.pages r n k page hpage
  rw [((reachable_homed hr).page r n k page hpage).1] at hcol
  obtain ⟨p,hp,hpr,_⟩ := hcomplete.property _ rec t n col hrec ht hcol
  exact ⟨p,Ledger.ownProperty_eq_some.mpr (hown ▸ ⟨hp,hpr⟩)⟩

/-- The pages that a query sees for a record: the first one of each property. -/
theorem mem_pagesOf (hr : Reachable env h s) (hd : DistinctAddresses env s)
    (hm : Mirrors (ledger env s) db block) : doc ∈ pagesOf db block r ↔
      ∃ p page, (ledger env s).ownProperty r doc.name = some p ∧
        (ledger env s).ownPage r doc.name 1 = some page ∧ pageDoc p page = doc := by
  constructor
  · intro hdoc
    obtain ⟨hmem,hrecord⟩ := List.mem_filter.mp hdoc
    obtain rfl := of_decide_eq_true hrecord
    obtain ⟨page,hpage,hconvert⟩ := hm.mem_pages.mp hmem
    obtain ⟨p,hp⟩ := exists_ownProperty hr hd hpage
    obtain ⟨hstored,hown⟩ := Ledger.ownPage_eq_some.mp hpage
    rw [hown,((reachable_homed hr).page _ _ _ page hstored).1,hp] at hconvert
    rw [reachable_firstPages hr _ _ _ page hstored] at hpage hconvert
    exact ⟨p,page,hp,hpage,hconvert⟩
  · rintro ⟨p,page,hp,hpage,hdoc⟩
    have hname := ((reachable_homed hr).page _ _ _ page (Ledger.ownPage_eq_some.mp hpage).1).1
    have hnamed := pagesNamed_mirrors hm (reachable_firstPages hr) hp hpage hname
    rw [hdoc] at hnamed
    exact List.mem_of_mem_filter (hnamed ▸ List.mem_singleton_self doc)

theorem pagesNamed_reported (hr : Reachable env h s) (hd : DistinctAddresses env s)
    (hm : Mirrors (ledger env s) db block) :
    (pagesNamed db block r n).flatMap PageDoc.reportedValues = reported (ledger env s) r n := by
  cases hp : (ledger env s).ownProperty r n with
  | none =>
    rw [reported,hp,Option.elim_none,List.flatMap_eq_nil_iff]
    intro doc hdoc
    obtain ⟨hdoc,hname⟩ := List.mem_filter.mp hdoc
    obtain ⟨p,_,hp',_⟩ := (mem_pagesOf hr hd hm).mp hdoc
    rw [of_decide_eq_true hname,hp] at hp'
    exact nomatch hp'
  | some p =>
    obtain ⟨page,hpage,hname⟩ := exists_ownPage hr hd hp
    rw [reported_eq hp hpage,pagesNamed_mirrors hm (reachable_firstPages hr) hp hpage hname]
    exact List.append_nil _

theorem nodup_pagesOf (hr : Reachable env h s) (hd : DistinctAddresses env s)
    (hm : Mirrors (ledger env s) db block) :
    ((pagesOf db block r).map PageDoc.name).Nodup := by
  refine ((hm.nodup_objects toPage_iff).filter _).map_on fun doc hdoc doc' hdoc' hname => ?_
  obtain ⟨p,page,hp,hpage,rfl⟩ := (mem_pagesOf hr hd hm).mp hdoc
  obtain ⟨p',page',hp',hpage',rfl⟩ := (mem_pagesOf hr hd hm).mp hdoc'
  rw [← hname] at hp' hpage'
  obtain rfl := Option.some.inj (hp.symm.trans hp')
  obtain rfl := Option.some.inj (hpage.symm.trans hpage')
  rfl

theorem retrieveRecord_mirrors (hr : Reachable env h s) (hd : DistinctAddresses env s)
    (hm : Mirrors (ledger env s) db block) :
    ∃ result, retrieveRecord db block r = some result ∧ Describes (ledger env s) r result := by
  have hretrievable : Retrievable db block r := by
    refine ⟨fun page hpage => ?_,nodup_pagesOf hr hd hm⟩
    obtain ⟨p,_,hp,_⟩ := (mem_pagesOf hr hd hm).mp hpage
    exact ⟨p,(findProperty_mirrors hm).trans hp⟩
  obtain ⟨result,hresult⟩ := retrieveRecord_exists.mpr hretrievable
  have hid := retrieveRecord_recordId hresult
  obtain ⟨values,hvalues,hmade⟩ := Option.bind_eq_some_iff.mp hresult
  obtain ⟨properties,hobject,rfl⟩ := Option.map_eq_some_iff.mp hmade
  obtain ⟨hdistinct,rfl⟩ := Reql.object_eq_some.mp hobject
  refine ⟨_,hresult,hid,hdistinct,fun n o => (mem_mapM hvalues).trans ⟨?_,?_⟩⟩
  · rintro ⟨doc,hdoc,hvalue⟩
    obtain ⟨p,page,hp,hpage,rfl⟩ := (mem_pagesOf hr hd hm).mp hdoc
    rw [findProperty_mirrors hm,hp,Option.map_some,Option.some.injEq,Prod.mk.injEq] at hvalue
    obtain ⟨rfl,rfl⟩ := hvalue
    exact ⟨p,hp,congrArg _ (reported_eq hp hpage)⟩
  · rintro ⟨p,hp,rfl⟩
    obtain ⟨page,hpage,hname⟩ := exists_ownPage hr hd hp
    have hdoc : (pageDoc p page).name = n := hname
    refine ⟨_,(mem_pagesOf hr hd hm).mpr ⟨p,page,hdoc.symm ▸ hp,hdoc.symm ▸ hpage,rfl⟩,?_⟩
    rw [hdoc,findProperty_mirrors hm,hp,reported_eq hp hpage]
    rfl

end Pages

section Answers

variable {env : Env} {h : List (State × Tx)} {s : State} {db : Db} {block : Nat} {r : String}
variable {Q : Type} {c : Comparison Q} {params : Retrieval.Params Q} {e : String × Q}
variable {record : Record} {result : Result}

/-- A search finds the record in each value that equals the one it is for. -/
theorem findRecordId_ne_nil {ids : List String} (h : findRecordId c db block r e = some ids) :
    ids ≠ [] ↔ ∃ v ∈ (pagesNamed db block r e.1).flatMap PageDoc.reportedValues,
      equalsAny c v e.2 = some true := by
  have hinner := Reql.concatMap_exists.mp ⟨ids,h⟩
  rw [Reql.concatMap_ne_nil h]
  constructor
  · rintro ⟨page,hpage,inner,hsome,hne⟩
    obtain ⟨v,hv,found,hfound,hne⟩ := (Reql.concatMap_ne_nil hsome).mp hne
    obtain ⟨b,hb,rfl⟩ := Option.map_eq_some_iff.mp hfound
    cases b with
    | true => exact ⟨v,List.mem_flatMap.mpr ⟨page,hpage,hv⟩,hb⟩
    | false => exact absurd rfl hne
  · rintro ⟨v,hv,hb⟩
    obtain ⟨page,hpage,hv⟩ := List.mem_flatMap.mp hv
    obtain ⟨inner,hsome⟩ := hinner page hpage
    refine ⟨page,hpage,inner,hsome,(Reql.concatMap_ne_nil hsome).mpr ⟨v,hv,[page.recordId],?_,?_⟩⟩
    · rw [hb]
      rfl
    · exact List.cons_ne_nil _ _

theorem candidate_iff (hm : Mirrors (ledger env s) db block) :
    (∃ record ∈ candidates db block params, record.recordId = r) ↔
      Candidate params (ledger env s) r := by
  have hmem : ∀ {record : Record}, record ∈ records db block ↔ ∃ rec,
      (ledger env s).record record.recordId = some rec ∧ rec.toObject = record := hm.mem_records
  constructor
  · rintro ⟨record,hrecord,rfl⟩
    obtain ⟨hrecord,hopen⟩ := List.mem_filter.mp hrecord
    obtain ⟨rec,hrec,rfl⟩ := hmem.mp hrecord
    obtain ⟨htable,hfinal⟩ := Bool.and_eq_true_iff.mp hopen
    exact ⟨rec,hrec,of_decide_eq_true htable,(Bool.not_eq_true' _).mp hfinal⟩
  · rintro ⟨rec,hrec,htable,hfinal⟩
    obtain rfl := ledger_record_key hrec
    refine ⟨rec.toObject,List.mem_filter.mpr ⟨hmem.mpr ⟨rec,hrec,rfl⟩,?_⟩,rfl⟩
    simp [Record.toObject,htable,hfinal]

theorem nodup_candidates {L : Ledger} (hm : Mirrors L db block) :
    ((candidates db block params).map Record.recordId).Nodup := by
  have hkeys : Distinct Record.recordId (records db block) :=
    hm.distinct_by toRecord_iff .recordId fun _ => rfl
  exact hkeys.sublist (List.filter_sublist.map Record.recordId)

/-- The element of the answer for a record. -/
def element (c : Comparison Q) (db : Db) (block : Nat) (params : Retrieval.Params Q)
    (record : Record) : Option Result :=
  if lengthIsZero c params then retrieveRecord db block record.recordId
  else selectRecord c db block params record

theorem compares_iff (hr : Reachable env h s) (hd : DistinctAddresses env s)
    (hm : Mirrors (ledger env s) db block) : Compares c params (ledger env s) r ↔
      (lengthIsZero c params = false →
        ∃ ids, params.query.mapM (findRecordId c db block r) = some ids) := by
  refine imp_congr_right fun _ => Iff.trans ?_ mapM_exists.symm
  refine forall₂_congr fun e _ => Iff.trans ?_ findRecordId_exists.symm
  rw [← pagesNamed_reported hr hd hm]
  simp only [Comparable,List.mem_flatMap,forall_exists_index,and_imp]
  exact ⟨fun h page hpage v hv => h v page hpage hv,fun h v page hpage hv => h page hpage v hv⟩

theorem matches_iff (hr : Reachable env h s) (hd : DistinctAddresses env s)
    (hm : Mirrors (ledger env s) db block) {ids : List (List String)}
    (hids : params.query.mapM (findRecordId c db block r) = some ids) :
    Matches c params (ledger env s) r ↔ (lengthIsZero c params = false → [] ∉ ids) := by
  refine imp_congr_right fun _ => ?_
  rw [mem_mapM hids]
  push Not
  refine forall₂_congr fun e he => ?_
  obtain ⟨found,hfound⟩ := mapM_exists.mp ⟨ids,hids⟩ e he
  rw [hfound,ne_eq,Option.some.injEq,← ne_eq,findRecordId_ne_nil hfound,
    pagesNamed_reported hr hd hm]

theorem element_exists (hr : Reachable env h s) (hd : DistinctAddresses env s)
    (hm : Mirrors (ledger env s) db block) :
    (∃ result, element c db block params record = some result) ↔
      Compares c params (ledger env s) record.recordId := by
  obtain ⟨result,hresult,_⟩ := @retrieveRecord_mirrors _ _ _ _ _ record.recordId hr hd hm
  rw [element,compares_iff hr hd hm]
  cases lengthIsZero c params with
  | true => exact iff_of_true ⟨result,hresult⟩ nofun
  | false =>
    rw [forall_prop_of_true rfl]
    constructor
    · rintro ⟨_,hselect⟩
      obtain ⟨ids,hids,_⟩ := Option.bind_eq_some_iff.mp hselect
      exact ⟨ids,hids⟩
    · rintro ⟨ids,hids⟩
      rw [if_neg Bool.false_ne_true,selectRecord_eq hids,hresult,← apply_ite some]
      exact ⟨_,rfl⟩

theorem element_eq (hr : Reachable env h s) (hd : DistinctAddresses env s)
    (hm : Mirrors (ledger env s) db block)
    (hresult : element c db block params record = some result) :
    (Matches c params (ledger env s) record.recordId →
      Describes (ledger env s) record.recordId result) ∧
    (¬Matches c params (ledger env s) record.recordId → result = {}) := by
  obtain ⟨full,hfull,hdescribes⟩ := @retrieveRecord_mirrors _ _ _ _ _ record.recordId hr hd hm
  rw [element] at hresult
  split at hresult
  · next hzero =>
    obtain rfl := Option.some.inj (hfull.symm.trans hresult)
    have hmatches : Matches c params (ledger env s) record.recordId :=
      fun hfalse => nomatch hzero.symm.trans hfalse
    exact ⟨fun _ => hdescribes,absurd hmatches⟩
  · next hzero =>
    obtain ⟨ids,hids,_⟩ := Option.bind_eq_some_iff.mp hresult
    rw [selectRecord_eq hids,hfull] at hresult
    rw [matches_iff hr hd hm hids,forall_prop_of_true (Bool.eq_false_iff.mpr hzero)]
    split at hresult
    · next hmiss => exact ⟨fun hnot => absurd hmiss hnot,fun _ => (Option.some.inj hresult).symm⟩
    · next hall =>
      obtain rfl := Option.some.inj hresult
      exact ⟨fun _ => hdescribes,absurd hall⟩

theorem retrieveRecords_eq (hm : Mirrors (ledger env s) db block) :
    retrieveRecords c db params =
      (candidates db block params).mapM (element c db block params) := by
  rw [retrieveRecords,hm.block,Option.bind_some,retrieveRecordsQuery_eq]
  rfl

theorem elements_found (hr : Reachable env h s) (hd : DistinctAddresses env s)
    (hm : Mirrors (ledger env s) db block) {results : List Result}
    (hresults : retrieveRecords c db params = some results) : List.Forall₂ (fun r result =>
      (Matches c params (ledger env s) r → Describes (ledger env s) r result) ∧
        (¬Matches c params (ledger env s) r → result = {}))
          ((candidates db block params).map Record.recordId) results := by
  rw [retrieveRecords_eq hm] at hresults
  rw [List.forall₂_map_left_iff]
  exact (mapM_eq_some.mp hresults).imp fun _ _ h => element_eq hr hd hm h

theorem retrieveRecords_exists (hr : Reachable env h s) (hd : DistinctAddresses env s)
    (hm : Mirrors (ledger env s) db block) :
    (∃ results, retrieveRecords c db params = some results) ↔
      ∀ r, Candidate params (ledger env s) r → Compares c params (ledger env s) r := by
  rw [retrieveRecords_eq hm,mapM_exists]
  constructor
  · intro hall r hcandidate
    obtain ⟨record,hrecord,rfl⟩ := (candidate_iff hm).mpr hcandidate
    exact (element_exists hr hd hm).mp (hall record hrecord)
  · intro hall record hrecord
    exact (element_exists hr hd hm).mpr (hall _ ((candidate_iff hm).mp ⟨record,hrecord,rfl⟩))

/-- A query is answered exactly if it meets no value without a field that it compares. The answer
has an element for every record of the table that is not final, once: what there is to tell of it
if each queried property has reported the value at some time, and the empty object if not. -/
theorem records_found (hr : Reachable env h s) (hd : DistinctAddresses env s)
    (hm : Mirrors (ledger env s) db block) :
    ((∃ results, retrieveRecords c db params = some results) ↔
      ∀ r, Candidate params (ledger env s) r → Compares c params (ledger env s) r) ∧
    ∀ results, retrieveRecords c db params = some results → ∃ rs : List String, rs.Nodup ∧
      (∀ r, r ∈ rs ↔ Candidate params (ledger env s) r) ∧ List.Forall₂ (fun r result =>
        (Matches c params (ledger env s) r → Describes (ledger env s) r result) ∧
          (¬Matches c params (ledger env s) r → result = {})) rs results := by
  refine ⟨retrieveRecords_exists hr hd hm,fun results hresults => ?_⟩
  exact ⟨_,nodup_candidates hm,fun r => List.mem_map.trans (candidate_iff hm),
    elements_found hr hd hm hresults⟩

end Answers

namespace Sample
open DgcRestApi.Sample Retrieval.Sample

/-- A client makes a red lamp. -/
def lamp : List TpProcessRequest :=
  [request "key"
    { action := .CREATE_PARTICIPANT, timestamp := 5, createParticipant := { name := "Kim" } },
   request "key"
    { action := .CREATE_TABLE, timestamp := 6,
      createTable := { name := "lamp", properties := [{ name := "color", dataType := .STRING }] } },
   request "key"
    { action := .CREATE_RECORD, timestamp := 7,
      createRecord :=
        { recordId := "L", table := "lamp"
          properties := [{ name := "color", dataType := .STRING, stringValue := "red" }] } }]

/-- The ledger with the lamp. -/
abbrev lit : Ledger := ledger plain (plainly lamp)

theorem reachable_lamp : ∃ h, Reachable plain h (plainly lamp) := by
  obtain ⟨h,hr,_⟩ := replay_run (@plainly_eq lamp (by decide +kernel))
  exact ⟨h,hr⟩

theorem distinct_lamp : DistinctAddresses plain (plainly lamp) :=
  replay_distinctAddresses (@plainly_eq lamp (by decide +kernel)) (by decide +kernel)

theorem record_lamp : lit.record "L" = some
    { recordId := "L", table := "lamp", owners := [⟨"key",7⟩], custodians := [⟨"key",7⟩] } := by
  decide +kernel

theorem candidate_lamp {color r : String} : Candidate (colored color) lit r ↔ r = "L" := by
  constructor
  · rintro ⟨rec,hrec,htable,_⟩
    have hmem := replay_record_created (@plainly_eq lamp (by decide +kernel)) hrec
    have hcreated : ((base ++ lamp).filterMap fun request => request.tx?.bind Tx.created) =
        ["r","L"] := by decide +kernel
    rw [hcreated,List.mem_pair] at hmem
    refine hmem.resolve_left fun hother => ?_
    have htables : (lit.record "r").map Record.table = some "t" := by decide +kernel
    have hrec : lit.record "r" = some rec := hother ▸ hrec
    rw [hrec,Option.map_some,Option.some.injEq,htable] at htables
    exact absurd htables (show "lamp" ≠ "t" by decide)
  · rintro rfl
    exact ⟨_,record_lamp,rfl,rfl⟩

theorem eq_lamp {rs : List String} (hnd : rs.Nodup)
    (h : ∀ r, r ∈ rs ↔ Candidate (colored "red") lit r) : rs = ["L"] := by
  refine List.perm_singleton.mp ((List.perm_ext_iff_of_nodup hnd (List.nodup_singleton _)).mpr ?_)
  exact fun r => (h r).trans (candidate_lamp.trans List.mem_singleton.symm)

theorem equal_lamp : ((reported lit "L" "color").map fun v =>
    equalsAny comparison v (.text "red")) = [some true] := by
  decide +kernel

theorem matches_lamp : Matches comparison (colored "red") lit "L" := by
  rintro - e he
  obtain rfl := List.mem_singleton.mp he
  exact List.mem_map.mp (equal_lamp ▸ List.mem_singleton_self (some true))

theorem compares_lamp : Compares comparison (colored "red") lit "L" := by
  rintro - e he v hv
  obtain rfl := List.mem_singleton.mp he
  have hmem := List.mem_map_of_mem (f := fun v => equalsAny comparison v (.text "red")) hv
  rw [equal_lamp] at hmem
  exact ⟨true,List.mem_singleton.mp hmem⟩

end Sample

theorem records_found_sample : ∃ db result,
    retrieveRecords Retrieval.Sample.comparison db (Retrieval.Sample.colored "red") =
      some [result] ∧ result.recordId = some "L" := by
  obtain ⟨h,hr⟩ := Sample.reachable_lamp
  obtain ⟨db,hm⟩ := exists_mirror hr (n := 1) (by decide)
  obtain ⟨hiff,hfound⟩ := @records_found _ _ _ _ _ _ Retrieval.Sample.comparison
    (Retrieval.Sample.colored "red") hr Sample.distinct_lamp hm
  obtain ⟨results,hresults⟩ := hiff.mpr fun r hcandidate => by
    rw [Sample.candidate_lamp.mp hcandidate]
    exact Sample.compares_lamp
  obtain ⟨rs,hnd,hmem,helements⟩ := hfound results hresults
  obtain rfl := Sample.eq_lamp hnd hmem
  obtain ⟨result,_,⟨hmatch,_⟩,hnil,rfl⟩ := List.forall₂_cons_left_iff.mp helements
  cases hnil
  exact ⟨db,result,hresults,(hmatch Sample.matches_lamp).recordId⟩

end DgcRestApi.Server.Queries
