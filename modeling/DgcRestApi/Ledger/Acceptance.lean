import DgcRestApi.Ledger.Iteration
import DgcRestApi.Ledger.Progress

/-!
# What is accepted

The two actions that write values are accepted exactly when their checks pass on the ledger
before them. The updates of one transaction are checked one after the other, each against
what the earlier ones left; but turning pages changes nothing that a check reads.
-/

namespace DgcRestApi
open Fallible

/-- `_make_new_reported_value` accepts the value. -/
def Storable (u : PropertyValue) (q : Property) : Prop :=
  ∃ i t v, makeNewReportedValue i t u q = .ok v

/-- Neither the reporter nor the timestamp matters. -/
theorem Storable.make {u : PropertyValue} {q : Property} (h : Storable u q) (i t : Nat) :
    ∃ v, makeNewReportedValue i t u q = .ok v := by
  obtain ⟨j,t',v,hv⟩ := h
  simp only [makeNewReportedValue_eq_ok] at hv ⊢
  cases hv with
  | bytes hd => exact ⟨_,.bytes hd⟩
  | boolean hd => exact ⟨_,.boolean hd⟩
  | number hd => exact ⟨_,.number hd⟩
  | string hd => exact ⟨_,.string hd⟩
  | enum hd hindex => exact ⟨_,.enum hd hindex⟩
  | struct hd hstruct => exact ⟨_,.struct hd hstruct⟩
  | location hd => exact ⟨_,.location hd⟩

theorem Storable.congr {u : PropertyValue} {p q : Property} (he : p.enumOptions = q.enumOptions)
    (hs : p.structProperties = q.structProperties) (h : Storable u p) : Storable u q := by
  obtain ⟨i,t,v,hv⟩ := h
  exact ⟨i,t,v,makeNewReportedValue_congr i t u he hs ▸ hv⟩

namespace Ledger

variable {range : String → Address} {L L' : Ledger} {r X : String} {ts : Nat}
variable {u : PropertyValue} {us : List PropertyValue} {q q' : Property}

/-! ## Updates -/

/-- The checks of `_update_properties` on one update, but for the page. -/
structure Updatable (L : Ledger) (r X : String) (u : PropertyValue) (q : Property) : Prop where
  property : L.property r u.name = some q
  authorized : ∃ rep ∈ q.reporters, rep.publicKey = X ∧ rep.authorized = true
  not_fixed : q.fixed = false
  dataType : u.dataType = q.dataType
  storable : Storable u q

/-- Properties and pages are at home, and every property is at page 1, which exists. -/
structure Paging (range : String → Address) (L : Ledger) : Prop where
  homed : Homed range L
  paged : Paged L
  current : ∀ r n q, L.property r n = some q → q.currentPage = 1

theorem Paging.report (hL : Paging range L) (hrec : ∃ rec, L.record r = some rec)
    (h : Report range r X ts L u L') : Paging range L' := by
  refine ⟨hL.homed.report hrec h,h.paged hL.paged,fun r' n q' hq' => ?_⟩
  obtain ⟨q,page,v,hrep,⟨_,rfl⟩ | ⟨next,_,hnext,rfl⟩⟩ := h.outcome
  · exact hL.current r' n q' hq'
  · rw [hL.current r u.name q hrep.property] at hnext
    rw [setProperty_property] at hq'
    split at hq'
    · rw [← Option.some.inj hq']
      exact nextPageNumber_one hnext
    · exact hL.current r' n q' hq'

theorem authorizedReporter_isSome {reporters : List Reporter}
    (h : ∃ rep ∈ reporters, rep.publicKey = X ∧ rep.authorized = true) :
    ∃ rep, authorizedReporter reporters X = some rep := by
  refine Option.isSome_iff_exists.mp (List.find?_isSome.mpr ?_)
  simpa using h

/-- An update whose checks pass is reported. -/
theorem Updatable.report (hL : Paging range L) (h : Updatable L r X u q) :
    ∃ L', Report range r X ts L u L' := by
  obtain ⟨rep,hrep⟩ := authorizedReporter_isSome h.authorized
  obtain ⟨v,hv⟩ := h.storable.make rep.index ts
  obtain ⟨page,hpage⟩ := hL.paged r u.name q h.property
  have hable : Reportable L r X ts u q page v :=
    ⟨h.property,⟨rep,hrep,hv⟩,h.not_fixed,h.dataType,hpage⟩
  by_cases hfull : (pushReportedValue page v).reportedValues.length < PROPERTY_PAGE_MAX_LENGTH
  · exact ⟨_,.filed hable hfull⟩
  · have hnext : nextPageNumber q.currentPage = .ok 1 := by
      rw [hL.current r u.name q h.property]
      rfl
    exact ⟨_,.turned hable (not_lt.mp hfull) hnext rfl⟩

theorem Updatable.of_turned (h : Updatable L' r X u q')
    (hrel : Option.Rel Turned (L.property r u.name) (L'.property r u.name)) :
    ∃ q, Updatable L r X u q := by
  obtain ⟨q,hq,ht⟩ := rel_some_right (h.property ▸ hrel)
  refine ⟨q,hq,ht.reporters ▸ h.authorized,?_,?_,h.storable.congr ?_ ?_⟩
  · exact (congrArg PropertySchema.fixed ht.schema).symm.trans h.not_fixed
  · exact h.dataType.trans (congrArg PropertySchema.dataType ht.schema)
  · exact congrArg PropertySchema.enumOptions ht.schema
  · exact congrArg PropertySchema.structProperties ht.schema

theorem Updatable.turned (h : Updatable L r X u q)
    (hrel : Option.Rel Turned (L.property r u.name) (L'.property r u.name)) :
    ∃ q', Updatable L' r X u q' := by
  obtain ⟨q',hq',ht⟩ := rel_some_left (h.property ▸ hrel)
  refine ⟨q',hq',ht.reporters.symm ▸ h.authorized,?_,?_,h.storable.congr ?_ ?_⟩
  · exact (congrArg PropertySchema.fixed ht.schema).trans h.not_fixed
  · exact h.dataType.trans (congrArg PropertySchema.dataType ht.schema).symm
  · exact (congrArg PropertySchema.enumOptions ht.schema).symm
  · exact (congrArg PropertySchema.structProperties ht.schema).symm

/-- What is reported has passed its checks. -/
theorem Report.updatable (hu : Report range r X ts L u L') : ∃ q, Updatable L r X u q := by
  obtain ⟨q,page,v,hrep,_⟩ := hu.outcome
  obtain ⟨rep,hrep',hv⟩ := hrep.reported
  obtain ⟨hmem,hkey,hauth⟩ := authorizedReporter_eq_some hrep'
  exact ⟨q,hrep.property,⟨rep,hmem,hkey,hauth⟩,hrep.not_fixed,hrep.dataType,_,_,v,hv⟩

/-- An update leaves the checks of another one as they are, though it may turn its page. -/
theorem Report.updatable_iff (hL : Paging range L) (hu : Report range r X ts L u L')
    {u' : PropertyValue} : (∃ q, Updatable L' r X u' q) ↔ ∃ q, Updatable L r X u' q := by
  have hturned := hu.turned_property hL.homed r u'.name
  constructor
  · exact fun ⟨_,hq⟩ => hq.of_turned hturned
  · exact fun ⟨_,hq⟩ => hq.turned hturned

/-- The updates of one transaction are reported exactly when each passes its checks on the
ledger before the transaction. -/
theorem reports_iff (hL : Paging range L) (hrec : ∃ rec, L.record r = some rec) :
    (∃ L', Reports range r X ts L us L') ↔ ∀ u ∈ us, ∃ q, Updatable L r X u q := by
  induction us generalizing L with
  | nil => exact iff_of_true ⟨L,.nil⟩ (List.forall_mem_nil _)
  | cons u us ih =>
    rw [List.forall_mem_cons]
    have hrest : ∀ {L₁}, Report range r X ts L u L₁ →
        ((∃ L', Reports range r X ts L₁ us L') ↔ ∀ u ∈ us, ∃ q, Updatable L r X u q) := by
      intro L₁ hu
      rw [ih (hL.report hrec hu) (hu.framed.record ▸ hrec)]
      simp only [hu.updatable_iff hL]
    constructor
    · rintro ⟨L',hus⟩
      cases hus with
      | cons hu hus => exact ⟨hu.updatable,(hrest hu).mp ⟨L',hus⟩⟩
    · rintro ⟨⟨q,hq⟩,hus⟩
      obtain ⟨L₁,hu⟩ : ∃ L₁, Report range r X ts L u L₁ := hq.report hL
      obtain ⟨L',hus⟩ := (hrest hu).mpr hus
      exact ⟨L',.cons hu hus⟩

/-- The checks of `_update_properties`. -/
structure Updates (L : Ledger) (X : String) (a : UpdatePropertiesAction) : Prop where
  record : ∃ rec, L.record a.recordId = some rec ∧ rec.final = false
  properties : ∀ u ∈ a.properties, ∃ q, Updatable L a.recordId X u q

theorem step_updateProperties_iff {a : UpdatePropertiesAction} (hL : Paging range L) :
    (∃ L', Step range L ⟨X,ts,.UpdateProperties a⟩ L') ↔ Updates L X a := by
  constructor
  · rintro ⟨L',hstep⟩
    cases hstep with
    | updateProperties hrec hopen hus =>
      exact ⟨⟨_,hrec,hopen⟩,(reports_iff hL ⟨_,hrec⟩).mp ⟨L',hus⟩⟩
  · rintro ⟨⟨rec,hrec,hopen⟩,hus⟩
    obtain ⟨L',hus⟩ := (reports_iff hL ⟨rec,hrec⟩).mpr hus
    exact ⟨L',.updateProperties hrec hopen hus⟩

/-- Between the two ledgers only the named properties of `r` and their pages changed, and of
the properties only the current page and whether they wrapped. -/
structure UpdatesOnly (r : String) (names : List String) (L L' : Ledger) : Prop where
  framed : Framed L L'
  elsewhere : ∀ r' n, (∃ rec, L.record r' = some rec) → (r' = r → n ∉ names) →
    L'.property r' n = L.property r' n ∧ L'.page r' n = L.page r' n
  turned : ∀ n ∈ names, Option.Rel Turned (L.property r n) (L'.property r n)

theorem Reports.updatesOnly (hL : Homed range L) (hd : DistinctRanges range L)
    (hrec : ∃ rec, L.record r = some rec) (hus : Reports range r X ts L us L') :
    UpdatesOnly r (us.map PropertyValue.name) L L' := by
  refine ⟨hus.framed,fun r' n hrec' hn => ?_,fun n _ => hus.turned_property hL hrec r n⟩
  have hother : range r' = range r → n ∉ us.map PropertyValue.name := by
    obtain ⟨rec,hrec⟩ := hrec
    obtain ⟨rec',hrec'⟩ := hrec'
    exact fun he => hn (hd _ _ _ _ hrec' hrec he)
  clear hn hrec hrec' hd hL
  induction hus with
  | nil => exact ⟨rfl,rfl⟩
  | @cons L L₁ L₂ u us hu _ ih =>
    have hmiss : ¬(range r' = range r ∧ n = u.name) := fun hhit =>
      hother hhit.1 (hhit.2 ▸ List.mem_cons_self)
    have hone := hu.elsewhere hmiss
    obtain ⟨hprop,hpage⟩ := ih fun he hmem => hother he (List.mem_cons_of_mem _ hmem)
    exact ⟨hprop.trans hone.1,hpage.trans hone.2⟩

end Ledger

theorem reachable_paging {env : Env} {h : List (State × Tx)} {s : State}
    (hr : Reachable env h s) : Ledger.Paging env.range (ledger env s) :=
  ⟨reachable_homed hr,(reachable_sound hr).paged,(reachable_sane hr).current⟩

theorem update_properties_exact {env : Env} {h : List (State × Tx)} {s : State}
    (hr : Reachable env h s) (hd : DistinctAddresses env s) (X : String) (t : Nat)
    (a : UpdatePropertiesAction) (hw : Writes env s ⟨X,t,.UpdateProperties a⟩) :
    ((∃ s', updateProperties env a s X t = .ok s') ↔ Ledger.Updates (ledger env s) X a) ∧
    (t ≠ 0 → ((∃ s', Accepted env s ⟨X,t,.UpdateProperties a⟩ s') ↔
      Ledger.Updates (ledger env s) X a)) ∧
    ∀ s', Accepted env s ⟨X,t,.UpdateProperties a⟩ s' →
      Ledger.UpdatesOnly a.recordId (a.properties.map PropertyValue.name) (ledger env s)
        (ledger env s') := by
  have hiff := @Ledger.step_updateProperties_iff _ _ X t a (reachable_paging hr)
  refine ⟨?_,fun ht => ?_,fun s' hacc => ?_⟩
  · let keep : IterOrder := ⟨id,fun _ => .refl _⟩
    rw [← hiff,← dispatch_iff_step hr hw ⟨keep,keep,keep⟩]
    rfl
  · rw [accepted_iff_step hr hw,hiff,sendable_iff]
    exact and_iff_right ⟨ht,trivial⟩
  · cases (accepted_refines (reachable_refines hr).1 hacc).2 with
    | updateProperties hrec _ hus =>
      exact hus.updatesOnly (reachable_homed hr) hd ⟨_,hrec⟩

namespace Sample

/-- The ledger after the base requests and some more, where serialization never fails. -/
def plainly (requests : List TpProcessRequest) : State :=
  outcome (replay plain orders (base ++ requests) State.empty)

theorem plainly_eq {requests : List TpProcessRequest}
    (h : (replay plain orders (base ++ requests) State.empty).isOk = true) :
    replay plain orders (base ++ requests) State.empty = .ok (plainly requests) := eq_outcome h

theorem plainly_accepted {request : TpProcessRequest} {state : State} {tx : Tx}
    (htx : request.tx? = some tx) (h : (apply plain orders request state).isOk = true) :
    Accepted plain state tx (outcome (apply plain orders request state)) :=
  ⟨orders,request,htx,eq_outcome h⟩

/-- Two values for the same property. -/
def twice : UpdatePropertiesAction :=
  { recordId := "r"
    properties := [{ name := "p", dataType := .NUMBER, numberValue := 1 },
      { name := "p", dataType := .NUMBER, numberValue := 2 }] }

def updateTwice : TpProcessRequest :=
  request "A" { action := .UPDATE_PROPERTIES, timestamp := 5, updateProperties := twice }

end Sample

theorem update_properties_exact_sample :
    Ledger.Updates (ledger Sample.plain (Sample.plainly [])) "A" Sample.twice ∧
      Ledger.UpdatesOnly "r" ["p","p"] (ledger Sample.plain (Sample.plainly []))
        (ledger Sample.plain
          (outcome (apply Sample.plain Sample.orders Sample.updateTwice (Sample.plainly [])))) := by
  have hrun := @Sample.plainly_eq [] (by decide +kernel)
  obtain ⟨h,hr,_⟩ := replay_run hrun
  have hd := replay_distinctAddresses hrun (by decide +kernel)
  have hacc := @Sample.plainly_accepted Sample.updateTwice (Sample.plainly [])
    ⟨"A",5,.UpdateProperties Sample.twice⟩ rfl (by decide +kernel)
  have hexact := update_properties_exact hr hd "A" 5 Sample.twice
    (writes_of_total (reachable_sane hr) (fun _ => rfl) _)
  exact ⟨(hexact.2.1 (by decide)).mp ⟨_,hacc⟩,hexact.2.2 _ hacc⟩

/-! ## Creation of records -/

/-- The provided value of a name, the last one when it is provided twice. -/
def CreateRecordAction.value (a : CreateRecordAction) (n : String) : Option PropertyValue :=
  (a.properties.filter fun u => u.name = n).getLast?

@[simp] theorem providedProperties_lookup (a : CreateRecordAction) (n : String) :
    (providedProperties a).lookup n = a.value n := insertByName_lookup ..

theorem mem_insertByName {α : Type} {name : α → String} {l : List α} {n : String} :
    n ∈ insertByName name l ↔ ∃ a ∈ l, name a = n := by
  rw [← AList.lookup_isSome,insertByName_lookup,List.getLast?_isSome,ne_eq,List.filter_eq_nil_iff]
  simp

theorem checkProvided_iff {schema : HashMap PropertySchema} {n : String} {u : PropertyValue} :
    checkProvided schema n u = .ok () ↔ ∃ col, schema.lookup n = some col ∧
      col.delayed = false ∧ u.dataType = col.dataType := by
  rw [checkProvided,bind_eq_ok]
  refine exists_congr fun col => ?_
  rw [expect_eq_ok,Except.ok.injEq,bind_eq_ok]
  refine and_congr_right fun hcol => ?_
  simp only [rejectIf_eq_ok,hcol,not_not]
  simp [and_comm]

namespace Ledger

variable {range : String → Address} {L L' : Ledger} {signer : String} {ts : Nat}
variable {a : CreateRecordAction} {t : Table}

/-- The checks of `_create_record`. -/
structure Creates (L : Ledger) (signer : String) (a : CreateRecordAction) (t : Table) :
    Prop where
  registered : ∃ p, L.participant signer = some p
  fresh : L.record a.recordId = none
  table : L.table a.table = some t
  required : ∀ col ∈ t.properties, col.required = true → ∃ u ∈ a.properties, u.name = col.name
  provided : ∀ n u, a.value n = some u → ∃ col, t.entry n = some col ∧ col.delayed = false ∧
    u.dataType = col.dataType ∧ Storable u (newProperty a.recordId signer n col)

/-- The values of a new page exist when the provided one is accepted. -/
theorem Creates.initial (h : Creates L signer a t) (ts : Nat) (n : String) :
    ∃ values, ∀ col, t.entry n = some col →
      initialValues ts (a.value n) (newProperty a.recordId signer n col) = .ok values := by
  cases hu : a.value n with
  | none => exact ⟨[],fun _ _ => rfl⟩
  | some u =>
    obtain ⟨col,hcol,_,_,hst⟩ := h.provided n u hu
    obtain ⟨v,hv⟩ := hst.make 0 ts
    refine ⟨[v],fun col' hcol' => ?_⟩
    obtain rfl := Option.some.inj (hcol.symm.trans hcol')
    exact bind_eq_ok.mpr ⟨v,hv,rfl⟩

theorem step_createRecord_iff :
    (∃ L', Step range L ⟨signer,ts,.CreateRecord a⟩ L') ↔ ∃ t, Creates L signer a t := by
  constructor
  · rintro ⟨L',hstep⟩
    cases hstep with
    | @createRecord _ _ _ p t initial hp hnew ht hrequired hprovided hinitial =>
      refine ⟨t,⟨p,hp⟩,hnew,ht,fun col hcol hreq => ?_,fun n u hu => ?_⟩
      · exact mem_insertByName.mp (hrequired col.name (mem_insertByName.mpr
          ⟨col,List.mem_filter.mpr ⟨hcol,hreq⟩,rfl⟩))
      · rw [← providedProperties_lookup] at hu
        obtain ⟨col,hcol,hdelayed,htype⟩ := checkProvided_iff.mp (hprovided n u hu)
        have hvalues := hinitial n col hcol
        rw [hu] at hvalues
        obtain ⟨v,hv,_⟩ := bind_eq_ok.mp hvalues
        exact ⟨col,tableSchema_lookup t n ▸ hcol,hdelayed,htype,_,_,v,hv⟩
  · rintro ⟨t,h⟩
    obtain ⟨p,hp⟩ := h.registered
    choose initial hinitial using h.initial ts
    refine ⟨_,@Step.createRecord _ _ _ _ _ _ _ initial hp h.fresh h.table (fun n hn => ?_)
      (fun n u hu => ?_) fun n col hcol => ?_⟩
    · obtain ⟨col,hcol,rfl⟩ := mem_insertByName.mp hn
      obtain ⟨hmem,hreq⟩ := List.mem_filter.mp hcol
      exact mem_insertByName.mpr (h.required col hmem hreq)
    · obtain ⟨col,hcol,hdelayed,htype,_⟩ := h.provided n u (providedProperties_lookup a n ▸ hu)
      exact checkProvided_iff.mpr ⟨col,by rw [tableSchema_lookup,hcol],hdelayed,htype⟩
    · rw [providedProperties_lookup]
      exact hinitial n col (tableSchema_lookup t n ▸ hcol)

/-- `L'` is `L` with the new record: its properties are those of the schema, each with the
signer as reporter and one page that holds the provided value, if there is one. -/
structure Initialises (L : Ledger) (signer : String) (ts : Nat) (a : CreateRecordAction)
    (t : Table) (L' : Ledger) : Prop where
  participant : L'.participant = L.participant
  table : L'.table = L.table
  proposal : L'.proposal = L.proposal
  exchange : L'.exchange = L.exchange
  record : L'.record = Function.update L.record a.recordId (some
    { recordId := a.recordId, table := a.table, owners := [⟨signer,ts⟩],
      custodians := [⟨signer,ts⟩], final := false })
  property : ∀ n col, t.entry n = some col → ∃ q, L'.property a.recordId n = some q ∧
    q.recordId = a.recordId ∧ q.schema = { col.stored with name := n } ∧
      q.reporters = [⟨signer,true,0⟩] ∧ q.currentPage = 1 ∧ q.wrapped = false
  page : ∀ n q, L'.property a.recordId n = some q → ∃ page, L'.page a.recordId n 1 = some page ∧
    (∀ u, a.value n = some u → ∃ v, makeNewReportedValue 0 ts u q = .ok v ∧
      page.reportedValues = [v]) ∧ (a.value n = none → page.reportedValues = [])
  no_property : ∀ n, t.entry n = none → L'.property a.recordId n = none
  no_page : ∀ n k, t.entry n = none ∨ k ≠ 1 → L'.page a.recordId n k = none
  elsewhere : ∀ r, (∃ rec, L.record r = some rec) →
    L'.property r = L.property r ∧ L'.page r = L.page r

theorem Created.initialises (hL : Homed range L) (hd : DistinctRanges range L')
    {initial : String → List ReportedValue} (hc : Created range L signer ts a t initial L') :
    Initialises L signer ts a t L' := by
  have hnew : ∀ n, L.property a.recordId n = none ∧ ∀ k, L.page a.recordId n k = none := by
    refine fun n => ⟨?_,fun k => ?_⟩
    · cases hq : L.property a.recordId n with
      | none => rfl
      | some q => exact absurd rfl (hc.not_range hL hd hq)
    · cases hp : L.page a.recordId n k with
      | none => rfl
      | some page => exact absurd rfl (hc.page_not_range hL hd hp)
  refine ⟨by rw [hc.eq]; rfl,by rw [hc.eq]; rfl,by rw [hc.eq]; rfl,by rw [hc.eq]; rfl,hc.record,
    fun n col hcol => ?_,fun n q hq => ?_,fun n hn => ?_,fun n k hnk => ?_,fun r hrec => ?_⟩
  · refine ⟨newProperty a.recordId signer n col,?_,rfl,rfl,rfl,rfl,rfl⟩
    rw [hc.eq,initProperties_property,tableSchema_lookup,hcol]
    exact if_pos ⟨rfl,rfl⟩
  · obtain ⟨col,hcol,rfl⟩ := hc.property_entry hL hd hq
    have hvalues := hc.values n col (by rw [tableSchema_lookup,hcol])
    rw [providedProperties_lookup] at hvalues
    refine ⟨⟨n,a.recordId,initial n⟩,?_,fun u hu => ?_,fun hnone => ?_⟩
    · rw [hc.eq,initProperties_page,tableSchema_lookup,hcol]
      exact if_pos ⟨rfl,rfl,rfl⟩
    · rw [hu] at hvalues
      obtain ⟨v,hv,hvalues⟩ := bind_eq_ok.mp hvalues
      exact ⟨v,hv,(Except.ok.inj hvalues).symm⟩
    · rw [hnone] at hvalues
      exact (Except.ok.inj hvalues).symm
  · rw [hc.eq,initProperties_property,tableSchema_lookup,hn,if_neg (by simp)]
    exact (hnew n).1
  · rw [hc.eq,initProperties_page,tableSchema_lookup,if_neg]
    · exact (hnew n).2 k
    · rcases hnk with hn | hk
      · simp [hn]
      · exact fun hhit => hk hhit.2.2
  · obtain ⟨rec,hrec⟩ := hrec
    have hne := hc.range_ne hd hrec
    refine ⟨funext fun n => ?_,funext fun n => funext fun k => ?_⟩
    · rw [hc.eq,initProperties_property,if_neg fun hhit => hne hhit.1]
      rfl
    · rw [hc.eq,initProperties_page,if_neg fun hhit => hne hhit.1]
      rfl

end Ledger

theorem create_record_exact {env : Env} {h : List (State × Tx)} {s : State}
    (hr : Reachable env h s) (signer : String) (ts : Nat) (a : CreateRecordAction)
    (hw : Writes env s ⟨signer,ts,.CreateRecord a⟩) :
    (∀ orders, (∃ s', createRecord env orders a s signer ts = .ok s') ↔
      ∃ t, Ledger.Creates (ledger env s) signer a t) ∧
    (ts ≠ 0 → a.recordId ≠ "" → ((∃ s', Accepted env s ⟨signer,ts,.CreateRecord a⟩ s') ↔
      ∃ t, Ledger.Creates (ledger env s) signer a t)) ∧
    ∀ s', Accepted env s ⟨signer,ts,.CreateRecord a⟩ s' → DistinctAddresses env s' →
      ∃ t, (ledger env s).table a.table = some t ∧
        Ledger.Initialises (ledger env s) signer ts a t (ledger env s') := by
  have hiff := @Ledger.step_createRecord_iff env.range (ledger env s) signer ts a
  refine ⟨fun orders => ?_,fun hts hid => ?_,fun s' hacc hd => ?_⟩
  · rw [← hiff,← dispatch_iff_step hr hw orders]
    rfl
  · rw [accepted_iff_step hr hw,hiff,sendable_iff]
    exact and_iff_right ⟨hts,hid⟩
  · obtain ⟨t,initial,hc⟩ :=
      (accepted_refines (reachable_refines hr).1 hacc).2.created_of_action rfl
    exact ⟨t,hc.table,hc.initialises (reachable_homed hr) hd⟩

namespace Sample

/-- Another record of the same table, with a value for its property. -/
def another : CreateRecordAction :=
  { recordId := "q", table := "t"
    properties := [{ name := "p", dataType := .NUMBER, numberValue := 7 }] }

def createAnother : TpProcessRequest :=
  request "A" { action := .CREATE_RECORD, timestamp := 5, createRecord := another }

end Sample

theorem create_record_exact_sample :
    (∃ t, Ledger.Creates (ledger Sample.plain (Sample.plainly [])) "A" Sample.another t) ∧
      ∃ t, (ledger Sample.plain (Sample.plainly [])).table "t" = some t ∧
        Ledger.Initialises (ledger Sample.plain (Sample.plainly [])) "A" 5 Sample.another t
          (ledger Sample.plain
            (outcome (apply Sample.plain Sample.orders Sample.createAnother
              (Sample.plainly [])))) := by
  have hrun := @Sample.plainly_eq [] (by decide +kernel)
  obtain ⟨h,hr,_⟩ := replay_run hrun
  have happly : (apply Sample.plain Sample.orders Sample.createAnother
      (Sample.plainly [])).isOk = true := by decide +kernel
  have hacc := @Sample.plainly_accepted Sample.createAnother (Sample.plainly [])
    ⟨"A",5,.CreateRecord Sample.another⟩ rfl happly
  have hd := replay_distinctAddresses (replay_snoc hrun (eq_outcome happly)) (by decide +kernel)
  have hexact := create_record_exact hr "A" 5 Sample.another
    (writes_of_total (reachable_sane hr) (fun _ => rfl) _)
  exact ⟨(hexact.2.1 (by decide) (by decide)).mp ⟨_,hacc⟩,hexact.2.2 _ hacc hd⟩

end DgcRestApi
