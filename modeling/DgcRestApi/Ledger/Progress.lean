import DgcRestApi.Ledger.Panics
import DgcRestApi.Ledger.Execution

/-!
# Every step is taken

The converse of the refinement: the handler accepts every transaction that the ledger has a
step for, unless a container that it stores cannot be serialized, and ends in a state that
stands for the ledger after the step. So a transaction that can be stored is accepted exactly
when the ledger has a step for it, and what the handler checks can be read off `Step`.
-/

namespace DgcRestApi
open Addressing Fallible Keyed

/-- The sane state `s` stands for the ledger `L`. -/
structure Shows (env : Env) (L : Ledger) (s : State) : Prop where
  sane : Sane env s
  ledger : ledger env s = L

/-- The computation ends in a state that stands for the ledger, or in a container that cannot be
serialized. -/
abbrev Reaches (env : Env) (x : Except ApplyError State) (L : Ledger) : Prop :=
  Ends x (Shows env L) (Unwritable env)

section Store

variable {env : Env} {L : Ledger} {s : State}

/-- A setter makes its update, if the container can be serialized. -/
theorem Shows.set (hs : Shows env L s) {c : Setter} (hc : c.Keyed env s)
    (hpage : ∀ r n q, c = .property r n q → q.currentPage = 1) :
    Reaches env (c.run env s) (c.effect env.range L) := by
  refine ⟨fun s' h => ⟨(hs.sane.set hc hpage).1 s' h,?_⟩,
    (Setter.run_canonical hs.sane.canonical hc).2⟩
  rw [(Setter.run_spec hs.sane.canonical.stored hc h).2,hs.ledger]

variable (hs : Shows env L s)
include hs

theorem Shows.participant (k : String) : getParticipant env s k = .ok (L.participant k) := by
  rw [← hs.ledger]
  exact getEntry_eq (hs.sane.canonical.loads_participant k) k

theorem Shows.record (r : String) : getRecord env s r = .ok (L.record r) := by
  rw [← hs.ledger]
  exact getEntry_eq (hs.sane.canonical.loads_record r) r

theorem Shows.table (n : String) : getTable env s n = .ok (L.table n) := by
  rw [← hs.ledger]
  exact getEntry_eq (hs.sane.canonical.loads_table n) n

theorem Shows.property (r n : String) : getProperty env s r n = .ok (L.property r n) := by
  rw [← hs.ledger]
  exact getEntry_eq (hs.sane.canonical.loads_property r n) n

theorem Shows.page (r n : String) {k : Nat} (hk : k ≠ 0) :
    getPropertyPage env s r n k = .ok (L.page r n k) := by
  rw [← hs.ledger]
  exact getEntry_eq (hs.sane.canonical.loads_page r n hk) n

theorem Shows.proposal (x : String) : getProposal env s x = .ok (L.proposal x) := by
  rw [← hs.ledger]
  exact getEntry_eq (hs.sane.canonical.loads_proposal x) x

/-- What is stored is keyed by its lookup. -/
theorem Shows.participant_key {k : String} {p : Participant} (h : L.participant k = some p) :
    p.publicKey = k :=
  @ledger_participant_key env s _ _ (hs.ledger ▸ h)

theorem Shows.record_key {r : String} {rec : Record} (h : L.record r = some rec) :
    rec.recordId = r :=
  @ledger_record_key env s _ _ (hs.ledger ▸ h)

theorem Shows.proposal_key {x : String} {c : Proposal} (h : L.proposal x = some c) :
    c.proposalId = x :=
  @ledger_proposal_key env s _ _ (hs.ledger ▸ h)

theorem Shows.property_key {r n : String} {q : Property} (h : L.property r n = some q) :
    q.name = n ∧ env.range q.recordId = env.range r ∧ q.currentPage = 1 := by
  rw [← hs.ledger] at h
  obtain ⟨hn,hr⟩ := ledger_property_key hs.sane.canonical.stored h
  exact ⟨hn,hr,hs.sane.current r n q h⟩

theorem Shows.page_key {r n : String} {k : Nat} {page : PropertyPage}
    (h : L.page r n k = some page) : page.name = n ∧ env.range page.recordId = env.range r := by
  rw [← hs.ledger] at h
  exact ledger_page_key hs.sane.canonical.stored h

theorem Shows.setParticipant {k : String} {p : Participant} (hk : p.publicKey = k) :
    Reaches env (setParticipant env s k p) (L.setParticipant k p) :=
  hs.set (c := .participant k p) hk nofun

theorem Shows.setRecord {r : String} {rec : Record} (hr : rec.recordId = r) :
    Reaches env (setRecord env s r rec) (L.setRecord r rec) :=
  hs.set (c := .record r rec) hr nofun

theorem Shows.setTable {n : String} {t : Table} (hn : t.name = n) (hnew : L.table n = none) :
    Reaches env (setTable env s n t) (L.setTable n t) :=
  hs.set (c := .table n t) ⟨hn,hnew ▸ hs.table n⟩ nofun

theorem Shows.setProperty {r n : String} {q : Property} (hn : q.name = n)
    (hr : env.range q.recordId = env.range r) (hpage : q.currentPage = 1) :
    Reaches env (setProperty env s r n q) (L.setProperty env.range r n q) :=
  hs.set (c := .property r n q) ⟨hn,hr⟩ fun _ _ _ h => by cases h; exact hpage

theorem Shows.setPage {r n : String} {k : Nat} {page : PropertyPage} (hn : page.name = n)
    (hr : env.range page.recordId = env.range r) (hk : k ≠ 0) :
    Reaches env (setPropertyPage env s r n k page) (L.setPage env.range r n k page) :=
  hs.set (c := .propertyPage r n k page) ⟨hn,hr,hk⟩ nofun

theorem Shows.setProposal {x : String} {c : Proposal} (hx : c.proposalId = x) :
    Reaches env (setProposal env s x c) (L.setProposal x c) :=
  hs.set (c := .proposal x c) hx nofun

theorem Shows.setExchanges (es : List Exchange) :
    Reaches env (setExchanges env es s) (L.setExchanges es) := by
  unfold DgcRestApi.setExchanges
  induction es generalizing s L with
  | nil => exact ends_ok hs
  | cons e es ih =>
    have he := hs.set (c := .exchange e.buyProposalId e.sellProposalId (newExchange e)) rfl nofun
    exact ends_cons he fun _ ht => ih ht

end Store

namespace Ledger

/-- A report reads the property and its page, files the value, and turns a full page. -/
theorem Report.outcome {range : String → Address} {L L' : Ledger} {r signer : String} {ts : Nat}
    {u : PropertyValue} (h : Report range r signer ts L u L') :
    ∃ q page v, Reportable L r signer ts u q page v ∧
      ((pushReportedValue page v).reportedValues.length < PROPERTY_PAGE_MAX_LENGTH ∧
          L' = L.setPage range r u.name q.currentPage (pushReportedValue page v) ∨
        ∃ next, PROPERTY_PAGE_MAX_LENGTH ≤ (pushReportedValue page v).reportedValues.length ∧
          nextPageNumber q.currentPage = .ok next ∧
          L' = ((L.setPage range r u.name q.currentPage (pushReportedValue page v)).setPage range r
            u.name next (clearedPage r u.name ((L.setPage range r u.name q.currentPage
              (pushReportedValue page v)).page r u.name next))).setProperty range r u.name
                (turnPage q next)) := by
  cases h with
  | filed hrep hroom => exact ⟨_,_,_,hrep,Or.inl ⟨hroom,rfl⟩⟩
  | turned hrep hfull hnext hL₁ =>
    subst hL₁
    exact ⟨_,_,_,hrep,Or.inr ⟨_,hfull,hnext,rfl⟩⟩

end Ledger

section Loops

variable {env : Env} {L L' : Ledger} {s : State} {signer r : String} {ts : Nat}

/-- A loop that replaces the property of each name by its image under `f`, when each iteration
finds its property and the check `G` passes. -/
theorem mapProperties_reaches {β : Type} {l : List β} (name : β → String)
    {f : Property → Property} {G : Property → Prop} {body : State → β → Except ApplyError State}
    (hbody : ∀ L t b q, Shows env L t → L.property r (name b) = some q → G q →
      Reaches env (body t b) (L.setProperty env.range r (name b) (f q)))
    (hs : Shows env L s) (hsome : ∀ n ∈ l.map name, ∃ q, L.property r n = some q)
    (hcheck : ∀ n q, L.property r n = some q → ∀ j < (l.map name).count n, G (f^[j] q)) :
    Reaches env (l.foldlM body s) (L.mapProperties env.range r (l.map name) f) := by
  induction l generalizing s L with
  | nil => exact ends_ok (Ledger.mapProperties_nil ▸ hs)
  | cons b l ih =>
    rw [List.map_cons] at hsome hcheck
    obtain ⟨q,hq⟩ := hsome (name b) List.mem_cons_self
    have hG : G q := hcheck (name b) q hq 0 (by rw [List.count_cons_self]; omega)
    refine ends_cons (hbody L s b q hs hq hG) fun t ht => ?_
    have hcongr : ∀ r', env.range r' = env.range r → L.property r' = L.property r := by
      rw [← hs.ledger]
      exact fun r' hr => ledger_property_congr hr
    rw [List.map_cons,← Ledger.mapProperties_cons hcongr hq]
    have hprop : ∀ n, (L.setProperty env.range r (name b) (f q)).property r n =
        if n = name b then some (f q) else L.property r n := by
      intro n
      simp
    refine ih ht (fun n hn => ?_) fun n q' hq' j hj => ?_
    · rw [hprop]
      split
      · exact ⟨f q,rfl⟩
      · exact hsome n (List.mem_cons_of_mem _ hn)
    · rw [hprop] at hq'
      by_cases hnb : n = name b
      · -- the later occurrences see what this one leaves
        subst hnb
        rw [if_pos rfl,Option.some.injEq] at hq'
        subst hq'
        exact hcheck (name b) q hq (j + 1) (by rw [List.count_cons_self]; omega)
      · rw [if_neg hnb] at hq'
        exact hcheck n q' hq' j (by rwa [List.count_cons_of_ne (Ne.symm hnb)])

theorem initProperty_reaches {provided : HashMap PropertyValue}
    {entry : Sigma fun _ : String => PropertySchema} {values : List ReportedValue}
    (hs : Shows env L s) (hv : initialValues ts (provided.lookup entry.1)
      (newProperty r signer entry.1 entry.2) = .ok values) :
    Reaches env (initProperty env r signer ts provided s entry)
      ((L.setProperty env.range r entry.1 (newProperty r signer entry.1 entry.2)).setPage env.range
        r entry.1 1 { name := entry.1, recordId := r, reportedValues := values }) := by
  refine ends_bind (hs.setProperty rfl rfl rfl) fun t ht => ?_
  refine ends_step (providedValue_eq provided entry.1) ?_
  exact ends_step hv (ht.setPage rfl rfl one_ne_zero)

theorem initProperties_reaches {provided : HashMap PropertyValue}
    {entries : List (Sigma fun _ : String => PropertySchema)}
    {initial : String → List ReportedValue} (hnd : entries.NodupKeys) (hs : Shows env L s)
    (hinit : ∀ n col, entries.dlookup n = some col →
      initialValues ts (provided.lookup n) (newProperty r signer n col) = .ok (initial n)) :
    Reaches env (entries.foldlM (initProperty env r signer ts provided) s)
      (L.initProperties env.range r
        (fun n => (entries.dlookup n).map (newProperty r signer n)) initial) := by
  induction entries generalizing s L with
  | nil => exact ends_ok (Ledger.initProperties_nil ▸ hs)
  | cons entry entries ih =>
    have hnone : entries.dlookup entry.1 = none :=
      List.dlookup_eq_none.mpr (List.notMem_keys_of_nodupKeys_cons hnd)
    have hv := hinit entry.1 entry.2 (List.dlookup_cons_eq ..)
    refine ends_cons (initProperty_reaches hs hv) fun t ht => ?_
    have hrest := ih hnd.of_cons ht fun n col hcol => hinit n col <| by
      have hn : n ≠ entry.1 := by
        rintro rfl
        rw [hnone] at hcol
        exact nomatch hcol
      rwa [List.dlookup_cons_ne _ entry hn]
    rw [Ledger.initProperties_cons (by rw [hnone]; rfl),Function.update_eq_self] at hrest
    rwa [map_dlookup_cons (newProperty r signer)]

theorem updateProperty_reaches {u : PropertyValue} (hs : Shows env L s)
    (h : Ledger.Report env.range r signer ts L u L') :
    Reaches env (updateProperty env r signer ts s u) L' := by
  obtain ⟨q,page,v,hrep,houtcome⟩ := h.outcome
  obtain ⟨hqn,hqr,hone⟩ := hs.property_key hrep.property
  obtain ⟨hpn,hpr⟩ := hs.page_key hrep.page
  obtain ⟨rep,hrep',hv⟩ := hrep.reported
  have hk : q.currentPage ≠ 0 := by omega
  refine ends_step_expect (hrep.property ▸ hs.property r u.name) ?_
  refine ends_step_expect (congrArg Except.ok hrep') ?_
  refine ends_step_rejectIf (by simp [hrep.not_fixed]) ?_
  refine ends_step_rejectIf (not_not.mpr hrep.dataType) ?_
  refine ends_step_expect (hrep.page ▸ hs.page r u.name hk) ?_
  refine ends_step hv (ends_bind (hs.setPage hpn hpr hk) fun t ht => ?_)
  rcases houtcome with ⟨hroom,rfl⟩ | ⟨next,hfull,hnext,rfl⟩
  · rw [if_neg (not_le.mpr hroom)]
    exact ends_ok ht
  · rw [if_pos hfull]
    refine ends_step hnext ?_
    obtain rfl : next = 1 := by
      rw [hone] at hnext
      exact (@nextPageNumber_ends env).1 next hnext
    refine ends_step (ht.page r u.name one_ne_zero) ?_
    obtain ⟨hcn,hcr⟩ := clearedPage_key (f := env.range) fun p hp => ht.page_key hp
    exact ends_bind (ht.setPage hcn hcr one_ne_zero) fun t₁ ht₁ =>
      ht₁.setProperty hqn hqr rfl

theorem updateProperties_reaches {us : List PropertyValue} (hs : Shows env L s)
    (h : Ledger.Reports env.range r signer ts L us L') :
    Reaches env (us.foldlM (updateProperty env r signer ts) s) L' := by
  induction h generalizing s with
  | nil => exact ends_ok hs
  | cons hu _ ih => exact ends_cons (updateProperty_reaches hs hu) fun _ ht => ih ht

/-- The loop over the reporters passes when the key's entries are authorized. -/
theorem revokeEntry_passes {reporterId : String} {l : List Reporter} {acc : Bool × List Reporter}
    (h : ∀ rep ∈ l, rep.publicKey = reporterId → rep.authorized = true) :
    ∃ acc', l.foldlM (revokeEntry reporterId) acc = .ok acc' := by
  induction l generalizing acc with
  | nil => exact ⟨acc,rfl⟩
  | cons rep l ih =>
    obtain ⟨hrep,hl⟩ := List.forall_mem_cons.mp h
    rw [List.foldlM_cons,revokeEntry]
    split
    · next hk =>
      rw [rejectIf,if_neg (by simp [hrep hk])]
      exact ih hl
    · exact ih hl

theorem revokeProperty_reaches {reporterId n : String} {q : Property} (hs : Shows env L s)
    (hq : L.property r n = some q) (hrev : Ledger.Revocable reporterId q) :
    Reaches env (revokeProperty env r reporterId s n)
      (L.setProperty env.range r n (Ledger.revoke reporterId q)) := by
  obtain ⟨hqn,hqr,hone⟩ := hs.property_key hq
  obtain ⟨⟨revoked,new⟩,hloop⟩ := @revokeEntry_passes reporterId q.reporters (false,[]) hrev.2
  obtain ⟨_,hflag,hlist⟩ := revokeEntry_fold hloop
  have hrevoked : revoked = true := hflag.mpr (Or.inr hrev.1)
  refine ends_step_expect (hq ▸ hs.property r n) (ends_step hloop ?_)
  refine ends_step_rejectIf (by simp [hrevoked]) ?_
  rw [show new = _ from hlist]
  exact hs.setProperty hqn hqr hone

theorem handOverProperty_reaches {owner receiver : String} {col : PropertySchema} {q : Property}
    (hs : Shows env L s) (hq : L.property r col.name = some q) :
    Reaches env (handOverProperty env r owner receiver s col)
      (L.setProperty env.range r col.name (handOver owner receiver q)) := by
  obtain ⟨hqn,hqr,hone⟩ := hs.property_key hq
  refine ends_step_expect (hq ▸ hs.property r col.name) ?_
  rw [hqn]
  exact hs.setProperty hqn hqr hone

theorem authorizeProperty_reaches {receiver n : String} {q : Property} (hs : Shows env L s)
    (hq : L.property r n = some q) :
    Reaches env (authorizeProperty env r receiver s n)
      (L.setProperty env.range r n (addReporter receiver q)) := by
  obtain ⟨hqn,hqr,hone⟩ := hs.property_key hq
  exact ends_step_expect (hq ▸ hs.property r n) (hs.setProperty hqn hqr hone)

end Loops

section Actions

open Ledger

variable {env : Env} {L L' : Ledger} {s : State} {signer : String} {ts : Nat}
variable (hs : Shows env L s)
include hs

theorem createParticipant_reaches {a : CreateParticipantAction}
    (hnew : L.participant signer = none) :
    Reaches env (createParticipant env a s signer ts)
      (L.setParticipant signer { publicKey := signer, name := a.name, timestamp := ts }) :=
  ends_step_absent (hnew ▸ hs.participant signer) (hs.setParticipant rfl)

theorem createRecord_reaches {orders : Orders} {a : CreateRecordAction} {p : Participant}
    {t : Table} {initial : String → List ReportedValue} (hp : L.participant signer = some p)
    (hnew : L.record a.recordId = none) (ht : L.table a.table = some t)
    (hrequired : ∀ n ∈ requiredProperties t, n ∈ providedProperties a)
    (hprovided : ∀ n v, (providedProperties a).lookup n = some v →
      checkProvided (tableSchema t) n v = .ok ())
    (hinitial : ∀ n col, (tableSchema t).lookup n = some col →
      initialValues ts ((providedProperties a).lookup n)
        (newProperty a.recordId signer n col) = .ok (initial n)) :
    Reaches env (createRecord env orders a s signer ts)
      ((L.setRecord a.recordId (newRecord a signer ts)).initProperties env.range
        a.recordId (fun n => ((tableSchema t).lookup n).map (newProperty a.recordId signer n))
          initial) := by
  refine ends_step_expect (hp ▸ hs.participant signer) ?_
  refine ends_step_absent (hnew ▸ hs.record a.recordId) ?_
  refine ends_step_expect (ht ▸ hs.table a.table) ?_
  refine ends_step (a := ()) (forM_eq_ok.mpr fun entry hentry => ?_) ?_
  · refine rejectIf_eq_ok.mpr (not_not.mpr (hrequired _ ?_))
    have hmem := (orders.requiredProperties.perm _).mem_iff.mp hentry
    exact AList.lookup_isSome.mp (by rw [AList.mem_lookup_iff.mpr hmem]; rfl)
  refine ends_step (a := ()) (forM_eq_ok.mpr fun entry hentry => ?_) ?_
  · have hmem := (orders.providedProperties.perm _).mem_iff.mp hentry
    exact hprovided _ _ (AList.mem_lookup_iff.mpr hmem)
  refine ends_bind (hs.setRecord rfl) fun s₁ hs₁ => ?_
  -- whatever the order, the loop visits the entries of the schema
  have hperm := orders.tableSchema.perm (tableSchema t).entries
  have hnd := (List.perm_nodupKeys hperm).mpr (tableSchema t).nodupKeys
  have hlookup : ∀ n, (orders.tableSchema.order (tableSchema t).entries).dlookup n =
      (tableSchema t).lookup n := fun n => List.perm_dlookup n hnd hperm
  have hentries : ∀ n col, (orders.tableSchema.order (tableSchema t).entries).dlookup n =
      some col → initialValues ts ((providedProperties a).lookup n)
        (newProperty a.recordId signer n col) = .ok (initial n) := by
    intro n col hcol
    rw [hlookup] at hcol
    exact hinitial n col hcol
  have hloop := initProperties_reaches hnd hs₁ hentries
  simp only [hlookup] at hloop
  exact hloop

theorem finalizeRecord_reaches {a : FinalizeRecordAction} {rec : Record}
    {c : AssociatedParticipant} (howned : OwnedBy L a.recordId signer rec)
    (hc : rec.custodians.getLast? = some c) (hcs : c.participantId = signer) :
    Reaches env (finalizeRecord env a s signer)
      (L.setRecord a.recordId { rec with final := true }) := by
  obtain ⟨o,ho,hos⟩ := howned.owner
  refine ends_step_expect (howned.record ▸ hs.record a.recordId) ?_
  refine ends_step_expect (congrArg Except.ok ho) (ends_step_expect (congrArg Except.ok hc) ?_)
  refine ends_step_rejectIf (by simp [hos,hcs]) (ends_step_rejectIf (by simp [howned.not_final]) ?_)
  have hkey := hs.record_key howned.record
  exact hs.setRecord hkey

theorem createTable_reaches {a : CreateTableAction} (hnew : L.table a.name = none) :
    Reaches env (createTable env a s signer)
      (L.setTable a.name { name := a.name, properties := a.properties }) :=
  ends_step_absent (hnew ▸ hs.table a.name) (hs.setTable rfl hnew)

theorem revokeReporter_reaches {a : RevokeReporterAction} {rec : Record}
    (howned : OwnedBy L a.recordId signer rec) (hnodup : a.properties.Nodup)
    (hprops : ∀ n ∈ a.properties, ∃ q, L.property a.recordId n = some q ∧
      Revocable a.reporterId q) :
    Reaches env (revokeReporter env a s signer)
      (L.mapProperties env.range a.recordId a.properties (revoke a.reporterId)) := by
  obtain ⟨o,ho,hos⟩ := howned.owner
  refine ends_step_expect (howned.record ▸ hs.record a.recordId) ?_
  refine ends_step_expect (congrArg Except.ok ho) ?_
  refine ends_step_rejectIf (not_not.mpr hos) (ends_step_rejectIf (by simp [howned.not_final]) ?_)
  -- a name is listed once, so its check is made on the stored property
  have hcheck : ∀ n q, L.property a.recordId n = some q → ∀ j < a.properties.count n,
      Revocable a.reporterId ((revoke a.reporterId)^[j] q) := by
    intro n q hq j hj
    have hone := List.nodup_iff_count_le_one.mp hnodup n
    obtain rfl : j = 0 := by omega
    obtain ⟨q',hq',hrev⟩ := hprops n (List.count_pos_iff.mp (by omega))
    obtain rfl := Option.some.inj (hq.symm.trans hq')
    exact hrev
  have hbody : ∀ L t n q, Shows env L t → L.property a.recordId n = some q →
      Revocable a.reporterId q → Reaches env (revokeProperty env a.recordId a.reporterId t n)
        (L.setProperty env.range a.recordId n (revoke a.reporterId q)) :=
    fun _ _ _ _ ht hq hG => revokeProperty_reaches ht hq hG
  have hloop := mapProperties_reaches (l := a.properties) id hbody hs
  rw [List.map_id] at hloop
  exact hloop (fun n hn => (hprops n hn).imp fun _ h => h.1) hcheck

theorem proposalRecord_eq {r : String} {rec : Record} (hrec : L.record r = some rec)
    (hfinal : rec.final = false) : proposalRecord env s r = .ok rec := by
  refine bind_eq_ok.mpr ⟨rec,expect_eq_ok.mpr (hrec ▸ hs.record r),?_⟩
  exact bind_eq_ok.mpr ⟨(),rejectIf_eq_ok.mpr (by simp [hfinal]),rfl⟩

theorem createProposal_reaches {a : CreateProposalAction} {i : Participant}
    (hg : Proposable L a signer i) :
    Reaches env (createProposal env a s signer ts)
      (L.setProposal a.proposalId (newProposal a signer ts)) := by
  refine ends_step_expect (hg.registered ▸ hs.participant signer) ?_
  refine ends_step_onlyIf (fun hrole => ?_) (ends_step_onlyIf (fun hrole => ?_)
    (ends_step_onlyIf (fun hrole => ?_) (ends_step_onlyIf (fun hrole => ?_)
      (ends_step_onlyIf (fun hrole => ?_) (hs.setProposal rfl)))))
  · obtain ⟨p,hp⟩ := hg.receiver hrole
    exact bind_eq_ok.mpr ⟨p,expect_eq_ok.mpr (hp ▸ hs.participant _),rfl⟩
  · obtain ⟨rec,hrec,hfinal,o,ho,hos⟩ := hg.owner hrole
    refine bind_eq_ok.mpr ⟨rec,proposalRecord_eq hs hrec hfinal,?_⟩
    exact bind_eq_ok.mpr ⟨o,expect_eq_ok.mpr (congrArg _ ho),rejectIf_eq_ok.mpr (not_not.mpr hos)⟩
  · obtain ⟨rec,c,hrec,hfinal,hc,hcs⟩ := hg.custodian hrole
    refine bind_eq_ok.mpr ⟨rec,proposalRecord_eq hs hrec hfinal,?_⟩
    exact bind_eq_ok.mpr ⟨c,expect_eq_ok.mpr (congrArg _ hc),rejectIf_eq_ok.mpr (not_not.mpr hcs)⟩
  · exact rejectIf_eq_ok.mpr (not_lt.mpr (hg.sellFunds hrole))
  · exact rejectIf_eq_ok.mpr (not_lt.mpr (hg.transferFunds hrole))

section Answers

variable {a : AnswerProposalAction} {c : Proposal} {i p : Participant} {status : Status}

theorem autoFill_reaches {amount : ℚ} (ha : Answers L signer a c i) :
    Reaches env (autoFill env a (autoExchanges a) status amount c i s signer ts)
      (L.fill a c i signer ts status amount) := by
  have hi := hs.participant_key ha.registered
  have hc := hs.proposal_key ha.proposal
  refine ends_bind (hs.setParticipant hi) fun _ ht => ?_
  exact ends_bind (ht.setExchanges _) fun _ hu => hu.setProposal hc

theorem acceptProposal_reaches (ha : Accepts L signer a c i p)
    (heff : Effect env.range L signer ts a c i p a.role L') :
    Reaches env (acceptProposal env a c i s signer ts) L' := by
  have hi := hs.participant_key ha.registered
  have hp := hs.participant_key ha.participant
  have hc := hs.proposal_key ha.proposal
  refine ends_step_rejectIf (not_not.mpr ha.receiver) ?_
  refine ends_step_expect (ha.participant ▸ hs.participant a.receivingParticipant) ?_
  generalize hrole : a.role = role at heff
  cases heff with
  | buyDGC | sellDGC => exact ends_ok hs
  | creditDGC =>
    exact ends_bind (hs.setParticipant hp) fun _ ht => ht.setProposal hc
  | transferDGC hfunds =>
    refine ends_step_rejectIf (not_lt.mpr hfunds) ?_
    refine ends_bind (hs.setParticipant hi) fun _ ht => ?_
    exact ends_bind (ht.setParticipant hp) fun _ hu => hu.setProposal hc
  | @transferOwnership rec o t hrec ho ht hprops =>
    have hkey := hs.record_key hrec
    refine ends_step_expect (hrec ▸ hs.record a.recordId) ?_
    refine ends_step_expect (congrArg Except.ok ho) ?_
    refine ends_bind (hs.setRecord hkey) fun s₁ hs₁ => ?_
    refine ends_step_expect (ht ▸ hs₁.table rec.table) ?_
    -- the loop checks nothing about a property, `True` is its guard
    refine ends_bind (mapProperties_reaches (G := fun _ => True) PropertySchema.name
      (fun _ _ _ _ hu hq _ => handOverProperty_reaches hu hq) hs₁ (fun n hn => ?_)
        fun _ _ _ _ _ => trivial) fun _ hu => hu.setProposal hc
    obtain ⟨col,hcol,rfl⟩ := List.mem_map.mp hn
    exact hprops col hcol
  | transferCustodianship hrec ho =>
    have hkey := hs.record_key hrec
    refine ends_step_expect (hrec ▸ hs.record a.recordId) ?_
    refine ends_step_expect (congrArg Except.ok ho) ?_
    exact ends_bind (hs.setRecord hkey) fun _ ht => ht.setProposal hc
  | authorizeReporter hrec ho hprops =>
    refine ends_step_expect (hrec ▸ hs.record a.recordId) ?_
    refine ends_step_expect (congrArg Except.ok ho) ?_
    have hbody : ∀ L t n q, Shows env L t → L.property a.recordId n = some q → True →
        Reaches env (authorizeProperty env a.recordId a.receivingParticipant t n)
          (L.setProperty env.range a.recordId n (addReporter a.receivingParticipant q)) :=
      fun _ _ _ _ ht hq _ => authorizeProperty_reaches ht hq
    have hloop := mapProperties_reaches (l := c.properties) id hbody hs
    rw [List.map_id] at hloop
    exact ends_bind (hloop hprops fun _ _ _ _ _ => trivial) fun _ ht => ht.setProposal hc

/-- An auto answer goes through the branch of its role. -/
theorem autoAnswer_reaches (ha : Answers L signer a c i)
    (hresp : autoStatus a.response = some status)
    (h : Reaches env (autoAnswer env a (autoExchanges a) status c i s signer ts) L') :
    Reaches env (answerProposal env a s signer ts) L' := by
  refine ends_step_expect (ha.proposal ▸ hs.proposal a.proposalId) ?_
  refine ends_step_expect (ha.registered ▸ hs.participant signer) ?_
  rcases autoStatus_eq_some.mp hresp with ⟨hauto,rfl⟩ | ⟨hauto,rfl⟩
  · rw [autoExchanges,hauto,if_neg (by decide)] at h
    rw [hauto]
    exact h
  · rw [autoExchanges,if_pos hauto] at h
    rw [hauto]
    exact h

theorem answerProposal_reaches (h : Step env.range L ⟨signer,ts,.AnswerProposal a⟩ L') :
    Reaches env (answerProposal env a s signer ts) L' := by
  by_cases hresp : a.response = .ACCEPT
  · obtain ⟨c,i,p,ha,heff⟩ := (step_accept_iff hresp).mp h
    refine ends_step_expect (ha.proposal ▸ hs.proposal a.proposalId) ?_
    refine ends_step_expect (ha.registered ▸ hs.participant signer) ?_
    rw [hresp]
    exact acceptProposal_reaches hs ha heff
  · cases h with
    | cancel ha hcancel hissuer =>
      have hc := hs.proposal_key ha.proposal
      refine ends_step_expect (ha.proposal ▸ hs.proposal a.proposalId) ?_
      refine ends_step_expect (ha.registered ▸ hs.participant signer) ?_
      rw [hcancel]
      exact ends_step_rejectIf (not_not.mpr hissuer) (hs.setProposal hc)
    | reject ha hreject hreceiver =>
      have hc := hs.proposal_key ha.proposal
      refine ends_step_expect (ha.proposal ▸ hs.proposal a.proposalId) ?_
      refine ends_step_expect (ha.registered ▸ hs.participant signer) ?_
      rw [hreject]
      exact ends_step_rejectIf (not_not.mpr hreceiver) (hs.setProposal hc)
    | autoIdle ha hauto hbuy hsell =>
      refine autoAnswer_reaches hs ha hauto ?_
      rw [autoAnswer]
      cases hrole : a.role with
      | buyDGC => exact absurd hrole hbuy
      | sellDGC => exact absurd hrole hsell
      | _ => exact ends_ok hs
    | autoBuy ha hauto hrole =>
      refine autoAnswer_reaches hs ha hauto ?_
      rw [autoAnswer,hrole]
      exact autoFill_reaches hs ha
    | autoSell ha hauto hrole hfunds =>
      refine autoAnswer_reaches hs ha hauto ?_
      rw [autoAnswer,hrole]
      exact ends_step_rejectIf (not_lt.mpr hfunds) (autoFill_reaches hs ha)
    | acceptIdle ha | acceptCredit ha | acceptTransfer ha | acceptOwnership ha
    | acceptCustodianship ha | acceptReporter ha => exact absurd ha.response hresp

end Answers

/-- The handler takes every step of the ledger that it can store, in whatever order it iterates
its maps. -/
theorem step_reaches {tx : Tx} (h : Step env.range L tx L') (orders : Orders) :
    Reaches env (dispatch env orders { action := tx.action, timestamp := tx.timestamp } s tx.signer)
      L' := by
  obtain ⟨signer,ts,action⟩ := tx
  cases action with
  | CreateParticipant a =>
    cases h with
    | createParticipant hnew => exact createParticipant_reaches hs hnew
  | CreateRecord a =>
    cases h with
    | createRecord hp hnew ht hrequired hprovided hinitial =>
      exact createRecord_reaches hs hp hnew ht hrequired hprovided hinitial
  | FinalizeRecord a =>
    cases h with
    | finalizeRecord howned hc hcs => exact finalizeRecord_reaches hs howned hc hcs
  | CreateTable a =>
    cases h with
    | createTable hnew => exact createTable_reaches hs hnew
  | UpdateProperties a =>
    cases h with
    | updateProperties hrec hopen hus =>
      refine ends_step_expect (hrec ▸ hs.record a.recordId) ?_
      exact ends_step_rejectIf (by simp [hopen]) (updateProperties_reaches hs hus)
  | CreateProposal a =>
    cases h with
    | createProposal hg => exact createProposal_reaches hs hg
  | AnswerProposal a => exact answerProposal_reaches hs h
  | RevokeReporter a =>
    cases h with
    | revokeReporter howned hnodup hprops =>
      exact revokeReporter_reaches hs howned hnodup hprops

end Actions

/-! ## Acceptance -/

/-- The names that `PayloadDGC::new` requires are there. -/
def Action.Named : Action → Prop
  | .CreateParticipant a => a.name ≠ ""
  | .CreateRecord a => a.recordId ≠ ""
  | .CreateTable a => a.name ≠ "" ∧ a.properties ≠ [] ∧ ∀ col ∈ a.properties, col.name ≠ ""
  | _ => True

/-- The message of an action. -/
def Action.payload (timestamp : Nat) : Action → PayloadMessage
  | .CreateParticipant a => { action := .CREATE_PARTICIPANT, timestamp, createParticipant := a }
  | .CreateRecord a => { action := .CREATE_RECORD, timestamp, createRecord := a }
  | .FinalizeRecord a => { action := .FINALIZE_RECORD, timestamp, finalizeRecord := a }
  | .CreateTable a => { action := .CREATE_TABLE, timestamp, createTable := a }
  | .UpdateProperties a => { action := .UPDATE_PROPERTIES, timestamp, updateProperties := a }
  | .CreateProposal a => { action := .CREATE_PROPOSAL, timestamp, createProposal := a }
  | .AnswerProposal a => { action := .ANSWER_PROPOSAL, timestamp, answerProposal := a }
  | .RevokeReporter a => { action := .REVOKE_REPORTER, timestamp, revokeReporter := a }

theorem Action.payload_timestamp (action : Action) (timestamp : Nat) :
    (action.payload timestamp).timestamp = timestamp := by
  cases action <;> rfl

theorem payloadAction_named {payload : PayloadMessage} {action : Action}
    (h : payloadAction payload = .ok action) : action.Named := by
  rw [payloadAction] at h
  cases hp : payload.action with
  | CREATE_PARTICIPANT | CREATE_RECORD =>
    rw [hp] at h
    obtain ⟨_,hname,h⟩ := bind_eq_ok.mp h
    obtain rfl := Except.ok.inj h
    exact rejectIf_eq_ok.mp hname
  | CREATE_TABLE =>
    rw [hp] at h
    obtain ⟨_,hname,h⟩ := bind_eq_ok.mp h
    obtain ⟨_,hlen,h⟩ := bind_eq_ok.mp h
    obtain ⟨_,hcols,h⟩ := bind_eq_ok.mp h
    obtain rfl := Except.ok.inj h
    refine ⟨rejectIf_eq_ok.mp hname,?_,fun col hcol => ?_⟩
    · exact fun hnil => rejectIf_eq_ok.mp hlen (by rw [hnil]; rfl)
    · exact rejectIf_eq_ok.mp (forM_eq_ok.mp hcols col hcol)
  | FINALIZE_RECORD | UPDATE_PROPERTIES | CREATE_PROPOSAL | ANSWER_PROPOSAL | REVOKE_REPORTER =>
    rw [hp] at h
    obtain rfl := Except.ok.inj h
    trivial

theorem payloadAction_payload {action : Action} (h : action.Named) (timestamp : Nat) :
    payloadAction (action.payload timestamp) = .ok action := by
  cases action with
  | CreateParticipant a | CreateRecord a =>
    exact bind_eq_ok.mpr ⟨(),rejectIf_eq_ok.mpr h,rfl⟩
  | CreateTable a =>
    obtain ⟨hname,hne,hcols⟩ := h
    refine bind_eq_ok.mpr ⟨(),rejectIf_eq_ok.mpr hname,bind_eq_ok.mpr ⟨(),?_,?_⟩⟩
    · exact rejectIf_eq_ok.mpr fun hlen => hne (List.eq_nil_of_length_eq_zero hlen)
    · exact bind_eq_ok.mpr ⟨(),forM_eq_ok.mpr fun col hcol => rejectIf_eq_ok.mpr (hcols col hcol),
        rfl⟩
  | _ => rfl

/-- Some request carries the transaction: its payload is valid. -/
def Tx.Sendable (tx : Tx) : Prop := ∃ request : TpProcessRequest, request.tx? = some tx

theorem sendable_iff {tx : Tx} : tx.Sendable ↔ tx.timestamp ≠ 0 ∧ tx.action.Named := by
  constructor
  · rintro ⟨request,htx⟩
    obtain ⟨payload,hp,rfl⟩ := Option.map_eq_some_iff.mp htx
    have hp := found_eq_some.mp hp
    cases hm : request.payload with
    | none =>
      rw [hm] at hp
      exact nomatch hp
    | some message =>
      rw [hm] at hp
      obtain ⟨action,haction,hp⟩ := bind_eq_ok.mp hp
      obtain ⟨_,hts,hp⟩ := bind_eq_ok.mp hp
      obtain rfl := Option.some.inj (Except.ok.inj hp)
      exact ⟨rejectIf_eq_ok.mp hts,payloadAction_named haction⟩
  · rintro ⟨hts,hnamed⟩
    have hstamp := tx.action.payload_timestamp tx.timestamp
    refine ⟨{ signerPublicKey := tx.signer, payload := some (tx.action.payload tx.timestamp) },?_⟩
    have hnew : PayloadDGC.new (some (tx.action.payload tx.timestamp)) =
        .ok (some { action := tx.action, timestamp := tx.timestamp }) := by
      refine bind_eq_ok.mpr ⟨_,payloadAction_payload hnamed _,bind_eq_ok.mpr ⟨(),?_,?_⟩⟩
      · rwa [hstamp,rejectIf_eq_ok]
      · rw [hstamp]
        rfl
    rw [TpProcessRequest.tx?,hnew]
    rfl

section Acceptance

variable {env : Env} {h : List (State × Tx)} {s s' : State} {tx : Tx}

/-- A transaction is accepted when the payload is valid and its action succeeds: a request
with an input and an output passes the log line. -/
theorem accepted_iff_dispatch : Accepted env s tx s' ↔ tx.Sendable ∧ ∃ orders,
    dispatch env orders { action := tx.action, timestamp := tx.timestamp } s tx.signer =
      .ok s' := by
  constructor
  · refine fun hacc => ⟨?_,accepted_dispatch hacc⟩
    obtain ⟨_,request,htx,_⟩ := hacc
    exact ⟨request,htx⟩
  · rintro ⟨⟨request,htx⟩,orders,hd⟩
    refine ⟨orders,{ request with inputs := [""], outputs := [""] },htx,?_⟩
    obtain ⟨payload,hp,rfl⟩ := Option.map_eq_some_iff.mp htx
    refine bind_eq_ok.mpr ⟨payload,expect_eq_ok.mpr (found_eq_some.mp hp),?_⟩
    exact bind_eq_ok.mpr ⟨(),if_neg (by simp),hd⟩

theorem reachable_shows (hr : Reachable env h s) : Shows env (ledger env s) s :=
  ⟨reachable_sane hr,rfl⟩

/-- The action of a transaction that can be stored succeeds on every step of the ledger. -/
theorem Writes.takes (hr : Reachable env h s) (hw : Writes env s tx) {L' : Ledger}
    (hstep : Ledger.Step env.range (ledger env s) tx L') (orders : Orders) :
    ∃ s', dispatch env orders { action := tx.action, timestamp := tx.timestamp } s tx.signer =
      .ok s' ∧ Shows env L' s' := by
  refine (step_reaches (reachable_shows hr) hstep orders).total fun e he => ?_
  obtain ⟨⟨m,rfl⟩,_⟩ := he
  exact hw orders m

/-- It succeeds exactly when the ledger has a step for it, in whatever order the maps are
iterated. -/
theorem dispatch_iff_step (hr : Reachable env h s) (hw : Writes env s tx) (orders : Orders) :
    (∃ s', dispatch env orders { action := tx.action, timestamp := tx.timestamp } s tx.signer =
      .ok s') ↔ ∃ L', Ledger.Step env.range (ledger env s) tx L' := by
  constructor
  · rintro ⟨s',hd⟩
    exact ⟨_,(dispatch_refines (reachable_refines hr).1 hd).2⟩
  · rintro ⟨L',hstep⟩
    obtain ⟨s',hd,_⟩ := hw.takes hr hstep orders
    exact ⟨s',hd⟩

theorem accepted_iff_step (hr : Reachable env h s) (hw : Writes env s tx) :
    (∃ s', Accepted env s tx s') ↔
      tx.Sendable ∧ ∃ L', Ledger.Step env.range (ledger env s) tx L' := by
  constructor
  · rintro ⟨s',hacc⟩
    exact ⟨(accepted_iff_dispatch.mp hacc).1,_,(accepted_refines (reachable_refines hr).1 hacc).2⟩
  · rintro ⟨hsend,hstep⟩
    let keep : IterOrder := ⟨id,fun _ => .refl _⟩
    obtain ⟨s',hd⟩ := (dispatch_iff_step hr hw ⟨keep,keep,keep⟩).mpr hstep
    exact ⟨s',accepted_iff_dispatch.mpr ⟨hsend,_,hd⟩⟩

end Acceptance

end DgcRestApi
