import DgcRestApi.Ledger.Step
import DgcRestApi.Ledger.View

/-!
# The handler refines the ledger

From a stored state every action that succeeds leaves a stored state and takes the ledger
through one `Step`. The loops over properties come first: each is one update of the ledger.
-/

namespace DgcRestApi
open Addressing Fallible Keyed

namespace Ledger

variable {range : String → Address} {L : Ledger} {r n : String}

/-- A property and its first page, followed by those of other names. -/
theorem initProperties_cons {prop : String → Option Property}
    {initial : String → List ReportedValue} {q : Property} {values : List ReportedValue}
    (hn : prop n = none) :
    ((L.setProperty range r n q).setPage range r n 1
      { name := n, recordId := r, reportedValues := values }).initProperties range r prop initial =
    L.initProperties range r (Function.update prop n (some q))
      (Function.update initial n values) := by
  ext : 1
  case property =>
    funext r' n'
    by_cases hn' : n' = n
    · subst hn'
      simp [hn]
    · simp [hn']
  case page =>
    funext r' n' k
    by_cases hn' : n' = n
    · subst hn'
      simp [hn]
    · simp [hn']
  all_goals rfl

theorem initProperties_nil {initial : String → List ReportedValue} :
    L.initProperties range r (fun _ => none) initial = L := by
  ext : 1
  case property =>
    funext r' n'
    simp
  case page =>
    funext r' n' k
    simp
  all_goals rfl

theorem mapProperties_nil {f : Property → Property} : L.mapProperties range r [] f = L := by
  ext : 1
  case property =>
    funext r' n'
    simp
  all_goals rfl

theorem mapProperties_cons {f : Property → Property} {q : Property} {names : List String}
    (hcongr : ∀ r', range r' = range r → L.property r' = L.property r)
    (hq : L.property r n = some q) :
    (L.setProperty range r n (f q)).mapProperties range r names f =
      L.mapProperties range r (n :: names) f := by
  ext : 1
  case property =>
    funext r' n'
    by_cases hr : range r' = range r
    · by_cases hn : n' = n
      · subst hn
        simp [hr,hcongr r' hr,hq]
      · simp [hr,hn,List.count_cons_of_ne (Ne.symm hn)]
    · simp [hr]
  all_goals rfl

end Ledger

section Loops

variable {env : Env} {s s' : State} {signer r : String} {ts : Nat}

/-- A loop that replaces the property of each name by its image under `f`. `G` is what the
loop body checks; where a name is listed twice it checks the replaced property. -/
theorem mapProperties_fold {β : Type} {l : List β} (name : β → String) {f : Property → Property}
    {G : Property → Prop} {body : State → β → Except ApplyError State}
    (hbody : ∀ t b t', Stored env t → body t b = .ok t' →
      ∃ q, (ledger env t).property r (name b) = some q ∧ G q ∧ Stored env t' ∧
        ledger env t' = (ledger env t).setProperty env.range r (name b) (f q))
    (hs : Stored env s) (h : l.foldlM body s = .ok s') :
    Stored env s' ∧ ledger env s' = (ledger env s).mapProperties env.range r (l.map name) f ∧
      (∀ n ∈ l.map name, ∃ q, (ledger env s).property r n = some q) ∧
      ∀ n q, (ledger env s).property r n = some q →
        ∀ j < (l.map name).count n, G (f^[j] q) := by
  induction l generalizing s with
  | nil =>
    rw [← foldlM_nil_eq_ok.mp h]
    exact ⟨hs,Ledger.mapProperties_nil.symm,nofun,fun _ _ _ _ hj => nomatch hj⟩
  | cons b l ih =>
    obtain ⟨t,ht,htail⟩ := foldlM_cons_eq_ok.mp h
    obtain ⟨q,hq,hG,hst,hlt⟩ := hbody s b t hs ht
    obtain ⟨hs',hl,hsome,hcheck⟩ := ih hst htail
    have hprop : ∀ n, (ledger env t).property r n =
        if n = name b then some (f q) else (ledger env s).property r n := by
      intro n
      rw [hlt]
      simp
    refine ⟨hs',?_,?_,?_⟩
    · rw [hl,hlt,List.map_cons]
      exact Ledger.mapProperties_cons (fun r' hr => ledger_property_congr hr) hq
    · intro n hn
      by_cases hnb : n = name b
      · exact ⟨q,hnb ▸ hq⟩
      · obtain ⟨q',hq'⟩ := hsome n ((List.mem_cons.mp hn).resolve_left hnb)
        rw [hprop,if_neg hnb] at hq'
        exact ⟨q',hq'⟩
    · intro n q' hq' j hj
      by_cases hnb : n = name b
      · subst hnb
        obtain rfl : q = q' := Option.some.inj (hq.symm.trans hq')
        rw [List.map_cons,List.count_cons_self] at hj
        -- the first occurrence sees `q`, the later ones what the earlier left
        cases j with
        | zero => exact hG
        | succ j =>
          exact hcheck (name b) (f q) (by rw [hprop,if_pos rfl]) j (Nat.lt_of_succ_lt_succ hj)
      · rw [List.map_cons,List.count_cons_of_ne (Ne.symm hnb)] at hj
        exact hcheck n q' (by rw [hprop,if_neg hnb]; exact hq') j hj

theorem initProperty_spec {provided : HashMap PropertyValue}
    {entry : Sigma fun _ : String => PropertySchema} (hs : Stored env s)
    (h : initProperty env r signer ts provided s entry = .ok s') :
    ∃ values, initialValues ts (provided.lookup entry.1) (newProperty r signer entry.1 entry.2) =
        .ok values ∧ Stored env s' ∧
      ledger env s' = ((ledger env s).setProperty env.range r entry.1
        (newProperty r signer entry.1 entry.2)).setPage env.range r entry.1 1
          { name := entry.1, recordId := r, reportedValues := values } := by
  obtain ⟨t,ht,h⟩ := bind_eq_ok.mp h
  obtain ⟨value,hvalue,h⟩ := bind_eq_ok.mp h
  rw [providedValue_eq,Except.ok.injEq] at hvalue
  subst hvalue
  obtain ⟨values,hv,h⟩ := bind_eq_ok.mp h
  obtain ⟨hst,hlt⟩ := setProperty_spec hs ht rfl rfl
  obtain ⟨hs',hl⟩ := setPropertyPage_spec hst h rfl rfl
  exact ⟨values,hv,hs',by rw [hl,hlt]⟩

theorem initProperty_fold {provided : HashMap PropertyValue}
    {entries : List (Sigma fun _ : String => PropertySchema)} (hnd : entries.NodupKeys)
    (hs : Stored env s) (h : entries.foldlM (initProperty env r signer ts provided) s = .ok s') :
    Stored env s' ∧ ∃ initial : String → List ReportedValue,
      (∀ n col, entries.dlookup n = some col →
        initialValues ts (provided.lookup n) (newProperty r signer n col) = .ok (initial n)) ∧
      ledger env s' = (ledger env s).initProperties env.range r
        (fun n => (entries.dlookup n).map (newProperty r signer n)) initial := by
  induction entries generalizing s with
  | nil =>
    rw [← foldlM_nil_eq_ok.mp h]
    exact ⟨hs,fun _ => [],nofun,Ledger.initProperties_nil.symm⟩
  | cons entry entries ih =>
    obtain ⟨t,ht,htail⟩ := foldlM_cons_eq_ok.mp h
    obtain ⟨values,hv,hst,hlt⟩ := initProperty_spec hs ht
    obtain ⟨hs',initial,hinit,hl⟩ := ih hnd.of_cons hst htail
    -- a name occurs once, so the later iterations leave this property alone
    have hnone : entries.dlookup entry.1 = none :=
      List.dlookup_eq_none.mpr (List.notMem_keys_of_nodupKeys_cons hnd)
    refine ⟨hs',Function.update initial entry.1 values,?_,?_⟩
    · intro n col hcol
      by_cases hn : n = entry.1
      · subst hn
        rw [List.dlookup_cons_eq] at hcol
        rw [Function.update_self,← Option.some.inj hcol,hv]
      · rw [List.dlookup_cons_ne _ entry hn] at hcol
        rw [Function.update_of_ne hn]
        exact hinit n col hcol
    · rw [hl,hlt,Ledger.initProperties_cons (by rw [hnone]; rfl),map_dlookup_cons]

theorem updateProperty_spec {u : PropertyValue} (hs : Stored env s)
    (h : updateProperty env r signer ts s u = .ok s') :
    Stored env s' ∧ Ledger.Report env.range r signer ts (ledger env s) u (ledger env s') := by
  obtain ⟨q,hq,h⟩ := bind_eq_ok.mp h
  obtain ⟨rep,hrep,h⟩ := bind_eq_ok.mp h
  obtain ⟨_,hfixed,h⟩ := bind_eq_ok.mp h
  obtain ⟨_,htype,h⟩ := bind_eq_ok.mp h
  obtain ⟨page,hpage,h⟩ := bind_eq_ok.mp h
  obtain ⟨v,hv,h⟩ := bind_eq_ok.mp h
  obtain ⟨t,ht,h⟩ := bind_eq_ok.mp h
  have hq := found_of_expect hq
  have hpage := found_of_expect hpage
  obtain ⟨hqn,hqr⟩ := ledger_property_key hs hq
  obtain ⟨hpn,hpr⟩ := ledger_page_key hs hpage
  obtain ⟨hst,hlt⟩ := setPropertyPage_spec hs ht hpn hpr
  have hreport : Ledger.Reportable (ledger env s) r signer ts u q page v :=
    { property := hq
      reported := ⟨rep,found_of_expect hrep,hv⟩
      not_fixed := by simpa using rejectIf_eq_ok.mp hfixed
      dataType := not_not.mp (rejectIf_eq_ok.mp htype)
      page := hpage }
  by_cases hfull : (pushReportedValue page v).reportedValues.length ≥ PROPERTY_PAGE_MAX_LENGTH
  · rw [if_pos hfull] at h
    obtain ⟨next,hnext,h⟩ := bind_eq_ok.mp h
    obtain ⟨old,hold,h⟩ := bind_eq_ok.mp h
    obtain ⟨t₁,ht₁,h⟩ := bind_eq_ok.mp h
    have hold : (ledger env t).page r u.name next = old := found_of_ok hold
    -- the next page is new, or one of this property written before
    have hkey : ∀ p, old = some p → p.name = u.name ∧ env.range p.recordId = env.range r :=
      fun page₁ hp => ledger_page_key hst (hold.trans hp)
    have hcleared := clearedPage_key hkey
    obtain ⟨hst₁,hlt₁⟩ := setPropertyPage_spec hst ht₁ hcleared.1 hcleared.2
    obtain ⟨hs',hl⟩ := setProperty_spec hst₁ h hqn hqr
    refine ⟨hs',?_⟩
    rw [hl,hlt₁,← hold]
    exact .turned hreport hfull hnext hlt
  · rw [if_neg hfull] at h
    obtain rfl : t = s' := Except.ok.inj h
    rw [hlt]
    exact ⟨hst,.filed hreport (not_le.mp hfull)⟩

theorem updateProperty_fold {us : List PropertyValue} (hs : Stored env s)
    (h : us.foldlM (updateProperty env r signer ts) s = .ok s') :
    Stored env s' ∧ Ledger.Reports env.range r signer ts (ledger env s) us (ledger env s') := by
  induction us generalizing s with
  | nil =>
    rw [← foldlM_nil_eq_ok.mp h]
    exact ⟨hs,.nil⟩
  | cons u us ih =>
    obtain ⟨t,ht,htail⟩ := foldlM_cons_eq_ok.mp h
    obtain ⟨hst,hu⟩ := updateProperty_spec hs ht
    obtain ⟨hs',hus⟩ := ih hst htail
    exact ⟨hs',.cons hu hus⟩

/-- The loop over the reporters: it fails on an unauthorized entry of the key. -/
theorem revokeEntry_fold {reporterId : String} {l : List Reporter} {acc acc' : Bool × List Reporter}
    (h : l.foldlM (revokeEntry reporterId) acc = .ok acc') :
    (∀ rep ∈ l, rep.publicKey = reporterId → rep.authorized = true) ∧
      (acc'.1 = true ↔ acc.1 = true ∨ ∃ rep ∈ l, rep.publicKey = reporterId) ∧
      acc'.2 = acc.2 ++ l.map fun rep =>
        if rep.publicKey = reporterId then { rep with authorized := false } else rep := by
  induction l generalizing acc with
  | nil =>
    rw [← foldlM_nil_eq_ok.mp h]
    simp
  | cons rep l ih =>
    obtain ⟨mid,hmid,htail⟩ := foldlM_cons_eq_ok.mp h
    obtain ⟨hauth,hflag,hlist⟩ := ih htail
    by_cases hk : rep.publicKey = reporterId
    · rw [revokeEntry,if_pos hk] at hmid
      obtain ⟨_,ha,hmid⟩ := bind_eq_ok.mp hmid
      have ha : rep.authorized = true := by simpa using rejectIf_eq_ok.mp ha
      obtain rfl := Except.ok.inj hmid
      refine ⟨List.forall_mem_cons.mpr ⟨fun _ => ha,hauth⟩,?_,?_⟩
      · simp [hflag,hk]
      · simp [hlist,hk]
    · rw [revokeEntry,if_neg hk] at hmid
      obtain rfl := Except.ok.inj hmid
      refine ⟨List.forall_mem_cons.mpr ⟨fun h => absurd h hk,hauth⟩,?_,?_⟩
      · simp [hflag,hk]
      · simp [hlist,hk]

theorem revokeProperty_spec {reporterId n : String} (hs : Stored env s)
    (h : revokeProperty env r reporterId s n = .ok s') :
    ∃ q, (ledger env s).property r n = some q ∧ Ledger.Revocable reporterId q ∧ Stored env s' ∧
      ledger env s' = (ledger env s).setProperty env.range r n (Ledger.revoke reporterId q) := by
  obtain ⟨q,hq,h⟩ := bind_eq_ok.mp h
  obtain ⟨⟨revoked,newReporters⟩,hloop,h⟩ := bind_eq_ok.mp h
  obtain ⟨_,hrevoked,h⟩ := bind_eq_ok.mp h
  have hq := found_of_expect hq
  obtain ⟨hqn,hqr⟩ := ledger_property_key hs hq
  obtain ⟨hauth,hflag,hlist⟩ := revokeEntry_fold hloop
  obtain ⟨hs',hl⟩ := setProperty_spec hs h hqn hqr
  have hsome : revoked = true := by simpa using rejectIf_eq_ok.mp hrevoked
  refine ⟨q,hq,⟨by simpa using hflag.mp hsome,hauth⟩,hs',?_⟩
  rw [hl,show newReporters = _ from hlist]
  rfl

theorem not_revocable_revoke {reporterId : String} {q : Property} :
    ¬Ledger.Revocable reporterId (Ledger.revoke reporterId q) := by
  rintro ⟨⟨rep,hrep,hk⟩,hauth⟩
  have ha := hauth rep hrep hk
  obtain ⟨rep₀,_,rfl⟩ := List.mem_map.mp hrep
  by_cases hk₀ : rep₀.publicKey = reporterId
  · rw [if_pos hk₀] at ha
    exact nomatch ha
  · rw [if_neg hk₀] at hk
    exact hk₀ hk

theorem handOverProperty_spec {owner receiver : String} {col : PropertySchema} (hs : Stored env s)
    (h : handOverProperty env r owner receiver s col = .ok s') :
    ∃ q, (ledger env s).property r col.name = some q ∧ True ∧ Stored env s' ∧
      ledger env s' =
        (ledger env s).setProperty env.range r col.name (handOver owner receiver q) := by
  obtain ⟨q,hq,h⟩ := bind_eq_ok.mp h
  have hq := found_of_expect hq
  obtain ⟨hqn,hqr⟩ := ledger_property_key hs hq
  rw [hqn] at h
  obtain ⟨hs',hl⟩ := setProperty_spec hs h hqn hqr
  exact ⟨q,hq,trivial,hs',hl⟩

theorem authorizeProperty_spec {receiver n : String} (hs : Stored env s)
    (h : authorizeProperty env r receiver s n = .ok s') :
    ∃ q, (ledger env s).property r n = some q ∧ True ∧ Stored env s' ∧
      ledger env s' = (ledger env s).setProperty env.range r n (addReporter receiver q) := by
  obtain ⟨q,hq,h⟩ := bind_eq_ok.mp h
  have hq := found_of_expect hq
  obtain ⟨hqn,hqr⟩ := ledger_property_key hs hq
  obtain ⟨hs',hl⟩ := setProperty_spec hs h hqn hqr
  exact ⟨q,hq,trivial,hs',hl⟩

theorem setExchanges_spec {exchanges : List Exchange} (hs : Stored env s)
    (h : setExchanges env exchanges s = .ok s') :
    Stored env s' ∧ ledger env s' = (ledger env s).setExchanges exchanges := by
  unfold setExchanges at h
  induction exchanges generalizing s with
  | nil =>
    rw [← foldlM_nil_eq_ok.mp h]
    exact ⟨hs,rfl⟩
  | cons e exchanges ih =>
    obtain ⟨t,ht,htail⟩ := foldlM_cons_eq_ok.mp h
    obtain ⟨hst,hlt⟩ := setExchange_spec hs ht rfl
    obtain ⟨hs',hl⟩ := ih hst htail
    exact ⟨hs',by rw [hl,hlt]; rfl⟩

end Loops

section Actions

open Ledger

variable {env : Env} {orders : Orders} {s s' : State} {signer : String} {ts : Nat}

theorem createParticipant_refines {a : CreateParticipantAction} (hs : Stored env s)
    (h : createParticipant env a s signer ts = .ok s') :
    Stored env s' ∧
      Step env.range (ledger env s) ⟨signer,ts,.CreateParticipant a⟩ (ledger env s') := by
  obtain ⟨_,hnew,h⟩ := bind_eq_ok.mp h
  obtain ⟨hs',hl⟩ := setParticipant_spec hs h rfl
  rw [hl]
  exact ⟨hs',.createParticipant (found_of_absent hnew)⟩

theorem createRecord_refines {a : CreateRecordAction} (hs : Stored env s)
    (h : createRecord env orders a s signer ts = .ok s') :
    Stored env s' ∧ Step env.range (ledger env s) ⟨signer,ts,.CreateRecord a⟩ (ledger env s') := by
  obtain ⟨p,hp,h⟩ := bind_eq_ok.mp h
  obtain ⟨_,hnew,h⟩ := bind_eq_ok.mp h
  obtain ⟨t,ht,h⟩ := bind_eq_ok.mp h
  obtain ⟨_,hreq,h⟩ := bind_eq_ok.mp h
  obtain ⟨_,hprov,h⟩ := bind_eq_ok.mp h
  obtain ⟨m,hm,hloop⟩ := bind_eq_ok.mp h
  have hreq := forM_eq_ok.mp hreq
  have hprov := forM_eq_ok.mp hprov
  obtain ⟨hsm,hlm⟩ := setRecord_spec hs hm rfl
  -- whatever the order, the loop visits the entries of the schema
  have hperm := orders.tableSchema.perm (tableSchema t).entries
  have hnd := (List.perm_nodupKeys hperm).mpr (tableSchema t).nodupKeys
  obtain ⟨hs',initial,hinit,hl⟩ := initProperty_fold hnd hsm hloop
  have hlookup : ∀ n, (orders.tableSchema.order (tableSchema t).entries).dlookup n =
      (tableSchema t).lookup n := fun n => List.perm_dlookup n hnd hperm
  simp only [hlookup] at hinit hl
  rw [hl,hlm]
  refine ⟨hs',.createRecord (found_of_expect hp) (found_of_absent hnew)
    (found_of_expect ht) ?_ ?_ hinit⟩
  · intro n hn
    obtain ⟨col,hcol⟩ := AList.lookup_isSome.mpr hn |> Option.isSome_iff_exists.mp
    have hmem := (orders.requiredProperties.perm _).mem_iff.mpr (AList.mem_lookup_iff.mp hcol)
    simpa [rejectIf_eq_ok] using hreq _ hmem
  · intro n v hv
    have hmem := (orders.providedProperties.perm _).mem_iff.mpr (AList.mem_lookup_iff.mp hv)
    exact hprov _ hmem

theorem finalizeRecord_refines {a : FinalizeRecordAction} (hs : Stored env s)
    (h : finalizeRecord env a s signer = .ok s') :
    Stored env s' ∧
      Step env.range (ledger env s) ⟨signer,ts,.FinalizeRecord a⟩ (ledger env s') := by
  obtain ⟨rec,hrec,h⟩ := bind_eq_ok.mp h
  obtain ⟨o,ho,h⟩ := bind_eq_ok.mp h
  obtain ⟨c,hc,h⟩ := bind_eq_ok.mp h
  obtain ⟨_,hsigner,h⟩ := bind_eq_ok.mp h
  obtain ⟨_,hfinal,h⟩ := bind_eq_ok.mp h
  have hrec : (ledger env s).record a.recordId = some rec := found_of_expect hrec
  have hkey := ledger_record_key hrec
  obtain ⟨hos,hcs⟩ := not_or.mp (rejectIf_eq_ok.mp hsigner)
  obtain ⟨hs',hl⟩ := setRecord_spec hs h hkey
  rw [hl]
  exact ⟨hs',.finalizeRecord ⟨hrec,by simpa using rejectIf_eq_ok.mp hfinal,
    o,found_of_expect ho,not_not.mp hos⟩ (found_of_expect hc)
    (not_not.mp hcs)⟩

theorem createTable_refines {a : CreateTableAction} (hs : Stored env s)
    (h : createTable env a s signer = .ok s') :
    Stored env s' ∧ Step env.range (ledger env s) ⟨signer,ts,.CreateTable a⟩ (ledger env s') := by
  obtain ⟨_,hnew,h⟩ := bind_eq_ok.mp h
  have hnew := found_of_absent hnew
  obtain ⟨hs',hl⟩ := setTable_spec hs h rfl hnew
  rw [hl]
  exact ⟨hs',.createTable hnew⟩

theorem updateProperties_refines {a : UpdatePropertiesAction} (hs : Stored env s)
    (h : updateProperties env a s signer ts = .ok s') :
    Stored env s' ∧
      Step env.range (ledger env s) ⟨signer,ts,.UpdateProperties a⟩ (ledger env s') := by
  obtain ⟨rec,hrec,h⟩ := bind_eq_ok.mp h
  obtain ⟨_,hfinal,h⟩ := bind_eq_ok.mp h
  obtain ⟨hs',hreports⟩ := updateProperty_fold hs h
  exact ⟨hs',.updateProperties (found_of_expect hrec)
    (by simpa using rejectIf_eq_ok.mp hfinal) hreports⟩

theorem revokeReporter_refines {a : RevokeReporterAction} (hs : Stored env s)
    (h : revokeReporter env a s signer = .ok s') :
    Stored env s' ∧
      Step env.range (ledger env s) ⟨signer,ts,.RevokeReporter a⟩ (ledger env s') := by
  obtain ⟨rec,hrec,h⟩ := bind_eq_ok.mp h
  obtain ⟨o,ho,h⟩ := bind_eq_ok.mp h
  obtain ⟨_,hsigner,h⟩ := bind_eq_ok.mp h
  obtain ⟨_,hfinal,h⟩ := bind_eq_ok.mp h
  obtain ⟨hs',hl,hsome,hcheck⟩ := mapProperties_fold id
    (fun _ _ _ ht hb => revokeProperty_spec ht hb) hs h
  rw [List.map_id] at hl hsome hcheck
  rw [hl]
  refine ⟨hs',.revokeReporter ⟨found_of_expect hrec,
    by simpa using rejectIf_eq_ok.mp hfinal,o,found_of_expect ho,
    not_not.mp (rejectIf_eq_ok.mp hsigner)⟩ ?_ ?_⟩
  · -- a second occurrence would find the key's entries already unauthorized
    refine List.nodup_iff_count_le_one.mpr fun n => not_lt.mp fun htwo => ?_
    obtain ⟨q,hq⟩ := hsome n (List.count_pos_iff.mp (by omega))
    exact not_revocable_revoke (hcheck n q hq 1 htwo)
  · intro n hn
    obtain ⟨q,hq⟩ := hsome n hn
    exact ⟨q,hq,hcheck n q hq 0 (List.count_pos_iff.mpr hn)⟩

theorem proposalRecord_ok {r : String} {rec : Record}
    (h : proposalRecord env s r = .ok rec) :
    (ledger env s).record r = some rec ∧ rec.final = false := by
  obtain ⟨rec',hrec,h⟩ := bind_eq_ok.mp h
  obtain ⟨_,hfinal,h⟩ := bind_eq_ok.mp h
  obtain rfl := Except.ok.inj h
  exact ⟨found_of_expect hrec,by simpa using rejectIf_eq_ok.mp hfinal⟩

theorem createProposal_refines {a : CreateProposalAction} (hs : Stored env s)
    (h : createProposal env a s signer ts = .ok s') :
    Stored env s' ∧
      Step env.range (ledger env s) ⟨signer,ts,.CreateProposal a⟩ (ledger env s') := by
  obtain ⟨i,hi,h⟩ := bind_eq_ok.mp h
  obtain ⟨_,hreceiver,h⟩ := bind_eq_ok.mp h
  obtain ⟨_,howner,h⟩ := bind_eq_ok.mp h
  obtain ⟨_,hcustodian,h⟩ := bind_eq_ok.mp h
  obtain ⟨_,hsell,h⟩ := bind_eq_ok.mp h
  obtain ⟨_,htransfer,h⟩ := bind_eq_ok.mp h
  obtain ⟨hs',hl⟩ := setProposal_spec hs h rfl
  rw [hl]
  refine ⟨hs',.createProposal (i := i) ⟨found_of_expect hi,?_,?_,?_,?_,?_⟩⟩
  · intro hrole
    obtain ⟨p,hp,_⟩ := bind_eq_ok.mp (onlyIf_eq_ok.mp hreceiver hrole)
    exact ⟨p,found_of_expect hp⟩
  · intro hrole
    obtain ⟨rec,hrec,hcheck⟩ := bind_eq_ok.mp (onlyIf_eq_ok.mp howner hrole)
    obtain ⟨o,ho,hcheck⟩ := bind_eq_ok.mp hcheck
    obtain ⟨hrec,hfinal⟩ := proposalRecord_ok hrec
    exact ⟨rec,hrec,hfinal,o,found_of_expect ho,
      not_not.mp (rejectIf_eq_ok.mp hcheck)⟩
  · intro hrole
    obtain ⟨rec,hrec,hcheck⟩ := bind_eq_ok.mp (onlyIf_eq_ok.mp hcustodian hrole)
    obtain ⟨c,hc,hcheck⟩ := bind_eq_ok.mp hcheck
    obtain ⟨hrec,hfinal⟩ := proposalRecord_ok hrec
    exact ⟨rec,c,hrec,hfinal,found_of_expect hc,
      not_not.mp (rejectIf_eq_ok.mp hcheck)⟩
  · exact fun hrole => not_lt.mp (rejectIf_eq_ok.mp (onlyIf_eq_ok.mp hsell hrole))
  · exact fun hrole => not_lt.mp (rejectIf_eq_ok.mp (onlyIf_eq_ok.mp htransfer hrole))

section Answer

variable {a : AnswerProposalAction} {c : Proposal} {i p : Participant}

theorem autoFill_spec {status : Status} {amount : ℚ} (hs : Stored env s)
    (ha : Answers (ledger env s) signer a c i)
    (h : autoFill env a (autoExchanges a) status amount c i s signer ts = .ok s') :
    Stored env s' ∧ ledger env s' = (ledger env s).fill a c i signer ts status amount := by
  obtain ⟨t,ht,h⟩ := bind_eq_ok.mp h
  obtain ⟨t₁,ht₁,h⟩ := bind_eq_ok.mp h
  have hi := ledger_participant_key ha.registered
  have hc := ledger_proposal_key ha.proposal
  obtain ⟨hst,hlt⟩ := setParticipant_spec hs ht hi
  obtain ⟨hst₁,hlt₁⟩ := setExchanges_spec hst ht₁
  obtain ⟨hs',hl⟩ := setProposal_spec hst₁ h hc
  refine ⟨hs',?_⟩
  rw [hl,hlt₁,hlt]
  rfl

theorem autoAnswer_refines {status : Status} (hs : Stored env s)
    (ha : Answers (ledger env s) signer a c i) (hresp : autoStatus a.response = some status)
    (h : autoAnswer env a (autoExchanges a) status c i s signer ts = .ok s') :
    Stored env s' ∧
      Step env.range (ledger env s) ⟨signer,ts,.AnswerProposal a⟩ (ledger env s') := by
  rw [autoAnswer] at h
  cases hrole : a.role with
  | buyDGC =>
    rw [hrole] at h
    obtain ⟨hs',hl⟩ := autoFill_spec hs ha h
    rw [hl]
    exact ⟨hs',.autoBuy ha hresp hrole⟩
  | sellDGC =>
    rw [hrole] at h
    obtain ⟨_,hfunds,h⟩ := bind_eq_ok.mp h
    obtain ⟨hs',hl⟩ := autoFill_spec hs ha h
    rw [hl]
    exact ⟨hs',.autoSell ha hresp hrole (not_lt.mp (rejectIf_eq_ok.mp hfunds))⟩
  | transferOwnership | transferCustodianship | authorizeReporter | creditDGC | transferDGC =>
    rw [hrole] at h
    obtain rfl := Except.ok.inj h
    exact ⟨hs,.autoIdle ha hresp (by rw [hrole]; decide) (by rw [hrole]; decide)⟩

theorem acceptCredit_refines (hs : Stored env s) (ha : Accepts (ledger env s) signer a c i p)
    (hrole : a.role = .creditDGC) (h : acceptCredit env a c p s ts = .ok s') :
    Stored env s' ∧
      Step env.range (ledger env s) ⟨signer,ts,.AnswerProposal a⟩ (ledger env s') := by
  obtain ⟨t,ht,h⟩ := bind_eq_ok.mp h
  have hp := ledger_participant_key ha.participant
  have hc := ledger_proposal_key ha.proposal
  obtain ⟨hst,hlt⟩ := setParticipant_spec hs ht hp
  obtain ⟨hs',hl⟩ := setProposal_spec hst h hc
  rw [hl,hlt]
  exact ⟨hs',.acceptCredit ha hrole⟩

theorem acceptTransfer_refines (hs : Stored env s) (ha : Accepts (ledger env s) signer a c i p)
    (hrole : a.role = .transferDGC) (h : acceptTransfer env a c i p s signer ts = .ok s') :
    Stored env s' ∧
      Step env.range (ledger env s) ⟨signer,ts,.AnswerProposal a⟩ (ledger env s') := by
  obtain ⟨_,hfunds,h⟩ := bind_eq_ok.mp h
  obtain ⟨t,ht,h⟩ := bind_eq_ok.mp h
  obtain ⟨t₁,ht₁,h⟩ := bind_eq_ok.mp h
  have hi := ledger_participant_key ha.registered
  have hp := ledger_participant_key ha.participant
  have hc := ledger_proposal_key ha.proposal
  obtain ⟨hst,hlt⟩ := setParticipant_spec hs ht hi
  obtain ⟨hst₁,hlt₁⟩ := setParticipant_spec hst ht₁ hp
  obtain ⟨hs',hl⟩ := setProposal_spec hst₁ h hc
  rw [hl,hlt₁,hlt]
  exact ⟨hs',.acceptTransfer ha hrole (not_lt.mp (rejectIf_eq_ok.mp hfunds))⟩

theorem acceptOwnership_refines (hs : Stored env s)
    (ha : Accepts (ledger env s) signer a c i p) (hrole : a.role = .transferOwnership)
    (h : acceptOwnership env a c s ts = .ok s') :
    Stored env s' ∧
      Step env.range (ledger env s) ⟨signer,ts,.AnswerProposal a⟩ (ledger env s') := by
  obtain ⟨rec,hrec,h⟩ := bind_eq_ok.mp h
  obtain ⟨o,ho,h⟩ := bind_eq_ok.mp h
  obtain ⟨m,hm,h⟩ := bind_eq_ok.mp h
  obtain ⟨t,ht,h⟩ := bind_eq_ok.mp h
  obtain ⟨m₁,hloop,h⟩ := bind_eq_ok.mp h
  have hrec : (ledger env s).record a.recordId = some rec := found_of_expect hrec
  have hkey := ledger_record_key hrec
  have hc := ledger_proposal_key ha.proposal
  obtain ⟨hsm,hlm⟩ := setRecord_spec hs hm hkey
  have ht : (ledger env m).table rec.table = some t := found_of_expect ht
  -- the loop checks nothing about a property, `True` is its guard
  obtain ⟨hsm₁,hlm₁,hsome,_⟩ := mapProperties_fold PropertySchema.name
    (fun _ _ _ hst hb => handOverProperty_spec hst hb) hsm hloop
  obtain ⟨hs',hl⟩ := setProposal_spec hsm₁ h hc
  rw [hlm] at ht hsome
  rw [hl,hlm₁,hlm]
  exact ⟨hs',.acceptOwnership ha hrole hrec (found_of_expect ho) ht
    fun col hcol => hsome col.name (List.mem_map_of_mem hcol)⟩

theorem acceptCustodianship_refines (hs : Stored env s)
    (ha : Accepts (ledger env s) signer a c i p) (hrole : a.role = .transferCustodianship)
    (h : acceptCustodianship env a c s ts = .ok s') :
    Stored env s' ∧
      Step env.range (ledger env s) ⟨signer,ts,.AnswerProposal a⟩ (ledger env s') := by
  obtain ⟨rec,hrec,h⟩ := bind_eq_ok.mp h
  obtain ⟨o,ho,h⟩ := bind_eq_ok.mp h
  obtain ⟨m,hm,h⟩ := bind_eq_ok.mp h
  have hrec : (ledger env s).record a.recordId = some rec := found_of_expect hrec
  have hkey := ledger_record_key hrec
  have hc := ledger_proposal_key ha.proposal
  obtain ⟨hsm,hlm⟩ := setRecord_spec hs hm hkey
  obtain ⟨hs',hl⟩ := setProposal_spec hsm h hc
  rw [hl,hlm]
  exact ⟨hs',.acceptCustodianship ha hrole hrec (found_of_expect ho)⟩

theorem acceptReporter_refines (hs : Stored env s)
    (ha : Accepts (ledger env s) signer a c i p) (hrole : a.role = .authorizeReporter)
    (h : acceptReporter env a c s = .ok s') :
    Stored env s' ∧
      Step env.range (ledger env s) ⟨signer,ts,.AnswerProposal a⟩ (ledger env s') := by
  obtain ⟨rec,hrec,h⟩ := bind_eq_ok.mp h
  obtain ⟨o,ho,h⟩ := bind_eq_ok.mp h
  obtain ⟨m,hloop,h⟩ := bind_eq_ok.mp h
  have hc := ledger_proposal_key ha.proposal
  obtain ⟨hsm,hlm,hsome,_⟩ := mapProperties_fold id
    (fun _ _ _ hst hb => authorizeProperty_spec hst hb) hs hloop
  obtain ⟨hs',hl⟩ := setProposal_spec hsm h hc
  rw [List.map_id] at hlm hsome
  rw [hl,hlm]
  exact ⟨hs',.acceptReporter ha hrole (found_of_expect hrec)
    (found_of_expect ho) hsome⟩

theorem acceptProposal_refines (hs : Stored env s) (ha : Answers (ledger env s) signer a c i)
    (hresp : a.response = .ACCEPT) (h : acceptProposal env a c i s signer ts = .ok s') :
    Stored env s' ∧
      Step env.range (ledger env s) ⟨signer,ts,.AnswerProposal a⟩ (ledger env s') := by
  obtain ⟨_,hreceiver,h⟩ := bind_eq_ok.mp h
  obtain ⟨p,hp,h⟩ := bind_eq_ok.mp h
  have hacc : Accepts (ledger env s) signer a c i p :=
    ⟨ha,hresp,not_not.mp (rejectIf_eq_ok.mp hreceiver),found_of_expect hp⟩
  cases hrole : a.role with
  | creditDGC =>
    rw [hrole] at h
    exact acceptCredit_refines hs hacc hrole h
  | buyDGC =>
    rw [hrole] at h
    obtain rfl := Except.ok.inj h
    exact ⟨hs,.acceptIdle hacc (Or.inl hrole)⟩
  | sellDGC =>
    rw [hrole] at h
    obtain rfl := Except.ok.inj h
    exact ⟨hs,.acceptIdle hacc (Or.inr hrole)⟩
  | transferDGC =>
    rw [hrole] at h
    exact acceptTransfer_refines hs hacc hrole h
  | transferOwnership =>
    rw [hrole] at h
    exact acceptOwnership_refines hs hacc hrole h
  | transferCustodianship =>
    rw [hrole] at h
    exact acceptCustodianship_refines hs hacc hrole h
  | authorizeReporter =>
    rw [hrole] at h
    exact acceptReporter_refines hs hacc hrole h

theorem answerProposal_refines (hs : Stored env s)
    (h : answerProposal env a s signer ts = .ok s') :
    Stored env s' ∧
      Step env.range (ledger env s) ⟨signer,ts,.AnswerProposal a⟩ (ledger env s') := by
  obtain ⟨c,hc,h⟩ := bind_eq_ok.mp h
  obtain ⟨i,hi,h⟩ := bind_eq_ok.mp h
  have ha : Answers (ledger env s) signer a c i :=
    ⟨found_of_expect hc,found_of_expect hi⟩
  have hkey := ledger_proposal_key ha.proposal
  cases hresp : a.response with
  | CANCEL =>
    rw [hresp] at h
    obtain ⟨_,hissuer,h⟩ := bind_eq_ok.mp h
    obtain ⟨hs',hl⟩ := setProposal_spec hs h hkey
    rw [hl]
    exact ⟨hs',.cancel ha hresp (not_not.mp (rejectIf_eq_ok.mp hissuer))⟩
  | REJECT =>
    rw [hresp] at h
    obtain ⟨_,hreceiver,h⟩ := bind_eq_ok.mp h
    obtain ⟨hs',hl⟩ := setProposal_spec hs h hkey
    rw [hl]
    exact ⟨hs',.reject ha hresp (not_not.mp (rejectIf_eq_ok.mp hreceiver))⟩
  | autoOPEN =>
    rw [hresp] at h
    have hex : autoExchanges a = [] := by simp [autoExchanges,hresp]
    exact autoAnswer_refines hs ha (by rw [hresp]; rfl) (hex ▸ h)
  | autoCLOSE =>
    rw [hresp] at h
    have hex : autoExchanges a = a.exchanges := by simp [autoExchanges,hresp]
    exact autoAnswer_refines hs ha (by rw [hresp]; rfl) (hex ▸ h)
  | ACCEPT =>
    rw [hresp] at h
    exact acceptProposal_refines hs ha hresp h

end Answer

/-- An action that succeeds keeps the state stored and is one step of the ledger. -/
theorem dispatch_refines {tx : Tx} (hs : Stored env s)
    (h : dispatch env orders { action := tx.action, timestamp := tx.timestamp } s tx.signer =
      .ok s') : Stored env s' ∧ Step env.range (ledger env s) tx (ledger env s') := by
  obtain ⟨signer,ts,action⟩ := tx
  cases action with
  | CreateParticipant a => exact createParticipant_refines hs h
  | CreateRecord a => exact createRecord_refines hs h
  | FinalizeRecord a => exact finalizeRecord_refines hs h
  | CreateTable a => exact createTable_refines hs h
  | UpdateProperties a => exact updateProperties_refines hs h
  | CreateProposal a => exact createProposal_refines hs h
  | AnswerProposal a => exact answerProposal_refines hs h
  | RevokeReporter a => exact revokeReporter_refines hs h

/-- An accepted transaction keeps the state stored and is one step of the ledger. -/
theorem accepted_refines {tx : Tx} (hs : Stored env s) (h : Accepted env s tx s') :
    Stored env s' ∧ Step env.range (ledger env s) tx (ledger env s') :=
  (accepted_dispatch h).elim fun _ hd => dispatch_refines hs hd

end Actions

/-- The history of a run with every state replaced by its ledger. -/
def ledgers (env : Env) (h : List (State × Tx)) : List (Ledger × Tx) :=
  h.map (Prod.map (ledger env) id)

/-- A run of the handler is a run of the ledger. -/
theorem run_refines {env : Env} {h : List (State × Tx)} {s s' : State} (hs : Stored env s)
    (hr : Run (Accepted env) s h s') : Stored env s' ∧
      Run (Ledger.Step env.range) (ledger env s) (ledgers env h) (ledger env s') :=
  hr.map (ledger env) (Stored env) (fun _ _ _ hs hstep => (accepted_refines hs hstep).1)
    (fun _ _ _ hs hstep => (accepted_refines hs hstep).2) hs

theorem reachable_refines {env : Env} {h : List (State × Tx)} {s : State}
    (hr : Reachable env h s) :
    Stored env s ∧ Run (Ledger.Step env.range) Ledger.empty (ledgers env h) (ledger env s) :=
  run_refines (stored_empty env) hr

/-- Statements about every step and every state of a run carry over. -/
theorem forall_ledgers {env : Env} {h : List (State × Tx)} {P : Ledger × Tx → Prop} :
    (∀ e ∈ ledgers env h, P e) ↔ ∀ e ∈ h, P (ledger env e.1,e.2) := by
  rw [ledgers,List.forall_mem_map]
  rfl

theorem states_ledgers {env : Env} {h : List (State × Tx)} {s : State} :
    Run.states (ledgers env h) (ledger env s) = (Run.states h s).map (ledger env) := by
  simp [Run.states,ledgers]

theorem steps_ledgers {env : Env} {h : List (State × Tx)} {s : State} :
    Run.steps (ledgers env h) (ledger env s) =
      (Run.steps h s).map fun e => (ledger env e.1,e.2.1,ledger env e.2.2) := by
  induction h generalizing s with
  | nil => rfl
  | cons e h ih => exact congrArg _ ih

/-- In a reachable run the states have a property exactly when the steps meet a condition,
given that the property comes to an invariant of the ledger which a step keeps exactly when it
meets the condition. -/
theorem reachable_states_iff {env : Env} {P : State → Prop} {I : Ledger → Prop}
    {Q : Ledger × Tx → Prop}
    (hstep : ∀ L tx L', I L → Ledger.Step env.range L tx L' → (I L' ↔ Q (L,tx)))
    (hempty : I Ledger.empty) {h : List (State × Tx)} {s : State}
    (hP : ∀ h', ∀ x ∈ Run.states h s, Reachable env h' x → (P x ↔ I (ledger env x)))
    (hr : Reachable env h s) : (∀ x ∈ Run.states h s, P x) ↔ ∀ e ∈ h, Q (ledger env e.1,e.2) := by
  have hiff := Run.states_iff I Q hstep hempty (reachable_refines hr).2
  rw [forall_ledgers,states_ledgers,List.forall_mem_map] at hiff
  rw [← hiff]
  refine forall₂_congr fun x hx => ?_
  obtain ⟨h',hr'⟩ := hr.of_states hx
  exact hP h' x hx hr'

end DgcRestApi
