import DgcRestApi.Ledger.Growth
import Mathlib.Data.List.Induction

/-!
# Referential integrity

Every reference in the ledger leads somewhere. `Sound` collects what holds whatever the
digest does; that every record has the properties of its table, and that every page belongs
to one of them, needs the records to have distinct address ranges.
-/

namespace DgcRestApi

/-- The schema entry of a name, the last one when the table lists it twice. -/
def Table.entry (t : Table) (n : String) : Option PropertySchema :=
  (t.properties.filter fun col => col.name = n).getLast?

/-- The part of a schema entry that its properties carry. -/
def PropertySchema.stored (col : PropertySchema) : PropertySchema :=
  { col with required := false, delayed := false }

theorem insertByName_lookup {α : Type} (name : α → String) (l : List α) (n : String) :
    (insertByName name l).lookup n = (l.filter fun a => name a = n).getLast? := by
  induction l using List.reverseRecOn with
  | nil => rfl
  | append_singleton l a ih =>
    unfold insertByName at *
    rw [List.foldl_append,List.foldl_cons,List.foldl_nil,List.filter_append]
    by_cases hn : name a = n
    · subst hn
      simp
    · rw [AList.lookup_insert_ne (Ne.symm hn),ih]
      simp [hn]

@[simp] theorem tableSchema_lookup (t : Table) (n : String) :
    (tableSchema t).lookup n = t.entry n := insertByName_lookup ..

theorem Table.entry_name {t : Table} {n : String} {col : PropertySchema}
    (h : t.entry n = some col) : col ∈ t.properties ∧ col.name = n := by
  have hmem := List.mem_filter.mp (List.mem_of_getLast? h)
  exact ⟨hmem.1,by simpa using hmem.2⟩

theorem Table.entry_of_mem {t : Table} {col : PropertySchema} (h : col ∈ t.properties) :
    ∃ col', t.entry col.name = some col' := by
  cases he : t.entry col.name with
  | some col' => exact ⟨col',rfl⟩
  | none =>
    have := List.filter_eq_nil_iff.mp (List.getLast?_eq_none_iff.mp he) col h
    simp at this

namespace Ledger

variable {range : String → Address} {L L' : Ledger} {tx : Tx} {h : List (Ledger × Tx)}

/-- The owners and custodians of the record are registered, there is at least one of each,
and its table exists. -/
structure RecordSound (L : Ledger) (rec : Record) : Prop where
  owners_ne : rec.owners ≠ []
  custodians_ne : rec.custodians ≠ []
  owners : ∀ o ∈ rec.owners, L.Registered o.participantId
  custodians : ∀ c ∈ rec.custodians, L.Registered c.participantId
  table : ∃ t, L.table rec.table = some t

/-- The name is one of the table of the record. -/
def Listed (L : Ledger) (r n : String) : Prop :=
  ∃ rec t col, L.record r = some rec ∧ L.table rec.table = some t ∧ t.entry n = some col

structure Sound (L : Ledger) : Prop where
  record : ∀ r rec, L.record r = some rec → RecordSound L rec
  reporters : ∀ r n q, L.property r n = some q →
    ∀ rep ∈ q.reporters, L.Registered rep.publicKey
  paged : ∀ r n q, L.property r n = some q → ∃ page, L.page r n q.currentPage = some page
  listed : ∀ r n q, L.property r n = some q → Listed L q.recordId q.name

theorem sound_empty : Sound empty where
  record _ _ hrec := nomatch hrec
  reporters _ _ _ hq := nomatch hq
  paged _ _ _ hq := nomatch hq
  listed _ _ _ hq := nomatch hq

theorem Registered.grown (hg : Grown Participant.Extends L.participant L'.participant)
    {k : String} (hk : L.Registered k) : L'.Registered k := by
  obtain ⟨p,hp⟩ := hk
  obtain ⟨p',hp',_⟩ := hg k p hp
  exact ⟨p',hp'⟩

theorem Listed.grown (hrec : Grown Record.Extends L.record L'.record)
    (ht : Grown Eq L.table L'.table) {r n : String} (hl : Listed L r n) : Listed L' r n := by
  obtain ⟨rec,t,col,hr,htab,he⟩ := hl
  obtain ⟨rec',hr',hext⟩ := hrec r rec hr
  obtain ⟨t',ht',rfl⟩ := ht _ t htab
  exact ⟨rec',t,col,hr',by rw [hext.table,ht'],he⟩

/-- Records grow by registered owners and custodians only. -/
theorem RecordSound.grown (hp : Grown Participant.Extends L.participant L'.participant)
    (ht : Grown Eq L.table L'.table) {rec rec' : Record} (hs : RecordSound L rec)
    (howners : ∀ o ∈ rec'.owners, o ∈ rec.owners ∨ L.Registered o.participantId)
    (hcustodians : ∀ c ∈ rec'.custodians, c ∈ rec.custodians ∨ L.Registered c.participantId)
    (hext : rec.Extends rec') : RecordSound L' rec' where
  owners_ne he := hs.owners_ne (List.prefix_nil.mp (he ▸ hext.owners))
  custodians_ne he := hs.custodians_ne (List.prefix_nil.mp (he ▸ hext.custodians))
  owners o ho := ((howners o ho).elim (hs.owners o) id).grown hp
  custodians c hc := ((hcustodians c hc).elim (hs.custodians c) id).grown hp
  table := by
    obtain ⟨t,htab⟩ := hs.table
    obtain ⟨t',ht',_⟩ := ht _ t htab
    exact ⟨t',by rw [hext.table,ht']⟩

theorem Step.record_sound (hs : Sound L) (hstep : Step range L tx L') {r : String}
    {rec : Record} (hrec : L'.record r = some rec) : RecordSound L' rec := by
  rcases hstep.record_cases hrec with ⟨signer,ts,a,t,_,_,hcr,_,rfl⟩ | ⟨rec₀,hrec₀,hext,ho,hc⟩
  · have hk' := hcr.registered.grown hstep.participant_grown
    obtain ⟨t',ht',_⟩ := hstep.table_grown _ t hcr.table
    have hall : ∀ o ∈ (newRecord a signer ts).owners, L'.Registered o.participantId := by
      intro o ho
      rw [List.mem_singleton.mp ho]
      exact hk'
    exact ⟨List.cons_ne_nil _ _,List.cons_ne_nil _ _,hall,hall,t',ht'⟩
  · exact (hs.record r rec₀ hrec₀).grown hstep.participant_grown hstep.table_grown ho hc hext

theorem Evolves.registered {q q' : Property} (hq : ∀ rep ∈ q.reporters, L.Registered rep.publicKey)
    (hev : Evolves L.Registered q q') : ∀ rep ∈ q'.reporters, L.Registered rep.publicKey := by
  induction hev with
  | refl => exact hq
  | tail _ ht ih =>
    obtain ⟨_,f,hf,added,hreporters,hadded⟩ := ht.spec
    intro rep hrep
    rw [hreporters] at hrep
    rcases List.mem_append.mp hrep with hrep | hrep
    · obtain ⟨rep₀,hrep₀,rfl⟩ := List.mem_map.mp hrep
      rw [(hf rep₀).1]
      exact ih rep₀ hrep₀
    · rcases hadded with rfl | ⟨receiver,hreg,rfl⟩
      · exact nomatch hrep
      · rw [List.mem_singleton.mp hrep]
        exact hreg

theorem Step.reporters_registered (hL : Homed range L) (hs : Sound L)
    (hstep : Step range L tx L') (r n : String) (q : Property)
    (hq : L'.property r n = some q) : ∀ rep ∈ q.reporters, L'.Registered rep.publicKey := by
  refine hstep.property_invariant (fun L q => ∀ rep ∈ q.reporters, L.Registered rep.publicKey)
    hL ?_ ?_ ?_ hs.reporters r n q hq
  · intro signer ts a t initial n col _ hc _ rep hrep
    rw [List.mem_singleton.mp hrep]
    exact hc.registered.grown hstep.participant_grown
  · intro q q' hP hturn rep hrep
    rw [hturn] at hrep
    exact (hP rep hrep).grown hstep.participant_grown
  · intro q q' hP hev rep hrep
    exact (Evolves.registered hP hev rep hrep).grown hstep.participant_grown

theorem Step.listed (hL : Homed range L) (hs : Sound L) (hstep : Step range L tx L')
    (r n : String) (q : Property) (hq : L'.property r n = some q) :
    Listed L' q.recordId q.name := by
  refine hstep.property_invariant (fun L q => Listed L q.recordId q.name) hL ?_ ?_ ?_
    hs.listed r n q hq
  · intro signer ts a t initial n col _ hc hcol
    rw [tableSchema_lookup] at hcol
    refine ⟨newRecord a signer ts,t,col,hc.new_record,?_,hcol⟩
    rw [hc.eq]
    exact hc.table
  · intro q q' hP hturn
    rw [hturn]
    exact Listed.grown hstep.record_grown hstep.table_grown hP
  · intro q q' hP hev
    rw [hev.eq]
    exact Listed.grown hstep.record_grown hstep.table_grown hP

/-- A page after the creation of a record is an old one, or the first page of a property. -/
theorem Created.page_cases {signer : String} {ts : Nat} {a : CreateRecordAction} {t : Table}
    {initial : String → List ReportedValue} (hc : Created range L signer ts a t initial L')
    {r n : String} {k : Nat} {page : PropertyPage} (hpage : L'.page r n k = some page) :
    L.page r n k = some page ∨ range r = range a.recordId ∧
      page = { name := n, recordId := a.recordId, reportedValues := initial n } ∧
      ∃ col, t.entry n = some col := by
  rw [hc.eq,initProperties_page] at hpage
  split at hpage
  · next hhit =>
    obtain ⟨col,hcol⟩ := Option.isSome_iff_exists.mp (Option.isSome_map ▸ hhit.2.1)
    rw [tableSchema_lookup] at hcol
    exact Or.inr ⟨hhit.1,(Option.some.inj hpage).symm,col,hcol⟩
  · exact Or.inl hpage

/-- Every property has a page at its current number. -/
def Paged (L : Ledger) : Prop :=
  ∀ r n q, L.property r n = some q → ∃ page, L.page r n q.currentPage = some page

theorem setPage_exists {r n r' n' : String} {k k' : Nat} {page : PropertyPage}
    (hpage : ∃ p, L.page r' n' k' = some p) :
    ∃ p, (L.setPage range r n k page).page r' n' k' = some p := by
  rw [setPage_page]
  split
  · exact ⟨page,rfl⟩
  · exact hpage

theorem Report.paged {r signer : String} {ts : Nat} {u : PropertyValue} (hP : Paged L)
    (hu : Report range r signer ts L u L') : Paged L' := by
  intro r' n' q' hq'
  cases hu with
  | filed hrep => exact setPage_exists (hP r' n' q' hq')
  | @turned L₁ _ q _ _ next hrep _ _ hL₁ =>
    subst hL₁
    rw [setProperty_property] at hq'
    split at hq'
    · next hhit =>
      obtain rfl := Option.some.inj hq'
      rw [setProperty_page,setPage_page,if_pos ⟨hhit.1,hhit.2,rfl⟩]
      exact ⟨_,rfl⟩
    · exact setPage_exists (setPage_exists (hP r' n' q' hq'))

theorem Step.paged (hP : Paged L) (hstep : Step range L tx L') : Paged L' := by
  rcases hstep.property_cases with ⟨signer,ts,a,t,initial,_,hc⟩ | ⟨_,_,_,_,_,_,_,hus⟩ |
      ⟨_,_,hpage,hprop⟩
  · intro r n q hq
    rw [hc.eq,initProperties_property] at hq
    rw [hc.eq,initProperties_page]
    split at hq
    · next hhit =>
      obtain ⟨col,_,rfl⟩ := Option.map_eq_some_iff.mp hq
      exact ⟨_,if_pos ⟨hhit.1,hhit.2,rfl⟩⟩
    · next hmiss =>
      -- what the creation does not write has its old page
      obtain ⟨page,hpg⟩ := hP r n q hq
      exact ⟨page,by rw [if_neg fun h => hmiss ⟨h.1,h.2.1⟩]; exact hpg⟩
  · exact hus.invariant Paged (fun _ _ _ _ hP hu => hu.paged hP) hP
  · intro r n q' hq'
    obtain ⟨q,hq,hev⟩ := rel_some_right (hq' ▸ hprop r n)
    rw [hpage,hev.eq]
    exact hP r n q hq

theorem Step.sound (hL : Homed range L) (hs : Sound L) (hstep : Step range L tx L') :
    Sound L' where
  record _ _ hrec := hstep.record_sound hs hrec
  reporters := hstep.reporters_registered hL hs
  paged := hstep.paged hs.paged
  listed := hstep.listed hL hs

theorem run_sound (hr : Run (Step range) empty h L) : Sound L := by
  have hboth := hr.invariant (fun L => Homed range L ∧ Sound L)
    (fun _ _ _ hP hstep => ⟨hstep.homed hP.1,hstep.sound hP.1 hP.2⟩) ⟨homed_empty,sound_empty⟩
  exact hboth.2

/-! ## With distinct ranges -/

/-- Every property names a record and one of the names of its table. -/
def PropertiesListed (L : Ledger) : Prop :=
  ∀ r n q, L.property r n = some q → Listed L q.recordId q.name

theorem Report.propertiesListed {r signer : String} {ts : Nat} {u : PropertyValue}
    (hL : Homed range L) (hQ : PropertiesListed L) (hu : Report range r signer ts L u L') :
    PropertiesListed L' := by
  intro r' n q' hq'
  obtain ⟨q,hq,hturned⟩ := rel_some_right (hq' ▸ hu.turned_property hL r' n)
  have hlisted := hQ r' n q hq
  rw [hturned]
  rw [Listed,hu.framed.record,hu.framed.table]
  exact hlisted

/-- Every page names a record and one of the names of its table. -/
def PagesListed (L : Ledger) : Prop :=
  ∀ r n k page, L.page r n k = some page → Listed L page.recordId page.name

theorem PagesListed.setPage (hP : PagesListed L) {r n : String} {k : Nat} {page : PropertyPage}
    (hpage : Listed L page.recordId page.name) : PagesListed (L.setPage range r n k page) := by
  intro r' n' k' page' hp
  rw [setPage_page] at hp
  split at hp
  · exact Option.some.inj hp ▸ hpage
  · exact hP _ _ _ _ hp

theorem Report.pagesListed {r signer : String} {ts : Nat} {u : PropertyValue}
    (hL : Homed range L) (hd : DistinctRanges range L) (hr : ∃ rec, L.record r = some rec)
    (hQ : PropertiesListed L) (hP : PagesListed L) (hu : Report range r signer ts L u L') :
    PagesListed L' := by
  cases hu with
  | filed hrep =>
    have hold := hP _ _ _ _ hrep.page
    exact hP.setPage hold
  | @turned L₁ _ q page v next hrep _ _ hL₁ =>
    have hold := hP _ _ _ _ hrep.page
    have h₁ : PagesListed L₁ := by
      rw [hL₁]
      exact hP.setPage hold
    refine h₁.setPage ?_
    cases hnext : L₁.page r u.name next with
    | some old =>
      have hlisted := h₁ _ _ _ _ hnext
      exact hlisted
    | none =>
      -- a new page names the record of the transaction, which is the property's own
      obtain ⟨hn,hrange,rec,hrec⟩ := hL.property _ _ _ hrep.property
      obtain ⟨rec',hrec'⟩ := hr
      have hlisted := hQ _ _ _ hrep.property
      rw [hd _ _ _ _ hrec hrec' hrange,hn] at hlisted
      rw [hL₁]
      exact hlisted

theorem Reports.pagesListed {r signer : String} {ts : Nat} {us : List PropertyValue}
    (hL : Homed range L) (hd : DistinctRanges range L) (hr : ∃ rec, L.record r = some rec)
    (hQ : PropertiesListed L) (hP : PagesListed L) (hus : Reports range r signer ts L us L') :
    PagesListed L' := by
  induction hus with
  | nil => exact hP
  | cons hu _ ih =>
    have hrec := hu.framed.record
    refine ih (hL.report hr hu) ?_ (hrec ▸ hr) (hu.propertiesListed hL hQ)
      (hu.pagesListed hL hd hr hQ hP)
    rw [DistinctRanges,hrec]
    exact hd

/-- Every record has its own property for each name of its table, and every page belongs to
a property that is listed. -/
structure Complete (L : Ledger) : Prop where
  property : ∀ r rec t n col, L.record r = some rec → L.table rec.table = some t →
    t.entry n = some col → ∃ q, L.property r n = some q ∧ q.recordId = r ∧ q.schema = col.stored
  pages : PagesListed L

theorem complete_empty : Complete empty := ⟨nofun,nofun⟩

/-- A property that is there before the step is there, with record and schema, after it. -/
theorem Grows.property_kept (hg : Grows L L') {r n : String} {col : PropertySchema}
    (hq : ∃ q, L.property r n = some q ∧ q.recordId = r ∧ q.schema = col.stored) :
    ∃ q, L'.property r n = some q ∧ q.recordId = r ∧ q.schema = col.stored := by
  obtain ⟨q,hq,hr,hschema⟩ := hq
  obtain ⟨q',hq',hext⟩ := hg.properties r n q hq
  exact ⟨q',hq',hext.recordId.trans hr,hext.schema.trans hschema⟩

theorem newProperty_schema {r signer n : String} {t : Table} {col : PropertySchema}
    (hcol : t.entry n = some col) : (newProperty r signer n col).schema = col.stored := by
  obtain ⟨_,rfl⟩ := Table.entry_name hcol
  rfl

theorem Step.complete (hL : Homed range L) (hs : Sound L) (hd : DistinctRanges range L')
    (hc : Complete L) (hstep : Step range L tx L') : Complete L' where
  property r rec t n col hrec ht hcol := by
    have hg := hstep.grows hL hd
    rcases hstep.record_cases hrec with ⟨signer,ts,a,t₀,_,_,hcr,rfl,rfl⟩ | ⟨rec₀,hrec₀,hext,_,_⟩
    · rw [hcr.eq] at ht ⊢
      obtain rfl : t₀ = t := Option.some.inj (hcr.table.symm.trans ht)
      refine ⟨newProperty a.recordId signer n col,?_,rfl,newProperty_schema hcol⟩
      simp [hcol]
    · -- an old record keeps its table, and the table its entries
      obtain ⟨t₀,ht₀⟩ := (hs.record r rec₀ hrec₀).table
      obtain ⟨t₁,ht₁,rfl⟩ := hg.tables _ _ ht₀
      rw [hext.table,ht₁] at ht
      obtain rfl := Option.some.inj ht
      exact hg.property_kept (hc.property r rec₀ t₀ n col hrec₀ ht₀ hcol)
  pages := by
    rcases hstep.property_cases with ⟨signer,ts,a,t,initial,_,hcr⟩ |
        ⟨signer,ts,a,rec,_,hrec,_,hus⟩ | ⟨_,_,hpage,_⟩
    · intro r n k page hp
      rcases hcr.page_cases hp with hp | ⟨_,rfl,col,hcol⟩
      · exact (hc.pages r n k page hp).grown hstep.record_grown hstep.table_grown
      · refine ⟨newRecord a signer ts,t,col,hcr.new_record,?_,hcol⟩
        rw [hcr.eq]
        exact hcr.table
    · have hd₀ := hd.of_grown hstep.record_grown
      exact hus.pagesListed hL hd₀ ⟨rec,hrec⟩ hs.listed hc.pages
    · intro r n k page hp
      rw [hpage] at hp
      exact (hc.pages r n k page hp).grown hstep.record_grown hstep.table_grown

theorem run_complete (hd : DistinctRanges range L) (hr : Run (Step range) empty h L) :
    Complete L := by
  induction hr with
  | nil => exact complete_empty
  | snoc hr hstep ih =>
    exact hstep.complete (run_homed homed_empty hr) (run_sound hr) hd
      (ih (hd.of_grown hstep.record_grown))

theorem Reportable.signer_registered {r signer : String} {ts : Nat} {u : PropertyValue}
    {q : Property} {page : PropertyPage} {v : ReportedValue} (hs : Sound L)
    (hrep : Reportable L r signer ts u q page v) : L.Registered signer := by
  obtain ⟨rep,hfind,_⟩ := hrep.reported
  obtain ⟨hmem,rfl,_⟩ := authorizedReporter_eq_some hfind
  exact hs.reporters _ _ _ hrep.property rep hmem

theorem Reports.signer_registered {r signer : String} {ts : Nat} {us : List PropertyValue}
    (hs : Sound L) (hus : Reports range r signer ts L us L') (hne : us ≠ []) :
    L.Registered signer := by
  cases hus with
  | nil => exact absurd rfl hne
  | cons hu _ =>
    cases hu with
    | filed hrep => exact hrep.signer_registered hs
    | turned hrep => exact hrep.signer_registered hs

theorem OwnedBy.signer_registered {r signer : String} {rec : Record} (hs : Sound L)
    (howned : OwnedBy L r signer rec) : L.Registered signer := by
  obtain ⟨o,ho,rfl⟩ := howned.owner
  exact (hs.record r rec howned.record).owners o (List.mem_of_getLast? ho)

/-- The signer of a finalization, of a revocation and of a transaction with an update is
registered. -/
theorem Step.signer_registered (hs : Sound L) (hstep : Step range L tx L') :
    (∀ a, tx.action = .FinalizeRecord a → L.Registered tx.signer) ∧
    (∀ a, tx.action = .RevokeReporter a → L.Registered tx.signer) ∧
      ∀ a, tx.action = .UpdateProperties a → a.properties ≠ [] → L.Registered tx.signer := by
  cases hstep with
  | finalizeRecord howned => exact ⟨fun _ _ => howned.signer_registered hs,nofun,nofun⟩
  | revokeReporter howned => exact ⟨nofun,fun _ _ => howned.signer_registered hs,nofun⟩
  | updateProperties _ _ hreports =>
    refine ⟨nofun,nofun,fun a ha hne => ?_⟩
    cases ha
    exact hreports.signer_registered hs hne
  | _ => exact ⟨nofun,nofun,nofun⟩

end Ledger

end DgcRestApi
