import DgcRestApi.Ledger.Defs

/-!
# Reading the ledger off the state

`ledger` asks the getters of the handler. In a stored state every container was serialized,
has distinct keys and holds only entries whose address is its own; there each setter that
succeeds is one update of the ledger, whatever the digest does.
-/

namespace DgcRestApi
open Addressing Fallible Keyed

section Lookup

variable {α β κ ι : Type} [LinearOrder κ] [LinearOrder ι] {K : Kind α κ} {K' : Kind β ι}
variable {env : Env} {s s' : State} {A A' : Address} {k : κ} {e : α} {es : List α}

/-- The entry with key `k` at an address, if the container there is of the kind and has one. -/
def lookupEntry (K : Kind α κ) (s : State) (A : Address) (k : κ) : Option α :=
  found (getEntry K s A k)

omit [LinearOrder κ] in
theorem loadEntries_eq_ok :
    loadEntries K s A = .ok es ↔ s A = none ∧ es = [] ∨ s A = some (K.wrap es) := by
  rw [loadEntries]
  cases hs : s A with
  | none => simp [eq_comm]
  | some c =>
    cases hc : K.unwrap c with
    | none =>
      have : c ≠ K.wrap es := by
        rintro rfl
        rw [K.unwrap_wrap] at hc
        exact nomatch hc
      simp [hc,this]
    | some es' =>
      rw [K.eq_wrap hc]
      have hinj : K.wrap es' = K.wrap es ↔ es' = es := by
        refine ⟨fun h => ?_,congrArg K.wrap⟩
        have := congrArg K.unwrap h
        simpa only [K.unwrap_wrap,Option.some.injEq] using this
      simp [K.unwrap_wrap,hinj]

theorem storeEntries_eq_ok : storeEntries K env s A es = .ok s' ↔
    env.writeToBytes (K.wrap (sortByKey K.key es)) = true ∧
      s' = Function.update s A (some (K.wrap (sortByKey K.key es))) := by
  simp only [storeEntries]
  split
  · next h => simp [h,eq_comm]
  · next h => simp [h]

/-- A setter writes at its own address only. -/
theorem setEntry_elsewhere (h : setEntry K env s A k e = .ok s') (hA : A' ≠ A) : s' A' = s A' := by
  rw [setEntry_eq] at h
  obtain ⟨_,_,hstore⟩ := bind_eq_ok.mp h
  obtain ⟨_,rfl⟩ := storeEntries_eq_ok.mp hstore
  exact Function.update_of_ne hA _ _

theorem lookupEntry_of_load (h : loadEntries K s A = .ok es) (k : κ) :
    lookupEntry K s A k = find K.key k es := by
  simp [lookupEntry,getEntry,h,bind,Except.bind,pure,Except.pure]

theorem lookupEntry_eq_some : lookupEntry K s A k = some e ↔
    ∃ es, s A = some (K.wrap es) ∧ find K.key k es = some e := by
  constructor
  · intro h
    obtain ⟨es,hes,hf⟩ := bind_eq_ok.mp (found_eq_some.mp h)
    have hf := Except.ok.inj hf
    rcases loadEntries_eq_ok.mp hes with ⟨_,rfl⟩ | hs
    · exact nomatch hf
    · exact ⟨es,hs,hf⟩
  · rintro ⟨es,hs,hf⟩
    rw [lookupEntry_of_load (loadEntries_eq_ok.mpr (Or.inr hs)),hf]

theorem lookupEntry_update_ne (c : Option Container) (h : A' ≠ A) (k : κ) :
    lookupEntry K (Function.update s A c) A' k = lookupEntry K s A' k := by
  simp only [lookupEntry,getEntry,loadEntries,Function.update_of_ne h]

omit [LinearOrder κ] in
/-- A store of one kind is invisible to the lookups of the others: where it succeeded there
was nothing for them to find. -/
theorem lookupEntry_other (hK : ∀ es, K'.unwrap (K.wrap es) = none) {old : List α}
    (hold : loadEntries K s A = .ok old) (A' : Address) (i : ι) :
    lookupEntry K' (Function.update s A (some (K.wrap es))) A' i = lookupEntry K' s A' i := by
  by_cases hA : A' = A
  · subst hA
    have hnew : lookupEntry K' (Function.update s A' (some (K.wrap es))) A' i = none := by
      simp [lookupEntry,getEntry,loadEntries,hK,bind,Except.bind]
    -- before the store the address was empty or held a container of the kind `K`
    have hnone : lookupEntry K' s A' i = none := by
      rcases loadEntries_eq_ok.mp hold with ⟨hs,_⟩ | hs
      · simp [lookupEntry,getEntry,loadEntries,hs,bind,Except.bind,pure,Except.pure,find]
      · simp [lookupEntry,getEntry,loadEntries,hs,hK,bind,Except.bind]
    rw [hnew,hnone]
  · exact lookupEntry_update_ne _ hA i

theorem lookupEntry_store (hes : Distinct K.key es) (A' : Address) (k : κ) :
    lookupEntry K (Function.update s A (some (K.wrap (sortByKey K.key es)))) A' k =
      if A' = A then find K.key k es else lookupEntry K s A' k := by
  split
  · next hA =>
    subst hA
    rw [lookupEntry_of_load (loadEntries_eq_ok.mpr (Or.inr (Function.update_self ..))),
      find_sortByKey _ hes]
  · next hA => exact lookupEntry_update_ne _ hA k

end Lookup

section Stored

/-- Keys are distinct and every entry is at its own address. -/
def Lodged (sha : Sha512) (A : Address) : Container → Prop
  | .participants es =>
    Distinct participantKind.key es ∧ ∀ e ∈ es, A = makeParticipantAddress sha e.publicKey
  | .records es => Distinct recordKind.key es ∧ ∀ e ∈ es, A = makeRecordAddress sha e.recordId
  | .tables es => Distinct tableKind.key es ∧ ∀ e ∈ es, A = makeTableAddress sha e.name
  | .properties es =>
    Distinct propertyKind.key es ∧ ∀ e ∈ es, A = makePropertyAddress sha e.recordId e.name 0
  | .propertyPages es => Distinct propertyPageKind.key es ∧
      ∀ e ∈ es, ∃ k, A = makePropertyAddress sha e.recordId e.name k
  | .proposals es =>
    Distinct proposalKind.key es ∧ ∀ e ∈ es, A = makeProposalAddress sha e.proposalId
  | .exchanges es => Distinct exchangeKind.key es ∧
      ∀ e ∈ es, A = makeExchangeAddress sha e.buyProposalId e.sellProposalId

/-- Every container of the state was serialized and is lodged at its address. -/
def Stored (env : Env) (s : State) : Prop :=
  ∀ A c, s A = some c → env.writeToBytes c = true ∧ Lodged env.sha A c

theorem stored_empty (env : Env) : Stored env State.empty := fun _ _ h => nomatch h

variable {α κ : Type} [LinearOrder κ] {K : Kind α κ}
variable {env : Env} {s s' : State} {A : Address} {k : κ} {e : α} {es : List α}

omit [LinearOrder κ] in
theorem stored_load (hs : Stored env s) {home : α → Prop}
    (hK : ∀ es, Lodged env.sha A (K.wrap es) ↔ Distinct K.key es ∧ ∀ e ∈ es, home e)
    (h : loadEntries K s A = .ok es) : Distinct K.key es ∧ ∀ e ∈ es, home e := by
  rcases loadEntries_eq_ok.mp h with ⟨_,rfl⟩ | hA
  · exact ⟨List.nodup_nil,nofun⟩
  · exact (hK es).mp (hs A _ hA).2

omit [LinearOrder κ] in
theorem stored_update (hs : Stored env s) {c : Container} (hw : env.writeToBytes c = true)
    (hl : Lodged env.sha A c) : Stored env (Function.update s A (some c)) := by
  intro B d hd
  by_cases hB : B = A
  · subst hB
    rw [Function.update_self,Option.some.injEq] at hd
    exact hd ▸ ⟨hw,hl⟩
  · rw [Function.update_of_ne hB] at hd
    exact hs B d hd

/-- What a successful setter did: a container of its kind was stored, and its own lookups see
exactly the new entry. -/
structure Put (K : Kind α κ) (env : Env) (s : State) (A : Address) (k : κ) (e : α)
    (s' : State) : Prop where
  stored : Stored env s'
  shape : ∃ old es, loadEntries K s A = .ok old ∧ s' = Function.update s A (some (K.wrap es))
  lookup : ∀ A' k', lookupEntry K s' A' k' =
    if A' = A ∧ k' = k then some e else lookupEntry K s A' k'

theorem put_of_store (hs : Stored env s) {home : α → Prop} {old : List α}
    (hK : ∀ es, Lodged env.sha A (K.wrap es) ↔ Distinct K.key es ∧ ∀ e ∈ es, home e)
    (hold : loadEntries K s A = .ok old) (hes : Distinct K.key es) (hhome : ∀ e ∈ es, home e)
    (hfind : ∀ k', find K.key k' es = if k' = k then some e else find K.key k' old)
    (h : storeEntries K env s A es = .ok s') : Put K env s A k e s' := by
  obtain ⟨hw,rfl⟩ := storeEntries_eq_ok.mp h
  refine ⟨stored_update hs hw ?_,⟨old,_,hold,rfl⟩,fun A' k' => ?_⟩
  · exact (hK _).mpr ⟨distinct_sortByKey _ hes,fun e he => hhome e ((mem_sortByKey _).mp he)⟩
  · rw [lookupEntry_store hes,hfind]
    by_cases hA : A' = A
    · subst hA
      rw [if_pos rfl,lookupEntry_of_load hold]
      simp only [true_and]
    · rw [if_neg hA,if_neg fun h => hA h.1]

theorem put_of_setEntry (hs : Stored env s) (home : α → Prop)
    (hK : ∀ es, Lodged env.sha A (K.wrap es) ↔ Distinct K.key es ∧ ∀ e ∈ es, home e)
    (he : home e) (hk : K.key e = k) (h : setEntry K env s A k e = .ok s') :
    Put K env s A k e s' := by
  subst hk
  rw [setEntry_eq] at h
  obtain ⟨old,hold,hstore⟩ := bind_eq_ok.mp h
  obtain ⟨hd,hh⟩ := stored_load hs hK hold
  refine put_of_store hs hK hold (distinct_replace hd e) (fun b hb => ?_)
    (fun k' => find_replace hd e k') hstore
  rcases mem_replace hb with hb | rfl
  · exact hh b hb
  · exact he

end Stored

/-- The ledger a state stands for, read by the getters of the handler. -/
def ledger (env : Env) (s : State) : Ledger where
  participant k := found (getParticipant env s k)
  record r := found (getRecord env s r)
  table name := found (getTable env s name)
  property r n := found (getProperty env s r n)
  page r n k := found (getPropertyPage env s r n k)
  proposal x := found (getProposal env s x)
  exchange k := found (getExchange env s (ofLex k).1 (ofLex k).2)

/-- The address range of a record's properties and pages. -/
abbrev Env.range (env : Env) : String → Address := makePropertyAddressRange env.sha

section Setters

variable {env : Env} {s s' : State}

theorem Put.other {α β κ ι : Type} [LinearOrder κ] [LinearOrder ι] {K : Kind α κ}
    {K' : Kind β ι} {A : Address} {k : κ} {e : α} (h : Put K env s A k e s')
    (hK : ∀ es, K'.unwrap (K.wrap es) = none) (A' : Address) (i : ι) :
    lookupEntry K' s' A' i = lookupEntry K' s A' i := by
  obtain ⟨old,es,hold,rfl⟩ := h.shape
  exact lookupEntry_other hK hold A' i

section Put

variable {α κ : Type} [LinearOrder κ] {K : Kind α κ} {A : Address} {k : κ} {e : α}

theorem Put.participant (h : Put K env s A k e s')
    (hK : ∀ es, participantKind.unwrap (K.wrap es) = none) :
    (ledger env s').participant = (ledger env s).participant :=
  funext fun _ => h.other hK _ _

theorem Put.record (h : Put K env s A k e s')
    (hK : ∀ es, recordKind.unwrap (K.wrap es) = none) :
    (ledger env s').record = (ledger env s).record :=
  funext fun _ => h.other hK _ _

theorem Put.table (h : Put K env s A k e s')
    (hK : ∀ es, tableKind.unwrap (K.wrap es) = none) :
    (ledger env s').table = (ledger env s).table :=
  funext fun _ => h.other hK _ _

theorem Put.property (h : Put K env s A k e s')
    (hK : ∀ es, propertyKind.unwrap (K.wrap es) = none) :
    (ledger env s').property = (ledger env s).property :=
  funext fun _ => funext fun _ => h.other hK _ _

theorem Put.page (h : Put K env s A k e s')
    (hK : ∀ es, propertyPageKind.unwrap (K.wrap es) = none) :
    (ledger env s').page = (ledger env s).page :=
  funext fun _ => funext fun _ => funext fun _ => h.other hK _ _

theorem Put.proposal (h : Put K env s A k e s')
    (hK : ∀ es, proposalKind.unwrap (K.wrap es) = none) :
    (ledger env s').proposal = (ledger env s).proposal :=
  funext fun _ => h.other hK _ _

theorem Put.exchange (h : Put K env s A k e s')
    (hK : ∀ es, exchangeKind.unwrap (K.wrap es) = none) :
    (ledger env s').exchange = (ledger env s).exchange :=
  funext fun _ => h.other hK _ _

/-- For objects whose key alone makes the address the lookup is updated at that key. -/
theorem Put.update (address : κ → Address) (h : Put K env s (address k) k e s') :
    (fun k' => lookupEntry K s' (address k') k') =
      Function.update (fun k' => lookupEntry K s (address k') k') k (some e) := by
  funext k'
  rw [h.lookup,Function.update_apply]
  by_cases hk : k' = k
  · rw [if_pos ⟨congrArg address hk,hk⟩,if_pos hk]
  · rw [if_neg fun h => hk h.2,if_neg hk]

end Put

theorem setParticipant_spec {k : String} {p : Participant} (hs : Stored env s)
    (h : setParticipant env s k p = .ok s') (hk : p.publicKey = k) :
    Stored env s' ∧ ledger env s' = (ledger env s).setParticipant k p := by
  have hput := put_of_setEntry hs (fun e => _ = makeParticipantAddress env.sha e.publicKey)
    (fun _ => Iff.rfl) (hk ▸ rfl) hk h
  exact ⟨hput.stored,Ledger.ext (hput.update (makeParticipantAddress env.sha))
    (hput.record fun _ => rfl) (hput.table fun _ => rfl) (hput.property fun _ => rfl)
    (hput.page fun _ => rfl) (hput.proposal fun _ => rfl) (hput.exchange fun _ => rfl)⟩

theorem setRecord_spec {r : String} {rec : Record} (hs : Stored env s)
    (h : setRecord env s r rec = .ok s') (hr : rec.recordId = r) :
    Stored env s' ∧ ledger env s' = (ledger env s).setRecord r rec := by
  have hput := put_of_setEntry hs (fun e => _ = makeRecordAddress env.sha e.recordId)
    (fun _ => Iff.rfl) (hr ▸ rfl) hr h
  exact ⟨hput.stored,Ledger.ext (hput.participant fun _ => rfl)
    (hput.update (makeRecordAddress env.sha)) (hput.table fun _ => rfl)
    (hput.property fun _ => rfl) (hput.page fun _ => rfl) (hput.proposal fun _ => rfl)
    (hput.exchange fun _ => rfl)⟩

/-- The table setter pushes without a removal: it is an update where there was no table. -/
theorem setTable_spec {name : String} {t : Table} (hs : Stored env s)
    (h : setTable env s name t = .ok s') (ht : t.name = name)
    (hnew : (ledger env s).table name = none) :
    Stored env s' ∧ ledger env s' = (ledger env s).setTable name t := by
  obtain ⟨old,hold,hstore⟩ := bind_eq_ok.mp h
  have hK : ∀ es, Lodged env.sha (makeTableAddress env.sha name) (tableKind.wrap es) ↔
      Distinct tableKind.key es ∧
        ∀ e ∈ es, makeTableAddress env.sha name = makeTableAddress env.sha e.name :=
    fun _ => Iff.rfl
  obtain ⟨hd,hh⟩ := stored_load hs hK hold
  -- no table of the name is stored, so pushing keeps the keys distinct
  have habsent : ∀ b ∈ old, tableKind.key b ≠ tableKind.key t := by
    have hfind := (lookupEntry_of_load hold name).symm.trans hnew
    rw [show tableKind.key t = name from ht]
    exact find_eq_none_iff.mp hfind
  have hput : Put tableKind env s (makeTableAddress env.sha name) name t s' := by
    refine put_of_store hs hK hold (distinct_push hd habsent) (fun b hb => ?_)
      (fun k' => ?_) hstore
    · rcases List.mem_append.mp hb with hb | hb
      · exact hh b hb
      · rw [List.mem_singleton.mp hb,ht]
    · rw [find_push hd habsent,show tableKind.key t = name from ht]
  exact ⟨hput.stored,Ledger.ext (hput.participant fun _ => rfl) (hput.record fun _ => rfl)
    (hput.update (makeTableAddress env.sha)) (hput.property fun _ => rfl)
    (hput.page fun _ => rfl) (hput.proposal fun _ => rfl) (hput.exchange fun _ => rfl)⟩

theorem setProposal_spec {x : String} {c : Proposal} (hs : Stored env s)
    (h : setProposal env s x c = .ok s') (hx : c.proposalId = x) :
    Stored env s' ∧ ledger env s' = (ledger env s).setProposal x c := by
  have hput := put_of_setEntry hs (fun e => _ = makeProposalAddress env.sha e.proposalId)
    (fun _ => Iff.rfl) (hx ▸ rfl) hx h
  exact ⟨hput.stored,Ledger.ext (hput.participant fun _ => rfl) (hput.record fun _ => rfl)
    (hput.table fun _ => rfl) (hput.property fun _ => rfl) (hput.page fun _ => rfl)
    (hput.update (makeProposalAddress env.sha)) (hput.exchange fun _ => rfl)⟩

theorem setExchange_spec {b v : String} {e : Exchange} (hs : Stored env s)
    (h : setExchange env s b v e = .ok s') (he : exchangeKind.key e = toLex (b,v)) :
    Stored env s' ∧ ledger env s' = (ledger env s).setExchange (toLex (b,v)) e := by
  have hb : e.buyProposalId = b ∧ e.sellProposalId = v := Prod.mk.inj (toLex.injective he)
  have hput := put_of_setEntry hs
    (fun e => _ = makeExchangeAddress env.sha e.buyProposalId e.sellProposalId)
    (fun _ => Iff.rfl) (by rw [hb.1,hb.2]) he h
  exact ⟨hput.stored,Ledger.ext (hput.participant fun _ => rfl) (hput.record fun _ => rfl)
    (hput.table fun _ => rfl) (hput.property fun _ => rfl) (hput.page fun _ => rfl)
    (hput.proposal fun _ => rfl)
    (hput.update fun k : String ×ₗ String => makeExchangeAddress env.sha (ofLex k).1 (ofLex k).2)⟩

/-- Within one range and under one name the pages of a property have one address each. -/
theorem makePropertyAddress_eq_iff {r r' n : String} {k k' : Nat} :
    makePropertyAddress env.sha r' n k' = makePropertyAddress env.sha r n k ↔
      env.range r' = env.range r ∧ k' = k := by
  constructor
  · exact fun h => ⟨(makePropertyAddress_inj h).1,(makePropertyAddress_inj h).2.2⟩
  · rintro ⟨hr,rfl⟩
    rw [makePropertyAddress,makePropertyAddress,
      show makePropertyAddressRange env.sha r' = _ from hr]

theorem setProperty_spec {r n : String} {q : Property} (hs : Stored env s)
    (h : setProperty env s r n q = .ok s') (hn : q.name = n)
    (hr : env.range q.recordId = env.range r) :
    Stored env s' ∧ ledger env s' = (ledger env s).setProperty env.range r n q := by
  have hput := put_of_setEntry hs (fun e => _ = makePropertyAddress env.sha e.recordId e.name 0)
    (fun _ => Iff.rfl) (by rw [hn]; exact makePropertyAddress_eq_iff.mpr ⟨hr.symm,rfl⟩) hn h
  refine ⟨hput.stored,Ledger.ext (hput.participant fun _ => rfl) (hput.record fun _ => rfl)
    (hput.table fun _ => rfl) ?_ (hput.page fun _ => rfl) (hput.proposal fun _ => rfl)
    (hput.exchange fun _ => rfl)⟩
  funext r' n'
  -- a lookup hits the written address exactly from a record of the same range
  refine (hput.lookup _ n').trans ?_
  rw [Ledger.setProperty_property]
  by_cases hn' : n' = n
  · subst hn'
    simp only [makePropertyAddress_eq_iff,and_true]
    rfl
  · rw [if_neg fun h => hn' h.2,if_neg fun h => hn' h.2]
    rfl

theorem setPropertyPage_spec {r n : String} {k : Nat} {page : PropertyPage} (hs : Stored env s)
    (h : setPropertyPage env s r n k page = .ok s') (hn : page.name = n)
    (hr : env.range page.recordId = env.range r) :
    Stored env s' ∧ ledger env s' = (ledger env s).setPage env.range r n k page := by
  have hput := put_of_setEntry hs
    (fun e => ∃ k, _ = makePropertyAddress env.sha e.recordId e.name k) (fun _ => Iff.rfl)
    ⟨k,by rw [hn]; exact makePropertyAddress_eq_iff.mpr ⟨hr.symm,rfl⟩⟩ hn h
  refine ⟨hput.stored,Ledger.ext (hput.participant fun _ => rfl) (hput.record fun _ => rfl)
    (hput.table fun _ => rfl) (hput.property fun _ => rfl) ?_ (hput.proposal fun _ => rfl)
    (hput.exchange fun _ => rfl)⟩
  funext r' n' k'
  refine (hput.lookup _ n').trans ?_
  rw [Ledger.setPage_page]
  by_cases hn' : n' = n
  · subst hn'
    simp only [makePropertyAddress_eq_iff,and_true,true_and]
    rfl
  · rw [if_neg fun h => hn' h.2,if_neg fun h => hn' h.2.1]
    rfl

end Setters

section Entries

variable {env : Env} {s : State}

theorem lookup_key {α κ : Type} [LinearOrder κ] {K : Kind α κ} {A : Address} {k : κ} {e : α}
    (h : lookupEntry K s A k = some e) : K.key e = k := by
  obtain ⟨es,_,hf⟩ := lookupEntry_eq_some.mp h
  exact (find_some hf).2

theorem ledger_participant_key {k : String} {p : Participant}
    (h : (ledger env s).participant k = some p) : p.publicKey = k :=
  lookup_key (K := participantKind) h

theorem ledger_record_key {r : String} {rec : Record}
    (h : (ledger env s).record r = some rec) : rec.recordId = r :=
  lookup_key (K := recordKind) h

theorem ledger_proposal_key {x : String} {c : Proposal}
    (h : (ledger env s).proposal x = some c) : c.proposalId = x :=
  lookup_key (K := proposalKind) h

theorem ledger_property_key {r n : String} {q : Property} (hs : Stored env s)
    (h : (ledger env s).property r n = some q) :
    q.name = n ∧ env.range q.recordId = env.range r := by
  obtain ⟨es,hes,hf⟩ := lookupEntry_eq_some.mp h
  obtain ⟨hq,hn⟩ := find_some hf
  exact ⟨hn,(makePropertyAddress_eq_iff.mp ((hs _ _ hes).2.2 q hq |>.trans
    (by rw [show q.name = n from hn])).symm).1⟩

theorem ledger_page_key {r n : String} {k : Nat} {page : PropertyPage} (hs : Stored env s)
    (h : (ledger env s).page r n k = some page) :
    page.name = n ∧ env.range page.recordId = env.range r := by
  obtain ⟨es,hes,hf⟩ := lookupEntry_eq_some.mp h
  obtain ⟨hq,hn⟩ := find_some hf
  obtain ⟨j,hj⟩ := (hs _ _ hes).2.2 page hq
  rw [show page.name = n from hn] at hj
  exact ⟨hn,(makePropertyAddress_eq_iff.mp hj.symm).1⟩

/-- A property that is read was written in some serialized container. -/
theorem ledger_property_written {r n : String} {q : Property} (hs : Stored env s)
    (h : (ledger env s).property r n = some q) :
    ∃ es, q ∈ es ∧ env.writeToBytes (.properties es) = true := by
  obtain ⟨es,hes,hf⟩ := lookupEntry_eq_some.mp h
  exact ⟨es,(find_some hf).1,(hs _ _ hes).1⟩

theorem ledger_property_congr {r r' : String} (hr : env.range r' = env.range r) :
    (ledger env s).property r' = (ledger env s).property r := by
  funext n
  have haddr : makePropertyAddress env.sha r' n 0 = makePropertyAddress env.sha r n 0 :=
    makePropertyAddress_eq_iff.mpr ⟨hr,rfl⟩
  simp only [ledger,getProperty,haddr]

/-- Every stored property is read back under its own record and name. -/
theorem ledger_of_property {A : Address} {es : List Property} {q : Property}
    (hs : Stored env s) (hA : s A = some (.properties es)) (hq : q ∈ es) :
    (ledger env s).property q.recordId q.name = some q := by
  obtain ⟨hd,hhome⟩ := (hs A _ hA).2
  exact (lookupEntry_eq_some (K := propertyKind)).mpr
    ⟨es,hhome q hq ▸ hA,(find_eq_some_iff hd).mpr ⟨hq,rfl⟩⟩

/-- Every stored page is read back under its own record, its name and the number it is at. -/
theorem ledger_page_at {A : Address} {es : List PropertyPage} {page : PropertyPage} {k : Nat}
    (hs : Stored env s) (hA : s A = some (.propertyPages es)) (hp : page ∈ es)
    (hk : A = makePropertyAddress env.sha page.recordId page.name k) :
    (ledger env s).page page.recordId page.name k = some page := by
  obtain ⟨hd,_⟩ := (hs A _ hA).2
  exact (lookupEntry_eq_some (K := propertyPageKind)).mpr
    ⟨es,hk ▸ hA,(find_eq_some_iff hd).mpr ⟨hp,rfl⟩⟩

theorem ledger_of_page {A : Address} {es : List PropertyPage} {page : PropertyPage}
    (hs : Stored env s) (hA : s A = some (.propertyPages es)) (hp : page ∈ es) :
    ∃ k, (ledger env s).page page.recordId page.name k = some page :=
  ((hs A _ hA).2.2 page hp).imp fun _ hk => ledger_page_at hs hA hp hk

end Entries

end DgcRestApi
