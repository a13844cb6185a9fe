import DgcRestApi.Ledger.Proposing

/-!
# What stays on the ledger

No transaction deletes anything: what is found under a key is found under it, in some form, in
every later ledger. With distinct ranges a property and a page also stay with their record, and
a proposal keeps its terms until another one is created under its identifier.
-/

namespace DgcRestApi

namespace Ledger

variable {range : String → Address} {L L' : Ledger} {tx : Tx} {r n : String} {k : Nat}

/-- Everything stays under its key. -/
structure Lasts (L L' : Ledger) : Prop where
  participant : Persists L.participant L'.participant
  record : Persists L.record L'.record
  table : Persists L.table L'.table
  property : ∀ r, Persists (L.property r) (L'.property r)
  page : ∀ r n, Persists (L.page r n) (L'.page r n)
  proposal : Persists L.proposal L'.proposal
  exchange : Persists L.exchange L'.exchange

theorem Lasts.refl (L : Ledger) : Lasts L L where
  participant := .refl _
  record := .refl _
  table := .refl _
  property _ := .refl _
  page _ _ := .refl _
  proposal := .refl _
  exchange := .refl _

theorem Lasts.trans {L'' : Ledger} (h : Lasts L L') (h' : Lasts L' L'') : Lasts L L'' where
  participant := Persists.trans h.participant h'.participant
  record := Persists.trans h.record h'.record
  table := Persists.trans h.table h'.table
  property r := Persists.trans (h.property r) (h'.property r)
  page r n := Persists.trans (h.page r n) (h'.page r n)
  proposal := Persists.trans h.proposal h'.proposal
  exchange := Persists.trans h.exchange h'.exchange

section Pages

theorem kept_setPage (page : PropertyPage) (r' n' : String) :
    Persists (L.page r' n') ((L.setPage range r n k page).page r' n') := by
  intro k' a ha
  exact setPage_exists ⟨a,ha⟩

theorem Report.page_kept {signer : String} {ts : Nat} {u : PropertyValue}
    (h : Report range r signer ts L u L') (r' n' : String) :
    Persists (L.page r' n') (L'.page r' n') := by
  cases h with
  | filed => exact kept_setPage _ r' n'
  | turned _ _ _ hL₁ =>
    subst hL₁
    exact Persists.trans (kept_setPage _ r' n') (kept_setPage _ r' n')

theorem Reports.page_kept {signer : String} {ts : Nat} {us : List PropertyValue}
    (h : Reports range r signer ts L us L') (r' n' : String) :
    Persists (L.page r' n') (L'.page r' n') := by
  induction h with
  | nil => exact .refl _
  | cons hu _ ih => exact Persists.trans (hu.page_kept r' n') ih

theorem Created.page_kept {signer : String} {ts : Nat} {a : CreateRecordAction} {t : Table}
    {initial : String → List ReportedValue} (hc : Created range L signer ts a t initial L')
    (r n : String) : Persists (L.page r n) (L'.page r n) := by
  intro k page hpage
  rw [hc.eq,initProperties_page]
  split
  · exact ⟨_,rfl⟩
  · exact ⟨page,hpage⟩

theorem Created.property_kept {signer : String} {ts : Nat} {a : CreateRecordAction} {t : Table}
    {initial : String → List ReportedValue} (hc : Created range L signer ts a t initial L')
    (r : String) : Persists (L.property r) (L'.property r) := by
  intro n q hq
  rw [hc.eq,initProperties_property]
  split
  · next hhit =>
    obtain ⟨q',hq'⟩ := Option.isSome_iff_exists.mp hhit.2
    exact ⟨q',hq'⟩
  · exact ⟨q,hq⟩

end Pages

theorem kept_setExchanges (exchanges : List Exchange) :
    Persists L.exchange (L.setExchanges exchanges).exchange := by
  unfold setExchanges
  induction exchanges generalizing L with
  | nil => exact .refl _
  | cons e exchanges ih =>
    exact Persists.trans (.update L.exchange _ _) (ih (L := L.setExchange _ (newExchange e)))

theorem Step.exchange_kept (hstep : Step range L tx L') : Persists L.exchange L'.exchange := by
  cases hstep with
  | updateProperties _ _ hreports => exact hreports.framed.exchange ▸ .refl _
  | autoBuy | autoSell => exact kept_setExchanges (L := L.setParticipant _ _) _
  | _ => exact .refl _

theorem Step.proposal_lasts (hstep : Step range L tx L') : Persists L.proposal L'.proposal := by
  rcases hstep.proposal_cases with ⟨_,_,h⟩ | ⟨_,_,_,_,h⟩ | ⟨_,_,h⟩
  · exact h ▸ .update _ _ _
  · exact h ▸ .update _ _ _
  · exact h ▸ .refl _

theorem Step.lasts (hL : Homed range L) (hstep : Step range L tx L') : Lasts L L' where
  participant := Grown.persists hstep.participant_grown
  record := Grown.persists hstep.record_grown
  table := Grown.persists hstep.table_grown
  property r := by
    rcases hstep.property_cases with ⟨_,_,_,_,_,_,hc⟩ | ⟨_,_,_,rec,_,hrec,_,hus⟩ | ⟨_,_,_,hprop⟩
    · exact hc.property_kept r
    · have hturned := hus.turned_property hL ⟨rec,hrec⟩ r
      exact Grown.persists (rel_grown (fun _ _ => Turned.extends) hturned)
    · exact Grown.persists (rel_grown (fun _ _ => Evolves.extends) (hprop r))
  page r n := by
    rcases hstep.property_cases with ⟨_,_,_,_,_,_,hc⟩ | ⟨_,_,_,_,_,_,_,hus⟩ | ⟨_,_,hpage,_⟩
    · exact hc.page_kept r n
    · exact hus.page_kept r n
    · exact hpage ▸ .refl _
  proposal := hstep.proposal_lasts
  exchange := hstep.exchange_kept

theorem run_lasts {h : List (Ledger × Tx)} (hL : Homed range L) (hr : Run (Step range) L h L') :
    Lasts L L' := by
  induction hr with
  | nil => exact .refl L
  | snoc hr hstep ih => exact ih.trans (hstep.lasts (run_homed hL hr))

/-! ## Properties and pages under their own record -/

/-- The property of the record itself, not of one that shares its address range. -/
def ownProperty (L : Ledger) (r n : String) : Option Property :=
  (L.property r n).filter fun q => q.recordId = r

def ownPage (L : Ledger) (r n : String) (k : Nat) : Option PropertyPage :=
  (L.page r n k).filter fun page => page.recordId = r

theorem ownProperty_eq_some {q : Property} :
    L.ownProperty r n = some q ↔ L.property r n = some q ∧ q.recordId = r := by
  rw [ownProperty,Option.filter_eq_some_iff,decide_eq_true_eq]

theorem ownPage_eq_some {page : PropertyPage} :
    L.ownPage r n k = some page ↔ L.page r n k = some page ∧ page.recordId = r := by
  rw [ownPage,Option.filter_eq_some_iff,decide_eq_true_eq]

theorem ownProperty_kept (hL : Homed range L) (hL' : Homed range L') (hd : DistinctRanges range L')
    (h : Lasts L L') {q : Property} (hq : L.ownProperty r n = some q) :
    ∃ q', L'.ownProperty r n = some q' := by
  obtain ⟨hq,rfl⟩ := ownProperty_eq_some.mp hq
  obtain ⟨_,_,rec,hrec⟩ := hL.property _ _ _ hq
  obtain ⟨rec',hrec'⟩ := h.record _ _ hrec
  obtain ⟨q',hq'⟩ := h.property _ _ _ hq
  obtain ⟨_,hrange,rec'',hrec''⟩ := hL'.property _ _ _ hq'
  exact ⟨q',ownProperty_eq_some.mpr ⟨hq',hd _ _ _ _ hrec'' hrec' hrange⟩⟩

theorem ownPage_kept (hL : Homed range L) (hL' : Homed range L') (hd : DistinctRanges range L')
    (h : Lasts L L') {page : PropertyPage} (hpage : L.ownPage r n k = some page) :
    ∃ page', L'.ownPage r n k = some page' := by
  obtain ⟨hpage,rfl⟩ := ownPage_eq_some.mp hpage
  obtain ⟨_,_,rec,hrec⟩ := hL.page _ _ _ _ hpage
  obtain ⟨rec',hrec'⟩ := h.record _ _ hrec
  obtain ⟨page',hpage'⟩ := h.page _ _ _ _ hpage
  obtain ⟨_,hrange,rec'',hrec''⟩ := hL'.page _ _ _ _ hpage'
  exact ⟨page',ownPage_eq_some.mpr ⟨hpage',hd _ _ _ _ hrec'' hrec' hrange⟩⟩

/-- A page has the property that it is a page of. -/
theorem property_of_page (hL : Homed range L) (hc : Complete L)
    {page : PropertyPage} (hpage : L.ownPage r n k = some page) :
    ∃ q, L.ownProperty r n = some q := by
  obtain ⟨hpage,rfl⟩ := ownPage_eq_some.mp hpage
  obtain ⟨hn,_,_⟩ := hL.page _ _ _ _ hpage
  obtain ⟨rec,t,col,hrec,ht,hcol⟩ := hc.pages _ _ _ _ hpage
  obtain ⟨q,hq,hr,_⟩ := hc.property _ rec t _ col hrec ht hcol
  exact ⟨q,ownProperty_eq_some.mpr ⟨hn ▸ hq,hr⟩⟩

/-! ## Proposals under their own identifier -/

/-- The proposals differ in their status and in the coins exchanged at most. -/
def SameOffer (c c' : Proposal) : Prop :=
  c' = { c with dgCoinExchanged := c'.dgCoinExchanged, status := c'.status }

theorem SameOffer.trans {c₁ c₂ c₃ : Proposal} (h : SameOffer c₁ c₂) (h' : SameOffer c₂ c₃) :
    SameOffer c₁ c₃ := by
  rw [SameOffer] at h h' ⊢
  rw [h',h]

theorem Step.offer_kept {x : String} {c : Proposal} (hstep : Step range L tx L')
    (hother : tx.proposes ≠ some x) (hc : L.proposal x = some c) :
    ∃ c', L'.proposal x = some c' ∧ SameOffer c c' := by
  rcases hstep.proposal_cases with ⟨a,ha,hL'⟩ | ⟨a,c₁,_,hc₁,hL'⟩ | ⟨_,_,hL'⟩
  · have hne : x ≠ a.proposalId := fun he => hother (by rw [Tx.proposes,ha,he])
    exact ⟨c,by rw [hL',Function.update_of_ne hne,hc],rfl⟩
  · by_cases hx : x = a.proposalId
    · subst hx
      obtain rfl := Option.some.inj (hc.symm.trans hc₁)
      exact ⟨answered c a,by rw [hL',Function.update_self],answered_eq c a⟩
    · exact ⟨c,by rw [hL',Function.update_of_ne hx,hc],rfl⟩
  · exact ⟨c,by rw [hL',hc],rfl⟩

theorem run_offer_kept {h : List (Ledger × Tx)} {x : String} {c : Proposal}
    (hr : Run (Step range) L h L') (hother : ∀ e ∈ h, e.2.proposes ≠ some x)
    (hc : L.proposal x = some c) : ∃ c', L'.proposal x = some c' ∧ SameOffer c c' := by
  induction hr with
  | nil => exact ⟨c,hc,rfl⟩
  | snoc _ hstep ih =>
    obtain ⟨hlast,hother⟩ := List.forall_mem_cons.mp hother
    obtain ⟨c',hc',hsame⟩ := ih hother
    obtain ⟨c'',hc'',hsame'⟩ := hstep.offer_kept hlast hc'
    exact ⟨c'',hc'',hsame.trans hsame'⟩

end Ledger

theorem reachable_lasts {env : Env} {h h' : List (State × Tx)} {s s' : State}
    (hr : Reachable env h s) (hrun : Run (Accepted env) s h' s') :
    Ledger.Lasts (ledger env s) (ledger env s') :=
  Ledger.run_lasts (reachable_homed hr) (run_refines (reachable_refines hr).1 hrun).2

theorem reachable_offer_kept {env : Env} {h h' : List (State × Tx)} {s s' : State} {x : String}
    {c : Proposal} (hr : Reachable env h s) (hrun : Run (Accepted env) s h' s')
    (hother : ∀ e ∈ h', e.2.proposes ≠ some x) (hc : (ledger env s).proposal x = some c) :
    ∃ c', (ledger env s').proposal x = some c' ∧ Ledger.SameOffer c c' :=
  Ledger.run_offer_kept (run_refines (reachable_refines hr).1 hrun).2 (forall_ledgers.mpr hother) hc

end DgcRestApi
