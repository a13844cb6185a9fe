import DgcRestApi.Ledger.Attribution

/-!
# The page ring of a property

The handler compares the number of the next page with the capacity of one page, so a full
page 1 is always followed by page 1, which is emptied. `OnePage` is what the ring really is;
`RingBuffer` is what a run is meant to make of it, update by update. They agree until the first
page is full.
-/

namespace DgcRestApi
open Fallible Keyed

@[simp] theorem length_pushReportedValue (page : PropertyPage) (v : ReportedValue) :
    (pushReportedValue page v).reportedValues.length = page.reportedValues.length + 1 := by
  simp [pushReportedValue]

theorem pushReportedValue_perm (page : PropertyPage) (v : ReportedValue) :
    (pushReportedValue page v).reportedValues.Perm (v :: page.reportedValues) :=
  (sortByKey_perm _ _).trans (List.perm_append_singleton v page.reportedValues)

/-- Where the next value of a property is filed: the current page, and whether the ring is full. -/
def Property.place (q : Property) : Nat × Bool := (q.currentPage,q.wrapped)

/-- The page after page 1 is page 1. -/
theorem nextPageNumber_one {next : Nat} (h : nextPageNumber 1 = .ok next) : next = 1 := by
  have hone : nextPageNumber 1 = .ok 1 := rfl
  exact Except.ok.inj (h.symm.trans hone)

namespace Ledger

variable {range : String → Address} {L L' : Ledger} {tx : Tx} {r n signer : String} {ts : Nat}
variable {u : PropertyValue} {us : List PropertyValue} {v : ReportedValue}

/-! ## The values a transaction reports -/

/-- What an update of the signer is stored as in `L`. -/
def storedValue (L : Ledger) (r signer : String) (ts : Nat) (u : PropertyValue) :
    Option ReportedValue := do
  let q ← L.property r u.name
  let rep ← authorizedReporter q.reporters signer
  (makeNewReportedValue rep.index ts u q).toOption

/-- What the value provided for a property at the creation of its record is stored as. -/
def initialValue (L : Ledger) (n signer : String) (ts : Nat) (a : CreateRecordAction) :
    Option ReportedValue := do
  let t ← L.table a.table
  let col ← t.entry n
  let value ← (providedProperties a).lookup n
  (makeNewReportedValue 0 ts value (newProperty a.recordId signer n col)).toOption

/-- The values that a transaction accepted in `L` reports for the property. -/
def valuesOf (r n : String) (L : Ledger) (tx : Tx) : List ReportedValue :=
  match tx.action with
  | .CreateRecord a =>
    if a.recordId = r then (initialValue L n tx.signer tx.timestamp a).toList else []
  | .UpdateProperties a =>
    if a.recordId = r then (a.properties.filter fun u => u.name = n).filterMap
      (storedValue L r tx.signer tx.timestamp)
    else []
  | _ => []

theorem valuesOf_other {tx : Tx} (hc : ∀ a, tx.action = .CreateRecord a → a.recordId ≠ r)
    (hu : ∀ a, tx.action = .UpdateProperties a → a.recordId ≠ r) : valuesOf r n L tx = [] := by
  rw [valuesOf]
  split
  · next a ha => exact if_neg (hc a ha)
  · next a ha => exact if_neg (hu a ha)
  · rfl

/-- All values ever accepted for the property. -/
def accepted (r n : String) (h : List (Ledger × Tx)) : List ReportedValue :=
  h.flatMap fun e => valuesOf r n e.1 e.2

theorem accepted_cons (r n : String) (L : Ledger) (tx : Tx) (h : List (Ledger × Tx)) :
    accepted r n ((L,tx) :: h) = valuesOf r n L tx ++ accepted r n h := rfl

theorem Reported.storedValue (h : Reported L r signer ts u v) :
    L.storedValue r signer ts u = some v := by
  obtain ⟨q,rep,hq,_,hrep,hv⟩ := h
  simp [Ledger.storedValue,hq,hrep,hv,Except.toOption]

theorem storedValue_of_turned (hrel : ∀ n, Option.Rel Turned (L.property r n) (L'.property r n)) :
    L'.storedValue r signer ts u = L.storedValue r signer ts u := by
  have hu := hrel u.name
  rw [storedValue,storedValue]
  cases hq : L.property r u.name with
  | none =>
    rw [hq] at hu
    cases hq' : L'.property r u.name with
    | none => rfl
    | some q' =>
      rw [hq'] at hu
      exact nomatch hu
  | some q =>
    obtain ⟨q',hq',hturned⟩ := rel_some_left (hq ▸ hu)
    rw [hq']
    simp only [Option.bind_eq_bind,Option.bind_some,hturned.reporters,
      hturned.makeNewReportedValue]

/-- How many values the transaction carries for the property. -/
def reportCount (r n : String) (tx : Tx) : Nat :=
  match tx.action with
  | .CreateRecord a =>
    if a.recordId = r ∧ ((providedProperties a).lookup n).isSome then 1 else 0
  | .UpdateProperties a =>
    if a.recordId = r then (a.properties.filter fun u => u.name = n).length else 0
  | _ => 0

/-- How many values the transactions of a history carry for the property. -/
def reportTotal {σ : Type} (r n : String) (h : List (σ × Tx)) : Nat :=
  (h.map fun e => reportCount r n e.2).sum

theorem Created.initial_eq {a : CreateRecordAction} {t : Table}
    {initial : String → List ReportedValue} (hc : Created range L signer ts a t initial L')
    {col : PropertySchema} (hcol : t.entry n = some col) :
    valuesOf a.recordId n L ⟨signer,ts,.CreateRecord a⟩ = initial n := by
  have hvalues := hc.values n col (by rw [tableSchema_lookup,hcol])
  simp only [valuesOf,if_pos,initialValue,hc.table,Option.bind_eq_bind,Option.bind_some,hcol]
  cases hlookup : (providedProperties a).lookup n with
  | none =>
    rw [hlookup] at hvalues
    exact Except.ok.inj hvalues
  | some value =>
    rw [hlookup] at hvalues
    obtain ⟨v,hv,hvalues⟩ := bind_eq_ok.mp hvalues
    rw [← Except.ok.inj hvalues]
    simp [hv,Except.toOption]

theorem length_initialValues {provided : Option PropertyValue} {q : Property}
    {vs : List ReportedValue} (h : initialValues ts provided q = .ok vs) :
    vs.length = if provided.isSome then 1 else 0 := by
  cases provided with
  | none => exact (Except.ok.inj h) ▸ rfl
  | some value =>
    obtain ⟨v,_,h⟩ := bind_eq_ok.mp h
    exact (Except.ok.inj h) ▸ rfl

/-- All updates of one transaction are accepted. -/
theorem Reports.length_stored (hL : Homed range L) (hr : ∃ rec, L.record r = some rec)
    (hus : Reports range r signer ts L us L') :
    ((us.filter fun u => u.name = n).filterMap (L.storedValue r signer ts)).length =
      (us.filter fun u => u.name = n).length := by
  rw [List.filterMap_length_eq_length.mpr]
  intro u hu
  obtain ⟨v,hv⟩ := hus.all_reported hL hr u (List.mem_of_mem_filter hu)
  rw [hv.storedValue]
  rfl

/-- An accepted transaction has every value it carries accepted. -/
theorem Step.length_valuesOf (hL : Homed range L) (hstep : Step range L tx L') :
    (valuesOf r n L tx).length = reportCount r n tx := by
  rcases hstep.property_cases with ⟨signer,ts,a,t,initial,rfl,hc⟩ |
      ⟨signer,ts,a,rec,rfl,hrec,_,hus⟩ | ⟨hquiet,hquiet',_,_⟩
  · by_cases hra : a.recordId = r
    · subst hra
      cases hcol : t.entry n with
      | some col =>
        have hlookup : (tableSchema t).lookup n = some col := by rw [tableSchema_lookup,hcol]
        rw [hc.initial_eq hcol,length_initialValues (hc.values n col hlookup)]
        simp [reportCount]
      | none =>
        have hnone : (providedProperties a).lookup n = none := by
          cases hvalue : (providedProperties a).lookup n with
          | none => rfl
          | some v =>
            obtain ⟨col,hcol',_⟩ := bind_eq_ok.mp (hc.provided n v hvalue)
            have hsome := found_of_ok (expect_eq_ok.mp hcol')
            rw [tableSchema_lookup,hcol] at hsome
            exact nomatch hsome
        simp [valuesOf,initialValue,hnone,reportCount]
    · simp [valuesOf,reportCount,hra]
  · by_cases hra : a.recordId = r
    · subst hra
      simp only [valuesOf,reportCount,if_pos]
      exact hus.length_stored hL ⟨rec,hrec⟩
    · simp [valuesOf,reportCount,hra]
  · rw [valuesOf_other (fun b hb => absurd hb (hquiet b)) (fun b hb => absurd hb (hquiet' b)),
      reportCount]
    split
    · next a ha => exact absurd ha (hquiet a)
    · next a ha => exact absurd ha (hquiet' a)
    · rfl

theorem run_length_accepted {h : List (Ledger × Tx)} (hr : Run (Step range) empty h L) :
    (accepted r n h).length = reportTotal r n h := by
  induction hr with
  | nil => rfl
  | snoc hr hstep ih =>
    rw [accepted_cons,List.length_append,hstep.length_valuesOf (run_homed homed_empty hr),ih]
    rfl

/-! ## One page -/

/-- The state of a property for which `acc` was accepted: there is only page 1, it holds what
was reported since it was last full, and the property is wrapped once it was full. -/
structure OnePage (L : Ledger) (r n : String) (q : Property) (acc : List ReportedValue) :
    Prop where
  current : q.currentPage = 1
  wrapped : q.wrapped = true ↔ 256 ≤ acc.length
  page : ∃ page, L.page r n 1 = some page ∧ page.reportedValues.length = acc.length % 256 ∧
    (acc.length < 256 → page.reportedValues.Perm acc)
  others : ∀ k, k ≠ 1 → L.page r n k = none

theorem OnePage.perm {q : Property} {acc acc' : List ReportedValue} (h : OnePage L r n q acc)
    (hp : acc.Perm acc') : OnePage L r n q acc' where
  current := h.current
  wrapped := by rw [← hp.length_eq]; exact h.wrapped
  page := by
    obtain ⟨page,hpage,hlen,hperm⟩ := h.page
    rw [hp.length_eq] at hlen hperm
    exact ⟨page,hpage,hlen,fun hlt => (hperm hlt).trans hp⟩
  others := h.others

/-- An update leaves the other names and the other ranges alone. -/
theorem Report.elsewhere (h : Report range r signer ts L u L') {r' : String}
    (hne : ¬(range r' = range r ∧ n = u.name)) :
    L'.property r' n = L.property r' n ∧ L'.page r' n = L.page r' n := by
  have hset : ∀ (L : Ledger) (k : Nat) (page : PropertyPage),
      (L.setPage range r u.name k page).page r' n = L.page r' n := by
    intro L k page
    funext k'
    rw [setPage_page,if_neg fun hhit => hne ⟨hhit.1,hhit.2.1⟩]
  cases h with
  | filed => exact ⟨rfl,hset _ _ _⟩
  | turned _ _ _ hL₁ =>
    subst hL₁
    refine ⟨?_,?_⟩
    · rw [setProperty_property,if_neg hne]
      rfl
    · exact (hset _ _ _).trans (hset _ _ _)

theorem OnePage.elsewhere {q : Property} {acc : List ReportedValue} (h : OnePage L r n q acc)
    (hpage : L'.page r n = L.page r n) : OnePage L' r n q acc :=
  ⟨h.current,h.wrapped,by rw [hpage]; exact h.page,by rw [hpage]; exact h.others⟩

/-- The value finds room on page 1. -/
theorem OnePage.filed {q : Property} {acc : List ReportedValue} {page : PropertyPage}
    (h : OnePage L r n q acc) (hpage : L.page r n 1 = some page) (v : ReportedValue)
    (hroom : (pushReportedValue page v).reportedValues.length < PROPERTY_PAGE_MAX_LENGTH) :
    OnePage (L.setPage range r n 1 (pushReportedValue page v)) r n q (v :: acc) := by
  obtain ⟨page₁,hpage₁,hlen,hperm⟩ := h.page
  obtain rfl := Option.some.inj (hpage.symm.trans hpage₁)
  rw [length_pushReportedValue,hlen] at hroom
  have hmod : (acc.length + 1) % 256 = acc.length % 256 + 1 := by
    simp only [PROPERTY_PAGE_MAX_LENGTH] at hroom
    omega
  refine ⟨h.current,?_,⟨pushReportedValue page v,?_,?_,?_⟩,?_⟩
  · rw [h.wrapped,List.length_cons]
    omega
  · rw [setPage_page,if_pos ⟨rfl,rfl,rfl⟩]
  · rw [length_pushReportedValue,hlen,List.length_cons,hmod]
  · intro hlt
    rw [List.length_cons] at hlt
    exact (pushReportedValue_perm page v).trans ((hperm (by omega)).cons v)
  · intro k hk
    rw [setPage_page,if_neg fun hhit => hk hhit.2.2]
    exact h.others k hk

/-- The value fills page 1. The page that follows is page 1 again, and it is emptied. -/
theorem OnePage.turned {q : Property} {acc : List ReportedValue} {page : PropertyPage}
    (h : OnePage L r n q acc) (hpage : L.page r n 1 = some page) (v : ReportedValue)
    (hfull : PROPERTY_PAGE_MAX_LENGTH ≤ (pushReportedValue page v).reportedValues.length)
    {L₁ : Ledger} (hL₁ : L₁ = L.setPage range r n 1 (pushReportedValue page v)) :
    OnePage ((L₁.setPage range r n 1 (clearedPage r n (L₁.page r n 1))).setProperty range r n
      (turnPage q 1)) r n (turnPage q 1) (v :: acc) := by
  obtain ⟨page₁,hpage₁,hlen,hperm⟩ := h.page
  obtain rfl := Option.some.inj (hpage.symm.trans hpage₁)
  rw [length_pushReportedValue,hlen] at hfull
  simp only [PROPERTY_PAGE_MAX_LENGTH] at hfull
  have hlt := Nat.mod_lt acc.length (show 0 < 256 by decide)
  refine ⟨rfl,?_,⟨clearedPage r n (L₁.page r n 1),?_,?_,?_⟩,?_⟩
  · have hwrapped : (turnPage q 1).wrapped = true := by
      cases hw : q.wrapped <;> simp [turnPage,hw]
    rw [hwrapped,List.length_cons]
    exact ⟨fun _ => by omega,fun _ => rfl⟩
  · rw [setProperty_page,setPage_page,if_pos ⟨rfl,rfl,rfl⟩]
  · rw [clearedPage_reportedValues,List.length_cons]
    simp only [List.length_nil]
    omega
  · intro hlt'
    rw [List.length_cons] at hlt'
    omega
  · intro k hk
    subst hL₁
    rw [setProperty_page,setPage_page,if_neg fun hhit => hk hhit.2.2,setPage_page,
      if_neg fun hhit => hk hhit.2.2]
    exact h.others k hk

/-- One update of the property: its value is one more that was accepted. -/
theorem OnePage.report {q : Property} {acc : List ReportedValue}
    (h : OnePage L r u.name q acc) (hq : L.property r u.name = some q)
    (hu : Report range r signer ts L u L') : ∃ v q', L.storedValue r signer ts u = some v ∧
      L'.property r u.name = some q' ∧ OnePage L' r u.name q' (v :: acc) := by
  cases hu with
  | @filed _ q₁ page v hrep hroom =>
    obtain rfl : q = q₁ := Option.some.inj (hq.symm.trans hrep.property)
    have hpage := hrep.page
    rw [h.current] at hpage ⊢
    exact ⟨v,q,hrep.reported_value.storedValue,hq,h.filed hpage v hroom⟩
  | @turned L₁ _ q₁ page v next hrep hfull hnext hL₁ =>
    obtain rfl : q = q₁ := Option.some.inj (hq.symm.trans hrep.property)
    have hpage := hrep.page
    rw [h.current] at hnext hpage hL₁
    obtain rfl := nextPageNumber_one hnext
    refine ⟨v,turnPage q 1,hrep.reported_value.storedValue,?_,h.turned hpage v hfull hL₁⟩
    rw [setProperty_property,if_pos ⟨rfl,rfl⟩]

/-- The updates of one transaction: those of the property are all accepted. -/
theorem OnePage.reports (hL : Homed range L) (hr : ∃ rec, L.record r = some rec) {q : Property}
    {acc : List ReportedValue} (h : OnePage L r n q acc) (hq : L.property r n = some q)
    (hus : Reports range r signer ts L us L') : ∃ q', L'.property r n = some q' ∧
      OnePage L' r n q'
        ((us.filter fun u => u.name = n).filterMap (L.storedValue r signer ts) ++ acc) := by
  induction hus generalizing q acc with
  | nil => exact ⟨q,hq,h⟩
  | @cons L L₁ _ u us hu _ ih =>
    -- the values of the later updates can be read off the ledger before the transaction
    have hsame : L₁.storedValue r signer ts = L.storedValue r signer ts :=
      funext fun u' => storedValue_of_turned (hu.turned_property hL r)
    have hL₁ := hL.report hr hu
    have hr₁ := hu.framed.record ▸ hr
    by_cases hn : u.name = n
    · subst hn
      obtain ⟨v,q₁,hv,hq₁,h₁⟩ := h.report hq hu
      obtain ⟨q',hq',h'⟩ := ih hL₁ hr₁ h₁ hq₁
      rw [hsame] at h'
      refine ⟨q',hq',h'.perm ?_⟩
      rw [List.filter_cons_of_pos (by simp),List.filterMap_cons_some hv]
      exact List.perm_middle
    · obtain ⟨hprop,hpage⟩ := hu.elsewhere (r := r) fun hhit => hn hhit.2.symm
      obtain ⟨q',hq',h'⟩ := ih hL₁ hr₁ (h.elsewhere hpage) (hprop.trans hq)
      rw [hsame] at h'
      rw [List.filter_cons_of_neg (by simpa using hn)]
      exact ⟨q',hq',h'⟩

/-- The updates of one record leave the records of other ranges alone. -/
theorem Reports.elsewhere {r' : String} (hne : range r' ≠ range r)
    (hus : Reports range r signer ts L us L') :
    L'.property r' = L.property r' ∧ L'.page r' = L.page r' := by
  induction hus with
  | nil => exact ⟨rfl,rfl⟩
  | cons hu _ ih =>
    have hone := fun n => hu.elsewhere (fun hhit : range r' = _ ∧ n = _ => hne hhit.1)
    exact ⟨ih.1.trans (funext fun n => (hone n).1),ih.2.trans (funext fun n => (hone n).2)⟩

/-- Nothing is reported for a record before it is created. -/
theorem run_accepted_nil {h : List (Ledger × Tx)} (hr : Run (Step range) empty h L)
    (hnone : L.record r = none) : accepted r n h = [] := by
  induction hr with
  | nil => rfl
  | @snoc h L L' tx hr hstep ih =>
    have hold : L.record r = none := by
      cases hrec : L.record r with
      | none => rfl
      | some rec =>
        obtain ⟨rec',hrec',_⟩ := hstep.record_grown r rec hrec
        rw [hnone] at hrec'
        exact nomatch hrec'
    rw [accepted_cons,ih hold,List.append_nil]
    refine valuesOf_other (fun a ha hra => ?_) (fun a ha hra => ?_)
    · obtain ⟨t,initial,hc⟩ := hstep.created_of_action ha
      have hnew := hc.new_record
      rw [hra,hnone] at hnew
      exact nomatch hnew
    · rcases hstep.property_cases with ⟨_,_,_,_,_,rfl,_⟩ | ⟨_,_,b,rec,rfl,hrec,_,_⟩ |
          ⟨_,hquiet,_,_⟩
      · exact nomatch ha
      · obtain rfl := Action.UpdateProperties.inj ha
        rw [hra,hold] at hrec
        exact nomatch hrec
      · exact hquiet a ha

/-- A step that neither creates a record nor updates one keeps the pages. -/
theorem OnePage.evolves {q q' : Property} {acc : List ReportedValue} (h : OnePage L r n q acc)
    (hev : Evolves L.Registered q q') (hpage : L'.page = L.page) : OnePage L' r n q' acc := by
  have heq := hev.eq
  refine ⟨?_,?_,?_,?_⟩
  · rw [heq]
    exact h.current
  · rw [heq]
    exact h.wrapped
  · rw [hpage]
    exact h.page
  · rw [hpage]
    exact h.others

section Creation

variable {a : CreateRecordAction} {t : Table} {initial : String → List ReportedValue}

/-- A property of a new record comes from an entry of its table. -/
theorem Created.property_entry (hL : Homed range L) (hd : DistinctRanges range L')
    (hc : Created range L signer ts a t initial L') {q : Property}
    (hq : L'.property a.recordId n = some q) :
    ∃ col, t.entry n = some col ∧ q = newProperty a.recordId signer n col := by
  rw [hc.eq,initProperties_property] at hq
  split at hq
  · obtain ⟨col,hcol,rfl⟩ := Option.map_eq_some_iff.mp hq
    rw [tableSchema_lookup] at hcol
    exact ⟨col,hcol,rfl⟩
  · exact absurd rfl (hc.not_range hL hd hq)

/-- A new record has one page for each property. -/
theorem Created.onePage (hL : Homed range L) (hd : DistinctRanges range L')
    (hc : Created range L signer ts a t initial L') {col : PropertySchema}
    (hcol : t.entry n = some col) :
    OnePage L' a.recordId n (newProperty a.recordId signer n col) (initial n) := by
  have hlookup : (tableSchema t).lookup n = some col := by rw [tableSchema_lookup,hcol]
  have hlt : (initial n).length < 256 := by
    rw [length_initialValues (hc.values n col hlookup)]
    split <;> decide
  refine ⟨rfl,⟨nofun,fun hge => absurd hlt (not_lt.mpr hge)⟩,
    ⟨⟨n,a.recordId,initial n⟩,?_,(Nat.mod_eq_of_lt hlt).symm,fun _ => .refl _⟩,?_⟩
  · rw [hc.eq,initProperties_page,if_pos ⟨rfl,by rw [hlookup]; rfl,rfl⟩]
  · intro k hk
    rw [hc.eq,initProperties_page,if_neg fun hhit => hk hhit.2.2]
    cases hpage : L.page a.recordId n k with
    | none => exact hpage
    | some page => exact absurd rfl (hc.page_not_range hL hd hpage)

end Creation

/-- Every property of a record has one page. -/
theorem run_onePage {h : List (Ledger × Tx)} (hd : DistinctRanges range L)
    (hr : Run (Step range) empty h L) {rec : Record} {q : Property}
    (hrec : L.record r = some rec) (hq : L.property r n = some q) :
    OnePage L r n q (accepted r n h) := by
  induction hr generalizing rec q with
  | nil => exact nomatch hrec
  | @snoc h L L' tx hr hstep ih =>
    have hL := run_homed homed_empty hr
    have hd₀ := hd.of_grown hstep.record_grown
    rw [accepted_cons]
    rcases hstep.property_cases with ⟨signer,ts,a,t,initial,rfl,hc⟩ |
        ⟨signer,ts,a,recA,rfl,hrecA,_,hus⟩ | ⟨hquiet,hquiet',hpage,hprop⟩
    · by_cases hra : a.recordId = r
      · -- the record is new, and nothing was reported for it before
        subst hra
        obtain ⟨col,hcol,rfl⟩ := hc.property_entry hL hd hq
        rw [run_accepted_nil hr hc.fresh,List.append_nil,hc.initial_eq hcol]
        exact hc.onePage hL hd hcol
      · rw [valuesOf_other (fun b hb => by cases hb; exact hra) (fun b hb => by cases hb),
          List.nil_append]
        rw [hc.record,Function.update_of_ne (Ne.symm hra)] at hrec
        have hne := hc.range_ne hd hrec
        rw [hc.eq,initProperties_property,if_neg fun hhit => hne hhit.1] at hq
        refine (ih hd₀ hrec hq).elsewhere ?_
        funext k
        rw [hc.eq,initProperties_page,if_neg fun hhit => hne hhit.1]
        rfl
    · rw [hus.framed.record] at hrec
      by_cases hra : a.recordId = r
      · subst hra
        obtain ⟨q₀,hq₀,_⟩ := rel_some_right (hq ▸ hus.turned_property hL ⟨recA,hrecA⟩ a.recordId n)
        obtain ⟨q',hq',h'⟩ := (ih hd₀ hrec hq₀).reports hL ⟨recA,hrecA⟩ hq₀ hus
        obtain rfl := Option.some.inj (hq.symm.trans hq')
        simpa only [valuesOf,if_pos] using h'
      · -- another record is updated, in another range
        have hne : range r ≠ range a.recordId :=
          fun he => hra (hd₀ _ _ _ _ hrec hrecA he).symm
        obtain ⟨hprop,hpage⟩ := hus.elsewhere hne
        rw [hprop] at hq
        rw [valuesOf_other (fun b hb => by cases hb) (fun b hb => by cases hb; exact hra),
          List.nil_append]
        exact (ih hd₀ hrec hq).elsewhere (congrFun hpage n)
    · rw [valuesOf_other (fun b hb => absurd hb (hquiet b)) (fun b hb => absurd hb (hquiet' b)),
        List.nil_append]
      obtain ⟨q₀,hq₀,hev⟩ := rel_some_right (hq ▸ hprop r n)
      rcases hstep.record_cases hrec with ⟨_,_,a,_,_,rfl,_⟩ | ⟨rec₀,hrec₀,_⟩
      · exact absurd rfl (hquiet a)
      · exact (ih hd₀ hrec₀ hq₀).evolves hev hpage

/-! ## The ring -/

/-- The values on the pages of the property. -/
def ring (L : Ledger) (r n : String) : List ReportedValue :=
  (List.range' 1 0xffff).flatMap fun k =>
    match L.page r n k with
    | some page => page.reportedValues
    | none => []

theorem OnePage.ring_eq {q : Property} {acc : List ReportedValue} (h : OnePage L r n q acc)
    {page : PropertyPage} (hpage : L.page r n 1 = some page) :
    L.ring r n = page.reportedValues := by
  have hrest : (List.range' 2 0xfffe).flatMap (fun k =>
      match L.page r n k with
      | some page => page.reportedValues
      | none => []) = [] := by
    rw [List.flatMap_eq_nil_iff]
    intro k hk
    have hne : k ≠ 1 := by
      have := (List.mem_range'_1.mp hk).1
      omega
    rw [h.others k hne]
  rw [ring,List.range'_succ,List.flatMap_cons,hrest,hpage,List.append_nil]

/-- What filling its page makes of the place of a property: the next page follows, and after
page 0xffff the first page of a ring that is full. -/
def nextPlace (place : Nat × Bool) : Nat × Bool :=
  if place.1 = 0xffff then (1,true) else (place.1 + 1,place.2)

/-- The update moves the property on exactly if its value fills the current page. -/
def Turns (L L' : Ledger) (r n : String) (u : PropertyValue) : Prop :=
  ∀ q page, L.property r n = some q → L.page r n q.currentPage = some page →
    (L'.property r n).map Property.place =
      some (if u.name = n ∧ PROPERTY_PAGE_MAX_LENGTH ≤ page.reportedValues.length + 1
        then nextPlace q.place else q.place)

/-- An update turns as a ring does as long as page 1 is not filled. -/
theorem OnePage.turns {q : Property} {acc : List ReportedValue} (h : OnePage L r n q acc)
    (hq : L.property r n = some q) (hu : Report range r signer ts L u L')
    (hroom : u.name = n → acc.length + 1 < PROPERTY_PAGE_MAX_LENGTH) : Turns L L' r n u := by
  intro q₁ page hq₁ hpage
  obtain rfl := Option.some.inj (hq.symm.trans hq₁)
  by_cases hn : u.name = n
  · subst hn
    obtain ⟨page₁,hpage₁,hlen,_⟩ := h.page
    rw [h.current] at hpage
    obtain rfl := Option.some.inj (hpage.symm.trans hpage₁)
    have hlt := hroom rfl
    simp only [PROPERTY_PAGE_MAX_LENGTH] at hlt
    rw [Nat.mod_eq_of_lt (by omega)] at hlen
    rw [if_neg fun hfull => by simp only [PROPERTY_PAGE_MAX_LENGTH] at hfull; omega]
    cases hu with
    | filed => exact congrArg (Option.map Property.place) hq
    | turned hrep hfull =>
      -- the page that would be full is page 1
      have hrep' := hrep.page
      obtain rfl := Option.some.inj (hq.symm.trans hrep.property)
      rw [h.current,hpage] at hrep'
      rw [← Option.some.inj hrep',length_pushReportedValue,hlen] at hfull
      simp only [PROPERTY_PAGE_MAX_LENGTH] at hfull
      omega
  · rw [if_neg fun hfull => hn hfull.1,(hu.elsewhere fun hhit => hn hhit.2.symm).1,hq]
    rfl

/-- The update that fills page 1 does not turn as a ring does. -/
theorem OnePage.room {q : Property} {acc : List ReportedValue} (h : OnePage L r u.name q acc)
    (hq : L.property r u.name = some q) (hu : Report range r signer ts L u L')
    (hturns : Turns L L' r u.name u) (hlt : acc.length < PROPERTY_PAGE_MAX_LENGTH) :
    acc.length + 1 < PROPERTY_PAGE_MAX_LENGTH := by
  obtain ⟨_,q',_,hq',h'⟩ := h.report hq hu
  obtain ⟨page,hpage,hlen,_⟩ := h.page
  have hplace := hturns q page hq (h.current.symm ▸ hpage)
  by_contra hfull
  simp only [PROPERTY_PAGE_MAX_LENGTH] at hlt hfull
  rw [Nat.mod_eq_of_lt hlt] at hlen
  have hfilled : PROPERTY_PAGE_MAX_LENGTH ≤ page.reportedValues.length + 1 := by
    simp only [PROPERTY_PAGE_MAX_LENGTH]
    omega
  have hfirst : nextPlace q.place = (2,q.wrapped) := by
    rw [Property.place,h.current,nextPlace,if_neg (show 1 ≠ 0xffff by decide)]
  rw [hq',if_pos ⟨rfl,hfilled⟩,hfirst] at hplace
  have hcurrent : q'.currentPage = 2 := congrArg Prod.fst (Option.some.inj hplace)
  exact absurd (h'.current.symm.trans hcurrent) (by decide)

/-- What is not an update of the record keeps the place of its properties; a new one starts at
page 1. -/
theorem Step.place_kept (hL : Homed range L) (hd : DistinctRanges range L')
    (hstep : Step range L tx L')
    (hquiet : ∀ a, tx.action = .UpdateProperties a → a.recordId ≠ r) {rec : Record}
    (hrec : L'.record r = some rec) {q : Property} (hq : L'.property r n = some q) :
    q.place = ((L.property r n).map Property.place).getD (1,false) := by
  rcases hstep.property_cases with ⟨signer,ts,a,t,initial,rfl,hc⟩ |
      ⟨signer,ts,a,recA,rfl,hrecA,_,hus⟩ | ⟨_,_,_,hprop⟩
  · by_cases hra : a.recordId = r
    · subst hra
      obtain ⟨col,_,rfl⟩ := hc.property_entry hL hd hq
      cases hold : L.property a.recordId n with
      | none => rfl
      | some q₀ => exact absurd rfl (hc.not_range hL hd hold)
    · rw [hc.record,Function.update_of_ne (Ne.symm hra)] at hrec
      have hne := hc.range_ne hd hrec
      rw [hc.eq,initProperties_property,if_neg fun hhit => hne hhit.1] at hq
      rw [show L.property r n = some q from hq]
      rfl
  · -- another record is updated, in another range
    have hra := hquiet a rfl
    have hrecA' := hus.framed.record ▸ hrecA
    have hne : range r ≠ range a.recordId := fun he => hra (hd _ _ _ _ hrec hrecA' he).symm
    rw [(hus.elsewhere hne).1] at hq
    rw [hq]
    rfl
  · obtain ⟨q₀,hq₀,hev⟩ := rel_some_right (hq ▸ hprop r n)
    rw [hq₀,hev.eq]
    rfl

end Ledger

theorem Ledger.length_accepted {env : Env} {h : List (State × Tx)} {L : Ledger} {r n : String}
    (hr : Run (Step env.range) empty (ledgers env h) L) :
    (accepted r n (ledgers env h)).length = reportTotal r n h := by
  rw [run_length_accepted hr,ledgers,reportTotal,reportTotal,List.map_map]
  rfl

theorem Ledger.reportTotal_append {σ : Type} (r n : String) (h h' : List (σ × Tx)) :
    reportTotal r n (h ++ h') = reportTotal r n h + reportTotal r n h' := by
  simp [reportTotal]

theorem Ledger.reportTotal_cons {σ : Type} (r n : String) (e : σ × Tx) (h : List (σ × Tx)) :
    reportTotal r n (e :: h) = reportCount r n e.2 + reportTotal r n h := rfl

theorem replay_reportTotal {h : List (State × Tx)} {requests : List TpProcessRequest}
    (hmap : h.map (fun e => some e.2) = (requests.map TpProcessRequest.tx?).reverse)
    {r n : String} : Ledger.reportTotal r n h =
      (requests.filterMap fun q => q.tx?.map (Ledger.reportCount r n)).sum := by
  have hcount : h.map (fun e => Ledger.reportCount r n e.2) =
      h.filterMap fun e => some (Ledger.reportCount r n e.2) :=
    (congrFun List.filterMap_eq_map h).symm
  rw [Ledger.reportTotal,hcount,filterMap_history hmap fun tx => some (Ledger.reportCount r n tx),
    List.sum_reverse]
  simp only [Option.map_eq_bind]
  rfl

/-- An update of the record in a transaction of the history: its value, and the states before
and after it, of which the first has the updates before it in the transaction. -/
inductive Updating (env : Env) (h : List (State × Tx)) (r : String) :
    PropertyValue → State → State → Prop
  | intro {s s₁ s₂ : State} {signer : String} {ts : Nat} {a : UpdatePropertiesAction}
      {us us' : List PropertyValue} {u : PropertyValue}
      (htx : (s,⟨signer,ts,.UpdateProperties a⟩) ∈ h) (hrecord : a.recordId = r)
      (hus : a.properties = us ++ u :: us')
      (hbefore : us.foldlM (updateProperty env r signer ts) s = .ok s₁)
      (hu : updateProperty env r signer ts s₁ u = .ok s₂) : Updating env h r u s₁ s₂

/-- What a run makes of a ring of 65535 pages of 256 values. -/
structure RingBuffer (env : Env) (h : List (State × Tx)) (s : State) (r n : String) : Prop where
  values : Ledger.reportTotal r n h < 256 * 0xffff →
    ((ledger env s).ring r n).Perm (Ledger.accepted r n (ledgers env h))
  turns : ∀ u s₁ s₂, Updating env h r u s₁ s₂ → Ledger.Turns (ledger env s₁) (ledger env s₂) r n u
  kept : ∀ e ∈ Run.steps h s, (∀ a, e.2.1.action = .UpdateProperties a → a.recordId ≠ r) →
    ∀ q, (ledger env e.2.2).property r n = some q →
      q.place = (((ledger env e.1).property r n).map Property.place).getD (1,false)

section Run

variable {env : Env} {h h' : List (State × Tx)} {s s' : State} {r n : String}

theorem Updating.mono {u : PropertyValue} {s₁ s₂ : State} (hu : Updating env h r u s₁ s₂)
    (hsub : h ⊆ h') : Updating env h' r u s₁ s₂ := by
  obtain ⟨htx,hrecord,hus,hbefore,hu⟩ := hu
  exact ⟨hsub htx,hrecord,hus,hbefore,hu⟩

theorem DistinctAddresses.of_accepted {tx : Tx} (hs : Stored env s) (ht : Accepted env s tx s')
    (hd : DistinctAddresses env s') : DistinctAddresses env s :=
  Ledger.DistinctRanges.of_grown hd (accepted_refines hs ht).2.record_grown

theorem accepted_updates {signer : String} {ts : Nat} {a : UpdatePropertiesAction}
    (h : Accepted env s ⟨signer,ts,.UpdateProperties a⟩ s') :
    a.properties.foldlM (updateProperty env a.recordId signer ts) s = .ok s' := by
  obtain ⟨_,h⟩ := accepted_dispatch h
  obtain ⟨_,_,h⟩ := bind_eq_ok.mp h
  obtain ⟨_,_,h⟩ := bind_eq_ok.mp h
  exact h

/-- Every step of a run that is not an update of the record keeps the places of its properties. -/
theorem place_kept (hr : Reachable env h s) (hd : DistinctAddresses env s)
    (halone : ∀ r' rec', (ledger env s).record r' = some rec' → env.range r' = env.range r →
      r' = r) :
    ∀ e ∈ Run.steps h s, (∀ a, e.2.1.action = .UpdateProperties a → a.recordId ≠ r) →
      ∀ q, (ledger env e.2.2).property r n = some q →
        q.place = (((ledger env e.1).property r n).map Property.place).getD (1,false) := by
  induction hr with
  | nil => exact fun e he => nomatch he
  | @snoc h s s' tx hr ht ih =>
    obtain ⟨hs',hstep⟩ := accepted_refines (reachable_refines hr).1 ht
    have hgrown := hstep.record_grown
    refine List.forall_mem_cons.mpr ⟨fun hquiet q hq => ?_,ih (hd.of_grown hgrown) ?_⟩
    · -- the property is that of a record in its range, and there is none but `r`
      obtain ⟨_,hrange,rec',hrec'⟩ := (hstep.homed (reachable_homed hr)).property r n q hq
      rw [halone q.recordId rec' hrec' hrange] at hrec'
      exact hstep.place_kept (reachable_homed hr) hd hquiet hrec' hq
    · intro r' rec' hrec' hrange
      obtain ⟨rec'',hrec'',_⟩ := hgrown r' rec' hrec'
      exact halone r' rec'' hrec'' hrange

/-- A transaction whose updates all turn as a ring does leaves page 1 with room. -/
theorem fold_room {signer : String} {ts : Nat} {us : List PropertyValue} {q : Property}
    {rec : Record} {acc : List ReportedValue} (hs : Stored env s)
    (hL : Ledger.Homed env.range (ledger env s)) (hrec : (ledger env s).record r = some rec)
    (hone : Ledger.OnePage (ledger env s) r n q acc) (hq : (ledger env s).property r n = some q)
    (hlt : acc.length < PROPERTY_PAGE_MAX_LENGTH)
    (h : us.foldlM (updateProperty env r signer ts) s = .ok s')
    (hturns : ∀ us₁ u us₂ s₁ s₂, us = us₁ ++ u :: us₂ →
      us₁.foldlM (updateProperty env r signer ts) s = .ok s₁ →
      updateProperty env r signer ts s₁ u = .ok s₂ →
      Ledger.Turns (ledger env s₁) (ledger env s₂) r n u) :
    acc.length + (us.filter fun u => u.name = n).length < PROPERTY_PAGE_MAX_LENGTH := by
  induction us generalizing s q acc with
  | nil => exact hlt
  | cons u us ih =>
    obtain ⟨t,ht,htail⟩ := foldlM_cons_eq_ok.mp h
    obtain ⟨hst,hu⟩ := updateProperty_spec hs ht
    have hL' := hL.report ⟨rec,hrec⟩ hu
    have hrec' := hu.framed.record ▸ hrec
    have hlater : ∀ us₁ u' us₂ s₁ s₂, us = us₁ ++ u' :: us₂ →
        us₁.foldlM (updateProperty env r signer ts) t = .ok s₁ →
        updateProperty env r signer ts s₁ u' = .ok s₂ →
        Ledger.Turns (ledger env s₁) (ledger env s₂) r n u' := by
      intro us₁ u' us₂ s₁ s₂ heq hfold hu'
      exact hturns (u :: us₁) u' us₂ s₁ s₂ (by rw [heq,List.cons_append])
        (foldlM_cons_eq_ok.mpr ⟨t,ht,hfold⟩) hu'
    by_cases hn : u.name = n
    · subst hn
      have hturn := hturns [] u us s t rfl (foldlM_nil_eq_ok.mpr rfl) ht
      have hroom := hone.room hq hu hturn hlt
      obtain ⟨v,q',_,hq',hone'⟩ := hone.report hq hu
      have hrest := ih hst hL' hrec' hone' hq' hroom htail hlater
      rw [List.length_cons] at hrest
      rw [List.filter_cons_of_pos (by simp),List.length_cons]
      omega
    · have helse : ¬(env.range r = env.range r ∧ n = u.name) := fun hhit => hn hhit.2.symm
      obtain ⟨hprop,hpage⟩ := hu.elsewhere helse
      rw [List.filter_cons_of_neg (by simpa using hn)]
      exact ih hst hL' hrec' (hone.elsewhere hpage) (hprop.trans hq) hlt htail hlater

/-- Without the property a transaction carries no value for it. -/
theorem filter_updates_nil {us : List PropertyValue} {signer : String} {ts : Nat} {L L' : Ledger}
    {range : String → Address} (hL : Ledger.Homed range L) (hr : ∃ rec, L.record r = some rec)
    (hus : Ledger.Reports range r signer ts L us L') (hq : L.property r n = none) :
    us.filter (fun u => u.name = n) = [] := by
  rw [List.filter_eq_nil_iff]
  intro u hu hn
  obtain ⟨v,q,_,hq',_⟩ := hus.all_reported hL hr u hu
  rw [decide_eq_true_eq] at hn
  rw [hn,hq] at hq'
  exact nomatch hq'

/-- A run whose updates all turn as those of a ring never fills page 1. -/
theorem reportTotal_lt (hr : Reachable env h s) (hd : DistinctAddresses env s)
    (hturns : ∀ u s₁ s₂, Updating env h r u s₁ s₂ →
      Ledger.Turns (ledger env s₁) (ledger env s₂) r n u) :
    Ledger.reportTotal r n h < PROPERTY_PAGE_MAX_LENGTH := by
  induction hr with
  | nil => exact Nat.zero_lt_succ 255
  | @snoc h s s' tx hr ht ih =>
    obtain ⟨hs,hrun⟩ := reachable_refines hr
    have hL := reachable_homed hr
    have hd₀ := hd.of_accepted hs ht
    have hstep := (accepted_refines hs ht).2
    have hprev := ih hd₀ fun u s₁ s₂ hu => hturns u s₁ s₂ (hu.mono (List.subset_cons_self _ _))
    rw [Ledger.reportTotal_cons]
    obtain ⟨signer,ts,action⟩ := tx
    cases action with
    | CreateRecord a =>
      by_cases hra : a.recordId = r
      · -- nothing was reported for the record before it was created
        obtain ⟨t,initial,hc⟩ := hstep.created_of_action rfl
        rw [← Ledger.length_accepted hrun,Ledger.run_accepted_nil hrun (hra ▸ hc.fresh)]
        simp only [Ledger.reportCount]
        split <;> decide
      · simpa [Ledger.reportCount,hra] using hprev
    | UpdateProperties a =>
      by_cases hra : a.recordId = r
      · subst hra
        cases hstep with
        | updateProperties hrec _ hus =>
          simp only [Ledger.reportCount,if_pos]
          rw [Nat.add_comm,← Ledger.length_accepted hrun]
          rw [← Ledger.length_accepted hrun] at hprev
          cases hq : (ledger env s).property a.recordId n with
          | none =>
            rw [filter_updates_nil hL ⟨_,hrec⟩ hus hq]
            exact hprev
          | some q =>
            exact fold_room hs hL hrec (Ledger.run_onePage hd₀ hrun hrec hq) hq hprev
              (accepted_updates ht) fun us₁ u us₂ s₁ s₂ heq hbefore hu =>
                hturns u s₁ s₂ ⟨List.mem_cons_self,rfl,heq,hbefore,hu⟩
      · simpa [Ledger.reportCount,hra] using hprev
    | _ => simpa [Ledger.reportCount] using hprev

/-- The history up to an update of the record, with its transaction, carries no more values
than the whole. -/
theorem reportTotal_split {h₁ h₂ : List (State × Tx)} {signer : String} {ts : Nat}
    {a : UpdatePropertiesAction} {us us' : List PropertyValue} {u : PropertyValue}
    (hus : a.properties = us ++ u :: us') (hn : u.name = n) :
    Ledger.reportTotal a.recordId n h₁ + (us.filter fun u => u.name = n).length + 1 ≤
      Ledger.reportTotal a.recordId n (h₂ ++ (s,⟨signer,ts,.UpdateProperties a⟩) :: h₁) := by
  rw [Ledger.reportTotal_append,Ledger.reportTotal_cons]
  simp only [Ledger.reportCount,if_pos]
  rw [hus,List.filter_append,List.filter_cons_of_pos (by simpa using hn),List.length_append,
    List.length_cons]
  omega

/-- Every update of a run with fewer than 256 values for the property turns as a ring does. -/
theorem turns_of_reportTotal (hr : Reachable env h s) (hd : DistinctAddresses env s)
    (hlt : Ledger.reportTotal r n h < PROPERTY_PAGE_MAX_LENGTH) {u : PropertyValue}
    {s₁ s₂ : State} (hu : Updating env h r u s₁ s₂) :
    Ledger.Turns (ledger env s₁) (ledger env s₂) r n u := by
  obtain @⟨t,_,_,signer,ts,a,us,us',_,htx,rfl,hus,hbefore,hu⟩ := hu
  obtain ⟨h₁,h₂,m,rfl,hr₁,ht,hr₂⟩ := hr.split htx
  obtain ⟨hst,hrun⟩ := reachable_refines hr₁
  have hL := reachable_homed hr₁
  obtain ⟨hsm,hstep⟩ := accepted_refines hst ht
  have hdm : DistinctAddresses env m :=
    Ledger.DistinctRanges.of_grown hd (Ledger.run_record_grown (run_refines hsm hr₂).2)
  have hdt := hdm.of_accepted hst ht
  obtain ⟨hs₁,hreports⟩ := updateProperty_fold hst hbefore
  have hreport := (updateProperty_spec hs₁ hu).2
  cases hstep with
  | updateProperties hrec _ _ =>
    intro q page hq hpage
    -- the property is there before the transaction, so the updates so far filed on page 1
    obtain ⟨q₀,hq₀,_⟩ :=
      Ledger.rel_some_right (hq ▸ hreports.turned_property hL ⟨_,hrec⟩ a.recordId n)
    have hone₀ := Ledger.run_onePage hdt hrun hrec hq₀
    obtain ⟨q₁,hq₁,hone⟩ := hone₀.reports hL ⟨_,hrec⟩ hq₀ hreports
    refine hone.turns hq₁ hreport (fun hn => ?_) q page hq hpage
    have htotal := @reportTotal_split t n h₁ h₂ signer ts _ _ _ _ hus hn
    rw [List.length_append,hreports.length_stored hL ⟨_,hrec⟩,Ledger.length_accepted hrun]
    omega

theorem ringBuffer_of_reportTotal (hr : Reachable env h s) (hd : DistinctAddresses env s)
    {rec : Record} {q : Property} (hrec : (ledger env s).record r = some rec)
    (hq : (ledger env s).property r n = some q)
    (hlt : Ledger.reportTotal r n h < PROPERTY_PAGE_MAX_LENGTH) : RingBuffer env h s r n where
  values _ := by
    have hrun := (reachable_refines hr).2
    have hone := Ledger.run_onePage hd hrun hrec hq
    obtain ⟨page,hpage,_,hperm⟩ := hone.page
    rw [hone.ring_eq hpage]
    exact hperm (by rwa [Ledger.length_accepted hrun])
  turns _ _ _ hu := turns_of_reportTotal hr hd hlt hu
  kept := place_kept hr hd fun r' rec' hrec' hrange => hd r' r rec' rec hrec' hrec hrange

end Run

theorem ring_buffer_iff {env : Env} {h : List (State × Tx)} {s : State}
    (hr : Reachable env h s) (hd : DistinctAddresses env s) {r n : String} {rec : Record}
    {q : Property} (hrec : (ledger env s).record r = some rec)
    (hq : (ledger env s).property r n = some q) :
    RingBuffer env h s r n ↔ Ledger.reportTotal r n h < 256 :=
  ⟨fun hring => reportTotal_lt hr hd hring.turns,ringBuffer_of_reportTotal hr hd hrec hq⟩

/-- The sample with one update that carries that many values. -/
def Sample.filled (count : Nat) : List TpProcessRequest :=
  [Sample.request "A"
    { action := .UPDATE_PROPERTIES, timestamp := 5,
      updateProperties :=
        { recordId := "r",
          properties := List.replicate count
            { name := "p", dataType := .NUMBER, numberValue := 7 } } }]

theorem ring_buffer_sample : ∃ h, Reachable Sample.env h (Sample.after (Sample.filled 255)) ∧
    Ledger.reportTotal "r" "p" h = 255 ∧
    RingBuffer Sample.env h (Sample.after (Sample.filled 255)) "r" "p" := by
  have hok : Sample.Valid (Sample.filled 255) := by decide +kernel
  obtain ⟨h,hr,hmap⟩ := Sample.reachable hok
  have hd := Sample.distinctAddresses hok (by decide +kernel)
  obtain ⟨rec,hrec⟩ := Option.isSome_iff_exists.mp (show
    ((ledger Sample.env (Sample.after (Sample.filled 255))).record "r").isSome by decide +kernel)
  obtain ⟨q,hq⟩ := Option.isSome_iff_exists.mp (show
    ((ledger Sample.env (Sample.after (Sample.filled 255))).property "r" "p").isSome by
      decide +kernel)
  have htotal : Ledger.reportTotal "r" "p" h = 255 := by
    rw [replay_reportTotal hmap]
    decide +kernel
  exact ⟨h,hr,htotal,(ring_buffer_iff hr hd hrec hq).mpr (by rw [htotal]; decide)⟩

/-- The last of 256 values empties page 1, to which the property turns again: all of them
are lost. -/
theorem ring_buffer_filled : ∃ h q, Reachable Sample.env h (Sample.after (Sample.filled 256)) ∧
    DistinctAddresses Sample.env (Sample.after (Sample.filled 256)) ∧
    (ledger Sample.env (Sample.after (Sample.filled 256))).property "r" "p" = some q ∧
    q.fixed = false ∧ q.currentPage = 1 ∧ q.wrapped = true ∧
    (Ledger.accepted "r" "p" (ledgers Sample.env h)).length = 256 ∧
    (ledger Sample.env (Sample.after (Sample.filled 256))).ring "r" "p" = [] ∧
    ¬ RingBuffer Sample.env h (Sample.after (Sample.filled 256)) "r" "p" := by
  have hok : Sample.Valid (Sample.filled 256) := by decide +kernel
  obtain ⟨h,hr,hmap⟩ := Sample.reachable hok
  have hd := Sample.distinctAddresses hok (by decide +kernel)
  obtain ⟨rec,hrec⟩ := Option.isSome_iff_exists.mp (show
    ((ledger Sample.env (Sample.after (Sample.filled 256))).record "r").isSome by decide +kernel)
  obtain ⟨q,hq⟩ := Option.isSome_iff_exists.mp (show
    ((ledger Sample.env (Sample.after (Sample.filled 256))).property "r" "p").isSome by
      decide +kernel)
  have hfixed : ((ledger Sample.env (Sample.after (Sample.filled 256))).property "r" "p").map
      Property.fixed = some false := by decide +kernel
  have hrun := (reachable_refines hr).2
  have htotal : Ledger.reportTotal "r" "p" h = 256 := by
    rw [replay_reportTotal hmap]
    decide +kernel
  have hlen : (Ledger.accepted "r" "p" (ledgers Sample.env h)).length = 256 := by
    rw [Ledger.length_accepted hrun,htotal]
  have hone := Ledger.run_onePage hd hrun hrec hq
  obtain ⟨page,hpage,hempty,_⟩ := hone.page
  have hring : (ledger Sample.env (Sample.after (Sample.filled 256))).ring "r" "p" = [] := by
    rw [hone.ring_eq hpage]
    exact List.eq_nil_of_length_eq_zero (by rw [hempty,hlen])
  refine ⟨h,q,hr,hd,hq,?_,hone.current,hone.wrapped.mpr hlen.ge,hlen,hring,fun hb => ?_⟩
  · rw [hq] at hfixed
    exact Option.some.inj hfixed
  · exact absurd (reportTotal_lt hr hd hb.turns) (by rw [htotal]; decide)

end DgcRestApi
