import DgcRestApi.Ledger.RingBuffer

/-!
# Pages are bounded and sorted

An update writes a page up to three times: the value is pushed and sorted in, and when that
fills the page, the next page is emptied. Timestamps may come in any order.
-/

namespace DgcRestApi
open Keyed

/-- What the values of a page are sorted by. -/
def ReportedValue.rank (rv : ReportedValue) : Nat ×ₗ Nat := toLex (rv.timestamp,rv.reporterIndex)

def PropertyPage.Sorted (page : PropertyPage) : Prop :=
  page.reportedValues.Pairwise fun v w => v.rank ≤ w.rank

theorem pushReportedValue_sorted (page : PropertyPage) (v : ReportedValue) :
    (pushReportedValue page v).Sorted :=
  List.pairwise_insertionSort _ _

theorem clearedPage_sorted (r n : String) (page : Option PropertyPage) :
    (clearedPage r n page).Sorted := by
  rw [PropertyPage.Sorted,clearedPage_reportedValues]
  exact .nil

namespace Ledger

variable {range : String → Address} {L L' : Ledger} {tx : Tx} {r n signer : String} {k ts : Nat}
variable {u : PropertyValue}

def PagesSorted (L : Ledger) : Prop :=
  ∀ r n k page, L.page r n k = some page → page.Sorted

theorem PagesSorted.setPage (h : PagesSorted L) {page : PropertyPage} (hpage : page.Sorted) :
    PagesSorted (L.setPage range r n k page) := by
  intro r' n' k' page' hp
  rw [setPage_page] at hp
  split at hp
  · exact Option.some.inj hp ▸ hpage
  · exact h r' n' k' page' hp

theorem Report.pagesSorted (h : PagesSorted L) (hu : Report range r signer ts L u L') :
    PagesSorted L' := by
  cases hu with
  | filed => exact h.setPage (pushReportedValue_sorted _ _)
  | turned _ _ _ hL₁ =>
    have h₁ := hL₁ ▸ h.setPage (pushReportedValue_sorted _ _)
    exact h₁.setPage (clearedPage_sorted _ _ _)

/-- The first page of a new property has at most one value. -/
theorem initialValues_sorted {provided : Option PropertyValue} {q : Property}
    {vs : List ReportedValue} (h : initialValues ts provided q = .ok vs) :
    vs.Pairwise fun v w => v.rank ≤ w.rank := by
  have hlen := length_initialValues h
  cases vs with
  | nil => exact .nil
  | cons v vs =>
    cases vs with
    | nil => exact List.pairwise_singleton _ _
    | cons w vs =>
      rw [List.length_cons,List.length_cons] at hlen
      split at hlen <;> omega

theorem Created.pagesSorted {a : CreateRecordAction} {t : Table}
    {initial : String → List ReportedValue} (h : PagesSorted L)
    (hc : Created range L signer ts a t initial L') : PagesSorted L' := by
  intro r' n' k' page hp
  rw [hc.eq,initProperties_page] at hp
  split at hp
  · next hhit =>
    obtain rfl := Option.some.inj hp
    obtain ⟨col,hcol⟩ := Option.isSome_iff_exists.mp (Option.isSome_map ▸ hhit.2.1)
    exact initialValues_sorted (hc.values n' col hcol)
  · exact h r' n' k' page hp

theorem Step.pagesSorted (h : PagesSorted L) (hstep : Step range L tx L') : PagesSorted L' := by
  rcases hstep.property_cases with ⟨_,_,_,_,_,_,hc⟩ | ⟨_,_,_,_,_,_,_,hus⟩ | ⟨_,_,hpage,_⟩
  · exact hc.pagesSorted h
  · exact hus.invariant PagesSorted (fun _ _ _ _ hP hu => hu.pagesSorted hP) h
  · intro r' n' k' page hp
    exact h r' n' k' page (hpage ▸ hp)

theorem pagesSorted_empty : PagesSorted empty := by
  intro r n k page hp
  exact nomatch hp

theorem run_pagesSorted {h : List (Ledger × Tx)} (hr : Run (Step range) empty h L) :
    PagesSorted L :=
  hr.invariant PagesSorted (fun _ _ _ hP hstep => hstep.pagesSorted hP) pagesSorted_empty

/-- The pages of a property: the current one has room, none holds more than a page does. -/
structure PageBounds (L : Ledger) (r n : String) (q : Property) : Prop where
  current : ∃ page, L.page r n q.currentPage = some page ∧ page.name = n ∧ page.recordId = r ∧
    page.reportedValues.length ≤ 255
  bounded : ∀ k page, L.page r n k = some page → page.reportedValues.length ≤ 256

theorem OnePage.pageBounds {rec : Record} {q : Property} {acc : List ReportedValue}
    (hL : Homed range L) (hd : DistinctRanges range L) (hrec : L.record r = some rec)
    (h : OnePage L r n q acc) : PageBounds L r n q := by
  obtain ⟨page,hpage,hlen,_⟩ := h.page
  have hlt := Nat.mod_lt acc.length (show 0 < 256 by decide)
  constructor
  · obtain ⟨hname,hrange,rec',hrec'⟩ := hL.page r n 1 page hpage
    refine ⟨page,h.current.symm ▸ hpage,hname,hd _ _ _ _ hrec' hrec hrange,?_⟩
    rw [hlen]
    omega
  · intro k page' hp
    by_cases hk : k = 1
    · subst hk
      obtain rfl := Option.some.inj (hpage.symm.trans hp)
      rw [hlen]
      omega
    · exact nomatch (h.others k hk).symm.trans hp

end Ledger

/-- Pages are bounded and sorted in every reachable state. -/
theorem pages_bounded_sorted {env : Env} {h : List (State × Tx)} {s : State}
    (hr : Reachable env h s) (hd : DistinctAddresses env s) :
    (∀ r n rec q, (ledger env s).record r = some rec → (ledger env s).property r n = some q →
      Ledger.PageBounds (ledger env s) r n q) ∧ Ledger.PagesSorted (ledger env s) := by
  have hrun := (reachable_refines hr).2
  refine ⟨fun r n rec q hrec hq => ?_,Ledger.run_pagesSorted hrun⟩
  exact (Ledger.run_onePage hd hrun hrec hq).pageBounds (Ledger.run_homed Ledger.homed_empty hrun)
    hd hrec

def Sample.reporting (timestamp : Nat) (numberValue : Int) : TpProcessRequest :=
  request "A"
    { action := .UPDATE_PROPERTIES, timestamp
      updateProperties :=
        { recordId := "r", properties := [{ name := "p", dataType := .NUMBER, numberValue }] } }

/-- A value is reported for a time before that of the stored one. -/
def Sample.late : List TpProcessRequest := [reporting 9 7,reporting 5 8]

theorem pages_bounded_sorted_late :
    ((ledger Sample.env (Sample.after Sample.late)).page "r" "p" 1).map
      (fun page => page.reportedValues.map ReportedValue.timestamp) = some [5,9] ∧
    (∀ r n rec q, (ledger Sample.env (Sample.after Sample.late)).record r = some rec →
      (ledger Sample.env (Sample.after Sample.late)).property r n = some q →
        Ledger.PageBounds (ledger Sample.env (Sample.after Sample.late)) r n q) ∧
    Ledger.PagesSorted (ledger Sample.env (Sample.after Sample.late)) := by
  have hok : Sample.Valid Sample.late := by decide +kernel
  obtain ⟨h,hr,_⟩ := Sample.reachable hok
  exact ⟨by decide +kernel,pages_bounded_sorted hr
    (Sample.distinctAddresses hok (by decide +kernel))⟩

end DgcRestApi
