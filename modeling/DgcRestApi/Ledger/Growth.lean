import DgcRestApi.Ledger.Evolution
import DgcRestApi.Ledger.Refines
import DgcRestApi.Processor.Replay

/-!
# Histories only grow

Participants, records and tables grow whatever the digest does. A property is overwritten
only by the creation of another record in its address range, so where the records of a
ledger have distinct ranges the properties grow as well.
-/

namespace DgcRestApi

namespace Ledger

variable {range : String → Address} {L L' : Ledger} {tx : Tx} {h : List (Ledger × Tx)}

/-- No two records of the ledger share an address range. -/
def DistinctRanges (range : String → Address) (L : Ledger) : Prop :=
  ∀ r₁ r₂ rec₁ rec₂, L.record r₁ = some rec₁ → L.record r₂ = some rec₂ → range r₁ = range r₂ →
    r₁ = r₂

theorem DistinctRanges.of_grown (hd : DistinctRanges range L')
    (hg : Grown Record.Extends L.record L'.record) : DistinctRanges range L := by
  intro r₁ r₂ rec₁ rec₂ h₁ h₂ hr
  obtain ⟨rec₁',h₁',_⟩ := hg r₁ rec₁ h₁
  obtain ⟨rec₂',h₂',_⟩ := hg r₂ rec₂ h₂
  exact hd r₁ r₂ rec₁' rec₂' h₁' h₂' hr

/-- Everything in `L` is still in `L'`, extended. -/
structure Grows (L L' : Ledger) : Prop where
  participants : Grown Participant.Extends L.participant L'.participant
  records : Grown Record.Extends L.record L'.record
  tables : Grown Eq L.table L'.table
  properties : ∀ r, Grown Property.Extends (L.property r) (L'.property r)

theorem Grows.refl (L : Ledger) : Grows L L where
  participants := .refl Participant.Extends.refl _
  records := .refl Record.Extends.refl _
  tables := .refl (fun _ => rfl) _
  properties _ := .refl Property.Extends.refl _

theorem Grows.trans {L'' : Ledger} (hg : Grows L L') (hg' : Grows L' L'') : Grows L L'' where
  participants := hg.participants.trans Participant.Extends.trans hg'.participants
  records := hg.records.trans Record.Extends.trans hg'.records
  tables := hg.tables.trans (fun _ _ _ => Eq.trans) hg'.tables
  properties r :=
    (hg.properties r).trans (fun _ _ _ => Property.Extends.trans) (hg'.properties r)

theorem rel_grown {R S : Property → Property → Prop} (hRS : ∀ q q', R q q' → S q q')
    {f g : String → Option Property} (h : ∀ n, Option.Rel R (f n) (g n)) : Grown S f g := by
  intro n q hq
  obtain ⟨q',hq',hR⟩ := rel_some_left (hq ▸ h n)
  exact ⟨q',hq',hRS q q' hR⟩

section Creation

variable {signer : String} {ts : Nat} {a : CreateRecordAction} {t : Table}
variable {initial : String → List ReportedValue}

theorem Created.record (hc : Created range L signer ts a t initial L') :
    L'.record = Function.update L.record a.recordId (some (newRecord a signer ts)) := by
  funext r
  rw [hc.eq,initProperties_record,setRecord_record]

theorem Created.new_record (hc : Created range L signer ts a t initial L') :
    L'.record a.recordId = some (newRecord a signer ts) := by
  rw [hc.record,Function.update_self]

/-- With distinct ranges a new record has a range of its own. -/
theorem Created.range_ne (hd : DistinctRanges range L')
    (hc : Created range L signer ts a t initial L') {r : String} {rec : Record}
    (hrec : L.record r = some rec) : range r ≠ range a.recordId := by
  have hne : r ≠ a.recordId := by
    intro he
    rw [he,hc.fresh] at hrec
    exact nomatch hrec
  have hold : L'.record r = some rec := by rw [hc.record,Function.update_of_ne hne,hrec]
  exact fun he => hne (hd _ _ _ _ hold hc.new_record he)

/-- So nothing is overwritten by its properties -/
theorem Created.not_range (hL : Homed range L) (hd : DistinctRanges range L')
    (hc : Created range L signer ts a t initial L') {r n : String} {q : Property}
    (hq : L.property r n = some q) : range r ≠ range a.recordId := by
  obtain ⟨_,hqr,rec,hrec⟩ := hL.property r n q hq
  exact hqr ▸ hc.range_ne hd hrec

/-- nor by its pages. -/
theorem Created.page_not_range (hL : Homed range L) (hd : DistinctRanges range L')
    (hc : Created range L signer ts a t initial L') {r n : String} {k : Nat}
    {page : PropertyPage} (hpage : L.page r n k = some page) : range r ≠ range a.recordId := by
  obtain ⟨_,hpr,rec,hrec⟩ := hL.page r n k page hpage
  exact hpr ▸ hc.range_ne hd hrec

end Creation

theorem Step.grows (hL : Homed range L) (hd : DistinctRanges range L')
    (hstep : Step range L tx L') : Grows L L' where
  participants := hstep.participant_grown
  records := hstep.record_grown
  tables := hstep.table_grown
  properties r := by
    rcases hstep.property_cases with ⟨signer,ts,a,t,initial,_,hc⟩ | ⟨_,_,_,rec,_,hrec,_,hus⟩ |
        ⟨_,_,_,hprop⟩
    · -- an old property is outside the range of the new record
      intro n q hq
      have hr := hc.not_range hL hd hq
      refine ⟨q,?_,.refl q⟩
      rw [hc.eq,initProperties_property,if_neg fun hhit => hr hhit.1]
      exact hq
    · exact rel_grown (fun _ _ => Turned.extends) (hus.turned_property hL ⟨rec,hrec⟩ r)
    · exact rel_grown (fun _ _ => Evolves.extends) (hprop r)

theorem run_record_grown (hr : Run (Step range) L h L') :
    Grown Record.Extends L.record L'.record := by
  induction hr with
  | nil => exact .refl Record.Extends.refl _
  | snoc _ hstep ih => exact ih.trans Record.Extends.trans hstep.record_grown

theorem run_homed (hL : Homed range L) (hr : Run (Step range) L h L') : Homed range L' :=
  hr.invariant (Homed range) (fun _ _ _ hL hstep => hstep.homed hL) hL

theorem run_grows (hL : Homed range L) (hd : DistinctRanges range L')
    (hr : Run (Step range) L h L') : Grows L L' := by
  induction hr with
  | nil => exact .refl L
  | snoc hr hstep ih =>
    exact (ih (hd.of_grown hstep.record_grown)).trans (hstep.grows (run_homed hL hr) hd)

/-- Every ledger of the history grew into the last one. -/
theorem run_grows_from (hd : DistinctRanges range L') (hr : Run (Step range) empty h L')
    {e : Ledger × Tx} (he : e ∈ h) : Grows e.1 L' := by
  obtain ⟨h₁,h₂,m,_,hr₁,hstep,hr₂⟩ := hr.split he
  have hhomed := run_homed homed_empty hr₁
  -- ranges that are distinct at the end were distinct after the step
  exact (hstep.grows hhomed (hd.of_grown (run_record_grown hr₂))).trans
    (run_grows (hstep.homed hhomed) hd hr₂)

end Ledger

/-- The identifier of the record that a transaction creates. -/
def Tx.created (tx : Tx) : Option String :=
  match tx.action with
  | .CreateRecord a => some a.recordId
  | _ => none

namespace Ledger

variable {range : String → Address} {L L' : Ledger} {tx : Tx} {h : List (Ledger × Tx)}

/-- Every record was created by a transaction of the history. -/
theorem run_record_created (hr : Run (Step range) empty h L) {r : String} {rec : Record}
    (hrec : L.record r = some rec) : ∃ e ∈ h, e.2.created = some r := by
  induction hr generalizing rec with
  | nil => exact nomatch hrec
  | snoc _ hstep ih =>
    rcases hstep.record_cases hrec with ⟨_,_,a,_,_,rfl,_,rfl,_⟩ | ⟨rec₀,hrec₀,_⟩
    · exact ⟨_,List.mem_cons_self,rfl⟩
    · obtain ⟨e,he,hcreated⟩ := ih hrec₀
      exact ⟨e,List.mem_cons_of_mem _ he,hcreated⟩

theorem run_distinctRanges (hr : Run (Step range) empty h L)
    (hd : ((h.filterMap fun e => e.2.created).map range).Nodup) : DistinctRanges range L := by
  intro r₁ r₂ rec₁ rec₂ h₁ h₂ hrange
  obtain ⟨e₁,he₁,hc₁⟩ := run_record_created hr h₁
  obtain ⟨e₂,he₂,hc₂⟩ := run_record_created hr h₂
  exact List.inj_on_of_nodup_map hd (List.mem_filterMap.mpr ⟨e₁,he₁,hc₁⟩)
    (List.mem_filterMap.mpr ⟨e₂,he₂,hc₂⟩) hrange

end Ledger

/-- No two records of the state have one address range for their properties. -/
abbrev DistinctAddresses (env : Env) (s : State) : Prop :=
  Ledger.DistinctRanges env.range (ledger env s)

theorem reachable_homed {env : Env} {h : List (State × Tx)} {s : State}
    (hr : Reachable env h s) : Ledger.Homed env.range (ledger env s) :=
  Ledger.run_homed Ledger.homed_empty (reachable_refines hr).2

/-- The records have distinct address ranges if the identifiers of the created ones do. -/
theorem distinctAddresses_of_created {env : Env} {h : List (State × Tx)} {s : State}
    (hr : Reachable env h s)
    (hd : ((h.filterMap fun e => e.2.created).map env.range).Nodup) :
    DistinctAddresses env s := by
  refine Ledger.run_distinctRanges (reachable_refines hr).2 ?_
  rwa [ledgers,List.filterMap_map]

theorem replay_distinctAddresses {env : Env} {orders : Orders} {requests : List TpProcessRequest}
    {s : State} (h : replay env orders requests State.empty = .ok s)
    (hd : ((requests.filterMap fun r => r.tx?.bind Tx.created).map env.range).Nodup) :
    DistinctAddresses env s := by
  obtain ⟨history,hr,hmap⟩ := replay_run h
  refine distinctAddresses_of_created hr ?_
  rw [filterMap_history hmap Tx.created,List.map_reverse]
  exact List.nodup_reverse.mpr hd

/-- Only what the requests create is there. -/
theorem replay_record_created {env : Env} {orders : Orders} {requests : List TpProcessRequest}
    {s : State} (h : replay env orders requests State.empty = .ok s) {r : String} {rec : Record}
    (hrec : (ledger env s).record r = some rec) :
    r ∈ requests.filterMap fun request => request.tx?.bind Tx.created := by
  obtain ⟨history,hr,hmap⟩ := replay_run h
  obtain ⟨_,hmem,hcreated⟩ := Ledger.run_record_created (reachable_refines hr).2 hrec
  obtain ⟨e,he,rfl⟩ := List.mem_map.mp hmem
  rw [← List.mem_reverse,← filterMap_history hmap]
  exact List.mem_filterMap.mpr ⟨e,he,hcreated⟩

theorem Sample.distinctAddresses {requests : List TpProcessRequest} (h : Valid requests)
    (hd : (((base ++ requests).filterMap fun r => r.tx?.bind Tx.created).map env.range).Nodup) :
    DistinctAddresses env (after requests) :=
  replay_distinctAddresses (after_eq h) hd

theorem histories_only_grow {env : Env} {h : List (State × Tx)} {s s' : State} {tx : Tx}
    (hr : Reachable env h s) (hacc : Accepted env s tx s') (hd : DistinctAddresses env s') :
    Ledger.Grows (ledger env s) (ledger env s') :=
  (accepted_refines (reachable_refines hr).1 hacc).2.grows (reachable_homed hr) hd

/-- A second record in the table of the sample. -/
def Sample.secondRecord : TpProcessRequest :=
  Sample.request "A"
    { action := .CREATE_RECORD, timestamp := 5, createRecord := { recordId := "q", table := "t" } }

theorem histories_only_grow_sample : Ledger.Grows (ledger Sample.env (Sample.after []))
    (ledger Sample.env (Sample.next Sample.secondRecord (Sample.after []))) := by
  have hok : Sample.Valid [] := by decide +kernel
  have hnext : apply Sample.env Sample.orders Sample.secondRecord (Sample.after []) = .ok _ :=
    Sample.next_eq (by decide +kernel)
  obtain ⟨_,hr,_⟩ := Sample.reachable hok
  obtain ⟨_,_,hacc⟩ := accepted_of_apply hnext
  exact histories_only_grow hr hacc
    (replay_distinctAddresses (replay_snoc (Sample.after_eq hok) hnext) (by decide +kernel))

end DgcRestApi
