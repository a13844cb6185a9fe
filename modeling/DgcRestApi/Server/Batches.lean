import DgcRestApi.Ledger.Acceptance
import DgcRestApi.Server.Queries
import DgcRestApi.Server.Submission

/-!
# Batches about the records of a query

`transferCustodianshipProposal`, `deleteRecords` and `updateRecords` look records up by a query
and submit batches about what they find. The query has an empty object for each record that does
not match, which becomes a transaction about a record without an identifier, and a batch is
applied as a whole or not at all.
-/

namespace DgcRestApi.Server.Batches
open LedgerSync Retrieval Queries Keyed

section Requests

variable {Q : Type} (server : ServerEnv) (clock : Nat → Nat) (c : Comparison Q) (db : Db)
variable (params : Retrieval.Params Q) (privateKey recordId : String)

/-- The results that have arrived by then, each with the second in which it was mapped. -/
def mapped (seconds : List Nat) : List (Result × Nat) :=
  ((retrieveRecords c db params).getD []).zip seconds

def custodianship (receivingKey : String) (e : Result × Nat) : CreateProposalAction :=
  { role := .transferCustodianship
    proposalId := "transferCustodianship" ++ toString e.2
    receivingParticipant := receivingKey
    recordId := e.1.recordId.getD "" }

/-- The batch of `transferCreate`. -/
def transferCustodianshipProposal (receivingKey : String) (seconds : List Nat) :
    List TpProcessRequest :=
  (stamped clock (mapped c db params seconds)).map fun e =>
    createProposal server params.privateKey e.2 (custodianship receivingKey e.1)

/-- The batch of `deleteRecords`. -/
def final (records : List (String × FinalizeRecordAction)) : List TpProcessRequest :=
  (stamped clock records).map fun e => createTxn server e.1.1
    { action := .FINALIZE_RECORD, timestamp := e.2, finalizeRecord := e.1.2 }

def createUpdate (now : Nat) (property : PropertyValue) : TpProcessRequest :=
  createTxn server privateKey
    { action := .UPDATE_PROPERTIES
      timestamp := now
      updateProperties := { recordId, properties := [property] } }

/-- The batch of `updateRecords` for a record. -/
def update (properties : List PropertyValue) : List TpProcessRequest :=
  (stamped clock properties).map fun e => createUpdate server privateKey recordId e.2 e.1

end Requests

/-- The client has the custody of a record, which is not final, and the receiver is known. -/
structure Custodial (L : Ledger) (own receivingKey r : String) : Prop where
  registered : ∃ i, L.participant own = some i
  receiver : ∃ p, L.participant receivingKey = some p
  record : ∃ rec c, L.record r = some rec ∧ rec.final = false ∧ rec.custodians.getLast? = some c ∧
    c.participantId = own

namespace Sample
open DgcRestApi.Sample Retrieval.Sample Queries.Sample

theorem retrieved_lamp : retrieveRecords comparison (db ["red"]) (colored "red") =
    some [⟨some "L",[("color",some (.string "red"))]⟩] := rfl

theorem custodial_lamp : Custodial (ledger plain (plainly lamp)) "key" "B" "L" where
  registered := Option.isSome_iff_exists.mp (by decide +kernel)
  receiver := Option.isSome_iff_exists.mp (by decide +kernel)
  record := ⟨_,⟨"key",7⟩,record_lamp,rfl,rfl,rfl⟩

theorem finalizable_lamp : Ledger.Finalizable (ledger plain (plainly lamp)) "key" "L" :=
  ⟨_,⟨record_lamp,rfl,⟨"key",7⟩,rfl,rfl⟩,⟨"key",7⟩,rfl,rfl⟩

def colors : List PropertyValue :=
  [{ name := "color", dataType := .STRING, stringValue := "red" },
    { name := "color", dataType := .STRING, stringValue := "blue" }]

def repaint : TpProcessRequest := createTxn Server.Sample.server "key"
  { action := .UPDATE_PROPERTIES, timestamp := 9, updateProperties := ⟨"L",colors⟩ }

end Sample

section Batches

variable {env : Env} {server : ServerEnv} {clock : Nat → Nat} {h : List (State × Tx)}
variable {s s' : State}
variable {Q : Type} {c : Comparison Q} {db : Db} {params : Retrieval.Params Q} {L : Ledger}

/-- No record has the empty identifier. -/
theorem reachable_unnamed (hr : Reachable env h s) : (ledger env s).record "" = none := by
  induction hr with
  | nil => rfl
  | @snoc h s s' tx hr hacc ih =>
    cases hrec : (ledger env s').record "" with
    | none => rfl
    | some rec =>
      rcases (accepted_refines (reachable_refines hr).1 hacc).2.record_cases hrec with
        ⟨_,_,a,_,_,rfl,_,ha,_⟩ | ⟨rec₀,hrec₀,_⟩
      · have hnamed : a.recordId ≠ "" := (sendable_iff.mp (accepted_iff_dispatch.mp hacc).1).2
        exact absurd ha hnamed.symm
      · exact nomatch ih.symm.trans hrec₀

/-- An identifier that is undefined is encoded as the empty one. -/
theorem getD_iff {P : String → Prop} (hP : ¬P "") (o : Option String) :
    P (o.getD "") ↔ ∃ r, o = some r ∧ P r := by
  cases o with
  | none => simp [hP]
  | some r => simp

theorem map_getD_some (rs : List String) : (rs.map some).map (fun o => o.getD "") = rs := by
  rw [List.map_map]
  exact List.map_id rs

/-- Identifiers that none is empty of, all come from elements that have one. -/
theorem forall_getD_iff {P : String → Prop} (hP : ¬P "") {os : List (Option String)} :
    ((os.map fun o => o.getD "").Nodup ∧ ∀ r ∈ os.map fun o => o.getD "", P r) ↔
      ∃ rs : List String, os = rs.map some ∧ rs.Nodup ∧ ∀ r ∈ rs, P r := by
  constructor
  · rintro ⟨hnd,hos⟩
    refine ⟨os.map fun o => o.getD "",?_,hnd,hos⟩
    rw [List.map_map,eq_comm]
    refine (List.map_congr_left fun o ho => ?_).trans (List.map_id os)
    obtain ⟨r,rfl,_⟩ := (getD_iff hP o).mp (hos _ (List.mem_map_of_mem ho))
    rfl
  · rintro ⟨rs,rfl,hrs⟩
    rwa [map_getD_some]

theorem proposable_custodianship {own receivingKey : String} {e : Result × Nat} :
    (∃ i, Ledger.Proposable L (custodianship receivingKey e) own i) ↔
      Custodial L own receivingKey (e.1.recordId.getD "") := by
  constructor
  · rintro ⟨i,hg⟩
    exact ⟨⟨i,hg.registered⟩,hg.receiver (.inr (.inr (.inl rfl))),hg.custodian rfl⟩
  · rintro ⟨⟨i,hi⟩,hreceiver,hrecord⟩
    refine ⟨i,hi,fun _ => hreceiver,fun hrole => ?_,fun _ => hrecord,nofun,nofun⟩
    rcases hrole with hrole | hrole <;> cases hrole

theorem custodianshipId_inj {t t' : Nat} :
    "transferCustodianship" ++ toString t = "transferCustodianship" ++ toString t' ↔ t = t' := by
  refine (String.append_right_inj _).trans ⟨fun h => ?_,congrArg toString⟩
  have hdigits := congrArg (fun s => Nat.ofDigitChars 10 s.toList 0) h
  simpa [Nat.ofDigitChars_toDigits] using hdigits

theorem transferCustodianshipProposal_eq (receivingKey : String) (seconds : List Nat) :
    transferCustodianshipProposal server clock c db params receivingKey seconds =
      batch server params.privateKey
        ((stamped clock ((mapped c db params seconds).map (custodianship receivingKey))).map
          fun e => (.CreateProposal e.1,e.2)) := by
  simp only [transferCustodianshipProposal,batch,stamped_map,List.map_map]
  rfl

/-- The batch asks for the custody of every record of the query exactly if the client can offer
each one; an element that names no record spoils it. Results of the same second get the same
identifier, and the last of them takes the place of the others. -/
theorem custodianship_requested (hr : Reachable env h s) (hclock : ∀ i, clock i ≠ 0)
    (receivingKey : String) (seconds : List Nat) :
    let own := server.publicKey params.privateKey
    let requests := transferCustodianshipProposal server clock c db params receivingKey seconds
    (BatchWritable env requests s → ((∃ s', Batched env requests s s') ↔
      ∀ e ∈ mapped c db params seconds,
        ∃ r, e.1.recordId = some r ∧ Custodial (ledger env s) own receivingKey r)) ∧
    ∀ s', Batched env requests s s' →
      (∀ before e after, mapped c db params seconds = before ++ e :: after →
        (∀ e' ∈ after, e'.2 ≠ e.2) →
          (ledger env s').proposal ("transferCustodianship" ++ toString e.2) =
            some (newProposal (custodianship receivingKey e) own (clock before.length))) ∧
      (∀ x, (∀ e ∈ mapped c db params seconds, "transferCustodianship" ++ toString e.2 ≠ x) →
        (ledger env s').proposal x = (ledger env s).proposal x) ∧
      ledger env s' = { ledger env s with proposal := (ledger env s').proposal } := by
  intro own requests
  have hrequests : requests = batch server params.privateKey _ :=
    transferCustodianshipProposal_eq receivingKey seconds
  have hunnamed : ¬Custodial (ledger env s) own receivingKey "" := by
    rintro ⟨_,_,rec,_,hrec,_⟩
    exact nomatch hrec.symm.trans (reachable_unnamed hr)
  rw [hrequests]
  refine ⟨fun hw => ?_,fun s' hs' => ?_⟩
  · rw [batched_iff hr hw (List.forall_mem_map.mpr fun _ => stamp_ne hclock),
      and_iff_right (List.forall_mem_map.mpr fun _ _ => trivial)]
    simp only [Ledger.steps_createProposal_iff,exists_and_left,exists_eq,and_true]
    rw [forall_stamped (P := fun a => ∃ i, Ledger.Proposable (ledger env s) a own i),
      List.forall_mem_map]
    simp only [proposable_custodianship]
    exact forall₂_congr fun e _ => getD_iff hunnamed e.1.recordId
  · obtain ⟨-,hL'⟩ := Ledger.steps_createProposal_iff.mp (hs'.steps hr).2
    rw [hL']
    refine ⟨fun before e after he hlast => ?_,fun x hx => ?_,Ledger.foldl_propose_eq _⟩
    · rw [he,List.map_append,List.map_cons,stamped_append,stamped_cons,List.length_map]
      refine Ledger.foldl_propose_last fun b hb => ?_
      obtain ⟨e',he',heq⟩ := List.mem_map.mp (stamped_fst_mem hb)
      rw [← heq]
      exact fun h => hlast e' he' (custodianshipId_inj.mp h)
    · exact Ledger.foldl_propose_other
        ((forall_stamped (P := (CreateProposalAction.proposalId · ≠ x))).mpr
          (List.forall_mem_map.mpr hx))

theorem custodianship_requested_sample : ∃ s',
    Batched DgcRestApi.Sample.plain
      (transferCustodianshipProposal Server.Sample.server (9 + ·) Retrieval.Sample.comparison
        (Retrieval.Sample.db ["red"]) (Retrieval.Sample.colored "red") "B" [9])
      (DgcRestApi.Sample.plainly Queries.Sample.lamp) s' ∧
    ((ledger DgcRestApi.Sample.plain s').proposal "transferCustodianship9").map
      Proposal.recordId = some "L" := by
  obtain ⟨h,hr⟩ := Queries.Sample.reachable_lamp
  obtain ⟨hiff,heffect⟩ := @custodianship_requested _ Server.Sample.server (9 + ·) _ _ _
    Retrieval.Sample.comparison (Retrieval.Sample.db ["red"]) (Retrieval.Sample.colored "red") hr
    (fun _ => by omega) "B" [9]
  have hmapped : mapped Retrieval.Sample.comparison (Retrieval.Sample.db ["red"])
      (Retrieval.Sample.colored "red") [9] =
        [(⟨some "L",[("color",some (.string "red"))]⟩,9)] := by
    rw [mapped,Sample.retrieved_lamp]
    rfl
  rw [hmapped] at hiff heffect
  obtain ⟨s',hs'⟩ := (hiff (batchWritable_of_total hr (fun _ => rfl) _)).mpr
    (List.forall_mem_singleton.mpr ⟨"L",rfl,Sample.custodial_lamp⟩)
  have hproposal := (heffect s' hs').1 [] _ [] rfl (List.forall_mem_nil _)
  exact ⟨s',hs',congrArg (Option.map Proposal.recordId) hproposal⟩

theorem finalizable_named (hr : Reachable env h s) {own : String} :
    ¬Ledger.Finalizable (ledger env s) own "" := by
  rintro ⟨rec,howned,_⟩
  exact nomatch howned.record.symm.trans (reachable_unnamed hr)

theorem final_eq {arrived : Nat} : final server clock (deleteRecords c db params arrived) =
    batch server params.privateKey
      ((stamped clock (((((retrieveRecords c db params).getD []).take arrived).map
        Result.recordId).map fun o => o.getD "")).map fun e => (.FinalizeRecord ⟨e.1⟩,e.2)) := by
  simp only [final,deleteRecords,batch,stamped_map,List.map_map]
  rfl

/-- A batch that was applied has named records that were the client's, and finalized these. -/
theorem deleted_ledger (hr : Reachable env h s) {arrived : Nat}
    (hs' : Batched env (final server clock (deleteRecords c db params arrived)) s s') :
    ∃ rs : List String,
      (((retrieveRecords c db params).getD []).take arrived).map Result.recordId = rs.map some ∧
        (rs.Nodup ∧ ∀ r ∈ rs,
          Ledger.Finalizable (ledger env s) (server.publicKey params.privateKey) r) ∧
            ledger env s' = rs.foldl Ledger.finalize (ledger env s) := by
  rw [final_eq] at hs'
  obtain ⟨hall,hL'⟩ := Ledger.steps_finalizeRecord_iff.mp (hs'.steps hr).2
  rw [map_fst_stamped] at hall hL'
  obtain ⟨rs,hrs,hall⟩ := (forall_getD_iff (finalizable_named hr)).mp hall
  refine ⟨rs,hrs,hall,?_⟩
  rw [hL',hrs,map_getD_some]

theorem deletable_iff (hr : Reachable env h s) (hclock : ∀ i, clock i ≠ 0) {arrived : Nat}
    (hw : BatchWritable env (final server clock (deleteRecords c db params arrived)) s) :
    (∃ s', Batched env (final server clock (deleteRecords c db params arrived)) s s') ↔
      ∃ rs : List String,
        (((retrieveRecords c db params).getD []).take arrived).map Result.recordId = rs.map some ∧
          rs.Nodup ∧ ∀ r ∈ rs,
            Ledger.Finalizable (ledger env s) (server.publicKey params.privateKey) r := by
  rw [final_eq] at hw ⊢
  rw [batched_iff hr hw (List.forall_mem_map.mpr fun _ => stamp_ne hclock),
    and_iff_right (List.forall_mem_map.mpr fun _ _ => trivial)]
  simp only [Ledger.steps_finalizeRecord_iff,map_fst_stamped,exists_and_left,exists_eq,and_true]
  exact forall_getD_iff (finalizable_named hr)

/-- The records of the query are deleted together: the batch is applied exactly if every element
names a record, none twice, and the client owns and keeps all of them. -/
theorem records_deleted (hr : Reachable env h s) (hclock : ∀ i, clock i ≠ 0) (arrived : Nat) :
    let own := server.publicKey params.privateKey
    let results := ((retrieveRecords c db params).getD []).take arrived
    let requests := final server clock (deleteRecords c db params arrived)
    (BatchWritable env requests s → ((∃ s', Batched env requests s s') ↔
      ∃ rs : List String, results.map Result.recordId = rs.map some ∧ rs.Nodup ∧
        ∀ r ∈ rs, Ledger.Finalizable (ledger env s) own r)) ∧
    ∀ s' (rs : List String), Batched env requests s s' → results.map Result.recordId = rs.map some →
      (∀ r, (ledger env s').record r =
        if r ∈ rs then ((ledger env s).record r).map fun rec => { rec with final := true }
        else (ledger env s).record r) ∧
      ledger env s' = { ledger env s with record := (ledger env s').record } := by
  refine ⟨deletable_iff hr hclock,fun s' rs hs' hrs => ?_⟩
  obtain ⟨rs',hrs',_,hL'⟩ := deleted_ledger hr hs'
  obtain rfl := List.map_injective_iff.mpr (Option.some_injective _) (hrs.symm.trans hrs')
  rw [hL']
  exact ⟨Ledger.foldl_finalize_record rs,Ledger.foldl_finalize_eq rs⟩

theorem records_deleted_sample : ∃ s',
    Batched DgcRestApi.Sample.plain
      (final Server.Sample.server (9 + ·) (deleteRecords Retrieval.Sample.comparison
        (Retrieval.Sample.db ["red"]) (Retrieval.Sample.colored "red") 1))
      (DgcRestApi.Sample.plainly Queries.Sample.lamp) s' ∧
    ((ledger DgcRestApi.Sample.plain s').record "L").map Record.final = some true := by
  obtain ⟨h,hr⟩ := Queries.Sample.reachable_lamp
  obtain ⟨hiff,heffect⟩ := @records_deleted _ Server.Sample.server (9 + ·) _ _ _
    Retrieval.Sample.comparison (Retrieval.Sample.db ["red"]) (Retrieval.Sample.colored "red") hr
    (fun _ => by omega) 1
  rw [Sample.retrieved_lamp] at hiff heffect
  obtain ⟨s',hs'⟩ := (hiff (batchWritable_of_total hr (fun _ => rfl) _)).mpr
    ⟨["L"],rfl,by decide,List.forall_mem_singleton.mpr Sample.finalizable_lamp⟩
  have hrecord := (heffect s' ["L"] hs' rfl).1 "L"
  rw [if_pos List.mem_cons_self,Queries.Sample.record_lamp] at hrecord
  exact ⟨s',hs',congrArg (Option.map Record.final) hrecord⟩

/-- A record that is final already stays as it is. -/
theorem ite_finalized {rec : Record} {t : String} :
    (if rec.table = t ∧ rec.final = false then { rec with final := true } else rec) =
      if rec.table = t then { rec with final := true } else rec := by
  obtain ⟨recordId,table,owners,custodians,final⟩ := rec
  cases final <;> simp

/-- The results name all candidates exactly if all of them match. -/
theorem map_recordId_iff (hr : Reachable env h s) (hd : DistinctAddresses env s) {block : Nat}
    (hm : Mirrors (ledger env s) db block) {results : List Result}
    (hresults : retrieveRecords c db params = some results) {rs : List String} :
    results.map Result.recordId = rs.map some ↔
      rs = (candidates db block params).map Record.recordId ∧
        ∀ r, Candidate params (ledger env s) r → Matches c params (ledger env s) r := by
  have hfound := elements_found hr hd hm hresults
  have hnames : (∀ r ∈ (candidates db block params).map Record.recordId,
      Matches c params (ledger env s) r) → results.map Result.recordId =
        ((candidates db block params).map Record.recordId).map some := by
    intro hall
    rw [← List.forall₂_eq_eq_eq,List.forall₂_map_left_iff,List.forall₂_map_right_iff]
    exact (((List.forall₂_and_left _ _).mpr ⟨hall,hfound⟩).imp fun _ _ ⟨hmatch,hyes,_⟩ =>
      (hyes hmatch).recordId).flip
  simp only [← candidate_iff hm,← List.mem_map]
  constructor
  · intro hrs
    have hall : ∀ r ∈ (candidates db block params).map Record.recordId,
        Matches c params (ledger env s) r := by
      intro r hr
      obtain ⟨result,hresult,_,hno⟩ := exists_of_forall₂ hfound r hr
      by_contra hnot
      have hmem := List.mem_map_of_mem (f := Result.recordId) hresult
      rw [hrs,hno hnot] at hmem
      obtain ⟨_,_,hnone⟩ := List.mem_map.mp hmem
      exact nomatch hnone
    exact ⟨List.map_injective_iff.mpr (Option.some_injective _) (hrs.symm.trans (hnames hall)),
      hall⟩
  · rintro ⟨rfl,hall⟩
    exact hnames hall

/-- Once the database shows the ledger, a delete takes every record of the table that is not
final, or none: it is applied exactly if all of them match and the client owns and keeps them. -/
theorem table_deleted {block arrived : Nat} {results : List Result} (hr : Reachable env h s)
    (hd : DistinctAddresses env s) (hclock : ∀ i, clock i ≠ 0)
    (hm : Mirrors (ledger env s) db block) (hresults : retrieveRecords c db params = some results)
    (harrived : results.length ≤ arrived) :
    let own := server.publicKey params.privateKey
    let requests := final server clock (deleteRecords c db params arrived)
    (BatchWritable env requests s → ((∃ s', Batched env requests s s') ↔
      ∀ r, Candidate params (ledger env s) r →
        Matches c params (ledger env s) r ∧ Ledger.Finalizable (ledger env s) own r)) ∧
    ∀ s', Batched env requests s s' → ∀ r, (ledger env s').record r =
      ((ledger env s).record r).map fun rec =>
        if rec.table = params.table then { rec with final := true } else rec := by
  intro own requests
  have hids := @map_recordId_iff _ _ _ _ c db params hr hd _ hm _ hresults
  have htaken : ((retrieveRecords c db params).getD []).take arrived = results := by
    rw [hresults]
    exact List.take_of_length_le harrived
  refine ⟨fun hw => ?_,fun s' hs' r => ?_⟩
  · have hiff := @deletable_iff _ server _ _ _ _ c db params hr hclock arrived hw
    simp only [htaken,hids] at hiff
    refine hiff.trans ⟨?_,fun hall => ?_⟩
    · rintro ⟨_,⟨rfl,hmatches⟩,_,hall⟩ r hr
      exact ⟨hmatches r hr,hall r (List.mem_map.mpr ((candidate_iff hm).mpr hr))⟩
    · refine ⟨_,⟨rfl,fun r hr => (hall r hr).1⟩,nodup_candidates hm,fun r hr => ?_⟩
      exact (hall r ((candidate_iff hm).mp (List.mem_map.mp hr))).2
  · obtain ⟨rs,hrs,_,hL'⟩ := deleted_ledger hr hs'
    obtain ⟨rfl,_⟩ := hids.mp (htaken ▸ hrs)
    rw [hL',Ledger.foldl_finalize_record]
    cases hrec : (ledger env s).record r with
    | none => exact ite_self none
    | some rec =>
      have hmem : r ∈ (candidates db block params).map Record.recordId ↔
          rec.table = params.table ∧ rec.final = false := by
        rw [List.mem_map,candidate_iff hm,Candidate,hrec]
        simp
      rw [if_congr hmem rfl rfl,Option.map_some,Option.map_some,← apply_ite some,ite_finalized]

/-- The only lamp matches, and is deleted. -/
theorem table_deleted_sample : ∃ db s', Batched DgcRestApi.Sample.plain
      (final Server.Sample.server (9 + ·) (deleteRecords Retrieval.Sample.comparison db
        (Retrieval.Sample.colored "red") 1)) (DgcRestApi.Sample.plainly Queries.Sample.lamp) s' ∧
    ((ledger DgcRestApi.Sample.plain s').record "L").map Record.final = some true := by
  obtain ⟨h,hr⟩ := Queries.Sample.reachable_lamp
  obtain ⟨db,hm⟩ := exists_mirror hr (n := 1) (by decide)
  obtain ⟨results,hresults⟩ := (@retrieveRecords_exists _ _ _ _ _ _ Retrieval.Sample.comparison
    (Retrieval.Sample.colored "red") hr Queries.Sample.distinct_lamp hm).mpr fun r hcandidate => by
      rw [Queries.Sample.candidate_lamp.mp hcandidate]
      exact Queries.Sample.compares_lamp
  have hcandidates := Queries.Sample.eq_lamp (nodup_candidates hm) fun r =>
    List.mem_map.trans (candidate_iff hm)
  have hlength := (elements_found hr Queries.Sample.distinct_lamp hm hresults).length_eq
  rw [hcandidates] at hlength
  obtain ⟨hiff,heffect⟩ := @table_deleted _ Server.Sample.server (9 + ·) _ _ _ _ _ _ _ 1 _
    hr Queries.Sample.distinct_lamp (fun _ => by omega) hm hresults hlength.ge
  obtain ⟨s',hs'⟩ := (hiff (batchWritable_of_total hr (fun _ => rfl) _)).mpr fun r hcandidate => by
    rw [Queries.Sample.candidate_lamp.mp hcandidate]
    exact ⟨Queries.Sample.matches_lamp,Sample.finalizable_lamp⟩
  have hrecord := heffect s' hs' "L"
  rw [Queries.Sample.record_lamp] at hrecord
  exact ⟨db,s',hs',congrArg (Option.map Record.final) hrecord⟩

theorem update_eq (privateKey r : String) (us : List PropertyValue) :
    update server clock privateKey r us = batch server privateKey
      ((stamped clock us).map fun e => (.UpdateProperties ⟨r,[e.1]⟩,e.2)) := by
  simp only [update,batch,List.map_map]
  rfl

/-- A batch of one transaction for each property is applied exactly when one transaction with all
of them would be, and within one second it does what that one would do. -/
theorem updates_batched (hr : Reachable env h s) (hclock : ∀ i, clock i ≠ 0)
    (privateKey r : String) {us : List PropertyValue} (hus : us ≠ []) :
    let own := server.publicKey privateKey
    let requests := update server clock privateKey r us
    (BatchWritable env requests s →
      ((∃ s', Batched env requests s s') ↔ Ledger.Updates (ledger env s) own ⟨r,us⟩)) ∧
    ∀ now, (∀ i < us.length, clock i = now) →
      let all := createTxn server privateKey
        { action := .UPDATE_PROPERTIES, timestamp := now, updateProperties := ⟨r,us⟩ }
      BatchWritable env requests s → Writable env s all →
        ∀ L', (∃ s', Batched env requests s s' ∧ ledger env s' = L') ↔
          ∃ s', Submitted env all s true s' ∧ ledger env s' = L' := by
  intro own requests
  have hrequests : requests = _ := update_eq privateKey r us
  rw [hrequests]
  have hstamps : ∀ a ∈ (stamped clock us).map fun e =>
      (Action.UpdateProperties ⟨r,[e.1]⟩,e.2), a.2 ≠ 0 :=
    List.forall_mem_map.mpr fun _ => stamp_ne hclock
  have hnamed : ∀ a ∈ (stamped clock us).map fun e =>
      (Action.UpdateProperties ⟨r,[e.1]⟩,e.2), a.1.Named :=
    List.forall_mem_map.mpr fun _ _ => trivial
  refine ⟨fun hw => ?_,?_⟩
  · rw [batched_iff hr hw hstamps,and_iff_right hnamed,
      Ledger.steps_updates_iff (reachable_paging hr) (by simp [stamped,hus]),map_fst_stamped]
  · intro now hnow all hw hall L'
    have hnow0 : now ≠ 0 := hnow 0 (List.length_pos_of_ne_nil hus) ▸ hclock 0
    have hone : (Action.UpdateProperties ⟨r,us⟩).Named := trivial
    have hsingle := @submitted_iff_step _ server privateKey now (.UpdateProperties ⟨r,us⟩) _ _ L' hr
      hall hnow0
    rw [batched_iff_steps hr hw hstamps,and_iff_right hnamed,stamped_const hnow,List.map_map]
    exact (Ledger.steps_updateProperties_iff hus).trans (hsingle.trans (and_iff_right hone)).symm

theorem updates_batched_sample : ∃ s',
    Batched DgcRestApi.Sample.plain
      (update Server.Sample.server (fun _ => 9) "key" "L" Sample.colors)
      (DgcRestApi.Sample.plainly Queries.Sample.lamp) s' ∧
    ledger DgcRestApi.Sample.plain s' = ledger DgcRestApi.Sample.plain
      (outcome (apply DgcRestApi.Sample.plain DgcRestApi.Sample.orders Sample.repaint
        (DgcRestApi.Sample.plainly Queries.Sample.lamp))) := by
  obtain ⟨h,hr⟩ := Queries.Sample.reachable_lamp
  obtain ⟨_,hsame⟩ := @updates_batched _ Server.Sample.server (fun _ => 9) _ _ hr
    (fun _ => by decide) "key" "L" Sample.colors (by simp [Sample.colors])
  have hsame := hsame 9 (fun _ _ => rfl) (batchWritable_of_total hr (fun _ => rfl) _)
    (writable_of_total hr (fun _ => rfl) _)
  exact (hsame _).mpr ⟨_,.accepted (eq_outcome (by decide +kernel)),rfl⟩

end Batches

end DgcRestApi.Server.Batches
