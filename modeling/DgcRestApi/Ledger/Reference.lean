import DgcRestApi.Ledger.Errors

/-!
# Referential integrity of reachable states

The invariants of the ledger read back at the containers of the state, and the errors and
signers they exclude.
-/

namespace DgcRestApi
open Fallible

variable {env : Env} {h : List (State × Tx)} {s : State}

theorem reachable_sound (hr : Reachable env h s) : (ledger env s).Sound :=
  Ledger.run_sound (reachable_refines hr).2

theorem reachable_complete (hr : Reachable env h s) (hd : DistinctAddresses env s) :
    (ledger env s).Complete :=
  Ledger.run_complete hd (reachable_refines hr).2

/-- Everything an object of the state refers to is there: the participants, table, properties
and current pages of every record, and the record and the schema entry of every property and
page that is stored anywhere. -/
structure ReferentialIntegrity (env : Env) (s : State) : Prop where
  owners : ∀ r rec, (ledger env s).record r = some rec → rec.owners ≠ [] ∧
    ∀ o ∈ rec.owners, (ledger env s).Registered o.participantId
  custodians : ∀ r rec, (ledger env s).record r = some rec → rec.custodians ≠ [] ∧
    ∀ c ∈ rec.custodians, (ledger env s).Registered c.participantId
  table : ∀ r rec, (ledger env s).record r = some rec →
    ∃ t, (ledger env s).table rec.table = some t
  properties : ∀ r rec t n col, (ledger env s).record r = some rec →
    (ledger env s).table rec.table = some t → t.entry n = some col →
      ∃ q page, (ledger env s).property r n = some q ∧ q.recordId = r ∧ q.name = n ∧
        q.dataType = col.dataType ∧ q.fixed = col.fixed ∧
        q.numberExponent = col.numberExponent ∧ q.enumOptions = col.enumOptions ∧
        q.structProperties = col.structProperties ∧ q.unit = col.unit ∧
        (ledger env s).page r n q.currentPage = some page
  stored_properties : ∀ A es q, s A = some (.properties es) → q ∈ es →
    (ledger env s).Listed q.recordId q.name ∧
      ∀ rep ∈ q.reporters, (ledger env s).Registered rep.publicKey
  stored_pages : ∀ A es page, s A = some (.propertyPages es) → page ∈ es →
    (ledger env s).Listed page.recordId page.name

theorem integrity_of_sound (hs : Stored env s) (hsound : (ledger env s).Sound)
    (hcomplete : (ledger env s).Complete) : ReferentialIntegrity env s where
  owners r rec hrec := ⟨(hsound.record r rec hrec).owners_ne,(hsound.record r rec hrec).owners⟩
  custodians r rec hrec :=
    ⟨(hsound.record r rec hrec).custodians_ne,(hsound.record r rec hrec).custodians⟩
  table r rec hrec := (hsound.record r rec hrec).table
  properties r rec t n col hrec ht hcol := by
    obtain ⟨q,hq,hr,hschema⟩ := hcomplete.property r rec t n col hrec ht hcol
    obtain ⟨page,hpage⟩ := hsound.paged r n q hq
    have hfield : ∀ {α : Type} (f : PropertySchema → α), f q.schema = f col.stored :=
      fun f => congrArg f hschema
    exact ⟨q,page,hq,hr,(ledger_property_key hs hq).1,hfield PropertySchema.dataType,
      hfield PropertySchema.fixed,hfield PropertySchema.numberExponent,
      hfield PropertySchema.enumOptions,hfield PropertySchema.structProperties,
      hfield PropertySchema.unit,hpage⟩
  stored_properties A es q hA hq := by
    have hlookup := ledger_of_property hs hA hq
    exact ⟨hsound.listed _ _ q hlookup,hsound.reporters _ _ q hlookup⟩
  stored_pages A es page hA hpage := by
    obtain ⟨k,hlookup⟩ := ledger_of_page hs hA hpage
    exact hcomplete.pages _ _ k page hlookup

/-- On an ownership transfer the table and every property of the record are found. -/
theorem transfer_raises (hs : Stored env s) (hsound : (ledger env s).Sound)
    (hcomplete : (ledger env s).Complete) {orders : Orders} {request : TpProcessRequest}
    {signer : String} {ts : Nat} {a : AnswerProposalAction}
    (htx : request.tx? = some ⟨signer,ts,.AnswerProposal a⟩) (hresp : a.response = .ACCEPT)
    (hrole : a.role = .transferOwnership) :
    Raises (apply env orders request s) (Avoids transferTexts) := by
  refine raises_bind (raises_expect (payload_raises fun _ => id) fun _ =>
    avoids_text (by decide +kernel)) fun payload hp => ?_
  refine raises_bind logRequest_raises fun _ _ => ?_
  rw [TpProcessRequest.tx?,found_of_expect hp,Option.map_some] at htx
  obtain ⟨_,_,haction⟩ := Tx.mk.inj (Option.some.inj htx)
  rw [dispatch,haction]
  exact answerProposal_transfer_raises hs hsound hcomplete hresp hrole

theorem referential_integrity (hr : Reachable env h s) (hd : DistinctAddresses env s) :
    ReferentialIntegrity env s ∧
    (∀ orders request, ∀ m ∈ ["Owner not found","Owner was not found","Custodian not found",
        "Custodian was not found","Property page does not exist"],
      apply env orders request s ≠ .error (.InvalidTransaction m)) ∧
    (∀ orders request signer ts a, request.tx? = some ⟨signer,ts,.AnswerProposal a⟩ →
      a.response = .ACCEPT → a.role = .transferOwnership →
        apply env orders request s ≠ .error (.InvalidTransaction "Property does not exist") ∧
        ∀ name, apply env orders request s ≠
          .error (.InvalidTransaction ("Table does not exist: " ++ name))) ∧
    ∀ tx s', Accepted env s tx s' →
      (∀ a, tx.action = .FinalizeRecord a → (ledger env s).Registered tx.signer) ∧
      (∀ a, tx.action = .RevokeReporter a → (ledger env s).Registered tx.signer) ∧
      ∀ a, tx.action = .UpdateProperties a → a.properties ≠ [] →
        (ledger env s).Registered tx.signer := by
  have hs := (reachable_refines hr).1
  have hsound := reachable_sound hr
  have hcomplete := reachable_complete hr hd
  refine ⟨integrity_of_sound hs hsound hcomplete,?_,?_,?_⟩
  · intro orders request m hm he
    -- the listed messages are the texts, character by character
    have htexts : m ∈ danglingTexts.map String.ofList := hm
    obtain ⟨l,hl,rfl⟩ := List.mem_map.mp htexts
    exact (apply_raises hs hsound hcomplete _ he).ne hl rfl
  · intro orders request signer ts a htx hresp hrole
    have hraises : Raises (apply env orders request s) (Avoids transferTexts) :=
      transfer_raises hs hsound hcomplete htx hresp hrole
    constructor
    · intro he
      exact hraises _ he (text "Property does not exist" rfl) (by decide +kernel) "" rfl
    · intro name he
      exact hraises _ he (text "Table does not exist: " rfl) (by decide +kernel) name rfl
  · intro tx s' hacc
    exact (accepted_refines hs hacc).2.signer_registered hsound

theorem referential_integrity_sample : ReferentialIntegrity Sample.env (Sample.after []) := by
  have hok : Sample.Valid [] := by decide +kernel
  obtain ⟨_,hr,_⟩ := Sample.reachable hok
  exact (referential_integrity hr (Sample.distinctAddresses hok (by decide +kernel))).1

end DgcRestApi
