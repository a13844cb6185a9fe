import DgcRestApi.Ledger.Defs

/-!
# What a transaction can do

`Step` is the transition relation of the ledger: one constructor for each branch of the
handler that can succeed, with everything the branch checked and the update it makes. Every
invariant is proved from it, never from the handler's code.
-/

namespace DgcRestApi

namespace Ledger

variable (range : String → Address)

/-- An update that passes the checks of `_update_properties`: it stores `v` on `page`, the
current page of `q`. -/
structure Reportable (L : Ledger) (r signer : String) (ts : Nat) (u : PropertyValue)
    (q : Property) (page : PropertyPage) (v : ReportedValue) : Prop where
  property : L.property r u.name = some q
  reported : ∃ rep, authorizedReporter q.reporters signer = some rep ∧
    makeNewReportedValue rep.index ts u q = .ok v
  not_fixed : q.fixed = false
  dataType : u.dataType = q.dataType
  page : L.page r u.name q.currentPage = some page

/-- One update: the value is filed, and when that fills the page the property turns to the
next page, which is emptied. -/
inductive Report (r signer : String) (ts : Nat) : Ledger → PropertyValue → Ledger → Prop
  | filed {L u q page v} (h : Reportable L r signer ts u q page v)
      (hroom : (pushReportedValue page v).reportedValues.length < PROPERTY_PAGE_MAX_LENGTH) :
      Report r signer ts L u (L.setPage range r u.name q.currentPage (pushReportedValue page v))
  | turned {L L₁ u q page v next} (h : Reportable L r signer ts u q page v)
      (hfull : PROPERTY_PAGE_MAX_LENGTH ≤ (pushReportedValue page v).reportedValues.length)
      (hnext : nextPageNumber q.currentPage = .ok next)
      (hL₁ : L₁ = L.setPage range r u.name q.currentPage (pushReportedValue page v)) :
      Report r signer ts L u
        ((L₁.setPage range r u.name next
          (clearedPage r u.name (L₁.page r u.name next))).setProperty range r u.name
            (turnPage q next))

/-- The updates of one transaction, in order. -/
inductive Reports (r signer : String) (ts : Nat) : Ledger → List PropertyValue → Ledger → Prop
  | nil {L} : Reports r signer ts L [] L
  | cons {L L₁ L₂ u us} (hu : Report range r signer ts L u L₁)
      (hus : Reports r signer ts L₁ us L₂) : Reports r signer ts L (u :: us) L₂

/-- The signer is the last owner of the record, which is not final. -/
structure OwnedBy (L : Ledger) (r signer : String) (rec : Record) : Prop where
  record : L.record r = some rec
  not_final : rec.final = false
  owner : ∃ o, rec.owners.getLast? = some o ∧ o.participantId = signer

/-- The checks of `_create_proposal`. -/
structure Proposable (L : Ledger) (a : CreateProposalAction) (signer : String)
    (i : Participant) : Prop where
  registered : L.participant signer = some i
  receiver : a.role = .transferOwnership ∨ a.role = .authorizeReporter ∨
    a.role = .transferCustodianship ∨ a.role = .creditDGC ∨ a.role = .transferDGC →
      ∃ p, L.participant a.receivingParticipant = some p
  owner : a.role = .transferOwnership ∨ a.role = .authorizeReporter →
    ∃ rec, OwnedBy L a.recordId signer rec
  custodian : a.role = .transferCustodianship → ∃ rec c, L.record a.recordId = some rec ∧
    rec.final = false ∧ rec.custodians.getLast? = some c ∧ c.participantId = signer
  sellFunds : a.role = .sellDGC → a.dgCoinAmount ≤ i.balance + i.credit
  transferFunds : a.role = .transferDGC → a.dgCoinAmount ≤ i.balance

/-- The lookups every answer starts with: the stored proposal and the signer. -/
structure Answers (L : Ledger) (signer : String) (a : AnswerProposalAction) (c : Proposal)
    (i : Participant) : Prop where
  proposal : L.proposal a.proposalId = some c
  registered : L.participant signer = some i

/-- The checks every ACCEPT starts with. -/
structure Accepts (L : Ledger) (signer : String) (a : AnswerProposalAction) (c : Proposal)
    (i p : Participant) : Prop extends Answers L signer a c i where
  response : a.response = .ACCEPT
  receiver : c.receivingParticipant = signer
  participant : L.participant a.receivingParticipant = some p

/-- The status an auto answer leaves. -/
def autoStatus : Response → Option Status
  | .autoOPEN => some .OPEN
  | .autoCLOSE => some .CLOSED
  | _ => none

theorem autoStatus_eq_some {response : Response} {status : Status} :
    autoStatus response = some status ↔
      response = .autoOPEN ∧ status = .OPEN ∨ response = .autoCLOSE ∧ status = .CLOSED := by
  cases response <;> simp [autoStatus,eq_comm]

/-- Only `autoCLOSE` stores exchanges. -/
def autoExchanges (a : AnswerProposalAction) : List Exchange :=
  if a.response = .autoCLOSE then a.exchanges else []

/-- The update of an auto answer: the signer's balance becomes `amount`. -/
def fill (L : Ledger) (a : AnswerProposalAction) (c : Proposal) (i : Participant)
    (signer : String) (ts : Nat) (status : Status) (amount : ℚ) : Ledger :=
  ((L.setParticipant signer (i.pay a.proposalId ts amount)).setExchanges
    (autoExchanges a)).setProposal a.proposalId
      { c with dgCoinExchanged := c.dgCoinExchanged + a.dgCoinAmount, status }

section Fill

variable (L : Ledger) (a : AnswerProposalAction) (c : Proposal) (i : Participant) (signer : String)
variable (ts : Nat) (status : Status) (amount : ℚ)

@[simp] theorem fill_participant : (L.fill a c i signer ts status amount).participant =
    Function.update L.participant signer (some (i.pay a.proposalId ts amount)) :=
  setExchanges_participant ..

@[simp] theorem fill_record : (L.fill a c i signer ts status amount).record = L.record :=
  setExchanges_record ..

@[simp] theorem fill_table : (L.fill a c i signer ts status amount).table = L.table :=
  setExchanges_table ..

@[simp] theorem fill_property : (L.fill a c i signer ts status amount).property = L.property :=
  setExchanges_property ..

@[simp] theorem fill_page : (L.fill a c i signer ts status amount).page = L.page :=
  setExchanges_page ..

@[simp] theorem fill_proposal : (L.fill a c i signer ts status amount).proposal =
    Function.update L.proposal a.proposalId
      (some { c with dgCoinExchanged := c.dgCoinExchanged + a.dgCoinAmount, status }) := by
  funext x
  rw [fill,setProposal_proposal,setExchanges_proposal]
  rfl

end Fill

/-- The update of a transfer; when signer and receiver are one the second write wins. -/
def transfer (L : Ledger) (a : AnswerProposalAction) (c : Proposal) (i p : Participant)
    (signer : String) (ts : Nat) : Ledger :=
  ((L.setParticipant signer
      (i.pay a.proposalId ts (i.balance - a.dgCoinAmount))).setParticipant
    a.receivingParticipant (p.pay a.proposalId ts (p.balance + a.dgCoinAmount))).setProposal
      a.proposalId { c with status := .ACCEPTED }

section Transfer

variable (L : Ledger) (a : AnswerProposalAction) (c : Proposal) (i p : Participant)
variable (signer : String) (ts : Nat)

@[simp] theorem transfer_participant : (L.transfer a c i p signer ts).participant =
    Function.update (Function.update L.participant signer
        (some (i.pay a.proposalId ts (i.balance - a.dgCoinAmount))))
      a.receivingParticipant (some (p.pay a.proposalId ts (p.balance + a.dgCoinAmount))) := rfl

@[simp] theorem transfer_proposal : (L.transfer a c i p signer ts).proposal =
    Function.update L.proposal a.proposalId (some { c with status := .ACCEPTED }) := rfl

end Transfer

/-- A key with an entry, all of whose entries are authorized. -/
def Revocable (reporterId : String) (q : Property) : Prop :=
  (∃ rep ∈ q.reporters, rep.publicKey = reporterId) ∧
    ∀ rep ∈ q.reporters, rep.publicKey = reporterId → rep.authorized = true

/-- The property without the authorization of a key. -/
def revoke (reporterId : String) (q : Property) : Property :=
  { q with reporters := q.reporters.map fun rep =>
      if rep.publicKey = reporterId then { rep with authorized := false } else rep }

inductive Step : Ledger → Tx → Ledger → Prop
  | createParticipant {L signer ts a} (hnew : L.participant signer = none) :
      Step L ⟨signer,ts,.CreateParticipant a⟩
        (L.setParticipant signer { publicKey := signer, name := a.name, timestamp := ts })
  | createRecord {L signer ts a p t initial} (hp : L.participant signer = some p)
      (hnew : L.record a.recordId = none) (ht : L.table a.table = some t)
      (hrequired : ∀ n ∈ requiredProperties t, n ∈ providedProperties a)
      (hprovided : ∀ n v, (providedProperties a).lookup n = some v →
        checkProvided (tableSchema t) n v = .ok ())
      (hinitial : ∀ n col, (tableSchema t).lookup n = some col →
        initialValues ts ((providedProperties a).lookup n)
          (newProperty a.recordId signer n col) = .ok (initial n)) :
      Step L ⟨signer,ts,.CreateRecord a⟩
        ((L.setRecord a.recordId (newRecord a signer ts)).initProperties range a.recordId
          (fun n => ((tableSchema t).lookup n).map (newProperty a.recordId signer n)) initial)
  | finalizeRecord {L signer ts a rec c} (howned : OwnedBy L a.recordId signer rec)
      (hc : rec.custodians.getLast? = some c) (hcs : c.participantId = signer) :
      Step L ⟨signer,ts,.FinalizeRecord a⟩ (L.setRecord a.recordId { rec with final := true })
  | createTable {L signer ts a} (hnew : L.table a.name = none) :
      Step L ⟨signer,ts,.CreateTable a⟩
        (L.setTable a.name { name := a.name, properties := a.properties })
  | updateProperties {L signer ts a rec L'} (hrec : L.record a.recordId = some rec)
      (hopen : rec.final = false)
      (hreports : Reports range a.recordId signer ts L a.properties L') :
      Step L ⟨signer,ts,.UpdateProperties a⟩ L'
  | createProposal {L signer ts a i} (hg : Proposable L a signer i) :
      Step L ⟨signer,ts,.CreateProposal a⟩
        (L.setProposal a.proposalId (newProposal a signer ts))
  | cancel {L signer ts a c i} (h : Answers L signer a c i) (hresp : a.response = .CANCEL)
      (hissuer : c.issuingParticipant = signer) :
      Step L ⟨signer,ts,.AnswerProposal a⟩
        (L.setProposal a.proposalId { c with status := .CANCELED })
  | reject {L signer ts a c i} (h : Answers L signer a c i) (hresp : a.response = .REJECT)
      (hreceiver : c.receivingParticipant = signer) :
      Step L ⟨signer,ts,.AnswerProposal a⟩
        (L.setProposal a.proposalId { c with status := .REJECTED })
  | autoIdle {L signer ts a c i status} (h : Answers L signer a c i)
      (hresp : autoStatus a.response = some status)
      (hbuy : a.role ≠ .buyDGC) (hsell : a.role ≠ .sellDGC) :
      Step L ⟨signer,ts,.AnswerProposal a⟩ L
  | autoBuy {L signer ts a c i status} (h : Answers L signer a c i)
      (hresp : autoStatus a.response = some status) (hrole : a.role = .buyDGC) :
      Step L ⟨signer,ts,.AnswerProposal a⟩
        (L.fill a c i signer ts status (i.balance + a.dgCoinAmount))
  | autoSell {L signer ts a c i status} (h : Answers L signer a c i)
      (hresp : autoStatus a.response = some status) (hrole : a.role = .sellDGC)
      (hfunds : a.dgCoinAmount ≤ i.balance + i.credit) :
      Step L ⟨signer,ts,.AnswerProposal a⟩
        (L.fill a c i signer ts status (i.balance - a.dgCoinAmount))
  | acceptIdle {L signer ts a c i p} (h : Accepts L signer a c i p)
      (hrole : a.role = .buyDGC ∨ a.role = .sellDGC) :
      Step L ⟨signer,ts,.AnswerProposal a⟩ L
  | acceptCredit {L signer ts a c i p} (h : Accepts L signer a c i p)
      (hrole : a.role = .creditDGC) :
      Step L ⟨signer,ts,.AnswerProposal a⟩
        ((L.setParticipant a.receivingParticipant
          (p.lend a.proposalId ts a.dgCoinAmount)).setProposal a.proposalId
            { c with status := .ACCEPTED })
  | acceptTransfer {L signer ts a c i p} (h : Accepts L signer a c i p)
      (hrole : a.role = .transferDGC) (hfunds : a.dgCoinAmount ≤ i.balance) :
      Step L ⟨signer,ts,.AnswerProposal a⟩ (L.transfer a c i p signer ts)
  | acceptOwnership {L signer ts a c i p rec o t} (h : Accepts L signer a c i p)
      (hrole : a.role = .transferOwnership) (hrec : L.record a.recordId = some rec)
      (ho : rec.owners.getLast? = some o) (ht : L.table rec.table = some t)
      (hprops : ∀ col ∈ t.properties, ∃ q, L.property a.recordId col.name = some q) :
      Step L ⟨signer,ts,.AnswerProposal a⟩
        (((L.setRecord a.recordId
            { rec with owners := rec.owners ++ [⟨a.receivingParticipant,ts⟩] }).mapProperties
          range a.recordId (t.properties.map PropertySchema.name)
            (handOver o.participantId a.receivingParticipant)).setProposal a.proposalId
              { c with status := .ACCEPTED })
  | acceptCustodianship {L signer ts a c i p rec o} (h : Accepts L signer a c i p)
      (hrole : a.role = .transferCustodianship) (hrec : L.record a.recordId = some rec)
      (ho : rec.custodians.getLast? = some o) :
      Step L ⟨signer,ts,.AnswerProposal a⟩
        ((L.setRecord a.recordId
            { rec with
              custodians := rec.custodians ++ [⟨a.receivingParticipant,ts⟩] }).setProposal
          a.proposalId { c with status := .ACCEPTED })
  | acceptReporter {L signer ts a c i p rec o} (h : Accepts L signer a c i p)
      (hrole : a.role = .authorizeReporter) (hrec : L.record a.recordId = some rec)
      (ho : rec.owners.getLast? = some o)
      (hprops : ∀ n ∈ c.properties, ∃ q, L.property a.recordId n = some q) :
      Step L ⟨signer,ts,.AnswerProposal a⟩
        ((L.mapProperties range a.recordId c.properties
          (addReporter a.receivingParticipant)).setProposal a.proposalId
            { c with status := .ACCEPTED })
  | revokeReporter {L signer ts a rec} (howned : OwnedBy L a.recordId signer rec)
      (hnodup : a.properties.Nodup)
      (hprops : ∀ n ∈ a.properties, ∃ q, L.property a.recordId n = some q ∧
        Revocable a.reporterId q) :
      Step L ⟨signer,ts,.RevokeReporter a⟩
        (L.mapProperties range a.recordId a.properties (revoke a.reporterId))

end Ledger

end DgcRestApi
