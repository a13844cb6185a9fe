import DgcRestApi.Processor.Records
import Mathlib.Algebra.Order.Ring.Unbundled.Rat

/-!
# The proposal actions

`_create_proposal` and `_answer_proposal`. The answer takes role, record, receiver and
amount from the payload; of the stored proposal it reads the issuer (to cancel), the
receiver (to reject and accept), the property names and the amount exchanged so far.
-/

namespace DgcRestApi
open Fallible

/-- The latest balance or credit message, a new one when there is none. -/
def latest (history : List CreditBalance) : CreditBalance := history.getLast?.getD {}

/-- The latest message with its proposal, timestamp and amount set. -/
def nextBalance (history : List CreditBalance) (proposalId : String) (timestamp : Nat)
    (amount : ℚ) : CreditBalance :=
  { latest history with proposalId, timestamp, dgCoinAmount := amount }

/-- The record a proposal is about: it must exist and not be final. -/
def proposalRecord (env : Env) (state : State) (recordId : String) :
    Except ApplyError Record := do
  let record ← expect (getRecord env state recordId) (.InvalidTransaction
    ("Record does not exist: " ++ recordId))
  rejectIf record.final (.InvalidTransaction ("Record is final: " ++ recordId))
  return record

def newProposal (payload : CreateProposalAction) (signer : String) (timestamp : Nat) :
    Proposal :=
  { proposalId := payload.proposalId
    status := .OPEN
    role := payload.role
    timestamp
    issuingParticipant := signer
    receivingParticipant := payload.receivingParticipant
    recordId := payload.recordId
    properties := payload.properties
    dgCoinAmount := payload.dgCoinAmount
    currencyIsoCodes := payload.currencyIsoCodes
    currencyQuoteAmount := payload.currencyQuoteAmount }

def checkReceiver (env : Env) (payload : CreateProposalAction) (state : State) :
    Except ApplyError Unit := do
  let _ ← expect (getParticipant env state payload.receivingParticipant) (.InvalidTransaction
    ("Receiving participant does not exist: " ++ payload.receivingParticipant))

def checkOwner (env : Env) (payload : CreateProposalAction) (state : State) (signer : String) :
    Except ApplyError Unit := do
  let record ← proposalRecord env state payload.recordId
  let owner ← expect (.ok record.owners.getLast?) (.InvalidTransaction "Owner not found")
  rejectIf (owner.participantId ≠ signer) (.InvalidTransaction
    "Only the owner can create a proposal to change ownership")

def checkCustodian (env : Env) (payload : CreateProposalAction) (state : State)
    (signer : String) : Except ApplyError Unit := do
  let record ← proposalRecord env state payload.recordId
  let custodian ← expect (.ok record.custodians.getLast?) (.InvalidTransaction
    "Custodian not found")
  rejectIf (custodian.participantId ≠ signer) (.InvalidTransaction
    "Only the custodian can create a proposal to change custodianship")

/-- The amount of a sell proposal is within balance and credit. -/
def checkSellFunds (payload : CreateProposalAction) (iParticipant : Participant)
    (signer : String) : Except ApplyError Unit :=
  let iDgCoinCredit := (latest iParticipant.dgCoinCredits).dgCoinAmount
  let iDgCoinBalance := (latest iParticipant.dgCoinBalances).dgCoinAmount
  rejectIf (iDgCoinBalance + iDgCoinCredit < payload.dgCoinAmount) (.InvalidTransaction
    ("The dg coin balance of issuing participant is not enough: " ++ signer))

/-- The amount of a transfer proposal is within the balance. -/
def checkTransferFunds (env : Env) (payload : CreateProposalAction) (iParticipant : Participant)
    (signer : String) : Except ApplyError Unit :=
  let newIBalance := latest iParticipant.dgCoinBalances
  rejectIf (newIBalance.dgCoinAmount < payload.dgCoinAmount) (.InvalidTransaction
    ("The dg coin balance of issuing participant is not enough: " ++
      (signer ++ (" /" ++ env.debugBalance newIBalance))))

def createProposal (env : Env) (payload : CreateProposalAction) (state : State)
    (signer : String) (timestamp : Nat) : Except ApplyError State := do
  let role := payload.role
  let iParticipant ← expect (getParticipant env state signer) (.InvalidTransaction
    ("Issuing participant does not exist: " ++ signer))
  onlyIf (role = .transferOwnership ∨ role = .authorizeReporter ∨
    role = .transferCustodianship ∨ role = .creditDGC ∨ role = .transferDGC)
    (checkReceiver env payload state)
  onlyIf (role = .transferOwnership ∨ role = .authorizeReporter)
    (checkOwner env payload state signer)
  onlyIf (role = .transferCustodianship) (checkCustodian env payload state signer)
  onlyIf (role = .sellDGC) (checkSellFunds payload iParticipant signer)
  onlyIf (role = .transferDGC) (checkTransferFunds env payload iParticipant signer)
  setProposal env state payload.proposalId (newProposal payload signer timestamp)

/-- The stored form of an exchange of the payload. -/
def newExchange (exchange : Exchange) : Exchange :=
  { buyProposalId := exchange.buyProposalId
    sellProposalId := exchange.sellProposalId
    timestamp := exchange.timestamp
    currencyIsoCodes := exchange.currencyIsoCodes
    lastCurrencyPrice := exchange.lastCurrencyPrice
    lastDgcPrice := exchange.lastDgcPrice }

def setExchanges (env : Env) (exchanges : List Exchange) (state : State) :
    Except ApplyError State :=
  exchanges.foldlM (fun state exchange =>
    setExchange env state exchange.buyProposalId exchange.sellProposalId (newExchange exchange))
    state

/-- The four `autoOPEN` and `autoCLOSE` branches after their fund checks: the signer's balance
becomes `amount`, the exchanges are stored and the proposal is filled. -/
def autoFill (env : Env) (payload : AnswerProposalAction) (exchanges : List Exchange)
    (status : Status) (amount : ℚ) (currentProposal : Proposal) (iParticipant : Participant)
    (state : State) (signer : String) (timestamp : Nat) : Except ApplyError State := do
  let newIBalance := nextBalance iParticipant.dgCoinBalances payload.proposalId timestamp amount
  let state ← setParticipant env state signer
    { iParticipant with dgCoinBalances := iParticipant.dgCoinBalances ++ [newIBalance] }
  let state ← setExchanges env exchanges state
  setProposal env state payload.proposalId
    { currentProposal with
      dgCoinExchanged := currentProposal.dgCoinExchanged + payload.dgCoinAmount
      status }

/-- Increase the balance for a buy. -/
def autoBuy (env : Env) (payload : AnswerProposalAction) (exchanges : List Exchange)
    (status : Status) (currentProposal : Proposal) (iParticipant : Participant) (state : State)
    (signer : String) (timestamp : Nat) : Except ApplyError State :=
  let iDgCoinBalance := (latest iParticipant.dgCoinBalances).dgCoinAmount
  autoFill env payload exchanges status (iDgCoinBalance + payload.dgCoinAmount)
    currentProposal iParticipant state signer timestamp

/-- Decrease the balance for a sell, within balance and credit. -/
def autoSell (env : Env) (payload : AnswerProposalAction) (exchanges : List Exchange)
    (status : Status) (currentProposal : Proposal) (iParticipant : Participant) (state : State)
    (signer : String) (timestamp : Nat) : Except ApplyError State := do
  let iDgCoinCredit := (latest iParticipant.dgCoinCredits).dgCoinAmount
  let iDgCoinBalance := (latest iParticipant.dgCoinBalances).dgCoinAmount
  rejectIf (iDgCoinBalance + iDgCoinCredit < payload.dgCoinAmount) (.InvalidTransaction
    ("The dg coin balance of issuing participant is not enough: " ++ signer))
  autoFill env payload exchanges status (iDgCoinBalance - payload.dgCoinAmount)
    currentProposal iParticipant state signer timestamp

/-- ACCEPT of `creditDGC`: increase the receiver's credit. -/
def acceptCredit (env : Env) (payload : AnswerProposalAction) (currentProposal : Proposal)
    (rParticipant : Participant) (state : State) (timestamp : Nat) :
    Except ApplyError State := do
  let rDgCoinCredit := (latest rParticipant.dgCoinCredits).dgCoinAmount
  let newCredit : CreditBalance :=
    { proposalId := payload.proposalId, timestamp,
      dgCoinAmount := rDgCoinCredit + payload.dgCoinAmount }
  let state ← setParticipant env state payload.receivingParticipant
    { rParticipant with dgCoinCredits := rParticipant.dgCoinCredits ++ [newCredit] }
  setProposal env state payload.proposalId { currentProposal with status := .ACCEPTED }

/-- ACCEPT of `transferDGC`: both participants were read before either is written. -/
def acceptTransfer (env : Env) (payload : AnswerProposalAction) (currentProposal : Proposal)
    (iParticipant rParticipant : Participant) (state : State) (signer : String)
    (timestamp : Nat) : Except ApplyError State := do
  let iDgCoinBalance := (latest iParticipant.dgCoinBalances).dgCoinAmount
  rejectIf (iDgCoinBalance < payload.dgCoinAmount) (.InvalidTransaction
    ("The dg coin balance of issuving participant is not enough: " ++ signer))
  let newIBalance := nextBalance iParticipant.dgCoinBalances payload.proposalId timestamp
    (iDgCoinBalance - payload.dgCoinAmount)
  let state ← setParticipant env state signer
    { iParticipant with dgCoinBalances := iParticipant.dgCoinBalances ++ [newIBalance] }
  let rDgCoinBalance := (latest rParticipant.dgCoinBalances).dgCoinAmount
  let newRBalance := nextBalance rParticipant.dgCoinBalances payload.proposalId timestamp
    (rDgCoinBalance + payload.dgCoinAmount)
  let state ← setParticipant env state payload.receivingParticipant
    { rParticipant with dgCoinBalances := rParticipant.dgCoinBalances ++ [newRBalance] }
  setProposal env state payload.proposalId { currentProposal with status := .ACCEPTED }

/-- The loop body over the reporters on an ownership transfer: the flag that the receiver has
an authorized entry, and the rebuilt list. -/
def handOverEntry (owner receiver : String) (acc : Bool × List Reporter) (reporter : Reporter) :
    Bool × List Reporter :=
  if reporter.publicKey = owner then (acc.1,acc.2 ++ [{ reporter with authorized := false }])
  else if reporter.publicKey = receiver then
    (true,acc.2 ++ [{ reporter with authorized := true }])
  else (acc.1,acc.2 ++ [reporter])

/-- The reporters of a property after its record went from `owner` to `receiver`. -/
def handOver (owner receiver : String) (prop : Property) : Property :=
  let (authorized,newReporters) := prop.reporters.foldl (handOverEntry owner receiver) (false,[])
  let reporter : Reporter :=
    { publicKey := receiver, authorized := true, index := asU32 prop.reporters.length }
  { prop with reporters := if !authorized then newReporters ++ [reporter] else newReporters }

/-- The loop body over the table's schema on an ownership transfer. -/
def handOverProperty (env : Env) (recordId owner receiver : String) (state : State)
    (propSchema : PropertySchema) : Except ApplyError State := do
  let prop ← expect (getProperty env state recordId propSchema.name) (.InvalidTransaction
    "Property does not exist")
  setProperty env state recordId prop.name (handOver owner receiver prop)

/-- ACCEPT of `transferOwnership`. -/
def acceptOwnership (env : Env) (payload : AnswerProposalAction) (currentProposal : Proposal)
    (state : State) (timestamp : Nat) : Except ApplyError State := do
  let recordId := payload.recordId
  let receiver := payload.receivingParticipant
  let proposalRecord ← expect (getRecord env state recordId) (.InvalidTransaction
    ("Record in proposal does not exist: " ++ recordId))
  let owner ← expect (.ok proposalRecord.owners.getLast?) (.InvalidTransaction
    "Owner not found")
  let newOwner : AssociatedParticipant := { participantId := receiver, timestamp }
  let state ← setRecord env state recordId
    { proposalRecord with owners := proposalRecord.owners ++ [newOwner] }
  let table ← expect (getTable env state proposalRecord.table) (.InvalidTransaction
    ("Table does not exist: " ++ proposalRecord.table))
  let state ← table.properties.foldlM
    (handOverProperty env recordId owner.participantId receiver) state
  setProposal env state payload.proposalId { currentProposal with status := .ACCEPTED }

/-- ACCEPT of `transferCustodianship`. -/
def acceptCustodianship (env : Env) (payload : AnswerProposalAction)
    (currentProposal : Proposal) (state : State) (timestamp : Nat) :
    Except ApplyError State := do
  let recordId := payload.recordId
  let proposalRecord ← expect (getRecord env state recordId) (.InvalidTransaction
    ("Record in proposal does not exist: " ++ recordId))
  let _ ← expect (.ok proposalRecord.custodians.getLast?) (.InvalidTransaction
    "Custodian not found")
  let newCustodian : AssociatedParticipant :=
    { participantId := payload.receivingParticipant, timestamp }
  let state ← setRecord env state recordId
    { proposalRecord with custodians := proposalRecord.custodians ++ [newCustodian] }
  setProposal env state payload.proposalId { currentProposal with status := .ACCEPTED }

/-- A new reporter entry at the end of the list. -/
def addReporter (receiver : String) (prop : Property) : Property :=
  { prop with reporters := prop.reporters ++
      [{ publicKey := receiver, authorized := true, index := asU32 prop.reporters.length }] }

/-- The loop body over the proposal's property names. -/
def authorizeProperty (env : Env) (recordId receiver : String) (state : State)
    (propName : String) : Except ApplyError State := do
  let prop ← expect (getProperty env state recordId propName) (.InvalidTransaction
    "Property does not exist")
  setProperty env state recordId propName (addReporter receiver prop)

/-- ACCEPT of `authorizeReporter`. -/
def acceptReporter (env : Env) (payload : AnswerProposalAction) (currentProposal : Proposal)
    (state : State) : Except ApplyError State := do
  let recordId := payload.recordId
  let proposalRecord ← expect (getRecord env state recordId) (.InvalidTransaction
    ("Record in proposal does not exist: " ++ recordId))
  let _ ← expect (.ok proposalRecord.owners.getLast?) (.InvalidTransaction "Owner not found")
  let state ← currentProposal.properties.foldlM
    (authorizeProperty env recordId payload.receivingParticipant) state
  setProposal env state payload.proposalId { currentProposal with status := .ACCEPTED }

/-- The branches of an ACCEPT by role. -/
def acceptProposal (env : Env) (payload : AnswerProposalAction) (currentProposal : Proposal)
    (iParticipant : Participant) (state : State) (signer : String) (timestamp : Nat) :
    Except ApplyError State := do
  rejectIf (currentProposal.receivingParticipant ≠ signer) (.InvalidTransaction
    "Only the receiving participant can Accept a proposal")
  let rParticipant ← expect (getParticipant env state payload.receivingParticipant)
    (.InvalidTransaction
      ("Receiving participant does not exist: " ++ payload.receivingParticipant))
  match payload.role with
  | .creditDGC => acceptCredit env payload currentProposal rParticipant state timestamp
  | .buyDGC => .ok state
  | .sellDGC => .ok state
  | .transferDGC =>
    acceptTransfer env payload currentProposal iParticipant rParticipant state signer timestamp
  | .transferOwnership => acceptOwnership env payload currentProposal state timestamp
  | .transferCustodianship => acceptCustodianship env payload currentProposal state timestamp
  | .authorizeReporter => acceptReporter env payload currentProposal state

/-- The branches of `autoOPEN` and `autoCLOSE` by role. -/
def autoAnswer (env : Env) (payload : AnswerProposalAction) (exchanges : List Exchange)
    (status : Status) (currentProposal : Proposal) (iParticipant : Participant) (state : State)
    (signer : String) (timestamp : Nat) : Except ApplyError State :=
  match payload.role with
  | .transferOwnership => .ok state
  | .transferCustodianship => .ok state
  | .authorizeReporter => .ok state
  | .buyDGC =>
    autoBuy env payload exchanges status currentProposal iParticipant state signer timestamp
  | .sellDGC =>
    autoSell env payload exchanges status currentProposal iParticipant state signer timestamp
  | .creditDGC => .ok state
  | .transferDGC => .ok state

def answerProposal (env : Env) (payload : AnswerProposalAction) (state : State)
    (signer : String) (timestamp : Nat) : Except ApplyError State := do
  let proposalId := payload.proposalId
  let currentProposal ← expect (getProposal env state proposalId) (.InvalidTransaction
    "Proposal does not exist")
  let iParticipant ← expect (getParticipant env state signer) (.InvalidTransaction
    ("Issuing participant does not exist: " ++ signer))
  match payload.response with
  | .CANCEL => do
    rejectIf (currentProposal.issuingParticipant ≠ signer) (.InvalidTransaction
      "Only the issuing participant can cancel a proposal")
    setProposal env state proposalId { currentProposal with status := .CANCELED }
  | .REJECT => do
    rejectIf (currentProposal.receivingParticipant ≠ signer) (.InvalidTransaction
      "Only the receiving participant can reject a proposal")
    setProposal env state proposalId { currentProposal with status := .REJECTED }
  | .autoOPEN =>
    autoAnswer env payload [] .OPEN currentProposal iParticipant state signer timestamp
  | .autoCLOSE =>
    autoAnswer env payload payload.exchanges .CLOSED currentProposal iParticipant state signer
      timestamp
  | .ACCEPT =>
    acceptProposal env payload currentProposal iParticipant state signer timestamp

end DgcRestApi
