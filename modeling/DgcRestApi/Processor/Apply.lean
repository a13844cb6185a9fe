import DgcRestApi.Kit.Run
import DgcRestApi.Processor.Proposals

/-!
# Dispatch

`PayloadDGC::new` and `apply`: a request is parsed, its payload is checked and the action is
run on the state. The ledger's history is the run of the accepted requests from the empty
state; a rejected one leaves the state as it was.
-/

namespace DgcRestApi
open Fallible

inductive Action
  | CreateParticipant (action : CreateParticipantAction)
  | CreateRecord (action : CreateRecordAction)
  | FinalizeRecord (action : FinalizeRecordAction)
  | CreateTable (action : CreateTableAction)
  | UpdateProperties (action : UpdatePropertiesAction)
  | CreateProposal (action : CreateProposalAction)
  | AnswerProposal (action : AnswerProposalAction)
  | RevokeReporter (action : RevokeReporterAction)

structure PayloadDGC where
  action : Action
  timestamp : Nat

/-- The action of the message, after the checks on names that must not be empty. -/
def payloadAction (payload : PayloadMessage) : Except ApplyError Action :=
  match payload.action with
  | .CREATE_PARTICIPANT => do
    rejectIf (payload.createParticipant.name = "") (.InvalidTransaction
      "Participant name cannot be an empty string")
    return .CreateParticipant payload.createParticipant
  | .CREATE_RECORD => do
    rejectIf (payload.createRecord.recordId = "") (.InvalidTransaction
      "Record id cannot be empty string")
    return .CreateRecord payload.createRecord
  | .FINALIZE_RECORD => return .FinalizeRecord payload.finalizeRecord
  | .CREATE_TABLE => do
    rejectIf (payload.createTable.name = "") (.InvalidTransaction
      "Table name cannot be an empty string")
    rejectIf (payload.createTable.properties.length = 0) (.InvalidTransaction
      "Table must have at least one property")
    payload.createTable.properties.forM fun prop =>
      rejectIf (prop.name = "") (.InvalidTransaction
        "Property name cannot be an empty string")
    return .CreateTable payload.createTable
  | .UPDATE_PROPERTIES => return .UpdateProperties payload.updateProperties
  | .CREATE_PROPOSAL => return .CreateProposal payload.createProposal
  | .ANSWER_PROPOSAL => return .AnswerProposal payload.answerProposal
  | .REVOKE_REPORTER => return .RevokeReporter payload.revokeReporter

/-- `PayloadDGC::new` on the outcome of `protobuf::parse_from_bytes`. -/
def PayloadDGC.new (payload : Option PayloadMessage) : Except ApplyError (Option PayloadDGC) :=
  match payload with
  | none => .error (.InvalidTransaction "Cannot deserialize payload")
  | some payload => do
    let action ← payloadAction payload
    rejectIf (payload.timestamp = 0) (.InvalidTransaction "Timestamp is not set")
    return some { action, timestamp := payload.timestamp }

/-- A request of the validator: the signer, the parsed payload bytes (`none` when they do not
parse) and the declared input and output addresses. -/
structure TpProcessRequest where
  signerPublicKey : String
  payload : Option PayloadMessage
  inputs : List String := []
  outputs : List String := []

/-- The arguments of the `info!` line, evaluated only when the level is on. -/
def logRequest (env : Env) (request : TpProcessRequest) : Except ApplyError Unit :=
  if env.logInfo ∧ (request.inputs.length = 0 ∨ request.outputs.length = 0) then
    .error (.Panic "index out of bounds")
  else .ok ()

/-- The `match` on the action in `apply`. -/
def dispatch (env : Env) (orders : Orders) (payload : PayloadDGC) (state : State)
    (signer : String) : Except ApplyError State :=
  match payload.action with
  | .CreateParticipant a => createParticipant env a state signer payload.timestamp
  | .CreateRecord a => createRecord env orders a state signer payload.timestamp
  | .FinalizeRecord a => finalizeRecord env a state signer
  | .CreateTable a => createTable env a state signer
  | .UpdateProperties a => updateProperties env a state signer payload.timestamp
  | .CreateProposal a => createProposal env a state signer payload.timestamp
  | .AnswerProposal a => answerProposal env a state signer payload.timestamp
  | .RevokeReporter a => revokeReporter env a state signer

def apply (env : Env) (orders : Orders) (request : TpProcessRequest) (state : State) :
    Except ApplyError State := do
  let payload ← expect (PayloadDGC.new request.payload) (.InvalidTransaction
    "Request must contain a payload")
  logRequest env request
  dispatch env orders payload state request.signerPublicKey

/-- What a request asks for: the signer, the timestamp and the action of a valid payload. -/
structure Tx where
  signer : String
  timestamp : Nat
  action : Action

def TpProcessRequest.tx? (request : TpProcessRequest) : Option Tx :=
  (found (PayloadDGC.new request.payload)).map fun payload =>
    { signer := request.signerPublicKey, timestamp := payload.timestamp, action := payload.action }

/-- A request whose payload is an answer carries that answer, if anything. -/
theorem tx_answer {request : TpProcessRequest} {timestamp : Nat} {a : AnswerProposalAction}
    {tx : Tx} (hp : request.payload =
      some { action := .ANSWER_PROPOSAL, timestamp, answerProposal := a })
    (htx : request.tx? = some tx) : tx = ⟨request.signerPublicKey,timestamp,.AnswerProposal a⟩ := by
  have hnew : PayloadDGC.new request.payload =
      if timestamp = 0 then .error (.InvalidTransaction "Timestamp is not set")
      else .ok (some ⟨.AnswerProposal a,timestamp⟩) := by
    rw [hp]
    by_cases h0 : timestamp = 0
    · subst h0
      rfl
    · simp [PayloadDGC.new,payloadAction,rejectIf,h0]
  rw [TpProcessRequest.tx?,hnew] at htx
  split at htx
  · cases htx
  · exact (Option.some.inj htx).symm

/-- The transaction is accepted in `state` and leads to `state'`: some request that carries it
is, under some iteration orders of the hash maps. -/
def Accepted (env : Env) (state : State) (tx : Tx) (state' : State) : Prop :=
  ∃ orders request, request.tx? = some tx ∧ apply env orders request state = .ok state'

/-- The state is reached from the empty ledger by the accepted transactions of the history,
newest first. -/
abbrev Reachable (env : Env) (history : List (State × Tx)) (state : State) : Prop :=
  Run (Accepted env) State.empty history state

theorem accepted_dispatch {env : Env} {state state' : State} {tx : Tx}
    (h : Accepted env state tx state') : ∃ orders,
      dispatch env orders { action := tx.action, timestamp := tx.timestamp } state tx.signer =
        .ok state' := by
  obtain ⟨orders,request,htx,h⟩ := h
  obtain ⟨payload,hp,h⟩ := bind_eq_ok.mp h
  obtain ⟨_,_,h⟩ := bind_eq_ok.mp h
  rw [expect_eq_ok] at hp
  simp only [TpProcessRequest.tx?,hp,found_ok,Option.map_some,Option.some.injEq] at htx
  subst htx
  exact ⟨orders,h⟩

end DgcRestApi
