import DgcRestApi.Kit.Fallible
import DgcRestApi.Kit.Keyed
import DgcRestApi.Processor.Protos
import DgcRestApi.Processor.Addressing
import Mathlib.Data.Prod.Lex
import Mathlib.Data.String.Basic
import Mathlib.Logic.Function.Basic

/-!
# The addressed state

`StateDGC`: the getters and setters of the handler over the validator's state, a map from
addresses to serialized containers. A container holds every object whose address is the
same. Parsing is the inverse of serialization, so the map holds the containers themselves;
a container of another kind does not parse.
-/

namespace DgcRestApi
open Addressing Fallible Keyed

/-- `ApplyError` of the SDK, and a Rust panic as a third way not to return. -/
inductive ApplyError
  | InvalidTransaction (msg : String)
  | InternalError (msg : String)
  | Panic (msg : String)
deriving DecidableEq, Repr

inductive Container
  | participants (entries : List Participant)
  | records (entries : List Record)
  | tables (entries : List Table)
  | properties (entries : List Property)
  | propertyPages (entries : List PropertyPage)
  | proposals (entries : List Proposal)
  | exchanges (entries : List Exchange)

/-- The validator's state: what is stored at each address. -/
abbrev State := Address → Option Container

def State.empty : State := fun _ => none

/-- What the handler takes from outside the repository: the digest, whether
`write_to_bytes` serializes a container, the `{:?}` text of a balance message and whether
the `info!` level is on. -/
structure Env where
  sha : Sha512
  writeToBytes : Container → Bool
  debugBalance : CreditBalance → String
  logInfo : Bool

/-- One kind of stored object: its container and the key that tells its entries apart. -/
structure Kind (α κ : Type) where
  label : String
  wrap : List α → Container
  unwrap : Container → Option (List α)
  key : α → κ
  unwrap_wrap : ∀ es, unwrap (wrap es) = some es
  eq_wrap : ∀ {c es}, unwrap c = some es → c = wrap es

def participantKind : Kind Participant String where
  label := "participant"
  wrap := .participants
  unwrap | .participants es => some es | _ => none
  key := Participant.publicKey
  unwrap_wrap _ := rfl
  eq_wrap {c _} h := by cases c <;> simp_all

def recordKind : Kind Record String where
  label := "record"
  wrap := .records
  unwrap | .records es => some es | _ => none
  key := Record.recordId
  unwrap_wrap _ := rfl
  eq_wrap {c _} h := by cases c <;> simp_all

def tableKind : Kind Table String where
  label := "table"
  wrap := .tables
  unwrap | .tables es => some es | _ => none
  key := Table.name
  unwrap_wrap _ := rfl
  eq_wrap {c _} h := by cases c <;> simp_all

/-- Properties are told apart by name alone. -/
def propertyKind : Kind Property String where
  label := "property"
  wrap := .properties
  unwrap | .properties es => some es | _ => none
  key := Property.name
  unwrap_wrap _ := rfl
  eq_wrap {c _} h := by cases c <;> simp_all

def propertyPageKind : Kind PropertyPage String where
  label := "property page"
  wrap := .propertyPages
  unwrap | .propertyPages es => some es | _ => none
  key := PropertyPage.name
  unwrap_wrap _ := rfl
  eq_wrap {c _} h := by cases c <;> simp_all

def proposalKind : Kind Proposal String where
  label := "proposal"
  wrap := .proposals
  unwrap | .proposals es => some es | _ => none
  key := Proposal.proposalId
  unwrap_wrap _ := rfl
  eq_wrap {c _} h := by cases c <;> simp_all

def exchangeKind : Kind Exchange (String ×ₗ String) where
  label := "exchange"
  wrap := .exchanges
  unwrap | .exchanges es => some es | _ => none
  key e := toLex (e.buyProposalId,e.sellProposalId)
  unwrap_wrap _ := rfl
  eq_wrap {c _} h := by cases c <;> simp_all

section Kinds

variable {α κ : Type} [LinearOrder κ] (K : Kind α κ)

/-- The entries at an address, none when nothing is stored there. -/
def loadEntries (state : State) (address : Address) : Except ApplyError (List α) :=
  match state address with
  | none => .ok []
  | some packed =>
    match K.unwrap packed with
    | some entries => .ok entries
    | none => .error (.InternalError ("Cannot deserialize " ++ (K.label ++ " container")))

/-- Sort the entries by key, serialize the container and write it. -/
def storeEntries (env : Env) (state : State) (address : Address) (entries : List α) :
    Except ApplyError State :=
  let container := K.wrap (sortByKey K.key entries)
  if env.writeToBytes container then .ok (Function.update state address (some container))
  else .error (.InternalError ("Cannot serialize " ++ (K.label ++ " container")))

def getEntry (state : State) (address : Address) (k : κ) : Except ApplyError (Option α) := do
  let entries ← loadEntries K state address
  return find K.key k entries

/-- `Vec::remove`, which panics when the index is out of range. -/
def vecRemove (entries : List α) (index : Nat) : Except ApplyError (List α) :=
  if index < entries.length then .ok (entries.eraseIdx index)
  else .error (.Panic "removal index out of range")

/-- Search the entry with key `k` and remove it if it exists. -/
def removeOld (k : κ) (entries : List α) : Except ApplyError (List α) :=
  match entries.findIdx? (fun e => K.key e = k) with
  | some x => vecRemove entries x
  | none => .ok entries

/-- Remove the old entry with key `k` if it exists, push the new one and sort. -/
def setEntry (env : Env) (state : State) (address : Address) (k : κ) (entry : α) :
    Except ApplyError State := do
  let entries ← loadEntries K state address
  let entries ← removeOld K k entries
  storeEntries K env state address (entries ++ [entry])

/-- The index that the search stops at is in range. -/
theorem removeOld_eq (k : κ) (entries : List α) :
    removeOld K k entries = .ok (entries.eraseP (fun e => K.key e = k)) := by
  rw [removeOld,List.eraseP_eq_eraseIdx]
  cases hx : entries.findIdx? (fun e => K.key e = k) with
  | none => rfl
  | some x =>
    have hlt : x < entries.length := (List.findIdx?_eq_some_iff_findIdx_eq.mp hx).1
    simp only [vecRemove,if_pos hlt]

theorem setEntry_eq (env : Env) (state : State) (address : Address) (k : κ) (entry : α) :
    setEntry K env state address k entry = (do
      let entries ← loadEntries K state address
      storeEntries K env state address
        (entries.eraseP (fun e => K.key e = k) ++ [entry])) := by
  simp only [setEntry,removeOld_eq]
  rfl

end Kinds

variable (env : Env) (state : State)

def getRecord (recordId : String) : Except ApplyError (Option Record) :=
  getEntry recordKind state (makeRecordAddress env.sha recordId) recordId

def setRecord (recordId : String) (record : Record) : Except ApplyError State :=
  setEntry recordKind env state (makeRecordAddress env.sha recordId) recordId record

def getTable (name : String) : Except ApplyError (Option Table) :=
  getEntry tableKind state (makeTableAddress env.sha name) name

/-- Unlike the other setters this one does not remove an old entry. -/
def setTable (name : String) (table : Table) : Except ApplyError State := do
  let entries ← loadEntries tableKind state (makeTableAddress env.sha name)
  storeEntries tableKind env state (makeTableAddress env.sha name) (entries ++ [table])

def getParticipant (participantId : String) : Except ApplyError (Option Participant) :=
  getEntry participantKind state (makeParticipantAddress env.sha participantId) participantId

def setParticipant (participantId : String) (participant : Participant) :
    Except ApplyError State :=
  setEntry participantKind env state (makeParticipantAddress env.sha participantId)
    participantId participant

def getProperty (recordId propertyName : String) : Except ApplyError (Option Property) :=
  getEntry propertyKind state (makePropertyAddress env.sha recordId propertyName 0) propertyName

def setProperty (recordId propertyName : String) (property : Property) :
    Except ApplyError State :=
  setEntry propertyKind env state (makePropertyAddress env.sha recordId propertyName 0)
    propertyName property

def getPropertyPage (recordId propertyName : String) (page : Nat) :
    Except ApplyError (Option PropertyPage) :=
  getEntry propertyPageKind state (makePropertyAddress env.sha recordId propertyName page)
    propertyName

def setPropertyPage (recordId propertyName : String) (pageNum : Nat)
    (propertyPage : PropertyPage) : Except ApplyError State :=
  setEntry propertyPageKind env state (makePropertyAddress env.sha recordId propertyName pageNum)
    propertyName propertyPage

def getProposal (proposalId : String) : Except ApplyError (Option Proposal) :=
  getEntry proposalKind state (makeProposalAddress env.sha proposalId) proposalId

def setProposal (proposalId : String) (proposal : Proposal) : Except ApplyError State :=
  setEntry proposalKind env state (makeProposalAddress env.sha proposalId) proposalId proposal

def getExchange (buyProposalId sellProposalId : String) :
    Except ApplyError (Option Exchange) :=
  getEntry exchangeKind state (makeExchangeAddress env.sha buyProposalId sellProposalId)
    (toLex (buyProposalId,sellProposalId))

def setExchange (buyProposalId sellProposalId : String) (exchange : Exchange) :
    Except ApplyError State :=
  setEntry exchangeKind env state (makeExchangeAddress env.sha buyProposalId sellProposalId)
    (toLex (buyProposalId,sellProposalId)) exchange

end DgcRestApi
