import DgcRestApi.Kit.Sha512
import DgcRestApi.LedgerSync.Addresses

/-!
# Events of the validator

`subscriber/index.js`. A block arrives as a list of events: its commit, and the changes of the
state, which are those of all families on the chain. The prefix by which ledger sync tells the
changes of its own family is a constant there; the processor computes it with SHA-512.
-/

namespace DgcRestApi

/-- The digest that the processor is built with. -/
def sha512 : Sha512 where
  resultStr := Sha2.hexDigest
  length_resultStr x := by
    rw [Sha2.length_hexDigest]
    decide

namespace LedgerSync
open Addressing

def PREFIX : Address := ['3','b','f','c','8','1']

/-- An event with its data decoded: the state changes, if it is a state delta. -/
structure StreamEvent where
  eventType : String
  attributes : List (String × String) := []
  stateChanges : List Change := []

/-- `parseInt` of a decimal number: the digits that the text starts with. -/
def parseInt (text : String) : Option Nat :=
  match text.toList.takeWhile Char.isDigit with
  | [] => none
  | digits => some (Nat.ofDigits 10 (digits.map fun c => c.toNat - 48).reverse)

example : parseInt "407" = some 407 ∧ parseInt "40a" = some 40 ∧ parseInt "" = none := by
  decide +kernel

/-- Parse Block Commit Event. There is no block in events without a number and an id. -/
def getBlock (events : List StreamEvent) : Option Block :=
  let attributes := ((events.find? fun e => e.eventType = "sawtooth/block-commit").map
    StreamEvent.attributes).getD []
  let block := fromPairs attributes
  let blockNum := ((block.lookup "block_num").bind parseInt).getD MAX_SAFE_INTEGER
  let blockId := (block.lookup "block_id").getD ""
  let stateRootHash := (block.lookup "state_root_hash").getD ""
  if h : blockNum < MAX_SAFE_INTEGER ∧ blockId ≠ "" then
    some ⟨blockNum,blockId,stateRootHash,h.1,h.2⟩
  else none

/-- `address.slice(0, 6) === PREFIX`. -/
def hasPrefix (address : Address) : Bool := address.take 6 = PREFIX

/-- The changes of the state delta event, of whatever family. -/
def stateChanges (events : List StreamEvent) : List Change :=
  ((events.find? fun e => e.eventType = "sawtooth/state-delta").map
    StreamEvent.stateChanges).getD []

/-- Parse State Delta Event. -/
def getChanges (events : List StreamEvent) : List Change :=
  (stateChanges events).filter fun change => hasPrefix change.address

inductive Message
  | clientEvents (events : List StreamEvent)
  | other

/-- The delta that is passed on to be handled. -/
def handleEvent : Message → Option Delta
  | .clientEvents events => (getBlock events).map fun block => ⟨block,getChanges events⟩
  | .other => none

theorem mem_getChanges {events : List StreamEvent} {c : Change} :
    c ∈ getChanges events ↔ c ∈ stateChanges events ∧ hasPrefix c.address = true :=
  List.mem_filter

/-- The constant of ledger sync is the prefix of the family. -/
theorem getDgcRestApiPrefix_sha512 : getDgcRestApiPrefix sha512 = PREFIX := by decide +kernel

/-- Every address of the family passes the filter. -/
theorem hasPrefix_keyAddress (key : Key) : hasPrefix (keyAddress sha512 key) = true := by
  have htake : ∀ rest, hasPrefix (getDgcRestApiPrefix sha512 ++ rest) = true := by
    intro rest
    rw [hasPrefix,List.take_left' length_getDgcRestApiPrefix,getDgcRestApiPrefix_sha512]
    exact decide_eq_true rfl
  cases key with
  | publicKey k =>
    rw [keyAddress,makeParticipantAddress,List.append_assoc]
    exact htake _
  | recordId r =>
    rw [keyAddress,makeRecordAddress,List.append_assoc]
    exact htake _
  | tableName n =>
    rw [keyAddress,makeTableAddress,List.append_assoc]
    exact htake _
  | property n r =>
    simp only [keyAddress,makePropertyAddress,makePropertyAddressRange,List.append_assoc]
    exact htake _
  | page n r k =>
    simp only [keyAddress,makePropertyAddress,makePropertyAddressRange,List.append_assoc]
    exact htake _
  | proposalId x =>
    rw [keyAddress,makeProposalAddress,List.append_assoc]
    exact htake _
  | exchange b v =>
    simp only [keyAddress,makeExchangeAddress,List.append_assoc]
    exact htake _

/-- All that the processor ever stores is at addresses that pass the filter. -/
theorem reachable_hasPrefix {env : Env} {h : List (State × Tx)} {s : State} {A : Address}
    {c : Container} (henv : env.sha = sha512) (hr : Reachable env h s) (hA : s A = some c) :
    hasPrefix A = true := by
  obtain ⟨key,_,_,rfl⟩ := reachable_keyed hr hA
  rw [henv]
  exact hasPrefix_keyAddress key

end LedgerSync

end DgcRestApi
