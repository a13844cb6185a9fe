import DgcRestApi.Processor.Apply
import Mathlib.Tactic.Simps.Basic

/-!
# The ledger without addresses

What the addressed state says, as one lookup for each kind of object, and the updates the
actions make to it. Properties and pages are shared by the records whose identifiers have
one address range; `range` stands for `makePropertyAddressRange`.
-/

namespace DgcRestApi

@[ext]
structure Ledger where
  participant : String → Option Participant
  record : String → Option Record
  table : String → Option Table
  property : String → String → Option Property
  page : String → String → Nat → Option PropertyPage
  proposal : String → Option Proposal
  exchange : String ×ₗ String → Option Exchange

/-- The latest balance of a participant, 0 when it never had one. -/
def Participant.balance (p : Participant) : ℚ := (latest p.dgCoinBalances).dgCoinAmount

/-- The latest credit of a participant, 0 when it never had one. -/
def Participant.credit (p : Participant) : ℚ := (latest p.dgCoinCredits).dgCoinAmount

/-- The participant after its balance was set to `amount`. -/
def Participant.pay (p : Participant) (proposalId : String) (timestamp : Nat) (amount : ℚ) :
    Participant :=
  { p with
    dgCoinBalances := p.dgCoinBalances ++
      [nextBalance p.dgCoinBalances proposalId timestamp amount] }

/-- The participant after its credit was raised by `amount`. -/
def Participant.lend (p : Participant) (proposalId : String) (timestamp : Nat) (amount : ℚ) :
    Participant :=
  { p with
    dgCoinCredits := p.dgCoinCredits ++
      [{ proposalId, timestamp, dgCoinAmount := p.credit + amount }] }

@[simp] theorem Participant.pay_balance (p : Participant) (x : String) (t : Nat) (amount : ℚ) :
    (p.pay x t amount).balance = amount := by
  simp [pay,balance,latest,nextBalance]

@[simp] theorem Participant.pay_credit (p : Participant) (x : String) (t : Nat) (amount : ℚ) :
    (p.pay x t amount).credit = p.credit := rfl

@[simp] theorem Participant.lend_balance (p : Participant) (x : String) (t : Nat) (amount : ℚ) :
    (p.lend x t amount).balance = p.balance := rfl

@[simp] theorem Participant.lend_credit (p : Participant) (x : String) (t : Nat) (amount : ℚ) :
    (p.lend x t amount).credit = p.credit + amount := by
  simp [lend,credit,latest]

namespace Ledger

def empty : Ledger where
  participant _ := none
  record _ := none
  table _ := none
  property _ _ := none
  page _ _ _ := none
  proposal _ := none
  exchange _ := none

section Updates

variable (range : String → Address) (L : Ledger)

@[simps]
def setParticipant (k : String) (p : Participant) : Ledger :=
  { L with participant := Function.update L.participant k (some p) }

@[simps]
def setRecord (r : String) (rec : Record) : Ledger :=
  { L with record := Function.update L.record r (some rec) }

@[simps]
def setTable (name : String) (t : Table) : Ledger :=
  { L with table := Function.update L.table name (some t) }

@[simps]
def setProposal (x : String) (c : Proposal) : Ledger :=
  { L with proposal := Function.update L.proposal x (some c) }

@[simps]
def setExchange (k : String ×ₗ String) (e : Exchange) : Ledger :=
  { L with exchange := Function.update L.exchange k (some e) }

@[simps]
def setProperty (r n : String) (q : Property) : Ledger :=
  { L with
    property := fun r' n' => if range r' = range r ∧ n' = n then some q else L.property r' n' }

@[simps]
def setPage (r n : String) (k : Nat) (page : PropertyPage) : Ledger :=
  { L with
    page := fun r' n' k' =>
      if range r' = range r ∧ n' = n ∧ k' = k then some page else L.page r' n' k' }

/-- The properties of `r` with a name for which `prop` has one, each with its first page. -/
@[simps]
def initProperties (r : String) (prop : String → Option Property)
    (initial : String → List ReportedValue) : Ledger :=
  { L with
    property := fun r' n => if range r' = range r ∧ (prop n).isSome then prop n
      else L.property r' n
    page := fun r' n k => if range r' = range r ∧ (prop n).isSome ∧ k = 1
      then some { name := n, recordId := r, reportedValues := initial n } else L.page r' n k }

/-- Every property of `r` mapped by `f` as often as `names` lists it. -/
@[simps]
def mapProperties (r : String) (names : List String) (f : Property → Property) : Ledger :=
  { L with
    property := fun r' n => if range r' = range r then (L.property r' n).map f^[names.count n]
      else L.property r' n }

/-- The exchanges of an answer, stored one after the other. -/
def setExchanges (exchanges : List Exchange) : Ledger :=
  exchanges.foldl (fun L e =>
    L.setExchange (toLex (e.buyProposalId,e.sellProposalId)) (newExchange e)) L

/-- Storing exchanges changes nothing else. -/
theorem setExchanges_eq (exchanges : List Exchange) :
    L.setExchanges exchanges = { L with exchange := (L.setExchanges exchanges).exchange } := by
  unfold setExchanges
  induction exchanges generalizing L with
  | nil => rfl
  | cons e exchanges ih =>
    rw [List.foldl_cons,ih]
    rfl

@[simp] theorem setExchanges_participant (es : List Exchange) :
    (L.setExchanges es).participant = L.participant := by rw [setExchanges_eq]

@[simp] theorem setExchanges_record (es : List Exchange) :
    (L.setExchanges es).record = L.record := by rw [setExchanges_eq]

@[simp] theorem setExchanges_table (es : List Exchange) :
    (L.setExchanges es).table = L.table := by rw [setExchanges_eq]

@[simp] theorem setExchanges_property (es : List Exchange) :
    (L.setExchanges es).property = L.property := by rw [setExchanges_eq]

@[simp] theorem setExchanges_page (es : List Exchange) :
    (L.setExchanges es).page = L.page := by rw [setExchanges_eq]

@[simp] theorem setExchanges_proposal (es : List Exchange) :
    (L.setExchanges es).proposal = L.proposal := by rw [setExchanges_eq]

end Updates

end Ledger

end DgcRestApi
