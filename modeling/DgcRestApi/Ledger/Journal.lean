import DgcRestApi.Ledger.Answers
import DgcRestApi.Ledger.Coins
import DgcRestApi.Ledger.Prices
import DgcRestApi.Ledger.Refines

/-!
# The journal of an object

What a transaction does to a participant, a record, a table or a proposal can be told from the
transaction and that object, without the rest of the ledger. So the transactions that name an
object, in their order, say what the ledger holds of it, however they came between others.
-/

namespace DgcRestApi
open Ledger

/-- What an answer makes of the participant `k`. -/
def Participant.posted (k signer : String) (ts : Nat) (a : AnswerProposalAction)
    (p : Participant) : Participant :=
  match a.response,a.role with
  | .autoOPEN,.buyDGC | .autoCLOSE,.buyDGC =>
    if signer = k then p.pay a.proposalId ts (p.balance + a.dgCoinAmount) else p
  | .autoOPEN,.sellDGC | .autoCLOSE,.sellDGC =>
    if signer = k then p.pay a.proposalId ts (p.balance - a.dgCoinAmount) else p
  | .ACCEPT,.creditDGC =>
    if a.receivingParticipant = k then p.lend a.proposalId ts a.dgCoinAmount else p
  | .ACCEPT,.transferDGC =>
    -- the receiver is stored last, also when it is the signer
    if a.receivingParticipant = k then p.pay a.proposalId ts (p.balance + a.dgCoinAmount)
    else if signer = k then p.pay a.proposalId ts (p.balance - a.dgCoinAmount) else p
  | _,_ => p

/-- What an answer makes of the record that it names. -/
def Record.passed (ts : Nat) (a : AnswerProposalAction) (rec : Record) : Record :=
  match a.response,a.role with
  | .ACCEPT,.transferOwnership =>
    { rec with owners := rec.owners ++ [⟨a.receivingParticipant,ts⟩] }
  | .ACCEPT,.transferCustodianship =>
    { rec with custodians := rec.custodians ++ [⟨a.receivingParticipant,ts⟩] }
  | _,_ => rec

namespace Tx

variable (tx : Tx)

/-- The participants that a transaction names. -/
def participants : List String :=
  match tx.action with
  | .CreateParticipant _ => [tx.signer]
  | .AnswerProposal a => [tx.signer,a.receivingParticipant]
  | _ => []

def onParticipant (k : String) (o : Option Participant) : Option Participant :=
  match tx.action with
  | .CreateParticipant a =>
    if tx.signer = k then
      some { publicKey := tx.signer, name := a.name, timestamp := tx.timestamp }
    else o
  | .AnswerProposal a => o.map (.posted k tx.signer tx.timestamp a)
  | _ => o

def records : List String :=
  match tx.action with
  | .CreateRecord a => [a.recordId]
  | .FinalizeRecord a => [a.recordId]
  | .AnswerProposal a => [a.recordId]
  | _ => []

def onRecord (r : String) (o : Option Record) : Option Record :=
  match tx.action with
  | .CreateRecord a => if a.recordId = r then some (newRecord a tx.signer tx.timestamp) else o
  | .FinalizeRecord a => if a.recordId = r then o.map fun rec => { rec with final := true } else o
  | .AnswerProposal a => if a.recordId = r then o.map (.passed tx.timestamp a) else o
  | _ => o

def tables : List String :=
  match tx.action with
  | .CreateTable a => [a.name]
  | _ => []

def onTable (n : String) (o : Option Table) : Option Table :=
  match tx.action with
  | .CreateTable a => if a.name = n then some { name := a.name, properties := a.properties } else o
  | _ => o

def proposals : List String :=
  match tx.action with
  | .CreateProposal a => [a.proposalId]
  | .AnswerProposal a => [a.proposalId]
  | _ => []

def onProposal (x : String) (o : Option Proposal) : Option Proposal :=
  match tx.action with
  | .CreateProposal a => if a.proposalId = x then some (newProposal a tx.signer tx.timestamp) else o
  | .AnswerProposal a => if a.proposalId = x then o.map (answered · a) else o
  | _ => o

end Tx

section Idle

variable {tx : Tx} {k : String}

/-! ## Transactions that do not name the object -/

theorem Participant.posted_idle {signer : String} {ts : Nat} {a : AnswerProposalAction}
    (p : Participant) (hsigner : signer ≠ k) (hreceiver : a.receivingParticipant ≠ k) :
    p.posted k signer ts a = p := by
  rw [posted]
  split <;> simp [hsigner,hreceiver]

theorem Tx.onParticipant_idle (o : Option Participant) (hk : k ∉ tx.participants) :
    tx.onParticipant k o = o := by
  obtain ⟨signer,ts,action⟩ := tx
  cases action with
  | CreateParticipant a =>
    exact if_neg fun h => hk (List.mem_singleton.mpr h.symm)
  | AnswerProposal a =>
    obtain ⟨hsigner,hreceiver⟩ : k ≠ signer ∧ k ≠ a.receivingParticipant := by
      simpa [participants] using hk
    have hid : Participant.posted k signer ts a = id :=
      funext fun p => p.posted_idle hsigner.symm hreceiver.symm
    rw [onParticipant]
    dsimp only
    rw [hid]
    exact Option.map_id_apply
  | _ => rfl

theorem Tx.onRecord_idle (o : Option Record) (hk : k ∉ tx.records) : tx.onRecord k o = o := by
  obtain ⟨signer,ts,action⟩ := tx
  cases action with
  | CreateRecord a | FinalizeRecord a | AnswerProposal a =>
    exact if_neg fun h => hk (List.mem_singleton.mpr h.symm)
  | _ => rfl

theorem Tx.onTable_idle (o : Option Table) (hk : k ∉ tx.tables) : tx.onTable k o = o := by
  obtain ⟨signer,ts,action⟩ := tx
  cases action with
  | CreateTable a => exact if_neg fun h => hk (List.mem_singleton.mpr h.symm)
  | _ => rfl

theorem Tx.onProposal_idle (o : Option Proposal) (hk : k ∉ tx.proposals) :
    tx.onProposal k o = o := by
  obtain ⟨signer,ts,action⟩ := tx
  cases action with
  | CreateProposal a | AnswerProposal a =>
    exact if_neg fun h => hk (List.mem_singleton.mpr h.symm)
  | _ => rfl

end Idle

namespace Ledger

section Steps

variable {range : String → Address} {L L' : Ledger} {tx : Tx}

/-! ## One step -/

theorem Step.onParticipant_eq (hstep : Step range L tx L') (k : String) :
    L'.participant k = tx.onParticipant k (L.participant k) := by
  have hanswer : ∀ {signer : String} {ts : Nat} {a : AnswerProposalAction}
      {f : Participant → Participant}, Participant.posted k signer ts a = f →
        (⟨signer,ts,.AnswerProposal a⟩ : Tx).onParticipant k (L.participant k) =
          (L.participant k).map f := fun h => congrArg (Option.map · (L.participant k)) h
  have hidle : ∀ {signer : String} {ts : Nat} {a : AnswerProposalAction},
      Participant.posted k signer ts a = id →
        L.participant k =
          (⟨signer,ts,.AnswerProposal a⟩ : Tx).onParticipant k (L.participant k) :=
    fun h => ((hanswer h).trans Option.map_id_apply).symm
  have hwrite : ∀ {signer k' : String} {ts : Nat} {a : AnswerProposalAction} {p : Participant}
      (f : Participant → Participant), L.participant k' = some p →
        Participant.posted k signer ts a = (fun p => if k' = k then f p else p) →
          Function.update L.participant k' (some (f p)) k =
            (⟨signer,ts,.AnswerProposal a⟩ : Tx).onParticipant k (L.participant k) :=
    fun f hp h => ((update_eq_map hp k).trans (ite_map _)).trans (hanswer h).symm
  cases hstep with
  | createParticipant => exact update_eq_ite ..
  | updateProperties _ _ hreports => exact congrFun hreports.framed.participant k
  | cancel _ hresp | reject _ hresp =>
    refine hidle (funext fun p => ?_)
    simp [Participant.posted,hresp]
  | autoIdle _ hresp hbuy hsell =>
    refine hidle (funext fun p => ?_)
    rcases autoStatus_eq_some.mp hresp with ⟨hauto,_⟩ | ⟨hauto,_⟩ <;>
      simp [Participant.posted,hauto,hbuy,hsell]
  | @autoBuy signer ts a _ _ _ h hresp hrole =>
    rw [fill_participant]
    refine hwrite (fun p => p.pay a.proposalId ts (p.balance + a.dgCoinAmount)) h.registered
      (funext fun p => ?_)
    rcases autoStatus_eq_some.mp hresp with ⟨hauto,_⟩ | ⟨hauto,_⟩ <;>
      simp [Participant.posted,hauto,hrole]
  | @autoSell signer ts a _ _ _ h hresp hrole =>
    rw [fill_participant]
    refine hwrite (fun p => p.pay a.proposalId ts (p.balance - a.dgCoinAmount)) h.registered
      (funext fun p => ?_)
    rcases autoStatus_eq_some.mp hresp with ⟨hauto,_⟩ | ⟨hauto,_⟩ <;>
      simp [Participant.posted,hauto,hrole]
  | acceptIdle h hrole =>
    refine hidle (funext fun p => ?_)
    rcases hrole with hrole | hrole <;> simp [Participant.posted,h.response,hrole]
  | @acceptCredit signer ts a _ _ _ h hrole =>
    refine hwrite (fun p => p.lend a.proposalId ts a.dgCoinAmount) h.participant
      (funext fun p => ?_)
    simp [Participant.posted,h.response,hrole]
  | @acceptTransfer signer ts a _ i p h hrole =>
    have hposted : Participant.posted k signer ts a = fun p =>
        if a.receivingParticipant = k then p.pay a.proposalId ts (p.balance + a.dgCoinAmount)
        else if signer = k then p.pay a.proposalId ts (p.balance - a.dgCoinAmount) else p := by
      funext p
      simp [Participant.posted,h.response,hrole]
    rw [hanswer hposted,transfer_participant]
    by_cases hreceiver : a.receivingParticipant = k
    · obtain rfl := hreceiver
      rw [Function.update_self,h.participant,Option.map_some,if_pos rfl]
    · have hpaid := update_eq_map
        (f := fun p => p.pay a.proposalId ts (p.balance - a.dgCoinAmount)) h.registered k
      rw [Function.update_of_ne (Ne.symm hreceiver),hpaid,ite_map]
      simp only [if_neg hreceiver]
  | acceptOwnership h hrole | acceptCustodianship h hrole | acceptReporter h hrole =>
    refine hidle (funext fun p => ?_)
    simp [Participant.posted,h.response,hrole]
  | _ => rfl

theorem Step.onRecord_eq (hstep : Step range L tx L') (r : String) :
    L'.record r = tx.onRecord r (L.record r) := by
  have hanswer : ∀ {signer : String} {ts : Nat} {a : AnswerProposalAction} {f : Record → Record},
      Record.passed ts a = f → (⟨signer,ts,.AnswerProposal a⟩ : Tx).onRecord r (L.record r) =
        if a.recordId = r then (L.record r).map f else L.record r :=
    fun h => congrArg (fun f => if _ = r then (L.record r).map f else L.record r) h
  have hidle : ∀ {signer : String} {ts : Nat} {a : AnswerProposalAction}, Record.passed ts a = id →
      L.record r = (⟨signer,ts,.AnswerProposal a⟩ : Tx).onRecord r (L.record r) := by
    intro signer ts a h
    rw [hanswer h,Option.map_id_apply,ite_self]
  cases hstep with
  | createRecord => exact update_eq_ite ..
  | finalizeRecord howned =>
    exact update_eq_map (f := fun rec => { rec with final := true }) howned.record r
  | updateProperties _ _ hreports => exact congrFun hreports.framed.record r
  | cancel _ hresp | reject _ hresp =>
    refine hidle (funext fun rec => ?_)
    simp [Record.passed,hresp]
  | autoIdle _ hresp =>
    refine hidle (funext fun rec => ?_)
    rcases autoStatus_eq_some.mp hresp with ⟨hauto,_⟩ | ⟨hauto,_⟩ <;> simp [Record.passed,hauto]
  | autoBuy _ hresp | autoSell _ hresp =>
    rw [fill_record]
    refine hidle (funext fun rec => ?_)
    rcases autoStatus_eq_some.mp hresp with ⟨hauto,_⟩ | ⟨hauto,_⟩ <;> simp [Record.passed,hauto]
  | acceptIdle h hrole =>
    refine hidle (funext fun rec => ?_)
    rcases hrole with hrole | hrole <;> simp [Record.passed,h.response,hrole]
  | acceptCredit h hrole | acceptTransfer h hrole | acceptReporter h hrole =>
    refine hidle (funext fun rec => ?_)
    simp [Record.passed,h.response,hrole]
  | @acceptOwnership signer ts a _ _ _ _ _ _ h hrole hrec =>
    have hpassed := update_eq_map (f := fun rec : Record =>
      { rec with owners := rec.owners ++ [⟨a.receivingParticipant,ts⟩] }) hrec r
    refine hpassed.trans (hanswer (funext fun rec => ?_)).symm
    simp [Record.passed,h.response,hrole]
  | @acceptCustodianship signer ts a _ _ _ _ _ h hrole hrec =>
    have hpassed := update_eq_map (f := fun rec : Record =>
      { rec with custodians := rec.custodians ++ [⟨a.receivingParticipant,ts⟩] }) hrec r
    refine hpassed.trans (hanswer (funext fun rec => ?_)).symm
    simp [Record.passed,h.response,hrole]
  | _ => rfl

theorem Step.onTable_eq (hstep : Step range L tx L') (n : String) :
    L'.table n = tx.onTable n (L.table n) := by
  cases hstep with
  | createTable => exact update_eq_ite ..
  | updateProperties _ _ hreports => exact congrFun hreports.framed.table n
  | autoBuy | autoSell =>
    rw [fill_table]
    rfl
  | _ => rfl

theorem Step.onProposal_eq (hstep : Step range L tx L') (x : String) :
    L'.proposal x = tx.onProposal x (L.proposal x) := by
  obtain ⟨signer,ts,action⟩ := tx
  obtain ⟨a,rfl,h⟩ | ⟨a,c,rfl,hc,h⟩ | ⟨hcreate,hanswer,h⟩ := hstep.proposal_cases
  · rw [h]
    exact update_eq_ite ..
  · rw [h]
    exact update_eq_map (f := (answered · a)) hc x
  · rw [h]
    cases action with
    | CreateProposal a => exact absurd rfl (hcreate a)
    | AnswerProposal a => exact absurd rfl (hanswer a)
    | _ => rfl

end Steps

end Ledger

/-! ## The whole history -/

/-- The transactions of a history that name an object, newest first. -/
def journal {σ : Type} (h : List (σ × Tx)) (names : Tx → List String) (k : String) : List Tx :=
  (h.map Prod.snd).filter fun tx => k ∈ names tx

section Histories

variable {env : Env} {h : List (State × Tx)} {s : State}

/-- A view of the ledger that each transaction changes on its own is read off the journal. -/
theorem view_journal (hr : Reachable env h s) {α : Type} (view : Ledger → α) {f : Tx → α → α}
    {names : Tx → List String} {k : String}
    (hstep : ∀ {L tx L'}, Ledger.Step env.range L tx L' → view L' = f tx (view L))
    (hidle : ∀ tx a, k ∉ names tx → f tx a = a) :
    view (ledger env s) = (journal h names k).foldr f (view Ledger.empty) := by
  have hrun := (reachable_refines hr).2.view_foldr view f (fun tx => k ∈ names tx)
    (fun _ _ _ => hstep) fun tx a htx => hidle tx a (of_decide_eq_false htx)
  have htxs : (ledgers env h).map Prod.snd = h.map Prod.snd := by
    rw [ledgers,List.map_map]
    rfl
  rwa [htxs] at hrun

/-- Each object is what the transactions that name it make of it one after the other. -/
theorem ledger_replayed (hr : Reachable env h s) (k : String) :
    (ledger env s).participant k =
        (journal h Tx.participants k).foldr (fun tx => tx.onParticipant k) none ∧
      (ledger env s).record k = (journal h Tx.records k).foldr (fun tx => tx.onRecord k) none ∧
      (ledger env s).table k = (journal h Tx.tables k).foldr (fun tx => tx.onTable k) none ∧
      (ledger env s).proposal k =
        (journal h Tx.proposals k).foldr (fun tx => tx.onProposal k) none :=
  ⟨view_journal hr (fun L => L.participant k) (fun hstep => hstep.onParticipant_eq k)
      fun tx => tx.onParticipant_idle,
    view_journal hr (fun L => L.record k) (fun hstep => hstep.onRecord_eq k)
      fun tx => tx.onRecord_idle,
    view_journal hr (fun L => L.table k) (fun hstep => hstep.onTable_eq k)
      fun tx => tx.onTable_idle,
    view_journal hr (fun L => L.proposal k) (fun hstep => hstep.onProposal_eq k)
      fun tx => tx.onProposal_idle⟩

/-- The second participant is what its creation and its one answer make of it. -/
theorem ledger_replayed_sample : ∃ h,
    Reachable Sample.env h (Sample.after (Sample.transferring 10)) ∧
      (journal h Tx.participants "B").map Tx.timestamp = [7,2] ∧
      (ledger Sample.env (Sample.after (Sample.transferring 10))).participant "B" =
        (journal h Tx.participants "B").foldr (fun tx => tx.onParticipant "B") none := by
  have hok : Sample.Valid (Sample.transferring 10) := by decide +kernel
  obtain ⟨h,hr,hh⟩ := Sample.reachable hok
  have htxs : h.map Prod.snd =
      ((Sample.base ++ Sample.transferring 10).map TpProcessRequest.tx?).reverse.filterMap id := by
    rw [← hh,List.filterMap_map]
    exact (congrFun List.filterMap_eq_map h).symm
  refine ⟨h,hr,?_,(ledger_replayed hr "B").1⟩
  rw [journal,htxs]
  decide +kernel

end Histories

end DgcRestApi
