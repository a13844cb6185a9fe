import DgcRestApi.Ledger.Evolution
import DgcRestApi.Ledger.Refines

/-!
# The price history

Exchanges come from the answers that close a buy or sell proposal, which may carry any: of a pair
of proposals the ledger holds the one that was carried last.
-/

namespace DgcRestApi

/-- The exchanges that a transaction brings. -/
def Tx.traded (tx : Tx) : List Exchange :=
  match tx.action with
  | .AnswerProposal a =>
    if a.role = .buyDGC ∨ a.role = .sellDGC then Ledger.autoExchanges a else []
  | _ => []

/-- The exchanges of a history, newest first. -/
def trades {σ : Type} (h : List (σ × Tx)) : List Exchange := h.flatMap fun e => e.2.traded.reverse

/-- The last of some exchanges for a pair of proposals, these listed newest first. -/
def lastTrade (es : List Exchange) (k : String ×ₗ String) : Option Exchange :=
  es.find? fun e => exchangeKind.key e = k

theorem lastTrade_append (es es' : List Exchange) (k : String ×ₗ String) :
    lastTrade (es ++ es') k = (lastTrade es k).or (lastTrade es' k) := List.find?_append

namespace Ledger

variable {range : String → Address} {L L' : Ledger} {tx : Tx} {h : List (Ledger × Tx)}

theorem setExchanges_exchange (es : List Exchange) (k : String ×ₗ String) :
    (L.setExchanges es).exchange k = (lastTrade es.reverse k).or (L.exchange k) := by
  rw [setExchanges]
  induction es generalizing L with
  | nil => rfl
  | cons e es ih =>
    rw [List.foldl_cons,ih,List.reverse_cons,lastTrade_append,Option.or_assoc,setExchange_exchange]
    congr 1
    by_cases hk : exchangeKind.key e = k
    · obtain rfl := hk
      rw [lastTrade,List.find?_singleton,if_pos (decide_eq_true rfl)]
      exact Function.update_self ..
    · rw [lastTrade,List.find?_singleton,if_neg (by simpa using hk)]
      exact Function.update_of_ne (Ne.symm hk) ..

theorem Step.exchange_eq (hstep : Step range L tx L') (k : String ×ₗ String) :
    L'.exchange k = (lastTrade tx.traded.reverse k).or (L.exchange k) := by
  have hother : ∀ {signer : String} {ts : Nat} {a : AnswerProposalAction},
      a.response ≠ .autoCLOSE ∨ a.role ≠ .buyDGC ∧ a.role ≠ .sellDGC →
        (⟨signer,ts,.AnswerProposal a⟩ : Tx).traded = [] := by
    intro _ _ a h
    rw [Tx.traded]
    dsimp only
    rcases h with hresp | ⟨hbuy,hsell⟩
    · rw [autoExchanges,if_neg hresp,ite_self]
    · exact if_neg (not_or.mpr ⟨hbuy,hsell⟩)
  have hfill : ∀ {signer : String} {ts : Nat} {a : AnswerProposalAction} {c : Proposal}
      {i : Participant} {status : Status} {amount : ℚ}, a.role = .buyDGC ∨ a.role = .sellDGC →
        (L.fill a c i signer ts status amount).exchange k =
          (lastTrade (⟨signer,ts,.AnswerProposal a⟩ : Tx).traded.reverse k).or (L.exchange k) := by
    intro signer ts a c i status amount hrole
    rw [Tx.traded]
    dsimp only
    rw [if_pos hrole]
    exact setExchanges_exchange (L := L.setParticipant signer _) _ _
  cases hstep with
  | updateProperties _ _ hreports => exact congrFun hreports.framed.exchange k
  | autoBuy _ _ hrole => exact hfill (Or.inl hrole)
  | autoSell _ _ hrole => exact hfill (Or.inr hrole)
  | autoIdle _ _ hbuy hsell =>
    rw [hother (Or.inr ⟨hbuy,hsell⟩)]
    rfl
  | cancel _ hresp | reject _ hresp =>
    rw [hother (Or.inl (hresp ▸ by decide))]
    rfl
  | acceptIdle h | acceptCredit h | acceptTransfer h | acceptOwnership h | acceptCustodianship h
  | acceptReporter h =>
    rw [hother (Or.inl (h.response ▸ by decide))]
    rfl
  | _ => rfl

/-- Of each pair the ledger holds the last exchange of the history. -/
theorem run_exchange (hr : Run (Step range) empty h L) (k : String ×ₗ String) :
    L.exchange k = lastTrade (trades h) k := by
  induction hr with
  | nil => rfl
  | snoc _ hstep ih =>
    rw [hstep.exchange_eq,ih]
    exact (lastTrade_append _ _ k).symm

end Ledger

theorem trades_ledgers {env : Env} {h : List (State × Tx)} : trades (ledgers env h) = trades h := by
  rw [trades,ledgers,List.flatMap_map]
  rfl

theorem reachable_exchange {env : Env} {h : List (State × Tx)} {s : State}
    (hr : Reachable env h s) (k : String ×ₗ String) :
    (ledger env s).exchange k = lastTrade (trades h) k := by
  rw [Ledger.run_exchange (reachable_refines hr).2,trades_ledgers]

theorem trades_history {requests : List TpProcessRequest} {history : List (State × Tx)}
    (h : history.map (fun e => some e.2) = (requests.map TpProcessRequest.tx?).reverse) :
    trades history = (requests.map TpProcessRequest.tx?).reverse.flatMap
      fun o => (o.elim [] Tx.traded).reverse := by
  rw [← h,List.flatMap_map]
  rfl

end DgcRestApi
