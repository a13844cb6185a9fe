import DgcRestApi.Ledger.Trades
import DgcRestApi.Server.Trades

/-!
# Settling a match

Both answers of a match are signed by the client of the new order, and an auto answer changes
the balance of its signer. So when both are applied, what the order's client gains by one
answer it loses by the other, and the issuer of the document gets nothing; and nothing takes
one answer back when the other is rejected.
-/

namespace DgcRestApi
open Fallible

/-- How much of a stored proposal was exchanged. -/
def Ledger.exchanged (L : Ledger) (x : String) : Option ℚ :=
  (L.proposal x).map Proposal.dgCoinExchanged

theorem Ledger.exchanged_eq {L : Ledger} {x : String} {c : Proposal} (h : L.proposal x = some c) :
    L.exchanged x = some c.dgCoinExchanged := by rw [exchanged,h,Option.map_some]

theorem Ledger.exchanged_update {L L' : Ledger} {x : String} {c : Proposal}
    (h : L'.proposal = Function.update L.proposal x (some c)) :
    L'.exchanged = Function.update L.exchanged x (some c.dgCoinExchanged) := by
  funext x'
  by_cases hx : x' = x
  · subst hx
    rw [Function.update_self,exchanged,h,Function.update_self]
    rfl
  · rw [Function.update_of_ne hx,exchanged,h,Function.update_of_ne hx]
    rfl

namespace Server

/-- What a submission leads to: the processor applies the transaction, or it is rejected, or
it does not arrive. The server goes on in the same way. -/
inductive Submitted (env : Env) (request : TpProcessRequest) (s : State) : Bool → State → Prop
  | accepted {orders : Orders} {s' : State} (h : apply env orders request s = .ok s') :
      Submitted env request s true s'
  | rejected : Submitted env request s false s

/-- What an answer of the side adds to a balance. -/
def Side.gain : Side → ℚ → ℚ
  | .buy,x => x
  | .sell,x => -x

/-- An answer was applied: it changed the balance of its signer and filled its proposal. -/
structure Posted (L L' : Ledger) (signer x : String) (gain amount : ℚ) : Prop where
  balances : L'.balanceOf = Function.update L.balanceOf signer (L.balanceOf signer + gain)
  exchanged : L'.exchanged = Function.update L.exchanged x
    ((L.exchanged x).map fun y => y + amount)

/-- The buyer got `q` coins of the seller and nobody else's balance changed; `q` coins of
both proposals were exchanged. -/
structure Traded (L L' : Ledger) (buyProposalId sellProposalId b s : String) (q : ℚ) : Prop where
  balances : L'.balanceOf = Function.update (Function.update L.balanceOf b (L.balanceOf b + q)) s
    (L.balanceOf s - q)
  bought : L'.exchanged buyProposalId = (L.exchanged buyProposalId).map fun y => y + q
  sold : L'.exchanged sellProposalId = (L.exchanged sellProposalId).map fun y => y + q

/-- Both answers were applied and did the trade, or neither was and nothing changed. -/
def Settled (L L' : Ledger) (buyProposalId sellProposalId b s : String) (q : ℚ)
    (applied₁ applied₂ : Bool) : Prop :=
  applied₁ = true ∧ applied₂ = true ∧ Traded L L' buyProposalId sellProposalId b s q ∨
    applied₁ = false ∧ applied₂ = false ∧ L'.balanceOf = L.balanceOf ∧ L'.proposal = L.proposal

section Posting

variable {env : Env} {orders : Orders} {server : ServerEnv} {now : Nat} {s s' : State}
variable {side : Side} {param : Offer} {a : Answer}

theorem Answer.For.fills (h : a.For side param) : Fills (a.action server) where
  response := h.response
  role := by
    rw [Answer.action,h.role]
    cases side
    · exact Or.inl rfl
    · exact Or.inr rfl

theorem Answer.For.gain (h : a.For side param) : (a.action server).gain = side.gain a.amount := by
  rw [AnswerProposalAction.gain,Answer.action,h.role]
  cases side <;> rfl

/-- What the processor does with an answer. -/
theorem Answer.For.posted (hfor : a.For side param) (hs : Stored env s)
    (h : apply env orders (answerProposal server now a) s = .ok s') : Stored env s' ∧
      Posted (ledger env s) (ledger env s') (server.publicKey a.privateKey) a.proposalId
        (side.gain a.amount) a.amount := by
  obtain ⟨tx,htx,hacc⟩ := accepted_of_apply h
  obtain rfl : tx = ⟨server.publicKey a.privateKey,now,.AnswerProposal (a.action server)⟩ :=
    tx_answer rfl htx
  obtain ⟨hs',hstep⟩ := accepted_refines hs hacc
  obtain ⟨c,i,status,hans,_,hL'⟩ := Ledger.step_fills hfor.fills hstep
  refine ⟨hs',?_,?_⟩
  · rw [hL',Ledger.balanceOf_update (Ledger.fill_participant ..),Participant.pay_balance,
      Ledger.balanceOf_eq hans.registered,hfor.gain]
  · have hold : (ledger env s).exchanged a.proposalId = some c.dgCoinExchanged :=
      Ledger.exchanged_eq hans.proposal
    rw [hold,hL']
    exact Ledger.exchanged_update (Ledger.fill_proposal ..)

end Posting

section Pairs

variable {L L₁ L₂ : Ledger} {signer x x' : String} {side : Side} {q r : ℚ}

/-- The gains of two answers of different sides make up for each other. -/
theorem Posted.balances_pair (h₁ : Posted L L₁ signer x (side.other.gain q) q)
    (h₂ : Posted L₁ L₂ signer x' (side.gain q) q) : L₂.balanceOf = L.balanceOf := by
  have hgain : side.other.gain q + side.gain q = 0 := by
    cases side
    · exact neg_add_cancel q
    · exact add_neg_cancel q
  rw [h₂.balances,h₁.balances,Function.update_self,Function.update_idem,add_assoc,hgain,add_zero,
    Function.update_eq_self]

theorem Posted.exchanged_pair (h₁ : Posted L L₁ signer x (side.other.gain q) q)
    (h₂ : Posted L₁ L₂ signer x' (side.gain r) r) (hne : x ≠ x') :
    L₂.exchanged x = ((L.exchanged x).map fun y => y + q) ∧
      L₂.exchanged x' = (L.exchanged x').map fun y => y + r := by
  constructor
  · rw [h₂.exchanged,Function.update_of_ne hne,h₁.exchanged,Function.update_self]
  · rw [h₂.exchanged,Function.update_self,h₁.exchanged,Function.update_of_ne hne.symm]

/-- Two answers under one key do a trade between two others only if there is nothing to
trade. -/
theorem Posted.traded_iff {b s buyProposalId sellProposalId : String} {y : ℚ}
    (h₁ : Posted L L₁ signer x (side.other.gain q) q) (h₂ : Posted L₁ L₂ signer x' (side.gain r) r)
    (hx : x ≠ x') (hids : buyProposalId = x ∧ sellProposalId = x' ∨
      buyProposalId = x' ∧ sellProposalId = x) (hy : L.exchanged x' = some y) (hbs : b ≠ s) :
    Traded L L₂ buyProposalId sellProposalId b s q ↔ q = 0 ∧ r = 0 := by
  obtain ⟨hfirst,hsecond⟩ := h₁.exchanged_pair h₂ hx
  constructor
  · intro ht
    have hgrown : L₂.exchanged x' = (L.exchanged x').map fun y => y + q := by
      rcases hids with ⟨_,rfl⟩ | ⟨rfl,_⟩
      · exact ht.sold
      · exact ht.bought
    have hsum : y + q = y + r := by
      rw [hsecond,hy] at hgrown
      exact (Option.some.inj hgrown).symm
    obtain rfl : q = r := add_left_cancel hsum
    have hb := congrFun ht.balances b
    rw [h₁.balances_pair h₂,Function.update_of_ne hbs,Function.update_self] at hb
    have hq : q = 0 := left_eq_add.mp hb
    exact ⟨hq,hq⟩
  · rintro ⟨rfl,rfl⟩
    have hgrown : L₂.exchanged buyProposalId = ((L.exchanged buyProposalId).map fun y => y + 0) ∧
        L₂.exchanged sellProposalId = (L.exchanged sellProposalId).map fun y => y + 0 := by
      rcases hids with ⟨rfl,rfl⟩ | ⟨rfl,rfl⟩
      · exact ⟨hfirst,hsecond⟩
      · exact ⟨hsecond,hfirst⟩
    refine ⟨?_,hgrown.1,hgrown.2⟩
    rw [h₁.balances_pair h₂,add_zero,sub_zero,Function.update_eq_self,Function.update_eq_self]

end Pairs

section Matches

variable {env : Env} {server : ServerEnv} {history : List (State × Tx)} {s s₁ s₂ : State}
variable {side : Side} {params : Params} {timestamp now₁ now₂ : Nat} {own : Proposal}
variable {arrived applied₁ applied₂ : Bool} {counters : List Proposal}
variable {h : List (Trade × TradeEvent)} {t : Trade} {m : Match} {a₁ : Answer}

/-- A match between proposals of two issuers, whose second answer is built after the run, is
settled as it should be exactly if neither answer is applied, or both are and there is nothing to
exchange: its document has nothing left, nor has the order for the last of the documents that it
was updated for. -/
theorem match_settled_iff {cb cs : Proposal} (hs : Reachable env history s)
    (ht : Run (TradeStep side) (side.trade params timestamp own arrived counters) h t)
    (hm : ⟨m,.resumed a₁⟩ ∈ t.tasks)
    (h₁ : Submitted env (answerProposal server now₁ a₁) s applied₁ s₁)
    (h₂ : Submitted env (answerProposal server now₂ (m.secondAnswer side t.order)) s₁ applied₂ s₂)
    (hb : (ledger env s).proposal m.exchange.buyProposalId = some cb)
    (hv : (ledger env s).proposal m.exchange.sellProposalId = some cs)
    (hne : cb.issuingParticipant ≠ cs.issuingParticipant) :
    Settled (ledger env s) (ledger env s₂) m.exchange.buyProposalId m.exchange.sellProposalId
      cb.issuingParticipant cs.issuingParticipant (min own.balance m.doc.balance) applied₁
      applied₂ ↔
    applied₁ = false ∧ applied₂ = false ∨
      applied₁ = true ∧ applied₂ = true ∧ m.doc.balance = 0 ∧ Spent own (resumed h t) := by
  have hans := run_second_answered ht hm
  have hstored := (reachable_refines hs).1
  cases h₁ with
  | rejected =>
    cases h₂ with
    | rejected => simp [Settled]
    | accepted => simp [Settled]
  | accepted h₁ =>
    cases h₂ with
    | rejected => simp [Settled]
    | accepted h₂ =>
      obtain ⟨o,_,_,hsecond⟩ := hans.second
      obtain ⟨hstored₁,hp₁⟩ := hans.first.posted hstored h₁
      obtain ⟨_,hp₂⟩ := hsecond.posted hstored₁ h₂
      rw [hans.keys] at hp₁
      have hids := hans.exchange_ids
      have hx : a₁.proposalId ≠ (m.secondAnswer side t.order).proposalId := by
        intro heq
        rw [heq,or_self] at hids
        rw [hids.1] at hb
        rw [hids.2,hb] at hv
        exact hne (congrArg Proposal.issuingParticipant (Option.some.inj hv))
      have hy : ∃ y, (ledger env s).exchanged (m.secondAnswer side t.order).proposalId =
          some y := by
        rcases hids with ⟨_,hid⟩ | ⟨hid,_⟩
        · exact ⟨_,Ledger.exchanged_eq (hid ▸ hv)⟩
        · exact ⟨_,Ledger.exchanged_eq (hid ▸ hb)⟩
      obtain ⟨y,hy⟩ := hy
      rw [← hans.found.quantity_eq_zero,← hans.amount,← run_second_amount ht hm,
        ← hp₁.traded_iff hp₂ hx hids hy hne]
      simp [Settled]

end Matches

namespace Sample
open DgcRestApi.Sample

def server : ServerEnv where
  publicKey := id
  price
    | .finite q => q
    | _ => 0

/-- An order over 10 coins for 10 dollars. -/
def params (privateKey : String) : Params := ⟨privateKey,[("DGC",10),("USD",10)]⟩

/-- The second participant has a credit; the first one wants to buy, then the second to sell. -/
def ordered : List TpProcessRequest :=
  credited ++ [buyDGCoin server 7 (Side.buy.newOrder (params "A") 7),
    sellDGCoin server 8 (Side.sell.newOrder (params "B") 8)]

def buying : Proposal :=
  { proposalId := "buyDGC7", role := .buyDGC, timestamp := 7, issuingParticipant := "A",
    dgCoinAmount := 10, currencyIsoCodes := "USD", currencyQuoteAmount := 10 }

def selling : Proposal :=
  { proposalId := "sellDGC8", role := .sellDGC, timestamp := 8, issuingParticipant := "B",
    dgCoinAmount := 10, currencyIsoCodes := "USD", currencyQuoteAmount := 10 }

/-- The order to sell, which finds the one to buy. -/
def order : Trade := sellDGCoinProposal (params "B") 8 selling true [buying]

def exchange : ExchangeObject := ⟨8,"buyDGC7","sellDGC8","USD",none,none⟩

def found : Match :=
  { branch := .level
    doc := buying
    counter := ⟨"buyDGC7","B",some 10,some "USD",some 10,some (.finite 1),some 10,
      [exchange.priced (some 10) (.finite 1)]⟩
    exchange
    exchangeRate := .finite 1 }

theorem order_tasks : order.tasks = [] ++ ⟨found,.mapped⟩ :: [] := by decide +kernel

def first : Answer := found.firstAnswer .sell

def second : Answer := found.secondAnswer .sell (found.resume order.order)

def settled : Trade := ⟨found.resume order.order,[⟨found,.finished first second⟩]⟩

/-- The ledger after one answer, and after both. -/
def halfway : State := next (answerProposal server 9 first) (after ordered)

def done : State := next (answerProposal server 10 second) halfway

theorem ordered_valid : Valid ordered := by decide +kernel

/-- The first participant asks for nothing, the second one sells as before. -/
def orderedNothing : List TpProcessRequest :=
  credited ++ [buyDGCoin server 7 (Side.buy.newOrder ⟨"A",[("DGC",0),("USD",10)]⟩ 7),
    sellDGCoin server 8 (Side.sell.newOrder (params "B") 8)]

def buyingNothing : Proposal := { buying with dgCoinAmount := 0 }

def foundNothing : Match :=
  { branch := .above
    doc := buyingNothing
    counter := ⟨"buyDGC7","B",some 0,some "USD",some 10,some .posInf,some 0,
      [exchange.priced (some 0) .posInf]⟩
    exchange
    exchangeRate := .posInf }

/-- The order to sell, which finds it. -/
def orderNothing : Trade := sellDGCoinProposal (params "B") 8 selling true [buyingNothing]

theorem orderNothing_tasks : orderNothing.tasks = [] ++ ⟨foundNothing,.mapped⟩ :: [] := by
  decide +kernel

/-- The order when its second answer is built. -/
def resumedNothing : Offer := foundNothing.resume orderNothing.order

/-- The ledger after the answer to the document, and after both. -/
def halfwayNothing : State :=
  next (answerProposal server 9 (foundNothing.firstAnswer .sell)) (after orderedNothing)

def doneNothing : State :=
  next (answerProposal server 10 (foundNothing.secondAnswer .sell resumedNothing)) halfwayNothing

end Sample

section Runs
open DgcRestApi.Sample (env after)

/-- Both answers are applied, and there is nothing to exchange. -/
theorem match_settled_nothing : Settled (ledger env (after Sample.orderedNothing))
    (ledger env Sample.doneNothing) "buyDGC7" "sellDGC8" "A" "B"
    (min Sample.selling.balance Sample.buyingNothing.balance) true true := by
  have hvalid : DgcRestApi.Sample.Valid Sample.orderedNothing := by decide +kernel
  obtain ⟨history,hs,_⟩ := DgcRestApi.Sample.reachable hvalid
  have ht := (Run.nil.snoc (@TradeStep.first .sell _ _ _ _ Sample.orderNothing_tasks)).snoc
    (TradeStep.resume rfl)
  have hbuying : (ledger env (after Sample.orderedNothing)).proposal "buyDGC7" =
      some Sample.buyingNothing := by decide +kernel
  have hselling : (ledger env (after Sample.orderedNothing)).proposal "sellDGC8" =
      some Sample.selling := by decide +kernel
  have hzero : Sample.buyingNothing.balance = 0 := by decide +kernel
  exact (match_settled_iff hs ht List.mem_cons_self
    (.accepted (DgcRestApi.Sample.next_eq (by decide +kernel)))
    (.accepted (DgcRestApi.Sample.next_eq (by decide +kernel))) hbuying hselling
    (by decide)).mpr (Or.inr ⟨rfl,rfl,hzero,Or.inl hzero⟩)

/-- Both answers are applied: ten coins of both proposals count as exchanged, and no balance
has changed. -/
theorem match_settled_for_itself : ∃ history h, Reachable env history (after Sample.ordered) ∧
    Run (TradeStep .sell) Sample.order h Sample.settled ∧
    Submitted env (answerProposal Sample.server 9 Sample.first) (after Sample.ordered) true
      Sample.halfway ∧
    Submitted env (answerProposal Sample.server 10 Sample.second) Sample.halfway true
      Sample.done ∧
    (ledger env Sample.done).exchanged "buyDGC7" = some 10 ∧
    (ledger env Sample.done).exchanged "sellDGC8" = some 10 ∧
    (ledger env Sample.done).balanceOf "A" = 0 ∧ (ledger env Sample.done).balanceOf "B" = 0 ∧
    ¬Settled (ledger env (after Sample.ordered)) (ledger env Sample.done) "buyDGC7" "sellDGC8"
      "A" "B" 10 true true := by
  obtain ⟨history,hs,_⟩ := DgcRestApi.Sample.reachable Sample.ordered_valid
  obtain ⟨h,ht⟩ := run_chain Sample.order_tasks
  have hafter : (ledger env Sample.done).balanceOf "A" = 0 := by decide +kernel
  have hbefore : (ledger env (after Sample.ordered)).balanceOf "A" = 0 := by decide +kernel
  refine ⟨history,h,hs,ht,.accepted (DgcRestApi.Sample.next_eq (by decide +kernel)),
    .accepted (DgcRestApi.Sample.next_eq (by decide +kernel)),by decide +kernel,by decide +kernel,
    hafter,by decide +kernel,?_⟩
  rintro (⟨_,_,htrade⟩ | ⟨hfalse,_⟩)
  · have hA := congrFun htrade.balances "A"
    rw [hafter,Function.update_of_ne (by decide),Function.update_self,hbefore] at hA
    norm_num at hA
  · cases hfalse

end Runs

end Server
end DgcRestApi
