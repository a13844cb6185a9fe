import DgcRestApi.Server.Trades

/-!
# Which order comes second

A buy order and a sell order that are the only ones open are matched by whichever of the two
arrives second. What the answers of the match bring about is the same in both cases, apart
from the time and from the key that signs.
-/

namespace DgcRestApi.Server

/-- What an answer says about its proposal. -/
structure Leg where
  proposalId : String
  role : Role
  response : Response
  amount : ℚ
deriving DecidableEq

def Answer.leg (a : Answer) : Leg := ⟨a.proposalId,a.role,a.response,a.amount⟩

/-- What an exchange records, without its time. -/
structure Terms where
  buyProposalId : String
  sellProposalId : String
  currencyIsoCodes : String
  lastDgcPrice : Option ℚ
  lastCurrencyPrice : Option Rate
deriving DecidableEq

def ExchangeObject.terms (e : ExchangeObject) : Terms :=
  ⟨e.buyProposalId,e.sellProposalId,e.currencyIsoCodes,e.lastDgcPrice,e.lastCurrencyPrice⟩

/-- The document of an order that is not filled yet. -/
structure Unfilled (side : Side) (timestamp : Nat) (amount quote : ℚ) (currency : String)
    (c : Proposal) : Prop where
  proposalId : c.proposalId = side.proposalId timestamp
  dgCoinAmount : c.dgCoinAmount = amount
  dgCoinExchanged : c.dgCoinExchanged = 0
  currencyIsoCodes : c.currencyIsoCodes = currency
  currencyQuoteAmount : c.currencyQuoteAmount = quote

namespace Trade

/-- The answers that were submitted. -/
def answers (t : Trade) : List Answer :=
  t.tasks.flatMap fun x => x.progress.first.toList ++ x.progress.second.toList

def legs (t : Trade) : List Leg := t.answers.map Answer.leg

/-- The exchanges that the answers carry. -/
def terms (t : Trade) : List Terms :=
  (t.answers.flatMap Answer.exchanges).map ExchangeObject.terms

/-- Every match has been answered twice. -/
def Finished (t : Trade) : Prop := ∀ x ∈ t.tasks, ∃ a b, x.progress = .finished a b

end Trade

/-- An order is closed by an amount that it does not exceed. -/
def fillResponse (amount other : ℚ) : Response := if amount ≤ other then .autoCLOSE else .autoOPEN

section Chain

variable {side : Side} {o : Offer} {m : Match} {t t' : Trade} {e : TradeEvent}

/-- The states of a trade with one match. -/
inductive Chain (side : Side) (o : Offer) (m : Match) : Trade → Prop
  | mapped : Chain side o m ⟨o,[⟨m,.mapped⟩]⟩
  | answered : Chain side o m ⟨o,[⟨m,.answered (m.firstAnswer side)⟩]⟩
  | resumed : Chain side o m ⟨m.resume o,[⟨m,.resumed (m.firstAnswer side)⟩]⟩
  | finished : Chain side o m ⟨m.resume o,
      [⟨m,.finished (m.firstAnswer side) (m.secondAnswer side (m.resume o))⟩]⟩

theorem single_middle {α : Type} {x y : α} {before after : List α}
    (h : [x] = before ++ y :: after) : before = [] ∧ after = [] ∧ x = y := by
  cases before with
  | nil =>
    obtain ⟨hxy,hafter⟩ := List.cons.inj h
    exact ⟨rfl,hafter.symm,hxy⟩
  | cons z before => exact absurd (List.cons.inj h).2 (by simp)

theorem Chain.step (h : Chain side o m t) (hstep : TradeStep side t e t') :
    Chain side o m t' := by
  cases h with
  | mapped =>
    cases hstep with
    | first hs =>
      obtain ⟨rfl,rfl,hx⟩ := single_middle hs
      cases hx
      exact .answered
    | resume hs | second hs => exact nomatch (single_middle hs).2.2
  | answered =>
    cases hstep with
    | resume hs =>
      obtain ⟨rfl,rfl,hx⟩ := single_middle hs
      cases hx
      exact .resumed
    | first hs | second hs => exact nomatch (single_middle hs).2.2
  | resumed =>
    cases hstep with
    | second hs =>
      obtain ⟨rfl,rfl,hx⟩ := single_middle hs
      cases hx
      exact .finished
    | first hs | resume hs => exact nomatch (single_middle hs).2.2
  | finished =>
    cases hstep with
    | first hs | resume hs | second hs => exact nomatch (single_middle hs).2.2

/-- A trade with one match finishes in one way. -/
theorem run_finished {h : List (Trade × TradeEvent)}
    (hr : Run (TradeStep side) ⟨o,[⟨m,.mapped⟩]⟩ h t) (hf : t.Finished) :
    t = ⟨m.resume o,
      [⟨m,.finished (m.firstAnswer side) (m.secondAnswer side (m.resume o))⟩]⟩ := by
  cases hr.invariant (Chain side o m) (fun _ _ _ hc hstep => hc.step hstep) .mapped with
  | finished => rfl
  | mapped | answered | resumed =>
    obtain ⟨_,_,hx⟩ := hf _ (List.mem_singleton_self _)
    exact nomatch hx

end Chain

section Outcome

variable {side : Side} {params : Params} {timestamp timestamp' : Nat} {own c : Proposal}
variable {x y quote quote' : ℚ} {currency : String}

/-- Reading the data of an order sets neither its id nor its exchanges. -/
theorem newOrder_ids : (side.newOrder params timestamp).proposalId = side.proposalId timestamp ∧
    (side.newOrder params timestamp).exchanges = [] := by
  have hfold : ∀ (data : List (String × ℚ)) (order : Offer),
      (data.foldl Offer.readKey order).proposalId = order.proposalId ∧
        (data.foldl Offer.readKey order).exchanges = order.exchanges := by
    intro data
    induction data with
    | nil => exact fun _ => ⟨rfl,rfl⟩
    | cons entry data ih =>
      intro order
      obtain ⟨hid,hex⟩ := ih (order.readKey entry)
      rw [List.foldl_cons,hid,hex,Offer.readKey]
      split <;> exact ⟨rfl,rfl⟩
  exact hfold params.data _

theorem Unfilled.rate (h : Unfilled side timestamp x quote currency c) (hx : 0 < x) :
    c.rate = .finite (quote / x) := by
  rw [Proposal.rate,h.dgCoinAmount,h.currencyQuoteAmount,Rate.divide,if_neg hx.ne']

theorem Unfilled.balance (h : Unfilled side timestamp x quote currency c) : c.balance = x := by
  rw [Proposal.balance,h.dgCoinAmount,h.dgCoinExchanged,sub_zero]

/-- The answers of a finished match between two unfilled orders: first that of the document,
then that of the new order, each closed by the amount unless it exceeds it. -/
theorem finished_answers {o : Offer} {e : ExchangeObject} {rate : Rate} {key : String}
    (hid : o.proposalId = side.proposalId timestamp) (hexchanges : o.exchanges = [])
    (hbalance : o.balance = some x) (hc : c.balance = y)
    (m : Match) (hm : m = settle o (counterOffer key c) c e rate x)
    (a₁ a₂ : Answer) (h₁ : a₁ = m.firstAnswer side) (h₂ : a₂ = m.secondAnswer side (m.resume o)) :
    a₁.leg = ⟨c.proposalId,side.other.role,fillResponse y x,min x y⟩ ∧
      a₂.leg = ⟨side.proposalId timestamp,side.role,fillResponse x y,min x y⟩ ∧
      a₁.exchanges ++ a₂.exchanges = [e.priced (some (min x y)) rate] := by
  subst hm h₁ h₂ hc
  have hamount : o.balance.getD 0 = x := by
    rw [hbalance]
    rfl
  rw [settle]
  rcases lt_trichotomy c.balance x with hlt | heq | hgt
  · -- the document is closed
    have hopen : fillResponse x c.balance = .autoOPEN := if_neg hlt.not_ge
    have hclose : fillResponse c.balance x = .autoCLOSE := if_pos hlt.le
    rw [if_pos hlt,min_eq_right hlt.le,hopen,hclose,← hid]
    cases side <;> exact ⟨rfl,rfl,rfl⟩
  · have hclose : fillResponse x c.balance = .autoCLOSE := if_pos heq.ge
    have hclose' : fillResponse c.balance x = .autoCLOSE := if_pos heq.le
    rw [if_neg heq.ge.not_gt,if_neg heq.le.not_gt,hclose,hclose',min_eq_left heq.ge,← hid,hbalance]
    refine ⟨by cases side <;> rfl,?_,?_⟩
    · cases side <;> exact congrArg (Leg.mk _ _ _) hamount
    · cases side <;> exact congrArg (_ :: ·) hexchanges
  · -- the order is closed, and carries the exchange
    have hclose : fillResponse x c.balance = .autoCLOSE := if_pos hgt.le
    have hopen : fillResponse c.balance x = .autoOPEN := if_neg hgt.not_ge
    rw [if_neg hgt.not_gt,if_pos hgt,hclose,hopen,min_eq_left hgt.le,← hid,hbalance]
    refine ⟨by cases side <;> rfl,?_,?_⟩
    · cases side <;> exact congrArg (Leg.mk _ _ _) hamount
    · cases side <;> exact congrArg (fun b => [e.priced b rate]) hbalance

/-- What an exchange of the two orders records. -/
def Side.terms (side : Side) (own counter currency : String) (amount price : ℚ) : Terms :=
  match side with
  | .buy => ⟨own,counter,currency,some amount,some (.finite price)⟩
  | .sell => ⟨counter,own,currency,some amount,some (.finite price)⟩

/-- A new order against the only open document of the other side. -/
structure Outcome (side : Side) (own counter currency : String) (x y price : ℚ) (t : Trade) :
    Prop where
  legs : t.legs = [⟨counter,side.other.role,fillResponse y x,min x y⟩,
    ⟨own,side.role,fillResponse x y,min x y⟩]
  terms : t.terms = [side.terms own counter currency (min x y) (min x y * price)]

/-- The mapper pairs the two orders exactly when their rates cross, at the average of these. -/
theorem matchOffer_unfilled (hx : 0 < x) (hy : 0 < y)
    (hown : Unfilled side timestamp x quote currency own)
    (hc : Unfilled side.other timestamp' y quote' currency c) :
    side.matchOffer timestamp ((side.newOrder params timestamp).lookUp own) c =
      if side.crosses (.finite (quote' / y)) (.finite (quote / x)) = true then
        some (settle ((side.newOrder params timestamp).lookUp own)
          (counterOffer (side.newOrder params timestamp).privateKey c) c
          (side.newExchange timestamp ((side.newOrder params timestamp).lookUp own) c)
          (.finite ((quote' / y + quote / x) / 2)) x)
      else none := by
  rw [Side.matchOffer]
  dsimp only [Offer.lookUp]
  rw [hown.rate hx,hown.balance,hc.rate hy]
  simp only [hx,and_true]
  rfl

theorem finished_outcome {m : Match} {price : ℚ} {h : List (Trade × TradeEvent)} {t : Trade}
    (hown : Unfilled side timestamp x quote currency own)
    (hc : Unfilled side.other timestamp' y quote' currency c)
    (hm : settle ((side.newOrder params timestamp).lookUp own)
      (counterOffer (side.newOrder params timestamp).privateKey c) c
      (side.newExchange timestamp ((side.newOrder params timestamp).lookUp own) c)
      (.finite price) x = m)
    (hr : Run (TradeStep side) ⟨(side.newOrder params timestamp).lookUp own,[⟨m,.mapped⟩]⟩ h t)
    (hf : t.Finished) : Outcome side own.proposalId c.proposalId currency x y price t := by
  obtain ⟨hid,hexchanges⟩ := @newOrder_ids side params timestamp
  obtain ⟨hleg₁,hleg₂,hterms⟩ := finished_answers
    (o := (side.newOrder params timestamp).lookUp own) hid hexchanges
    (congrArg some hown.balance) hc.balance m hm.symm _ _ rfl rfl
  obtain rfl := run_finished hr hf
  constructor
  · rw [Trade.legs,Trade.answers]
    simp only [List.flatMap_cons,List.flatMap_nil,Progress.first,Progress.second,
      Option.toList_some,List.append_nil,List.map_append,List.map_cons,List.map_nil,hleg₁,
      hleg₂,hown.proposalId]
    rfl
  · rw [Trade.terms,Trade.answers]
    simp only [List.flatMap_cons,List.flatMap_nil,Progress.first,Progress.second,
      Option.toList_some,List.append_nil,List.flatMap_append,hterms]
    rw [hown.proposalId,← hid,← hc.currencyIsoCodes]
    cases side <;> rfl

theorem trade_outcome (hx : 0 < x) (hy : 0 < y)
    (hown : Unfilled side timestamp x quote currency own)
    (hc : Unfilled side.other timestamp' y quote' currency c) :
    (side.crosses (.finite (quote' / y)) (.finite (quote / x)) = true →
      ∃ h t, Run (TradeStep side) (side.trade params timestamp own true [c]) h t ∧ t.Finished) ∧
    ((side.trade params timestamp own true [c]).tasks ≠ [] ↔
      side.crosses (.finite (quote' / y)) (.finite (quote / x)) = true) ∧
    ∀ h t, Run (TradeStep side) (side.trade params timestamp own true [c]) h t → t.Finished →
      (side.trade params timestamp own true [c]).tasks ≠ [] →
        Outcome side own.proposalId c.proposalId currency x y ((quote' / y + quote / x) / 2) t := by
  have hmatch : side.matchOffer timestamp ((side.newOrder params timestamp).lookUp own) c = _ :=
    matchOffer_unfilled hx hy hown hc
  by_cases hcross : side.crosses (.finite (quote' / y)) (.finite (quote / x)) = true
  · rw [if_pos hcross] at hmatch
    generalize hm : settle _ _ _ _ _ _ = m at hmatch
    have htrade : side.trade params timestamp own true [c] =
        ⟨(side.newOrder params timestamp).lookUp own,[⟨m,.mapped⟩]⟩ := by
      rw [Side.trade]
      simp [hmatch]
    rw [htrade]
    refine ⟨fun _ => ?_,iff_of_true (by simp) hcross,
      fun h t hr hf _ => finished_outcome hown hc hm hr hf⟩
    obtain ⟨h,hr⟩ := @run_chain side ⟨(side.newOrder params timestamp).lookUp own,
      [⟨m,.mapped⟩]⟩ [] [] m rfl
    refine ⟨h,_,hr,fun x hx => ?_⟩
    obtain rfl := List.mem_singleton.mp hx
    exact ⟨_,_,rfl⟩
  · rw [if_neg hcross] at hmatch
    have htrade : (side.trade params timestamp own true [c]).tasks = [] := by
      rw [Side.trade]
      simp [hmatch]
    exact ⟨fun h => absurd h hcross,iff_of_false (fun h => h htrade) hcross,
      fun _ _ _ _ h => absurd htrade h⟩

end Outcome

/-- A match does not depend on which of the two orders comes second: both match or neither,
with the same two legs, and with one exchange that records the same. -/
theorem match_symmetric {buyTime sellTime : Nat} {b s : Proposal} {x y quote quote' : ℚ}
    {currency : String} (hx : 0 < x) (hy : 0 < y)
    (hb : Unfilled .buy buyTime x quote currency b)
    (hs : Unfilled .sell sellTime y quote' currency s) (buyParams sellParams : Params) :
    ((sellDGCoinProposal sellParams sellTime s true [b]).tasks ≠ [] ↔
      (buyDGCoinProposal buyParams buyTime b true [s]).tasks ≠ []) ∧
    ((sellDGCoinProposal sellParams sellTime s true [b]).tasks ≠ [] →
      (∃ h t, Run (TradeStep .sell) (sellDGCoinProposal sellParams sellTime s true [b]) h t ∧
        t.Finished) ∧
      (∃ h t, Run (TradeStep .buy) (buyDGCoinProposal buyParams buyTime b true [s]) h t ∧
        t.Finished) ∧
      ∀ h t h' t', Run (TradeStep .sell) (sellDGCoinProposal sellParams sellTime s true [b]) h t →
        t.Finished → Run (TradeStep .buy) (buyDGCoinProposal buyParams buyTime b true [s]) h' t' →
        t'.Finished →
          t.legs = [⟨b.proposalId,.buyDGC,fillResponse x y,min x y⟩,
            ⟨s.proposalId,.sellDGC,fillResponse y x,min x y⟩] ∧
          t'.legs.Perm t.legs ∧ (∃ price, t.terms =
            [⟨b.proposalId,s.proposalId,currency,some (min x y),price⟩]) ∧ t'.terms = t.terms) := by
  obtain ⟨hsell,hsell_iff,hsells⟩ := @trade_outcome .sell sellParams sellTime buyTime s b y x
    quote' quote currency hy hx hs hb
  obtain ⟨hbuy,hbuy_iff,hbuys⟩ := @trade_outcome .buy buyParams buyTime sellTime b s x y
    quote quote' currency hx hy hb hs
  have hcross : (sellDGCoinProposal sellParams sellTime s true [b]).tasks ≠ [] ↔
      (buyDGCoinProposal buyParams buyTime b true [s]).tasks ≠ [] := hsell_iff.trans hbuy_iff.symm
  refine ⟨hcross,fun hmatch => ⟨hsell (hsell_iff.mp hmatch),hbuy (hbuy_iff.mp (hcross.mp hmatch)),
    fun h t h' t' hr hf hr' hf' => ?_⟩⟩
  obtain ⟨hlegs,hterms⟩ := hsells h t hr hf hmatch
  obtain ⟨hlegs',hterms'⟩ := hbuys h' t' hr' hf' (hcross.mp hmatch)
  rw [min_comm] at hlegs hterms
  rw [hlegs,hterms,hlegs',hterms']
  refine ⟨rfl,.swap _ _ [],⟨_,rfl⟩,?_⟩
  rw [add_comm]
  rfl

/-- 10 DGC are asked for 20, and 4 are offered for 6. -/
def Sample.wanted : Proposal :=
  { proposalId := "buyDGC7", role := .buyDGC, dgCoinAmount := 10, currencyIsoCodes := "TWD"
    currencyQuoteAmount := 20 }

def Sample.given : Proposal :=
  { proposalId := "sellDGC8", role := .sellDGC, dgCoinAmount := 4, currencyIsoCodes := "TWD"
    currencyQuoteAmount := 6 }

def Sample.wantedParams : Params := ⟨"p",[("DGC",10),("TWD",20)]⟩

def Sample.givenParams : Params := ⟨"q",[("DGC",4),("TWD",6)]⟩

theorem match_symmetric_wanted : ∃ h t h' t',
    Run (TradeStep .sell) (sellDGCoinProposal Sample.givenParams 8 Sample.given true
      [Sample.wanted]) h t ∧ t.Finished ∧
    Run (TradeStep .buy) (buyDGCoinProposal Sample.wantedParams 7 Sample.wanted true
      [Sample.given]) h' t' ∧ t'.Finished ∧
    t.legs = [⟨"buyDGC7",.buyDGC,fillResponse 10 4,min 10 4⟩,
      ⟨"sellDGC8",.sellDGC,fillResponse 4 10,min 10 4⟩] ∧
    t'.legs.Perm t.legs ∧ t'.terms = t.terms := by
  have hb : Unfilled .buy 7 10 20 "TWD" Sample.wanted := ⟨by decide,rfl,rfl,rfl,rfl⟩
  have hs : Unfilled .sell 8 4 6 "TWD" Sample.given := ⟨by decide,rfl,rfl,rfl,rfl⟩
  obtain ⟨_,hmatch⟩ := match_symmetric (by decide) (by decide) hb hs Sample.wantedParams
    Sample.givenParams
  obtain ⟨⟨h,t,hr,hf⟩,⟨h',t',hr',hf'⟩,hsame⟩ := hmatch (by decide +kernel)
  obtain ⟨hlegs,hperm,_,hterms⟩ := hsame h t h' t' hr hf hr' hf'
  exact ⟨h,t,h',t',hr,hf,hr',hf',hlegs,hperm,hterms⟩

end DgcRestApi.Server
