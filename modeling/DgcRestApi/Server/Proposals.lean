import DgcRestApi.Processor.Apply

/-!
# Orders on the server

`transaction/proposals.js` with `submit_utils.js`. A client's order becomes a proposal, and
every open proposal of the other side that it matches is answered together with the order
itself. Each of the two answers is a transaction of its own, signed with the client's key.
`submitTxns` catches every failure, so the second answer follows the first in any case. The
mapper runs over all documents before any answer is submitted; what follows an answer works
on the one object of the order, which all matches share.
-/

namespace DgcRestApi.Server

/-- A quotient of two amounts: what JavaScript makes of a division by 0 is no rational. -/
inductive Rate
  | nan | negInf | finite (q : ℚ) | posInf
deriving DecidableEq, Repr

def Rate.divide (x y : ℚ) : Rate :=
  if y = 0 then
    if x < 0 then .negInf else if 0 < x then .posInf else .nan
  else .finite (x / y)

/-- `r <= r'`, which is false of NaN. -/
def Rate.le : Rate → Rate → Bool
  | .nan,_ => false
  | _,.nan => false
  | .negInf,_ => true
  | _,.posInf => true
  | .finite q,.finite q' => q ≤ q'
  | _,_ => false

/-- `(r + r') / 2`. -/
def Rate.average : Rate → Rate → Rate
  | .nan,_ => .nan
  | _,.nan => .nan
  | .negInf,.posInf => .nan
  | .posInf,.negInf => .nan
  | .negInf,_ => .negInf
  | _,.negInf => .negInf
  | .posInf,_ => .posInf
  | _,.posInf => .posInf
  | .finite q,.finite q' => .finite ((q + q') / 2)

/-- `x * r`. -/
def Rate.times (x : ℚ) : Rate → Rate
  | .nan => .nan
  | .finite q => .finite (x * q)
  | .negInf => divide (-x) 0
  | .posInf => divide x 0

/-- What the server takes from outside the repository: the public key of a private key, and
the amount that the wire carries for a price. -/
structure ServerEnv where
  publicKey : String → String
  price : Rate → ℚ

/-- The side of the market that an order is on. -/
inductive Side
  | buy | sell
deriving DecidableEq, Repr

def Side.role : Side → Role
  | .buy => .buyDGC
  | .sell => .sellDGC

def Side.other : Side → Side
  | .buy => .sell
  | .sell => .buy

/-- The exchange object of a match. -/
structure ExchangeObject where
  timestamp : Nat
  buyProposalId : String
  sellProposalId : String
  currencyIsoCodes : String
  lastDgcPrice : Option ℚ := none
  lastCurrencyPrice : Option Rate := none
deriving DecidableEq, Repr

/-- The object of an order or of a document that is matched with one; fields not yet assigned
are undefined. -/
structure Offer where
  proposalId : String
  privateKey : String
  dgCoinAmount : Option ℚ := none
  currencyIsoCodes : Option String := none
  currencyQuoteAmount : Option ℚ := none
  exchangeRate : Option Rate := none
  balance : Option ℚ := none
  exchanges : List ExchangeObject := []
deriving DecidableEq, Repr

/-- The arguments of `answerProposal`. -/
structure Answer where
  privateKey : String
  response : Response
  role : Role
  proposalId : String
  dgCoinAmount : Option ℚ
  exchanges : List ExchangeObject := []
deriving DecidableEq, Repr

/-- The amount of an answer as it is encoded: an undefined field is left out. -/
def Answer.amount (a : Answer) : ℚ := a.dgCoinAmount.getD 0

section Transactions

variable (server : ServerEnv) (privateKey : String) (now : Nat)

/-- A transaction of `getTxnCreator`, as the processor gets it. -/
def createTxn (payload : PayloadMessage) : TpProcessRequest :=
  { signerPublicKey := server.publicKey privateKey
    payload := some payload
    inputs := ["3bfc81"]
    outputs := ["3bfc81"] }

def createProposal (action : CreateProposalAction) : TpProcessRequest :=
  createTxn server privateKey
    { action := .CREATE_PROPOSAL, timestamp := now, createProposal := action }

def ExchangeObject.encode (e : ExchangeObject) : Exchange :=
  { timestamp := e.timestamp
    lastDgcPrice := e.lastDgcPrice.getD 0
    currencyIsoCodes := e.currencyIsoCodes
    lastCurrencyPrice := e.lastCurrencyPrice.elim 0 server.price
    buyProposalId := e.buyProposalId
    sellProposalId := e.sellProposalId }

def Answer.action (a : Answer) : AnswerProposalAction :=
  { proposalId := a.proposalId
    role := a.role
    response := a.response
    dgCoinAmount := a.amount
    exchanges := a.exchanges.map (ExchangeObject.encode server) }

def answerProposal (a : Answer) : TpProcessRequest :=
  createTxn server a.privateKey
    { action := .ANSWER_PROPOSAL, timestamp := now, answerProposal := a.action server }

/-- The request that creates the proposal of an order. -/
def createOrder (role : Role) (param : Offer) : TpProcessRequest :=
  createProposal server param.privateKey now
    { role
      proposalId := param.proposalId
      dgCoinAmount := param.dgCoinAmount.getD 0
      currencyIsoCodes := param.currencyIsoCodes.getD ""
      currencyQuoteAmount := param.currencyQuoteAmount.getD 0 }

def sellDGCoin : Offer → TpProcessRequest := createOrder server now .sellDGC

def buyDGCoin : Offer → TpProcessRequest := createOrder server now .buyDGC

end Transactions

def closeAutoAnswer (role : Role) (param : Offer) : Answer :=
  { privateKey := param.privateKey
    response := .autoCLOSE
    role
    proposalId := param.proposalId
    dgCoinAmount := param.dgCoinAmount
    exchanges := param.exchanges }

def openAutoAnswer (role : Role) (param : Offer) : Answer :=
  { privateKey := param.privateKey
    response := .autoOPEN
    role
    proposalId := param.proposalId
    dgCoinAmount := param.dgCoinAmount }

def sellDGCoinCloseAutoAnswer : Offer → Answer := closeAutoAnswer .sellDGC

def sellDGCoinOpenAutoAnswer : Offer → Answer := openAutoAnswer .sellDGC

def buyDGCoinCloseAutoAnswer : Offer → Answer := closeAutoAnswer .buyDGC

def buyDGCoinOpenAutoAnswer : Offer → Answer := openAutoAnswer .buyDGC

def Side.close : Side → Offer → Answer
  | .buy => buyDGCoinCloseAutoAnswer
  | .sell => sellDGCoinCloseAutoAnswer

def Side.open : Side → Offer → Answer
  | .buy => buyDGCoinOpenAutoAnswer
  | .sell => sellDGCoinOpenAutoAnswer

/-- The body of a client's order. -/
structure Params where
  privateKey : String
  data : List (String × ℚ)

/-- The loop body over the keys of the order's data. -/
def Offer.readKey (order : Offer) (entry : String × ℚ) : Offer :=
  if entry.1 = "DGC" then { order with dgCoinAmount := some entry.2 }
  else { order with currencyIsoCodes := some entry.1, currencyQuoteAmount := some entry.2 }

def Side.proposalId (side : Side) (timestamp : Nat) : String :=
  match side with
  | .buy => "buyDGC" ++ toString timestamp
  | .sell => "sellDGC" ++ toString timestamp

/-- The object of a new order, up to its creation. -/
def Side.newOrder (side : Side) (params : Params) (timestamp : Nat) : Offer :=
  params.data.foldl Offer.readKey
    { proposalId := side.proposalId timestamp, privateKey := params.privateKey }

end DgcRestApi.Server

namespace DgcRestApi

/-- `currencyQuoteAmount / dgCoinAmount` of a document. -/
def Proposal.rate (c : Proposal) : Server.Rate := .divide c.currencyQuoteAmount c.dgCoinAmount

/-- What is left of a document to be exchanged. -/
def Proposal.balance (c : Proposal) : ℚ := c.dgCoinAmount - c.dgCoinExchanged

end DgcRestApi

namespace DgcRestApi.Server

/-- The mapper over the order's own document. Its query is not awaited. -/
def Offer.lookUp (order : Offer) (own : Proposal) : Offer :=
  { order with exchangeRate := some own.rate, balance := some own.balance }

/-- The test of the rates: a buyer offers at least what a seller asks. -/
def Side.crosses : Side → Rate → Rate → Bool
  | .buy,counterRate,rate => counterRate.le rate
  | .sell,counterRate,rate => rate.le counterRate

/-- How the balance of the order compares with that of the document. -/
inductive Branch
  | above | below | level
deriving DecidableEq, Repr

/-- What the mapper keeps of a match for the functions that it chains: the branch it took,
the object of the document, the exchange object and the rate. -/
structure Match where
  branch : Branch
  doc : Proposal
  counter : Offer
  exchange : ExchangeObject
  exchangeRate : Rate
deriving DecidableEq, Repr

def ExchangeObject.priced (e : ExchangeObject) (balance : Option ℚ) (exchangeRate : Rate) :
    ExchangeObject :=
  { e with
    lastDgcPrice := balance
    lastCurrencyPrice := balance.map fun x => exchangeRate.times x }

/-- The object of a document after the mapper's assignments before its test. -/
def counterOffer (privateKey : String) (c : Proposal) : Offer :=
  { proposalId := c.proposalId
    privateKey
    dgCoinAmount := some c.dgCoinAmount
    currencyIsoCodes := some c.currencyIsoCodes
    currencyQuoteAmount := some c.currencyQuoteAmount
    exchangeRate := some c.rate
    balance := some c.balance }

def Side.newExchange (side : Side) (timestamp : Nat) (order : Offer) (c : Proposal) :
    ExchangeObject :=
  { timestamp
    buyProposalId := match side with | .buy => order.proposalId | .sell => c.proposalId
    sellProposalId := match side with | .buy => c.proposalId | .sell => order.proposalId
    currencyIsoCodes := c.currencyIsoCodes }

/-- The mapper's three branches up to the first answer. -/
def settle (order counter : Offer) (c : Proposal) (exchange : ExchangeObject)
    (exchangeRate : Rate) (balance : ℚ) : Match :=
  if c.balance < balance then
    { branch := .above
      doc := c
      counter :=
        { counter with
          dgCoinAmount := counter.balance
          exchanges := [exchange.priced counter.balance exchangeRate] }
      exchange
      exchangeRate }
  else if balance < c.balance then
    { branch := .below
      doc := c
      counter := { counter with dgCoinAmount := order.balance }
      exchange
      exchangeRate }
  else
    { branch := .level
      doc := c
      counter :=
        { counter with
          dgCoinAmount := order.balance
          exchanges := [exchange.priced order.balance exchangeRate] }
      exchange
      exchangeRate }

/-- The mapper over the documents of the other side. A comparison with an undefined rate or
balance is false. -/
def Side.matchOffer (side : Side) (timestamp : Nat) (order : Offer) (c : Proposal) :
    Option Match :=
  match order.exchangeRate,order.balance with
  | some rate,some balance =>
    if side.crosses c.rate rate ∧ 0 < balance then
      some (settle order (counterOffer order.privateKey c) c
        (side.newExchange timestamp order c) (c.rate.average rate) balance)
    else none
  | _,_ => none

/-- The answer to the document. -/
def Match.firstAnswer (side : Side) (m : Match) : Answer :=
  match m.branch with
  | .above => side.other.close m.counter
  | .below => side.other.open m.counter
  | .level => side.other.close m.counter

/-- What the function chained to the first answer assigns to the object of the order, as it
finds it then. -/
def Match.resume (m : Match) (order : Offer) : Offer :=
  match m.branch with
  | .above =>
    { order with
      dgCoinAmount := m.counter.balance
      balance := do
        let balance ← order.balance
        let paid ← m.counter.balance
        return balance - paid }
  | .below =>
    { order with
      dgCoinAmount := order.balance
      exchanges := [m.exchange.priced order.balance m.exchangeRate]
      balance := some 0 }
  | .level =>
    { order with
      dgCoinAmount := order.balance
      balance := some 0 }

/-- The answer to the order, built from its object some time after `resume`. -/
def Match.secondAnswer (side : Side) (m : Match) (order : Offer) : Answer :=
  match m.branch with
  | .above => side.open order
  | .below => side.close order
  | .level => side.close order

/-- How far the promise chain of a match has come. -/
inductive Progress
  | mapped
  | answered (first : Answer)
  | resumed (first : Answer)
  | finished (first second : Answer)
deriving DecidableEq, Repr

def Progress.first : Progress → Option Answer
  | .mapped => none
  | .answered a => some a
  | .resumed a => some a
  | .finished a _ => some a

def Progress.second : Progress → Option Answer
  | .finished _ b => some b
  | _ => none

structure Task where
  found : Match
  progress : Progress := .mapped
deriving DecidableEq, Repr

/-- The object of the order and the promise chains of its matches. -/
structure Trade where
  order : Offer
  tasks : List Task

/-- The order when its mapper has run over `counters`; `arrived` says whether the query of
its own document was answered by then. -/
def Side.trade (side : Side) (params : Params) (timestamp : Nat) (own : Proposal)
    (arrived : Bool) (counters : List Proposal) : Trade :=
  let order := side.newOrder params timestamp
  let order := if arrived then order.lookUp own else order
  { order
    tasks := (counters.filterMap (side.matchOffer timestamp order)).map fun m => { found := m } }

def sellDGCoinProposal := Side.trade .sell

def buyDGCoinProposal := Side.trade .buy

inductive TradeEvent
  | first | resume | second

/-- One step of one promise chain. A chain may also stop where it is. -/
inductive TradeStep (side : Side) : Trade → TradeEvent → Trade → Prop
  | first {s : Trade} {before after : List Task} {m : Match}
      (hs : s.tasks = before ++ ⟨m,.mapped⟩ :: after) :
      TradeStep side s .first
        { s with tasks := before ++ ⟨m,.answered (m.firstAnswer side)⟩ :: after }
  | resume {s : Trade} {before after : List Task} {m : Match} {a : Answer}
      (hs : s.tasks = before ++ ⟨m,.answered a⟩ :: after) :
      TradeStep side s .resume ⟨m.resume s.order,before ++ ⟨m,.resumed a⟩ :: after⟩
  | second {s : Trade} {before after : List Task} {m : Match} {a : Answer}
      (hs : s.tasks = before ++ ⟨m,.resumed a⟩ :: after) :
      TradeStep side s .second
        { s with tasks := before ++ ⟨m,.finished a (m.secondAnswer side s.order)⟩ :: after }

end DgcRestApi.Server
