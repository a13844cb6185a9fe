import DgcRestApi.Kit.Run
import DgcRestApi.Server.Proposals
import Mathlib.Order.Lattice
import Mathlib.Order.MinMax

/-!
# Matches and their answers

What the mapper fixes about a match, and what every run of the promise chains keeps: the
first answer carries the smaller of the two balances, the second one whatever amount the
object of the order has when it is built.
-/

namespace DgcRestApi.Server

/-- What the mapper knows of a match of an order with the balance `balance`. -/
structure Found (side : Side) (order : Offer) (balance : ℚ) (m : Match) : Prop where
  pos : 0 < balance
  orderBalance : order.balance = some balance
  above : m.branch = .above ↔ m.doc.balance < balance
  counterBalance : m.counter.balance = some m.doc.balance
  counterAmount : m.counter.dgCoinAmount = some (min balance m.doc.balance)
  counterId : m.counter.proposalId = m.doc.proposalId
  counterKey : m.counter.privateKey = order.privateKey
  exchange : m.exchange = side.newExchange m.exchange.timestamp order m.doc

section Mapper

variable {side : Side} {timestamp : Nat} {order : Offer} {c : Proposal} {m : Match}
variable {rate : Rate} {balance : ℚ}

theorem matchOffer_eq_some : side.matchOffer timestamp order c = some m ↔
    ∃ rate balance, order.exchangeRate = some rate ∧ order.balance = some balance ∧
      (side.crosses c.rate rate ∧ 0 < balance) ∧
      m = settle order (counterOffer order.privateKey c) c (side.newExchange timestamp order c)
        (c.rate.average rate) balance := by
  rw [Side.matchOffer]
  cases order.exchangeRate with
  | none => exact ⟨nofun,fun ⟨_,_,h,_⟩ => nomatch h⟩
  | some rate =>
    cases order.balance with
    | none => exact ⟨nofun,fun ⟨_,_,_,h,_⟩ => nomatch h⟩
    | some balance =>
      constructor
      · intro h
        obtain ⟨htest,hm⟩ := Option.ite_none_right_eq_some.mp h
        exact ⟨rate,balance,rfl,rfl,htest,(Option.some.inj hm).symm⟩
      · rintro ⟨_,_,hrate,hbalance,htest,rfl⟩
        obtain rfl := Option.some.inj hrate
        obtain rfl := Option.some.inj hbalance
        exact if_pos htest

theorem matchOffer_eq_none (h : order.exchangeRate = none) :
    side.matchOffer timestamp order c = none := by
  rw [Side.matchOffer,h]

theorem settle_doc {counter : Offer} {exchange : ExchangeObject} :
    (settle order counter c exchange rate balance).doc = c := by
  rw [settle]
  split
  · rfl
  · split <;> rfl

/-- Which documents the mapper matches when the order has its rate and balance. -/
theorem matchOffer_doc {own : Proposal} :
    (side.matchOffer timestamp (order.lookUp own) c).map Match.doc =
      if side.crosses c.rate own.rate ∧ 0 < own.balance then some c else none := by
  rw [Side.matchOffer]
  dsimp only [Offer.lookUp]
  split
  · rw [Option.map_some,settle_doc]
  · rfl

theorem matchOffer_found (h : side.matchOffer timestamp order c = some m) :
    ∃ balance, Found side order balance m := by
  obtain ⟨rate,balance,_,hbalance,⟨_,hpos⟩,rfl⟩ := matchOffer_eq_some.mp h
  rw [settle]
  split
  · next hlt =>
    exact ⟨balance,hpos,hbalance,by simpa using hlt,rfl,
      congrArg some (min_eq_right hlt.le).symm,rfl,rfl,rfl⟩
  · next hge =>
    have hle := le_of_not_gt hge
    split
    · exact ⟨balance,hpos,hbalance,by simpa using hle,rfl,
        hbalance.trans (congrArg some (min_eq_left hle).symm),rfl,rfl,rfl⟩
    · exact ⟨balance,hpos,hbalance,by simpa using hle,rfl,
        hbalance.trans (congrArg some (min_eq_left hle).symm),rfl,rfl,rfl⟩

end Mapper

section Answers

variable {side : Side} {order o : Offer} {balance : ℚ} {m : Match} {param : Offer}

/-- An answer that fills the proposal of an object with the amount the object has. -/
structure Answer.For (a : Answer) (side : Side) (param : Offer) : Prop where
  response : a.response = .autoOPEN ∨ a.response = .autoCLOSE
  role : a.role = side.role
  privateKey : a.privateKey = param.privateKey
  proposalId : a.proposalId = param.proposalId
  dgCoinAmount : a.dgCoinAmount = param.dgCoinAmount

theorem close_for (side : Side) (param : Offer) : (side.close param).For side param := by
  cases side <;> exact ⟨Or.inr rfl,rfl,rfl,rfl,rfl⟩

theorem open_for (side : Side) (param : Offer) : (side.open param).For side param := by
  cases side <;> exact ⟨Or.inl rfl,rfl,rfl,rfl,rfl⟩

theorem firstAnswer_for (side : Side) (m : Match) :
    (m.firstAnswer side).For side.other m.counter := by
  rw [Match.firstAnswer]
  split
  · exact close_for side.other m.counter
  · exact open_for side.other m.counter
  · exact close_for side.other m.counter

theorem secondAnswer_for (side : Side) (m : Match) (o : Offer) :
    (m.secondAnswer side o).For side o := by
  rw [Match.secondAnswer]
  split
  · exact open_for side o
  · exact close_for side o
  · exact close_for side o

theorem Answer.For.amount {a : Answer} (h : a.For side param) {x : ℚ}
    (hx : param.dgCoinAmount = some x) : a.amount = x := by
  rw [Answer.amount,h.dgCoinAmount,hx,Option.getD_some]

/-- The first answer carries the matched quantity. -/
theorem Found.first_amount (h : Found side order balance m) :
    (m.firstAnswer side).amount = min balance m.doc.balance :=
  (firstAnswer_for side m).amount h.counterAmount

/-- The functions chained to an answer keep what identifies the order. -/
theorem resume_ids (m : Match) (o : Offer) :
    (m.resume o).proposalId = o.proposalId ∧ (m.resume o).privateKey = o.privateKey := by
  rw [Match.resume]
  split <;> exact ⟨rfl,rfl⟩

theorem Found.resume_above (h : Found side order balance m) (hlt : m.doc.balance < balance)
    (o : Offer) : (m.resume o).dgCoinAmount = some m.doc.balance ∧
      (m.resume o).balance = o.balance.map fun x => x - m.doc.balance := by
  rw [Match.resume,h.above.mpr hlt,h.counterBalance]
  cases o.balance <;> exact ⟨rfl,rfl⟩

theorem Found.resume_full (h : Found side order balance m) (hle : balance ≤ m.doc.balance)
    (o : Offer) : (m.resume o).dgCoinAmount = o.balance ∧ (m.resume o).balance = some 0 := by
  have hne : m.branch ≠ .above := fun heq => hle.not_gt (h.above.mp heq)
  rw [Match.resume]
  split
  · next heq => exact absurd heq hne
  · exact ⟨rfl,rfl⟩
  · exact ⟨rfl,rfl⟩

end Answers

/-- The answers of a chain are those of its match, built from objects of the order. -/
structure Task.Built (side : Side) (order : Offer) (x : Task) : Prop where
  first : ∀ a, x.progress.first = some a → a = x.found.firstAnswer side
  second : ∀ b, x.progress.second = some b → ∃ o : Offer, o.proposalId = order.proposalId ∧
    o.privateKey = order.privateKey ∧ b = x.found.secondAnswer side o

/-- What a run keeps of the trade it started from. -/
structure Continues (side : Side) (s t : Trade) : Prop where
  proposalId : t.order.proposalId = s.order.proposalId
  privateKey : t.order.privateKey = s.order.privateKey
  found : t.tasks.map Task.found = s.tasks.map Task.found
  built : ∀ x ∈ t.tasks, x.Built side s.order

section Runs

variable {side : Side} {s t t' : Trade} {e : TradeEvent}

/-- A step replaces one task among others. -/
theorem forall_mem_middle {P : Task → Prop} {before after : List Task} {x : Task} :
    (∀ y ∈ before ++ x :: after, P y) ↔ P x ∧ ∀ y ∈ before ++ after, P y := by
  rw [← List.forall_mem_cons]
  exact forall_congr' fun y => by rw [List.perm_middle.mem_iff]

theorem TradeStep.found (h : TradeStep side t e t') :
    t'.tasks.map Task.found = t.tasks.map Task.found := by
  cases h with
  | first hs | resume hs | second hs => simp [hs]

theorem Continues.step (h : Continues side s t) (hstep : TradeStep side t e t') :
    Continues side s t' := by
  have hfound := hstep.found.trans h.found
  have hbuilt := h.built
  cases hstep with
  | first hs =>
    rw [hs,forall_mem_middle] at hbuilt
    refine ⟨h.proposalId,h.privateKey,hfound,forall_mem_middle.mpr
      ⟨⟨fun a ha => ?_,fun b hb => ?_⟩,hbuilt.2⟩⟩
    · exact (Option.some.inj ha).symm
    · cases hb
  | @resume before after m a hs =>
    rw [hs,forall_mem_middle] at hbuilt
    obtain ⟨hid,hkey⟩ := resume_ids m t.order
    refine ⟨hid.trans h.proposalId,hkey.trans h.privateKey,hfound,forall_mem_middle.mpr
      ⟨⟨hbuilt.1.first,fun b hb => ?_⟩,hbuilt.2⟩⟩
    cases hb
  | second hs =>
    rw [hs,forall_mem_middle] at hbuilt
    refine ⟨h.proposalId,h.privateKey,hfound,forall_mem_middle.mpr
      ⟨⟨hbuilt.1.first,fun b hb => ?_⟩,hbuilt.2⟩⟩
    exact ⟨t.order,h.proposalId,h.privateKey,(Option.some.inj hb).symm⟩

/-- A trade whose chains have not started continues as itself. -/
theorem continues_start (hs : ∀ x ∈ s.tasks, x.progress = .mapped) : Continues side s s where
  proposalId := rfl
  privateKey := rfl
  found := rfl
  built x hx := by
    constructor
    · intro a ha
      rw [hs x hx] at ha
      cases ha
    · intro b hb
      rw [hs x hx] at hb
      cases hb

theorem run_continues {h : List (Trade × TradeEvent)} (hs : ∀ x ∈ s.tasks, x.progress = .mapped)
    (hr : Run (TradeStep side) s h t) : Continues side s t :=
  hr.invariant (Continues side s) (fun _ _ _ hc hstep => hc.step hstep) (continues_start hs)

/-- A chain can run to its end while the others wait. -/
theorem run_chain {before after : List Task} {m : Match}
    (hs : s.tasks = before ++ ⟨m,.mapped⟩ :: after) : ∃ h, Run (TradeStep side) s h
      ⟨m.resume s.order,before ++ ⟨m,.finished (m.firstAnswer side)
        (m.secondAnswer side (m.resume s.order))⟩ :: after⟩ :=
  ⟨_,((Run.nil.snoc (.first hs)).snoc (.resume rfl)).snoc (.second rfl)⟩

end Runs

/-- The two answers of a match that is settled. -/
structure Answered (side : Side) (order : Offer) (balance : ℚ) (m : Match) (a₁ a₂ : Answer) :
    Prop where
  found : Found side order balance m
  first : a₁.For side.other m.counter
  second : ∃ o : Offer, o.proposalId = order.proposalId ∧ o.privateKey = order.privateKey ∧
    a₂.For side o

section Pairs

variable {side : Side} {order : Offer} {balance : ℚ} {m : Match} {a₁ a₂ : Answer}

/-- The first answer carries the matched quantity. -/
theorem Answered.amount (h : Answered side order balance m a₁ a₂) :
    a₁.amount = min balance m.doc.balance := h.first.amount h.found.counterAmount

/-- Both answers are signed with the key of the order. -/
theorem Answered.keys (h : Answered side order balance m a₁ a₂) :
    a₁.privateKey = a₂.privateKey := by
  obtain ⟨o,_,hkey,ho⟩ := h.second
  rw [h.first.privateKey,h.found.counterKey,ho.privateKey,hkey]

/-- The exchange of a match names the proposals that its answers are about. -/
theorem Answered.exchange_ids (h : Answered side order balance m a₁ a₂) :
    m.exchange.buyProposalId = a₁.proposalId ∧ m.exchange.sellProposalId = a₂.proposalId ∨
      m.exchange.buyProposalId = a₂.proposalId ∧ m.exchange.sellProposalId = a₁.proposalId := by
  obtain ⟨o,hid,_,ho⟩ := h.second
  rw [h.first.proposalId,h.found.counterId,ho.proposalId,hid,h.found.exchange]
  cases side
  · exact Or.inr ⟨rfl,rfl⟩
  · exact Or.inl ⟨rfl,rfl⟩

/-- Nothing is matched only with a document that has nothing left. -/
theorem Found.quantity_eq_zero (h : Found side order balance m) :
    min balance m.doc.balance = 0 ↔ m.doc.balance = 0 := by
  constructor
  · intro hmin
    rcases le_total balance m.doc.balance with hle | hle
    · rw [min_eq_left hle] at hmin
      exact absurd hmin h.pos.ne'
    · rwa [min_eq_right hle] at hmin
  · intro hzero
    rw [hzero,min_eq_right h.pos.le]

end Pairs

section Trades

variable {side : Side} {params : Params} {timestamp : Nat} {own : Proposal} {arrived : Bool}
variable {counters : List Proposal} {h : List (Trade × TradeEvent)} {t : Trade} {x : Task}

theorem trade_mapped : ∀ x ∈ (side.trade params timestamp own arrived counters).tasks,
    x.progress = .mapped := by
  intro x hx
  obtain ⟨m,_,rfl⟩ := List.mem_map.mp hx
  rfl

/-- Reading the data of an order does not set its rate. -/
theorem newOrder_exchangeRate : (side.newOrder params timestamp).exchangeRate = none := by
  have hfold : ∀ (data : List (String × ℚ)) (order : Offer),
      (data.foldl Offer.readKey order).exchangeRate = order.exchangeRate := by
    intro data
    induction data with
    | nil => exact fun _ => rfl
    | cons entry data ih =>
      intro order
      rw [List.foldl_cons,ih,Offer.readKey]
      split <;> rfl
  exact hfold params.data _

theorem trade_order : (side.trade params timestamp own arrived counters).order =
    if arrived then (side.newOrder params timestamp).lookUp own
    else side.newOrder params timestamp := rfl

/-- The tasks of a trade are the matches of its order. -/
theorem mem_trade (hx : x ∈ (side.trade params timestamp own arrived counters).tasks) :
    Found side (side.trade params timestamp own arrived counters).order own.balance x.found := by
  obtain ⟨m,hm,rfl⟩ := List.mem_map.mp hx
  obtain ⟨c,_,hm⟩ := List.mem_filterMap.mp hm
  obtain ⟨balance,hfound⟩ := matchOffer_found hm
  obtain ⟨rate,_,hrate,_⟩ := matchOffer_eq_some.mp hm
  have hbalance := hfound.orderBalance
  rw [trade_order]
  split at hbalance
  · next harrived =>
    obtain rfl := Option.some.inj hbalance
    rwa [if_pos harrived] at hfound ⊢
  · next harrived =>
    rw [if_neg harrived,newOrder_exchangeRate] at hrate
    cases hrate

theorem run_answered {m : Match} {a₁ a₂ : Answer}
    (hr : Run (TradeStep side) (side.trade params timestamp own arrived counters) h t)
    (hm : ⟨m,.finished a₁ a₂⟩ ∈ t.tasks) :
    Answered side (side.trade params timestamp own arrived counters).order own.balance m a₁ a₂ := by
  have hc := run_continues trade_mapped hr
  have hmem : m ∈ t.tasks.map Task.found := List.mem_map_of_mem hm
  rw [hc.found] at hmem
  obtain ⟨x,hx,hfound⟩ := List.mem_map.mp hmem
  have hm₀ := mem_trade hx
  rw [hfound] at hm₀
  have hbuilt := hc.built _ hm
  obtain ⟨o,hid,hkey,hb⟩ := hbuilt.second a₂ rfl
  have ha : a₁ = m.firstAnswer side := hbuilt.first a₁ rfl
  have hb : a₂ = m.secondAnswer side o := hb
  exact ⟨hm₀,ha ▸ firstAnswer_for side m,o,hid,hkey,hb ▸ secondAnswer_for side m o⟩

end Trades

/-! ## What is left of an order -/

/-- The document of a chain that goes on from its first answer. -/
def resumedTask (e : Task × Task) : Option Proposal :=
  match e.1.progress,e.2.progress with
  | .answered _,.resumed _ => some e.1.found.doc
  | _,_ => none

/-- The document for which a step updates the object of the order, if it does. -/
def resumedBy (s t : Trade) : List Proposal := (s.tasks.zip t.tasks).filterMap resumedTask

/-- The documents for which a run updated the object of the order, the last one first. -/
def resumed (h : List (Trade × TradeEvent)) (t : Trade) : List Proposal :=
  (Run.steps h t).flatMap fun e => resumedBy e.1 e.2.2

/-- An order has nothing left for its last document: this document has nothing left itself, or it
takes what the others left, which took everything: as much as the order had, or nothing since one
of them took all. -/
def Spent (own : Proposal) : List Proposal → Prop
  | [] => False
  | c :: cs => c.balance = 0 ∨ own.balance ≤ c.balance ∧
      ((cs.takeWhile fun d => d.balance < own.balance).map Proposal.balance).sum =
        if ∀ d ∈ cs, d.balance < own.balance then own.balance else 0

/-- What an order has left after its object was updated for the documents. -/
def left (own : Proposal) : List Proposal → ℚ
  | [] => own.balance
  | c :: cs => if c.balance < own.balance then left own cs - c.balance else 0

theorem left_eq (own : Proposal) (cs : List Proposal) :
    left own cs = (if ∀ d ∈ cs, d.balance < own.balance then own.balance else 0) -
      ((cs.takeWhile fun d => d.balance < own.balance).map Proposal.balance).sum := by
  induction cs with
  | nil => simp [left]
  | cons c cs ih =>
    rw [left]
    by_cases hc : c.balance < own.balance
    · rw [if_pos hc,ih,List.takeWhile_cons_of_pos (by simpa using hc),List.map_cons,List.sum_cons]
      simp only [List.forall_mem_cons,hc,true_and]
      ring
    · have hsome : ¬∀ d ∈ c :: cs, d.balance < own.balance :=
        fun hall => hc (hall c List.mem_cons_self)
      rw [if_neg hc,if_neg hsome,List.takeWhile_cons_of_neg (by simpa using hc)]
      simp

/-- The amount that the object of the order has after an update for `c`. -/
def leftFor (own : Proposal) (c : Proposal) (cs : List Proposal) : ℚ :=
  if c.balance < own.balance then c.balance else left own cs

theorem leftFor_eq_zero {own c : Proposal} {cs : List Proposal} (hpos : 0 < own.balance) :
    leftFor own c cs = 0 ↔ Spent own (c :: cs) := by
  rw [leftFor,Spent]
  by_cases hc : c.balance < own.balance
  · rw [if_pos hc]
    exact ⟨Or.inl,fun h => h.resolve_right fun hle => hle.1.not_gt hc⟩
  · have hle := le_of_not_gt hc
    have hne : c.balance ≠ 0 := fun hzero => hc (hzero ▸ hpos)
    rw [if_neg hc,left_eq,sub_eq_zero,eq_comm]
    exact ⟨fun h => Or.inr ⟨hle,h⟩,fun h => (h.resolve_left hne).2⟩

section Updates

variable {side : Side} {s t t' : Trade} {e : TradeEvent} {h : List (Trade × TradeEvent)}
variable {before after : List Task} {x x' : Task}

theorem resumedTask_self (x : Task) : resumedTask (x,x) = none := by
  rw [resumedTask]
  cases x.progress <;> rfl

theorem resumedBy_eq (hs : s.tasks = before ++ x :: after) (ht : t.tasks = before ++ x' :: after) :
    resumedBy s t = (resumedTask (x,x')).toList := by
  have hself : ∀ l : List Task, (l.zip l).filterMap resumedTask = [] := by
    intro l
    induction l with
    | nil => rfl
    | cons y l ih => rw [List.zip_cons_cons,List.filterMap_cons_none (resumedTask_self y),ih]
  rw [resumedBy,hs,ht,List.zip_append rfl,List.zip_cons_cons,List.filterMap_append,hself,
    List.nil_append]
  cases hx : resumedTask (x,x') with
  | none => rw [List.filterMap_cons_none hx,hself]; rfl
  | some c => rw [List.filterMap_cons_some hx,hself]; rfl

theorem resumed_cons : resumed ((t,e) :: h) t' = resumedBy t t' ++ resumed h t := rfl

/-- A match that has gone on from its first answer is one of those that updated the order. -/
theorem run_resumed_mem (hs : ∀ x ∈ s.tasks, x.progress = .mapped)
    (hr : Run (TradeStep side) s h t) :
    ∀ x ∈ t.tasks, ∀ a, x.progress = .resumed a → x.found.doc ∈ resumed h t := by
  induction hr with
  | nil =>
    intro x hx a ha
    rw [hs x hx] at ha
    exact nomatch ha
  | @snoc h t t' e hr hstep ih =>
    rw [resumed_cons]
    cases hstep with
    | first htasks | second htasks =>
      rw [htasks,forall_mem_middle] at ih
      rw [forall_mem_middle]
      exact ⟨nofun,fun y hy a ha => List.mem_append_right _ (ih.2 y hy a ha)⟩
    | resume htasks =>
      rw [resumedBy_eq htasks rfl]
      rw [htasks,forall_mem_middle] at ih
      rw [forall_mem_middle]
      exact ⟨fun a _ => List.mem_cons_self,fun y hy a ha =>
        List.mem_append_right _ (ih.2 y hy a ha)⟩

/-- The object of the order after the updates for the documents. -/
structure Updated (own : Proposal) (docs : List Proposal) (order : Offer) : Prop where
  balance : order.balance = some (left own docs)
  amount : ∀ c cs, docs = c :: cs → order.dgCoinAmount = some (leftFor own c cs)

/-- An update takes its document into account. -/
theorem Updated.resume {own : Proposal} {docs : List Proposal} {order o : Offer} {m : Match}
    (hu : Updated own docs o) (hm : Found side order own.balance m) :
    Updated own (m.doc :: docs) (m.resume o) := by
  by_cases hlt : m.doc.balance < own.balance
  · obtain ⟨hamount,hbalance⟩ := hm.resume_above hlt o
    refine ⟨by rw [hbalance,hu.balance,left,if_pos hlt,Option.map_some],fun c cs heq => ?_⟩
    obtain ⟨rfl,rfl⟩ := List.cons.inj heq
    rw [hamount,leftFor,if_pos hlt]
  · obtain ⟨hamount,hbalance⟩ := hm.resume_full (le_of_not_gt hlt) o
    refine ⟨by rw [hbalance,left,if_neg hlt],fun c cs heq => ?_⟩
    obtain ⟨rfl,rfl⟩ := List.cons.inj heq
    rw [hamount,hu.balance,leftFor,if_neg hlt]

theorem run_updated {own : Proposal} (hs : ∀ x ∈ s.tasks, x.progress = .mapped)
    (hfound : ∀ x ∈ s.tasks, Found side s.order own.balance x.found)
    (hbalance : s.order.balance = some own.balance) (hr : Run (TradeStep side) s h t) :
    Updated own (resumed h t) t.order := by
  induction hr with
  | nil => exact ⟨hbalance,fun _ _ heq => nomatch heq⟩
  | @snoc h t t' e hr hstep ih =>
    rw [resumed_cons]
    cases hstep with
    | first htasks | second htasks =>
      rw [resumedBy_eq htasks rfl]
      exact ih
    | @resume before after m a htasks =>
      rw [resumedBy_eq htasks rfl]
      -- the match is one that the mapper found
      have hmem : m ∈ t.tasks.map Task.found := by simp [htasks]
      rw [(run_continues hs hr).found] at hmem
      obtain ⟨y,hy,rfl⟩ := List.mem_map.mp hmem
      exact ih.resume (hfound y hy)

end Updates

section Second

variable {side : Side} {params : Params} {timestamp : Nat} {own : Proposal} {arrived : Bool}
variable {counters : List Proposal} {h : List (Trade × TradeEvent)} {t : Trade} {m : Match}
variable {a₁ : Answer}

/-- The answers of a match whose second one is built next. -/
theorem run_second_answered
    (hr : Run (TradeStep side) (side.trade params timestamp own arrived counters) h t)
    (hm : ⟨m,.resumed a₁⟩ ∈ t.tasks) : Answered side
      (side.trade params timestamp own arrived counters).order own.balance m a₁
        (m.secondAnswer side t.order) := by
  obtain ⟨before,after,htasks⟩ := List.append_of_mem hm
  exact run_answered (hr.snoc (.second htasks)) (List.mem_append_right _ List.mem_cons_self)

/-- The second answer that is built next for a match carries nothing exactly if the order has
nothing left for the last of the documents that updated it. -/
theorem run_second_amount
    (hr : Run (TradeStep side) (side.trade params timestamp own arrived counters) h t)
    (hm : ⟨m,.resumed a₁⟩ ∈ t.tasks) :
    (m.secondAnswer side t.order).amount = 0 ↔ Spent own (resumed h t) := by
  have hmem : m ∈ t.tasks.map Task.found := List.mem_map_of_mem hm
  rw [(run_continues trade_mapped hr).found] at hmem
  obtain ⟨y,hy,rfl⟩ := List.mem_map.mp hmem
  have hfound := mem_trade hy
  have hu := run_updated trade_mapped (fun _ hx => mem_trade hx) hfound.orderBalance hr
  have hdocs := run_resumed_mem trade_mapped hr _ hm a₁ rfl
  cases heq : resumed h t with
  | nil =>
    rw [heq] at hdocs
    exact nomatch hdocs
  | cons c cs =>
    rw [(secondAnswer_for side y.found t.order).amount (hu.amount c cs heq)]
    exact leftFor_eq_zero hfound.pos

end Second

end DgcRestApi.Server
