import DgcRestApi.Server.Matching
import DgcRestApi.Server.Symmetry
import DgcRestApi.Server.Transfers

/-!
# The market of an order

`buyDGCoinProposal` and `sellDGCoinProposal` over databases that show the ledger: one is asked for
the order's own document, and one, maybe later, for the open proposals of the other side. Whatever
is open there in the currency of the order is matched if the rates cross, also what the client has
proposed itself and what has nothing left.
-/

namespace DgcRestApi.Server
open LedgerSync Keyed

section Requests

variable (side : Side) (params : Params) (timestamp : Nat)

/-- The documents of the other side. The query fails if the currency is undefined. -/
def Side.counters (order : Offer) (db : Db) : List Proposal :=
  (order.currencyIsoCodes.bind fun currency => retrieve (fun c =>
    c.role = side.other.role ∧ c.status = .OPEN ∧ c.currencyIsoCodes = currency) db).getD []

/-- The trade of an order whose document is looked up in one database and the other side in
another. The mapper assigns for each document that it finds, the last one at last. -/
def Side.market (own counter : Db) (arrived : Bool) : Trade :=
  let counters := side.counters (side.newOrder params timestamp) counter
  match ((retrieve (fun c => c.proposalId = side.proposalId timestamp) own).getD []).getLast? with
  | some c => side.trade params timestamp c arrived counters
  | none => side.trade params timestamp {} false counters

end Requests

/-- The order was created, and no other proposal since then under its identifier. -/
inductive Placed (env : Env) (server : ServerEnv) (side : Side) (params : Params)
    (timestamp now : Nat) : State → Prop
  | intro {h₀ h : List (State × Tx)} {s₀ s₁ s : State} (hr : Reachable env h₀ s₀)
      (hcreate : Submitted env
        (createOrder server now side.role (side.newOrder params timestamp)) s₀ true s₁)
      (hrun : Run (Accepted env) s₁ h s)
      (hfresh : ∀ e ∈ h, e.2.proposes ≠ some (side.proposalId timestamp)) :
      Placed env server side params timestamp now s

/-- What the ledger keeps of an order, whatever was exchanged. -/
structure Kept (side : Side) (params : Params) (timestamp : Nat) (issuer : String)
    (own : Proposal) : Prop where
  proposalId : own.proposalId = side.proposalId timestamp
  issued : own.issuingParticipant = issuer
  amount : own.dgCoinAmount = (side.newOrder params timestamp).dgCoinAmount.getD 0
  quote : own.currencyQuoteAmount = (side.newOrder params timestamp).currencyQuoteAmount.getD 0

/-- The open proposals that an order can trade with. -/
structure Counter (side : Side) (order : Offer) (own : Proposal) (L : Ledger) (c : Proposal) :
    Prop where
  stored : ∃ c', L.proposal c.proposalId = some c' ∧ c'.toObject = c
  role : c.role = side.other.role
  status : c.status = .OPEN
  currency : order.currencyIsoCodes = some c.currencyIsoCodes
  crosses : side.crosses c.rate own.rate = true

section Markets

variable {env : Env} {server : ServerEnv} {side : Side} {params : Params} {timestamp now : Nat}
variable {s : State} {L : Ledger} {own counter : Db} {n : Nat} {arrived : Bool} {order : Offer}
variable {c o : Proposal}

theorem Placed.kept (h : Placed env server side params timestamp now s) :
    ∃ o, (ledger env s).proposal (side.proposalId timestamp) = some o ∧
      Kept side params timestamp (server.publicKey (side.newOrder params timestamp).privateKey)
        o := by
  obtain ⟨hr,hcreate,hrun,hfresh⟩ := h
  cases hcreate with
  | accepted happly =>
    obtain ⟨tx,htx,hacc⟩ := accepted_of_apply happly
    obtain rfl := tx_createProposal htx
    obtain ⟨hnew,_⟩ := created_offer (accepted_refines (reachable_refines hr).1 hacc).2
    dsimp only at hnew
    rw [newOrder_ids.1] at hnew
    obtain ⟨o,ho,hsame⟩ := reachable_offer_kept (hr.snoc hacc) hrun hfresh hnew
    rw [Ledger.SameOffer] at hsame
    refine ⟨o,ho,?_,?_,?_,?_⟩
    · rw [hsame]; rfl
    · rw [hsame]; rfl
    · rw [hsame]; rfl
    · rw [hsame]; rfl

theorem mem_counters (hm : Mirrors L counter n) : c ∈ side.counters order counter ↔
    (∃ c', L.proposal c.proposalId = some c' ∧ c'.toObject = c) ∧ c.role = side.other.role ∧
      c.status = .OPEN ∧ order.currencyIsoCodes = some c.currencyIsoCodes := by
  rw [Side.counters]
  cases order.currencyIsoCodes with
  | none => simp
  | some currency =>
    rw [Option.bind_some,retrieve,hm.block,Option.map_some,Option.getD_some,List.mem_filter,
      hm.mem_proposals,decide_eq_true_iff,Option.some.injEq,eq_comm (a := currency)]

theorem distinct_counters (hm : Mirrors L counter n) :
    Distinct Proposal.proposalId (side.counters order counter) := by
  have hobjects : Distinct Proposal.proposalId
      (objects Entry.toProposal .proposals n counter) :=
    hm.distinct_by toProposal_iff .proposalId fun _ => rfl
  rw [Side.counters]
  cases order.currencyIsoCodes with
  | none => exact List.nodup_nil
  | some currency =>
    rw [Option.bind_some,retrieve,hm.block,Option.map_some,Option.getD_some]
    exact hobjects.sublist (List.filter_sublist.map Proposal.proposalId)

theorem market_docs (hm : Mirrors L own n)
    (ho : L.proposal (side.proposalId timestamp) = some o)
    (hid : o.proposalId = side.proposalId timestamp) :
    (side.market params timestamp own counter arrived).tasks.map (fun x => x.found.doc) =
      side.matched o arrived (side.counters (side.newOrder params timestamp) counter) := by
  rw [Side.market,retrieve_mirrors hm ho hid]
  exact trade_docs

/-- An order is matched with every open proposal of the other side in its currency whose rate
crosses, once, as long as it has something left and its own document arrives in time. -/
theorem order_matched {m : Nat} (hp : Placed env server side params timestamp now s)
    (hown : Mirrors (ledger env s) own m) (hcounter : Mirrors L counter n) :
    ∃ o, (ledger env s).proposal (side.proposalId timestamp) = some o ∧
      Kept side params timestamp (server.publicKey (side.newOrder params timestamp).privateKey) o ∧
      ∀ arrived,
        Distinct (fun x : Task => x.found.doc.proposalId)
          (side.market params timestamp own counter arrived).tasks ∧
        ∀ c, (∃ x ∈ (side.market params timestamp own counter arrived).tasks, x.found.doc = c) ↔
          arrived = true ∧ 0 < o.balance ∧ Counter side (side.newOrder params timestamp) o L c := by
  obtain ⟨o,ho,hkept⟩ := hp.kept
  refine ⟨o,ho,hkept,fun arrived => ?_⟩
  have hdocs := @market_docs _ params _ _ _ counter _ arrived _ hown ho hkept.proposalId
  constructor
  · have hdistinct : Distinct Proposal.proposalId (side.matched o arrived
        (side.counters (side.newOrder params timestamp) counter)) := by
      rw [Side.matched]
      split
      · exact (distinct_counters hcounter).sublist (List.filter_sublist.map Proposal.proposalId)
      · exact List.nodup_nil
    rwa [← hdocs,Distinct,List.map_map] at hdistinct
  · intro c
    rw [← List.mem_map (f := fun x : Task => x.found.doc),hdocs,Side.matched]
    cases arrived with
    | false => simp
    | true =>
      rw [if_pos rfl,List.mem_filter,mem_counters hcounter,decide_eq_true_iff,
        and_iff_right rfl]
      constructor
      · rintro ⟨⟨hstored,hrole,hstatus,hcurrency⟩,hcrosses,hpos⟩
        exact ⟨hpos,hstored,hrole,hstatus,hcurrency,hcrosses⟩
      · rintro ⟨hpos,hc⟩
        exact ⟨⟨hc.stored,hc.role,hc.status,hc.currency⟩,hc.crosses,hpos⟩

end Markets

namespace Sample
open DgcRestApi.Sample

/-- The second participant has a credit, and the first one wants to buy. -/
def demand : List TpProcessRequest :=
  credited ++ [buyDGCoin server 7 (Side.buy.newOrder (params "A") 7)]

/-- Then the second one wants to sell. -/
def sell : TpProcessRequest := sellDGCoin server 8 (Side.sell.newOrder (params "B") 8)

def supplied : State := next sell (after demand)

theorem demand_valid : Valid demand := by decide +kernel

theorem apply_sell : apply env orders sell (after demand) = .ok supplied :=
  next_eq (by decide +kernel)

theorem supplied_selling : (ledger env supplied).proposal "sellDGC8" = some selling := by
  decide +kernel

theorem supplied_buying : (ledger env supplied).proposal "buyDGC7" = some buying := by
  decide +kernel

theorem counter_buying :
    Counter .sell (Side.sell.newOrder (params "B") 8) selling (ledger env supplied) buying where
  stored := ⟨buying,supplied_buying,rfl⟩
  role := rfl
  status := rfl
  currency := by decide +kernel
  crosses := by decide +kernel

end Sample

theorem order_matched_sample : ∃ (db : Db) (x : Task),
    x ∈ (Side.market .sell (Sample.params "B") 8 db db true).tasks ∧
      x.found.doc = Sample.buying := by
  obtain ⟨h,hr,_⟩ := DgcRestApi.Sample.reachable Sample.demand_valid
  obtain ⟨tx,_,hacc⟩ := accepted_of_apply Sample.apply_sell
  obtain ⟨db,hm⟩ := exists_mirror (hr.snoc hacc) (n := 1) (by decide)
  obtain ⟨o,ho,_,hmatched⟩ := order_matched (.intro hr (.accepted Sample.apply_sell) .nil
    (List.forall_mem_nil _)) hm hm
  obtain rfl := Option.some.inj (Sample.supplied_selling.symm.trans ho)
  obtain ⟨x,hx,hdoc⟩ := ((hmatched true).2 Sample.buying).mpr
    ⟨rfl,by decide +kernel,Sample.counter_buying⟩
  exact ⟨db,x,hx,hdoc⟩

end DgcRestApi.Server
