import DgcRestApi.Server.Trades
import Mathlib.Algebra.BigOperators.Group.List.Basic
import Mathlib.Algebra.Order.Field.Rat
import Mathlib.Tactic.Linarith

/-!
# Filling an order

The mapper tests the balance of the order before any answer has lowered it, and the second
answer of a match takes its amount from the object that all matches share. So each match is
made as if it were the only one. The order is filled as it should be in every run exactly if
that makes no difference: it has one match at most, or all its matches have the same amount
and fit together.
-/

namespace DgcRestApi.Server

/-- The amounts answered against the order. -/
def Trade.filled (t : Trade) : List ℚ :=
  t.tasks.filterMap fun x => x.progress.second.map Answer.amount

/-- Neither the order nor a document is filled beyond its balance, and the two answers of a
match agree. -/
structure Within (balance : ℚ) (t : Trade) : Prop where
  order : t.filled.sum ≤ balance
  doc : ∀ x ∈ t.tasks, ∀ a, x.progress.first = some a → a.amount ≤ x.found.doc.balance
  legs : ∀ x ∈ t.tasks, ∀ a b, x.progress.first = some a → x.progress.second = some b →
    b.amount = a.amount

/-- The chain of a match carries `q`: so do the answers built, and so will the others if
nothing else happens. -/
def Task.Steady (q : ℚ) (order : Offer) (x : Task) : Prop :=
  match x.progress with
  | .mapped => (x.found.resume order).dgCoinAmount = some q
  | .answered a => a.amount = q ∧ (x.found.resume order).dgCoinAmount = some q
  | .resumed a => a.amount = q ∧ order.dgCoinAmount = some q
  | .finished a b => a.amount = q ∧ b.amount = q

/-- All matches of the order have the quantity `q`, and each assigns it to the object of the
order whatever the others do, or it is alone. -/
structure Even (side : Side) (order : Offer) (balance q : ℚ) (ms : List Match) : Prop where
  found : ∀ m ∈ ms, Found side order balance m
  quantity : ∀ m ∈ ms, min balance m.doc.balance = q
  apart : ms.length ≤ 1 ∨ ∀ m ∈ ms, m.doc.balance < balance

section Steadiness

variable {side : Side} {order o : Offer} {balance q : ℚ} {ms : List Match} {m : Match}
variable {t t' : Trade} {e : TradeEvent} {x : Task}

theorem Even.resume (he : Even side order balance q ms) (hm : m ∈ ms)
    (hlt : m.doc.balance < balance) (o : Offer) : (m.resume o).dgCoinAmount = some q := by
  rw [((he.found m hm).resume_above hlt o).1,← he.quantity m hm,min_eq_right hlt.le]

/-- A task of a match that always assigns `q` stays steady when `q` is assigned. -/
theorem Task.Steady.assign (hx : x.Steady q order) (hq : o.dgCoinAmount = some q)
    (hresume : (x.found.resume o).dgCoinAmount = some q) : x.Steady q o := by
  obtain ⟨m,p⟩ := x
  cases p with
  | mapped => exact hresume
  | answered a => exact ⟨hx.1,hresume⟩
  | resumed a => exact ⟨hx.1,hq⟩
  | finished a b => exact hx

theorem Even.step (he : Even side order balance q (t.tasks.map Task.found))
    (h : ∀ x ∈ t.tasks, x.Steady q t.order) (hstep : TradeStep side t e t') :
    ∀ x ∈ t'.tasks, x.Steady q t'.order := by
  cases hstep with
  | @first before after m hs =>
    rw [hs] at h he
    obtain ⟨hm,hothers⟩ := forall_mem_middle.mp h
    have hmem : m ∈ (before ++ ⟨m,.mapped⟩ :: after).map Task.found := by simp
    have hamount : (m.firstAnswer side).amount = q :=
      (he.found m hmem).first_amount.trans (he.quantity m hmem)
    exact forall_mem_middle.mpr ⟨⟨hamount,hm⟩,hothers⟩
  | @resume before after m a hs =>
    rw [hs] at h he
    obtain ⟨hm,hothers⟩ := forall_mem_middle.mp h
    refine forall_mem_middle.mpr ⟨⟨hm.1,hm.2⟩,fun x hx => ?_⟩
    -- the other tasks see the new object, unless there are none
    rcases he.apart with hone | hall
    · have hpos := List.length_pos_of_mem hx
      simp only [List.map_append,List.map_cons,List.length_append,List.length_cons,
        List.length_map] at hone hpos
      omega
    · have hmem : x.found ∈ (before ++ ⟨m,.answered a⟩ :: after).map Task.found :=
        List.mem_map_of_mem (List.perm_middle.mem_iff.mpr (List.mem_cons_of_mem _ hx))
      exact (hothers x hx).assign hm.2 (he.resume hmem (hall _ hmem) _)
  | @second before after m a hs =>
    rw [hs] at h
    obtain ⟨hm,hothers⟩ := forall_mem_middle.mp h
    have hamount : (m.secondAnswer side t.order).amount = q :=
      (secondAnswer_for side m t.order).amount hm.2
    exact forall_mem_middle.mpr ⟨⟨hm.1,hamount⟩,hothers⟩

theorem Even.run {h : List (Trade × TradeEvent)} (he : Even side order balance q ms)
    (hms : t.tasks.map Task.found = ms) (hst : ∀ x ∈ t.tasks, x.Steady q t.order)
    (hr : Run (TradeStep side) t h t') :
    t'.tasks.map Task.found = ms ∧ ∀ x ∈ t'.tasks, x.Steady q t'.order := by
  refine hr.invariant (fun u => u.tasks.map Task.found = ms ∧ ∀ x ∈ u.tasks, x.Steady q u.order)
    (fun u _ u' hu hstep => ?_) ⟨hms,hst⟩
  exact ⟨hstep.found.trans hu.1,Even.step (hu.1 ▸ he) hu.2 hstep⟩

theorem Task.Steady.first {a : Answer} (hx : x.Steady q order) (ha : x.progress.first = some a) :
    a.amount = q := by
  obtain ⟨m,p⟩ := x
  cases p with
  | mapped => cases ha
  | answered a | resumed a | finished a b =>
    cases ha
    exact hx.1

theorem Task.Steady.second {b : Answer} (hx : x.Steady q order)
    (hb : x.progress.second = some b) : b.amount = q := by
  obtain ⟨m,p⟩ := x
  cases p with
  | mapped | answered a | resumed a => cases hb
  | finished a b =>
    cases hb
    exact hx.2

/-- Each second answer of a steady trade fills the order with `q`. -/
theorem filled_sum (h : ∀ x ∈ t.tasks, x.Steady q t.order) :
    t.filled.sum = t.filled.length * q := by
  have hall : ∀ y ∈ t.filled, y = q := by
    intro y hy
    obtain ⟨x,hx,hsecond⟩ := List.mem_filterMap.mp hy
    obtain ⟨b,hb,rfl⟩ := Option.map_eq_some_iff.mp hsecond
    exact (h x hx).second hb
  rw [List.sum_eq_card_nsmul _ q hall,nsmul_eq_mul]

theorem Even.within (he : Even side order balance q (t.tasks.map Task.found))
    (h : ∀ x ∈ t.tasks, x.Steady q t.order) (hpos : 0 ≤ balance)
    (hfit : t.tasks.length * q ≤ balance) : Within balance t := by
  refine ⟨?_,fun x hx a ha => ?_,fun x hx a b ha hb => ?_⟩
  · have hle : t.filled.length ≤ t.tasks.length := List.length_filterMap_le _ _
    rw [filled_sum h]
    rcases le_total 0 q with hq | hq
    · exact (mul_le_mul_of_nonneg_right (Nat.cast_le.mpr hle) hq).trans hfit
    · exact (mul_nonpos_of_nonneg_of_nonpos (Nat.cast_nonneg _) hq).trans hpos
  · rw [(h x hx).first ha,← he.quantity x.found (List.mem_map_of_mem hx)]
    exact min_le_right _ _
  · rw [(h x hx).second hb,(h x hx).first ha]

end Steadiness

/-- The documents that the mapper matches. -/
def Side.matched (side : Side) (own : Proposal) (arrived : Bool) (counters : List Proposal) :
    List Proposal :=
  if arrived then counters.filter fun c => side.crosses c.rate own.rate ∧ 0 < own.balance else []

/-- One document at most, or documents of one balance that fit together. -/
def Fits (balance : ℚ) (docs : List Proposal) : Prop :=
  docs.length ≤ 1 ∨ ∃ b, (∀ c ∈ docs, c.balance = b) ∧ docs.length * b ≤ balance

section Start

variable {side : Side} {params : Params} {timestamp : Nat} {own : Proposal} {arrived : Bool}
variable {counters : List Proposal} {order : Offer} {balance q : ℚ} {ms : List Match}

theorem trade_docs : (side.trade params timestamp own arrived counters).tasks.map
    (fun x => x.found.doc) = side.matched own arrived counters := by
  have hdocs : (side.trade params timestamp own arrived counters).tasks.map
      (fun x => x.found.doc) = counters.filterMap fun c => (side.matchOffer timestamp
        (side.trade params timestamp own arrived counters).order c).map Match.doc := by
    rw [← List.map_filterMap,Side.trade,List.map_map]
    rfl
  rw [hdocs,Side.matched,trade_order]
  cases arrived with
  | false =>
    refine List.filterMap_eq_nil_iff.mpr fun c _ => ?_
    rw [if_neg Bool.false_ne_true,matchOffer_eq_none newOrder_exchangeRate]
    rfl
  | true =>
    rw [if_pos rfl,if_pos rfl,← List.filterMap_eq_filter]
    refine List.filterMap_congr fun c _ => ?_
    rw [matchOffer_doc]
    simp [Option.guard]

/-- Before any step, the chain of a match carries the matched quantity. -/
theorem Found.start {m : Match} (h : Found side order balance m) :
    (m.resume order).dgCoinAmount = some (min balance m.doc.balance) := by
  rcases lt_or_ge m.doc.balance balance with hlt | hge
  · rw [(h.resume_above hlt order).1,min_eq_right hlt.le]
  · rw [(h.resume_full hge order).1,h.orderBalance,min_eq_left hge]

/-- Matches whose documents fit have one quantity. -/
theorem even_of_fits (hfound : ∀ m ∈ ms, Found side order balance m) (hpos : 0 ≤ balance)
    (hfits : Fits balance (ms.map Match.doc)) :
    ∃ q, Even side order balance q ms ∧ ms.length * q ≤ balance := by
  rw [Fits,List.length_map] at hfits
  cases ms with
  | nil => exact ⟨0,⟨hfound,List.forall_mem_nil _,Or.inl (Nat.zero_le 1)⟩,by simpa using hpos⟩
  | cons m ms =>
    have hm := hfound m List.mem_cons_self
    by_cases hone : (m :: ms).length ≤ 1
    · have hnil : ms = [] := by
        rw [← List.length_eq_zero_iff]
        rw [List.length_cons] at hone
        omega
      subst hnil
      refine ⟨_,⟨hfound,List.forall_mem_singleton.mpr rfl,Or.inl hone⟩,?_⟩
      simp
    · obtain ⟨b,hb,hfit⟩ := hfits.resolve_left hone
      have hdocs : ∀ m' ∈ m :: ms, m'.doc.balance = b := fun m' hm' =>
        hb m'.doc (List.mem_map_of_mem hm')
      have hlt : b < balance := by
        by_contra hle
        have htwo : (2 : ℚ) ≤ (m :: ms).length := by exact_mod_cast not_le.mp hone
        nlinarith [hm.pos]
      refine ⟨b,⟨hfound,fun m' hm' => ?_,Or.inr fun m' hm' => ?_⟩,hfit⟩
      · rw [hdocs m' hm',min_eq_right hlt.le]
      · rw [hdocs m' hm']
        exact hlt

end Start

section Racing

variable {side : Side} {order : Offer} {balance q : ℚ} {s t : Trade} {m m' : Match}
variable {between after : List Task}

/-- Of two chains, either may assign to the object of the order after the other and before
the other builds its second answer. -/
theorem run_race (hs : s.tasks = ⟨m,.mapped⟩ :: (between ++ ⟨m',.mapped⟩ :: after)) :
    (∃ h t, Run (TradeStep side) s h t ∧ ⟨m,.finished (m.firstAnswer side)
      (m.secondAnswer side (m'.resume (m.resume s.order)))⟩ ∈ t.tasks) ∧
    ∃ h t, Run (TradeStep side) s h t ∧ ⟨m',.finished (m'.firstAnswer side)
      (m'.secondAnswer side (m.resume (m'.resume s.order)))⟩ ∈ t.tasks := by
  have hrun := (Run.nil.snoc (@TradeStep.first side s [] _ m hs)).snoc
    (@TradeStep.first side _ (_ :: between) after m' rfl)
  constructor
  · have hassigned := (hrun.snoc (@TradeStep.resume side _ [] _ m _ rfl)).snoc
      (@TradeStep.resume side _ (_ :: between) after m' _ rfl)
    exact ⟨_,_,hassigned.snoc (@TradeStep.second side _ [] _ m _ rfl),List.mem_cons_self⟩
  · have hassigned := (hrun.snoc (@TradeStep.resume side _ (_ :: between) after m' _ rfl)).snoc
      (@TradeStep.resume side _ [] _ m _ rfl)
    exact ⟨_,_,hassigned.snoc (@TradeStep.second side _ (_ :: between) after m' _ rfl),
      List.mem_append_right _ List.mem_cons_self⟩

/-- If every run fills within the balances, two matches both leave something of the order and
their documents have one balance. -/
theorem equal_of_within (hm : Found side order balance m) (hm' : Found side order balance m')
    (hs : s.tasks = ⟨m,.mapped⟩ :: (between ++ ⟨m',.mapped⟩ :: after))
    (hall : ∀ h t, Run (TradeStep side) s h t → Within balance t) :
    m.doc.balance < balance ∧ m'.doc.balance = m.doc.balance := by
  obtain ⟨⟨h₁,t₁,hr₁,hmem₁⟩,h₂,t₂,hr₂,hmem₂⟩ := run_race hs
  have hlast' := (hall h₁ t₁ hr₁).legs _ hmem₁ _ _ rfl rfl
  have hlast := (hall h₂ t₂ hr₂).legs _ hmem₂ _ _ rfl rfl
  rw [hm.first_amount,Answer.amount,(secondAnswer_for side m _).dgCoinAmount] at hlast'
  rw [hm'.first_amount,Answer.amount,(secondAnswer_for side m' _).dgCoinAmount] at hlast
  rcases lt_or_ge m.doc.balance balance with hlt | hge
  · rw [(hm.resume_above hlt _).1,Option.getD_some] at hlast
    rcases lt_or_ge m'.doc.balance balance with hlt' | hge'
    · rw [min_eq_right hlt'.le] at hlast
      exact ⟨hlt,hlast.symm⟩
    · rw [min_eq_left hge'] at hlast
      exact absurd hlast hlt.ne
  · -- `m` uses the order up, and what the other one then assigns is less
    rw [min_eq_left hge] at hlast'
    rcases lt_or_ge m'.doc.balance balance with hlt' | hge'
    · rw [(hm'.resume_above hlt' _).1,Option.getD_some] at hlast'
      exact absurd hlast' hlt'.ne
    · rw [(hm'.resume_full hge' _).1,(hm.resume_full hge _).2,Option.getD_some] at hlast'
      exact absurd hlast' hm.pos.ne

/-- Every chain can run to its end. -/
theorem run_all (ms : List Match) (done : List Task) (o : Offer) : ∃ h t,
    Run (TradeStep side) ⟨o,done ++ ms.map fun m => ⟨m,.mapped⟩⟩ h t ∧
      ∃ rest, t.tasks = done ++ rest ∧ rest.length = ms.length ∧
        ∀ x ∈ rest, x.progress.second.isSome := by
  induction ms generalizing done o with
  | nil => exact ⟨_,_,.nil,[],rfl,rfl,List.forall_mem_nil _⟩
  | cons m ms ih =>
    obtain ⟨h₁,hr₁⟩ := @run_chain side ⟨o,done ++ (m :: ms).map fun m => ⟨m,.mapped⟩⟩ done _ m rfl
    obtain ⟨h₂,t,hr₂,rest,ht,hlength,hrest⟩ := ih
      (done ++ [⟨m,.finished (m.firstAnswer side) (m.secondAnswer side (m.resume o))⟩]) (m.resume o)
    rw [List.append_assoc] at hr₂ ht
    refine ⟨_,t,hr₁.trans hr₂,_,ht,?_,List.forall_mem_cons.mpr ⟨rfl,hrest⟩⟩
    exact congrArg Nat.succ hlength

theorem Even.start {ms : List Match} (he : Even side s.order balance q ms)
    (hs : s.tasks = ms.map fun m => ⟨m,.mapped⟩) :
    s.tasks.map Task.found = ms ∧ ∀ x ∈ s.tasks, x.Steady q s.order := by
  rw [hs,List.map_map]
  refine ⟨List.map_id ms,List.forall_mem_map.mpr fun m hm => ?_⟩
  rw [← he.quantity m hm]
  exact (he.found m hm).start

/-- Matches that every run fills within the balances have documents that fit. -/
theorem fits_of_within {ms : List Match} (hfound : ∀ m ∈ ms, Found side s.order balance m)
    (hs : s.tasks = ms.map fun m => ⟨m,.mapped⟩)
    (hall : ∀ h t, Run (TradeStep side) s h t → Within balance t) :
    Fits balance (ms.map Match.doc) := by
  by_cases hone : ms.length ≤ 1
  · exact Or.inl (by rwa [List.length_map])
  · obtain ⟨m,ms,rfl⟩ : ∃ m ms', ms = m :: ms' := List.exists_cons_of_length_pos (by omega)
    have hm := hfound m List.mem_cons_self
    have hequal : ∀ m' ∈ ms, m.doc.balance < balance ∧ m'.doc.balance = m.doc.balance := by
      intro m' hm'
      obtain ⟨between,after,rfl⟩ := List.append_of_mem hm'
      rw [List.map_cons,List.map_append,List.map_cons] at hs
      exact equal_of_within hm (hfound m' (List.mem_cons_of_mem _ hm')) hs hall
    obtain ⟨m',hm'⟩ : ∃ m', m' ∈ ms := List.exists_mem_of_length_pos (by
      rw [List.length_cons] at hone
      omega)
    have hlt := (hequal m' hm').1
    have hbalance : ∀ m' ∈ m :: ms, m'.doc.balance = m.doc.balance :=
      List.forall_mem_cons.mpr ⟨rfl,fun m' hm' => (hequal m' hm').2⟩
    have he : Even side s.order balance m.doc.balance (m :: ms) :=
      ⟨hfound,fun m' hm' => by rw [hbalance m' hm',min_eq_right hlt.le],
        Or.inr fun m' hm' => by rwa [hbalance m' hm']⟩
    refine Or.inr ⟨m.doc.balance,List.forall_mem_map.mpr hbalance,?_⟩
    -- one chain after the other, the order is filled once for each match
    obtain ⟨h,t,hr,rest,ht,hlength,hrest⟩ := @run_all side (m :: ms) [] s.order
    rw [List.nil_append] at ht
    have hstart : (⟨s.order,[] ++ (m :: ms).map fun m => ⟨m,.mapped⟩⟩ : Trade) = s := by
      rw [List.nil_append,← hs]
    rw [hstart] at hr
    obtain ⟨hmatches,hsteady⟩ := he.start hs
    have hfilled : t.filled.length = (m :: ms).length := by
      rw [Trade.filled,List.length_filterMap_eq_countP,ht,← hlength,List.countP_eq_length]
      intro x hx
      rw [Option.isSome_map]
      exact hrest x hx
    have hsum := (hall h t hr).order
    rwa [filled_sum (he.run hmatches hsteady hr).2,hfilled,← List.length_map Match.doc] at hsum

/-- What the order's matches are filled with, in every run of their chains. -/
theorem within_iff {ms : List Match} (hfound : ∀ m ∈ ms, Found side s.order balance m)
    (hs : s.tasks = ms.map fun m => ⟨m,.mapped⟩) :
    (∀ h t, Run (TradeStep side) s h t → Within balance t) ↔
      0 ≤ balance ∧ Fits balance (ms.map Match.doc) := by
  constructor
  · intro hall
    have hnone : s.filled = [] := by
      rw [Trade.filled,hs,List.filterMap_eq_nil_iff]
      exact List.forall_mem_map.mpr fun _ _ => rfl
    have hsum := (hall [] s .nil).order
    rw [hnone] at hsum
    exact ⟨hsum,fits_of_within hfound hs hall⟩
  · rintro ⟨hpos,hfits⟩ h t hr
    obtain ⟨q,he,hfit⟩ := even_of_fits hfound hpos hfits
    obtain ⟨hmatches,hsteady⟩ := he.start hs
    obtain ⟨hms,hsteady⟩ := he.run hmatches hsteady hr
    have hlength : t.tasks.length = ms.length := by rw [← hms,List.length_map]
    exact Even.within (hms.symm ▸ he) hsteady hpos (hlength ▸ hfit)

end Racing

/-- An order is never filled beyond its balance, whatever its chains do, exactly if its
balance is not negative and it has one match at most or matches of one balance that fit. -/
theorem orders_filled_iff (side : Side) (params : Params) (timestamp : Nat) (own : Proposal)
    (arrived : Bool) (counters : List Proposal) :
    (∀ h t, Run (TradeStep side) (side.trade params timestamp own arrived counters) h t →
      Within own.balance t) ↔
    0 ≤ own.balance ∧ Fits own.balance (side.matched own arrived counters) := by
  have hs : (side.trade params timestamp own arrived counters).tasks =
      (counters.filterMap (side.matchOffer timestamp
        (side.trade params timestamp own arrived counters).order)).map fun m => ⟨m,.mapped⟩ := rfl
  rw [within_iff (fun m hm => mem_trade (List.mem_map_of_mem hm)) hs,← trade_docs,hs,
    List.map_map]
  rfl

namespace Sample

/-- An offer to buy 6 coins for 6 dollars. -/
def bid (proposalId : String) : Proposal :=
  { proposalId, role := .buyDGC, timestamp := 7, issuingParticipant := "A", dgCoinAmount := 6,
    currencyIsoCodes := "USD", currencyQuoteAmount := 6 }

/-- The new order: 10 coins for 10 dollars. -/
def ask : Proposal :=
  { proposalId := "sellDGC8", role := .sellDGC, timestamp := 8, issuingParticipant := "B",
    dgCoinAmount := 10, currencyIsoCodes := "USD", currencyQuoteAmount := 10 }

/-- Two such offers are found. -/
def contested : Trade :=
  sellDGCoinProposal ⟨"B",[("DGC",10),("USD",10)]⟩ 8 ask true [bid "x",bid "y"]

def bidding (proposalId : String) : Match :=
  { branch := .above
    doc := bid proposalId
    counter := ⟨proposalId,"B",some 6,some "USD",some 6,some (.finite 1),some 6,
      [⟨8,proposalId,"sellDGC8","USD",some 6,some (.finite 6)⟩]⟩
    exchange := ⟨8,proposalId,"sellDGC8","USD",none,none⟩
    exchangeRate := .finite 1 }

theorem contested_tasks :
    contested.tasks = [⟨bidding "x",.mapped⟩,⟨bidding "y",.mapped⟩] := by decide +kernel

def finished (proposalId : String) (order : Offer) : Task :=
  ⟨bidding proposalId,.finished ((bidding proposalId).firstAnswer .sell)
    ((bidding proposalId).secondAnswer .sell ((bidding proposalId).resume order))⟩

/-- The first match is settled. -/
def partly : Trade :=
  ⟨(bidding "x").resume contested.order,[finished "x" contested.order,⟨bidding "y",.mapped⟩]⟩

/-- Both are. -/
def overfilled : Trade :=
  ⟨(bidding "y").resume partly.order,[finished "x" contested.order,finished "y" partly.order]⟩

end Sample

/-- Both offers are matched with the whole order, which is filled with 12 of its 10 coins. -/
theorem order_overfilled : ∃ h, Run (TradeStep .sell) Sample.contested h Sample.overfilled ∧
    Sample.ask.balance = 10 ∧ Sample.overfilled.filled = [6,6] ∧
    ¬Within Sample.ask.balance Sample.overfilled := by
  obtain ⟨h₁,hr₁⟩ := @run_chain .sell Sample.contested [] _ _ Sample.contested_tasks
  obtain ⟨h₂,hr₂⟩ := @run_chain .sell Sample.partly [_] [] (Sample.bidding "y") rfl
  have hbalance : Sample.ask.balance = 10 := by decide +kernel
  have hfilled : Sample.overfilled.filled = [6,6] := by decide +kernel
  refine ⟨_,hr₁.trans hr₂,hbalance,hfilled,fun hw => ?_⟩
  have hsum := hw.order
  rw [hbalance,hfilled] at hsum
  norm_num at hsum

end DgcRestApi.Server
