import DgcRestApi.Ledger.Coins
import Mathlib.Tactic.Linarith

/-!
# Buying and selling

An auto answer with a buy or sell role changes the balance of its signer and raises the
exchanged amount of the proposal it names, of whatever role and status. `Fillable` is what it
would have to check; without it the exchanged amounts have no bounds.
-/

namespace DgcRestApi

/-- The role is about coins offered to everyone. -/
def Role.OnTrade (role : Role) : Prop := role = .buyDGC ∨ role = .sellDGC

/-- The answer fills a buy or sell proposal. -/
structure Fills (a : AnswerProposalAction) : Prop where
  response : a.response = .autoOPEN ∨ a.response = .autoCLOSE
  role : a.role.OnTrade

/-- What the answer adds to a balance. -/
def AnswerProposalAction.gain (a : AnswerProposalAction) : ℚ :=
  if a.role = .sellDGC then -a.dgCoinAmount else a.dgCoinAmount

/-- The stored proposal and the signer as the answer presumes them. -/
structure Fillable (c : Proposal) (signer : String) (a : AnswerProposalAction) : Prop where
  role : c.role = a.role
  status : c.status = .OPEN
  issuer : c.issuingParticipant = signer ∨ a.dgCoinAmount = 0
  lower : 0 ≤ c.dgCoinExchanged + a.dgCoinAmount
  upper : c.dgCoinExchanged + a.dgCoinAmount ≤ c.dgCoinAmount
  response : a.response = .autoCLOSE ↔ c.dgCoinExchanged + a.dgCoinAmount = c.dgCoinAmount

namespace Ledger

/-- The answer filled the proposal `c`, which is now `c'`, for its issuer. -/
structure Filled (a : AnswerProposalAction) (c c' : Proposal) (L L' : Ledger) : Prop where
  role : c.role = a.role
  status : c.status = .OPEN
  balances : L'.balanceOf = Function.update L.balanceOf c.issuingParticipant
    (L.balanceOf c.issuingParticipant + a.gain)
  lower : 0 ≤ c'.dgCoinExchanged
  upper : c'.dgCoinExchanged ≤ c'.dgCoinAmount
  closed : c'.status = .CLOSED ↔ c'.dgCoinExchanged = c'.dgCoinAmount

variable {range : String → Address} {L L' : Ledger} {tx : Tx} {signer : String} {ts : Nat}
variable {a : AnswerProposalAction} {c : Proposal} {h : List (Ledger × Tx)}

theorem step_fills (ha : Fills a) (hstep : Step range L ⟨signer,ts,.AnswerProposal a⟩ L') :
    ∃ c i status, Answers L signer a c i ∧ autoStatus a.response = some status ∧
      L' = L.fill a c i signer ts status (i.balance + a.gain) := by
  cases hstep with
  | autoBuy h hresp hrole =>
    exact ⟨_,_,_,h,hresp,by simp [AnswerProposalAction.gain,hrole]⟩
  | autoSell h hresp hrole =>
    exact ⟨_,_,_,h,hresp,by simp [AnswerProposalAction.gain,hrole,sub_eq_add_neg]⟩
  | autoIdle _ _ hbuy hsell => exact (ha.role.elim hbuy hsell).elim
  | cancel _ hresp | reject _ hresp =>
    rcases ha.response with h | h <;> exact nomatch hresp.symm.trans h
  | acceptIdle h | acceptCredit h | acceptTransfer h | acceptOwnership h | acceptCustodianship h
  | acceptReporter h =>
    rcases ha.response with hresp | hresp <;> exact nomatch h.response.symm.trans hresp

/-- A gain counted for one key is one for another only if the keys are the same or it is 0. -/
theorem update_add_eq_iff {f : String → ℚ} {k k' : String} {x : ℚ} :
    Function.update f k (f k + x) = Function.update f k' (f k' + x) ↔ k' = k ∨ x = 0 := by
  constructor
  · intro heq
    by_cases hk : k' = k
    · exact Or.inl hk
    · have hat := congrFun heq k
      rw [Function.update_self,Function.update_of_ne (Ne.symm hk)] at hat
      exact Or.inr (add_eq_left.mp hat)
  · rintro (rfl | rfl)
    · rfl
    · simp

theorem Step.filled_iff (ha : Fills a) (hc : L.proposal a.proposalId = some c)
    (hstep : Step range L ⟨signer,ts,.AnswerProposal a⟩ L') :
    (∃ c', L'.proposal a.proposalId = some c' ∧ Filled a c c' L L') ↔ Fillable c signer a := by
  obtain ⟨c₁,i,status,hans,hstatus,rfl⟩ := step_fills ha hstep
  obtain rfl := Option.some.inj (hc.symm.trans hans.proposal)
  have hbalances : (L.fill a c i signer ts status (i.balance + a.gain)).balanceOf =
      Function.update L.balanceOf signer (L.balanceOf signer + a.gain) := by
    rw [balanceOf_update (fill_participant ..),Participant.pay_balance,
      balanceOf_eq hans.registered]
  have hgain : a.gain = 0 ↔ a.dgCoinAmount = 0 := by
    by_cases hsell : a.role = .sellDGC <;> simp [AnswerProposalAction.gain,hsell]
  have hclosed : status = .CLOSED ↔ a.response = .autoCLOSE := by
    rcases autoStatus_eq_some.mp hstatus with ⟨h,rfl⟩ | ⟨h,rfl⟩ <;> simp [h]
  rw [fill_proposal,Function.update_self]
  -- only the issuer's part is not the same condition on both sides
  constructor
  · rintro ⟨c',hc',hf⟩
    obtain rfl := Option.some.inj hc'
    refine ⟨hf.role,hf.status,?_,hf.lower,hf.upper,hclosed.symm.trans hf.closed⟩
    have hb := hf.balances
    rw [hbalances,update_add_eq_iff] at hb
    exact hb.imp_right hgain.mp
  · intro hf
    refine ⟨_,rfl,hf.role,hf.status,?_,hf.lower,hf.upper,hclosed.trans hf.response⟩
    rw [hbalances,update_add_eq_iff]
    exact hf.issuer.imp_right hgain.mpr

/-- Every buy and sell proposal is filled between nothing and its amount. -/
def Bounded (L : Ledger) : Prop :=
  ∀ x c, L.proposal x = some c → c.role.OnTrade →
    0 ≤ c.dgCoinExchanged ∧ c.dgCoinExchanged ≤ c.dgCoinAmount

/-- The step does not fill a proposal, or it fills the one it names as it should. -/
def FillsKept (e : Ledger × Tx × Ledger) : Prop :=
  ∀ a, e.2.1.action = .AnswerProposal a → Fills a → ∃ c c',
    e.1.proposal a.proposalId = some c ∧ e.2.2.proposal a.proposalId = some c' ∧
      Filled a c c' e.1 e.2.2

def FillsFairly (e : Ledger × Tx) : Prop :=
  ∀ a, e.2.action = .AnswerProposal a → Fills a → ∃ c, e.1.proposal a.proposalId = some c ∧
    Fillable c e.2.signer a

/-- No buy or sell proposal is created with a negative amount. -/
def OffersFairly (tx : Tx) : Prop :=
  ∀ a, tx.action = .CreateProposal a → a.role.OnTrade → 0 ≤ a.dgCoinAmount

theorem Step.fillsKept_iff (hstep : Step range L tx L') :
    FillsKept (L,tx,L') ↔ FillsFairly (L,tx) := by
  obtain ⟨signer,ts,action⟩ := tx
  constructor
  · rintro hk a ha hfills
    obtain rfl : action = .AnswerProposal a := ha
    obtain ⟨c,c',hc,hc',hf⟩ := hk a rfl hfills
    exact ⟨c,hc,(hstep.filled_iff hfills hc).mp ⟨c',hc',hf⟩⟩
  · rintro hf a ha hfills
    obtain rfl : action = .AnswerProposal a := ha
    obtain ⟨c,hc,hfillable⟩ := hf a rfl hfills
    obtain ⟨c',hc',hfilled⟩ := (hstep.filled_iff hfills hc).mpr hfillable
    exact ⟨c,c',hc,hc',hfilled⟩

/-- An answer changes the exchanged amount only by filling, and never the amount. -/
theorem answered_amounts (c : Proposal) (a : AnswerProposalAction) :
    (answered c a).role = c.role ∧ (answered c a).dgCoinAmount = c.dgCoinAmount ∧
      (Fills a ∧ (answered c a).dgCoinExchanged = c.dgCoinExchanged + a.dgCoinAmount ∨
        (answered c a).dgCoinExchanged = c.dgCoinExchanged) := by
  unfold answered
  cases hresp : a.response with
  | CANCEL | REJECT => exact ⟨rfl,rfl,Or.inr rfl⟩
  | autoOPEN | autoCLOSE =>
    dsimp only
    by_cases hrole : a.role = .buyDGC ∨ a.role = .sellDGC
    · rw [if_pos hrole]
      exact ⟨rfl,rfl,Or.inl ⟨⟨by simp [hresp],hrole⟩,rfl⟩⟩
    · rw [if_neg hrole]
      exact ⟨rfl,rfl,Or.inr rfl⟩
  | ACCEPT =>
    refine ⟨?_,?_,Or.inr ?_⟩
    all_goals
      dsimp only
      split <;> rfl

theorem Step.bounded_iff (hb : Bounded L) (hfair : FillsFairly (L,tx))
    (hstep : Step range L tx L') : Bounded L' ↔ OffersFairly tx := by
  rcases hstep.proposal_cases with ⟨a,ha,hL'⟩ | ⟨a,c,ha,hc,hL'⟩ | ⟨hcreate,_,hL'⟩
  · constructor
    · intro hb' b hb₁ htrade
      obtain rfl := Action.CreateProposal.inj (ha.symm.trans hb₁)
      have hnew := hb' a.proposalId (newProposal a tx.signer tx.timestamp)
        (by rw [hL',Function.update_self]) htrade
      exact hnew.2
    · intro hoffers x c hc htrade
      rw [hL'] at hc
      rcases update_eq_some.mp hc with ⟨_,rfl⟩ | ⟨_,hc⟩
      · exact ⟨le_rfl,hoffers a ha htrade⟩
      · exact hb x c hc htrade
  · refine ⟨fun _ b hb' => (nomatch ha.symm.trans hb'),fun _ x c' hc' htrade => ?_⟩
    rw [hL'] at hc'
    rcases update_eq_some.mp hc' with ⟨_,rfl⟩ | ⟨_,hc'⟩
    · obtain ⟨hrole,hamount,⟨hfills,hexchanged⟩ | hexchanged⟩ := answered_amounts c a
      · -- a fair filling is bounded by itself, whatever was there before
        obtain ⟨c₁,hc₁,hf⟩ := hfair a ha hfills
        obtain rfl := Option.some.inj (hc.symm.trans hc₁)
        rw [hexchanged,hamount]
        exact ⟨hf.lower,hf.upper⟩
      · rw [hexchanged,hamount]
        exact hb _ c hc (hrole ▸ htrade)
    · exact hb x c' hc' htrade
  · refine ⟨fun _ b hb' => absurd hb' (hcreate b),fun _ => ?_⟩
    rw [Bounded,hL']
    exact hb

/-- Trades fill what they name, and no further than its amount. -/
structure TradesKept {σ : Type} (view : σ → Ledger) (h : List (σ × Tx)) (s : σ) : Prop where
  filled : ∀ e ∈ Run.steps h s, FillsKept (view e.1,e.2.1,view e.2.2)
  bounded : ∀ x ∈ Run.states h s, Bounded (view x)

theorem bounded_empty : Bounded empty := by
  rintro x c ⟨⟩

theorem run_bounded_iff (hr : Run (Step range) empty h L) (hfair : ∀ e ∈ h, FillsFairly e) :
    (∀ M ∈ Run.states h L, Bounded M) ↔ ∀ e ∈ h, OffersFairly e.2 :=
  Run.states_iff Bounded (fun e => OffersFairly e.2)
    (fun _ _ _ hb hstep => hstep.1.bounded_iff hb hstep.2) bounded_empty
      (hr.restrict FillsFairly hfair)

end Ledger

theorem trades_kept_iff {env : Env} {h : List (State × Tx)} {s : State}
    (hr : Reachable env h s) : Ledger.TradesKept (ledger env) h s ↔
      ∀ e ∈ h, Ledger.FillsFairly (ledger env e.1,e.2) ∧ Ledger.OffersFairly e.2 := by
  have hrun := (reachable_refines hr).2
  have hfilled := Run.steps_iff Ledger.FillsKept Ledger.FillsFairly
    (fun _ _ _ hstep => hstep.fillsKept_iff) hrun
  rw [forall_ledgers,steps_ledgers,List.forall_mem_map] at hfilled
  have hbounded := fun hfair => Ledger.run_bounded_iff hrun (forall_ledgers.mpr hfair)
  simp only [forall_ledgers,states_ledgers,List.forall_mem_map] at hbounded
  constructor
  · intro hk e he
    have hfair := hfilled.mp hk.filled
    exact ⟨hfair e he,(hbounded hfair).mp hk.bounded e he⟩
  · intro hfair
    exact ⟨hfilled.mpr fun e he => (hfair e he).1,
      (hbounded fun e he => (hfair e he).1).mpr fun e he => (hfair e he).2⟩

/-- The first participant proposes to buy 10 coins. -/
def Sample.buying : List TpProcessRequest :=
  [propose "A" 5 { proposalId := "x", role := .buyDGC, dgCoinAmount := 10 }]

/-- An answer to it. -/
def Sample.filling (response : Response) (dgCoinAmount : ℚ) : AnswerProposalAction :=
  { proposalId := "x", role := .buyDGC, response, dgCoinAmount }

/-- The amount of the proposal that a transaction creates. -/
def Tx.offers (tx : Tx) : Option ℚ :=
  match tx.action with
  | .CreateProposal a => some a.dgCoinAmount
  | _ => none

theorem trades_kept_sample : ∃ h, Ledger.TradesKept (ledger Sample.env)
    ((Sample.after Sample.buying,⟨"A",6,.AnswerProposal (Sample.filling .autoCLOSE 10)⟩) :: h)
    (Sample.next (Sample.answer "A" 6 (Sample.filling .autoCLOSE 10))
      (Sample.after Sample.buying)) := by
  have hok : Sample.Valid Sample.buying := by decide +kernel
  obtain ⟨h,hr,hmap⟩ := Sample.reachable hok
  have hacc := Sample.accepted_answer "A" 6 (Sample.filling .autoCLOSE 10)
    (Sample.after Sample.buying) (by decide +kernel)
  obtain ⟨c,hc,hfields⟩ := Option.map_eq_some_iff.mp (show
    ((ledger Sample.env (Sample.after Sample.buying)).proposal "x").map
      (fun c => (c.role,c.status,c.issuingParticipant,c.dgCoinExchanged,c.dgCoinAmount)) =
        some (.buyDGC,.OPEN,"A",0,10) by decide +kernel)
  obtain ⟨hrole,hstatus,hissuer,hexchanged,hamount⟩ : c.role = .buyDGC ∧ c.status = .OPEN ∧
      c.issuingParticipant = "A" ∧ c.dgCoinExchanged = 0 ∧ c.dgCoinAmount = 10 := by
    simpa using hfields
  have hsum : c.dgCoinExchanged + (Sample.filling .autoCLOSE 10).dgCoinAmount = 10 := by
    rw [hexchanged,zero_add]
    rfl
  refine ⟨h,(trades_kept_iff (.snoc hr hacc)).mpr (List.forall_mem_cons.mpr
    ⟨⟨fun a ha _ => ?_,fun a ha => nomatch ha⟩,fun e he => ⟨fun a ha => ?_,fun a ha _ => ?_⟩⟩)⟩
  · dsimp only at ha ⊢
    obtain rfl := Action.AnswerProposal.inj ha
    refine ⟨c,hc,hrole,hstatus,Or.inl hissuer,?_,?_,?_⟩
    · rw [hsum]
      norm_num
    · rw [hsum,hamount]
    · rw [hsum,hamount]
      exact ⟨fun _ => rfl,fun _ => rfl⟩
  · exact absurd ha (not_answered hmap (by decide +kernel) he a)
  · have hmem : a.dgCoinAmount ∈ h.filterMap fun e => e.2.offers :=
      List.mem_filterMap.mpr ⟨e,he,by rw [Tx.offers,ha]⟩
    rw [filterMap_history hmap Tx.offers,show (Sample.base ++ Sample.buying).filterMap
      (fun r => r.tx?.bind Tx.offers) = [10] by decide +kernel] at hmem
    rw [List.mem_singleton.mp hmem]
    norm_num

/-- The second participant fills the proposal of the first with 50 coins, for itself. -/
theorem trade_overfilled : ∃ h c,
    Reachable Sample.env
      ((Sample.after Sample.buying,⟨"B",6,.AnswerProposal (Sample.filling .autoOPEN 50)⟩) :: h)
      (Sample.next (Sample.answer "B" 6 (Sample.filling .autoOPEN 50))
        (Sample.after Sample.buying)) ∧
    (ledger Sample.env (Sample.next (Sample.answer "B" 6 (Sample.filling .autoOPEN 50))
      (Sample.after Sample.buying))).proposal "x" = some c ∧
    c.role = .buyDGC ∧ c.issuingParticipant = "A" ∧ c.dgCoinExchanged = 50 ∧
    c.dgCoinAmount = 10 ∧
    (ledger Sample.env (Sample.next (Sample.answer "B" 6 (Sample.filling .autoOPEN 50))
      (Sample.after Sample.buying))).balanceOf "B" = 50 ∧
    ¬ Ledger.TradesKept (ledger Sample.env)
      ((Sample.after Sample.buying,⟨"B",6,.AnswerProposal (Sample.filling .autoOPEN 50)⟩) :: h)
      (Sample.next (Sample.answer "B" 6 (Sample.filling .autoOPEN 50))
        (Sample.after Sample.buying)) := by
  have hok : Sample.Valid Sample.buying := by decide +kernel
  obtain ⟨h,hr,_⟩ := Sample.reachable hok
  have hacc := Sample.accepted_answer "B" 6 (Sample.filling .autoOPEN 50)
    (Sample.after Sample.buying) (by decide +kernel)
  obtain ⟨c,hc,hfields⟩ := Option.map_eq_some_iff.mp (show
    ((ledger Sample.env (Sample.next (Sample.answer "B" 6 (Sample.filling .autoOPEN 50))
      (Sample.after Sample.buying))).proposal "x").map
        (fun c => (c.role,c.issuingParticipant,c.dgCoinExchanged,c.dgCoinAmount)) =
          some (.buyDGC,"A",50,10) by decide +kernel)
  obtain ⟨hrole,hissuer,hexchanged,hamount⟩ : c.role = .buyDGC ∧ c.issuingParticipant = "A" ∧
      c.dgCoinExchanged = 50 ∧ c.dgCoinAmount = 10 := by simpa using hfields
  refine ⟨h,c,.snoc hr hacc,hc,hrole,hissuer,hexchanged,hamount,by decide +kernel,fun hk => ?_⟩
  have hbound := (hk.bounded _ List.mem_cons_self "x" c hc (Or.inl hrole)).2
  rw [hexchanged,hamount] at hbound
  norm_num at hbound

end DgcRestApi
