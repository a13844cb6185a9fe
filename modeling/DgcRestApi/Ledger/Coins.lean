import DgcRestApi.Ledger.Execution
import Mathlib.Algebra.BigOperators.Group.Finset.Basic

/-!
# Transfers of coins

The payer of a transfer is the signer of the answer, and the receiver of the proposal is the
only one who may sign it. So the payer is also the one who is paid, and of the two balances
written for one participant the second stays.
-/

namespace DgcRestApi
namespace Ledger

/-- The latest balance under a key, 0 for a key that is not registered. -/
def balanceOf (L : Ledger) (k : String) : ℚ :=
  match L.participant k with
  | some p => p.balance
  | none => 0

/-- The latest credit under a key. -/
def creditOf (L : Ledger) (k : String) : ℚ :=
  match L.participant k with
  | some p => p.credit
  | none => 0

variable {range : String → Address} {L L' : Ledger} {tx : Tx} {signer k : String} {ts : Nat}
variable {a : AnswerProposalAction} {c : Proposal} {i p : Participant}

theorem balanceOf_eq (h : L.participant k = some p) : L.balanceOf k = p.balance := by
  rw [balanceOf,h]

theorem creditOf_eq (h : L.participant k = some p) : L.creditOf k = p.credit := by
  rw [creditOf,h]

theorem balanceOf_update (h : L'.participant = Function.update L.participant k (some p)) :
    L'.balanceOf = Function.update L.balanceOf k p.balance := by
  funext k'
  by_cases hk : k' = k
  · subst hk
    rw [Function.update_self,balanceOf,h,Function.update_self]
  · rw [Function.update_of_ne hk,balanceOf,h,Function.update_of_ne hk,balanceOf]

theorem creditOf_update (h : L'.participant = Function.update L.participant k (some p)) :
    L'.creditOf = Function.update L.creditOf k p.credit := by
  funext k'
  by_cases hk : k' = k
  · subst hk
    rw [Function.update_self,creditOf,h,Function.update_self]
  · rw [Function.update_of_ne hk,creditOf,h,Function.update_of_ne hk,creditOf]

/-- A transfer debits the signer and then writes the receiver, read before. -/
theorem transfer_balanceOf (hi : L.participant signer = some i)
    (hp : L.participant a.receivingParticipant = some p) :
    (L.transfer a c i p signer ts).balanceOf =
      Function.update (Function.update L.balanceOf signer (L.balanceOf signer - a.dgCoinAmount))
        a.receivingParticipant (L.balanceOf a.receivingParticipant + a.dgCoinAmount) := by
  have hfirst : (L.setParticipant signer
      (i.pay a.proposalId ts (i.balance - a.dgCoinAmount))).balanceOf =
        Function.update L.balanceOf signer (L.balanceOf signer - a.dgCoinAmount) := by
    rw [balanceOf_update rfl,Participant.pay_balance,balanceOf_eq hi]
  rw [balanceOf_eq hp,← hfirst,balanceOf_update (L := L.setParticipant _ _)
    (transfer_participant ..),Participant.pay_balance]

/-- The amount goes from the issuer to the receiver; nothing else moves, so the sum over any
keys that include the registered ones stays. -/
structure Moves (issuer receiver : String) (amount : ℚ) (L L' : Ledger) : Prop where
  paid : issuer ≠ receiver → L'.balanceOf issuer = L.balanceOf issuer - amount ∧
    L'.balanceOf receiver = L.balanceOf receiver + amount
  same : issuer = receiver → L'.balanceOf issuer = L.balanceOf issuer
  others : ∀ k, k ≠ issuer → k ≠ receiver → L'.balanceOf k = L.balanceOf k
  conserved : ∀ keys : Finset String, (∀ k, L.Registered k → k ∈ keys) →
    ∑ k ∈ keys, L'.balanceOf k = ∑ k ∈ keys, L.balanceOf k

/-- What an accepted transfer does to balances when the payload names the stored receiver. -/
theorem Step.transfer_balanceOf (hresp : a.response = .ACCEPT) (hrole : a.role = .transferDGC)
    (hc : L.proposal a.proposalId = some c)
    (hreceiver : a.receivingParticipant = c.receivingParticipant)
    (hstep : Step range L ⟨signer,ts,.AnswerProposal a⟩ L') :
    L.Registered c.receivingParticipant ∧ L'.balanceOf = Function.update L.balanceOf
      c.receivingParticipant (L.balanceOf c.receivingParticipant + a.dgCoinAmount) := by
  obtain ⟨c₁,i,p,hacc,heff⟩ := (step_accept_iff hresp).mp hstep
  obtain rfl := Option.some.inj (hc.symm.trans hacc.proposal)
  rw [hrole] at heff
  cases heff with
  | transferDGC =>
    -- the signer is the receiver, and the second write replaces the first
    refine ⟨⟨p,hreceiver ▸ hacc.participant⟩,?_⟩
    rw [Ledger.transfer_balanceOf hacc.registered hacc.participant,hreceiver,hacc.receiver,
      Function.update_idem]

/-- An accepted credit raises the credit of the participant that the payload names. -/
theorem Step.credit_creditOf (hresp : a.response = .ACCEPT) (hrole : a.role = .creditDGC)
    (hstep : Step range L ⟨signer,ts,.AnswerProposal a⟩ L') :
    L'.creditOf = Function.update L.creditOf a.receivingParticipant
        (L.creditOf a.receivingParticipant + a.dgCoinAmount) ∧
      L'.balanceOf = L.balanceOf := by
  obtain ⟨c,i,p,hacc,heff⟩ := (step_accept_iff hresp).mp hstep
  have hp := hacc.participant
  rw [hrole] at heff
  cases heff with
  | creditDGC =>
    constructor
    · rw [creditOf_eq hp,← p.lend_credit a.proposalId ts]
      exact creditOf_update rfl
    · rw [balanceOf_update (L := L) (p := p.lend a.proposalId ts a.dgCoinAmount) rfl,
        Participant.lend_balance,← balanceOf_eq hp,Function.update_eq_self]

theorem Step.moves_iff (hresp : a.response = .ACCEPT) (hrole : a.role = .transferDGC)
    (hc : L.proposal a.proposalId = some c)
    (hreceiver : a.receivingParticipant = c.receivingParticipant)
    (hamount : a.dgCoinAmount = c.dgCoinAmount)
    (hstep : Step range L ⟨signer,ts,.AnswerProposal a⟩ L') :
    Moves c.issuingParticipant c.receivingParticipant c.dgCoinAmount L L' ↔
      c.dgCoinAmount = 0 := by
  obtain ⟨_,hL'⟩ := hstep.transfer_balanceOf hresp hrole hc hreceiver
  rw [hamount] at hL'
  constructor
  · intro hm
    by_cases hk : c.issuingParticipant = c.receivingParticipant
    · have hsame := hm.same hk
      rw [hL',hk,Function.update_self] at hsame
      exact left_eq_add.mp hsame.symm
    · have hissuer := (hm.paid hk).1
      rw [hL',Function.update_of_ne hk] at hissuer
      exact sub_eq_self.mp hissuer.symm
  · intro hzero
    have hsame : L'.balanceOf = L.balanceOf := by
      rw [hL',hzero,add_zero]
      exact Function.update_eq_self _ _
    refine ⟨fun _ => ?_,fun _ => ?_,fun k _ _ => ?_,fun keys _ => ?_⟩
    · rw [hsame,hzero,sub_zero,add_zero]
      exact ⟨rfl,rfl⟩
    · rw [hsame]
    · rw [hsame]
    · rw [hsame]

end Ledger

theorem transfer_moves_iff {env : Env} {h : List (State × Tx)} {s s' : State} {signer : String}
    {ts : Nat} {a : AnswerProposalAction} {c : Proposal} (hr : Reachable env h s)
    (hacc : Accepted env s ⟨signer,ts,.AnswerProposal a⟩ s') (hresp : a.response = .ACCEPT)
    (hrole : a.role = .transferDGC) (hc : (ledger env s).proposal a.proposalId = some c)
    (hreceiver : a.receivingParticipant = c.receivingParticipant)
    (hamount : a.dgCoinAmount = c.dgCoinAmount) :
    Ledger.Moves c.issuingParticipant c.receivingParticipant c.dgCoinAmount (ledger env s)
      (ledger env s') ↔ c.dgCoinAmount = 0 :=
  (accepted_refines (reachable_refines hr).1 hacc).2.moves_iff hresp hrole hc hreceiver hamount

/-- Both participants of the sample get 50 coins, and the first proposes to transfer some. -/
def Sample.transferring (dgCoinAmount : ℚ) : List TpProcessRequest :=
  [propose "A" 5 { proposalId := "x", role := .buyDGC, dgCoinAmount := 100 },
   answer "A" 6
    { proposalId := "x", role := .buyDGC, response := .autoOPEN, dgCoinAmount := 50 },
   answer "B" 7
    { proposalId := "x", role := .buyDGC, response := .autoOPEN, dgCoinAmount := 50 },
   propose "A" 8
    { proposalId := "y", role := .transferDGC, receivingParticipant := "B", dgCoinAmount }]

/-- The receiver accepts, repeating the amount. -/
def Sample.transferred (dgCoinAmount : ℚ) : AnswerProposalAction :=
  { proposalId := "y", role := .transferDGC, response := .ACCEPT, receivingParticipant := "B",
    dgCoinAmount }

theorem transfer_moves_sample : Ledger.Moves "A" "B" 0
    (ledger Sample.env (Sample.after (Sample.transferring 0)))
    (ledger Sample.env (Sample.next (Sample.answer "B" 9 (Sample.transferred 0))
      (Sample.after (Sample.transferring 0)))) := by
  have hok : Sample.Valid (Sample.transferring 0) := by decide +kernel
  obtain ⟨h,hr,_⟩ := Sample.reachable hok
  have hacc := Sample.accepted_answer "B" 9 (Sample.transferred 0)
    (Sample.after (Sample.transferring 0)) (by decide +kernel)
  obtain ⟨c,hc,hfields⟩ := Option.map_eq_some_iff.mp (show
    ((ledger Sample.env (Sample.after (Sample.transferring 0))).proposal "y").map
      (fun c => (c.issuingParticipant,c.receivingParticipant,c.dgCoinAmount)) =
        some ("A","B",0) by decide +kernel)
  obtain ⟨hissuer,hreceiver,hzero⟩ : c.issuingParticipant = "A" ∧ c.receivingParticipant = "B" ∧
      c.dgCoinAmount = 0 := by simpa using hfields
  have hmoves := (transfer_moves_iff hr hacc rfl rfl hc hreceiver.symm hzero.symm).mpr hzero
  rwa [hissuer,hreceiver,hzero] at hmoves

/-- Ten coins are transferred: the receiver has 60 coins, the issuer still has 50. -/
theorem transfer_makes_coins : ∃ h c,
    Reachable Sample.env h (Sample.after (Sample.transferring 10)) ∧
    Accepted Sample.env (Sample.after (Sample.transferring 10))
      ⟨"B",9,.AnswerProposal (Sample.transferred 10)⟩
      (Sample.next (Sample.answer "B" 9 (Sample.transferred 10))
        (Sample.after (Sample.transferring 10))) ∧
    (ledger Sample.env (Sample.after (Sample.transferring 10))).proposal "y" = some c ∧
    c.role = .transferDGC ∧ c.issuingParticipant = "A" ∧ c.receivingParticipant = "B" ∧
    c.dgCoinAmount = 10 ∧
    (ledger Sample.env (Sample.next (Sample.answer "B" 9 (Sample.transferred 10))
      (Sample.after (Sample.transferring 10)))).balanceOf "A" = 50 ∧
    (ledger Sample.env (Sample.next (Sample.answer "B" 9 (Sample.transferred 10))
      (Sample.after (Sample.transferring 10)))).balanceOf "B" = 60 ∧
    ¬ Ledger.Moves "A" "B" 10 (ledger Sample.env (Sample.after (Sample.transferring 10)))
      (ledger Sample.env (Sample.next (Sample.answer "B" 9 (Sample.transferred 10))
        (Sample.after (Sample.transferring 10)))) := by
  have hok : Sample.Valid (Sample.transferring 10) := by decide +kernel
  obtain ⟨h,hr,_⟩ := Sample.reachable hok
  have hacc := Sample.accepted_answer "B" 9 (Sample.transferred 10)
    (Sample.after (Sample.transferring 10)) (by decide +kernel)
  obtain ⟨c,hc,hfields⟩ := Option.map_eq_some_iff.mp (show
    ((ledger Sample.env (Sample.after (Sample.transferring 10))).proposal "y").map
      (fun c => (c.role,c.issuingParticipant,c.receivingParticipant,c.dgCoinAmount)) =
        some (.transferDGC,"A","B",10) by decide +kernel)
  obtain ⟨hrole,hissuer,hreceiver,hamount⟩ : c.role = .transferDGC ∧
      c.issuingParticipant = "A" ∧ c.receivingParticipant = "B" ∧ c.dgCoinAmount = 10 := by
    simpa using hfields
  have hbefore : (ledger Sample.env (Sample.after (Sample.transferring 10))).balanceOf "A" =
      50 := by decide +kernel
  have hafter : (ledger Sample.env (Sample.next (Sample.answer "B" 9 (Sample.transferred 10))
      (Sample.after (Sample.transferring 10)))).balanceOf "A" = 50 := by decide +kernel
  refine ⟨h,c,hr,hacc,hc,hrole,hissuer,hreceiver,hamount,hafter,by decide +kernel,fun hm => ?_⟩
  have hpaid := (hm.paid (by decide)).1
  rw [hbefore,hafter] at hpaid
  norm_num at hpaid

end DgcRestApi
