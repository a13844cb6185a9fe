import DgcRestApi.Ledger.Trades

/-!
# Credit lines

Selling is limited by balance and credit, a transfer by the balance; buying, being granted a
credit and being paid have no limit, since only a negative amount could overdraw. But amounts
have a sign, and `Funded` is the check that is missing for it.
-/

namespace DgcRestApi
namespace Ledger

variable {range : String → Address} {L L' : Ledger} {tx : Tx} {signer k : String} {ts : Nat}
variable {a : AnswerProposalAction} {p q : Participant} {h : List (Ledger × Tx)}

/-- No participant overdraws its credit line. -/
def Solvent (L : Ledger) : Prop := ∀ k p, L.participant k = some p → 0 ≤ p.balance + p.credit

/-- The participants that the answer pays, lends to or charges stay within their credit. -/
@[mk_iff]
structure Funded (L : Ledger) (signer : String) (a : AnswerProposalAction) : Prop where
  buy : a.response = .autoOPEN ∨ a.response = .autoCLOSE → a.role = .buyDGC →
    0 ≤ L.balanceOf signer + L.creditOf signer + a.dgCoinAmount
  receive : a.response = .ACCEPT → a.role.OnCoins → 0 ≤ L.balanceOf a.receivingParticipant +
    L.creditOf a.receivingParticipant + a.dgCoinAmount
  pay : a.response = .ACCEPT → a.role = .transferDGC → a.receivingParticipant ≠ signer →
    a.dgCoinAmount ≤ L.balanceOf signer + L.creditOf signer

/-- Writing one participant keeps all solvent exactly when that one is. -/
theorem solvent_update_iff (hs : Solvent L)
    (hL' : L'.participant = Function.update L.participant k (some p)) :
    Solvent L' ↔ 0 ≤ p.balance + p.credit := by
  constructor
  · exact fun h => h k p (by rw [hL',Function.update_self])
  · intro hp k' p' hp'
    rw [hL'] at hp'
    rcases update_eq_some.mp hp' with ⟨_,rfl⟩ | ⟨_,hold⟩
    · exact hp
    · exact hs k' p' hold

theorem solvent_of_participant (hs : Solvent L) (hL' : L'.participant = L.participant) :
    Solvent L' := by
  rw [Solvent,hL']
  exact hs

/-- After a transfer both are solvent: the receiver with what it gets, and the signer with what
is left if it is another participant. -/
theorem solvent_transfer_iff {c : Proposal} {i : Participant} (hs : Solvent L) :
    Solvent (L.transfer a c i p signer ts) ↔ 0 ≤ p.balance + a.dgCoinAmount + p.credit ∧
      (a.receivingParticipant ≠ signer → 0 ≤ i.balance - a.dgCoinAmount + i.credit) := by
  by_cases hk : a.receivingParticipant = signer
  · -- the second write is at the key of the first and replaces it
    have hL' : (L.transfer a c i p signer ts).participant =
        Function.update L.participant a.receivingParticipant
          (some (p.pay a.proposalId ts (p.balance + a.dgCoinAmount))) := by
      rw [transfer_participant,hk,Function.update_idem]
    rw [solvent_update_iff hs hL',Participant.pay_balance,Participant.pay_credit]
    simp [hk]
  · -- the two writes are at different keys, so both balances are found afterwards
    have hfirst : Solvent (L.setParticipant signer
        (i.pay a.proposalId ts (i.balance - a.dgCoinAmount))) ↔ _ := solvent_update_iff hs rfl
    rw [Participant.pay_balance,Participant.pay_credit] at hfirst
    constructor
    · intro hs'
      have hreceiver := hs' a.receivingParticipant _ (Function.update_self ..)
      have hsigner := hs' signer (i.pay a.proposalId ts (i.balance - a.dgCoinAmount))
        (by rw [transfer_participant,Function.update_of_ne (Ne.symm hk),Function.update_self])
      rw [Participant.pay_balance,Participant.pay_credit] at hreceiver hsigner
      exact ⟨hreceiver,fun _ => hsigner⟩
    · rintro ⟨hreceiver,hsigner⟩
      refine (solvent_update_iff (hfirst.mpr (hsigner hk)) (transfer_participant ..)).mpr ?_
      rw [Participant.pay_balance,Participant.pay_credit]
      exact hreceiver

theorem Step.answer_solvent_iff (hs : Solvent L)
    (hstep : Step range L ⟨signer,ts,.AnswerProposal a⟩ L') : Solvent L' ↔ Funded L signer a := by
  have same : ∀ {L' : Ledger}, L'.participant = L.participant → Funded L signer a →
      (Solvent L' ↔ Funded L signer a) :=
    fun hL' hf => ⟨fun _ => hf,fun _ => solvent_of_participant hs hL'⟩
  cases hstep with
  | cancel h hresp | reject h hresp => exact same rfl (by simp [funded_iff,hresp])
  | autoIdle h hresp hbuy hsell =>
    rcases autoStatus_eq_some.mp hresp with ⟨hauto,_⟩ | ⟨hauto,_⟩ <;>
      exact same rfl (by simp [funded_iff,hauto,hbuy])
  | acceptIdle h hrole =>
    rcases hrole with hrole | hrole <;>
      exact same rfl (by simp [funded_iff,h.response,hrole,Role.OnCoins])
  | acceptOwnership h hrole | acceptCustodianship h hrole | acceptReporter h hrole =>
    exact same rfl (by simp [funded_iff,h.response,hrole,Role.OnCoins])
  | autoBuy h hresp hrole =>
    rw [solvent_update_iff hs (fill_participant ..),Participant.pay_balance,
      Participant.pay_credit,add_right_comm]
    rcases autoStatus_eq_some.mp hresp with ⟨hauto,_⟩ | ⟨hauto,_⟩ <;>
      simp [funded_iff,hauto,hrole,balanceOf_eq h.registered,creditOf_eq h.registered]
  | autoSell h hresp hrole hfunds =>
    -- the branch checks the funds itself, so a sale is always within the credit line
    rw [solvent_update_iff hs (fill_participant ..),Participant.pay_balance,
      Participant.pay_credit]
    refine ⟨fun _ => ?_,fun _ => by linarith⟩
    rcases autoStatus_eq_some.mp hresp with ⟨hauto,_⟩ | ⟨hauto,_⟩ <;>
      simp [funded_iff,hauto,hrole]
  | @acceptCredit _ _ _ _ _ p h hrole =>
    rw [solvent_update_iff hs (show _ = Function.update L.participant a.receivingParticipant
      (some (p.lend a.proposalId ts a.dgCoinAmount)) from rfl),Participant.lend_balance,
      Participant.lend_credit,← add_assoc]
    simp [funded_iff,h.response,hrole,Role.OnCoins,balanceOf_eq h.participant,
      creditOf_eq h.participant]
  | @acceptTransfer _ _ _ _ i p h hrole =>
    have hcharge : 0 ≤ i.balance - a.dgCoinAmount + i.credit ↔
        a.dgCoinAmount ≤ i.balance + i.credit := by
      constructor <;> intro hle <;> linarith
    rw [solvent_transfer_iff hs,add_right_comm,hcharge]
    simp [funded_iff,h.response,hrole,Role.OnCoins,balanceOf_eq h.participant,
      creditOf_eq h.participant,balanceOf_eq h.registered,creditOf_eq h.registered]

/-- The transaction is not an answer, or one that is funded. -/
def AnswersFunded (e : Ledger × Tx) : Prop :=
  ∀ a, e.2.action = .AnswerProposal a → Funded e.1 e.2.signer a

theorem Step.solvent_iff (hs : Solvent L) (hstep : Step range L tx L') :
    Solvent L' ↔ AnswersFunded (L,tx) := by
  obtain ⟨signer,ts,action⟩ := tx
  cases action with
  | AnswerProposal a =>
    rw [hstep.answer_solvent_iff hs]
    refine ⟨fun hf b hb => ?_,fun hf => hf a rfl⟩
    obtain rfl := Action.AnswerProposal.inj hb
    exact hf
  | CreateParticipant a =>
    refine ⟨?_,fun _ => ?_⟩
    · rintro _ b ⟨⟩
    · cases hstep
      refine (solvent_update_iff hs rfl).mpr ?_
      simp [Participant.balance,Participant.credit,latest]
  | UpdateProperties a =>
    refine ⟨?_,fun _ => ?_⟩
    · rintro _ b ⟨⟩
    · cases hstep with
      | updateProperties _ _ hus => exact solvent_of_participant hs hus.framed.participant
  | _ =>
    refine ⟨?_,fun _ => solvent_of_participant hs ?_⟩
    · rintro _ b ⟨⟩
    · cases hstep
      rfl

theorem solvent_empty : Solvent empty := by
  rintro k p ⟨⟩

end Ledger

theorem solvent_states_iff {env : Env} {h : List (State × Tx)} {s : State}
    (hr : Reachable env h s) : (∀ x ∈ Run.states h s, Ledger.Solvent (ledger env x)) ↔
      ∀ e ∈ h, Ledger.AnswersFunded (ledger env e.1,e.2) :=
  reachable_states_iff (fun _ _ _ hs hstep => hstep.solvent_iff hs) Ledger.solvent_empty
    (fun _ _ _ _ => Iff.rfl) hr

theorem solvent_sample : Ledger.Solvent (ledger Sample.env
    (Sample.next (Sample.answer "A" 6 (Sample.filling .autoCLOSE 10))
      (Sample.after Sample.buying))) := by
  have hok : Sample.Valid Sample.buying := by decide +kernel
  obtain ⟨h,hr,hmap⟩ := Sample.reachable hok
  have hacc := Sample.accepted_answer "A" 6 (Sample.filling .autoCLOSE 10)
    (Sample.after Sample.buying) (by decide +kernel)
  have hzero : (ledger Sample.env (Sample.after Sample.buying)).balanceOf "A" +
      (ledger Sample.env (Sample.after Sample.buying)).creditOf "A" = 0 := by decide +kernel
  refine (solvent_states_iff (.snoc hr hacc)).mpr (List.forall_mem_cons.mpr ⟨fun a ha => ?_,
    fun e he a ha => ?_⟩) _ List.mem_cons_self
  · dsimp only at ha ⊢
    obtain rfl := Action.AnswerProposal.inj ha
    refine ⟨fun _ _ => ?_,nofun,nofun⟩
    rw [hzero,zero_add]
    decide
  · exact absurd ha (not_answered hmap (by decide +kernel) he a)

/-- Buying -5 coins overdraws an account that never had a credit. -/
theorem overdrawn : ∃ h, Reachable Sample.env
      ((Sample.after Sample.buying,⟨"A",6,.AnswerProposal (Sample.filling .autoOPEN (-5))⟩) :: h)
      (Sample.next (Sample.answer "A" 6 (Sample.filling .autoOPEN (-5)))
        (Sample.after Sample.buying)) ∧
    ¬ Ledger.Solvent (ledger Sample.env
      (Sample.next (Sample.answer "A" 6 (Sample.filling .autoOPEN (-5)))
        (Sample.after Sample.buying))) := by
  have hok : Sample.Valid Sample.buying := by decide +kernel
  obtain ⟨h,hr,_⟩ := Sample.reachable hok
  have hacc := Sample.accepted_answer "A" 6 (Sample.filling .autoOPEN (-5))
    (Sample.after Sample.buying) (by decide +kernel)
  obtain ⟨p,hp,hfields⟩ := Option.map_eq_some_iff.mp (show
    ((ledger Sample.env (Sample.next (Sample.answer "A" 6 (Sample.filling .autoOPEN (-5)))
      (Sample.after Sample.buying))).participant "A").map (fun p => (p.balance,p.credit)) =
        some (-5,0) by decide +kernel)
  obtain ⟨hbalance,hcredit⟩ : p.balance = -5 ∧ p.credit = 0 := by simpa using hfields
  refine ⟨h,.snoc hr hacc,fun hs => ?_⟩
  have hsum := hs "A" p hp
  rw [hbalance,hcredit] at hsum
  norm_num at hsum

end DgcRestApi
