import DgcRestApi.Ledger.Proposing
import DgcRestApi.Server.Settlement

/-!
# Orders in the same second

The server builds the identifier of an order from its side and the current second, so the
orders of two clients have one identifier when both agree, and the ledger keeps the later one.
-/

namespace DgcRestApi
namespace Server

theorem proposalId_inj {side side' : Side} {t t' : Nat} :
    side.proposalId t = side'.proposalId t' ↔ side = side' ∧ t = t' := by
  constructor
  · intro h
    have hs : ∀ t t' : Nat, "buyDGC" ++ toString t ≠ "sellDGC" ++ toString t' := by
      intro t t' he
      simpa using congrArg (fun s => s.toList.head?) he
    have ht : (toString t : String) = toString t' → t = t' := by
      intro he
      have hdigits := congrArg (fun s => Nat.ofDigitChars 10 s.toList 0) he
      simpa [Nat.ofDigitChars_toDigits] using hdigits
    cases side <;> cases side'
    · exact ⟨rfl,ht ((String.append_right_inj _).mp h)⟩
    · exact absurd h (hs t t')
    · exact absurd h.symm (hs t' t)
    · exact ⟨rfl,ht ((String.append_right_inj _).mp h)⟩
  · rintro ⟨rfl,rfl⟩
    rfl

end Server

/-- No new proposal destroys another one exactly when each has an identifier of its own. The
identifiers that the server builds for two orders differ unless the orders are of one side
and of the same second. -/
theorem proposals_kept_iff {env : Env} {h : List (State × Tx)} {s : State}
    (hr : Reachable env h s) :
    (Ledger.ProposalsKept (ledger env) h s ↔
      ∀ e ∈ h, Ledger.CreatesFresh (ledger env e.1,e.2)) ∧
    ∀ (side side' : Server.Side) (t t' : Nat),
      side.proposalId t = side'.proposalId t' ↔ side = side' ∧ t = t' := by
  have hrun := (reachable_refines hr).2
  have hsteps := Run.steps_iff Ledger.CreationKeeps Ledger.CreatesFresh
    (fun _ _ _ hstep => hstep.creationKeeps_iff) hrun
  rw [forall_ledgers,steps_ledgers,List.forall_mem_map] at hsteps
  refine ⟨⟨fun hk => hsteps.mp hk.steps,fun hfresh => ⟨hsteps.mpr hfresh,?_⟩⟩,
    fun _ _ _ _ => Server.proposalId_inj⟩
  intro h₁ h₂ e a he ha hans
  have hsplit : ledgers env h = ledgers env h₂ ++ (ledger env e.1,e.2) :: ledgers env h₁ := by
    rw [he,ledgers,List.map_append]
    rfl
  rw [hsplit] at hrun
  refine Ledger.run_created_kept hrun (forall_ledgers.mpr fun e' he' => ?_) ha
    (List.forall_mem_map.mpr hans)
  exact hfresh e' (he ▸ List.mem_append_left _ he')

namespace Server.Sample
open DgcRestApi.Sample

/-- The order to buy of a client in the second 7. -/
def buyOrder (privateKey : String) : Offer := Side.buy.newOrder (params privateKey) 7

def buyRequest (privateKey : String) : TpProcessRequest :=
  buyDGCoin server 7 (buyOrder privateKey)

/-- Its transaction. -/
def buyTx (privateKey : String) : Tx :=
  ⟨privateKey,7,.CreateProposal
    { role := .buyDGC
      proposalId := (buyOrder privateKey).proposalId
      dgCoinAmount := (buyOrder privateKey).dgCoinAmount.getD 0
      currencyIsoCodes := (buyOrder privateKey).currencyIsoCodes.getD ""
      currencyQuoteAmount := (buyOrder privateKey).currencyQuoteAmount.getD 0 }⟩

theorem accepted_buy {privateKey : String} {s : State}
    (h : (apply env orders (buyRequest privateKey) s).isOk = true) :
    Accepted env s (buyTx privateKey) (next (buyRequest privateKey) s) :=
  ⟨orders,buyRequest privateKey,rfl,next_eq h⟩

end Server.Sample

theorem proposals_kept_sample : ∃ h, Ledger.ProposalsKept (ledger Sample.env)
    ((Sample.after [],Server.Sample.buyTx "A") :: h)
    (Sample.next (Server.Sample.buyRequest "A") (Sample.after [])) := by
  obtain ⟨h,hr,hmap⟩ := @Sample.reachable [] (by decide +kernel)
  have hacc := @Server.Sample.accepted_buy "A" (Sample.after []) (by decide +kernel)
  obtain ⟨hcreate,hnone⟩ := not_proposed hr hmap (by decide +kernel)
  refine ⟨h,(proposals_kept_iff (.snoc hr hacc)).1.mpr (List.forall_mem_cons.mpr ⟨?_,?_⟩)⟩
  · intro a c _ hc
    dsimp only at hc
    rw [hnone _ List.mem_cons_self] at hc
    cases hc
  · intro e he a c ha
    have hnew := hcreate e he
    rw [Tx.proposes,ha] at hnew
    cases hnew

namespace Server.Sample
open DgcRestApi.Sample

/-- The ledger after the order of one client and that of another in the same second. -/
def bought : State := after [buyRequest "A"]

def replaced : State := next (buyRequest "B") bought

end Server.Sample

/-- The order of the second client takes the place of the first one's. -/
theorem order_replaced : ∃ h,
    Reachable Sample.env ((Server.Sample.bought,Server.Sample.buyTx "B") :: h)
      Server.Sample.replaced ∧
    ((ledger Sample.env Server.Sample.bought).proposal "buyDGC7").map
      Proposal.issuingParticipant = some "A" ∧
    ((ledger Sample.env Server.Sample.replaced).proposal "buyDGC7").map
      Proposal.issuingParticipant = some "B" ∧
    ¬ Ledger.ProposalsKept (ledger Sample.env)
      ((Server.Sample.bought,Server.Sample.buyTx "B") :: h) Server.Sample.replaced := by
  obtain ⟨h,hr,_⟩ := @Sample.reachable [Server.Sample.buyRequest "A"] (by decide +kernel)
  have hacc := @Server.Sample.accepted_buy "B" Server.Sample.bought (by decide +kernel)
  have hbefore : ((ledger Sample.env Server.Sample.bought).proposal "buyDGC7").map
      Proposal.issuingParticipant = some "A" := by decide +kernel
  have hafter : ((ledger Sample.env Server.Sample.replaced).proposal "buyDGC7").map
      Proposal.issuingParticipant = some "B" := by decide +kernel
  refine ⟨h,.snoc hr hacc,hbefore,hafter,fun hk => ?_⟩
  obtain ⟨c,hc,hissuer⟩ := Option.map_eq_some_iff.mp hbefore
  have hkeep := hk.steps _ List.mem_cons_self
  dsimp only [Ledger.CreationKeeps] at hkeep
  rw [hkeep _ rfl _ c hc,Option.map_some,hissuer] at hafter
  exact absurd (Option.some.inj hafter) (by decide)

end DgcRestApi
