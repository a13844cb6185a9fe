import DgcRestApi.Ledger.Finality

/-!
# Answers to proposals

`_answer_proposal` reads the stored proposal but never its status, so an answer takes effect
whatever was answered before. `Harmless` lists the answers that leave a proposal and the
objects of the ledger as they were; if every answer to a proposal that is no longer open is
one of these, a proposal takes effect at most once.
-/

namespace DgcRestApi

theorem Participant.pay_ne (p : Participant) (x : String) (t : Nat) (amount : ℚ) :
    p.pay x t amount ≠ p :=
  fun h => by simpa [pay] using congrArg Participant.dgCoinBalances h

theorem Participant.lend_ne (p : Participant) (x : String) (t : Nat) (amount : ℚ) :
    p.lend x t amount ≠ p :=
  fun h => by simpa [lend] using congrArg Participant.dgCoinCredits h

/-- The identifier of the proposal that a transaction creates. -/
def Tx.proposes (tx : Tx) : Option String :=
  match tx.action with
  | .CreateProposal a => some a.proposalId
  | _ => none

/-- The identifier of the proposal that a transaction answers. -/
def Tx.answers (tx : Tx) : Option String :=
  match tx.action with
  | .AnswerProposal a => some a.proposalId
  | _ => none

/-- The answer has no effect on participants, records and properties. -/
def Idle (c : Proposal) (a : AnswerProposalAction) : Prop :=
  match a.response with
  | .CANCEL | .REJECT => True
  | .autoOPEN | .autoCLOSE => a.role ≠ .buyDGC ∧ a.role ≠ .sellDGC
  | .ACCEPT =>
    a.role = .buyDGC ∨ a.role = .sellDGC ∨ a.role = .authorizeReporter ∧ c.properties = []

/-- The answer has no effect and repeats the status of the proposal, if it sets one. -/
def Harmless (c : Proposal) (a : AnswerProposalAction) : Prop :=
  match a.response with
  | .CANCEL => c.status = .CANCELED
  | .REJECT => c.status = .REJECTED
  | .autoOPEN | .autoCLOSE => a.role ≠ .buyDGC ∧ a.role ≠ .sellDGC
  | .ACCEPT => a.role = .buyDGC ∨ a.role = .sellDGC ∨
    a.role = .authorizeReporter ∧ c.properties = [] ∧ c.status = .ACCEPTED

theorem Harmless.idle {c : Proposal} {a : AnswerProposalAction} (h : Harmless c a) : Idle c a := by
  unfold Harmless at h
  unfold Idle
  split at h
  · trivial
  · trivial
  · exact h
  · exact h
  · exact h.imp_right (Or.imp_right fun h => ⟨h.1,h.2.1⟩)

namespace Ledger

variable {range : String → Address} {L L' : Ledger} {tx : Tx} {signer : String} {ts : Nat}
variable {a : AnswerProposalAction} {c : Proposal}

/-- No participant, record or property changed. -/
structure Untouched (L L' : Ledger) : Prop where
  participant : L'.participant = L.participant
  record : L'.record = L.record
  property : L'.property = L.property

theorem Step.answer_untouched_iff (hstep : Step range L ⟨signer,ts,.AnswerProposal a⟩ L')
    (hc : L.proposal a.proposalId = some c) : Untouched L L' ↔ Idle c a := by
  cases hstep with
  | cancel h hresp | reject h hresp =>
    exact iff_of_true ⟨rfl,rfl,rfl⟩ (by rw [Idle,hresp]; trivial)
  | autoIdle h hresp hbuy hsell =>
    refine iff_of_true ⟨rfl,rfl,rfl⟩ ?_
    rcases autoStatus_eq_some.mp hresp with ⟨hresp,_⟩ | ⟨hresp,_⟩
    all_goals
      rw [Idle,hresp]
      exact ⟨hbuy,hsell⟩
  | autoBuy h hresp hrole | autoSell h hresp hrole =>
    refine iff_of_false (fun hu => ?_) ?_
    · have hp := hu.participant
      rw [fill_participant,Function.update_eq_self_iff,h.registered] at hp
      exact Participant.pay_ne _ _ _ _ (Option.some.inj hp)
    · rcases autoStatus_eq_some.mp hresp with ⟨hresp,_⟩ | ⟨hresp,_⟩
      all_goals
        rw [Idle,hresp]
        simp [hrole]
  | acceptIdle h hrole =>
    refine iff_of_true ⟨rfl,rfl,rfl⟩ ?_
    rw [Idle,h.response]
    exact hrole.imp_right Or.inl
  | acceptCredit h hrole =>
    refine iff_of_false (fun hu => ?_) ?_
    · have hp := Function.update_eq_self_iff.mp hu.participant
      rw [h.participant] at hp
      exact Participant.lend_ne _ _ _ _ (Option.some.inj hp)
    · rw [Idle,h.response]
      simp [hrole]
  | acceptTransfer h hrole =>
    refine iff_of_false (fun hu => ?_) ?_
    · have hp := congrFun hu.participant a.receivingParticipant
      rw [transfer_participant,Function.update_self,h.participant] at hp
      exact Participant.pay_ne _ _ _ _ (Option.some.inj hp)
    · rw [Idle,h.response]
      simp [hrole]
  | acceptOwnership h hrole hrec =>
    refine iff_of_false (fun hu => ?_) ?_
    · have hr := Function.update_eq_self_iff.mp hu.record
      rw [hrec] at hr
      exact owner_appended_ne _ hr
    · rw [Idle,h.response]
      simp [hrole]
  | acceptCustodianship h hrole hrec =>
    refine iff_of_false (fun hu => ?_) ?_
    · have hr := Function.update_eq_self_iff.mp hu.record
      rw [hrec] at hr
      exact custodian_appended_ne _ hr
    · rw [Idle,h.response]
      simp [hrole]
  | acceptReporter h hrole hrec _ hprops =>
    obtain rfl := Option.some.inj (hc.symm.trans h.proposal)
    have hidle : Idle c a ↔ c.properties = [] := by
      rw [Idle,h.response]
      simp [hrole]
    rw [hidle]
    constructor
    · exact fun hu => (mapProperties_addReporter hprops).mp (congrFun hu.property a.recordId)
    · intro hnil
      rw [hnil,mapProperties_nil]
      exact ⟨rfl,rfl,rfl⟩

/-- The proposal after an answer. -/
def answered (c : Proposal) (a : AnswerProposalAction) : Proposal :=
  match a.response with
  | .CANCEL => { c with status := .CANCELED }
  | .REJECT => { c with status := .REJECTED }
  | .autoOPEN => if a.role = .buyDGC ∨ a.role = .sellDGC
    then { c with dgCoinExchanged := c.dgCoinExchanged + a.dgCoinAmount, status := .OPEN } else c
  | .autoCLOSE => if a.role = .buyDGC ∨ a.role = .sellDGC
    then { c with dgCoinExchanged := c.dgCoinExchanged + a.dgCoinAmount, status := .CLOSED }
    else c
  | .ACCEPT => if a.role = .buyDGC ∨ a.role = .sellDGC then c else { c with status := .ACCEPTED }

/-- An answer writes the proposal it names and no other. -/
theorem Step.answer_proposal (hstep : Step range L ⟨signer,ts,.AnswerProposal a⟩ L')
    (hc : L.proposal a.proposalId = some c) :
    L'.proposal = Function.update L.proposal a.proposalId (some (answered c a)) := by
  have idle : answered c a = c →
      L.proposal = Function.update L.proposal a.proposalId (some (answered c a)) := by
    intro h
    rw [h]
    exact (Function.update_eq_self_iff.mpr hc.symm).symm
  cases hstep with
  | cancel h hresp | reject h hresp =>
    obtain rfl := Option.some.inj (hc.symm.trans h.proposal)
    rw [answered,hresp]
    rfl
  | autoIdle h hresp hbuy hsell =>
    apply idle
    rcases autoStatus_eq_some.mp hresp with ⟨hresp,_⟩ | ⟨hresp,_⟩ <;>
      simp [answered,hresp,hbuy,hsell]
  | autoBuy h hresp hrole | autoSell h hresp hrole =>
    obtain rfl := Option.some.inj (hc.symm.trans h.proposal)
    rw [fill_proposal]
    rcases autoStatus_eq_some.mp hresp with ⟨hauto,rfl⟩ | ⟨hauto,rfl⟩ <;>
      simp [answered,hauto,hrole]
  | acceptIdle h hrole =>
    apply idle
    rw [answered,h.response]
    exact if_pos hrole
  | acceptCredit h hrole | acceptTransfer h hrole | acceptOwnership h hrole
  | acceptCustodianship h hrole | acceptReporter h hrole =>
    obtain rfl := Option.some.inj (hc.symm.trans h.proposal)
    have hans : answered c a = { c with status := .ACCEPTED } := by
      simp [answered,h.response,hrole]
    rw [hans]
    rfl

theorem harmless_iff : Harmless c a ↔ Idle c a ∧ (answered c a).status = c.status := by
  unfold Harmless Idle answered
  cases a.response with
  | CANCEL | REJECT => simp [eq_comm]
  | autoOPEN | autoCLOSE =>
    constructor
    · rintro ⟨hb,hs⟩
      simp [hb,hs]
    · exact fun h => h.1
  | ACCEPT =>
    by_cases hrole : a.role = .buyDGC ∨ a.role = .sellDGC
    · rcases hrole with hrole | hrole <;> simp [hrole]
    · rw [not_or] at hrole
      simp [hrole,eq_comm,and_assoc]

/-- The step does not answer a proposal that is not open, or it changes neither the status of
the proposal nor any participant, record or property. -/
def ClosedKept (e : Ledger × Tx × Ledger) : Prop :=
  ∀ a c, e.2.1.action = .AnswerProposal a → e.1.proposal a.proposalId = some c →
    c.status ≠ .OPEN → Untouched e.1 e.2.2 ∧
      ∃ c', e.2.2.proposal a.proposalId = some c' ∧ c'.status = c.status

/-- The transaction does not answer a proposal that is not open, or its answer is harmless. -/
def AnswersOpen (e : Ledger × Tx) : Prop :=
  ∀ a c, e.2.action = .AnswerProposal a → e.1.proposal a.proposalId = some c →
    c.status ≠ .OPEN → Harmless c a

theorem Step.closedKept_iff (hstep : Step range L tx L') :
    ClosedKept (L,tx,L') ↔ AnswersOpen (L,tx) := by
  have hone : ∀ a c, tx.action = .AnswerProposal a → L.proposal a.proposalId = some c →
      ((Untouched L L' ∧ ∃ c', L'.proposal a.proposalId = some c' ∧ c'.status = c.status) ↔
        Harmless c a) := by
    intro a c ha hc
    obtain ⟨signer,ts,action⟩ := tx
    obtain rfl : action = .AnswerProposal a := ha
    rw [harmless_iff,hstep.answer_untouched_iff hc,hstep.answer_proposal hc]
    simp
  constructor
  · exact fun h a c ha hc hclosed => (hone a c ha hc).mp (h a c ha hc hclosed)
  · exact fun h a c ha hc hclosed => (hone a c ha hc).mpr (h a c ha hc hclosed)

theorem Step.answers (hstep : Step range L ⟨signer,ts,.AnswerProposal a⟩ L') :
    ∃ c i, Answers L signer a c i := by
  cases hstep with
  | cancel h | reject h | autoIdle h | autoBuy h | autoSell h => exact ⟨_,_,h⟩
  | acceptIdle h | acceptCredit h | acceptTransfer h | acceptOwnership h | acceptCustodianship h
  | acceptReporter h => exact ⟨_,_,h.toAnswers⟩

/-- A step creates a proposal, answers one, or leaves all of them alone. -/
theorem Step.proposal_cases (hstep : Step range L tx L') :
    (∃ a, tx.action = .CreateProposal a ∧ L'.proposal = Function.update L.proposal a.proposalId
      (some (newProposal a tx.signer tx.timestamp))) ∨
    (∃ a c, tx.action = .AnswerProposal a ∧ L.proposal a.proposalId = some c ∧
      L'.proposal = Function.update L.proposal a.proposalId (some (answered c a))) ∨
    (∀ a, tx.action ≠ .CreateProposal a) ∧ (∀ a, tx.action ≠ .AnswerProposal a) ∧
      L'.proposal = L.proposal := by
  obtain ⟨signer,ts,action⟩ := tx
  cases action with
  | AnswerProposal a =>
    obtain ⟨c,_,h⟩ := hstep.answers
    exact Or.inr (Or.inl ⟨a,c,rfl,h.proposal,hstep.answer_proposal h.proposal⟩)
  | CreateProposal a =>
    cases hstep
    exact Or.inl ⟨a,rfl,rfl⟩
  | UpdateProperties a =>
    cases hstep with
    | updateProperties _ _ hus =>
      refine Or.inr (Or.inr ⟨?_,?_,hus.framed.proposal⟩) <;> rintro a ⟨⟩
  | _ =>
    have hsame : L'.proposal = L.proposal := by
      cases hstep
      rfl
    refine Or.inr (Or.inr ⟨?_,?_,hsame⟩) <;> rintro a ⟨⟩

/-! ## Runs -/

/-- The step accepts the proposal and changes a participant, a record or a property. -/
def Takes (x : String) (e : Ledger × Tx × Ledger) : Prop :=
  ∃ a, e.2.1.action = .AnswerProposal a ∧ a.proposalId = x ∧ a.response = .ACCEPT ∧
    ¬ Untouched e.1 e.2.2

/-- How often a history creates the proposal. -/
def timesProposed {σ : Type} (x : String) (h : List (σ × Tx)) : Nat :=
  (h.filterMap fun e => e.2.proposes).count x

theorem timesProposed_cons {σ : Type} {s : σ} {x : String} {h : List (σ × Tx)} :
    timesProposed x ((s,tx) :: h) =
      (if tx.proposes = some x then 1 else 0) + timesProposed x h := by
  unfold timesProposed
  cases hp : tx.proposes with
  | none => simp [hp]
  | some y =>
    simp only [List.filterMap_cons,hp,List.count_cons,Option.some.injEq,beq_iff_eq]
    omega

variable {h : List (Ledger × Tx)} {x : String}

/-- A proposal exists only once it was created. -/
theorem Step.unproposed (hstep : Step range L tx L') (hother : tx.proposes ≠ some x)
    (hnone : L.proposal x = none) : L'.proposal x = none := by
  rcases hstep.proposal_cases with ⟨a,ha,hL'⟩ | ⟨a,c,ha,hc,hL'⟩ | ⟨_,_,hL'⟩
  · have hne : x ≠ a.proposalId := fun he => hother (by rw [Tx.proposes,ha,he])
    rw [hL',Function.update_of_ne hne,hnone]
  · have hne : x ≠ a.proposalId := fun he => by
      rw [← he,hnone] at hc
      exact nomatch hc
    rw [hL',Function.update_of_ne hne,hnone]
  · rw [hL',hnone]

/-- What a run knows about one proposal: it exists only once created, and it is closed once
it took effect. -/
structure Traced (x : String) (h : List (Ledger × Tx)) (L : Ledger) : Prop where
  created : timesProposed x h = 0 → L.proposal x = none
  closed : (∃ e ∈ Run.steps h L, Takes x e) → ∃ c, L.proposal x = some c ∧ c.status ≠ .OPEN
  once : (Run.steps h L).Pairwise fun e e' => ¬ (Takes x e ∧ Takes x e')

/-- A proposal that takes effect was not closed, and is afterwards. -/
theorem Step.takes (hstep : Step range L tx L') (hopen : AnswersOpen (L,tx))
    (ht : Takes x (L,tx,L')) : (∀ c, L.proposal x = some c → c.status = .OPEN) ∧
      ∃ c', L'.proposal x = some c' ∧ c'.status = .ACCEPTED := by
  obtain ⟨a,ha,rfl,hresp,hu⟩ := ht
  obtain ⟨signer,ts,action⟩ := tx
  obtain rfl : action = .AnswerProposal a := ha
  obtain ⟨c,_,hc⟩ := hstep.answers
  rw [hstep.answer_untouched_iff hc.proposal] at hu
  refine ⟨fun c' hc' => ?_,answered c a,?_,?_⟩
  · obtain rfl := Option.some.inj (hc.proposal.symm.trans hc')
    by_contra hclosed
    exact hu (hopen a c rfl hc.proposal hclosed).idle
  · rw [hstep.answer_proposal hc.proposal,Function.update_self]
  · rw [Idle,hresp] at hu
    simp only [not_or] at hu
    simp [answered,hresp,hu.1,hu.2.1]

theorem Traced.step (hT : Traced x h L) (hstep : Step range L tx L')
    (hopen : AnswersOpen (L,tx)) (honce : timesProposed x ((L,tx) :: h) ≤ 1) :
    Traced x ((L,tx) :: h) L' := by
  rw [timesProposed_cons] at honce
  refine ⟨fun hzero => ?_,?_,?_⟩
  · rw [timesProposed_cons] at hzero
    refine hstep.unproposed (fun hp => ?_) (hT.created (by omega))
    rw [if_pos hp] at hzero
    omega
  · rintro ⟨e,he,ht⟩
    rcases List.mem_cons.mp he with rfl | he
    · obtain ⟨_,c',hc',hstatus⟩ := hstep.takes hopen ht
      exact ⟨c',hc',by rw [hstatus]; exact nofun⟩
    · obtain ⟨c,hc,hclosed⟩ := hT.closed ⟨e,he,ht⟩
      rcases hstep.proposal_cases with ⟨a,ha,hL'⟩ | ⟨a,c₁,ha,hc₁,hL'⟩ | ⟨_,_,hL'⟩
      · -- a proposal that took effect is not created again
        have hne : x ≠ a.proposalId := fun he => by
          rw [if_pos (by rw [Tx.proposes,ha,he])] at honce
          have hnone := hT.created (by omega)
          rw [hc] at hnone
          exact nomatch hnone
        exact ⟨c,by rw [hL',Function.update_of_ne hne,hc],hclosed⟩
      · by_cases hx : x = a.proposalId
        · -- an answer to a closed proposal is harmless and keeps the status
          subst hx
          obtain rfl := Option.some.inj (hc.symm.trans hc₁)
          have hstatus := (harmless_iff.mp (hopen a c ha hc hclosed)).2
          exact ⟨answered c a,by rw [hL',Function.update_self],by rw [hstatus]; exact hclosed⟩
        · exact ⟨c,by rw [hL',Function.update_of_ne hx,hc],hclosed⟩
      · exact ⟨c,by rw [hL',hc],hclosed⟩
  · -- a proposal that took effect before is closed, so it does not take effect now
    refine List.pairwise_cons.mpr ⟨?_,hT.once⟩
    rintro e he ⟨ht,ht'⟩
    obtain ⟨c,hc,hclosed⟩ := hT.closed ⟨e,he,ht'⟩
    exact hclosed ((hstep.takes hopen ht).1 c hc)

theorem run_traced (hr : Run (Step range) empty h L) (hopen : ∀ e ∈ h, AnswersOpen e)
    (honce : timesProposed x h ≤ 1) : Traced x h L := by
  induction hr with
  | nil =>
    refine ⟨fun _ => rfl,?_,List.Pairwise.nil⟩
    rintro ⟨e,he,_⟩
    exact nomatch he
  | @snoc h L L' tx _ hstep ih =>
    have hle : timesProposed x h ≤ timesProposed x ((L,tx) :: h) := by
      rw [timesProposed_cons]
      omega
    exact (ih (fun e he => hopen e (List.mem_cons_of_mem _ he)) (hle.trans honce)).step hstep
      (hopen _ List.mem_cons_self) honce

/-- The answers of a run form a one-way state machine. -/
structure OneWay {σ : Type} (view : σ → Ledger) (h : List (σ × Tx)) (s : σ) : Prop where
  closed : ∀ e ∈ Run.steps h s, ClosedKept (view e.1,e.2.1,view e.2.2)
  once : ∀ x, timesProposed x h ≤ 1 → (Run.steps h s).Pairwise fun e e' =>
    ¬ (Takes x (view e.1,e.2.1,view e.2.2) ∧ Takes x (view e'.1,e'.2.1,view e'.2.2))

end Ledger

theorem answers_one_way_iff {env : Env} {h : List (State × Tx)} {s : State}
    (hr : Reachable env h s) : Ledger.OneWay (ledger env) h s ↔
      ∀ e ∈ h, Ledger.AnswersOpen (ledger env e.1,e.2) := by
  have hrun := (reachable_refines hr).2
  have hclosed := Run.steps_iff Ledger.ClosedKept Ledger.AnswersOpen
    (fun _ _ _ hstep => hstep.closedKept_iff) hrun
  rw [forall_ledgers,steps_ledgers,List.forall_mem_map] at hclosed
  constructor
  · exact fun ho => hclosed.mp ho.closed
  · intro hopen
    refine ⟨hclosed.mpr hopen,fun x hx => ?_⟩
    have htimes : Ledger.timesProposed x (ledgers env h) ≤ 1 := by
      rwa [Ledger.timesProposed,ledgers,List.filterMap_map]
    have honce := (Ledger.run_traced hrun (forall_ledgers.mpr hopen) htimes).once
    rwa [steps_ledgers,List.pairwise_map] at honce

/-- Requests without an answer leave none in the history. -/
theorem not_answered {h : List (State × Tx)} {requests : List TpProcessRequest}
    (hmap : h.map (fun e => some e.2) = (requests.map TpProcessRequest.tx?).reverse)
    (hnone : requests.filterMap (fun r => r.tx?.bind Tx.answers) = []) {e : State × Tx}
    (he : e ∈ h) (a : AnswerProposalAction) : e.2.action ≠ .AnswerProposal a := by
  intro ha
  have hmem : a.proposalId ∈ h.filterMap fun e => e.2.answers :=
    List.mem_filterMap.mpr ⟨e,he,by rw [Tx.answers,ha]⟩
  rw [filterMap_history hmap,hnone] at hmem
  exact nomatch hmem

/-- A credit is proposed to the second participant. -/
def Sample.offered : List TpProcessRequest :=
  [propose "A" 5
    { proposalId := "x", role := .creditDGC, receivingParticipant := "B", dgCoinAmount := 10 }]

/-- The answer of the receiver. -/
def Sample.acceptance : AnswerProposalAction :=
  { proposalId := "x", role := .creditDGC, response := .ACCEPT, receivingParticipant := "B",
    dgCoinAmount := 10 }

theorem answers_one_way_sample : ∃ h, Ledger.OneWay (ledger Sample.env)
    ((Sample.after Sample.offered,⟨"B",6,.AnswerProposal Sample.acceptance⟩) :: h)
    (Sample.next (Sample.answer "B" 6 Sample.acceptance) (Sample.after Sample.offered)) := by
  have hok : Sample.Valid Sample.offered := by decide +kernel
  obtain ⟨h,hr,hmap⟩ := Sample.reachable hok
  have hacc := Sample.accepted_answer "B" 6 Sample.acceptance (Sample.after Sample.offered)
    (by decide +kernel)
  refine ⟨h,(answers_one_way_iff (.snoc hr hacc)).mpr (List.forall_mem_cons.mpr ⟨?_,?_⟩)⟩
  · intro a c ha hc hclosed
    dsimp only at ha hc
    obtain rfl := Action.AnswerProposal.inj ha
    have hopen : ((ledger Sample.env (Sample.after Sample.offered)).proposal
        Sample.acceptance.proposalId).map Proposal.status = some .OPEN := by decide +kernel
    rw [hc] at hopen
    exact absurd (Option.some.inj hopen) hclosed
  · intro e he a c ha
    exact absurd ha (not_answered hmap (by decide +kernel) he a)

/-- The sample in which the proposal was accepted. -/
def Sample.credited : List TpProcessRequest := offered ++ [answer "B" 6 acceptance]

/-- The credit is granted again when the receiver accepts a second time. -/
theorem accepted_twice : ∃ h,
    Reachable Sample.env
      ((Sample.after Sample.credited,⟨"B",7,.AnswerProposal Sample.acceptance⟩) :: h)
      (Sample.next (Sample.answer "B" 7 Sample.acceptance) (Sample.after Sample.credited)) ∧
    ((ledger Sample.env (Sample.after Sample.credited)).participant "B").map
      Participant.credit = some 10 ∧
    ((ledger Sample.env (Sample.next (Sample.answer "B" 7 Sample.acceptance)
      (Sample.after Sample.credited))).participant "B").map Participant.credit = some 20 ∧
    ¬ Ledger.OneWay (ledger Sample.env)
      ((Sample.after Sample.credited,⟨"B",7,.AnswerProposal Sample.acceptance⟩) :: h)
      (Sample.next (Sample.answer "B" 7 Sample.acceptance) (Sample.after Sample.credited)) := by
  have hok : Sample.Valid Sample.credited := by decide +kernel
  obtain ⟨h,hr,_⟩ := Sample.reachable hok
  have hacc := Sample.accepted_answer "B" 7 Sample.acceptance (Sample.after Sample.credited)
    (by decide +kernel)
  have hbefore : ((ledger Sample.env (Sample.after Sample.credited)).participant "B").map
      Participant.credit = some 10 := by decide +kernel
  have hafter : ((ledger Sample.env (Sample.next (Sample.answer "B" 7 Sample.acceptance)
      (Sample.after Sample.credited))).participant "B").map Participant.credit = some 20 := by
    decide +kernel
  refine ⟨h,.snoc hr hacc,hbefore,hafter,fun ho => ?_⟩
  obtain ⟨c,hc,hstatus⟩ := Option.map_eq_some_iff.mp (show
    ((ledger Sample.env (Sample.after Sample.credited)).proposal
      Sample.acceptance.proposalId).map Proposal.status = some .ACCEPTED by decide +kernel)
  have hclosed : c.status ≠ .OPEN := by
    rw [hstatus]
    decide
  have hkept := ho.closed _ List.mem_cons_self Sample.acceptance c
  dsimp only at hkept
  obtain ⟨hu,_⟩ := hkept rfl hc hclosed
  rw [hu.participant,hbefore] at hafter
  exact absurd (Option.some.inj hafter) (by decide)

end DgcRestApi
