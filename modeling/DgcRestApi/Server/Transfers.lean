import DgcRestApi.Ledger.Acceptance
import DgcRestApi.Ledger.Persistence
import DgcRestApi.LedgerSync.Reflection
import DgcRestApi.Server.Submission

/-!
# Transfers and credits

`transferDGCoinProposal` and `applyDGCoinCredit` create a proposal for their client, look it up
by its identifier and accept it at once, with the client's own key. The identifier is the second
of the request, and only the receiver of a proposal may accept it. So whatever a client asks for,
its answer takes effect only if the coins are for the client, and the proposal it accepts may be
that of another client of the same second.
-/

namespace DgcRestApi.Server
open LedgerSync Keyed Fallible

/-- The two functions that accept what they have proposed. -/
inductive Handout
  | transfer | credit
deriving DecidableEq, Repr

namespace Handout

def role : Handout → Role
  | .transfer => .transferDGC
  | .credit => .creditDGC

def proposalId (kind : Handout) (timestamp : Nat) : String :=
  match kind with
  | .transfer => "transferDGC" ++ toString timestamp
  | .credit => "creditDGC" ++ toString timestamp

/-- The participant that the answer names, read off the document of the proposal. -/
def receivingParticipant : Handout → Proposal → String
  | .transfer,c => c.receivingParticipant
  | .credit,c => c.issuingParticipant

end Handout

/-- The body of a request; fields that it does not have are undefined. -/
structure HandoutParams where
  privateKey : String
  DGC : Option ℚ := none
  receivingKey : Option String := none

section Requests

variable (server : ServerEnv) (now : Nat)

def createHandout (kind : Handout) (param : HandoutParams) (proposalId : String) :
    TpProcessRequest :=
  createProposal server param.privateKey now
    { role := kind.role
      proposalId
      receivingParticipant := param.receivingKey.getD ""
      dgCoinAmount := param.DGC.getD 0 }

def transferDGCoin : HandoutParams → String → TpProcessRequest := createHandout server now .transfer

def creditDGCoin : HandoutParams → String → TpProcessRequest := createHandout server now .credit

/-- The acceptance of a proposal, of which it repeats the identifier and the amount. -/
def Handout.answer (kind : Handout) (c : Proposal) : AnswerProposalAction :=
  { proposalId := c.proposalId
    role := kind.role
    response := .ACCEPT
    receivingParticipant := kind.receivingParticipant c
    dgCoinAmount := c.dgCoinAmount }

def answerHandout (kind : Handout) (privateKey : String) (c : Proposal) : TpProcessRequest :=
  createTxn server privateKey
    { action := .ANSWER_PROPOSAL, timestamp := now, answerProposal := kind.answer c }

def answerDGCoin : String → Proposal → TpProcessRequest := answerHandout server now .transfer

def answerDGCoinCredit : String → Proposal → TpProcessRequest := answerHandout server now .credit

end Requests

/-- `retrieve`: the documents at the current block that have the fields of a query. -/
def retrieve (query : Proposal → Bool) (db : Db) : Option (List Proposal) :=
  (currentBlock db).map fun block => (objects Entry.toProposal .proposals block db).filter query

/-- The automatic answers to the proposal that a request of that time has created. -/
def Handout.answers (kind : Handout) (server : ServerEnv) (now : Nat) (params : HandoutParams)
    (timestamp : Nat) (db : Db) : Option (List TpProcessRequest) :=
  (retrieve (fun c => c.proposalId = kind.proposalId timestamp) db).map fun docs =>
    docs.map (answerHandout server now kind params.privateKey)

def transferDGCoinProposal := Handout.answers .transfer

def applyDGCoinCredit := Handout.answers .credit

/-! ## The proposal and its document -/

/-- A request has come as far as its automatic answer: the proposal was created, its document
was read from a database that shows a ledger reached since, and now the answer arrives. In between
anything may be accepted but another proposal under the identifier. -/
inductive Answering (env : Env) (server : ServerEnv) (kind : Handout) (params : HandoutParams)
    (timestamp now : Nat) : Db → State → Prop
  | intro {h₀ h₁ h₂ : List (State × Tx)} {s₀ s₁ m s : State} {db : Db} {n : Nat}
      (hr : Reachable env h₀ s₀)
      (hcreate : Submitted env (createHandout server now kind params (kind.proposalId timestamp))
        s₀ true s₁)
      (hread : Run (Accepted env) s₁ h₁ m) (hm : Mirrors (ledger env m) db n)
      (hlater : Run (Accepted env) m h₂ s)
      (hfresh : ∀ e ∈ h₂ ++ h₁, e.2.proposes ≠ some (kind.proposalId timestamp)) :
      Answering env server kind params timestamp now db s

/-- The document is that of the proposal, which is still on the ledger. -/
structure Offered (kind : Handout) (params : HandoutParams) (timestamp : Nat) (issuer : String)
    (L : Ledger) (doc : Proposal) : Prop where
  proposalId : doc.proposalId = kind.proposalId timestamp
  issued : doc.issuingParticipant = issuer
  receiver : doc.receivingParticipant = params.receivingKey.getD ""
  amount : doc.dgCoinAmount = params.DGC.getD 0
  stored : ∃ c, L.proposal doc.proposalId = some c ∧
    c.receivingParticipant = doc.receivingParticipant
  registered : ∃ i, L.participant issuer = some i
  receives : ∃ p, L.participant doc.receivingParticipant = some p

section Documents

variable {env : Env} {server : ServerEnv} {kind : Handout} {params : HandoutParams}
variable {timestamp now now' : Nat} {db : Db} {s : State} {L : Ledger} {n : Nat} {x : String}
variable {c : Proposal}

/-- The query for an identifier finds the one proposal that is stored under it. -/
theorem retrieve_mirrors (hm : Mirrors L db n) (hc : L.proposal x = some c)
    (hx : c.proposalId = x) : retrieve (fun c => c.proposalId = x) db = some [c.toObject] := by
  have hfound : (objects Entry.toProposal .proposals n db).filter (fun c => c.proposalId = x) =
      (some c.toObject).toList := by
    refine eq_toList ?_ fun doc => ?_
    · exact (hm.nodup_objects toProposal_iff).filter _
    · rw [List.mem_filter,hm.mem_proposals,decide_eq_true_iff,Option.some.injEq]
      constructor
      · rintro ⟨⟨c',hc',rfl⟩,hid⟩
        rw [hid,hc] at hc'
        rw [Option.some.inj hc']
      · rintro rfl
        have hid : c.toObject.proposalId = x := hx
        exact ⟨⟨c,by rw [hid,hc],rfl⟩,hid⟩
  rw [retrieve,hm.block,Option.map_some,hfound]
  rfl

theorem created_offer {L L' : Ledger} {range : String → Address} {signer : String} {ts : Nat}
    {a : CreateProposalAction} (hstep : Ledger.Step range L ⟨signer,ts,.CreateProposal a⟩ L') :
    L'.proposal a.proposalId = some (newProposal a signer ts) ∧
      ∃ i, L'.participant signer = some i := by
  cases hstep with
  | createProposal hg => exact ⟨Function.update_self ..,_,hg.registered⟩

/-- Both kinds of proposals are for a participant. -/
theorem created_receiver {L L' : Ledger} {range : String → Address} {signer : String} {ts : Nat}
    {a : CreateProposalAction} (hstep : Ledger.Step range L ⟨signer,ts,.CreateProposal a⟩ L')
    (hrole : ∃ kind : Handout, a.role = kind.role) :
    ∃ p, L'.participant a.receivingParticipant = some p := by
  cases hstep with
  | createProposal hg =>
    obtain ⟨kind,hrole⟩ := hrole
    refine hg.receiver ?_
    cases kind <;> simp [hrole,Handout.role]

theorem Answering.offer (h : Answering env server kind params timestamp now db s) :
    ∃ h' doc, Reachable env h' s ∧
      retrieve (fun c => c.proposalId = kind.proposalId timestamp) db = some [doc] ∧
      Offered kind params timestamp (server.publicKey params.privateKey) (ledger env s) doc := by
  cases h with
  | @intro h₀ h₁ h₂ s₀ s₁ m _ _ _ hr hcreate hread hm hlater hfresh =>
    cases hcreate with
    | accepted happly =>
      obtain ⟨tx,htx,hacc⟩ := accepted_of_apply happly
      obtain rfl := tx_createProposal htx
      have hstep := (accepted_refines (reachable_refines hr).1 hacc).2
      obtain ⟨hnew,i,hi⟩ := created_offer hstep
      obtain ⟨p,hp⟩ := created_receiver hstep ⟨kind,rfl⟩
      have hrm := (hr.snoc hacc).trans hread
      obtain ⟨c,hc,hsame⟩ := reachable_offer_kept (hr.snoc hacc) hread
        (fun e he => hfresh e (List.mem_append_right _ he)) hnew
      obtain ⟨c',hc',hsame'⟩ := reachable_offer_kept hrm hlater
        (fun e he => hfresh e (List.mem_append_left _ he)) hc
      have hlasts : ∀ {k i}, (ledger env s₁).participant k = some i →
          ∃ i', (ledger env s).participant k = some i' := by
        intro k i hi
        obtain ⟨i',hi'⟩ := (reachable_lasts (hr.snoc hacc) hread).participant k i hi
        exact (reachable_lasts hrm hlater).participant k i' hi'
      rw [Ledger.SameOffer] at hsame hsame'
      have hid : c.proposalId = kind.proposalId timestamp := by rw [hsame]; rfl
      have hreceiver : c.toObject.receivingParticipant = params.receivingKey.getD "" := by
        rw [hsame]
        rfl
      refine ⟨_,c.toObject,hrm.trans hlater,retrieve_mirrors hm hc hid,hid,?_,hreceiver,?_,
        ⟨c',?_,?_⟩,hlasts hi,hreceiver ▸ hlasts hp⟩
      · rw [hsame]; rfl
      · rw [hsame]; rfl
      · exact (congrArg _ hid).trans hc'
      · rw [hsame']; rfl

end Documents

/-! ## The automatic answer -/

section Answers

variable {range : String → Address} {L L' : Ledger} {params : HandoutParams} {timestamp ts : Nat}
variable {kind : Handout} {issuer signer : String} {doc : Proposal}

/-- A participant accepts the proposal exactly if it is the receiver, and a transfer only within
its balance. -/
theorem Offered.step_iff (h : Offered kind params timestamp issuer L doc) :
    (∃ L', Ledger.Step range L ⟨signer,ts,.AnswerProposal (kind.answer doc)⟩ L') ↔
      params.receivingKey.getD "" = signer ∧
        (kind = .transfer → params.DGC.getD 0 ≤ L.balanceOf signer) := by
  obtain ⟨c,hc,hreceiver⟩ := h.stored
  rw [← h.receiver,← h.amount]
  constructor
  · rintro ⟨L',hstep⟩
    obtain ⟨c',i',p,haccepts,heff⟩ := (Ledger.step_accept_iff rfl).mp hstep
    obtain rfl := Option.some.inj (hc.symm.trans haccepts.proposal)
    refine ⟨hreceiver.symm.trans haccepts.receiver,?_⟩
    rintro rfl
    rw [Ledger.balanceOf_eq haccepts.registered]
    cases heff with
    | transferDGC hfunds => exact hfunds
  · rintro ⟨hself,hfunds⟩
    -- the receiver of an accepted proposal is a participant
    obtain ⟨i,hi⟩ := hself ▸ h.receives
    rw [Ledger.balanceOf_eq hi] at hfunds
    have hstored : c.receivingParticipant = signer := hreceiver.trans hself
    cases kind with
    | transfer =>
      have haccepts : Ledger.Accepts L signer (Handout.transfer.answer doc) c i i :=
        ⟨⟨hc,hi⟩,rfl,hstored,(congrArg L.participant hself).trans hi⟩
      exact ⟨_,(Ledger.step_accept_iff rfl).mpr ⟨c,i,i,haccepts,.transferDGC (hfunds rfl)⟩⟩
    | credit =>
      obtain ⟨p,hp⟩ := h.registered
      have haccepts : Ledger.Accepts L signer (Handout.credit.answer doc) c i p :=
        ⟨⟨hc,hi⟩,rfl,hstored,(congrArg L.participant h.issued).trans hp⟩
      exact ⟨_,(Ledger.step_accept_iff rfl).mpr ⟨c,i,p,haccepts,.creditDGC⟩⟩

/-- An accepted transfer adds the amount to the balance of its receiver and takes it from
nobody. -/
theorem Offered.transfer_step (h : Offered .transfer params timestamp issuer L doc)
    (hstep : Ledger.Step range L ⟨signer,ts,.AnswerProposal (Handout.transfer.answer doc)⟩ L') :
    L'.balanceOf = Function.update L.balanceOf signer (L.balanceOf signer + params.DGC.getD 0) := by
  obtain ⟨c,hc,hreceiver⟩ := h.stored
  obtain ⟨_,i,_,haccepts,_⟩ := (Ledger.step_accept_iff rfl).mp hstep
  obtain ⟨hself,_⟩ := h.step_iff.mp ⟨L',hstep⟩
  obtain ⟨_,hL'⟩ := hstep.transfer_balanceOf rfl rfl hc hreceiver.symm
  rw [hL',hreceiver,h.receiver,hself]
  exact congrArg _ (congrArg _ h.amount)

/-- An accepted credit raises the credit of the participant that asked for it. -/
theorem Offered.credit_step (h : Offered .credit params timestamp issuer L doc)
    (hstep : Ledger.Step range L ⟨signer,ts,.AnswerProposal (Handout.credit.answer doc)⟩ L') :
    L'.creditOf = Function.update L.creditOf issuer (L.creditOf issuer + params.DGC.getD 0) ∧
      L'.balanceOf = L.balanceOf := by
  have hcredit := hstep.credit_creditOf rfl rfl
  have hreceiver : (Handout.credit.answer doc).receivingParticipant = issuer := h.issued
  rwa [hreceiver,Handout.answer,h.amount] at hcredit

end Answers

namespace Sample
open DgcRestApi.Sample

/-- The first participant has 50 coins. -/
def provided : List TpProcessRequest :=
  [propose "A" 5 { proposalId := "x", role := .buyDGC, dgCoinAmount := 100 },
   answer "A" 6
    { proposalId := "x", role := .buyDGC, response := .autoOPEN, dgCoinAmount := 50 }]

/-- Somebody asks for ten coins, to be accepted by the first participant. -/
def tenCoins (privateKey : String) : HandoutParams :=
  { privateKey, DGC := some 10, receivingKey := some "A" }

def asking (kind : Handout) (privateKey : String) : TpProcessRequest :=
  createHandout server 9 kind (tenCoins privateKey) (kind.proposalId 9)

def asked (kind : Handout) (privateKey : String) (s : State) : State :=
  outcome (apply plain orders (asking kind privateKey) s)

theorem answering {kind : Handout} {privateKey : String} {h : List (State × Tx)} {s : State}
    (hr : Reachable plain h s) (hok : (apply plain orders (asking kind privateKey) s).isOk = true) :
    ∃ h' db, Reachable plain h' (asked kind privateKey s) ∧
      Answering plain server kind (tenCoins privateKey) 9 9 db (asked kind privateKey s) := by
  obtain ⟨tx,_,hacc⟩ := accepted_of_apply (eq_outcome hok)
  obtain ⟨db,hm⟩ := @exists_mirror _ _ _ (hr.snoc hacc) 1 (by decide)
  exact ⟨_,db,hr.snoc hacc,
    .intro hr (.accepted (eq_outcome hok)) .nil hm .nil (fun e he => nomatch he)⟩

theorem reachable_provided : ∃ h, Reachable plain h (plainly provided) := by
  obtain ⟨h,hr,_⟩ := replay_run (@plainly_eq provided (by decide +kernel))
  exact ⟨h,hr⟩

end Sample

section Requests

variable {env : Env} {server : ServerEnv} {params params' : HandoutParams}
variable {timestamp now now' : Nat} {db : Db} {s : State} {kind : Handout}

/-- There is one answer, to the proposal that came last, whichever client asked for it. -/
theorem Answering.answered (hnow : now' ≠ 0)
    (h : Answering env server kind params timestamp now db s) :
    ∃ doc request, kind.answers server now' params' timestamp db = some [request] ∧
      Offered kind params timestamp (server.publicKey params.privateKey) (ledger env s) doc ∧
      (Writable env s request → ((∃ s', Submitted env request s true s') ↔
        params.receivingKey.getD "" = server.publicKey params'.privateKey ∧
          (kind = .transfer → params.DGC.getD 0 ≤
            (ledger env s).balanceOf (server.publicKey params'.privateKey)))) ∧
      ∀ s', Submitted env request s true s' → Ledger.Step env.range (ledger env s)
        ⟨server.publicKey params'.privateKey,now',.AnswerProposal (kind.answer doc)⟩
          (ledger env s') := by
  obtain ⟨h',doc,hr,hdocs,hoffer⟩ := h.offer
  have hnamed : (Action.AnswerProposal (kind.answer doc)).Named := trivial
  refine ⟨doc,answerHandout server now' kind params'.privateKey doc,?_,hoffer,fun hw => ?_,
    fun s' hs' => ?_⟩
  · rw [Handout.answers,hdocs]
    rfl
  · have hiff := @submitted_iff _ server params'.privateKey now' (.AnswerProposal (kind.answer doc))
      _ _ hr hw hnow
    exact hiff.trans ((and_iff_right hnamed).trans hoffer.step_iff)
  · have hstep := @Submitted.step _ _ _ _ (.AnswerProposal (kind.answer doc)) _ _ _ hr hs'
    exact hstep.2.2

/-- A client that asks for a transfer answers the last one that was asked for in the same second,
as a rule its own. The answer takes effect exactly if the client is to receive the coins and has
as many itself; then it has them twice. Coins never get from one participant to another. -/
theorem transfer_answered (hnow : now' ≠ 0)
    (h : Answering env server .transfer params timestamp now db s) :
    ∃ request, transferDGCoinProposal server now' params' timestamp db = some [request] ∧
      (Writable env s request → ((∃ s', Submitted env request s true s') ↔
        params.receivingKey.getD "" = server.publicKey params'.privateKey ∧
          params.DGC.getD 0 ≤ (ledger env s).balanceOf (server.publicKey params'.privateKey))) ∧
      ∀ s', Submitted env request s true s' → (ledger env s').balanceOf =
        Function.update (ledger env s).balanceOf (server.publicKey params'.privateKey)
          ((ledger env s).balanceOf (server.publicKey params'.privateKey) + params.DGC.getD 0) := by
  obtain ⟨_,request,hrequest,hoffer,hiff,hstep⟩ := Answering.answered hnow h
  refine ⟨request,hrequest,fun hw => ?_,fun s' hs' => hoffer.transfer_step (hstep s' hs')⟩
  rw [hiff hw]
  exact and_congr_right fun _ => ⟨fun hfunds => hfunds rfl,fun hfunds _ => hfunds⟩

/-- Of its 50 coins, the first participant transfers 10 to itself. -/
theorem transfer_answered_sample : ∃ db request s',
    transferDGCoinProposal Sample.server 10 (Sample.tenCoins "A") 9 db = some [request] ∧
      Submitted DgcRestApi.Sample.plain request
        (Sample.asked .transfer "A" (DgcRestApi.Sample.plainly Sample.provided)) true s' ∧
      (ledger DgcRestApi.Sample.plain s').balanceOf "A" = 60 := by
  obtain ⟨s,hs⟩ : ∃ s, s = Sample.asked .transfer "A"
    (DgcRestApi.Sample.plainly Sample.provided) := ⟨_,rfl⟩
  obtain ⟨h,hr⟩ := Sample.reachable_provided
  obtain ⟨_,db,hr',hdb⟩ := @Sample.answering .transfer "A" _ _ hr (by decide +kernel)
  have hbefore : (ledger DgcRestApi.Sample.plain s).balanceOf "A" = 50 := by
    rw [hs]
    decide +kernel
  rw [← hs] at hdb hr' ⊢
  obtain ⟨request,hrequest,hiff,heffect⟩ := @transfer_answered _ _ _ (Sample.tenCoins "A") _ _ 10
    _ _ (by decide) hdb
  obtain ⟨s',hs'⟩ := (hiff (writable_of_total hr' (fun _ => rfl) request)).mpr
    ⟨rfl,(by norm_num : (10 : ℚ) ≤ 50).trans hbefore.ge⟩
  have hafter : (ledger DgcRestApi.Sample.plain s').balanceOf "A" =
      (ledger DgcRestApi.Sample.plain s).balanceOf "A" + 10 :=
    (congrFun (heffect s' hs') "A").trans (Function.update_self ..)
  refine ⟨db,request,s',hrequest,hs',?_⟩
  rw [hafter,hbefore]
  norm_num

/-- A client that asks for credit accepts the last proposal for credit of the same second. The
answer takes effect exactly if the client is named as the receiver, whatever the amount, and
raises the credit of the one who asked last: a client lends to itself, or to somebody it never
heard of. -/
theorem credit_answered (hnow : now' ≠ 0)
    (h : Answering env server .credit params timestamp now db s) :
    ∃ request, applyDGCoinCredit server now' params' timestamp db = some [request] ∧
      (Writable env s request → ((∃ s', Submitted env request s true s') ↔
        params.receivingKey.getD "" = server.publicKey params'.privateKey)) ∧
      ∀ s', Submitted env request s true s' → (ledger env s').creditOf =
        Function.update (ledger env s).creditOf (server.publicKey params.privateKey)
          ((ledger env s).creditOf (server.publicKey params.privateKey) + params.DGC.getD 0) ∧
        (ledger env s').balanceOf = (ledger env s).balanceOf := by
  obtain ⟨_,request,hrequest,hoffer,hiff,hstep⟩ := Answering.answered hnow h
  refine ⟨request,hrequest,fun hw => ?_,fun s' hs' => hoffer.credit_step (hstep s' hs')⟩
  rw [hiff hw]
  exact and_iff_left nofun

/-- The first participant asks for credit, then the second one, naming the first: so the second
one gets the credit. -/
theorem credit_answered_sample : ∃ db request s',
    applyDGCoinCredit Sample.server 10 (Sample.tenCoins "A") 9 db = some [request] ∧
      Submitted DgcRestApi.Sample.plain request (Sample.asked .credit "B"
        (Sample.asked .credit "A" (DgcRestApi.Sample.plainly Sample.provided))) true s' ∧
      (ledger DgcRestApi.Sample.plain s').creditOf "B" = 10 := by
  obtain ⟨s,hs⟩ : ∃ s, s = Sample.asked .credit "B"
    (Sample.asked .credit "A" (DgcRestApi.Sample.plainly Sample.provided)) := ⟨_,rfl⟩
  obtain ⟨h,hr⟩ := Sample.reachable_provided
  obtain ⟨_,_,hr',_⟩ := @Sample.answering .credit "A" _ _ hr (by decide +kernel)
  obtain ⟨_,db,hr'',hdb⟩ := @Sample.answering .credit "B" _ _ hr' (by decide +kernel)
  have hbefore : (ledger DgcRestApi.Sample.plain s).creditOf "B" = 0 := by
    rw [hs]
    decide +kernel
  rw [← hs] at hdb hr'' ⊢
  obtain ⟨request,hrequest,hiff,heffect⟩ := @credit_answered _ _ _ (Sample.tenCoins "A") _ _ 10
    _ _ (by decide) hdb
  obtain ⟨s',hs'⟩ := (hiff (writable_of_total hr'' (fun _ => rfl) request)).mpr rfl
  have hafter : (ledger DgcRestApi.Sample.plain s').creditOf "B" =
      (ledger DgcRestApi.Sample.plain s).creditOf "B" + 10 :=
    (congrFun (heffect s' hs').1 "B").trans (Function.update_self ..)
  refine ⟨db,request,s',hrequest,hs',?_⟩
  rw [hafter,hbefore]
  norm_num

end Requests

end DgcRestApi.Server
