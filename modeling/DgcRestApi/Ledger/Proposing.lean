import DgcRestApi.Ledger.Answers
import DgcRestApi.Ledger.Execution

/-!
# Creating a proposal

A proposal is stored under the identifier its creator chose, and `_create_proposal` looks
neither whether there is one already nor whether an open one is about the same. So what a
new proposal does to the others depends on what is stored.
-/

namespace DgcRestApi
namespace Ledger

variable {range : String → Address} {L L' : Ledger} {tx : Tx} {x : String}

/-! ## Proposals that are not answered -/

/-- A step that creates a proposal leaves every stored one as it is. -/
def CreationKeeps (e : Ledger × Tx × Ledger) : Prop :=
  ∀ a, e.2.1.action = .CreateProposal a →
    ∀ x c, e.1.proposal x = some c → e.2.2.proposal x = some c

/-- The transaction creates no proposal, or under an identifier that is not in use, or once
more the very proposal that is stored under it. -/
def CreatesFresh (e : Ledger × Tx) : Prop :=
  ∀ a c, e.2.action = .CreateProposal a → e.1.proposal a.proposalId = some c →
    c = newProposal a e.2.signer e.2.timestamp

theorem Step.creationKeeps_iff (hstep : Step range L tx L') :
    CreationKeeps (L,tx,L') ↔ CreatesFresh (L,tx) := by
  constructor
  · intro hkeep a c ha hc
    obtain ⟨signer,ts,action⟩ := tx
    obtain rfl : action = .CreateProposal a := ha
    have hc' := hkeep a rfl _ c hc
    cases hstep
    simpa [eq_comm] using hc'
  · intro hfresh a ha x c hc
    obtain ⟨signer,ts,action⟩ := tx
    obtain rfl : action = .CreateProposal a := ha
    have hnew := hfresh a
    cases hstep
    by_cases hx : x = a.proposalId
    · subst hx
      rw [hnew c rfl hc]
      exact Function.update_self ..
    · exact (Function.update_of_ne hx _ _).trans hc

/-- Only an answer or a new proposal under its identifier changes a proposal. -/
theorem Step.proposal_kept (hstep : Step range L tx L') (hfresh : CreatesFresh (L,tx))
    (hans : tx.answers ≠ some x) {c : Proposal} (hc : L.proposal x = some c) :
    L'.proposal x = some c := by
  rcases hstep.proposal_cases with ⟨a,ha,_⟩ | ⟨a,_,ha,_,hL'⟩ | ⟨_,_,hL'⟩
  · exact hstep.creationKeeps_iff.mpr hfresh a ha x c hc
  · have hne : x ≠ a.proposalId := fun he => hans (by rw [Tx.answers,ha,he])
    rw [hL',Function.update_of_ne hne,hc]
  · rw [hL',hc]

theorem run_proposal_kept {h : List (Ledger × Tx)} (hr : Run (Step range) L h L')
    (hfresh : ∀ e ∈ h, CreatesFresh e) (hans : ∀ e ∈ h, e.2.answers ≠ some x) {c : Proposal}
    (hc : L.proposal x = some c) : L'.proposal x = some c := by
  induction hr with
  | nil => exact hc
  | snoc _ hs ih =>
    obtain ⟨hf,hfresh⟩ := List.forall_mem_cons.mp hfresh
    obtain ⟨ha,hans⟩ := List.forall_mem_cons.mp hans
    exact hs.proposal_kept hf ha (ih hfresh hans)

theorem run_created_kept {L₀ : Ledger} {h₁ h₂ : List (Ledger × Tx)} {e : Ledger × Tx}
    {a : CreateProposalAction} (hr : Run (Step range) L₀ (h₂ ++ e :: h₁) L)
    (hfresh : ∀ e ∈ h₂, CreatesFresh e) (ha : e.2.action = .CreateProposal a)
    (hans : ∀ e' ∈ h₂, e'.2.answers ≠ some a.proposalId) :
    L.proposal a.proposalId = some (newProposal a e.2.signer e.2.timestamp) := by
  obtain ⟨m,_,hcreate,hafter⟩ := hr.of_append
  obtain ⟨L₁,signer,ts,action⟩ := e
  obtain rfl : action = .CreateProposal a := ha
  refine run_proposal_kept hafter hfresh hans ?_
  cases hcreate
  exact Function.update_self ..

/-- No step of the run destroys a proposal by creating one, and every proposal that was
created in the run and not answered since is in the ledger as it was created. -/
structure ProposalsKept {σ : Type} (view : σ → Ledger) (h : List (σ × Tx)) (s : σ) : Prop where
  steps : ∀ e ∈ Run.steps h s, CreationKeeps (view e.1,e.2.1,view e.2.2)
  pending : ∀ h₁ h₂ e a, h = h₂ ++ e :: h₁ → e.2.action = .CreateProposal a →
    (∀ e' ∈ h₂, e'.2.answers ≠ some a.proposalId) →
      (view s).proposal a.proposalId = some (newProposal a e.2.signer e.2.timestamp)

/-! ## One open proposal -/

/-- No other open proposal has the role, the record and the receiver of `c`. -/
def Alone (L : Ledger) (x : String) (c : Proposal) : Prop :=
  ∀ y d, y ≠ x → L.proposal y = some d → d.status = .OPEN → d.role = c.role →
    d.recordId = c.recordId → d.receivingParticipant ≠ c.receivingParticipant

/-- Two open proposals of one role about records differ in the record or in the receiver. -/
def OneOpen (L : Ledger) : Prop :=
  ∀ x y c d, x ≠ y → L.proposal x = some c → L.proposal y = some d → c.status = .OPEN →
    d.status = .OPEN → c.role = d.role → c.role.OnRecord →
      c.recordId ≠ d.recordId ∨ c.receivingParticipant ≠ d.receivingParticipant

/-- The transaction stores an open proposal: a new one, or one that it opens again. -/
inductive Opens (e : Ledger × Tx) : String → Proposal → Prop
  | created {a} (ha : e.2.action = .CreateProposal a) :
      Opens e a.proposalId (newProposal a e.2.signer e.2.timestamp)
  | reopened {a c} (ha : e.2.action = .AnswerProposal a) (hresp : a.response = .autoOPEN)
      (hrole : a.role = .buyDGC ∨ a.role = .sellDGC) (hc : e.1.proposal a.proposalId = some c) :
      Opens e a.proposalId c

/-- The transaction opens no proposal about a record while another one is open. -/
def OpensAlone (e : Ledger × Tx) : Prop :=
  ∀ x c, Opens e x c → c.role.OnRecord → Alone e.1 x c

theorem oneOpen_empty : OneOpen empty := fun _ _ _ _ _ hc => nomatch hc

theorem OneOpen.alone (h : OneOpen L) {c : Proposal} (hc : L.proposal x = some c)
    (hopen : c.status = .OPEN) (hrole : c.role.OnRecord) : Alone L x c := by
  intro y d hy hd hdopen hdrole hrecord hreceiver
  have hdiff := h x y c d hy.symm hc hd hopen hdopen hdrole.symm hrole
  rw [hrecord,hreceiver] at hdiff
  simp at hdiff

/-- Storing a proposal keeps the others apart, so only the new one matters. -/
theorem oneOpen_update {c : Proposal} (h : OneOpen L)
    (hL' : L'.proposal = Function.update L.proposal x (some c)) :
    OneOpen L' ↔ (c.status = .OPEN → c.role.OnRecord → Alone L x c) := by
  have hother : ∀ y, y ≠ x → L'.proposal y = L.proposal y := by
    intro y hy
    rw [hL',Function.update_of_ne hy]
  have hself : L'.proposal x = some c := by rw [hL',Function.update_self]
  constructor
  · intro h' hopen hrole y d hy hd
    exact h'.alone hself hopen hrole y d hy ((hother y hy).trans hd)
  · intro hc y z d e hyz hd he hdopen heopen hrole hon
    by_cases hy : y = x
    · subst hy
      obtain rfl := Option.some.inj (hself.symm.trans hd)
      rw [hother z hyz.symm] at he
      have halone := hc hdopen hon z e hyz.symm he heopen hrole.symm
      by_cases hrecord : c.recordId = e.recordId
      · exact Or.inr (halone hrecord.symm).symm
      · exact Or.inl hrecord
    · rw [hother y hy] at hd
      by_cases hz : z = x
      · subst hz
        obtain rfl := Option.some.inj (hself.symm.trans he)
        have halone := hc heopen (hrole ▸ hon) y d hyz hd hdopen hrole
        by_cases hrecord : d.recordId = c.recordId
        · exact Or.inr (halone hrecord)
        · exact Or.inl hrecord
      · rw [hother z hz] at he
        exact h y z d e hyz hd he hdopen heopen hrole hon

/-- An answer leaves an open proposal only if it leaves it alone or opens it. -/
theorem answered_open {c : Proposal} {a : AnswerProposalAction}
    (h : (answered c a).status = .OPEN) : answered c a = c ∨
      a.response = .autoOPEN ∧ (a.role = .buyDGC ∨ a.role = .sellDGC) := by
  unfold answered at h ⊢
  cases hresp : a.response with
  | CANCEL | REJECT =>
    rw [hresp] at h
    exact nomatch h
  | autoOPEN =>
    by_cases hrole : a.role = .buyDGC ∨ a.role = .sellDGC
    · exact Or.inr ⟨rfl,hrole⟩
    · exact Or.inl (if_neg hrole)
  | autoCLOSE =>
    by_cases hrole : a.role = .buyDGC ∨ a.role = .sellDGC
    · simp [hresp,hrole] at h
    · exact Or.inl (if_neg hrole)
  | ACCEPT =>
    by_cases hrole : a.role = .buyDGC ∨ a.role = .sellDGC
    · exact Or.inl (if_pos hrole)
    · simp [hresp,hrole] at h

/-- An answer changes the status and the coins exchanged, and nothing else. -/
theorem answered_eq (c : Proposal) (a : AnswerProposalAction) : answered c a =
    { c with
      dgCoinExchanged := (answered c a).dgCoinExchanged
      status := (answered c a).status } := by
  unfold answered
  cases a.response with
  | CANCEL | REJECT => rfl
  | autoOPEN | autoCLOSE | ACCEPT =>
    dsimp only
    split <;> rfl

theorem Step.oneOpen_iff (h : OneOpen L) (hstep : Step range L tx L') :
    OneOpen L' ↔ OpensAlone (L,tx) := by
  rcases hstep.proposal_cases with ⟨a,ha,hL'⟩ | ⟨a,c,ha,hc,hL'⟩ | ⟨hcreate,hanswer,hL'⟩
  · rw [oneOpen_update h hL']
    constructor
    · intro halone x c hopens hrole
      cases hopens with
      | created ha' =>
        obtain rfl := Action.CreateProposal.inj (ha.symm.trans ha')
        exact halone rfl hrole
      | reopened ha' => exact nomatch ha.symm.trans ha'
    · exact fun halone _ hrole => halone _ _ (.created ha) hrole
  · have hrole : (answered c a).role = c.role := by rw [answered_eq]
    have hsame : Alone L a.proposalId (answered c a) ↔ Alone L a.proposalId c := by
      rw [answered_eq]
      exact Iff.rfl
    rw [oneOpen_update h hL',hsame,hrole]
    constructor
    · intro halone x c' hopens hon
      cases hopens with
      | created ha' => exact nomatch ha.symm.trans ha'
      | reopened ha' hresp htrade hc' =>
        obtain rfl := Action.AnswerProposal.inj (ha.symm.trans ha')
        obtain rfl := Option.some.inj (hc.symm.trans hc')
        refine halone ?_ hon
        simp [answered,hresp,htrade]
    · intro halone hopen hon
      rcases answered_open hopen with hkept | ⟨hresp,htrade⟩
      · -- it was open before, so it was alone
        exact h.alone hc (hkept ▸ hopen) hon
      · exact halone _ _ (.reopened ha hresp htrade hc) hon
  · have hone : OneOpen L' := by
      rw [OneOpen,hL']
      exact h
    refine iff_of_true hone fun x c hopens => ?_
    cases hopens with
    | created ha => exact absurd ha (hcreate _)
    | reopened ha => exact absurd ha (hanswer _)

end Ledger

/-- At most one proposal is open per role, record and receiver in every state of a run
exactly when the run opens none while there is another one. -/
theorem one_open_iff {env : Env} {h : List (State × Tx)} {s : State} (hr : Reachable env h s) :
    (∀ x ∈ Run.states h s, Ledger.OneOpen (ledger env x)) ↔
      ∀ e ∈ h, Ledger.OpensAlone (ledger env e.1,e.2) :=
  reachable_states_iff (fun _ _ _ hL hstep => hstep.oneOpen_iff hL) Ledger.oneOpen_empty
    (fun _ _ _ _ => Iff.rfl) hr

/-- A transaction adds no proposal under another identifier than its own. -/
theorem Accepted.unproposed {env : Env} {h : List (State × Tx)} {s s' : State} {tx : Tx}
    {x : String} (hacc : Accepted env s tx s') (hr : Reachable env h s)
    (hother : tx.proposes ≠ some x) (hnone : (ledger env s).proposal x = none) :
    (ledger env s').proposal x = none :=
  (accepted_refines (reachable_refines hr).1 hacc).2.unproposed hother hnone

/-- Requests that create no proposal: there is none in any state of the run. -/
theorem not_proposed {env : Env} {h : List (State × Tx)} {s : State}
    {requests : List TpProcessRequest} (hr : Reachable env h s)
    (hmap : h.map (fun e => some e.2) = (requests.map TpProcessRequest.tx?).reverse)
    (hnone : requests.filterMap (fun r => r.tx?.bind Tx.proposes) = []) :
    (∀ e ∈ h, e.2.proposes = none) ∧
      ∀ x ∈ Run.states h s, ∀ y, (ledger env x).proposal y = none := by
  have hproposes := filterMap_history hmap Tx.proposes
  rw [hnone,List.reverse_nil,List.filterMap_eq_nil_iff] at hproposes
  have hrun := (reachable_refines hr).2.restrict (fun e => e.2.proposes = none)
    (forall_ledgers.mpr hproposes)
  have hiff := hrun.states_iff (fun L => ∀ y, L.proposal y = none) (fun _ => True)
    (fun L tx L' hL hstep => iff_of_true
      (fun y => hstep.1.unproposed (by rw [show tx.proposes = none from hstep.2]; exact nofun)
        (hL y)) trivial)
    (fun _ => rfl)
  rw [states_ledgers,List.forall_mem_map] at hiff
  exact ⟨hproposes,hiff.mpr fun _ _ => trivial⟩

namespace Sample

/-- The first participant offers the record to the second one. -/
def offering (proposalId : String) : CreateProposalAction :=
  { proposalId, role := .transferOwnership, receivingParticipant := "B", recordId := "r" }

def offer (proposalId : String) : TpProcessRequest := propose "A" 5 (offering proposalId)

/-- The first participant withdraws an offer. -/
def withdrawing (proposalId : String) : AnswerProposalAction :=
  { proposalId, role := .transferOwnership, response := .CANCEL, receivingParticipant := "B"
    recordId := "r" }

def outstanding : State := next (offer "x") (after [])

def withdrawn : State := next (answer "A" 6 (withdrawing "x")) outstanding

/-- A participant takes the record it was offered. -/
def taking (proposalId receivingParticipant : String) : AnswerProposalAction :=
  { proposalId, role := .transferOwnership, response := .ACCEPT, receivingParticipant
    recordId := "r" }

end Sample

/-- An offer is made, withdrawn, and made again under another identifier. -/
theorem one_open_sample : ∃ h, Reachable Sample.env h
      (Sample.next (Sample.offer "y") Sample.withdrawn) ∧
    ∀ x ∈ Run.states h (Sample.next (Sample.offer "y") Sample.withdrawn),
      Ledger.OneOpen (ledger Sample.env x) := by
  obtain ⟨h,hr,hmap⟩ := @Sample.reachable [] (by decide +kernel)
  have hoffer : Accepted Sample.env (Sample.after []) ⟨"A",5,.CreateProposal (Sample.offering "x")⟩
      Sample.outstanding := ⟨Sample.orders,Sample.offer "x",rfl,Sample.next_eq (by decide +kernel)⟩
  have hcancel : Accepted Sample.env Sample.outstanding
      ⟨"A",6,.AnswerProposal (Sample.withdrawing "x")⟩ Sample.withdrawn :=
    Sample.accepted_answer _ _ _ _ (by decide +kernel)
  have hagain : Accepted Sample.env Sample.withdrawn
      ⟨"A",5,.CreateProposal (Sample.offering "y")⟩
        (Sample.next (Sample.offer "y") Sample.withdrawn) :=
    ⟨Sample.orders,Sample.offer "y",rfl,Sample.next_eq (by decide +kernel)⟩
  have hrun := ((hr.snoc hoffer).snoc hcancel).snoc hagain
  obtain ⟨hcreate,hnone⟩ := not_proposed hr hmap (by decide +kernel)
  refine ⟨_,hrun,(one_open_iff hrun).mpr ?_⟩
  rw [List.forall_mem_cons,List.forall_mem_cons,List.forall_mem_cons]
  refine ⟨fun x c hopens _ y d hy hd hopen => ?_,fun x c hopens => ?_,?_,fun e he x c hopens => ?_⟩
  · cases hopens with
    | created ha =>
      dsimp only at hd
      -- the only other proposal is the one that was withdrawn
      by_cases hx : y = "x"
      · subst hx
        have hstatus : ((ledger Sample.env Sample.withdrawn).proposal "x").map Proposal.status =
            some .CANCELED := by decide +kernel
        rw [hd,Option.map_some,hopen] at hstatus
        exact nomatch hstatus
      · have hunproposed := hcancel.unproposed (hr.snoc hoffer) nofun
          (hoffer.unproposed hr (fun h => hx (Option.some.inj h).symm)
            (hnone _ List.mem_cons_self y))
        rw [hunproposed] at hd
        exact nomatch hd
    | reopened ha => exact nomatch ha
  · cases hopens with
    | created ha => exact nomatch ha
    | reopened ha hresp =>
      obtain rfl := Action.AnswerProposal.inj ha
      exact nomatch hresp
  · intro x c _ _ y d _ hd
    dsimp only at hd
    rw [hnone _ List.mem_cons_self] at hd
    cases hd
  · cases hopens with
    | created ha =>
      have hnew := hcreate e he
      rw [Tx.proposes,ha] at hnew
      cases hnew
    | reopened ha => exact absurd ha (not_answered hmap (by decide +kernel) he _)

/-- The first participant has two open offers of one record to the second. -/
theorem two_open : ∃ h, Reachable Sample.env h (Sample.after [Sample.offer "x",Sample.offer "y"]) ∧
    ¬ ∀ x ∈ Run.states h (Sample.after [Sample.offer "x",Sample.offer "y"]),
      Ledger.OneOpen (ledger Sample.env x) := by
  obtain ⟨h,hr,_⟩ := @Sample.reachable [Sample.offer "x",Sample.offer "y"] (by decide +kernel)
  refine ⟨h,hr,fun hone => ?_⟩
  obtain ⟨c,hc,hcs⟩ := Option.map_eq_some_iff.mp (show
    ((ledger Sample.env (Sample.after [Sample.offer "x",Sample.offer "y"])).proposal "x").map
      (fun c => (c.status,c.role,c.recordId,c.receivingParticipant)) =
        some (.OPEN,.transferOwnership,"r","B") by decide +kernel)
  obtain ⟨d,hd,hds⟩ := Option.map_eq_some_iff.mp (show
    ((ledger Sample.env (Sample.after [Sample.offer "x",Sample.offer "y"])).proposal "y").map
      (fun c => (c.status,c.role,c.recordId,c.receivingParticipant)) =
        some (.OPEN,.transferOwnership,"r","B") by decide +kernel)
  simp only [Prod.mk.injEq] at hcs hds
  have hdiff := hone _ List.mem_cons_self "x" "y" c d (by decide) hc hd hcs.1 hds.1
    (hcs.2.1.trans hds.2.1.symm) (Or.inl hcs.2.1)
  rw [hcs.2.2.1,hds.2.2.1,hcs.2.2.2,hds.2.2.2] at hdiff
  simp at hdiff

end DgcRestApi
