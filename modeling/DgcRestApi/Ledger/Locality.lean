import DgcRestApi.Kit.Local
import DgcRestApi.Ledger.Reference

/-!
# Locality

The validator's state is shared with other families, and a transaction may touch the addresses
that its header declares and no others. The handler reads and writes only under the prefix of
its family, so what it does is independent of what the others store and leaves it alone: a
ledger that shares its state is one that has the state to itself.
-/

namespace DgcRestApi
open Addressing Fallible Local

/-- The address is one of the family. -/
def InNamespace (sha : Sha512) (A : Address) : Prop := A.take 6 = getDgcRestApiPrefix sha

instance (sha : Sha512) (A : Address) : Decidable (InNamespace sha A) :=
  inferInstanceAs (Decidable (_ = _))

section Addresses

variable (sha : Sha512)

theorem inNamespace_append (rest : Address) : InNamespace sha (getDgcRestApiPrefix sha ++ rest) :=
  List.take_left' length_getDgcRestApiPrefix

theorem inNamespace_participant (k : String) : InNamespace sha (makeParticipantAddress sha k) := by
  rw [makeParticipantAddress,List.append_assoc]
  exact inNamespace_append sha _

theorem inNamespace_record (r : String) : InNamespace sha (makeRecordAddress sha r) := by
  rw [makeRecordAddress,List.append_assoc]
  exact inNamespace_append sha _

theorem inNamespace_table (n : String) : InNamespace sha (makeTableAddress sha n) := by
  rw [makeTableAddress,List.append_assoc]
  exact inNamespace_append sha _

theorem inNamespace_property (r n : String) (k : Nat) :
    InNamespace sha (makePropertyAddress sha r n k) := by
  simp only [makePropertyAddress,makePropertyAddressRange,List.append_assoc]
  exact inNamespace_append sha _

theorem inNamespace_proposal (x : String) : InNamespace sha (makeProposalAddress sha x) := by
  rw [makeProposalAddress,List.append_assoc]
  exact inNamespace_append sha _

theorem inNamespace_exchange (b v : String) : InNamespace sha (makeExchangeAddress sha b v) := by
  simp only [makeExchangeAddress,List.append_assoc]
  exact inNamespace_append sha _

end Addresses

/-- Two states during runs of the handler from `s₀` and `t₀`. -/
abbrev Paired (env : Env) (s₀ t₀ : State) : State → State → Prop :=
  Beside (InNamespace env.sha) s₀ t₀

section Store

variable {α κ : Type} [LinearOrder κ] {K : Kind α κ} {env : Env} {s₀ t₀ s t : State} {A : Address}

omit [LinearOrder κ] in
theorem loadEntries_congr (h : s A = t A) : loadEntries K s A = loadEntries K t A := by
  rw [loadEntries,loadEntries,h]

theorem storeEntries_alike (h : Paired env s₀ t₀ s t) (hA : InNamespace env.sha A) (es : List α) :
    Alike (Paired env s₀ t₀) (storeEntries K env s A es) (storeEntries K env t A es) := by
  rw [storeEntries,storeEntries]
  split
  · exact .ok (h.update hA _)
  · exact .error _

theorem setEntry_alike (h : Paired env s₀ t₀ s t) (hA : InNamespace env.sha A) (k : κ) (e : α) :
    Alike (Paired env s₀ t₀) (setEntry K env s A k e) (setEntry K env t A k e) := by
  refine .same (loadEntries_congr (h.agree A hA)) fun es => ?_
  exact .same rfl fun es => storeEntries_alike h hA _

theorem getEntry_congr (h : Paired env s₀ t₀ s t) (hA : InNamespace env.sha A) (k : κ) :
    getEntry K s A k = getEntry K t A k := by
  rw [getEntry,getEntry,loadEntries_congr (h.agree A hA)]

end Store

section Actions

variable {env : Env} {orders : Orders} {s₀ t₀ s t : State} {signer r n : String} {ts : Nat}

theorem getParticipant_congr (h : Paired env s₀ t₀ s t) (k : String) :
    getParticipant env s k = getParticipant env t k :=
  getEntry_congr h (inNamespace_participant _ k) k

theorem getRecord_congr (h : Paired env s₀ t₀ s t) (r : String) :
    getRecord env s r = getRecord env t r := getEntry_congr h (inNamespace_record _ r) r

theorem getTable_congr (h : Paired env s₀ t₀ s t) (n : String) :
    getTable env s n = getTable env t n := getEntry_congr h (inNamespace_table _ n) n

theorem getProperty_congr (h : Paired env s₀ t₀ s t) (r n : String) :
    getProperty env s r n = getProperty env t r n :=
  getEntry_congr h (inNamespace_property _ r n 0) n

theorem getPropertyPage_congr (h : Paired env s₀ t₀ s t) (r n : String) (k : Nat) :
    getPropertyPage env s r n k = getPropertyPage env t r n k :=
  getEntry_congr h (inNamespace_property _ r n k) n

theorem getProposal_congr (h : Paired env s₀ t₀ s t) (x : String) :
    getProposal env s x = getProposal env t x := getEntry_congr h (inNamespace_proposal _ x) x

/-- A lookup whose object must be there. -/
theorem expect_congr {α : Type} {x y : Except ApplyError (Option α)} (h : x = y)
    (e : ApplyError) : expect x e = expect y e := congrArg (expect · e) h

theorem absent_congr {α : Type} {x y : Except ApplyError (Option α)} (h : x = y)
    (e : α → ApplyError) : absent x e = absent y e := congrArg (absent · e) h

theorem setParticipant_alike (h : Paired env s₀ t₀ s t) (k : String) (p : Participant) :
    Alike (Paired env s₀ t₀) (setParticipant env s k p) (setParticipant env t k p) :=
  setEntry_alike h (inNamespace_participant _ k) k p

theorem setRecord_alike (h : Paired env s₀ t₀ s t) (r : String) (rec : Record) :
    Alike (Paired env s₀ t₀) (setRecord env s r rec) (setRecord env t r rec) :=
  setEntry_alike h (inNamespace_record _ r) r rec

theorem setTable_alike (h : Paired env s₀ t₀ s t) (n : String) (table : Table) :
    Alike (Paired env s₀ t₀) (setTable env s n table) (setTable env t n table) :=
  .same (loadEntries_congr (h.agree _ (inNamespace_table _ n))) fun _ =>
    storeEntries_alike h (inNamespace_table _ n) _

theorem setProperty_alike (h : Paired env s₀ t₀ s t) (r n : String) (q : Property) :
    Alike (Paired env s₀ t₀) (setProperty env s r n q) (setProperty env t r n q) :=
  setEntry_alike h (inNamespace_property _ r n 0) n q

theorem setPropertyPage_alike (h : Paired env s₀ t₀ s t) (r n : String) (k : Nat)
    (page : PropertyPage) :
    Alike (Paired env s₀ t₀) (setPropertyPage env s r n k page)
      (setPropertyPage env t r n k page) :=
  setEntry_alike h (inNamespace_property _ r n k) n page

theorem setProposal_alike (h : Paired env s₀ t₀ s t) (x : String) (c : Proposal) :
    Alike (Paired env s₀ t₀) (setProposal env s x c) (setProposal env t x c) :=
  setEntry_alike h (inNamespace_proposal _ x) x c

theorem setExchange_alike (h : Paired env s₀ t₀ s t) (b v : String) (e : Exchange) :
    Alike (Paired env s₀ t₀) (setExchange env s b v e) (setExchange env t b v e) :=
  setEntry_alike h (inNamespace_exchange _ b v) _ e

theorem createParticipant_alike (a : CreateParticipantAction) (h : Paired env s₀ t₀ s t) :
    Alike (Paired env s₀ t₀) (createParticipant env a s signer ts)
      (createParticipant env a t signer ts) :=
  .same (absent_congr (getParticipant_congr h signer) _) fun _ => setParticipant_alike h _ _

theorem initProperty_alike (provided : HashMap PropertyValue)
    (entry : Sigma fun _ : String => PropertySchema) (h : Paired env s₀ t₀ s t) :
    Alike (Paired env s₀ t₀) (initProperty env r signer ts provided s entry)
      (initProperty env r signer ts provided t entry) :=
  (setProperty_alike h _ _ _).bind fun _ _ h => .same rfl fun _ => .same rfl fun _ =>
    setPropertyPage_alike h _ _ _ _

theorem createRecord_alike (a : CreateRecordAction) (h : Paired env s₀ t₀ s t) :
    Alike (Paired env s₀ t₀) (createRecord env orders a s signer ts)
      (createRecord env orders a t signer ts) := by
  refine .same (expect_congr (getParticipant_congr h _) _) fun _ => ?_
  refine .same (absent_congr (getRecord_congr h _) _) fun _ => ?_
  refine .same (expect_congr (getTable_congr h _) _) fun _ => ?_
  refine .same rfl fun _ => .same rfl fun _ => (setRecord_alike h _ _).bind fun _ _ h => ?_
  exact Alike.foldlM (fun _ _ entry h => initProperty_alike _ entry h) h

theorem finalizeRecord_alike (a : FinalizeRecordAction) (h : Paired env s₀ t₀ s t) :
    Alike (Paired env s₀ t₀) (finalizeRecord env a s signer) (finalizeRecord env a t signer) := by
  refine .same (expect_congr (getRecord_congr h _) _) fun _ => ?_
  refine .same rfl fun _ => .same rfl fun _ => .same rfl fun _ => .same rfl fun _ => ?_
  exact setRecord_alike h _ _

theorem createTable_alike (a : CreateTableAction) (h : Paired env s₀ t₀ s t) :
    Alike (Paired env s₀ t₀) (createTable env a s signer) (createTable env a t signer) :=
  .same (absent_congr (getTable_congr h _) _) fun _ => setTable_alike h _ _

theorem updateProperty_alike (u : PropertyValue) (h : Paired env s₀ t₀ s t) :
    Alike (Paired env s₀ t₀) (updateProperty env r signer ts s u)
      (updateProperty env r signer ts t u) := by
  refine .same (expect_congr (getProperty_congr h r u.name) _) fun prop => ?_
  refine .same rfl fun _ => .same rfl fun _ => .same rfl fun _ => ?_
  refine .same (expect_congr (getPropertyPage_congr h r u.name _) _) fun page => ?_
  refine .same rfl fun v => (setPropertyPage_alike h _ _ _ _).bind fun _ _ h => ?_
  split
  · refine .same rfl fun _ => .same (getPropertyPage_congr h r u.name _) fun _ => ?_
    exact (setPropertyPage_alike h _ _ _ _).bind fun _ _ h => setProperty_alike h _ _ _
  · exact .ok h

theorem updateProperties_alike (a : UpdatePropertiesAction) (h : Paired env s₀ t₀ s t) :
    Alike (Paired env s₀ t₀) (updateProperties env a s signer ts)
      (updateProperties env a t signer ts) := by
  refine .same (expect_congr (getRecord_congr h _) _) fun _ => .same rfl fun _ => ?_
  exact Alike.foldlM (fun _ _ u h => updateProperty_alike u h) h

theorem revokeReporter_alike (a : RevokeReporterAction) (h : Paired env s₀ t₀ s t) :
    Alike (Paired env s₀ t₀) (revokeReporter env a s signer) (revokeReporter env a t signer) := by
  refine .same (expect_congr (getRecord_congr h _) _) fun _ => ?_
  refine .same rfl fun _ => .same rfl fun _ => .same rfl fun _ => ?_
  refine Alike.foldlM (fun _ _ n h => ?_) h
  refine .same (expect_congr (getProperty_congr h _ n) _) fun _ => .same rfl fun _ => ?_
  exact .same rfl fun _ => setProperty_alike h _ _ _

theorem proposalRecord_congr (h : Paired env s₀ t₀ s t) (r : String) :
    proposalRecord env s r = proposalRecord env t r := by
  rw [proposalRecord,proposalRecord,getRecord_congr h]

theorem createProposal_alike (a : CreateProposalAction) (h : Paired env s₀ t₀ s t) :
    Alike (Paired env s₀ t₀) (createProposal env a s signer ts)
      (createProposal env a t signer ts) := by
  have hreceiver : checkReceiver env a s = checkReceiver env a t := by
    rw [checkReceiver,checkReceiver,getParticipant_congr h]
  have howner : checkOwner env a s signer = checkOwner env a t signer := by
    rw [checkOwner,checkOwner,proposalRecord_congr h]
  have hcustodian : checkCustodian env a s signer = checkCustodian env a t signer := by
    rw [checkCustodian,checkCustodian,proposalRecord_congr h]
  rw [createProposal,createProposal,hreceiver,howner,hcustodian]
  refine .same (expect_congr (getParticipant_congr h _) _) fun _ => ?_
  refine .same rfl fun _ => .same rfl fun _ => .same rfl fun _ => .same rfl fun _ => ?_
  exact .same rfl fun _ => setProposal_alike h _ _

section Answers

variable (a : AnswerProposalAction) (c : Proposal) (i p : Participant) (status : Status)

theorem setExchanges_alike (es : List Exchange) (h : Paired env s₀ t₀ s t) :
    Alike (Paired env s₀ t₀) (setExchanges env es s) (setExchanges env es t) :=
  Alike.foldlM (fun _ _ e h =>
    setExchange_alike h e.buyProposalId e.sellProposalId (newExchange e)) h

theorem autoFill_alike (es : List Exchange) (amount : ℚ) (h : Paired env s₀ t₀ s t) :
    Alike (Paired env s₀ t₀) (autoFill env a es status amount c i s signer ts)
      (autoFill env a es status amount c i t signer ts) := by
  refine (setParticipant_alike h signer _).bind fun _ _ h => ?_
  exact (setExchanges_alike es h).bind fun _ _ h => setProposal_alike h _ _

theorem autoAnswer_alike (es : List Exchange) (h : Paired env s₀ t₀ s t) :
    Alike (Paired env s₀ t₀) (autoAnswer env a es status c i s signer ts)
      (autoAnswer env a es status c i t signer ts) := by
  rw [autoAnswer,autoAnswer]
  cases a.role with
  | buyDGC => exact autoFill_alike a c i status es _ h
  | sellDGC => exact .same rfl fun _ => autoFill_alike a c i status es _ h
  | _ => exact .ok h

theorem acceptOwnership_alike (h : Paired env s₀ t₀ s t) :
    Alike (Paired env s₀ t₀) (acceptOwnership env a c s ts) (acceptOwnership env a c t ts) := by
  refine .same (expect_congr (getRecord_congr h _) _) fun _ => .same rfl fun _ => ?_
  refine (setRecord_alike h _ _).bind fun _ _ h => ?_
  refine .same (expect_congr (getTable_congr h _) _) fun _ => ?_
  refine (Alike.foldlM (fun _ _ col h => ?_) h).bind fun _ _ h => setProposal_alike h _ _
  exact .same (expect_congr (getProperty_congr h _ _) _) fun _ => setProperty_alike h _ _ _

theorem acceptReporter_alike (h : Paired env s₀ t₀ s t) :
    Alike (Paired env s₀ t₀) (acceptReporter env a c s) (acceptReporter env a c t) := by
  refine .same (expect_congr (getRecord_congr h _) _) fun _ => .same rfl fun _ => ?_
  refine (Alike.foldlM (fun _ _ n h => ?_) h).bind fun _ _ h => setProposal_alike h _ _
  exact .same (expect_congr (getProperty_congr h _ n) _) fun _ => setProperty_alike h _ _ _

theorem acceptProposal_alike (h : Paired env s₀ t₀ s t) :
    Alike (Paired env s₀ t₀) (acceptProposal env a c i s signer ts)
      (acceptProposal env a c i t signer ts) := by
  refine .same rfl fun _ => .same (expect_congr (getParticipant_congr h _) _) fun p => ?_
  cases a.role with
  | creditDGC =>
    exact (setParticipant_alike h _ _).bind fun _ _ h => setProposal_alike h _ _
  | buyDGC => exact .ok h
  | sellDGC => exact .ok h
  | transferDGC =>
    refine .same rfl fun _ => (setParticipant_alike h _ _).bind fun _ _ h => ?_
    exact (setParticipant_alike h _ _).bind fun _ _ h => setProposal_alike h _ _
  | transferOwnership => exact acceptOwnership_alike a c h
  | transferCustodianship =>
    refine .same (expect_congr (getRecord_congr h _) _) fun _ => .same rfl fun _ => ?_
    exact (setRecord_alike h _ _).bind fun _ _ h => setProposal_alike h _ _
  | authorizeReporter => exact acceptReporter_alike a c h

theorem answerProposal_alike (h : Paired env s₀ t₀ s t) :
    Alike (Paired env s₀ t₀) (answerProposal env a s signer ts)
      (answerProposal env a t signer ts) := by
  refine .same (expect_congr (getProposal_congr h _) _) fun c => ?_
  refine .same (expect_congr (getParticipant_congr h _) _) fun i => ?_
  cases a.response with
  | CANCEL => exact .same rfl fun _ => setProposal_alike h _ _
  | REJECT => exact .same rfl fun _ => setProposal_alike h _ _
  | autoOPEN => exact autoAnswer_alike a c i _ _ h
  | autoCLOSE => exact autoAnswer_alike a c i _ _ h
  | ACCEPT => exact acceptProposal_alike a c i h

end Answers

theorem dispatch_alike (payload : PayloadDGC) (h : Paired env s₀ t₀ s t) :
    Alike (Paired env s₀ t₀) (dispatch env orders payload s signer)
      (dispatch env orders payload t signer) := by
  rw [dispatch,dispatch]
  cases payload.action with
  | CreateParticipant a => exact createParticipant_alike a h
  | CreateRecord a => exact createRecord_alike a h
  | FinalizeRecord a => exact finalizeRecord_alike a h
  | CreateTable a => exact createTable_alike a h
  | UpdateProperties a => exact updateProperties_alike a h
  | CreateProposal a => exact createProposal_alike a h
  | AnswerProposal a => exact answerProposal_alike a h
  | RevokeReporter a => exact revokeReporter_alike a h

end Actions

/-- What `apply` answers and what it writes depends on the addresses of the family alone. -/
theorem apply_alike {env : Env} {orders : Orders} {s t : State} (request : TpProcessRequest)
    (h : ∀ A, InNamespace env.sha A → s A = t A) :
    Alike (Paired env s t) (apply env orders request s) (apply env orders request t) :=
  .same rfl fun payload => .same rfl fun _ => dispatch_alike payload (.refl h)

/-! ## A shared state -/

/-- The part of the state that is at addresses of the family. -/
def confine (sha : Sha512) (s : State) : State := fun A => if InNamespace sha A then s A else none

/-- A step of a validator that runs other families as well: a transaction of this one, or any
change of what the others store. -/
inductive SharedStep (env : Env) : State → Option Tx → State → Prop
  | ours {s s' : State} {tx : Tx} (h : Accepted env s tx s') : SharedStep env s (some tx) s'
  | others {s s' : State} (h : ∀ A, InNamespace env.sha A → s' A = s A) : SharedStep env s none s'

/-- The transactions of the family, each with the state of the family it started in. -/
def ownSteps (env : Env) (h : List (State × Option Tx)) : List (State × Tx) :=
  h.filterMap fun e => e.2.map fun tx => (confine env.sha e.1,tx)

section Shared

variable {env : Env} {s s' t : State} {tx : Tx} {A : Address}

theorem confine_in (hA : InNamespace env.sha A) : confine env.sha s A = s A := if_pos hA

theorem confine_eq (hs : ∀ A, ¬InNamespace env.sha A → t A = none)
    (h : ∀ A, InNamespace env.sha A → s A = t A) : confine env.sha s = t := by
  funext A
  by_cases hA : InNamespace env.sha A
  · rw [confine_in hA,h A hA]
  · rw [confine,if_neg hA,hs A hA]

/-- An accepted transaction is accepted in every state that agrees on the family. -/
theorem Accepted.beside (hacc : Accepted env s tx s')
    (h : ∀ A, InNamespace env.sha A → s A = t A) :
    ∃ t', Accepted env t tx t' ∧ Paired env s t s' t' := by
  obtain ⟨orders,request,htx,hok⟩ := hacc
  obtain ⟨t',ht',hpaired⟩ := (apply_alike request h).ok_left hok
  exact ⟨t',⟨orders,request,htx,ht'⟩,hpaired⟩

theorem Accepted.confine (hacc : Accepted env s tx s') :
    Accepted env (confine env.sha s) tx (DgcRestApi.confine env.sha s') := by
  obtain ⟨t',ht',hpaired⟩ := hacc.beside (t := DgcRestApi.confine env.sha s) fun A hA =>
    (confine_in hA).symm
  have hconfined : DgcRestApi.confine env.sha s' = t' :=
    confine_eq (fun A hA => (hpaired.right A hA).trans (if_neg hA)) hpaired.agree
  rwa [hconfined]

theorem lookupEntry_confine {α κ : Type} [LinearOrder κ] {K : Kind α κ} {k : κ}
    (hA : InNamespace env.sha A) : lookupEntry K (confine env.sha s) A k = lookupEntry K s A k := by
  rw [lookupEntry,lookupEntry,getEntry,getEntry,loadEntries_congr (confine_in hA)]

/-- The ledger is what the family stores. -/
theorem ledger_confine (env : Env) (s : State) : ledger env (confine env.sha s) = ledger env s := by
  refine Ledger.ext ?_ ?_ ?_ ?_ ?_ ?_ ?_
  · exact funext fun k => lookupEntry_confine (inNamespace_participant _ k)
  · exact funext fun r => lookupEntry_confine (inNamespace_record _ r)
  · exact funext fun n => lookupEntry_confine (inNamespace_table _ n)
  · exact funext fun r => funext fun n => lookupEntry_confine (inNamespace_property _ r n 0)
  · exact funext fun r => funext fun n => funext fun k =>
      lookupEntry_confine (inNamespace_property _ r n k)
  · exact funext fun x => lookupEntry_confine (inNamespace_proposal _ x)
  · exact funext fun k => lookupEntry_confine (inNamespace_exchange _ _ _)

/-- The transactions on a shared state are a run of the ledger alone. -/
theorem shared_reachable {s₀ : State} {h : List (State × Option Tx)}
    (h₀ : ∀ A, InNamespace env.sha A → s₀ A = none) (hr : Run (SharedStep env) s₀ h s) :
    Reachable env (ownSteps env h) (confine env.sha s) := by
  induction hr with
  | nil =>
    rw [confine_eq (t := State.empty) (fun _ _ => rfl) h₀]
    exact .nil
  | @snoc h a b _ _ hstep ih =>
    cases hstep with
    | ours hacc => exact ih.snoc hacc.confine
    | others hsame =>
      have hconfined : confine env.sha b = confine env.sha a :=
        confine_eq (fun A hA => if_neg hA) fun A hA => (hsame A hA).trans (confine_in hA).symm
      rw [hconfined]
      exact ih

/-- What the ledger reaches alone it reaches beside whatever the others store. -/
theorem shared_of_reachable {s₀ : State} {h : List (State × Tx)}
    (h₀ : ∀ A, InNamespace env.sha A → s₀ A = none) (hr : Reachable env h s) :
    ∃ h' s', Run (SharedStep env) s₀ h' s' ∧ ownSteps env h' = h ∧ confine env.sha s' = s := by
  induction hr with
  | nil => exact ⟨[],s₀,.nil,rfl,confine_eq (fun _ _ => rfl) h₀⟩
  | @snoc h a b tx _ hacc ih =>
    obtain ⟨h',s',hrun,rfl,rfl⟩ := ih
    obtain ⟨t',hacc',hpaired⟩ := hacc.beside (t := s') fun A hA => confine_in hA
    refine ⟨(s',some tx) :: h',t',hrun.snoc (.ours hacc'),rfl,confine_eq (fun A hA => ?_) ?_⟩
    · exact (hpaired.left A hA).trans (if_neg hA)
    · exact fun A hA => (hpaired.agree A hA).symm

theorem shared_frame {s₀ : State} {h : List (State × Option Tx)}
    (hr : Run (SharedStep env) s₀ h s) : ∀ e ∈ Run.steps h s, e.2.1 ≠ none →
      ∀ A, ¬InNamespace env.sha A → e.2.2 A = e.1 A := by
  induction hr with
  | nil => exact List.forall_mem_nil _
  | snoc _ hstep ih =>
    refine List.forall_mem_cons.mpr ⟨fun hours A hA => ?_,ih⟩
    cases hstep with
    | ours hacc =>
      obtain ⟨_,_,hpaired⟩ := hacc.beside fun _ _ => rfl
      exact hpaired.left A hA
    | others => exact absurd rfl hours

/-- On a state that is shared with other families, which change what they store at any time, the
ledger goes through the same histories as alone, and leaves the others as they are. -/
theorem shared_iff {s₀ : State} (h₀ : ∀ A, InNamespace env.sha A → s₀ A = none) :
    (∀ h s, Reachable env h s ↔ ∃ h' s', Run (SharedStep env) s₀ h' s' ∧ ownSteps env h' = h ∧
      confine env.sha s' = s) ∧
    ∀ h s, Run (SharedStep env) s₀ h s → ledger env s = ledger env (confine env.sha s) ∧
      ∀ e ∈ Run.steps h s, e.2.1 ≠ none → ∀ A, ¬InNamespace env.sha A → e.2.2 A = e.1 A := by
  refine ⟨fun h s => ⟨shared_of_reachable h₀,?_⟩,fun h s hr => ?_⟩
  · rintro ⟨h',s',hrun,rfl,rfl⟩
    exact shared_reachable h₀ hrun
  · exact ⟨(ledger_confine env s).symm,shared_frame hr⟩

/-- Finitely many addresses are in use. -/
theorem reachable_finite {h : List (State × Tx)} (hr : Reachable env h s) :
    {A | s A ≠ none}.Finite := by
  induction hr with
  | nil => simp [State.empty]
  | @snoc h a b tx _ hacc ih =>
    obtain ⟨_,_,hpaired⟩ := hacc.beside fun _ _ => rfl
    refine (ih.union hpaired.finite).subset fun A hA => ?_
    by_cases hbefore : a A = none
    · exact Or.inr fun hsame => hA (hsame.trans hbefore)
    · exact Or.inl hbefore

end Shared

namespace Sample

/-- A state in which another family stores something. -/
def occupied : State := fun A => if A = ['0','0'] then some (.tables []) else none

end Sample

theorem shared_iff_sample : ∃ h s, Run (SharedStep Sample.env) Sample.occupied h s ∧
    ((ledger Sample.env s).record "r").isSome := by
  have h₀ : ∀ A, InNamespace Sample.env.sha A → Sample.occupied A = none := by
    intro A hA
    refine if_neg fun he => ?_
    subst he
    exact absurd hA (by decide)
  obtain ⟨h,hr,_⟩ := @Sample.reachable [] (by decide +kernel)
  obtain ⟨h',s,hrun,_,hconfined⟩ := ((shared_iff h₀).1 h _).mp hr
  refine ⟨h',s,hrun,?_⟩
  rw [((shared_iff h₀).2 h' s hrun).1,hconfined]
  decide +kernel

end DgcRestApi
