import DgcRestApi.Ledger.Store

/-!
# How an action ends

Every action keeps the canonical form of the state and its current pages at 1, and it ends
in no other error than a rejection of the transaction, or a container that cannot be
serialized. So the partial operations of the handler are all in range, and the one line of
`apply` that can panic is the log line in front of the dispatch.
-/

namespace DgcRestApi
open Addressing Fallible Keyed

/-- The transaction is rejected. -/
def Rejects (e : ApplyError) : Prop := ∃ m, e = .InvalidTransaction m

/-- The errors an action can end in. -/
def Tame (env : Env) (e : ApplyError) : Prop := Rejects e ∨ Unwritable env e

theorem rejects (m : String) : Rejects (.InvalidTransaction m) := ⟨m,rfl⟩

theorem tame (env : Env) (m : String) : Tame env (.InvalidTransaction m) := Or.inl (rejects m)

theorem Tame.ne_panic {env : Env} {e : ApplyError} (h : Tame env e) (m : String) :
    e ≠ .Panic m := by
  rintro rfl
  rcases h with ⟨_,h⟩ | ⟨⟨_,h⟩,_⟩ <;> exact nomatch h

/-- If the containers could be serialized, the transaction was rejected. -/
theorem Tame.rejects {env : Env} {e : ApplyError} (h : Tame env e)
    (hw : ∀ m, e ≠ .InternalError m) : Rejects e := by
  rcases h with h | ⟨⟨m,rfl⟩,_⟩
  · exact h
  · exact absurd rfl (hw m)

/-- A canonical state all of whose properties are at page 1. -/
structure Sane (env : Env) (s : State) : Prop where
  canonical : Canonical env s
  current : ∀ r n q, (ledger env s).property r n = some q → q.currentPage = 1

theorem sane_empty (env : Env) : Sane env State.empty := ⟨canonical_empty env,nofun⟩

section Store

variable {env : Env} {s : State}

theorem Sane.set (hs : Sane env s) {c : Setter} (hc : c.Keyed env s)
    (hpage : ∀ r n q, c = .property r n q → q.currentPage = 1) :
    Ends (c.run env s) (Sane env) (Tame env) := by
  refine (Setter.run_ends hs.canonical hc).mono (fun s' h => ⟨h.1,fun r n q hq => ?_⟩)
    fun _ => Or.inr
  rw [h.2,effect_property] at hq
  cases c with
  | property r' n' q' =>
    rcases Option.or_eq_some_iff.mp hq with hq | ⟨_,hq⟩
    · rw [Setter.propertyAt,Option.ite_none_right_eq_some] at hq
      exact Option.some.inj hq.2 ▸ hpage r' n' q' rfl
    · exact hs.current r n q hq
  | _ => exact hs.current r n q hq

theorem setParticipant_ends (hs : Sane env s) {k : String} {p : Participant}
    (hk : p.publicKey = k) : Ends (setParticipant env s k p) (Sane env) (Tame env) :=
  Sane.set hs (c := .participant k p) hk nofun

theorem setRecord_ends (hs : Sane env s) {r : String} {rec : Record} (hr : rec.recordId = r) :
    Ends (setRecord env s r rec) (Sane env) (Tame env) :=
  Sane.set hs (c := .record r rec) hr nofun

theorem setTable_ends (hs : Sane env s) {n : String} {t : Table} (hn : t.name = n)
    (hnew : getTable env s n = .ok none) : Ends (setTable env s n t) (Sane env) (Tame env) :=
  Sane.set hs (c := .table n t) ⟨hn,hnew⟩ nofun

theorem setProperty_ends (hs : Sane env s) {r n : String} {q : Property} (hn : q.name = n)
    (hr : env.range q.recordId = env.range r) (hpage : q.currentPage = 1) :
    Ends (setProperty env s r n q) (Sane env) (Tame env) :=
  Sane.set hs (c := .property r n q) ⟨hn,hr⟩ fun _ _ _ h => by cases h; exact hpage

theorem setPropertyPage_ends (hs : Sane env s) {r n : String} {k : Nat} {page : PropertyPage}
    (hn : page.name = n) (hr : env.range page.recordId = env.range r) (hk : k ≠ 0) :
    Ends (setPropertyPage env s r n k page) (Sane env) (Tame env) :=
  Sane.set hs (c := .propertyPage r n k page) ⟨hn,hr,hk⟩ nofun

theorem setProposal_ends (hs : Sane env s) {x : String} {c : Proposal} (hx : c.proposalId = x) :
    Ends (setProposal env s x c) (Sane env) (Tame env) :=
  Sane.set hs (c := .proposal x c) hx nofun

theorem setExchange_ends (hs : Sane env s) {b v : String} {e : Exchange}
    (he : exchangeKind.key e = toLex (b,v)) :
    Ends (setExchange env s b v e) (Sane env) (Tame env) :=
  Sane.set hs (c := .exchange b v e) he nofun

theorem getParticipant_ends (hs : Sane env s) (k : String) : Ends (getParticipant env s k)
    (fun o => ∀ p, o = some p → p.publicKey = k) (Tame env) := by
  rw [getParticipant,getEntry_eq (hs.canonical.loads_participant k)]
  exact ends_ok fun _ h => lookup_key h

theorem getRecord_ends (hs : Sane env s) (r : String) : Ends (getRecord env s r)
    (fun o => ∀ rec, o = some rec → rec.recordId = r) (Tame env) := by
  rw [getRecord,getEntry_eq (hs.canonical.loads_record r)]
  exact ends_ok fun _ h => lookup_key h

theorem getTable_ends (hs : Sane env s) (n : String) :
    Ends (getTable env s n) (fun o => getTable env s n = .ok o) (Tame env) := by
  rw [getTable,getEntry_eq (hs.canonical.loads_table n)]
  exact ends_ok rfl

theorem getProperty_ends (hs : Sane env s) (r n : String) : Ends (getProperty env s r n)
    (fun o => ∀ q, o = some q →
      q.name = n ∧ env.range q.recordId = env.range r ∧ q.currentPage = 1) (Tame env) := by
  rw [getProperty,getEntry_eq (hs.canonical.loads_property r n)]
  refine ends_ok fun q h => ?_
  obtain ⟨hn,hr⟩ := ledger_property_key (r := r) hs.canonical.stored h
  exact ⟨hn,hr,hs.current r n q h⟩

theorem getPropertyPage_ends (hs : Sane env s) (r n : String) {k : Nat} (hk : k ≠ 0) :
    Ends (getPropertyPage env s r n k)
      (fun o => ∀ page, o = some page → page.name = n ∧ env.range page.recordId = env.range r)
      (Tame env) := by
  rw [getPropertyPage,getEntry_eq (hs.canonical.loads_page r n hk)]
  exact ends_ok fun _ h => ledger_page_key (r := r) hs.canonical.stored h

theorem getProposal_ends (hs : Sane env s) (x : String) : Ends (getProposal env s x)
    (fun o => ∀ c, o = some c → c.proposalId = x) (Tame env) := by
  rw [getProposal,getEntry_eq (hs.canonical.loads_proposal x)]
  exact ends_ok fun _ h => lookup_key h

/-- A value looked up in memory must be there. -/
theorem find_ends {α : Type} (o : Option α) (m : String) :
    Ends (expect (.ok o) (.InvalidTransaction m)) (fun a => o = some a) (Tame env) :=
  ends_expect (ends_ok fun _ h => h) (tame env m)

end Store

section Values

theorem ValueError.rejects {e : ApplyError} (h : ValueError e) : Rejects e := by
  cases h with
  | unset | option | length | missing | mistyped => exact DgcRestApi.rejects _

theorem makeNewReportedValue_rejects {i t : Nat} {u : PropertyValue} {q : Property} :
    Raises (makeNewReportedValue i t u q) Rejects :=
  makeNewReportedValue_raises.mono fun _ => ValueError.rejects

theorem initialValues_rejects {ts : Nat} {provided : Option PropertyValue} {q : Property} :
    Raises (initialValues ts provided q) Rejects := by
  cases provided with
  | none => exact raises_ok _
  | some value => exact raises_bind makeNewReportedValue_rejects fun _ _ => raises_ok _

theorem checkProvided_rejects {schema : HashMap PropertySchema} {n : String}
    {v : PropertyValue} : Raises (checkProvided schema n v) Rejects :=
  raises_bind (raises_expect (raises_ok _) fun _ => rejects _) fun _ _ =>
    raises_bind (raises_rejectIf (rejects _)) fun _ _ => raises_rejectIf (rejects _)

theorem checkSellFunds_rejects {a : CreateProposalAction} {p : Participant} {signer : String} :
    Raises (checkSellFunds a p signer) Rejects := raises_rejectIf (rejects _)

theorem checkTransferFunds_rejects {env : Env} {a : CreateProposalAction} {p : Participant}
    {signer : String} : Raises (checkTransferFunds env a p signer) Rejects :=
  raises_rejectIf (rejects _)

theorem revokeEntry_rejects {reporterId : String} {acc : Bool × List Reporter}
    {reporter : Reporter} : Raises (revokeEntry reporterId acc reporter) Rejects := by
  rw [revokeEntry]
  split
  · exact raises_bind (raises_rejectIf (rejects _)) fun _ _ => raises_ok _
  · exact raises_ok _

/-- A computation that only rejects, with nothing said of its value. -/
theorem ends_rejects {α : Type} {env : Env} {x : Except ApplyError α} (h : Raises x Rejects) :
    Ends x (fun _ => True) (Tame env) :=
  ⟨fun _ _ => trivial,h.mono fun _ => Or.inl⟩

theorem ends_reject {env : Env} {c : Prop} [Decidable c] (m : String) :
    Ends (rejectIf c (.InvalidTransaction m)) (fun _ => True) (Tame env) :=
  ends_rejects (raises_rejectIf (rejects m))

end Values

section Actions

variable {env : Env} {orders : Orders} {s : State} {signer r : String} {ts : Nat}

theorem createParticipant_ends {a : CreateParticipantAction} (hs : Sane env s) :
    Ends (createParticipant env a s signer ts) (Sane env) (Tame env) :=
  ends_bind (ends_absent (getParticipant_ends hs _) fun _ => tame env _) fun _ _ =>
    setParticipant_ends hs rfl

theorem initProperty_ends {provided : HashMap PropertyValue}
    {entry : Sigma fun _ : String => PropertySchema} (hs : Sane env s) :
    Ends (initProperty env r signer ts provided s entry) (Sane env) (Tame env) := by
  refine ends_bind (setProperty_ends hs rfl rfl rfl) fun t ht => ?_
  rw [providedValue_eq]
  refine ends_bind (ends_ok rfl) fun o (_ : provided.lookup entry.1 = o) => ?_
  exact ends_bind (ends_rejects initialValues_rejects) fun _ _ =>
    setPropertyPage_ends ht rfl rfl one_ne_zero

theorem createRecord_ends {a : CreateRecordAction} (hs : Sane env s) :
    Ends (createRecord env orders a s signer ts) (Sane env) (Tame env) := by
  refine ends_bind (ends_expect (getParticipant_ends hs _) (tame env _)) fun _ _ => ?_
  refine ends_bind (ends_absent (getRecord_ends hs _) fun _ => tame env _) fun _ _ => ?_
  refine ends_bind (ends_expect ((getTable_ends hs _).mono (fun _ _ _ _ => trivial)
    fun _ => id) (tame env _)) fun _ _ => ?_
  refine ends_bind (ends_forM fun _ _ => ends_reject _) fun _ _ => ?_
  refine ends_bind (ends_rejects (raises_forM fun _ _ => checkProvided_rejects)) fun _ _ => ?_
  refine ends_bind (setRecord_ends hs rfl) fun t ht => ?_
  exact ends_foldlM (fun _ _ _ hu => initProperty_ends hu) ht

theorem finalizeRecord_ends {a : FinalizeRecordAction} (hs : Sane env s) :
    Ends (finalizeRecord env a s signer) (Sane env) (Tame env) := by
  refine ends_bind (ends_expect (getRecord_ends hs _) (tame env _)) fun rec hrec => ?_
  refine ends_bind (find_ends _ _) fun _ _ => ends_bind (find_ends _ _) fun _ _ => ?_
  refine ends_bind (ends_reject _) fun _ _ => ends_bind (ends_reject _) fun _ _ => ?_
  exact setRecord_ends hs hrec

theorem createTable_ends {a : CreateTableAction} (hs : Sane env s) :
    Ends (createTable env a s signer) (Sane env) (Tame env) :=
  ends_bind (ends_absent (getTable_ends hs _) fun _ => tame env _) fun _ hnew =>
    setTable_ends hs rfl hnew

/-- A page number that follows page 1 is in range, and it is page 1 again. -/
theorem nextPageNumber_ends : Ends (nextPageNumber 1) (fun next => next = 1) (Tame env) :=
  ends_ok rfl

theorem updateProperty_ends {u : PropertyValue} (hs : Sane env s) :
    Ends (updateProperty env r signer ts s u) (Sane env) (Tame env) := by
  refine ends_bind (ends_expect (getProperty_ends hs r u.name) (tame env _)) fun q hq => ?_
  obtain ⟨hn,hr,hpage⟩ := hq
  refine ends_bind (find_ends _ _) fun _ _ => ?_
  refine ends_bind (ends_reject _) fun _ _ => ends_bind (ends_reject _) fun _ _ => ?_
  rw [hpage]
  refine ends_bind (ends_expect (getPropertyPage_ends hs r u.name one_ne_zero) (tame env _))
    fun page hp => ?_
  refine ends_bind (ends_rejects makeNewReportedValue_rejects) fun v _ => ?_
  refine ends_bind (setPropertyPage_ends hs hp.1 hp.2 one_ne_zero) fun t ht => ?_
  split
  · refine ends_bind nextPageNumber_ends ?_
    rintro _ rfl
    refine ends_bind (getPropertyPage_ends ht r u.name one_ne_zero) fun old hold => ?_
    have hcleared := clearedPage_key (f := env.range) hold
    refine ends_bind (setPropertyPage_ends ht hcleared.1 hcleared.2 one_ne_zero) fun w hw => ?_
    exact setProperty_ends hw hn hr rfl
  · exact ends_ok ht

theorem updateProperties_ends {a : UpdatePropertiesAction} (hs : Sane env s) :
    Ends (updateProperties env a s signer ts) (Sane env) (Tame env) := by
  refine ends_bind (ends_expect (getRecord_ends hs _) (tame env _)) fun _ _ => ?_
  refine ends_bind (ends_reject _) fun _ _ => ?_
  exact ends_foldlM (fun _ _ _ ht => updateProperty_ends ht) hs

theorem revokeProperty_ends {reporterId n : String} (hs : Sane env s) :
    Ends (revokeProperty env r reporterId s n) (Sane env) (Tame env) := by
  refine ends_bind (ends_expect (getProperty_ends hs r n) (tame env _)) fun q hq => ?_
  refine ends_bind (ends_foldlM (fun _ _ _ _ => ends_rejects revokeEntry_rejects) trivial)
    fun acc _ => ?_
  exact ends_bind (ends_reject _) fun _ _ => setProperty_ends hs hq.1 hq.2.1 hq.2.2

theorem revokeReporter_ends {a : RevokeReporterAction} (hs : Sane env s) :
    Ends (revokeReporter env a s signer) (Sane env) (Tame env) := by
  refine ends_bind (ends_expect (getRecord_ends hs _) (tame env _)) fun _ _ => ?_
  refine ends_bind (find_ends _ _) fun _ _ => ?_
  refine ends_bind (ends_reject _) fun _ _ => ends_bind (ends_reject _) fun _ _ => ?_
  exact ends_foldlM (fun _ _ _ ht => revokeProperty_ends ht) hs

theorem proposalRecord_ends (hs : Sane env s) :
    Ends (proposalRecord env s r) (fun _ => True) (Tame env) :=
  ends_bind (ends_expect (getRecord_ends hs r) (tame env _)) fun _ _ =>
    ends_bind (ends_reject _) fun _ _ => ends_ok trivial

theorem createProposal_ends {a : CreateProposalAction} (hs : Sane env s) :
    Ends (createProposal env a s signer ts) (Sane env) (Tame env) := by
  have hreceiver : Ends (checkReceiver env a s) (fun _ => True) (Tame env) :=
    ends_bind (ends_expect (getParticipant_ends hs _) (tame env _)) fun _ _ => ends_ok trivial
  have howner : Ends (checkOwner env a s signer) (fun _ => True) (Tame env) :=
    ends_bind (proposalRecord_ends hs) fun _ _ =>
      ends_bind (find_ends _ _) fun _ _ => ends_reject _
  have hcustodian : Ends (checkCustodian env a s signer) (fun _ => True) (Tame env) :=
    ends_bind (proposalRecord_ends hs) fun _ _ =>
      ends_bind (find_ends _ _) fun _ _ => ends_reject _
  refine ends_bind (ends_expect (getParticipant_ends hs _) (tame env _)) fun _ _ => ?_
  refine ends_bind (ends_onlyIf hreceiver.2) fun _ _ => ?_
  refine ends_bind (ends_onlyIf howner.2) fun _ _ => ?_
  refine ends_bind (ends_onlyIf hcustodian.2) fun _ _ => ?_
  refine ends_bind (ends_onlyIf (ends_rejects checkSellFunds_rejects).2) fun _ _ => ?_
  refine ends_bind (ends_onlyIf (ends_rejects checkTransferFunds_rejects).2) fun _ _ => ?_
  exact setProposal_ends hs rfl

section Answers

variable {a : AnswerProposalAction} {c : Proposal} {i p : Participant} {status : Status}

theorem setExchanges_ends {es : List Exchange} (hs : Sane env s) :
    Ends (setExchanges env es s) (Sane env) (Tame env) :=
  ends_foldlM (fun _ _ _ ht => setExchange_ends ht rfl) hs

theorem autoFill_ends {es : List Exchange} {amount : ℚ} (hs : Sane env s)
    (hc : c.proposalId = a.proposalId) (hi : i.publicKey = signer) :
    Ends (autoFill env a es status amount c i s signer ts) (Sane env) (Tame env) :=
  ends_bind (setParticipant_ends hs hi) fun _ ht => ends_bind (setExchanges_ends ht) fun _ hu =>
    setProposal_ends hu hc

theorem autoAnswer_ends {es : List Exchange} (hs : Sane env s)
    (hc : c.proposalId = a.proposalId) (hi : i.publicKey = signer) :
    Ends (autoAnswer env a es status c i s signer ts) (Sane env) (Tame env) := by
  rw [autoAnswer]
  cases a.role with
  | buyDGC => exact autoFill_ends hs hc hi
  | sellDGC => exact ends_bind (ends_reject _) fun _ _ => autoFill_ends hs hc hi
  | _ => exact ends_ok hs

theorem acceptCredit_ends (hs : Sane env s) (hc : c.proposalId = a.proposalId)
    (hp : p.publicKey = a.receivingParticipant) :
    Ends (acceptCredit env a c p s ts) (Sane env) (Tame env) :=
  ends_bind (setParticipant_ends hs hp) fun _ ht => setProposal_ends ht hc

theorem acceptTransfer_ends (hs : Sane env s) (hc : c.proposalId = a.proposalId)
    (hi : i.publicKey = signer) (hp : p.publicKey = a.receivingParticipant) :
    Ends (acceptTransfer env a c i p s signer ts) (Sane env) (Tame env) :=
  ends_bind (ends_reject _) fun _ _ => ends_bind (setParticipant_ends hs hi) fun _ ht =>
    ends_bind (setParticipant_ends ht hp) fun _ hu => setProposal_ends hu hc

theorem handOverProperty_ends {owner receiver : String} {col : PropertySchema}
    (hs : Sane env s) :
    Ends (handOverProperty env r owner receiver s col) (Sane env) (Tame env) :=
  ends_bind (ends_expect (getProperty_ends hs r col.name) (tame env _)) fun _ hq =>
    setProperty_ends hs rfl hq.2.1 hq.2.2

theorem acceptOwnership_ends (hs : Sane env s) (hc : c.proposalId = a.proposalId) :
    Ends (acceptOwnership env a c s ts) (Sane env) (Tame env) := by
  refine ends_bind (ends_expect (getRecord_ends hs _) (tame env _)) fun rec hrec => ?_
  refine ends_bind (find_ends _ _) fun _ _ => ends_bind (setRecord_ends hs hrec) fun t ht => ?_
  refine ends_bind (ends_expect ((getTable_ends ht _).mono (fun _ _ _ _ => trivial)
    fun _ => id) (tame env _)) fun _ _ => ?_
  exact ends_bind (ends_foldlM (fun _ _ _ hu => handOverProperty_ends hu) ht) fun _ hu =>
    setProposal_ends hu hc

theorem acceptCustodianship_ends (hs : Sane env s) (hc : c.proposalId = a.proposalId) :
    Ends (acceptCustodianship env a c s ts) (Sane env) (Tame env) := by
  refine ends_bind (ends_expect (getRecord_ends hs _) (tame env _)) fun rec hrec => ?_
  exact ends_bind (find_ends _ _) fun _ _ => ends_bind (setRecord_ends hs hrec) fun _ ht =>
    setProposal_ends ht hc

theorem authorizeProperty_ends {receiver n : String} (hs : Sane env s) :
    Ends (authorizeProperty env r receiver s n) (Sane env) (Tame env) :=
  ends_bind (ends_expect (getProperty_ends hs r n) (tame env _)) fun _ hq =>
    setProperty_ends hs hq.1 hq.2.1 hq.2.2

theorem acceptReporter_ends (hs : Sane env s) (hc : c.proposalId = a.proposalId) :
    Ends (acceptReporter env a c s) (Sane env) (Tame env) := by
  refine ends_bind (ends_expect (getRecord_ends hs _) (tame env _)) fun _ _ => ?_
  refine ends_bind (find_ends _ _) fun _ _ => ?_
  exact ends_bind (ends_foldlM (fun _ _ _ ht => authorizeProperty_ends ht) hs) fun _ ht =>
    setProposal_ends ht hc

theorem acceptProposal_ends (hs : Sane env s) (hc : c.proposalId = a.proposalId)
    (hi : i.publicKey = signer) :
    Ends (acceptProposal env a c i s signer ts) (Sane env) (Tame env) := by
  refine ends_bind (ends_reject _) fun _ _ => ?_
  refine ends_bind (ends_expect (getParticipant_ends hs _) (tame env _)) fun p hp => ?_
  cases a.role with
  | creditDGC => exact acceptCredit_ends hs hc hp
  | buyDGC => exact ends_ok hs
  | sellDGC => exact ends_ok hs
  | transferDGC => exact acceptTransfer_ends hs hc hi hp
  | transferOwnership => exact acceptOwnership_ends hs hc
  | transferCustodianship => exact acceptCustodianship_ends hs hc
  | authorizeReporter => exact acceptReporter_ends hs hc

theorem answerProposal_ends (hs : Sane env s) :
    Ends (answerProposal env a s signer ts) (Sane env) (Tame env) := by
  refine ends_bind (ends_expect (getProposal_ends hs _) (tame env _)) fun c hc => ?_
  refine ends_bind (ends_expect (getParticipant_ends hs _) (tame env _)) fun i hi => ?_
  cases a.response with
  | CANCEL => exact ends_bind (ends_reject _) fun _ _ => setProposal_ends hs hc
  | REJECT => exact ends_bind (ends_reject _) fun _ _ => setProposal_ends hs hc
  | autoOPEN => exact autoAnswer_ends hs hc hi
  | autoCLOSE => exact autoAnswer_ends hs hc hi
  | ACCEPT => exact acceptProposal_ends hs hc hi

end Answers

/-- Every action keeps the state sane and ends in no panic. -/
theorem dispatch_ends {payload : PayloadDGC} (hs : Sane env s) :
    Ends (dispatch env orders payload s signer) (Sane env) (Tame env) := by
  rw [dispatch]
  cases payload.action with
  | CreateParticipant a => exact createParticipant_ends hs
  | CreateRecord a => exact createRecord_ends hs
  | FinalizeRecord a => exact finalizeRecord_ends hs
  | CreateTable a => exact createTable_ends hs
  | UpdateProperties a => exact updateProperties_ends hs
  | CreateProposal a => exact createProposal_ends hs
  | AnswerProposal a => exact answerProposal_ends hs
  | RevokeReporter a => exact revokeReporter_ends hs

end Actions

/-- What the transaction stores can be serialized: its action does not end in an internal error. -/
def Writes (env : Env) (s : State) (tx : Tx) : Prop :=
  ∀ orders m, dispatch env orders { action := tx.action, timestamp := tx.timestamp } s tx.signer ≠
    .error (.InternalError m)

section Runs

variable {env : Env} {orders : Orders} {h : List (State × Tx)} {s : State}

/-- Where every container can be serialized, every transaction can be stored. -/
theorem writes_of_total (hs : Sane env s) (hw : ∀ c, env.writeToBytes c = true) (tx : Tx) :
    Writes env s tx := by
  intro orders m hm
  rcases (dispatch_ends hs).2 _ hm with ⟨_,h⟩ | ⟨_,c,hc⟩
  · exact nomatch h
  · rw [hw c] at hc
    exact nomatch hc

theorem reachable_sane (hr : Reachable env h s) : Sane env s :=
  hr.invariant (Sane env) (fun _ _ _ hs hacc =>
    (accepted_dispatch hacc).elim fun _ hd => (dispatch_ends hs).1 _ hd) (sane_empty env)

theorem payloadAction_rejects {payload : PayloadMessage} :
    Raises (payloadAction payload) Rejects := by
  rw [payloadAction]
  cases payload.action with
  | CREATE_PARTICIPANT => exact raises_bind (raises_rejectIf (rejects _)) fun _ _ => raises_ok _
  | CREATE_RECORD => exact raises_bind (raises_rejectIf (rejects _)) fun _ _ => raises_ok _
  | CREATE_TABLE =>
    refine raises_bind (raises_rejectIf (rejects _)) fun _ _ => ?_
    refine raises_bind (raises_rejectIf (rejects _)) fun _ _ => ?_
    exact raises_bind (raises_forM fun _ _ => raises_rejectIf (rejects _)) fun _ _ => raises_ok _
  | _ => exact raises_ok _

theorem payload_rejects {payload : Option PayloadMessage} :
    Raises (PayloadDGC.new payload) Rejects := by
  cases payload with
  | none => exact raises_error (rejects _)
  | some payload =>
    exact raises_bind payloadAction_rejects fun _ _ =>
      raises_bind (raises_rejectIf (rejects _)) fun _ _ => raises_ok _

/-- The processor panics exactly in its log line: the `info!` level is on, the payload is
valid and the header lists no input or no output. -/
theorem no_panic_iff (hr : Reachable env h s) (orders : Orders) (request : TpProcessRequest) :
    (∀ m, apply env orders request s ≠ .error (.Panic m)) ↔
      (env.logInfo = true → request.tx?.isSome = true →
        request.inputs ≠ [] ∧ request.outputs ≠ []) := by
  have htx : request.tx? = (found (PayloadDGC.new request.payload)).map fun payload =>
    ⟨request.signerPublicKey,payload.timestamp,payload.action⟩ := rfl
  rw [htx,apply]
  cases hp : PayloadDGC.new request.payload with
  | error e =>
    obtain ⟨m,rfl⟩ := payload_rejects e hp
    exact iff_of_true (fun _ => nofun) fun _ => nofun
  | ok o =>
    cases o with
    | none => exact iff_of_true (fun _ => nofun) fun _ => nofun
    | some payload =>
      change (∀ m, (logRequest env request >>= fun _ =>
        dispatch env orders payload s request.signerPublicKey) ≠ .error (.Panic m)) ↔ _
      rw [logRequest]
      split
      · next hlog =>
        -- the log line indexes an empty list
        refine iff_of_false (fun h => h _ rfl) fun h => ?_
        obtain ⟨hin,hout⟩ := h hlog.1 rfl
        rcases hlog.2 with hl | hl
        · exact hin (List.eq_nil_of_length_eq_zero hl)
        · exact hout (List.eq_nil_of_length_eq_zero hl)
      · next hlog =>
        refine iff_of_true (fun m hm => ?_) fun hinfo _ => ?_
        · exact ((dispatch_ends (reachable_sane hr)).2 _ hm).ne_panic m rfl
        · have hlen : ¬(request.inputs.length = 0 ∨ request.outputs.length = 0) :=
            fun hl => hlog ⟨hinfo,hl⟩
          rw [List.ne_nil_iff_length_pos,List.ne_nil_iff_length_pos]
          omega

end Runs

namespace Sample

/-- The sample environment with the processor started as `-v`. -/
def verbose : Env := { env with logInfo := true }

def join (inputs outputs : List String) : TpProcessRequest :=
  { signerPublicKey := "A"
    payload := some
      { action := .CREATE_PARTICIPANT, timestamp := 1, createParticipant := { name := "Ann" } }
    inputs
    outputs }

end Sample

theorem no_panic_verbose :
    apply Sample.verbose Sample.orders (Sample.join ["3bfc81"] ["3bfc81"]) State.empty ≠
      .error (.Panic "index out of bounds") :=
  (no_panic_iff .nil Sample.orders (Sample.join ["3bfc81"] ["3bfc81"])).mpr
    (fun _ _ => ⟨List.cons_ne_nil _ _,List.cons_ne_nil _ _⟩) "index out of bounds"

/-- A valid request whose header lists no input stops the processor. -/
theorem panic_without_inputs : Reachable Sample.verbose [] State.empty ∧
    apply Sample.verbose Sample.orders (Sample.join [] ["3bfc81"]) State.empty =
      .error (.Panic "index out of bounds") :=
  ⟨.nil,rfl⟩

end DgcRestApi
