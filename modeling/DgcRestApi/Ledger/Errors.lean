import DgcRestApi.Ledger.Integrity

/-!
# Errors that cannot happen

In a state whose ledger is sound the handler never reports that an owner, a custodian or a
current page is missing, and on a transfer of ownership it finds the table and all of its
properties. `Avoids` says this of an error by the beginning of its text.
-/

namespace DgcRestApi
open Fallible

/-- The characters of a literal, read off by `rfl` instead of by decoding it. -/
def text {l : List Char} (m : String) (_ : m = String.ofList l) : List Char := l

/-- The error is no invalid transaction whose message begins with one of `texts`. -/
def Avoids (texts : List (List Char)) (e : ApplyError) : Prop :=
  ∀ p ∈ texts, ∀ x, e ≠ .InvalidTransaction (String.ofList p ++ x)

/-- One of the two texts begins with the other. -/
def clash (p m : List Char) : Bool := p.isPrefixOf m || m.isPrefixOf p

section Texts

variable {texts : List (List Char)} {m : List Char}

theorem avoids_internal (m : String) : Avoids texts (.InternalError m) := fun _ _ _ => nofun

theorem avoids_panic (m : String) : Avoids texts (.Panic m) := fun _ _ _ => nofun

theorem avoids_append (h : ∀ p ∈ texts, clash p m = false) (x : String) :
    Avoids texts (.InvalidTransaction (String.ofList m ++ x)) := by
  intro p hp y he
  have hlist := congrArg String.toList (ApplyError.InvalidTransaction.inj he)
  rw [String.toList_append,String.toList_append,String.toList_ofList,String.toList_ofList] at hlist
  obtain ⟨hpm,hmp⟩ := Bool.or_eq_false_iff.mp (h p hp)
  -- two prefixes of one text: the shorter begins the longer
  have hm : m <+: p ++ y.toList := hlist ▸ List.prefix_append ..
  rcases List.prefix_or_prefix_of_prefix hm (List.prefix_append ..) with hpre | hpre
  · rw [List.isPrefixOf_iff_prefix.mpr hpre] at hmp
    exact nomatch hmp
  · rw [List.isPrefixOf_iff_prefix.mpr hpre] at hpm
    exact nomatch hpm

theorem avoids_text (h : ∀ p ∈ texts, clash p m = false) :
    Avoids texts (.InvalidTransaction (String.ofList m)) := by
  have happend := avoids_append h ""
  rwa [String.append_empty] at happend

theorem Avoids.ne {e : ApplyError} (h : Avoids texts e) (hm : m ∈ texts) :
    e ≠ .InvalidTransaction (String.ofList m) := by
  have hne := h m hm ""
  rwa [String.append_empty] at hne

theorem Avoids.subset {texts' : List (List Char)} {e : ApplyError} (h : Avoids texts e)
    (hsub : ∀ p ∈ texts', p ∈ texts) : Avoids texts' e :=
  fun p hp => h p (hsub p hp)

end Texts

/-- The messages of the lookups that cannot fail. -/
def danglingTexts : List (List Char) :=
  [text "Owner not found" rfl,text "Owner was not found" rfl,text "Custodian not found" rfl,
    text "Custodian was not found" rfl,text "Property page does not exist" rfl]

/-- With them, the messages of the lookups of an ownership transfer that cannot fail. -/
def transferTexts : List (List Char) :=
  danglingTexts ++ [text "Table does not exist: " rfl,text "Property does not exist" rfl]

section State

variable {α κ : Type} [LinearOrder κ] {K : Kind α κ} {env : Env} {s : State} {A : Address}
variable {texts : List (List Char)}

omit [LinearOrder κ] in
theorem loadEntries_raises : Raises (loadEntries K s A) (Avoids texts) := by
  rw [loadEntries]
  cases s A with
  | none => exact raises_ok []
  | some packed =>
    dsimp only
    cases K.unwrap packed with
    | none => exact raises_error (avoids_internal _)
    | some entries => exact raises_ok entries

theorem storeEntries_raises {es : List α} : Raises (storeEntries K env s A es) (Avoids texts) := by
  simp only [storeEntries]
  split
  · exact raises_ok _
  · exact raises_error (avoids_internal _)

theorem getEntry_raises {k : κ} : Raises (getEntry K s A k) (Avoids texts) :=
  raises_bind loadEntries_raises fun _ _ => raises_ok _

theorem setEntry_raises {k : κ} {entry : α} :
    Raises (setEntry K env s A k entry) (Avoids texts) := by
  rw [setEntry_eq]
  exact raises_bind loadEntries_raises fun _ _ => storeEntries_raises

end State

theorem ValueError.avoids {e : ApplyError} (h : ValueError e) : Avoids danglingTexts e := by
  cases h with
  | unset => exact avoids_text (by decide)
  | option | length | missing | mistyped => exact avoids_append (by decide) _

section Actions

variable {env : Env} {orders : Orders} {s : State} {signer r : String} {ts : Nat}

theorem createParticipant_raises {a : CreateParticipantAction} :
    Raises (createParticipant env a s signer ts) (Avoids danglingTexts) :=
  raises_bind (raises_absent getEntry_raises fun _ => avoids_append (by decide) _)
    fun _ _ => setEntry_raises

theorem checkProvided_raises {schema : HashMap PropertySchema} {n : String} {v : PropertyValue} :
    Raises (checkProvided schema n v) (Avoids danglingTexts) := by
  refine raises_bind (raises_expect (raises_ok _) fun _ => avoids_append (by decide) _)
    fun _ _ => ?_
  refine raises_bind (raises_rejectIf (avoids_append (by decide) _)) fun _ _ => ?_
  exact raises_rejectIf (avoids_append (by decide) _)

theorem initProperty_raises {provided : HashMap PropertyValue}
    {entry : Sigma fun _ : String => PropertySchema} :
    Raises (initProperty env r signer ts provided s entry) (Avoids danglingTexts) := by
  refine raises_bind setEntry_raises fun _ _ => ?_
  rw [providedValue_eq]
  refine raises_bind (raises_ok _) fun o _ => raises_bind ?_ fun _ _ => setEntry_raises
  cases o with
  | some value =>
    exact raises_bind (makeNewReportedValue_raises.mono fun _ => ValueError.avoids) fun _ _ =>
      raises_ok _
  | none => exact raises_ok _

theorem createRecord_raises {a : CreateRecordAction} :
    Raises (createRecord env orders a s signer ts) (Avoids danglingTexts) := by
  refine raises_bind (raises_expect getEntry_raises fun _ => avoids_append (by decide) _)
    fun _ _ => ?_
  refine raises_bind (raises_absent getEntry_raises fun _ => avoids_append (by decide) _)
    fun _ _ => ?_
  refine raises_bind (raises_expect getEntry_raises fun _ => avoids_append (by decide) _)
    fun _ _ => ?_
  refine raises_bind (raises_forM fun _ _ => raises_rejectIf (avoids_append (by decide) _))
    fun _ _ => ?_
  refine raises_bind (raises_forM fun _ _ => checkProvided_raises) fun _ _ => ?_
  refine raises_bind setEntry_raises fun _ _ => ?_
  exact raises_foldlM (fun _ => True) (fun _ _ _ _ _ _ => trivial)
    (fun _ _ _ _ => initProperty_raises) trivial

/-- The last entry of a list that is not empty is found. -/
theorem getLast_found {α : Type} {l : List α} {texts : List (List Char)} {e : ApplyError}
    (hl : l ≠ []) (h : (.ok l.getLast? : Except ApplyError (Option α)) = .ok none) :
    Avoids texts e :=
  absurd (List.getLast?_eq_none_iff.mp (Except.ok.inj h)) hl

theorem finalizeRecord_raises {a : FinalizeRecordAction} (hsound : (ledger env s).Sound) :
    Raises (finalizeRecord env a s signer) (Avoids danglingTexts) := by
  refine raises_bind (raises_expect getEntry_raises fun _ => avoids_append (by decide) _)
    fun rec hrec => ?_
  have hrec := hsound.record a.recordId rec (found_of_expect hrec)
  refine raises_bind (raises_expect (raises_ok _) (getLast_found hrec.owners_ne)) fun _ _ => ?_
  refine raises_bind (raises_expect (raises_ok _) (getLast_found hrec.custodians_ne)) fun _ _ => ?_
  refine raises_bind (raises_rejectIf (avoids_text (by decide))) fun _ _ => ?_
  refine raises_bind (raises_rejectIf (avoids_append (by decide) _)) fun _ _ => ?_
  exact setEntry_raises

theorem createTable_raises {a : CreateTableAction} :
    Raises (createTable env a s signer) (Avoids danglingTexts) :=
  raises_bind (raises_absent getEntry_raises fun _ => avoids_append (by decide) _)
    fun _ _ => raises_bind loadEntries_raises fun _ _ => storeEntries_raises

theorem updateProperty_raises {u : PropertyValue} (hpaged : (ledger env s).Paged) :
    Raises (updateProperty env r signer ts s u) (Avoids danglingTexts) := by
  refine raises_bind (raises_expect getEntry_raises fun _ => avoids_append (by decide) _)
    fun q hq => ?_
  refine raises_bind (raises_expect (raises_ok _) fun _ => avoids_append (by decide) _)
    fun _ _ => ?_
  refine raises_bind (raises_rejectIf (avoids_append (by decide) _)) fun _ _ => ?_
  refine raises_bind (raises_rejectIf (avoids_append (by decide) _)) fun _ _ => ?_
  refine raises_bind (raises_expect getEntry_raises fun hnone => ?_) fun _ _ => ?_
  · -- the property was just read, so it has its current page
    obtain ⟨page,hpage⟩ := hpaged r u.name q (found_of_expect hq)
    have hmiss : (ledger env s).page r u.name q.currentPage = none := found_of_ok hnone
    rw [hmiss] at hpage
    exact nomatch hpage
  refine raises_bind (makeNewReportedValue_raises.mono fun _ => ValueError.avoids) fun _ _ => ?_
  refine raises_bind setEntry_raises fun _ _ => ?_
  split
  · refine raises_bind ?_ fun _ _ => raises_bind getEntry_raises fun _ _ =>
      raises_bind setEntry_raises fun _ _ => setEntry_raises
    refine raises_bind ?_ fun _ _ => raises_ok _
    rw [addU32]
    split
    · exact raises_ok _
    · exact raises_error (avoids_panic _)
  · exact raises_ok _

theorem updateProperties_raises {a : UpdatePropertiesAction} (hs : Stored env s)
    (hpaged : (ledger env s).Paged) :
    Raises (updateProperties env a s signer ts) (Avoids danglingTexts) := by
  refine raises_bind (raises_expect getEntry_raises fun _ => avoids_append (by decide) _)
    fun _ _ => ?_
  refine raises_bind (raises_rejectIf (avoids_append (by decide) _)) fun _ _ => ?_
  -- every update runs in a state in which the properties have their pages
  refine raises_foldlM (fun t => Stored env t ∧ (ledger env t).Paged) (fun t u t' _ ht hstep => ?_)
    (fun _ _ _ ht => updateProperty_raises ht.2) ⟨hs,hpaged⟩
  obtain ⟨hst',hreport⟩ := updateProperty_spec ht.1 hstep
  exact ⟨hst',hreport.paged ht.2⟩

theorem revokeReporter_raises {a : RevokeReporterAction} (hsound : (ledger env s).Sound) :
    Raises (revokeReporter env a s signer) (Avoids danglingTexts) := by
  refine raises_bind (raises_expect getEntry_raises fun _ => avoids_append (by decide) _)
    fun rec hrec => ?_
  have hrec := hsound.record a.recordId rec (found_of_expect hrec)
  refine raises_bind (raises_expect (raises_ok _) (getLast_found hrec.owners_ne)) fun _ _ => ?_
  refine raises_bind (raises_rejectIf (avoids_text (by decide))) fun _ _ => ?_
  refine raises_bind (raises_rejectIf (avoids_append (by decide) _)) fun _ _ => ?_
  refine raises_foldlM (fun _ => True) (fun _ _ _ _ _ _ => trivial) (fun _ _ _ _ => ?_) trivial
  refine raises_bind (raises_expect getEntry_raises fun _ => avoids_text (by decide))
    fun q _ => ?_
  refine raises_bind ?_ fun _ _ => raises_bind
    (raises_rejectIf (avoids_append (by decide) _)) fun _ _ => setEntry_raises
  refine raises_foldlM (fun _ => True) (fun _ _ _ _ _ _ => trivial) (fun _ rep _ _ => ?_) trivial
  rw [revokeEntry]
  split
  · exact raises_bind (raises_rejectIf (avoids_text (by decide))) fun _ _ => raises_ok _
  · exact raises_ok _

theorem proposalRecord_raises :
    Raises (proposalRecord env s r) (Avoids danglingTexts) := by
  refine raises_bind (raises_expect getEntry_raises fun _ => avoids_append (by decide) _)
    fun _ _ => ?_
  exact raises_bind (raises_rejectIf (avoids_append (by decide) _)) fun _ _ => raises_ok _

theorem createProposal_raises {a : CreateProposalAction} (hsound : (ledger env s).Sound) :
    Raises (createProposal env a s signer ts) (Avoids danglingTexts) := by
  refine raises_bind (raises_expect getEntry_raises fun _ => avoids_append (by decide) _)
    fun _ _ => ?_
  refine raises_bind (raises_onlyIf ?_) fun _ _ => raises_bind (raises_onlyIf ?_) fun _ _ =>
    raises_bind (raises_onlyIf ?_) fun _ _ => raises_bind (raises_onlyIf ?_) fun _ _ =>
      raises_bind (raises_onlyIf ?_) fun _ _ => setEntry_raises
  · exact raises_bind (raises_expect getEntry_raises fun _ =>
      avoids_append (by decide) _) fun _ _ => raises_ok _
  · refine raises_bind proposalRecord_raises fun rec hrec => ?_
    have hrec := hsound.record a.recordId rec (proposalRecord_ok hrec).1
    exact raises_bind (raises_expect (raises_ok _) (getLast_found hrec.owners_ne))
      fun _ _ => raises_rejectIf (avoids_text (by decide))
  · refine raises_bind proposalRecord_raises fun rec hrec => ?_
    have hrec := hsound.record a.recordId rec (proposalRecord_ok hrec).1
    exact raises_bind (raises_expect (raises_ok _) (getLast_found hrec.custodians_ne))
      fun _ _ => raises_rejectIf (avoids_text (by decide))
  · exact raises_rejectIf (avoids_append (by decide) _)
  · exact raises_rejectIf (avoids_append (by decide) _)

section Answer

variable {a : AnswerProposalAction} {c : Proposal} {i p : Participant}

theorem setExchanges_raises {texts : List (List Char)} {exchanges : List Exchange} :
    Raises (setExchanges env exchanges s) (Avoids texts) :=
  raises_foldlM (fun _ => True) (fun _ _ _ _ _ _ => trivial) (fun _ _ _ _ => setEntry_raises)
    trivial

theorem autoFill_raises {texts : List (List Char)} {exchanges : List Exchange} {status : Status}
    {amount : ℚ} :
    Raises (autoFill env a exchanges status amount c i s signer ts) (Avoids texts) :=
  raises_bind setEntry_raises fun _ _ => raises_bind setExchanges_raises fun _ _ =>
    setEntry_raises

theorem autoAnswer_raises {exchanges : List Exchange} {status : Status} :
    Raises (autoAnswer env a exchanges status c i s signer ts) (Avoids danglingTexts) := by
  rw [autoAnswer]
  split
  case h_4 => exact autoFill_raises
  case h_5 =>
    exact raises_bind (raises_rejectIf (avoids_append (by decide) _)) fun _ _ =>
      autoFill_raises
  all_goals exact raises_ok _

theorem handOverProperty_fold_raises {owner receiver : String} {cols : List PropertySchema}
    (hs : Stored env s) (hcols : ∀ col ∈ cols, ∃ q, (ledger env s).property r col.name = some q) :
    Raises (cols.foldlM (handOverProperty env r owner receiver) s) (Avoids transferTexts) := by
  refine raises_foldlM (fun t => Stored env t ∧
    ∀ col ∈ cols, ∃ q, (ledger env t).property r col.name = some q) ?_ ?_ ⟨hs,hcols⟩
  · intro t col t' _ ht hstep
    obtain ⟨q,_,_,hst',hl⟩ := handOverProperty_spec ht.1 hstep
    refine ⟨hst',fun col' hcol' => ?_⟩
    rw [hl,Ledger.setProperty_property]
    split
    · exact ⟨_,rfl⟩
    · exact ht.2 col' hcol'
  · intro t col hcol ht
    refine raises_bind (raises_expect getEntry_raises fun hnone => ?_) fun _ _ => setEntry_raises
    obtain ⟨q,hq⟩ := ht.2 col hcol
    have hmiss : (ledger env t).property r col.name = none := found_of_ok hnone
    rw [hmiss] at hq
    exact nomatch hq

theorem acceptOwnership_raises (hs : Stored env s) (hsound : (ledger env s).Sound)
    (hcomplete : (ledger env s).Complete) :
    Raises (acceptOwnership env a c s ts) (Avoids transferTexts) := by
  refine raises_bind (raises_expect getEntry_raises fun _ => avoids_append (by decide) _)
    fun rec hrec => ?_
  have hrec : (ledger env s).record a.recordId = some rec := found_of_expect hrec
  have hrs := hsound.record a.recordId rec hrec
  refine raises_bind (raises_expect (raises_ok _) (getLast_found hrs.owners_ne)) fun o _ => ?_
  refine raises_bind setEntry_raises fun m hm => ?_
  have hkey := ledger_record_key hrec
  obtain ⟨hsm,hlm⟩ := setRecord_spec hs hm hkey
  -- writing the record leaves its table in place
  obtain ⟨t,ht⟩ := hrs.table
  refine raises_bind (raises_expect getEntry_raises fun hnone => ?_) fun t' ht' => ?_
  · have hmiss : (ledger env m).table rec.table = none := found_of_ok hnone
    rw [hlm,Ledger.setRecord_table,ht] at hmiss
    exact nomatch hmiss
  have ht' : (ledger env m).table rec.table = some t' := found_of_ok (expect_eq_ok.mp ht')
  rw [hlm,Ledger.setRecord_table,ht] at ht'
  obtain rfl := Option.some.inj ht'
  refine raises_bind (handOverProperty_fold_raises hsm fun col hcol => ?_) fun _ _ =>
    setEntry_raises
  obtain ⟨col',hcol'⟩ := Table.entry_of_mem hcol
  obtain ⟨q,hq,_⟩ := hcomplete.property a.recordId rec t col.name col' hrec ht hcol'
  exact ⟨q,by rw [hlm]; exact hq⟩

theorem acceptProposal_raises (hs : Stored env s) (hsound : (ledger env s).Sound)
    (hcomplete : (ledger env s).Complete) :
    Raises (acceptProposal env a c i s signer ts) (Avoids danglingTexts) := by
  refine raises_bind (raises_rejectIf (avoids_text (by decide))) fun _ _ => ?_
  refine raises_bind (raises_expect getEntry_raises fun _ => avoids_append (by decide) _)
    fun p _ => ?_
  cases a.role with
  | creditDGC => exact raises_bind setEntry_raises fun _ _ => setEntry_raises
  | buyDGC | sellDGC => exact raises_ok _
  | transferDGC =>
    exact raises_bind (raises_rejectIf (avoids_append (by decide) _)) fun _ _ =>
      raises_bind setEntry_raises fun _ _ => raises_bind setEntry_raises fun _ _ =>
        setEntry_raises
  | transferOwnership =>
    exact (acceptOwnership_raises hs hsound hcomplete).mono fun _ he =>
      he.subset fun _ => List.mem_append_left _
  | transferCustodianship =>
    refine raises_bind (raises_expect getEntry_raises fun _ =>
      avoids_append (by decide) _) fun rec hrec => ?_
    have hrec := hsound.record a.recordId rec (found_of_expect hrec)
    exact raises_bind (raises_expect (raises_ok _) (getLast_found hrec.custodians_ne))
      fun _ _ => raises_bind setEntry_raises fun _ _ => setEntry_raises
  | authorizeReporter =>
    refine raises_bind (raises_expect getEntry_raises fun _ =>
      avoids_append (by decide) _) fun rec hrec => ?_
    have hrec := hsound.record a.recordId rec (found_of_expect hrec)
    refine raises_bind (raises_expect (raises_ok _) (getLast_found hrec.owners_ne))
      fun _ _ => raises_bind ?_ fun _ _ => setEntry_raises
    refine raises_foldlM (fun _ => True) (fun _ _ _ _ _ _ => trivial) (fun _ _ _ _ => ?_) trivial
    exact raises_bind (raises_expect getEntry_raises fun _ => avoids_text (by decide))
      fun _ _ => setEntry_raises

theorem answerProposal_raises (hs : Stored env s) (hsound : (ledger env s).Sound)
    (hcomplete : (ledger env s).Complete) :
    Raises (answerProposal env a s signer ts) (Avoids danglingTexts) := by
  refine raises_bind (raises_expect getEntry_raises fun _ => avoids_text (by decide))
    fun c _ => ?_
  refine raises_bind (raises_expect getEntry_raises fun _ => avoids_append (by decide) _)
    fun i _ => ?_
  cases a.response with
  | CANCEL | REJECT =>
    exact raises_bind (raises_rejectIf (avoids_text (by decide))) fun _ _ =>
      setEntry_raises
  | autoOPEN | autoCLOSE => exact autoAnswer_raises
  | ACCEPT => exact acceptProposal_raises hs hsound hcomplete

/-- An ownership transfer finds the table of the record and its properties as well. -/
theorem answerProposal_transfer_raises (hs : Stored env s) (hsound : (ledger env s).Sound)
    (hcomplete : (ledger env s).Complete) (hresp : a.response = .ACCEPT)
    (hrole : a.role = .transferOwnership) :
    Raises (answerProposal env a s signer ts) (Avoids transferTexts) := by
  refine raises_bind (raises_expect getEntry_raises fun _ => avoids_text (by decide))
    fun c _ => ?_
  refine raises_bind (raises_expect getEntry_raises fun _ => avoids_append (by decide) _)
    fun i _ => ?_
  rw [hresp]
  refine raises_bind (raises_rejectIf (avoids_text (by decide))) fun _ _ => ?_
  refine raises_bind (raises_expect getEntry_raises fun _ => avoids_append (by decide) _)
    fun p _ => ?_
  rw [hrole]
  exact acceptOwnership_raises hs hsound hcomplete

end Answer

theorem payload_raises {texts : List (List Char)} (htexts : ∀ p ∈ texts, p ∈ transferTexts)
    {payload : Option PayloadMessage} :
    Raises (PayloadDGC.new payload) (Avoids texts) := by
  have text : ∀ {m : List Char}, (∀ p ∈ transferTexts, clash p m = false) →
      Avoids texts (.InvalidTransaction (String.ofList m)) := fun h => (avoids_text h).subset htexts
  cases payload with
  | none => exact raises_error (text (by decide))
  | some payload =>
    refine raises_bind ?_ fun _ _ =>
      raises_bind (raises_rejectIf (text (by decide))) fun _ _ => raises_ok _
    rw [payloadAction]
    split
    case h_1 | h_2 =>
      exact raises_bind (raises_rejectIf (text (by decide))) fun _ _ => raises_ok _
    case h_4 =>
      exact raises_bind (raises_rejectIf (text (by decide))) fun _ _ =>
        raises_bind (raises_rejectIf (text (by decide))) fun _ _ =>
          raises_bind (raises_forM fun _ _ => raises_rejectIf (text (by decide)))
            fun _ _ => raises_ok _
    all_goals exact raises_ok _

theorem dispatch_raises {payload : PayloadDGC} (hs : Stored env s)
    (hsound : (ledger env s).Sound) (hcomplete : (ledger env s).Complete) :
    Raises (dispatch env orders payload s signer) (Avoids danglingTexts) := by
  rw [dispatch]
  split
  · exact createParticipant_raises
  · exact createRecord_raises
  · exact finalizeRecord_raises hsound
  · exact createTable_raises
  · exact updateProperties_raises hs hsound.paged
  · exact createProposal_raises hsound
  · exact answerProposal_raises hs hsound hcomplete
  · exact revokeReporter_raises hsound

theorem logRequest_raises {texts : List (List Char)} {request : TpProcessRequest} :
    Raises (logRequest env request) (Avoids texts) := by
  rw [logRequest]
  split
  · exact raises_error (avoids_panic _)
  · exact raises_ok ()

theorem apply_raises {request : TpProcessRequest} (hs : Stored env s)
    (hsound : (ledger env s).Sound) (hcomplete : (ledger env s).Complete) :
    Raises (apply env orders request s) (Avoids danglingTexts) := by
  refine raises_bind (raises_expect (payload_raises fun _ => List.mem_append_left _) fun _ =>
    avoids_text (by decide)) fun _ _ => ?_
  exact raises_bind logRequest_raises fun _ _ => dispatch_raises hs hsound hcomplete

end Actions

end DgcRestApi
