import DgcRestApi.Ledger.Acceptance
import DgcRestApi.Ledger.Proposing

/-!
# Conflicting proposals

An owner may have offered a record to several participants. `_create_proposal` checks that
the issuer is the last owner, or the last custodian; the checks that an ACCEPT would make
again are commented out. So an offer outlives the ownership it was made from, and whether one
can be accepted late depends on the steps in between.
-/

namespace DgcRestApi

/-- Those who are asked when the record is offered in the role. -/
def Record.holders (rec : Record) (role : Role) : List AssociatedParticipant :=
  if role = .transferCustodianship then rec.custodians else rec.owners

namespace Ledger

variable {range : String → Address} {L L' : Ledger} {tx : Tx} {c d : Proposal} {x y r k : String}
variable {rec : Record} {signer : String} {ts : Nat}

/-- The issuer of the proposal is the last owner of its record, or the last custodian. -/
def Holds (L : Ledger) (c : Proposal) : Prop :=
  ∃ rec o, L.record c.recordId = some rec ∧ (rec.holders c.role).getLast? = some o ∧
    o.participantId = c.issuingParticipant

/-- The properties that the proposal names exist, if it is about properties. -/
def Answerable (L : Ledger) (c : Proposal) : Prop :=
  c.role = .authorizeReporter → ∀ n ∈ c.properties, ∃ q, L.property c.recordId n = some q

/-- Every open proposal about a record that can be accepted has its issuer behind it. -/
def Backed (L : Ledger) : Prop :=
  ∀ x c, L.proposal x = some c → c.status = .OPEN → c.role.OnRecord → Answerable L c → Holds L c

/-! ## What a step does to owners and custodians -/

/-- The transaction passes the record, or its custody if that is what the role is about, to
`k`. -/
def Passes (tx : Tx) (r : String) (role : Role) (k : String) : Prop :=
  ∃ a, tx.action = .AnswerProposal a ∧ a.response = .ACCEPT ∧ a.recordId = r ∧
    a.receivingParticipant = k ∧
      (a.role = .transferOwnership ∧ role ≠ .transferCustodianship ∨
        a.role = .transferCustodianship ∧ role = .transferCustodianship)

theorem passes_answer {a : AnswerProposalAction} {role : Role} :
    Passes ⟨signer,ts,.AnswerProposal a⟩ r role k ↔ a.response = .ACCEPT ∧ a.recordId = r ∧
      a.receivingParticipant = k ∧
        (a.role = .transferOwnership ∧ role ≠ .transferCustodianship ∨
          a.role = .transferCustodianship ∧ role = .transferCustodianship) := by
  constructor
  · rintro ⟨a',ha,h⟩
    obtain rfl := Action.AnswerProposal.inj ha
    exact h
  · exact fun h => ⟨a,rfl,h⟩

theorem Passes.accept {role : Role} {a : AnswerProposalAction} (hpass : Passes tx r role k)
    (ha : tx.action = .AnswerProposal a) : a.response = .ACCEPT ∧
      (a.role = .transferOwnership ∨ a.role = .transferCustodianship) := by
  obtain ⟨a',ha',hresp,_,_,hrole⟩ := hpass
  obtain rfl := Action.AnswerProposal.inj (ha.symm.trans ha')
  exact ⟨hresp,hrole.imp And.left And.left⟩

theorem Passes.receiver {r' k' : String} {role role' : Role} (hpass : Passes tx r role k)
    (hpass' : Passes tx r' role' k') : k = k' := by
  obtain ⟨a,ha,_,_,hk,_⟩ := hpass
  obtain ⟨a',ha',_,_,hk',_⟩ := hpass'
  obtain rfl := Action.AnswerProposal.inj (ha.symm.trans ha')
  exact hk.symm.trans hk'

theorem Passes.not_create {role : Role} (hpass : Passes tx r role k) (b : CreateRecordAction) :
    tx.action ≠ .CreateRecord b := by
  obtain ⟨a,ha,_⟩ := hpass
  rw [ha]
  exact nofun

/-- What becomes of the holders of a record: they stay, or the receiver of an accepted
transfer is appended. -/
theorem Step.holders (hstep : Step range L tx L') (hrec : L.record r = some rec) :
    ∃ rec', L'.record r = some rec' ∧ ∀ role,
      (∃ k, Passes tx r role k ∧ rec'.holders role = rec.holders role ++ [⟨k,tx.timestamp⟩]) ∨
      (∀ k, ¬ Passes tx r role k) ∧ rec'.holders role = rec.holders role := by
  have same : ∀ {L' : Ledger} {tx : Tx}, L'.record r = L.record r →
      (∀ role k, ¬ Passes tx r role k) → ∃ rec', L'.record r = some rec' ∧ ∀ role,
        (∃ k, Passes tx r role k ∧ rec'.holders role = rec.holders role ++ [⟨k,tx.timestamp⟩]) ∨
        (∀ k, ¬ Passes tx r role k) ∧ rec'.holders role = rec.holders role :=
    fun hL' hno => ⟨rec,hL'.trans hrec,fun role => Or.inr ⟨hno role,rfl⟩⟩
  cases hstep with
  | createParticipant | createTable | createProposal | revokeReporter =>
    exact same rfl fun _ _ ⟨_,h,_⟩ => nomatch h
  | @createRecord signer ts a _ _ _ _ hnew =>
    have hne : r ≠ a.recordId := by
      rintro rfl
      rw [hnew] at hrec
      exact nomatch hrec
    exact same (Function.update_of_ne hne ..) fun _ _ ⟨_,h,_⟩ => nomatch h
  | @finalizeRecord signer ts a rec₀ _ howned =>
    by_cases hr : r = a.recordId
    · subst hr
      obtain rfl := Option.some.inj (hrec.symm.trans howned.record)
      exact ⟨_,Function.update_self ..,fun _ => Or.inr ⟨fun _ ⟨_,h,_⟩ => (nomatch h),rfl⟩⟩
    · exact same (Function.update_of_ne hr ..) fun _ _ ⟨_,h,_⟩ => nomatch h
  | updateProperties _ _ hus =>
    exact same (congrFun hus.framed.record r) fun _ _ ⟨_,h,_⟩ => nomatch h
  | cancel _ hresp | reject _ hresp =>
    refine same rfl fun role k hpass => ?_
    rw [passes_answer,hresp] at hpass
    exact nomatch hpass.1
  | autoIdle _ hresp =>
    refine same rfl fun role k hpass => ?_
    rw [(passes_answer.mp hpass).1] at hresp
    exact nomatch hresp
  | autoBuy _ hresp | autoSell _ hresp =>
    refine same (by rw [fill_record]) fun role k hpass => ?_
    rw [(passes_answer.mp hpass).1] at hresp
    exact nomatch hresp
  | acceptIdle h hrole =>
    refine same rfl fun role k hpass => ?_
    rcases hrole with hrole | hrole <;> simp [passes_answer,hrole] at hpass
  | acceptCredit h hrole | acceptTransfer h hrole | acceptReporter h hrole =>
    refine same rfl fun role k hpass => ?_
    simp [passes_answer,hrole] at hpass
  | @acceptOwnership signer ts a _ _ _ rec₀ _ _ h hrole hrec₀ =>
    by_cases hr : r = a.recordId
    · subst hr
      obtain rfl := Option.some.inj (hrec.symm.trans hrec₀)
      refine ⟨_,Function.update_self ..,fun role => ?_⟩
      by_cases hcustody : role = .transferCustodianship
      · refine Or.inr ⟨fun k hpass => ?_,by simp [Record.holders,hcustody]⟩
        simp [passes_answer,hrole,hcustody] at hpass
      · refine Or.inl ⟨a.receivingParticipant,?_,by simp [Record.holders,hcustody]⟩
        exact passes_answer.mpr ⟨h.response,rfl,rfl,Or.inl ⟨hrole,hcustody⟩⟩
    · refine same (Function.update_of_ne hr ..) fun role k hpass => ?_
      exact hr (passes_answer.mp hpass).2.1.symm
  | @acceptCustodianship signer ts a _ _ _ rec₀ _ h hrole hrec₀ =>
    by_cases hr : r = a.recordId
    · subst hr
      obtain rfl := Option.some.inj (hrec.symm.trans hrec₀)
      refine ⟨_,Function.update_self ..,fun role => ?_⟩
      by_cases hcustody : role = .transferCustodianship
      · refine Or.inl ⟨a.receivingParticipant,?_,by simp [Record.holders,hcustody]⟩
        exact passes_answer.mpr ⟨h.response,rfl,rfl,Or.inr ⟨hrole,hcustody⟩⟩
      · refine Or.inr ⟨fun k hpass => ?_,by simp [Record.holders,hcustody]⟩
        simp [passes_answer,hrole,hcustody] at hpass
    · refine same (Function.update_of_ne hr ..) fun role k hpass => ?_
      exact hr (passes_answer.mp hpass).2.1.symm

/-- Properties stay, and come with new records. -/
theorem Step.property_exists (hL : Homed range L) (hstep : Step range L tx L') {n : String} :
    (∃ q, L'.property r n = some q) ↔ (∃ q, L.property r n = some q) ∨
      ∃ b t col, tx.action = .CreateRecord b ∧ L.table b.table = some t ∧
        range r = range b.recordId ∧ t.entry n = some col := by
  rcases hstep.property_cases with ⟨signer,ts,b,t,initial,rfl,hc⟩ | ⟨_,_,b,rec,rfl,hrec,_,hus⟩ |
      ⟨hcreate,_,_,hrel⟩
  · rw [hc.eq,initProperties_property,tableSchema_lookup]
    split
    · rename_i hhit
      obtain ⟨q,hq⟩ := Option.isSome_iff_exists.mp hhit.2
      obtain ⟨col,hcol,_⟩ := Option.map_eq_some_iff.mp hq
      exact iff_of_true ⟨q,hq⟩ (Or.inr ⟨b,t,col,rfl,hc.table,hhit.1,hcol⟩)
    · rename_i hmiss
      refine (or_iff_left ?_).symm
      rintro ⟨b',t',col,hb,ht,hrange,hcol⟩
      obtain rfl := Action.CreateRecord.inj hb
      obtain rfl := Option.some.inj (ht.symm.trans hc.table)
      exact hmiss ⟨hrange,by rw [hcol]; rfl⟩
  · rw [or_iff_left (fun ⟨_,_,_,h,_⟩ => nomatch h)]
    exact rel_exists_iff (hus.turned_property hL ⟨rec,hrec⟩ r n)
  · rw [or_iff_left (fun ⟨b,_,_,h,_⟩ => hcreate b h)]
    exact rel_exists_iff (hrel r n)

/-- What a proposal about a record refers to is there, and so are the properties that a
transfer of the record goes over. -/
structure Grounded (range : String → Address) (L : Ledger) : Prop where
  homed : Homed range L
  sound : Sound L
  receiver : ∀ x c, L.proposal x = some c → c.role.OnRecord → L.Registered c.receivingParticipant
  record : ∀ x c, L.proposal x = some c → c.role.OnRecord → ∃ rec, L.record c.recordId = some rec
  furnished : ∀ r rec t n col, L.record r = some rec → L.table rec.table = some t →
    t.entry n = some col → ∃ q, L.property r n = some q

theorem grounded_empty : Grounded range empty where
  homed := homed_empty
  sound := sound_empty
  receiver _ _ h := nomatch h
  record _ _ h := nomatch h
  furnished _ _ _ _ _ h := nomatch h

/-- A proposal after a step is a new one, or one from before with its terms. -/
theorem Step.proposal_origin (hstep : Step range L tx L') (hc : L'.proposal x = some c) :
    (∃ a i, tx.action = .CreateProposal a ∧ x = a.proposalId ∧ Proposable L a tx.signer i ∧
      c = newProposal a tx.signer tx.timestamp) ∨
    ∃ c₀, L.proposal x = some c₀ ∧
      c = { c₀ with dgCoinExchanged := c.dgCoinExchanged, status := c.status } := by
  rcases hstep.proposal_cases with ⟨a,ha,hL'⟩ | ⟨a,c₀,ha,hc₀,hL'⟩ | ⟨_,_,hL'⟩
  · rw [hL'] at hc
    rcases update_eq_some.mp hc with ⟨rfl,rfl⟩ | ⟨_,hold⟩
    · obtain ⟨signer,ts,action⟩ := tx
      obtain rfl : action = .CreateProposal a := ha
      cases hstep with
      | createProposal hg => exact Or.inl ⟨a,_,rfl,rfl,hg,rfl⟩
    · exact Or.inr ⟨c,hold,rfl⟩
  · rw [hL'] at hc
    rcases update_eq_some.mp hc with ⟨rfl,rfl⟩ | ⟨_,hold⟩
    · exact Or.inr ⟨c₀,hc₀,answered_eq c₀ a⟩
    · exact Or.inr ⟨c,hold,rfl⟩
  · exact Or.inr ⟨c,hL' ▸ hc,rfl⟩

/-- A new proposal about a record has its issuer behind it. -/
theorem Proposable.holds {a : CreateProposalAction} {i : Participant}
    (hg : Proposable L a signer i) (hon : a.role.OnRecord) : Holds L (newProposal a signer ts) := by
  by_cases hcustody : a.role = .transferCustodianship
  · obtain ⟨rec,o,hrec,_,ho,hsigner⟩ := hg.custodian hcustody
    exact ⟨rec,o,hrec,by simpa [Record.holders,newProposal,hcustody] using ho,hsigner⟩
  · have hrole : a.role = .transferOwnership ∨ a.role = .authorizeReporter := by
      rcases hon with hrole | hrole | hrole
      · exact Or.inl hrole
      · exact absurd hrole hcustody
      · exact Or.inr hrole
    obtain ⟨rec,howned⟩ := hg.owner hrole
    obtain ⟨o,ho,hsigner⟩ := howned.owner
    exact ⟨rec,o,howned.record,by simpa [Record.holders,newProposal,hcustody] using ho,hsigner⟩

theorem Step.grounded (hG : Grounded range L) (hstep : Step range L tx L') :
    Grounded range L' where
  homed := hstep.homed hG.homed
  sound := hstep.sound hG.homed hG.sound
  receiver x c hc hon := by
    refine Registered.grown hstep.participant_grown ?_
    rcases hstep.proposal_origin hc with ⟨a,i,_,_,hg,rfl⟩ | ⟨c₀,hc₀,heq⟩
    · refine hg.receiver ?_
      rcases hon with hrole | hrole | hrole
      · exact Or.inl hrole
      · exact Or.inr (Or.inr (Or.inl hrole))
      · exact Or.inr (Or.inl hrole)
    · rw [heq] at hon ⊢
      exact hG.receiver x c₀ hc₀ hon
  record x c hc hon := by
    have hold : ∃ rec, L.record c.recordId = some rec := by
      rcases hstep.proposal_origin hc with ⟨a,i,_,_,hg,rfl⟩ | ⟨c₀,hc₀,heq⟩
      · have hholds : Holds L (newProposal a tx.signer tx.timestamp) := hg.holds hon
        exact hholds.imp fun _ ⟨_,h,_⟩ => h
      · rw [heq] at hon ⊢
        exact hG.record x c₀ hc₀ hon
    obtain ⟨rec,hrec⟩ := hold
    exact (hstep.record_grown _ rec hrec).imp fun _ h => h.1
  furnished r rec t n col hrec ht hcol := by
    rw [hstep.property_exists hG.homed]
    rcases hstep.record_cases hrec with ⟨signer,ts,a,t₀,_,rfl,hc,rfl,rfl⟩ | ⟨rec₀,hrec₀,hext,_⟩
    · obtain ⟨t₁,ht₁,rfl⟩ := hstep.table_grown _ _ hc.table
      obtain rfl := Option.some.inj (ht₁.symm.trans ht)
      exact Or.inr ⟨a,_,col,rfl,hc.table,rfl,hcol⟩
    · obtain ⟨t₀,ht₀⟩ := (hG.sound.record r rec₀ hrec₀).table
      obtain ⟨t₁,ht₁,rfl⟩ := hstep.table_grown _ _ ht₀
      rw [hext.table,ht₁] at ht
      obtain rfl := Option.some.inj ht
      exact Or.inl (hG.furnished r rec₀ _ n col hrec₀ ht₀ hcol)

/-! ## Proposals left behind -/

/-- The transaction leaves an open proposal about a record without its issuer: it opens one
again whose issuer gave the record away, or passes the record of another one to somebody
else. Where identifiers have one address range, a new record can also bring the properties
that such a proposal names. -/
inductive Strands (range : String → Address) (L : Ledger) (tx : Tx) : Prop
  | reopened {a} {c : Proposal} (ha : tx.action = .AnswerProposal a)
      (hresp : a.response = .autoOPEN)
      (htrade : a.role = .buyDGC ∨ a.role = .sellDGC) (hc : L.proposal a.proposalId = some c)
      (hon : c.role.OnRecord) (hans : Answerable L c) (hgone : ¬ Holds L c)
  | passed {k y : String} {d : Proposal} (hpass : Passes tx d.recordId d.role k)
      (hy : tx.answers ≠ some y) (hd : L.proposal y = some d) (hopen : d.status = .OPEN)
      (hon : d.role.OnRecord) (hans : Answerable L d) (hother : d.issuingParticipant ≠ k)
  | enabled {b t} {y : String} {d : Proposal} (ha : tx.action = .CreateRecord b)
      (ht : L.table b.table = some t) (hd : L.proposal y = some d) (hopen : d.status = .OPEN)
      (hrole : d.role = .authorizeReporter) (hrange : range d.recordId = range b.recordId)
      (hprops : ∀ n ∈ d.properties, (∃ q, L.property d.recordId n = some q) ∨
        ∃ col, t.entry n = some col) (hgone : ¬ Holds L d)

theorem holds_record_iff (hrec : L.record c.recordId = some rec) :
    Holds L c ↔ ∃ o, (rec.holders c.role).getLast? = some o ∧
      o.participantId = c.issuingParticipant := by
  constructor
  · rintro ⟨rec',o,hrec',ho⟩
    obtain rfl := Option.some.inj (hrec.symm.trans hrec')
    exact ⟨o,ho⟩
  · rintro ⟨o,ho⟩
    exact ⟨rec,o,hrec,ho⟩

/-- The issuer is behind a proposal after the step: the record was passed to it, or it was
behind it before and the record was not passed. -/
theorem Step.holds_iff (hstep : Step range L tx L') (hrec : L.record c.recordId = some rec) :
    Holds L' c ↔ Passes tx c.recordId c.role c.issuingParticipant ∨
      Holds L c ∧ ∀ k, ¬ Passes tx c.recordId c.role k := by
  obtain ⟨rec',hrec',hcases⟩ := hstep.holders hrec
  rw [holds_record_iff hrec',holds_record_iff hrec]
  rcases hcases c.role with ⟨k,hpass,heq⟩ | ⟨hno,heq⟩
  · rw [heq,List.getLast?_concat]
    constructor
    · rintro ⟨o,ho,hk⟩
      obtain rfl := Option.some.inj ho
      exact Or.inl (hk ▸ hpass)
    · rintro (hpass' | ⟨_,hno⟩)
      · exact ⟨_,rfl,hpass.receiver hpass'⟩
      · exact absurd hpass (hno k)
  · rw [heq,or_iff_right (hno _),and_iff_left hno]

theorem Step.answerable (hL : Homed range L) (hstep : Step range L tx L') (h : Answerable L c) :
    Answerable L' c :=
  fun hrole n hn => (hstep.property_exists hL).mpr (Or.inl (h hrole n hn))

theorem Step.answerable_before (hL : Homed range L) (hstep : Step range L tx L')
    (hcreate : ∀ b, tx.action ≠ .CreateRecord b) (h : Answerable L' c) : Answerable L c := by
  intro hrole n hn
  rcases (hstep.property_exists hL).mp (h hrole n hn) with hq | ⟨b,_,_,hb,_⟩
  · exact hq
  · exact absurd hb (hcreate b)

/-- An answer leaves the terms of its proposal. -/
theorem holds_answered {a : AnswerProposalAction} : Holds L (answered c a) ↔ Holds L c := by
  rw [answered_eq]
  exact Iff.rfl

theorem answerable_answered {a : AnswerProposalAction} :
    Answerable L (answered c a) ↔ Answerable L c := by
  rw [answered_eq]
  exact Iff.rfl

/-- A proposal that was open before the step and is not answered by a transfer. -/
theorem Step.holds_kept (hG : Grounded range L) (hB : Backed L) (hstep : Step range L tx L')
    (hno : ¬ Strands range L tx) (hd : L.proposal y = some d) (hopen : d.status = .OPEN)
    (hon : d.role.OnRecord) (hans : Answerable L' d)
    (hpassed : ∀ k, Passes tx d.recordId d.role k → tx.answers ≠ some y) : Holds L' d := by
  obtain ⟨rec,hrec⟩ := hG.record y d hd hon
  rw [hstep.holds_iff hrec]
  by_cases hpass : ∃ k, Passes tx d.recordId d.role k
  · obtain ⟨k,hpass⟩ := hpass
    have hans₀ := hstep.answerable_before hG.homed hpass.not_create hans
    by_cases hk : d.issuingParticipant = k
    · exact Or.inl (hk ▸ hpass)
    · exact absurd (.passed hpass (hpassed k hpass) hd hopen hon hans₀ hk) hno
  · refine Or.inr ⟨?_,not_exists.mp hpass⟩
    by_contra hgone
    by_cases hans₀ : Answerable L d
    · exact hgone (hB y d hd hopen hon hans₀)
    · -- a property that the proposal names was created by this step
      unfold Answerable at hans₀
      push Not at hans₀
      obtain ⟨hrole,n,hn,hnone⟩ := hans₀
      have hexists := fun n hn => (hstep.property_exists hG.homed).mp (hans hrole n hn)
      obtain ⟨q,hq⟩ | ⟨b,t,_,hb,ht,hrange,_⟩ := hexists n hn
      · exact hnone q hq
      · refine hno (.enabled hb ht hd hopen hrole hrange (fun n' hn' => ?_) hgone)
        refine (hexists n' hn').imp_right ?_
        rintro ⟨b',t',col,hb',ht',_,hcol⟩
        obtain rfl := Action.CreateRecord.inj (hb.symm.trans hb')
        obtain rfl := Option.some.inj (ht.symm.trans ht')
        exact ⟨col,hcol⟩

theorem Step.backed (hG : Grounded range L) (hB : Backed L) (hstep : Step range L tx L')
    (hno : ¬ Strands range L tx) : Backed L' := by
  intro y d hd hopen hon hans
  rcases hstep.proposal_cases with ⟨a,ha,hL'⟩ | ⟨a,c,ha,hc,hL'⟩ | ⟨_,hanswer,hL'⟩
  · have hpasses : ∀ r role k, ¬ Passes tx r role k := by
      rintro _ _ _ ⟨_,ha',_⟩
      cases ha.symm.trans ha'
    rw [hL'] at hd
    rcases update_eq_some.mp hd with ⟨rfl,rfl⟩ | ⟨_,hold⟩
    · obtain ⟨signer,ts,action⟩ := tx
      obtain rfl : action = .CreateProposal a := ha
      cases hstep with
      | createProposal hg => exact hg.holds hon
    · exact hstep.holds_kept hG hB hno hold hopen hon hans fun k hpass =>
        absurd hpass (hpasses _ _ k)
  · rw [hL'] at hd
    rcases update_eq_some.mp hd with ⟨rfl,rfl⟩ | ⟨hne,hold⟩
    · rcases answered_open hopen with hkept | ⟨hresp,htrade⟩
      · rw [hkept] at hopen hon hans ⊢
        refine hstep.holds_kept hG hB hno hc hopen hon hans fun k hpass => ?_
        obtain ⟨hresp,hrole⟩ := hpass.accept ha
        rw [← hkept] at hopen
        rcases hrole with hrole | hrole <;> simp [answered,hresp,hrole] at hopen
      · have hrole : (answered c a).role = c.role := by rw [answered_eq]
        rw [hrole] at hon
        rw [answerable_answered] at hans
        have hcreate : ∀ b, tx.action ≠ .CreateRecord b := by
          intro b hb
          cases ha.symm.trans hb
        have hans₀ := hstep.answerable_before hG.homed hcreate hans
        obtain ⟨rec,hrec⟩ := hG.record _ c hc hon
        rw [holds_answered,hstep.holds_iff hrec]
        refine Or.inr ⟨?_,fun k hpass => ?_⟩
        · by_contra hgone
          exact hno (.reopened ha hresp htrade hc hon hans₀ hgone)
        · cases hresp.symm.trans (hpass.accept ha).1
    · refine hstep.holds_kept hG hB hno hold hopen hon hans fun _ _ hy => ?_
      rw [Tx.answers,ha] at hy
      exact hne (Option.some.inj hy).symm
  · refine hstep.holds_kept hG hB hno (hL' ▸ hd) hopen hon hans fun k hpass => ?_
    obtain ⟨a,ha,_⟩ := hpass
    exact absurd ha (hanswer a)

theorem Strands.not_backed (hG : Grounded range L) (hstep : Step range L tx L')
    (hstrands : Strands range L tx) : ¬ Backed L' := by
  intro hB
  cases hstrands with
  | @reopened a c ha hresp htrade hc hon hans hgone =>
    obtain ⟨rec,hrec⟩ := hG.record _ c hc hon
    have hstored : L'.proposal a.proposalId = some (answered c a) := by
      obtain ⟨signer,ts,action⟩ := tx
      obtain rfl : action = .AnswerProposal a := ha
      rw [hstep.answer_proposal hc,Function.update_self]
    have hrole : (answered c a).role = c.role := by rw [answered_eq]
    have hholds := hB _ _ hstored (by simp [answered,hresp,htrade]) (hrole ▸ hon)
      (answerable_answered.mpr (hstep.answerable hG.homed hans))
    rw [holds_answered,hstep.holds_iff hrec] at hholds
    rcases hholds with hpass | ⟨hholds,_⟩
    · cases hresp.symm.trans (hpass.accept ha).1
    · exact hgone hholds
  | @passed k y d hpass hy hd hopen hon hans hother =>
    obtain ⟨rec,hrec⟩ := hG.record y d hd hon
    have hstored : L'.proposal y = some d := by
      obtain ⟨a,ha,_⟩ := hpass
      obtain ⟨signer,ts,action⟩ := tx
      obtain rfl : action = .AnswerProposal a := ha
      obtain ⟨c,_,hc⟩ := hstep.answers
      have hne : y ≠ a.proposalId := fun he => hy (congrArg some he.symm)
      rw [hstep.answer_proposal hc.proposal,Function.update_of_ne hne,hd]
    have hholds := hB y d hstored hopen hon (hstep.answerable hG.homed hans)
    rw [hstep.holds_iff hrec] at hholds
    rcases hholds with hpass' | ⟨_,hnone⟩
    · exact hother (hpass'.receiver hpass)
    · exact hnone k hpass
  | @enabled b t y d hb ht hd hopen hrole hrange hprops hgone =>
    obtain ⟨rec,hrec⟩ := hG.record y d hd (Or.inr (Or.inr hrole))
    have hstored : L'.proposal y = some d := by
      rcases hstep.proposal_cases with ⟨_,ha,_⟩ | ⟨_,_,ha,_⟩ | ⟨_,_,hL'⟩
      · cases hb.symm.trans ha
      · cases hb.symm.trans ha
      · rw [hL',hd]
    have hans : Answerable L' d := by
      intro _ n hn
      rw [hstep.property_exists hG.homed]
      refine (hprops n hn).imp_right ?_
      rintro ⟨col,hcol⟩
      exact ⟨b,t,col,hb,ht,hrange,hcol⟩
    have hholds := hB y d hstored hopen (Or.inr (Or.inr hrole)) hans
    rw [hstep.holds_iff hrec] at hholds
    rcases hholds with hpass | ⟨hholds,_⟩
    · exact hpass.not_create b hb
    · exact hgone hholds

theorem Step.backed_iff (hG : Grounded range L) (hB : Backed L) (hstep : Step range L tx L') :
    Backed L' ↔ ¬ Strands range L tx :=
  ⟨fun hB' hstrands => hstrands.not_backed hG hstep hB',hstep.backed hG hB⟩

/-- A new proposal strands no other one. -/
theorem not_strands_offer {a : CreateProposalAction} :
    ¬ Strands range L ⟨signer,ts,.CreateProposal a⟩ := by
  intro hstrands
  cases hstrands with
  | reopened ha => exact nomatch ha
  | passed hpass =>
    obtain ⟨_,ha,_⟩ := hpass
    exact nomatch ha
  | enabled ha => exact nomatch ha

/-- Nor does an answer that takes a proposal back. -/
theorem not_strands_withdrawn {a : AnswerProposalAction} (hresp : a.response = .CANCEL) :
    ¬ Strands range L ⟨signer,ts,.AnswerProposal a⟩ := by
  intro hstrands
  cases hstrands with
  | reopened ha hreopen =>
    obtain rfl := Action.AnswerProposal.inj ha
    exact nomatch hresp.symm.trans hreopen
  | passed hpass =>
    obtain ⟨_,ha,haccept,_⟩ := hpass
    obtain rfl := Action.AnswerProposal.inj ha
    exact nomatch hresp.symm.trans haccept
  | enabled ha => exact nomatch ha

theorem not_strands_unproposed {tx : Tx} (hnone : ∀ x, L.proposal x = none) :
    ¬ Strands range L tx := by
  intro hstrands
  cases hstrands with
  | reopened _ _ _ hc => exact nomatch (hnone _).symm.trans hc
  | passed _ _ hd => exact nomatch (hnone _).symm.trans hd
  | enabled _ _ hd => exact nomatch (hnone _).symm.trans hd

end Ledger

theorem reachable_grounded {env : Env} {h : List (State × Tx)} {s : State}
    (hr : Reachable env h s) : Ledger.Grounded env.range (ledger env s) :=
  (reachable_refines hr).2.invariant (Ledger.Grounded env.range)
    (fun _ _ _ hG hstep => hstep.grounded hG) Ledger.grounded_empty

/-- An ACCEPT that repeats the terms of an open proposal about a record is accepted only while
the issuer is the last owner, or the last custodian. -/
def Rechecks (env : Env) (s : State) : Prop :=
  ∀ signer t a c, (ledger env s).proposal a.proposalId = some c → c.status = .OPEN →
    c.role.OnRecord → a.response = .ACCEPT → a.role = c.role → a.recordId = c.recordId →
      a.receivingParticipant = c.receivingParticipant →
        (∃ s', Accepted env s ⟨signer,t,.AnswerProposal a⟩ s') → Ledger.Holds (ledger env s) c

/-- The ACCEPT that repeats the terms of a proposal. -/
def acceptance (x : String) (c : Proposal) : AnswerProposalAction :=
  { proposalId := x, role := c.role, response := .ACCEPT, recordId := c.recordId
    receivingParticipant := c.receivingParticipant }

/-- The acceptance of an open proposal whose properties exist. -/
theorem Ledger.Grounded.accepts {range : String → Address} {L : Ledger} {x : String}
    {c : Proposal} (hG : Ledger.Grounded range L) (hc : L.proposal x = some c)
    (hon : c.role.OnRecord) (hans : Ledger.Answerable L c) (ts : Nat) :
    ∃ L', Ledger.Step range L
      ⟨c.receivingParticipant,ts,.AnswerProposal (acceptance x c)⟩ L' := by
  obtain ⟨p,hp⟩ := hG.receiver x c hc hon
  obtain ⟨rec,hrec⟩ := hG.record x c hc hon
  have hkept := hG.sound.record _ rec hrec
  obtain ⟨o,ho⟩ := Option.isSome_iff_exists.mp (List.getLast?_isSome.mpr hkept.owners_ne)
  obtain ⟨k,hk⟩ := Option.isSome_iff_exists.mp (List.getLast?_isSome.mpr hkept.custodians_ne)
  obtain ⟨t,ht⟩ := hkept.table
  rcases hon with hrole | hrole | hrole
  · refine ⟨_,.acceptOwnership ⟨⟨hc,hp⟩,rfl,rfl,hp⟩ hrole hrec ho ht fun col hcol => ?_⟩
    obtain ⟨col',hcol'⟩ := Table.entry_of_mem hcol
    exact hG.furnished _ rec t _ col' hrec ht hcol'
  · exact ⟨_,.acceptCustodianship ⟨⟨hc,hp⟩,rfl,rfl,hp⟩ hrole hrec hk⟩
  · exact ⟨_,.acceptReporter ⟨⟨hc,hp⟩,rfl,rfl,hp⟩ hrole hrec ho (hans hrole)⟩

theorem rechecks_iff {env : Env} {h : List (State × Tx)} {s : State} (hr : Reachable env h s)
    (hw : ∀ signer t a, a.response = .ACCEPT → Writes env s ⟨signer,t,.AnswerProposal a⟩) :
    Rechecks env s ↔ Ledger.Backed (ledger env s) := by
  constructor
  · intro hcheck x c hc hopen hon hans
    refine hcheck c.receivingParticipant 1 (acceptance x c) c hc hopen hon rfl rfl rfl rfl ?_
    rw [accepted_iff_step hr (hw _ _ _ rfl),sendable_iff]
    exact ⟨⟨one_ne_zero,trivial⟩,(reachable_grounded hr).accepts hc hon hans 1⟩
  · intro hB signer t a c hc hopen hon hresp hrole hrecord _ hacc
    refine hB _ c hc hopen hon fun hauthorize => ?_
    obtain ⟨s',hacc⟩ := hacc
    have hstep := (accepted_refines (reachable_refines hr).1 hacc).2
    generalize ledger env s' = L' at hstep
    obtain ⟨c',i,p,haccepts,heff⟩ := (Ledger.step_accept_iff hresp).mp hstep
    obtain rfl := Option.some.inj (hc.symm.trans haccepts.proposal)
    rw [hrole,hauthorize] at heff
    cases heff with
    | authorizeReporter _ _ hprops => exact hrecord ▸ hprops

theorem acceptance_rechecks_iff {env : Env} {h : List (State × Tx)} {s : State}
    (hr : Reachable env h s) (hw : ∀ x ∈ Run.states h s, ∀ signer t a, a.response = .ACCEPT →
      Writes env x ⟨signer,t,.AnswerProposal a⟩) :
    (∀ x ∈ Run.states h s, Rechecks env x) ↔
      ∀ e ∈ h, ¬ Ledger.Strands env.range (ledger env e.1) e.2 := by
  refine reachable_states_iff (I := fun L => Ledger.Grounded env.range L ∧ Ledger.Backed L)
    (Q := fun e => ¬ Ledger.Strands env.range e.1 e.2) (fun L tx L' hL hstep => ?_)
    ⟨Ledger.grounded_empty,fun _ _ hc => nomatch hc⟩ (fun h' x hx hr' => ?_) hr
  · rw [and_iff_right (hstep.grounded hL.1)]
    exact hstep.backed_iff hL.1 hL.2
  · rw [rechecks_iff hr' (hw x hx)]
    exact (and_iff_right (reachable_grounded hr')).symm

namespace Sample

/-- Of two offers of the record one is withdrawn, and the other one is taken. -/
def offeredOnce : State := outcome (apply plain orders (offer "x") (plainly []))

def offeredTwice : State := outcome (apply plain orders (offer "y") offeredOnce)

def settled : State := outcome (apply plain orders (answer "A" 6 (withdrawing "y")) offeredTwice)

def handedOver : State := outcome (apply plain orders (answer "B" 7 (taking "x" "B")) settled)

def owners (s : State) : Option (List String) :=
  ((ledger plain s).record "r").map fun rec => rec.owners.map AssociatedParticipant.participantId

end Sample

theorem acceptance_rechecks_sample : ∃ h, Reachable Sample.plain h Sample.handedOver ∧
    Sample.owners Sample.handedOver = some ["A","B"] ∧
    ∀ x ∈ Run.states h Sample.handedOver, Rechecks Sample.plain x := by
  obtain ⟨h,hr,hmap⟩ := replay_run (@Sample.plainly_eq [] (by decide +kernel))
  have hx : Accepted Sample.plain (Sample.plainly [])
      ⟨"A",5,.CreateProposal (Sample.offering "x")⟩ Sample.offeredOnce :=
    @Sample.plainly_accepted (Sample.offer "x") _ _ rfl (by decide +kernel)
  have hy : Accepted Sample.plain Sample.offeredOnce
      ⟨"A",5,.CreateProposal (Sample.offering "y")⟩ Sample.offeredTwice :=
    @Sample.plainly_accepted (Sample.offer "y") _ _ rfl (by decide +kernel)
  have hcancel : Accepted Sample.plain Sample.offeredTwice
      ⟨"A",6,.AnswerProposal (Sample.withdrawing "y")⟩ Sample.settled :=
    @Sample.plainly_accepted (Sample.answer "A" 6 (Sample.withdrawing "y")) _ _ rfl
      (by decide +kernel)
  have htake : Accepted Sample.plain Sample.settled
      ⟨"B",7,.AnswerProposal (Sample.taking "x" "B")⟩ Sample.handedOver :=
    @Sample.plainly_accepted (Sample.answer "B" 7 (Sample.taking "x" "B")) _ _ rfl
      (by decide +kernel)
  have hr₂ := (hr.snoc hx).snoc hy
  have hrun := (hr₂.snoc hcancel).snoc htake
  obtain ⟨_,hnone⟩ := not_proposed hr hmap (by decide +kernel)
  refine ⟨_,hrun,by decide +kernel,(acceptance_rechecks_iff hrun fun x hx _ _ _ _ => ?_).mpr ?_⟩
  · obtain ⟨_,hr'⟩ := hrun.of_states hx
    exact writes_of_total (reachable_sane hr') (fun _ => rfl) _
  rw [List.forall_mem_cons,List.forall_mem_cons,List.forall_mem_cons,List.forall_mem_cons]
  refine ⟨fun hstrands => ?_,Ledger.not_strands_withdrawn rfl,Ledger.not_strands_offer,
    Ledger.not_strands_offer,fun e he => Ledger.not_strands_unproposed
      (hnone e.1 (List.mem_cons_of_mem _ (List.mem_map_of_mem he)))⟩
  cases hstrands with
  | reopened ha hresp =>
    obtain rfl := Action.AnswerProposal.inj ha
    exact nomatch hresp
  | @passed k z d hpass hz hd hopen =>
    -- the other offer was withdrawn before
    have hzx : z ≠ "x" := fun he => hz (congrArg some he.symm)
    dsimp only at hd
    by_cases hzy : z = "y"
    · subst hzy
      have hstatus : ((ledger Sample.plain Sample.settled).proposal "y").map Proposal.status =
          some .CANCELED := by decide +kernel
      rw [hd,Option.map_some,hopen] at hstatus
      exact nomatch hstatus
    · have hunproposed := hcancel.unproposed hr₂ nofun
        (hy.unproposed (hr.snoc hx) (fun h => hzy (Option.some.inj h).symm)
          (hx.unproposed hr (fun h => hzx (Option.some.inj h).symm)
            (hnone _ List.mem_cons_self z)))
      rw [hunproposed] at hd
      exact nomatch hd
  | enabled ha => exact nomatch ha

namespace Sample

/-- The record is offered to two participants, and the first of them takes it. -/
def sold : List TpProcessRequest :=
  [request "C"
    { action := .CREATE_PARTICIPANT, timestamp := 5, createParticipant := { name := "Cid" } },
   offer "x",propose "A" 6 { offering "y" with receivingParticipant := "C" },
   answer "B" 7 (taking "x" "B")]

/-- Then the second one answers. -/
def soldTwice : State := outcome (apply plain orders (answer "C" 8 (taking "y" "C")) (plainly sold))

end Sample

/-- The record is taken from its new owner by an offer of the old one. -/
theorem taken_late : ∃ h, Reachable Sample.plain h (Sample.plainly Sample.sold) ∧
    Sample.owners (Sample.plainly Sample.sold) = some ["A","B"] ∧
    Accepted Sample.plain (Sample.plainly Sample.sold)
      ⟨"C",8,.AnswerProposal (Sample.taking "y" "C")⟩ Sample.soldTwice ∧
    Sample.owners Sample.soldTwice = some ["A","B","C"] ∧
    ¬ ∀ x ∈ Run.states h (Sample.plainly Sample.sold), Rechecks Sample.plain x := by
  obtain ⟨h,hr,_⟩ := replay_run (@Sample.plainly_eq Sample.sold (by decide +kernel))
  have howners : Sample.owners (Sample.plainly Sample.sold) = some ["A","B"] := by decide +kernel
  have hacc := @Sample.plainly_accepted (Sample.answer "C" 8 (Sample.taking "y" "C"))
    (Sample.plainly Sample.sold) ⟨"C",8,.AnswerProposal (Sample.taking "y" "C")⟩ rfl
    (by decide +kernel)
  refine ⟨h,hr,howners,hacc,by decide +kernel,fun hall => ?_⟩
  obtain ⟨c,hc,hterms⟩ := Option.map_eq_some_iff.mp (show
    ((ledger Sample.plain (Sample.plainly Sample.sold)).proposal "y").map
      (fun c => (c.status,c.role,c.recordId,c.receivingParticipant,c.issuingParticipant)) =
        some (.OPEN,.transferOwnership,"r","C","A") by decide +kernel)
  simp only [Prod.mk.injEq] at hterms
  obtain ⟨hopen,hrole,hrecord,hreceiver,hissuer⟩ := hterms
  obtain ⟨rec,o,hrec,ho,hholds⟩ := hall _ List.mem_cons_self "C" 8 (Sample.taking "y" "C") c hc
    hopen (Or.inl hrole) rfl hrole.symm hrecord.symm hreceiver.symm ⟨_,hacc⟩
  rw [hrecord] at hrec
  rw [Sample.owners,hrec,Option.map_some,Option.some.injEq] at howners
  have hlast : rec.owners.getLast? = some o := by
    rw [hrole] at ho
    exact ho
  have hname : (rec.owners.map AssociatedParticipant.participantId).getLast? =
      some o.participantId := by
    rw [List.getLast?_map,hlast]
    rfl
  rw [howners,hholds,hissuer] at hname
  exact absurd hname (by decide)

end DgcRestApi
