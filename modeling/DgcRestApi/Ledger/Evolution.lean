import DgcRestApi.Kit.Grown
import DgcRestApi.Ledger.Step
import Mathlib.Logic.Relation

/-!
# How objects evolve

What one step can do to each kind of object: participants, records and tables are created
once and then only extended; a property is created with its record, and afterwards either
turns its pages or goes through the changes of its reporters that `Touch` lists.
-/

namespace DgcRestApi

/-! ## Properties -/

/-- One change of a property's reporters. A key that is added satisfies `registered`. -/
inductive Touch (registered : String → Prop) : Property → Property → Prop
  | handOver (q owner) {receiver} (h : registered receiver) :
      Touch registered q (handOver owner receiver q)
  | addReporter (q) {receiver} (h : registered receiver) :
      Touch registered q (addReporter receiver q)
  | revoke (q reporterId) : Touch registered q (Ledger.revoke reporterId q)

abbrev Evolves (registered : String → Prop) : Property → Property → Prop :=
  Relation.ReflTransGen (Touch registered)

variable {registered : String → Prop} {q q' : Property}

theorem evolves_iterate {f : Property → Property} (hf : ∀ q, Touch registered q (f q)) (n : Nat)
    (q : Property) : Evolves registered q (f^[n] q) := by
  induction n with
  | zero => exact .refl
  | succ n ih =>
    rw [Function.iterate_succ_apply']
    exact ih.tail (hf _)

/-- The part of a property that the schema of its table fixes. -/
def Property.schema (q : Property) : PropertySchema :=
  { name := q.name
    dataType := q.dataType
    fixed := q.fixed
    numberExponent := q.numberExponent
    enumOptions := q.enumOptions
    structProperties := q.structProperties
    unit := q.unit }

/-- A reporter entry with another authorization. -/
def Reporter.SameKey (a b : Reporter) : Prop := b.publicKey = a.publicKey ∧ b.index = a.index

/-- The reporters of a property handed over: every entry of the old owner loses its
authorization, the receiver's entries gain it, and one is added when the receiver had none. -/
theorem handOver_reporters (owner receiver : String) (q : Property) :
    (handOver owner receiver q).reporters = q.reporters.map (fun rep =>
        if rep.publicKey = owner then { rep with authorized := false }
        else if rep.publicKey = receiver then { rep with authorized := true } else rep) ++
      if ∃ rep ∈ q.reporters, rep.publicKey ≠ owner ∧ rep.publicKey = receiver then []
      else [{ publicKey := receiver, authorized := true, index := asU32 q.reporters.length }] := by
  have hfold : ∀ (l : List Reporter) (acc : Bool × List Reporter),
      l.foldl (handOverEntry owner receiver) acc =
        (acc.1 || l.any (fun rep => rep.publicKey ≠ owner && rep.publicKey = receiver),
          acc.2 ++ l.map (fun rep =>
            if rep.publicKey = owner then { rep with authorized := false }
            else if rep.publicKey = receiver then { rep with authorized := true } else rep)) := by
    intro l
    induction l with
    | nil => simp
    | cons rep l ih =>
      intro acc
      rw [List.foldl_cons,ih]
      by_cases ho : rep.publicKey = owner
      · simp [handOverEntry,ho]
      · by_cases hr : rep.publicKey = receiver
        · subst hr
          simp [handOverEntry,ho]
        · simp [handOverEntry,ho,hr]
  rw [handOver,hfold]
  by_cases hany : ∃ rep ∈ q.reporters, rep.publicKey ≠ owner ∧ rep.publicKey = receiver
  · simp [hany]
  · simp [hany]

/-- Every change is one of the reporters alone: it keeps the key and index of each position
and appends at most one entry, which is registered and numbered by its position. -/
theorem Touch.spec (h : Touch registered q q') :
    q' = { q with reporters := q'.reporters } ∧
      ∃ f : Reporter → Reporter, (∀ rep : Reporter, rep.SameKey (f rep)) ∧ ∃ added : List Reporter,
        q'.reporters = q.reporters.map f ++ added ∧ (added = [] ∨ ∃ receiver, registered receiver ∧
          added = [⟨receiver,true,asU32 q.reporters.length⟩]) := by
  cases h with
  | handOver owner hr =>
    refine ⟨rfl,_,fun rep => ?_,_,handOver_reporters owner _ q,?_⟩
    · split
      · exact ⟨rfl,rfl⟩
      · split <;> exact ⟨rfl,rfl⟩
    · split
      · exact Or.inl rfl
      · exact Or.inr ⟨_,hr,rfl⟩
  | addReporter hr =>
    exact ⟨rfl,id,fun _ => ⟨rfl,rfl⟩,_,by rw [List.map_id]; rfl,Or.inr ⟨_,hr,rfl⟩⟩
  | revoke reporterId =>
    refine ⟨rfl,_,fun rep => ?_,[],by rw [List.append_nil]; rfl,Or.inl rfl⟩
    split <;> exact ⟨rfl,rfl⟩

/-- `q'` has the record and the schema of `q`, and every reporter of `q` at its position
with its key and index. -/
structure Property.Extends (q q' : Property) : Prop where
  recordId : q'.recordId = q.recordId
  schema : q'.schema = q.schema
  reporters : ∀ (i : Nat) (rep : Reporter), q.reporters[i]? = some rep →
    ∃ rep', q'.reporters[i]? = some rep' ∧ rep.SameKey rep'

theorem Property.Extends.refl (q : Property) : q.Extends q :=
  ⟨rfl,rfl,fun _ rep h => ⟨rep,h,rfl,rfl⟩⟩

theorem Property.Extends.trans {q q' q'' : Property} (h : q.Extends q') (h' : q'.Extends q'') :
    q.Extends q'' := by
  refine ⟨h'.recordId.trans h.recordId,h'.schema.trans h.schema,fun i rep hrep => ?_⟩
  obtain ⟨rep',hrep',hk⟩ := h.reporters i rep hrep
  obtain ⟨rep'',hrep'',hk'⟩ := h'.reporters i rep' hrep'
  exact ⟨rep'',hrep'',hk'.1.trans hk.1,hk'.2.trans hk.2⟩

theorem Touch.extends (h : Touch registered q q') : q.Extends q' := by
  obtain ⟨hq,f,hf,added,hreporters,_⟩ := h.spec
  refine ⟨by rw [hq],by rw [hq]; rfl,fun i rep hrep => ⟨f rep,?_,hf rep⟩⟩
  rw [hreporters]
  obtain ⟨hi,rfl⟩ := List.getElem?_eq_some_iff.mp hrep
  rw [List.getElem?_append_left (by simpa using hi),List.getElem?_map,
    List.getElem?_eq_getElem hi]
  rfl

/-- A property whose pages were turned. -/
def Turned (q q' : Property) : Prop :=
  q' = { q with currentPage := q'.currentPage, wrapped := q'.wrapped }

theorem turned_turnPage (q : Property) (k : Nat) : Turned q (turnPage q k) := rfl

theorem Turned.refl (q : Property) : Turned q q := rfl

theorem Turned.trans (q q' q'' : Property) (h : Turned q q') (h' : Turned q' q'') :
    Turned q q'' := by
  rw [Turned] at h h' ⊢
  rw [h',h]

theorem Turned.reporters (h : Turned q q') : q'.reporters = q.reporters := by
  rw [Turned.eq_def] at h
  rw [h]

theorem Turned.schema (h : Turned q q') : q'.schema = q.schema := by
  rw [Turned.eq_def] at h
  rw [h]
  rfl

/-- Turning pages does not change what an update is stored as. -/
theorem Turned.makeNewReportedValue (h : Turned q q') (i t : Nat) (u : PropertyValue) :
    makeNewReportedValue i t u q' = makeNewReportedValue i t u q :=
  makeNewReportedValue_congr i t u (congrArg PropertySchema.enumOptions h.schema)
    (congrArg PropertySchema.structProperties h.schema)

theorem Turned.extends (h : Turned q q') : q.Extends q' := by
  refine ⟨?_,h.schema,fun i rep hrep => ⟨rep,by rw [h.reporters]; exact hrep,rfl,rfl⟩⟩
  rw [Turned.eq_def] at h
  rw [h]

/-- Between two turns of its pages only the reporters of a property change. -/
theorem Evolves.eq (h : Evolves registered q q') : q' = { q with reporters := q'.reporters } := by
  induction h with
  | refl => rfl
  | tail _ ht ih =>
    rw [ht.spec.1,ih]

theorem Evolves.extends (h : Evolves registered q q') : q.Extends q' := by
  induction h with
  | refl => exact .refl q
  | tail _ ht ih => exact ih.trans ht.extends

namespace Ledger

variable {range : String → Address} {L L' : Ledger} {tx : Tx} {r signer : String} {ts : Nat}
variable {u : PropertyValue} {us : List PropertyValue}

def Registered (L : Ledger) (k : String) : Prop := ∃ p, L.participant k = some p

/-! ## Updates of properties -/

/-- An update of properties touches nothing but properties and pages. -/
structure Framed (L L' : Ledger) : Prop where
  participant : L'.participant = L.participant
  record : L'.record = L.record
  table : L'.table = L.table
  proposal : L'.proposal = L.proposal
  exchange : L'.exchange = L.exchange

theorem Report.framed (h : Report range r signer ts L u L') : Framed L L' := by
  cases h with
  | filed => exact ⟨rfl,rfl,rfl,rfl,rfl⟩
  | turned _ _ _ hL₁ =>
    subst hL₁
    exact ⟨rfl,rfl,rfl,rfl,rfl⟩

theorem Reports.framed (h : Reports range r signer ts L us L') : Framed L L' := by
  induction h with
  | nil => exact ⟨rfl,rfl,rfl,rfl,rfl⟩
  | cons hu _ ih =>
    have hf := hu.framed
    exact ⟨ih.participant.trans hf.participant,ih.record.trans hf.record,
      ih.table.trans hf.table,ih.proposal.trans hf.proposal,ih.exchange.trans hf.exchange⟩

/-- The rule for the updates of one transaction: what each of them preserves, under a guard
on the update, they all preserve. -/
theorem Reports.invariant (P : Ledger → Prop)
    (hstep : ∀ L u L', u ∈ us → P L → Report range r signer ts L u L' → P L')
    (hP : P L) (h : Reports range r signer ts L us L') : P L' := by
  induction h with
  | nil => exact hP
  | cons hu _ ih =>
    exact ih (fun L u L' hmem => hstep L u L' (List.mem_cons_of_mem _ hmem))
      (hstep _ _ _ List.mem_cons_self hP hu)

/-! ## Participants, records and tables -/

end Ledger

/-- The participant keeps who it is, and its balances and credits only grow. -/
structure Participant.Extends (p p' : Participant) : Prop where
  publicKey : p'.publicKey = p.publicKey
  name : p'.name = p.name
  timestamp : p'.timestamp = p.timestamp
  balances : p.dgCoinBalances <+: p'.dgCoinBalances
  credits : p.dgCoinCredits <+: p'.dgCoinCredits

theorem Participant.Extends.refl (p : Participant) : p.Extends p :=
  ⟨rfl,rfl,rfl,List.prefix_rfl,List.prefix_rfl⟩

theorem Participant.Extends.trans (p p' p'' : Participant) (h : p.Extends p')
    (h' : p'.Extends p'') : p.Extends p'' :=
  ⟨h'.publicKey.trans h.publicKey,h'.name.trans h.name,h'.timestamp.trans h.timestamp,
    h.balances.trans h'.balances,h.credits.trans h'.credits⟩

theorem Participant.extends_pay (p : Participant) (x : String) (t : Nat) (amount : ℚ) :
    p.Extends (p.pay x t amount) :=
  ⟨rfl,rfl,rfl,List.prefix_append ..,List.prefix_rfl⟩

theorem Participant.extends_lend (p : Participant) (x : String) (t : Nat) (amount : ℚ) :
    p.Extends (p.lend x t amount) :=
  ⟨rfl,rfl,rfl,List.prefix_rfl,List.prefix_append ..⟩

/-- The record keeps its table, its owners and custodians only grow, and it stays final. -/
structure Record.Extends (rec rec' : Record) : Prop where
  recordId : rec'.recordId = rec.recordId
  table : rec'.table = rec.table
  owners : rec.owners <+: rec'.owners
  custodians : rec.custodians <+: rec'.custodians
  final : rec.final = true → rec'.final = true

theorem Record.Extends.refl (rec : Record) : rec.Extends rec :=
  ⟨rfl,rfl,List.prefix_rfl,List.prefix_rfl,id⟩

theorem Record.Extends.trans (a b c : Record) (h : a.Extends b) (h' : b.Extends c) :
    a.Extends c :=
  ⟨h'.recordId.trans h.recordId,h'.table.trans h.table,h.owners.trans h'.owners,
    h.custodians.trans h'.custodians,h'.final ∘ h.final⟩

namespace Ledger

variable {range : String → Address} {L L' : Ledger} {tx : Tx}

theorem transfer_grown {a : AnswerProposalAction} {c : Proposal} {i p : Participant}
    {signer : String} {ts : Nat} (hi : L.participant signer = some i)
    (hp : L.participant a.receivingParticipant = some p) :
    Grown Participant.Extends L.participant (L.transfer a c i p signer ts).participant := by
  intro k q hq
  rw [transfer_participant]
  by_cases hr : k = a.receivingParticipant
  · subst hr
    obtain rfl : p = q := Option.some.inj (hp.symm.trans hq)
    exact ⟨_,Function.update_self ..,p.extends_pay ..⟩
  · rw [Function.update_of_ne hr]
    exact Grown.update Participant.Extends.refl hi (i.extends_pay ..) k q hq

theorem Step.participant_grown (h : Step range L tx L') :
    Grown Participant.Extends L.participant L'.participant := by
  cases h with
  | createParticipant hnew => exact .create Participant.Extends.refl _ hnew
  | updateProperties _ _ hreports =>
    rw [hreports.framed.participant]
    exact .refl Participant.Extends.refl _
  | autoBuy ha | autoSell ha =>
    rw [fill_participant]
    exact .update Participant.Extends.refl ha.registered (Participant.extends_pay ..)
  | acceptCredit ha =>
    exact .update Participant.Extends.refl ha.participant (Participant.extends_lend ..)
  | acceptTransfer ha => exact transfer_grown ha.registered ha.participant
  | _ => exact .refl Participant.Extends.refl _

theorem Step.record_grown (h : Step range L tx L') :
    Grown Record.Extends L.record L'.record := by
  cases h with
  | createRecord _ hnew => exact .create Record.Extends.refl _ hnew
  | finalizeRecord howned =>
    exact .update Record.Extends.refl howned.record
      ⟨rfl,rfl,List.prefix_rfl,List.prefix_rfl,fun _ => rfl⟩
  | updateProperties _ _ hreports =>
    rw [hreports.framed.record]
    exact .refl Record.Extends.refl _
  | autoBuy | autoSell =>
    rw [fill_record]
    exact .refl Record.Extends.refl _
  | acceptOwnership _ _ hrec =>
    exact .update Record.Extends.refl hrec
      ⟨rfl,rfl,List.prefix_append ..,List.prefix_rfl,id⟩
  | acceptCustodianship _ _ hrec =>
    exact .update Record.Extends.refl hrec
      ⟨rfl,rfl,List.prefix_rfl,List.prefix_append ..,id⟩
  | _ => exact .refl Record.Extends.refl _

theorem Step.table_grown (h : Step range L tx L') : Grown Eq L.table L'.table := by
  cases h with
  | createTable hnew => exact .create (fun _ => rfl) _ hnew
  | updateProperties _ _ hreports =>
    rw [hreports.framed.table]
    exact .refl (fun _ => rfl) _
  | autoBuy | autoSell =>
    rw [fill_table]
    exact .refl (fun _ => rfl) _
  | _ => exact .refl (fun _ => rfl) _

/-! ## Where properties and pages live -/

/-- Records of one range share their properties and pages, each of which is named after its
lookup and carries an existing record of that range. -/
structure Homed (range : String → Address) (L : Ledger) : Prop where
  property_congr : ∀ r r', range r' = range r → L.property r' = L.property r
  page_congr : ∀ r r', range r' = range r → L.page r' = L.page r
  property : ∀ r n q, L.property r n = some q →
    q.name = n ∧ range q.recordId = range r ∧ ∃ rec, L.record q.recordId = some rec
  page : ∀ r n k page, L.page r n k = some page →
    page.name = n ∧ range page.recordId = range r ∧ ∃ rec, L.record page.recordId = some rec

theorem homed_empty : Homed range empty := ⟨fun _ _ _ => rfl,fun _ _ _ => rfl,nofun,nofun⟩

namespace Homed

variable {r n : String} {k : Nat}

theorem of_grown (h : Homed range L) (hrec : Grown Record.Extends L.record L'.record)
    (hprop : L'.property = L.property) (hpage : L'.page = L.page) : Homed range L' where
  property_congr r r' hr := by rw [hprop,h.property_congr r r' hr]
  page_congr r r' hr := by rw [hpage,h.page_congr r r' hr]
  property r n q hq := by
    obtain ⟨hn,hr,rec,hrec'⟩ := h.property r n q (hprop ▸ hq)
    obtain ⟨rec',hrec',_⟩ := hrec _ rec hrec'
    exact ⟨hn,hr,rec',hrec'⟩
  page r n k page hp := by
    obtain ⟨hn,hr,rec,hrec'⟩ := h.page r n k page (hpage ▸ hp)
    obtain ⟨rec',hrec',_⟩ := hrec _ rec hrec'
    exact ⟨hn,hr,rec',hrec'⟩

theorem setProperty (h : Homed range L) {q : Property} (hn : q.name = n)
    (hr : range q.recordId = range r) (hrec : ∃ rec, L.record q.recordId = some rec) :
    Homed range (L.setProperty range r n q) where
  property_congr r₁ r₂ hr₁ := by
    funext n'
    simp [hr₁,h.property_congr r₁ r₂ hr₁]
  page_congr := h.page_congr
  property r' n' q' hq := by
    rw [setProperty_property] at hq
    split at hq
    · next hhit =>
      obtain rfl := Option.some.inj hq
      exact ⟨hn.trans hhit.2.symm,hr.trans hhit.1.symm,hrec⟩
    · exact h.property r' n' q' hq
  page := h.page

theorem setPage (h : Homed range L) {page : PropertyPage} (hn : page.name = n)
    (hr : range page.recordId = range r) (hrec : ∃ rec, L.record page.recordId = some rec) :
    Homed range (L.setPage range r n k page) where
  property_congr := h.property_congr
  page_congr r₁ r₂ hr₁ := by
    funext n' k'
    simp [hr₁,h.page_congr r₁ r₂ hr₁]
  property := h.property
  page r' n' k' page' hp := by
    rw [setPage_page] at hp
    split at hp
    · next hhit =>
      obtain rfl := Option.some.inj hp
      exact ⟨hn.trans hhit.2.1.symm,hr.trans hhit.1.symm,hrec⟩
    · exact h.page r' n' k' page' hp

theorem initProperties (h : Homed range L) {prop : String → Option Property}
    {initial : String → List ReportedValue}
    (hprop : ∀ n q, prop n = some q → q.name = n ∧ q.recordId = r)
    (hrec : ∃ rec, L.record r = some rec) :
    Homed range (L.initProperties range r prop initial) where
  property_congr r₁ r₂ hr₁ := by
    funext n'
    simp [hr₁,h.property_congr r₁ r₂ hr₁]
  page_congr r₁ r₂ hr₁ := by
    funext n' k'
    simp [hr₁,h.page_congr r₁ r₂ hr₁]
  property r' n' q' hq := by
    rw [initProperties_property] at hq
    split at hq
    · next hhit =>
      obtain ⟨hn,hr⟩ := hprop n' q' hq
      exact ⟨hn,hr ▸ hhit.1.symm,hr ▸ hrec⟩
    · exact h.property r' n' q' hq
  page r' n' k' page' hp := by
    rw [initProperties_page] at hp
    split at hp
    · next hhit =>
      obtain rfl := Option.some.inj hp
      exact ⟨rfl,hhit.1.symm,hrec⟩
    · exact h.page r' n' k' page' hp

theorem mapProperties (h : Homed range L) {names : List String} {f : Property → Property}
    (hf : ∀ q, Touch L.Registered q (f q)) : Homed range (L.mapProperties range r names f) where
  property_congr r₁ r₂ hr₁ := by
    funext n'
    simp [hr₁,h.property_congr r₁ r₂ hr₁]
  page_congr := h.page_congr
  property r' n' q' hq := by
    rw [mapProperties_property] at hq
    split at hq
    · obtain ⟨q,hq₀,rfl⟩ := Option.map_eq_some_iff.mp hq
      have hext := (evolves_iterate hf (names.count n') q).extends
      have hname : (f^[names.count n'] q).name = q.name :=
        congrArg PropertySchema.name hext.schema
      rw [hname,hext.recordId]
      exact h.property r' n' q hq₀
    · exact h.property r' n' q' hq
  page := h.page

theorem report (h : Homed range L) {signer : String} {ts : Nat} {u : PropertyValue}
    (hr : ∃ rec, L.record r = some rec) (hstep : Report range r signer ts L u L') :
    Homed range L' := by
  cases hstep with
  | filed hrep =>
    obtain ⟨hn,hrange,hrec⟩ := h.page _ _ _ _ hrep.page
    exact h.setPage hn hrange hrec
  | @turned L₁ _ _ _ _ next hrep _ _ hL₁ =>
    obtain ⟨hn,hrange,hrec⟩ := h.page _ _ _ _ hrep.page
    obtain ⟨hqn,hqrange,hqrec⟩ := h.property _ _ _ hrep.property
    have h₁ : Homed range L₁ := hL₁ ▸ h.setPage hn hrange hrec
    have hrec₁ : L₁.record = L.record := hL₁ ▸ rfl
    refine setProperty (setPage h₁ ?_ ?_ ?_) hqn hqrange (hrec₁ ▸ hqrec)
    -- the next page is made for this record or has been stored before
    all_goals
      cases hold : L₁.page r u.name next with
      | none => first | rfl | exact hrec₁ ▸ hr
      | some old =>
        obtain ⟨hon,horange,horec⟩ := h₁.page _ _ _ _ hold
        first | exact hon | exact horange | exact horec

end Homed

theorem Reports.homed {r signer : String} {ts : Nat} {us : List PropertyValue}
    (h : Homed range L) (hr : ∃ rec, L.record r = some rec)
    (hstep : Reports range r signer ts L us L') : Homed range L' := by
  have hboth := hstep.invariant (fun L => Homed range L ∧ ∃ rec, L.record r = some rec)
    (fun L u L' _ hP hu => ⟨hP.1.report hP.2 hu,hu.framed.record ▸ hP.2⟩) ⟨h,hr⟩
  exact hboth.1

theorem Step.homed (h : Homed range L) (hstep : Step range L tx L') : Homed range L' := by
  have hgrown := hstep.record_grown
  cases hstep with
  | @createRecord signer ts a =>
    have h₁ : Homed range (L.setRecord a.recordId (newRecord a signer ts)) :=
      h.of_grown hgrown rfl rfl
    refine h₁.initProperties (fun n q hq => ?_) ⟨_,Function.update_self ..⟩
    obtain ⟨col,_,rfl⟩ := Option.map_eq_some_iff.mp hq
    exact ⟨rfl,rfl⟩
  | updateProperties hrec _ hreports => exact hreports.homed h ⟨_,hrec⟩
  | autoBuy | autoSell =>
    exact h.of_grown hgrown (fill_property ..) (fill_page ..)
  | @acceptOwnership _ ts a _ _ _ rec _ _ ha =>
    -- first the owner is appended, then the properties are handed over
    have h₁ : Homed range (L.setRecord a.recordId
        { rec with owners := rec.owners ++ [⟨a.receivingParticipant,ts⟩] }) :=
      h.of_grown hgrown rfl rfl
    exact (h₁.mapProperties fun q => .handOver q _ ⟨_,ha.participant⟩).of_grown
      (.refl Record.Extends.refl _) rfl rfl
  | acceptReporter ha =>
    exact (h.mapProperties fun q => .addReporter q ⟨_,ha.participant⟩).of_grown
      (.refl Record.Extends.refl _) rfl rfl
  | revokeReporter => exact h.mapProperties fun q => .revoke q _
  | _ => exact h.of_grown hgrown rfl rfl

/-! ## What one step does to properties and pages -/

theorem relSelf {α : Type} {R : α → α → Prop} (hR : ∀ a, R a a) (o : Option α) :
    Option.Rel R o o := by
  cases o with
  | none => exact .none
  | some a => exact .some (hR a)

theorem rel_trans {α : Type} {R : α → α → Prop} (hR : ∀ a b c, R a b → R b c → R a c)
    {o o' o'' : Option α} (h : Option.Rel R o o') (h' : Option.Rel R o' o'') :
    Option.Rel R o o'' := by
  cases h with
  | none => exact h'
  | some hab =>
    cases h' with
    | some hbc => exact .some (hR _ _ _ hab hbc)

theorem rel_some_left {α : Type} {R : α → α → Prop} {a : α} {o : Option α}
    (h : Option.Rel R (some a) o) : ∃ b, o = some b ∧ R a b := by
  cases h with
  | some hR => exact ⟨_,rfl,hR⟩

theorem rel_some_right {α : Type} {R : α → α → Prop} {o : Option α} {b : α}
    (h : Option.Rel R o (some b)) : ∃ a, o = some a ∧ R a b := by
  cases h with
  | some hR => exact ⟨_,rfl,hR⟩

theorem rel_exists_iff {α : Type} {R : α → α → Prop} {o o' : Option α}
    (h : Option.Rel R o o') : (∃ b, o' = some b) ↔ ∃ a, o = some a := by
  cases h with
  | none => exact Iff.rfl
  | some => exact iff_of_true ⟨_,rfl⟩ ⟨_,rfl⟩

theorem mapProperties_evolves {r : String} {names : List String} {f : Property → Property}
    (hf : ∀ q, Touch L.Registered q (f q)) (r' n : String) :
    Option.Rel (Evolves L.Registered) (L.property r' n)
      ((L.mapProperties range r names f).property r' n) := by
  rw [mapProperties_property]
  split
  · cases L.property r' n with
    | none => exact .none
    | some q => exact .some (evolves_iterate hf _ q)
  · exact relSelf (fun _ => .refl) _

theorem Report.turned_property {r signer : String} {ts : Nat} {u : PropertyValue}
    (hL : Homed range L) (h : Report range r signer ts L u L') (r' n : String) :
    Option.Rel Turned (L.property r' n) (L'.property r' n) := by
  cases h with
  | filed => exact relSelf Turned.refl _
  | @turned _ _ q _ _ next hrep _ _ hL₁ =>
    subst hL₁
    rw [setProperty_property]
    split
    · next hhit =>
      rw [hL.property_congr r r' hhit.1,hhit.2,hrep.property]
      exact .some (turned_turnPage q next)
    · exact relSelf Turned.refl _

theorem Reports.turned_property {r signer : String} {ts : Nat} {us : List PropertyValue}
    (hL : Homed range L) (hr : ∃ rec, L.record r = some rec)
    (h : Reports range r signer ts L us L') (r' n : String) :
    Option.Rel Turned (L.property r' n) (L'.property r' n) := by
  induction h with
  | nil => exact relSelf Turned.refl _
  | cons hu _ ih =>
    exact rel_trans Turned.trans (hu.turned_property hL r' n)
      (ih (hL.report hr hu) (hu.framed.record ▸ hr))

/-- The creation of a record, as a step. -/
structure Created (range : String → Address) (L : Ledger) (signer : String) (ts : Nat)
    (a : CreateRecordAction) (t : Table) (initial : String → List ReportedValue)
    (L' : Ledger) : Prop where
  registered : L.Registered signer
  fresh : L.record a.recordId = none
  table : L.table a.table = some t
  provided : ∀ n v, (providedProperties a).lookup n = some v →
    checkProvided (tableSchema t) n v = .ok ()
  values : ∀ n col, (tableSchema t).lookup n = some col →
    initialValues ts ((providedProperties a).lookup n) (newProperty a.recordId signer n col) =
      .ok (initial n)
  eq : L' = (L.setRecord a.recordId (newRecord a signer ts)).initProperties range a.recordId
    (fun n => ((tableSchema t).lookup n).map (newProperty a.recordId signer n)) initial

/-- A step creates a record, reports updates, or leaves every page alone while the reporters
of properties change. -/
theorem Step.property_cases (h : Step range L tx L') :
    (∃ signer ts a t initial, tx = ⟨signer,ts,.CreateRecord a⟩ ∧
      Created range L signer ts a t initial L') ∨
    (∃ signer ts a rec, tx = ⟨signer,ts,.UpdateProperties a⟩ ∧ L.record a.recordId = some rec ∧
      rec.final = false ∧ Reports range a.recordId signer ts L a.properties L') ∨
    (∀ a, tx.action ≠ .CreateRecord a) ∧ (∀ a, tx.action ≠ .UpdateProperties a) ∧
      L'.page = L.page ∧
        ∀ r n, Option.Rel (Evolves L.Registered) (L.property r n) (L'.property r n) := by
  have same : ∀ {L' : Ledger}, L'.property = L.property →
      ∀ r n, Option.Rel (Evolves L.Registered) (L.property r n) (L'.property r n) := by
    intro L' hL' r n
    rw [hL']
    exact relSelf (fun _ => .refl) _
  cases h with
  | createRecord hp hnew ht _ hprovided hinitial =>
    exact Or.inl ⟨_,_,_,_,_,rfl,⟨_,hp⟩,hnew,ht,hprovided,hinitial,rfl⟩
  | updateProperties hrec hopen hreports =>
    exact Or.inr (Or.inl ⟨_,_,_,_,rfl,hrec,hopen,hreports⟩)
  | autoBuy | autoSell =>
    exact Or.inr (Or.inr ⟨nofun,nofun,fill_page ..,same (fill_property ..)⟩)
  | acceptOwnership ha =>
    refine Or.inr (Or.inr ⟨nofun,nofun,rfl,fun r n => ?_⟩)
    exact mapProperties_evolves (L := L.setRecord _ _)
      (fun q => .handOver q _ ⟨_,ha.participant⟩) r n
  | acceptReporter ha =>
    refine Or.inr (Or.inr ⟨nofun,nofun,rfl,fun r n => ?_⟩)
    exact mapProperties_evolves (fun q => .addReporter q ⟨_,ha.participant⟩) r n
  | revokeReporter =>
    exact Or.inr (Or.inr ⟨nofun,nofun,rfl,mapProperties_evolves fun q => .revoke q _⟩)
  | _ => exact Or.inr (Or.inr ⟨nofun,nofun,rfl,same rfl⟩)

/-- The rule for properties: what a new property has, and what turning pages and changes of
reporters preserve, every property has after the step. -/
theorem Step.property_invariant (P : Ledger → Property → Prop) (hL : Homed range L)
    (h : Step range L tx L')
    (hnew : ∀ signer ts a t initial n col, tx = ⟨signer,ts,.CreateRecord a⟩ →
      Created range L signer ts a t initial L' → (tableSchema t).lookup n = some col →
        P L' (newProperty a.recordId signer n col))
    (hturn : ∀ q q', P L q → Turned q q' → P L' q')
    (hevolves : ∀ q q', P L q → Evolves L.Registered q q' → P L' q')
    (hP : ∀ r n q, L.property r n = some q → P L q) (r n : String) (q' : Property)
    (hq' : L'.property r n = some q') : P L' q' := by
  rcases h.property_cases with ⟨signer,ts,a,t,initial,rfl,hc⟩ | ⟨signer,ts,a,rec,rfl,hrec,_,hus⟩ |
      ⟨_,_,_,hprop⟩
  · have hq := hq'
    rw [hc.eq,initProperties_property] at hq
    split at hq
    · obtain ⟨col,hcol,rfl⟩ := Option.map_eq_some_iff.mp hq
      exact hnew signer ts a t initial n col rfl hc hcol
    · exact hevolves q' q' (hP r n q' hq) .refl
  · -- updates turn pages
    obtain ⟨q,hq,hturned⟩ := rel_some_right (hq' ▸ hus.turned_property hL ⟨rec,hrec⟩ r n)
    exact hturn q q' (hP r n q hq) hturned
  · -- every other step only changes reporters
    obtain ⟨q,hq,hev⟩ := rel_some_right (hq' ▸ hprop r n)
    exact hevolves q q' (hP r n q hq) hev

/-- A record after a step: the new one, or an old one with at most one owner or custodian
more, who is registered. -/
theorem Step.record_cases (hstep : Step range L tx L') {r : String} {rec' : Record}
    (hrec' : L'.record r = some rec') :
    (∃ signer ts a t initial, tx = ⟨signer,ts,.CreateRecord a⟩ ∧
      Created range L signer ts a t initial L' ∧ r = a.recordId ∧ rec' = newRecord a signer ts) ∨
    ∃ rec, L.record r = some rec ∧ rec.Extends rec' ∧
      (∀ o ∈ rec'.owners, o ∈ rec.owners ∨ L.Registered o.participantId) ∧
      ∀ c ∈ rec'.custodians, c ∈ rec.custodians ∨ L.Registered c.participantId := by
  have same : ∀ {rec'}, L.record r = some rec' → ∃ rec, L.record r = some rec ∧
      rec.Extends rec' ∧ (∀ o ∈ rec'.owners, o ∈ rec.owners ∨ L.Registered o.participantId) ∧
      ∀ c ∈ rec'.custodians, c ∈ rec.custodians ∨ L.Registered c.participantId :=
    fun h => ⟨_,h,.refl _,fun _ => Or.inl,fun _ => Or.inl⟩
  cases hstep with
  | createRecord hp hnew ht _ hprovided hinitial =>
    simp only [initProperties_record,setRecord_record] at hrec'
    rcases update_eq_some.mp hrec' with ⟨hr,rfl⟩ | ⟨_,hold⟩
    · exact Or.inl ⟨_,_,_,_,_,rfl,⟨⟨_,hp⟩,hnew,ht,hprovided,hinitial,rfl⟩,hr,rfl⟩
    · exact Or.inr (same hold)
  | finalizeRecord howned =>
    rw [setRecord_record] at hrec'
    rcases update_eq_some.mp hrec' with ⟨rfl,rfl⟩ | ⟨_,hold⟩
    · exact Or.inr ⟨_,howned.record,⟨rfl,rfl,List.prefix_rfl,List.prefix_rfl,fun _ => rfl⟩,
        fun _ => Or.inl,fun _ => Or.inl⟩
    · exact Or.inr (same hold)
  | updateProperties _ _ hreports =>
    rw [hreports.framed.record] at hrec'
    exact Or.inr (same hrec')
  | autoBuy | autoSell =>
    rw [fill_record] at hrec'
    exact Or.inr (same hrec')
  | acceptOwnership ha _ hrec =>
    simp only [setProposal_record,mapProperties_record,setRecord_record] at hrec'
    rcases update_eq_some.mp hrec' with ⟨rfl,rfl⟩ | ⟨_,hold⟩
    · refine Or.inr ⟨_,hrec,⟨rfl,rfl,List.prefix_append ..,List.prefix_rfl,id⟩,
        fun o ho => ?_,fun _ => Or.inl⟩
      rcases List.mem_append.mp ho with ho | ho
      · exact Or.inl ho
      · rw [List.mem_singleton.mp ho]
        exact Or.inr ⟨_,ha.participant⟩
    · exact Or.inr (same hold)
  | acceptCustodianship ha _ hrec =>
    simp only [setProposal_record,setRecord_record] at hrec'
    rcases update_eq_some.mp hrec' with ⟨rfl,rfl⟩ | ⟨_,hold⟩
    · refine Or.inr ⟨_,hrec,⟨rfl,rfl,List.prefix_rfl,List.prefix_append ..,id⟩,
        fun _ => Or.inl,fun c hc => ?_⟩
      rcases List.mem_append.mp hc with hc | hc
      · exact Or.inl hc
      · rw [List.mem_singleton.mp hc]
        exact Or.inr ⟨_,ha.participant⟩
    · exact Or.inr (same hold)
  | _ => exact Or.inr (same hrec')

end Ledger

end DgcRestApi
