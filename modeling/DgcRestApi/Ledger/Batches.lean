import DgcRestApi.Ledger.Acceptance
import DgcRestApi.Ledger.Proposing

/-!
# Batches of actions

What several actions of one kind and one signer, each with the second it was made in, come to when
they are applied in order: they can all be applied exactly if each of them could at first, unless
one of them is in the way of another.
-/

namespace DgcRestApi
namespace Ledger

section Definitions

variable (range : String → Address) (signer : String)

/-- The steps of several actions of one signer, in order. -/
inductive Steps : Ledger → List (Action × Nat) → Ledger → Prop
  | nil {L} : Steps L [] L
  | cons {L L₁ L' action ts actions} (h : Step range L ⟨signer,ts,action⟩ L₁)
      (hs : Steps L₁ actions L') : Steps L ((action,ts) :: actions) L'

end Definitions

variable {range : String → Address} {signer : String} {ts : Nat} {L L' : Ledger} {r : String}

/-! ## Several proposals -/

def propose (signer : String) (L : Ledger) (e : CreateProposalAction × Nat) : Ledger :=
  L.setProposal e.1.proposalId (newProposal e.1 signer e.2)

theorem Proposable.congr {a : CreateProposalAction} {i : Participant}
    (hparticipant : L'.participant = L.participant) (hrecord : L'.record = L.record)
    (h : Proposable L a signer i) : Proposable L' a signer i where
  registered := hparticipant ▸ h.registered
  receiver := hparticipant ▸ h.receiver
  owner hrole := by
    obtain ⟨rec,howned⟩ := h.owner hrole
    exact ⟨rec,hrecord ▸ howned.record,howned.not_final,howned.owner⟩
  custodian := hrecord ▸ h.custodian
  sellFunds := h.sellFunds
  transferFunds := h.transferFunds

/-- A new proposal changes nothing that the checks of another one read. -/
theorem proposable_propose {a : CreateProposalAction} {e : CreateProposalAction × Nat}
    {i : Participant} : Proposable (L.propose signer e) a signer i ↔ Proposable L a signer i := by
  constructor
  · exact Proposable.congr (L := L.propose signer e) rfl rfl
  · exact Proposable.congr (L := L) rfl rfl

theorem step_createProposal_iff {a : CreateProposalAction} :
    Step range L ⟨signer,ts,.CreateProposal a⟩ L' ↔
      (∃ i, Proposable L a signer i) ∧ L' = L.propose signer (a,ts) := by
  constructor
  · intro h
    cases h with
    | createProposal hg => exact ⟨⟨_,hg⟩,rfl⟩
  · rintro ⟨⟨i,hg⟩,rfl⟩
    exact .createProposal hg

theorem steps_createProposal_iff {es : List (CreateProposalAction × Nat)} :
    Steps range signer L (es.map fun e => (.CreateProposal e.1,e.2)) L' ↔
      (∀ e ∈ es, ∃ i, Proposable L e.1 signer i) ∧ L' = es.foldl (propose signer) L := by
  induction es generalizing L with
  | nil =>
    constructor
    · rintro ⟨⟩
      exact ⟨List.forall_mem_nil _,rfl⟩
    · rintro ⟨_,rfl⟩
      exact .nil
  | cons e es ih =>
    have hrest : Steps range signer (L.propose signer e)
        (es.map fun e => (.CreateProposal e.1,e.2)) L' ↔
          (∀ e ∈ es, ∃ i, Proposable L e.1 signer i) ∧
            L' = es.foldl (propose signer) (L.propose signer e) := by
      rw [ih]
      simp only [proposable_propose]
    rw [List.forall_mem_cons,and_assoc,List.foldl_cons,← hrest]
    constructor
    · intro h
      cases h with
      | cons hstep hs =>
        obtain ⟨hg,rfl⟩ := step_createProposal_iff.mp hstep
        exact ⟨hg,hs⟩
    · exact fun ⟨hg,hs⟩ => .cons (step_createProposal_iff.mpr ⟨hg,rfl⟩) hs

/-- Proposals change nothing but proposals. -/
theorem foldl_propose_eq (es : List (CreateProposalAction × Nat)) :
    es.foldl (propose signer) L =
      { L with proposal := (es.foldl (propose signer) L).proposal } := by
  induction es generalizing L with
  | nil => rfl
  | cons e es ih =>
    rw [List.foldl_cons,ih]
    rfl

theorem foldl_propose_other {es : List (CreateProposalAction × Nat)} {x : String}
    (h : ∀ e ∈ es, e.1.proposalId ≠ x) :
    (es.foldl (propose signer) L).proposal x = L.proposal x := by
  induction es generalizing L with
  | nil => rfl
  | cons e es ih =>
    obtain ⟨he,hes⟩ := List.forall_mem_cons.mp h
    rw [List.foldl_cons,ih hes]
    exact Function.update_of_ne he.symm ..

/-- Of the proposals under one identifier the last one stays. -/
theorem foldl_propose_last {before after : List (CreateProposalAction × Nat)}
    {e : CreateProposalAction × Nat} (h : ∀ e' ∈ after, e'.1.proposalId ≠ e.1.proposalId) :
    ((before ++ e :: after).foldl (propose signer) L).proposal e.1.proposalId =
      some (newProposal e.1 signer e.2) := by
  rw [List.foldl_append,List.foldl_cons,foldl_propose_other h]
  exact Function.update_self ..

/-! ## Several records that are finalized -/

/-- The signer is the last owner and the last custodian of the record, which is not final. -/
structure Finalizable (L : Ledger) (signer r : String) : Prop where
  owned : ∃ rec, OwnedBy L r signer rec ∧
    ∃ c, rec.custodians.getLast? = some c ∧ c.participantId = signer

def finalize (L : Ledger) (r : String) : Ledger :=
  { L with
    record := Function.update L.record r
      ((L.record r).map fun rec => { rec with final := true }) }

theorem step_finalizeRecord_iff : Step range L ⟨signer,ts,.FinalizeRecord ⟨r⟩⟩ L' ↔
    Finalizable L signer r ∧ L' = L.finalize r := by
  have hfinal : ∀ rec, L.record r = some rec →
      L.finalize r = L.setRecord r { rec with final := true } := by
    intro rec hrec
    rw [finalize,hrec]
    rfl
  constructor
  · intro h
    cases h with
    | finalizeRecord howned hc hcs => exact ⟨⟨_,howned,_,hc,hcs⟩,(hfinal _ howned.record).symm⟩
  · rintro ⟨⟨rec,howned,c,hc,hcs⟩,rfl⟩
    rw [hfinal rec howned.record]
    exact @Step.finalizeRecord range L signer ts ⟨r⟩ rec c howned hc hcs

theorem finalizable_finalize {r' : String} :
    Finalizable (L.finalize r) signer r' ↔ r' ≠ r ∧ Finalizable L signer r' := by
  have hself : (L.finalize r).record r = (L.record r).map fun rec => { rec with final := true } :=
    Function.update_self ..
  have hother : ∀ {r'}, r' ≠ r → (L.finalize r).record r' = L.record r' :=
    fun hr => Function.update_of_ne hr ..
  constructor
  · rintro ⟨rec,howned,hc⟩
    have hr : r' ≠ r := by
      rintro rfl
      have hrec := howned.record
      rw [hself] at hrec
      obtain ⟨_,_,rfl⟩ := Option.map_eq_some_iff.mp hrec
      exact nomatch howned.not_final
    exact ⟨hr,rec,⟨hother hr ▸ howned.record,howned.not_final,howned.owner⟩,hc⟩
  · rintro ⟨hr,rec,howned,hc⟩
    exact ⟨rec,⟨(hother hr).trans howned.record,howned.not_final,howned.owner⟩,hc⟩

theorem steps_finalizeRecord_iff {es : List (String × Nat)} :
    Steps range signer L (es.map fun e => (.FinalizeRecord ⟨e.1⟩,e.2)) L' ↔
      ((es.map Prod.fst).Nodup ∧ ∀ r ∈ es.map Prod.fst, Finalizable L signer r) ∧
        L' = (es.map Prod.fst).foldl finalize L := by
  induction es generalizing L with
  | nil =>
    constructor
    · rintro ⟨⟩
      exact ⟨⟨List.nodup_nil,List.forall_mem_nil _⟩,rfl⟩
    · rintro ⟨_,rfl⟩
      exact .nil
  | cons e es ih =>
    rw [List.map_cons (f := Prod.fst),List.nodup_cons,List.forall_mem_cons,List.foldl_cons]
    constructor
    · intro h
      cases h with
      | cons hstep hs =>
        obtain ⟨hr,rfl⟩ := step_finalizeRecord_iff.mp hstep
        obtain ⟨⟨hnd,hrs⟩,rfl⟩ := ih.mp hs
        refine ⟨⟨⟨fun hmem => ?_,hnd⟩,hr,fun r' hr' => ?_⟩,rfl⟩
        · exact (finalizable_finalize.mp (hrs _ hmem)).1 rfl
        · exact (finalizable_finalize.mp (hrs r' hr')).2
    · rintro ⟨⟨⟨hnotin,hnd⟩,hr,hrs⟩,rfl⟩
      refine .cons (step_finalizeRecord_iff.mpr ⟨hr,rfl⟩) (ih.mpr ⟨⟨hnd,fun r' hr' => ?_⟩,rfl⟩)
      exact finalizable_finalize.mpr ⟨fun he => hnotin (he ▸ hr'),hrs r' hr'⟩

/-- Exactly the named records become final. -/
theorem foldl_finalize_record (rs : List String) (r : String) :
    (rs.foldl finalize L).record r =
      if r ∈ rs then (L.record r).map fun rec => { rec with final := true } else L.record r := by
  induction rs generalizing L with
  | nil => rfl
  | cons r' rs ih =>
    rw [List.foldl_cons,ih]
    by_cases hr : r = r'
    · subst hr
      have hself : (L.finalize r).record r =
          (L.record r).map fun rec => { rec with final := true } := Function.update_self ..
      rw [if_pos List.mem_cons_self,hself,Option.map_map]
      exact ite_self _
    · have hother : (L.finalize r').record r = L.record r := Function.update_of_ne hr ..
      simp [hr,hother]

theorem foldl_finalize_eq (rs : List String) :
    rs.foldl finalize L = { L with record := (rs.foldl finalize L).record } := by
  induction rs generalizing L with
  | nil => rfl
  | cons r rs ih =>
    rw [List.foldl_cons,ih]
    rfl

/-! ## Several tables -/

def define (L : Ledger) (a : CreateTableAction) : Ledger :=
  L.setTable a.name { name := a.name, properties := a.properties }

theorem step_createTable_iff {a : CreateTableAction} :
    Step range L ⟨signer,ts,.CreateTable a⟩ L' ↔ L.table a.name = none ∧ L' = L.define a := by
  constructor
  · intro h
    cases h with
    | createTable hnew => exact ⟨hnew,rfl⟩
  · rintro ⟨hnew,rfl⟩
    exact .createTable hnew

theorem define_table_iff {a : CreateTableAction} {n : String} :
    (L.define a).table n = none ↔ n ≠ a.name ∧ L.table n = none := by
  have htable : (L.define a).table n =
      if n = a.name then some { name := a.name, properties := a.properties } else L.table n :=
    Function.update_apply ..
  rw [htable]
  by_cases hn : n = a.name <;> simp [hn]

theorem steps_createTable_iff {es : List (CreateTableAction × Nat)} :
    Steps range signer L (es.map fun e => (.CreateTable e.1,e.2)) L' ↔
      (((es.map Prod.fst).map CreateTableAction.name).Nodup ∧
        ∀ a ∈ es.map Prod.fst, L.table a.name = none) ∧
          L' = (es.map Prod.fst).foldl define L := by
  induction es generalizing L with
  | nil =>
    constructor
    · rintro ⟨⟩
      exact ⟨⟨List.nodup_nil,List.forall_mem_nil _⟩,rfl⟩
    · rintro ⟨_,rfl⟩
      exact .nil
  | cons e es ih =>
    rw [List.map_cons (f := Prod.fst),List.map_cons (f := CreateTableAction.name),List.nodup_cons,
      List.forall_mem_cons,List.foldl_cons]
    constructor
    · intro h
      cases h with
      | cons hstep hs =>
        obtain ⟨hnew,rfl⟩ := step_createTable_iff.mp hstep
        obtain ⟨⟨hnd,hes⟩,rfl⟩ := ih.mp hs
        refine ⟨⟨⟨fun hmem => ?_,hnd⟩,hnew,fun b hb => ?_⟩,rfl⟩
        · obtain ⟨b,hb,hname⟩ := List.mem_map.mp hmem
          exact (define_table_iff.mp (hes b hb)).1 hname
        · exact (define_table_iff.mp (hes b hb)).2
    · rintro ⟨⟨⟨hnotin,hnd⟩,hnew,hes⟩,rfl⟩
      refine .cons (step_createTable_iff.mpr ⟨hnew,rfl⟩) (ih.mpr ⟨⟨hnd,fun b hb => ?_⟩,rfl⟩)
      exact define_table_iff.mpr
        ⟨fun he => hnotin (List.mem_map.mpr ⟨b,hb,he⟩),hes b hb⟩

theorem foldl_define_other {as : List CreateTableAction} {n : String}
    (h : n ∉ as.map CreateTableAction.name) : (as.foldl define L).table n = L.table n := by
  induction as generalizing L with
  | nil => rfl
  | cons a as ih =>
    rw [List.map_cons,List.mem_cons,not_or] at h
    rw [List.foldl_cons,ih h.2]
    exact Function.update_of_ne h.1 ..

theorem foldl_define_mem {as : List CreateTableAction}
    (hnd : (as.map CreateTableAction.name).Nodup) {a : CreateTableAction} (ha : a ∈ as) :
    (as.foldl define L).table a.name = some { name := a.name, properties := a.properties } := by
  induction as generalizing L with
  | nil => exact absurd ha List.not_mem_nil
  | cons b as ih =>
    obtain ⟨hnotin,hnd⟩ := List.nodup_cons.mp hnd
    rw [List.foldl_cons]
    rcases List.mem_cons.mp ha with rfl | ha
    · rw [foldl_define_other hnotin]
      exact Function.update_self ..
    · exact ih hnd ha

theorem foldl_define_eq (as : List CreateTableAction) :
    as.foldl define L = { L with table := (as.foldl define L).table } := by
  induction as generalizing L with
  | nil => rfl
  | cons a as ih =>
    rw [List.foldl_cons,ih]
    rfl

/-! ## Several updates -/

/-- In one second, one transaction for each value does what one with all values does. -/
theorem steps_updateProperties_iff {us : List PropertyValue} (hus : us ≠ []) :
    Steps range signer L (us.map fun u => (.UpdateProperties ⟨r,[u]⟩,ts)) L' ↔
      Step range L ⟨signer,ts,.UpdateProperties ⟨r,us⟩⟩ L' := by
  induction us generalizing L with
  | nil => exact absurd rfl hus
  | cons u us ih =>
    have hrest : ∀ {L₁ rec}, L₁.record r = some rec → rec.final = false →
        (Steps range signer L₁ (us.map fun u => (.UpdateProperties ⟨r,[u]⟩,ts)) L' ↔
          Reports range r signer ts L₁ us L') := by
      intro L₁ rec hrec hopen
      by_cases hnil : us = []
      · subst hnil
        constructor
        · rintro ⟨⟩
          exact .nil
        · rintro ⟨⟩
          exact .nil
      · rw [ih hnil]
        constructor
        · intro h
          cases h with
          | updateProperties _ _ hreports => exact hreports
        · exact @Step.updateProperties range L₁ signer ts ⟨r,us⟩ rec L' hrec hopen
    constructor
    · intro h
      cases h with
      | cons hstep hs =>
        cases hstep with
        | updateProperties hrec hopen hreports =>
          cases hreports with
          | cons hu hnil =>
            cases hnil
            exact .updateProperties hrec hopen
              (.cons hu ((hrest (hu.framed.record ▸ hrec) hopen).mp hs))
    · intro h
      cases h with
      | updateProperties hrec hopen hreports =>
        cases hreports with
        | cons hu hreports =>
          exact .cons (.updateProperties hrec hopen (.cons hu .nil))
            ((hrest (hu.framed.record ▸ hrec) hopen).mpr hreports)

/-- On a record that is not final, the transactions for the values can be applied exactly if each
value passes its checks at first, whatever the seconds. -/
theorem steps_updatable_iff (hL : Paging range L) {rec : Record} (hrec : L.record r = some rec)
    (hopen : rec.final = false) {us : List (PropertyValue × Nat)} :
    (∃ L', Steps range signer L (us.map fun e => (.UpdateProperties ⟨r,[e.1]⟩,e.2)) L') ↔
      ∀ u ∈ us.map Prod.fst, ∃ q, Updatable L r signer u q := by
  induction us generalizing L with
  | nil => exact iff_of_true ⟨L,.nil⟩ (List.forall_mem_nil _)
  | cons e us ih =>
    rw [List.map_cons (f := Prod.fst),List.forall_mem_cons]
    have hrest : ∀ {L₁}, Report range r signer e.2 L e.1 L₁ →
        ((∃ L', Steps range signer L₁ (us.map fun e => (.UpdateProperties ⟨r,[e.1]⟩,e.2)) L') ↔
          ∀ u ∈ us.map Prod.fst, ∃ q, Updatable L r signer u q) := by
      intro L₁ hu
      rw [ih (hL.report ⟨rec,hrec⟩ hu) (hu.framed.record ▸ hrec)]
      simp only [hu.updatable_iff hL]
    constructor
    · rintro ⟨L',hs⟩
      cases hs with
      | cons hstep hs =>
        cases hstep with
        | updateProperties _ _ hreports =>
          cases hreports with
          | cons hu hnil =>
            cases hnil
            exact ⟨hu.updatable,(hrest hu).mp ⟨L',hs⟩⟩
    · rintro ⟨⟨q,hq⟩,hus⟩
      obtain ⟨L₁,hu⟩ : ∃ L₁, Report range r signer e.2 L e.1 L₁ := hq.report hL
      obtain ⟨L',hs⟩ := (hrest hu).mpr hus
      exact ⟨L',.cons (.updateProperties hrec hopen (.cons hu .nil)) hs⟩

theorem steps_updates_iff (hL : Paging range L) {us : List (PropertyValue × Nat)} (hus : us ≠ []) :
    (∃ L', Steps range signer L (us.map fun e => (.UpdateProperties ⟨r,[e.1]⟩,e.2)) L') ↔
      Updates L signer ⟨r,us.map Prod.fst⟩ := by
  have hiff := fun {rec} hrec hopen =>
    @steps_updatable_iff range signer L r hL rec hrec hopen us
  constructor
  · rintro ⟨L',hs⟩
    obtain ⟨e,us,rfl⟩ := List.exists_cons_of_ne_nil hus
    have hs' := hs
    cases hs' with
    | cons hstep _ =>
      cases hstep with
      | updateProperties hrec hopen => exact ⟨⟨_,hrec,hopen⟩,(hiff hrec hopen).mp ⟨L',hs⟩⟩
  · rintro ⟨⟨rec,hrec,hopen⟩,hall⟩
    exact (hiff hrec hopen).mpr hall

end Ledger
end DgcRestApi
