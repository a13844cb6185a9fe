import DgcRestApi.Ledger.RingBuffer

/-!
# Finalized records

Finalizing, updating and revoking check the flag; creating a proposal does too. Answering one
does not, so a proposal that was opened before the record was finalized still changes it.
-/

namespace DgcRestApi
namespace Ledger

variable {range : String → Address} {L L' : Ledger} {tx : Tx} {r : String} {rec : Record}

/-- The record, its properties and its pages are the same in both ledgers. -/
structure Unchanged (r : String) (L L' : Ledger) : Prop where
  record : L'.record r = L.record r
  property : L'.property r = L.property r
  page : L'.page r = L.page r

theorem Unchanged.refl (r : String) (L : Ledger) : Unchanged r L L := ⟨rfl,rfl,rfl⟩

theorem Unchanged.trans {L'' : Ledger} (h : Unchanged r L L') (h' : Unchanged r L' L'') :
    Unchanged r L L'' :=
  ⟨h'.record.trans h.record,h'.property.trans h.property,h'.page.trans h.page⟩

theorem Unchanged.symm (h : Unchanged r L L') : Unchanged r L' L :=
  ⟨h.record.symm,h.property.symm,h.page.symm⟩

/-- The transaction accepts a proposal and names the record, in a role that writes to it. -/
def Rewrites (L : Ledger) (r : String) (tx : Tx) : Prop :=
  ∃ a c, tx.action = .AnswerProposal a ∧ a.response = .ACCEPT ∧ a.recordId = r ∧
    L.proposal a.proposalId = some c ∧
    (a.role = .transferOwnership ∨ a.role = .transferCustodianship ∨
      a.role = .authorizeReporter ∧ c.properties ≠ [])

theorem rewrites_answer {signer : String} {ts : Nat} {a : AnswerProposalAction} {c : Proposal}
    (hc : L.proposal a.proposalId = some c) : Rewrites L r ⟨signer,ts,.AnswerProposal a⟩ ↔
      a.response = .ACCEPT ∧ a.recordId = r ∧ (a.role = .transferOwnership ∨
        a.role = .transferCustodianship ∨ a.role = .authorizeReporter ∧ c.properties ≠ []) := by
  constructor
  · rintro ⟨a',c',ha,hresp,hr,hc',hrole⟩
    obtain rfl := Action.AnswerProposal.inj ha
    obtain rfl : c = c' := Option.some.inj (hc.symm.trans hc')
    exact ⟨hresp,hr,hrole⟩
  · rintro ⟨hresp,hr,hrole⟩
    exact ⟨a,c,rfl,hresp,hr,hc,hrole⟩

/-- Only an ACCEPT rewrites a record. -/
theorem Rewrites.accept {signer : String} {ts : Nat} {a : AnswerProposalAction}
    (hw : Rewrites L r ⟨signer,ts,.AnswerProposal a⟩) : a.response = .ACCEPT := by
  obtain ⟨a',_,ha,hresp,_⟩ := hw
  obtain rfl := Action.AnswerProposal.inj ha
  exact hresp

theorem length_addReporter_iterate (receiver : String) (k : Nat) (q : Property) :
    ((addReporter receiver)^[k] q).reporters.length = q.reporters.length + k := by
  induction k generalizing q with
  | zero => rfl
  | succ k ih =>
    rw [Function.iterate_succ_apply,ih]
    simp only [addReporter,List.length_append,List.length_singleton]
    omega

theorem mapProperties_elsewhere {r' : String} (hne : range r ≠ range r') (names : List String)
    (f : Property → Property) : (L.mapProperties range r' names f).property r = L.property r := by
  funext n
  rw [mapProperties_property,if_neg hne]

/-- Reporters are added to a property for every time it is named. -/
theorem mapProperties_addReporter {names : List String} {receiver : String}
    (hprops : ∀ n ∈ names, ∃ q, L.property r n = some q) :
    (L.mapProperties range r names (addReporter receiver)).property r = L.property r ↔
      names = [] := by
  constructor
  · intro heq
    cases names with
    | nil => rfl
    | cons n ns =>
      obtain ⟨q,hq⟩ := hprops n List.mem_cons_self
      have hn := congrFun heq n
      rw [mapProperties_property,if_pos rfl,hq,Option.map_some,Option.some.injEq] at hn
      have hlen := length_addReporter_iterate receiver ((n :: ns).count n) q
      have hpos : 0 < (n :: ns).count n := List.count_pos_iff.mpr List.mem_cons_self
      rw [hn] at hlen
      omega
  · rintro rfl
    rw [mapProperties_nil]

/-- A record that is not final is not `r`, and its range is another one. -/
theorem range_ne_of_final (hd : DistinctRanges range L) (hrec : L.record r = some rec)
    (hfinal : rec.final = true) {r' : String} {rec' : Record} (hrec' : L.record r' = some rec')
    (hopen : rec'.final = false) : r ≠ r' ∧ range r ≠ range r' := by
  have hne : r ≠ r' := by
    rintro rfl
    rw [Option.some.inj (hrec.symm.trans hrec'),hopen] at hfinal
    exact nomatch hfinal
  exact ⟨hne,fun he => hne (hd _ _ _ _ hrec hrec' he)⟩

/-- A new owner is one more entry. -/
theorem owner_appended_ne (o : AssociatedParticipant) :
    some { rec with owners := rec.owners ++ [o] } ≠ some rec := by
  intro h
  simpa using congrArg Record.owners (Option.some.inj h)

theorem custodian_appended_ne (o : AssociatedParticipant) :
    some { rec with custodians := rec.custodians ++ [o] } ≠ some rec := by
  intro h
  simpa using congrArg Record.custodians (Option.some.inj h)

theorem Step.unchanged_iff (hd : DistinctRanges range L')
    (hrec : L.record r = some rec) (hfinal : rec.final = true) (hstep : Step range L tx L') :
    Unchanged r L L' ↔ ¬ Rewrites L r tx := by
  have hd₀ := hd.of_grown hstep.record_grown
  cases hstep with
  | createParticipant | createTable | createProposal =>
    exact iff_of_true ⟨rfl,rfl,rfl⟩ (fun ⟨_,_,h,_⟩ => nomatch h)
  | createRecord hp hnew ht hrequired hprovided hinitial =>
    have hc : Created range L _ _ _ _ _ _ := ⟨⟨_,hp⟩,hnew,ht,hprovided,hinitial,rfl⟩
    have hne := hc.range_ne hd hrec
    refine iff_of_true ⟨?_,?_,?_⟩ (fun ⟨_,_,h,_⟩ => nomatch h)
    · rw [hc.record,Function.update_of_ne fun he => hne (congrArg range he)]
    · funext n
      rw [initProperties_property,if_neg fun hhit => hne hhit.1]
      rfl
    · funext n k
      rw [initProperties_page,if_neg fun hhit => hne hhit.1]
      rfl
  | finalizeRecord howned =>
    -- the handler checks the flag: the record of the transaction is not final
    obtain ⟨hne,_⟩ := range_ne_of_final hd₀ hrec hfinal howned.record howned.not_final
    exact iff_of_true ⟨Function.update_of_ne hne ..,rfl,rfl⟩ (fun ⟨_,_,h,_⟩ => nomatch h)
  | updateProperties hrec' hopen hreports =>
    obtain ⟨_,hne⟩ := range_ne_of_final hd₀ hrec hfinal hrec' hopen
    obtain ⟨hprop,hpage⟩ := hreports.elsewhere hne
    exact iff_of_true ⟨by rw [hreports.framed.record],hprop,hpage⟩ (fun ⟨_,_,h,_⟩ => nomatch h)
  | revokeReporter howned =>
    obtain ⟨_,hne⟩ := range_ne_of_final hd₀ hrec hfinal howned.record howned.not_final
    exact iff_of_true ⟨rfl,mapProperties_elsewhere hne _ _,rfl⟩ (fun ⟨_,_,h,_⟩ => nomatch h)
  | cancel _ hresp | reject _ hresp =>
    exact iff_of_true ⟨rfl,rfl,rfl⟩ fun hw => nomatch hresp.symm.trans hw.accept
  | autoIdle _ hresp =>
    refine iff_of_true ⟨rfl,rfl,rfl⟩ fun hw => ?_
    rw [hw.accept] at hresp
    exact nomatch hresp
  | autoBuy _ hresp | autoSell _ hresp =>
    refine iff_of_true ⟨by rw [fill_record],by rw [fill_property],by rw [fill_page]⟩ fun hw => ?_
    rw [hw.accept] at hresp
    exact nomatch hresp
  | acceptIdle h hrole =>
    refine iff_of_true ⟨rfl,rfl,rfl⟩ fun hw => ?_
    rw [rewrites_answer h.proposal] at hw
    rcases hrole with hrole | hrole <;> simp [hrole] at hw
  | acceptCredit h hrole | acceptTransfer h hrole =>
    refine iff_of_true ⟨rfl,rfl,rfl⟩ fun hw => ?_
    rw [rewrites_answer h.proposal] at hw
    simp [hrole] at hw
  | @acceptOwnership signer ts a _ _ _ rec' _ _ h hrole hrec' =>
    have hiff : Rewrites L r ⟨signer,ts,.AnswerProposal a⟩ ↔ a.recordId = r := by
      simp [rewrites_answer h.proposal,h.response,hrole]
    rw [hiff]
    by_cases hr : a.recordId = r
    · -- an owner is appended to the final record
      subst hr
      refine ⟨fun hu => ?_,fun hn => absurd rfl hn⟩
      have heq := (Function.update_self ..).symm.trans (hu.record.trans hrec')
      exact absurd heq (owner_appended_ne _)
    · have hne := fun he => hr (hd₀ _ _ _ _ hrec hrec' he).symm
      refine iff_of_true ⟨?_,mapProperties_elsewhere hne _ _,rfl⟩ hr
      exact Function.update_of_ne (Ne.symm hr) ..
  | @acceptCustodianship signer ts a _ _ _ rec' _ h hrole hrec' =>
    have hiff : Rewrites L r ⟨signer,ts,.AnswerProposal a⟩ ↔ a.recordId = r := by
      simp [rewrites_answer h.proposal,h.response,hrole]
    rw [hiff]
    by_cases hr : a.recordId = r
    · subst hr
      refine ⟨fun hu => ?_,fun hn => absurd rfl hn⟩
      have heq := (Function.update_self ..).symm.trans (hu.record.trans hrec')
      exact absurd heq (custodian_appended_ne _)
    · exact iff_of_true ⟨Function.update_of_ne (Ne.symm hr) ..,rfl,rfl⟩ hr
  | @acceptReporter signer ts a c _ _ rec' _ h hrole hrec' _ hprops =>
    have hiff : Rewrites L r ⟨signer,ts,.AnswerProposal a⟩ ↔
        a.recordId = r ∧ c.properties ≠ [] := by
      simp [rewrites_answer h.proposal,h.response,hrole]
    rw [hiff]
    by_cases hr : a.recordId = r
    · subst hr
      have hmap : (L.mapProperties range a.recordId c.properties
          (addReporter a.receivingParticipant)).property a.recordId = L.property a.recordId ↔
            c.properties = [] := mapProperties_addReporter hprops
      constructor
      · exact fun hu hn => hn.2 (hmap.mp hu.property)
      · intro hn
        exact ⟨rfl,hmap.mpr (by simpa using hn),rfl⟩
    · have hne := fun he => hr (hd₀ _ _ _ _ hrec hrec' he).symm
      exact iff_of_true ⟨rfl,mapProperties_elsewhere hne _ _,rfl⟩ fun hw => hr hw.1

/-- From a ledger in which the record is final it stays as it is exactly as long as no answer
rewrites it. -/
theorem run_unchanged_iff {h : List (Ledger × Tx)} (hd : DistinctRanges range L')
    (hrec : L.record r = some rec) (hfinal : rec.final = true) (hr : Run (Step range) L h L') :
    (∀ M ∈ Run.states h L', Unchanged r L M) ↔ ∀ e ∈ h, ¬ Rewrites e.1 r e.2 := by
  have hr' := hr.of_end (DistinctRanges range) (fun _ _ _ hs hd => hd.of_grown hs.record_grown) hd
  refine Run.states_iff (Unchanged r L) (fun e => ¬ Rewrites e.1 r e.2) ?_ (.refl r L) hr'
  rintro M tx M' hM ⟨hstep,hd'⟩
  -- in `M` the record is still the final one of `L`
  rw [← hstep.unchanged_iff hd' (hM.record.trans hrec) hfinal]
  exact ⟨hM.symm.trans,hM.trans⟩

end Ledger

theorem finalized_unchanged_iff {env : Env} {h₀ h : List (State × Tx)} {s₀ s : State}
    (hr₀ : Reachable env h₀ s₀) (hr : Run (Accepted env) s₀ h s) (hd : DistinctAddresses env s)
    {r : String} {rec : Record} (hrec : (ledger env s₀).record r = some rec)
    (hfinal : rec.final = true) :
    (∀ x ∈ Run.states h s, Ledger.Unchanged r (ledger env s₀) (ledger env x)) ↔
      ∀ e ∈ h, ¬ Ledger.Rewrites (ledger env e.1) r e.2 := by
  have hrun := (run_refines (reachable_refines hr₀).1 hr).2
  have hiff := Ledger.run_unchanged_iff hd hrec hfinal hrun
  rwa [forall_ledgers,states_ledgers,List.forall_mem_map] at hiff

/-- The owner of the sample's record offers it and then finalizes it. -/
def Sample.finalized : List TpProcessRequest :=
  [propose "A" 5
    { proposalId := "x", role := .transferOwnership, receivingParticipant := "B",
      recordId := "r" },
   request "A"
    { action := .FINALIZE_RECORD, timestamp := 6, finalizeRecord := { recordId := "r" } }]

/-- The answer to the offer. -/
def Sample.answered (response : Response) : TpProcessRequest :=
  answer "B" 7
    { proposalId := "x", role := .transferOwnership, response, receivingParticipant := "B",
      recordId := "r" }

theorem finalized_unchanged_sample :
    Ledger.Unchanged "r" (ledger Sample.env (Sample.after Sample.finalized))
      (ledger Sample.env (Sample.next (Sample.answered .REJECT)
        (Sample.after Sample.finalized))) := by
  have hok : Sample.Valid Sample.finalized := by decide +kernel
  have hnext : apply Sample.env Sample.orders (Sample.answered .REJECT)
      (Sample.after Sample.finalized) = .ok _ := Sample.next_eq (by decide +kernel)
  obtain ⟨_,hr,_⟩ := Sample.reachable hok
  obtain ⟨tx,htx,hacc⟩ := accepted_of_apply hnext
  have hd := replay_distinctAddresses (replay_snoc (Sample.after_eq hok) hnext)
    (by decide +kernel)
  obtain ⟨rec,hrec,hfinal⟩ := Option.map_eq_some_iff.mp (show
    ((ledger Sample.env (Sample.after Sample.finalized)).record "r").map Record.final = some true
      by decide +kernel)
  refine (finalized_unchanged_iff hr (.snoc .nil hacc) hd hrec hfinal).mpr ?_ _ List.mem_cons_self
  intro e he hw
  obtain rfl := List.mem_singleton.mp he
  obtain ⟨a,_,ha,hresp,_⟩ := hw
  obtain rfl := Option.some.inj htx
  obtain rfl := Action.AnswerProposal.inj ha
  exact nomatch hresp

/-- The receiver accepts the offer after the record was finalized and becomes its owner. -/
theorem finalized_record_transferred : ∃ h rec rec' tx,
    Reachable Sample.env h (Sample.after Sample.finalized) ∧
    (ledger Sample.env (Sample.after Sample.finalized)).record "r" = some rec ∧
    rec.final = true ∧
    Accepted Sample.env (Sample.after Sample.finalized) tx
      (Sample.next (Sample.answered .ACCEPT) (Sample.after Sample.finalized)) ∧
    (ledger Sample.env (Sample.next (Sample.answered .ACCEPT)
      (Sample.after Sample.finalized))).record "r" = some rec' ∧
    rec.owners.map AssociatedParticipant.participantId = ["A"] ∧
    rec'.owners.map AssociatedParticipant.participantId = ["A","B"] := by
  have hok : Sample.Valid Sample.finalized := by decide +kernel
  have hnext : apply Sample.env Sample.orders (Sample.answered .ACCEPT)
      (Sample.after Sample.finalized) = .ok _ := Sample.next_eq (by decide +kernel)
  obtain ⟨h,hr,_⟩ := Sample.reachable hok
  obtain ⟨tx,_,hacc⟩ := accepted_of_apply hnext
  obtain ⟨rec,hrec,hrec_eq⟩ := Option.map_eq_some_iff.mp (show
    ((ledger Sample.env (Sample.after Sample.finalized)).record "r").map
      (fun rec => (rec.final,rec.owners.map AssociatedParticipant.participantId)) =
        some (true,["A"]) by decide +kernel)
  obtain ⟨rec',hrec',howners'⟩ := Option.map_eq_some_iff.mp (show
    ((ledger Sample.env (Sample.next (Sample.answered .ACCEPT)
      (Sample.after Sample.finalized))).record "r").map
        (fun rec => rec.owners.map AssociatedParticipant.participantId) = some ["A","B"]
      by decide +kernel)
  exact ⟨h,rec,rec',tx,hr,hrec,congrArg Prod.fst hrec_eq,hacc,hrec',congrArg Prod.snd hrec_eq,
    howners'⟩

end DgcRestApi
