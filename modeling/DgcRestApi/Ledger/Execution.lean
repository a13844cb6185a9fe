import DgcRestApi.Ledger.Answers

/-!
# What an accepted proposal does

An ACCEPT takes the role, the record, the receiver and the amount from its payload; from the
stored proposal it takes the properties and the key that may answer. The observations below
(an owner or custodian added, a credit or a balance moved) determine these fields, so an
answer does what the stored proposal says only when it repeats it.
-/

namespace DgcRestApi
namespace Ledger

variable {range : String → Address} {L L' : Ledger} {signer : String} {ts : Nat}
variable {a b : AnswerProposalAction} {c : Proposal} {i p : Participant} {role : Role}

/-- The effect of an ACCEPT, by the role of its payload. -/
inductive Effect (range : String → Address) (L : Ledger) (signer : String) (ts : Nat)
    (a : AnswerProposalAction) (c : Proposal) (i p : Participant) : Role → Ledger → Prop
  | buyDGC : Effect range L signer ts a c i p .buyDGC L
  | sellDGC : Effect range L signer ts a c i p .sellDGC L
  | creditDGC : Effect range L signer ts a c i p .creditDGC
      ((L.setParticipant a.receivingParticipant
        (p.lend a.proposalId ts a.dgCoinAmount)).setProposal a.proposalId
          { c with status := .ACCEPTED })
  | transferDGC (hfunds : a.dgCoinAmount ≤ i.balance) :
      Effect range L signer ts a c i p .transferDGC (L.transfer a c i p signer ts)
  | transferOwnership {rec o t} (hrec : L.record a.recordId = some rec)
      (ho : rec.owners.getLast? = some o) (ht : L.table rec.table = some t)
      (hprops : ∀ col ∈ t.properties, ∃ q, L.property a.recordId col.name = some q) :
      Effect range L signer ts a c i p .transferOwnership
        (((L.setRecord a.recordId
            { rec with owners := rec.owners ++ [⟨a.receivingParticipant,ts⟩] }).mapProperties
          range a.recordId (t.properties.map PropertySchema.name)
            (handOver o.participantId a.receivingParticipant)).setProposal a.proposalId
              { c with status := .ACCEPTED })
  | transferCustodianship {rec o} (hrec : L.record a.recordId = some rec)
      (ho : rec.custodians.getLast? = some o) :
      Effect range L signer ts a c i p .transferCustodianship
        ((L.setRecord a.recordId
            { rec with
              custodians := rec.custodians ++ [⟨a.receivingParticipant,ts⟩] }).setProposal
          a.proposalId { c with status := .ACCEPTED })
  | authorizeReporter {rec o} (hrec : L.record a.recordId = some rec)
      (ho : rec.owners.getLast? = some o)
      (hprops : ∀ n ∈ c.properties, ∃ q, L.property a.recordId n = some q) :
      Effect range L signer ts a c i p .authorizeReporter
        ((L.mapProperties range a.recordId c.properties
          (addReporter a.receivingParticipant)).setProposal a.proposalId
            { c with status := .ACCEPTED })

/-- The steps of accepting answers are those whose checks pass and that have their effect. -/
theorem step_accept_iff (hresp : a.response = .ACCEPT) :
    Step range L ⟨signer,ts,.AnswerProposal a⟩ L' ↔
      ∃ c i p, Accepts L signer a c i p ∧ Effect range L signer ts a c i p a.role L' := by
  constructor
  · intro hstep
    cases hstep with
    | cancel _ h | reject _ h => exact nomatch hresp.symm.trans h
    | autoIdle _ h | autoBuy _ h | autoSell _ h =>
      rw [hresp] at h
      exact nomatch h
    | acceptIdle h hrole =>
      rcases hrole with hrole | hrole
      · exact ⟨_,_,_,h,hrole ▸ .buyDGC⟩
      · exact ⟨_,_,_,h,hrole ▸ .sellDGC⟩
    | acceptCredit h hrole => exact ⟨_,_,_,h,hrole ▸ .creditDGC⟩
    | acceptTransfer h hrole hfunds => exact ⟨_,_,_,h,hrole ▸ .transferDGC hfunds⟩
    | acceptOwnership h hrole hrec ho ht hprops =>
      exact ⟨_,_,_,h,hrole ▸ .transferOwnership hrec ho ht hprops⟩
    | acceptCustodianship h hrole hrec ho =>
      exact ⟨_,_,_,h,hrole ▸ .transferCustodianship hrec ho⟩
    | acceptReporter h hrole hrec ho hprops =>
      exact ⟨_,_,_,h,hrole ▸ .authorizeReporter hrec ho hprops⟩
  · rintro ⟨c,i,p,h,heff⟩
    generalize hrole : a.role = role at heff
    cases heff with
    | buyDGC => exact .acceptIdle h (Or.inl hrole)
    | sellDGC => exact .acceptIdle h (Or.inr hrole)
    | creditDGC => exact .acceptCredit h hrole
    | transferDGC hfunds => exact .acceptTransfer h hrole hfunds
    | transferOwnership hrec ho ht hprops => exact .acceptOwnership h hrole hrec ho ht hprops
    | transferCustodianship hrec ho => exact .acceptCustodianship h hrole hrec ho
    | authorizeReporter hrec ho hprops => exact .acceptReporter h hrole hrec ho hprops

/-! ## What can be observed -/

/-- `k` was appended to the owners, or the custodians, of the record. -/
def Added (f : Record → List AssociatedParticipant) (L L' : Ledger) (r k : String) : Prop :=
  ∃ rec rec' t, L.record r = some rec ∧ L'.record r = some rec' ∧ f rec' = f rec ++ [⟨k,t⟩]

/-- The credit of `k` was raised by `x`. -/
def Credited (L L' : Ledger) (k : String) (x : ℚ) : Prop :=
  ∃ p p', L.participant k = some p ∧ L'.participant k = some p' ∧
    p'.dgCoinCredits ≠ p.dgCoinCredits ∧ p'.credit = p.credit + x

/-- The balance of `k` was raised by `x`. -/
def Paid (L L' : Ledger) (k : String) (x : ℚ) : Prop :=
  ∃ p p', L.participant k = some p ∧ L'.participant k = some p' ∧
    p'.dgCoinBalances ≠ p.dgCoinBalances ∧ p'.balance = p.balance + x

theorem not_added {f : Record → List AssociatedParticipant} {r k : String}
    (h : (L'.record r).map f = (L.record r).map f) : ¬ Added f L L' r k := by
  rintro ⟨rec,rec',t,hrec,hrec',hf⟩
  rw [hrec,hrec',Option.map_some,Option.map_some,Option.some.injEq,hf] at h
  simp at h

theorem not_credited {k : String} {x : ℚ}
    (h : (L'.participant k).map Participant.dgCoinCredits =
      (L.participant k).map Participant.dgCoinCredits) : ¬ Credited L L' k x := by
  rintro ⟨p,p',hp,hp',hne,_⟩
  rw [hp,hp',Option.map_some,Option.map_some,Option.some.injEq] at h
  exact hne h

theorem not_paid {k : String} {x : ℚ}
    (h : (L'.participant k).map Participant.dgCoinBalances =
      (L.participant k).map Participant.dgCoinBalances) : ¬ Paid L L' k x := by
  rintro ⟨p,p',hp,hp',hne,_⟩
  rw [hp,hp',Option.map_some,Option.map_some,Option.some.injEq] at h
  exact hne h

variable {r k : String} {x : ℚ}

/-- Replacing a value by one with the same image keeps the image of a lookup. -/
theorem map_update_eq {α β : Type} {f : String → Option α} {g : α → β} {k k' : String} {u v : α}
    (hu : f k = some u) (hv : g v = g u) :
    (Function.update f k (some v) k').map g = (f k').map g := by
  by_cases hk : k' = k
  · subst hk
    rw [Function.update_self,hu,Option.map_some,Option.map_some,hv]
  · rw [Function.update_of_ne hk]

theorem added_iff {f : Record → List AssociatedParticipant} {rec rec' : Record} {r₀ k₀ : String}
    {t₀ : Nat} (hrec : L.record r₀ = some rec)
    (hL' : L'.record = Function.update L.record r₀ (some rec'))
    (hf : f rec' = f rec ++ [⟨k₀,t₀⟩]) : Added f L L' r k ↔ r = r₀ ∧ k = k₀ := by
  constructor
  · intro h
    by_cases hr : r = r₀
    · subst hr
      obtain ⟨rec₁,rec₁',t,hrec₁,hrec₁',hf₁⟩ := h
      rw [hL',Function.update_self] at hrec₁'
      obtain rfl := Option.some.inj (hrec.symm.trans hrec₁)
      obtain rfl := Option.some.inj hrec₁'
      rw [hf,List.append_cancel_left_eq] at hf₁
      cases hf₁
      exact ⟨rfl,rfl⟩
    · exact absurd h (not_added (by rw [hL',Function.update_of_ne hr]))
  · rintro ⟨rfl,rfl⟩
    exact ⟨rec,rec',t₀,hrec,by rw [hL',Function.update_self],hf⟩

theorem Effect.owner_added_iff (heff : Effect range L signer ts a c i p role L') :
    Added Record.owners L L' r k ↔
      role = .transferOwnership ∧ r = a.recordId ∧ k = a.receivingParticipant := by
  cases heff with
  | transferOwnership hrec =>
    rw [added_iff hrec rfl rfl]
    exact ⟨fun h => ⟨rfl,h⟩,And.right⟩
  | transferCustodianship hrec =>
    exact iff_of_false (not_added (map_update_eq hrec rfl)) (by rintro ⟨⟨⟩,_⟩)
  | _ => exact iff_of_false (not_added rfl) (by rintro ⟨⟨⟩,_⟩)

theorem Effect.custodian_added_iff (heff : Effect range L signer ts a c i p role L') :
    Added Record.custodians L L' r k ↔
      role = .transferCustodianship ∧ r = a.recordId ∧ k = a.receivingParticipant := by
  cases heff with
  | transferCustodianship hrec =>
    rw [added_iff hrec rfl rfl]
    exact ⟨fun h => ⟨rfl,h⟩,And.right⟩
  | transferOwnership hrec =>
    exact iff_of_false (not_added (map_update_eq hrec rfl)) (by rintro ⟨⟨⟩,_⟩)
  | _ => exact iff_of_false (not_added rfl) (by rintro ⟨⟨⟩,_⟩)

theorem Effect.credited_iff (hp : L.participant a.receivingParticipant = some p)
    (hi : L.participant signer = some i) (heff : Effect range L signer ts a c i p role L') :
    Credited L L' k x ↔
      role = .creditDGC ∧ k = a.receivingParticipant ∧ x = a.dgCoinAmount := by
  cases heff with
  | creditDGC =>
    constructor
    · rintro ⟨q,q',hq,hq',hne,hx⟩
      rw [setProposal_participant,setParticipant_participant] at hq'
      rcases update_eq_some.mp hq' with ⟨rfl,rfl⟩ | ⟨_,hsame⟩
      · obtain rfl := Option.some.inj (hp.symm.trans hq)
        rw [Participant.lend_credit] at hx
        exact ⟨rfl,rfl,(add_left_cancel hx).symm⟩
      · rw [Option.some.inj (hq.symm.trans hsame)] at hne
        exact absurd rfl hne
    · rintro ⟨_,rfl,rfl⟩
      exact ⟨p,_,hp,Function.update_self ..,by simp [Participant.lend],by simp⟩
  | transferDGC =>
    refine iff_of_false (not_credited ?_) (by rintro ⟨⟨⟩,_⟩)
    rw [transfer_participant]
    by_cases hk : k = a.receivingParticipant
    · subst hk
      rw [Function.update_self,hp]
      rfl
    · rw [Function.update_of_ne hk]
      exact map_update_eq hi rfl
  | _ => exact iff_of_false (not_credited rfl) (by rintro ⟨⟨⟩,_⟩)

theorem Effect.paid_iff (hp : L.participant a.receivingParticipant = some p)
    (hi : L.participant signer = some i) (heff : Effect range L signer ts a c i p role L') :
    Paid L L' k x ↔ role = .transferDGC ∧ (k = a.receivingParticipant ∧ x = a.dgCoinAmount ∨
      k ≠ a.receivingParticipant ∧ k = signer ∧ x = -a.dgCoinAmount) := by
  cases heff with
  | creditDGC =>
    exact iff_of_false (not_paid (map_update_eq hp rfl)) (by rintro ⟨⟨⟩,_⟩)
  | transferDGC =>
    constructor
    · rintro ⟨q,q',hq,hq',hne,hx⟩
      rw [transfer_participant] at hq'
      rcases update_eq_some.mp hq' with ⟨rfl,rfl⟩ | ⟨hk,hq'⟩
      · obtain rfl := Option.some.inj (hp.symm.trans hq)
        rw [Participant.pay_balance] at hx
        exact ⟨rfl,Or.inl ⟨rfl,(add_left_cancel hx).symm⟩⟩
      · rcases update_eq_some.mp hq' with ⟨rfl,rfl⟩ | ⟨_,hsame⟩
        · obtain rfl := Option.some.inj (hi.symm.trans hq)
          rw [Participant.pay_balance,sub_eq_add_neg] at hx
          exact ⟨rfl,Or.inr ⟨hk,rfl,(add_left_cancel hx).symm⟩⟩
        · rw [Option.some.inj (hq.symm.trans hsame)] at hne
          exact absurd rfl hne
    · rintro ⟨_,⟨rfl,rfl⟩ | ⟨hk,rfl,rfl⟩⟩
      · exact ⟨p,_,hp,Function.update_self ..,by simp [Participant.pay],by simp⟩
      · refine ⟨i,i.pay a.proposalId ts (i.balance - a.dgCoinAmount),hi,?_,
          by simp [Participant.pay],by simp [sub_eq_add_neg]⟩
        rw [transfer_participant,Function.update_of_ne hk,Function.update_self]
  | _ => exact iff_of_false (not_paid rfl) (by rintro ⟨⟨⟩,_⟩)

/-! ## An effect determines what its role reads -/

theorem Effect.idle (heff : Effect range L signer ts a c i p role L')
    (hrole : role = .buyDGC ∨ role = .sellDGC) : L' = L := by
  cases heff with
  | buyDGC | sellDGC => rfl
  | _ => rcases hrole with h | h <;> exact nomatch h

theorem Effect.reporter_property
    (heff : Effect range L signer ts a c i p .authorizeReporter L') :
    (∃ rec, L.record a.recordId = some rec) ∧
      (∀ n ∈ c.properties, ∃ q, L.property a.recordId n = some q) ∧
      L'.participant = L.participant ∧ L'.record = L.record ∧
      L'.property = (L.mapProperties range a.recordId c.properties
        (addReporter a.receivingParticipant)).property := by
  cases heff with
  | authorizeReporter hrec _ hprops => exact ⟨⟨_,hrec⟩,hprops,rfl,rfl,rfl⟩

end Ledger

/-- The role is about a record. -/
def Role.OnRecord (role : Role) : Prop :=
  role = .transferOwnership ∨ role = .transferCustodianship ∨ role = .authorizeReporter

/-- The role is about coins that the receiver gets when it accepts. -/
def Role.OnCoins (role : Role) : Prop := role = .creditDGC ∨ role = .transferDGC

/-- The answers agree in the fields that their effect depends on. -/
structure SameTerms (a b : AnswerProposalAction) : Prop where
  role : b.role = a.role
  receiver : b.receivingParticipant = a.receivingParticipant
  record : a.role.OnRecord → b.recordId = a.recordId
  amount : a.role.OnCoins → b.dgCoinAmount = a.dgCoinAmount

namespace Ledger

variable {range : String → Address} {L L' : Ledger} {signer : String} {ts : Nat}
variable {a b : AnswerProposalAction} {c : Proposal} {i p p' : Participant}

theorem Effect.congr (hid : b.proposalId = a.proposalId) (hs : SameTerms a b)
    (heff : Effect range L signer ts a c i p a.role L') :
    Effect range L signer ts b c i p b.role L' := by
  rw [hs.role]
  generalize hrole : a.role = role at heff
  cases heff with
  | buyDGC => exact .buyDGC
  | sellDGC => exact .sellDGC
  | creditDGC =>
    rw [← hid,← hs.receiver,← hs.amount (Or.inl hrole)]
    exact .creditDGC
  | transferDGC hfunds =>
    have hx := hs.amount (Or.inr hrole)
    have htransfer : L.transfer b c i p signer ts = L.transfer a c i p signer ts := by
      rw [transfer,transfer,hid,hs.receiver,hx]
    rw [← htransfer]
    exact .transferDGC (hx ▸ hfunds)
  | transferOwnership hrec ho ht hprops =>
    have hr := hs.record (Or.inl hrole)
    rw [← hid,← hs.receiver,← hr]
    rw [← hr] at hrec hprops
    exact .transferOwnership hrec ho ht hprops
  | transferCustodianship hrec ho =>
    have hr := hs.record (Or.inr (Or.inl hrole))
    rw [← hid,← hs.receiver,← hr]
    rw [← hr] at hrec
    exact .transferCustodianship hrec ho
  | authorizeReporter hrec ho hprops =>
    have hr := hs.record (Or.inr (Or.inr hrole))
    rw [← hid,← hs.receiver,← hr]
    rw [← hr] at hrec hprops
    exact .authorizeReporter hrec ho hprops

theorem addReporter_iterate_last (receiver : String) (k : Nat) (q : Property) :
    ((addReporter receiver)^[k+1] q).reporters.getLast?.map Reporter.publicKey =
      some receiver := by
  rw [Function.iterate_succ_apply']
  simp [addReporter]

/-- Adding reporters to a property tells the record and the receiver. -/
theorem mapProperties_addReporter_inj (hd : DistinctRanges range L) {names : List String}
    {r r' k k' : String} (hr : ∃ rec, L.record r = some rec) (hr' : ∃ rec, L.record r' = some rec)
    (hne : names ≠ []) (hprops : ∀ n ∈ names, ∃ q, L.property r n = some q)
    (heq : (L.mapProperties range r names (addReporter k)).property =
      (L.mapProperties range r' names (addReporter k')).property) : r' = r ∧ k' = k := by
  obtain ⟨rec,hrec⟩ := hr
  obtain ⟨rec',hrec'⟩ := hr'
  obtain ⟨n,hn⟩ := List.exists_mem_of_ne_nil names hne
  obtain ⟨q,hq⟩ := hprops n hn
  obtain ⟨m,hm⟩ := Nat.exists_eq_succ_of_ne_zero (List.count_pos_iff.mpr hn).ne'
  have hn' := congrFun (congrFun heq r) n
  rw [mapProperties_property,mapProperties_property,if_pos rfl,hq,hm,Option.map_some,
    Option.map_some] at hn'
  by_cases hrange : range r = range r'
  · -- in one range the last key is the receiver's
    rw [if_pos hrange,Option.some.injEq] at hn'
    have hlast := addReporter_iterate_last k m q
    rw [hn',addReporter_iterate_last,Option.some.injEq] at hlast
    exact ⟨(hd _ _ _ _ hrec hrec' hrange).symm,hlast⟩
  · -- in different ranges only the first property got longer
    rw [if_neg hrange,Option.some.injEq] at hn'
    have hlen := length_addReporter_iterate k m.succ q
    rw [hn'] at hlen
    omega

/-- What another role does would show in the owners, the custodians, a credit or a balance. -/
theorem Effect.authorizes (hi : L.participant signer = some i)
    (hp : L.participant a.receivingParticipant = some p)
    (hp' : L.participant b.receivingParticipant = some p')
    (ha : Effect range L signer ts a c i p a.role L')
    (hb : Effect range L signer ts b c i p' b.role L') (hu : ¬ Untouched L L')
    (hrole : a.role = .authorizeReporter) : b.role = .authorizeReporter := by
  have hother : ∀ {role}, a.role = role → role ≠ .authorizeReporter → False :=
    fun h hne => hne (h.symm.trans hrole)
  cases hb' : b.role with
  | authorizeReporter => rfl
  | transferOwnership =>
    exact (hother (ha.owner_added_iff.mp
      (hb.owner_added_iff.mpr ⟨hb',rfl,rfl⟩)).1 nofun).elim
  | transferCustodianship =>
    exact (hother (ha.custodian_added_iff.mp
      (hb.custodian_added_iff.mpr ⟨hb',rfl,rfl⟩)).1 nofun).elim
  | creditDGC =>
    exact (hother ((ha.credited_iff hp hi).mp
      ((hb.credited_iff hp' hi).mpr ⟨hb',rfl,rfl⟩)).1 nofun).elim
  | transferDGC =>
    exact (hother ((ha.paid_iff hp hi).mp
      ((hb.paid_iff hp' hi).mpr ⟨hb',Or.inl ⟨rfl,rfl⟩⟩)).1 nofun).elim
  | buyDGC => exact (hu (hb.idle (Or.inl hb') ▸ ⟨rfl,rfl,rfl⟩)).elim
  | sellDGC => exact (hu (hb.idle (Or.inr hb') ▸ ⟨rfl,rfl,rfl⟩)).elim

theorem Effect.sameTerms (hd : DistinctRanges range L) (hi : L.participant signer = some i)
    (hp : L.participant a.receivingParticipant = some p)
    (hp' : L.participant b.receivingParticipant = some p')
    (ha : Effect range L signer ts a c i p a.role L')
    (hb : Effect range L signer ts b c i p' b.role L') (hu : ¬ Untouched L L') :
    SameTerms a b := by
  cases hrole : a.role with
  | transferOwnership =>
    obtain ⟨hrole',hr,hk⟩ := hb.owner_added_iff.mp (ha.owner_added_iff.mpr ⟨hrole,rfl,rfl⟩)
    refine ⟨hrole'.trans hrole.symm,hk.symm,fun _ => hr.symm,fun h => ?_⟩
    simp [hrole,Role.OnCoins] at h
  | transferCustodianship =>
    obtain ⟨hrole',hr,hk⟩ :=
      hb.custodian_added_iff.mp (ha.custodian_added_iff.mpr ⟨hrole,rfl,rfl⟩)
    refine ⟨hrole'.trans hrole.symm,hk.symm,fun _ => hr.symm,fun h => ?_⟩
    simp [hrole,Role.OnCoins] at h
  | creditDGC =>
    obtain ⟨hrole',hk,hx⟩ :=
      (hb.credited_iff hp' hi).mp ((ha.credited_iff hp hi).mpr ⟨hrole,rfl,rfl⟩)
    refine ⟨hrole'.trans hrole.symm,hk.symm,fun h => ?_,fun _ => hx.symm⟩
    simp [hrole,Role.OnRecord] at h
  | transferDGC =>
    obtain ⟨hrole',hterms⟩ := (hb.paid_iff hp' hi).mp
      ((ha.paid_iff hp hi).mpr ⟨hrole,Or.inl ⟨rfl,rfl⟩⟩)
    rcases hterms with ⟨hk,hx⟩ | ⟨hne,hsigner,_⟩
    · refine ⟨hrole'.trans hrole.symm,hk.symm,fun h => ?_,fun _ => hx.symm⟩
      simp [hrole,Role.OnRecord] at h
    · -- two receivers would both be the signer
      obtain ⟨_,⟨hk,_⟩ | ⟨_,hk,_⟩⟩ := (ha.paid_iff hp hi).mp
        ((hb.paid_iff hp' hi).mpr ⟨hrole',Or.inl ⟨rfl,rfl⟩⟩)
      · exact absurd hk.symm hne
      · exact absurd (hsigner.trans hk.symm) hne
  | authorizeReporter =>
    have hrole' := ha.authorizes hi hp hp' hb hu hrole
    obtain ⟨hr,hprops,hparts,hrecs,hmap⟩ := (hrole ▸ ha).reporter_property
    obtain ⟨hr',_,_,_,hmap'⟩ := (hrole' ▸ hb).reporter_property
    have hne : c.properties ≠ [] := fun hnil =>
      hu ⟨hparts,hrecs,by rw [hmap,hnil,mapProperties_nil]⟩
    obtain ⟨hrecord,hk⟩ :=
      mapProperties_addReporter_inj hd hr hr' hne hprops (hmap.symm.trans hmap')
    refine ⟨hrole'.trans hrole.symm,hk,fun _ => hrecord,fun h => ?_⟩
    simp [hrole,Role.OnCoins] at h
  | buyDGC => exact (hu (ha.idle (Or.inl hrole) ▸ ⟨rfl,rfl,rfl⟩)).elim
  | sellDGC => exact (hu (ha.idle (Or.inr hrole) ▸ ⟨rfl,rfl,rfl⟩)).elim

/-! ## Confinement -/

/-- Records and participants other than these stay as they were. -/
structure Confined (r : String) (keys : List String) (L L' : Ledger) : Prop where
  record : ∀ r' rec, L.record r' = some rec → r' ≠ r → L'.record r' = L.record r' ∧
    L'.property r' = L.property r'
  participant : ∀ k, k ∉ keys → L'.participant k = L.participant k

theorem Effect.confined (hd : DistinctRanges range L)
    (heff : Effect range L signer ts a c i p a.role L') {r : String}
    (hr : a.role.OnRecord → a.recordId = r) :
    Confined r [a.receivingParticipant,signer] L L' := by
  generalize hrole : a.role = role at heff
  -- what is mapped in the range of one record is not found under another
  have hranges : ∀ {rec}, L.record a.recordId = some rec → ∀ r' rec', L.record r' = some rec' →
      r' ≠ a.recordId → range r' ≠ range a.recordId :=
    fun hrec r' rec' hrec' hne he => hne (hd _ _ _ _ hrec' hrec he)
  cases heff with
  | buyDGC | sellDGC => exact ⟨fun _ _ _ _ => ⟨rfl,rfl⟩,fun _ _ => rfl⟩
  | creditDGC =>
    refine ⟨fun _ _ _ _ => ⟨rfl,rfl⟩,fun k hk => ?_⟩
    have hne : k ≠ a.receivingParticipant := fun he => hk (by simp [he])
    exact Function.update_of_ne hne ..
  | transferDGC =>
    refine ⟨fun _ _ _ _ => ⟨rfl,rfl⟩,fun k hk => ?_⟩
    have hne : k ≠ a.receivingParticipant := fun he => hk (by simp [he])
    have hne' : k ≠ signer := fun he => hk (by simp [he])
    rw [transfer_participant,Function.update_of_ne hne,Function.update_of_ne hne']
  | transferOwnership hrec =>
    obtain rfl := hr (Or.inl hrole)
    refine ⟨fun r' rec' hrec' hne => ⟨?_,?_⟩,fun _ _ => rfl⟩
    · exact Function.update_of_ne hne ..
    · exact mapProperties_elsewhere (hranges hrec r' rec' hrec' hne) _ _
  | transferCustodianship hrec =>
    obtain rfl := hr (Or.inr (Or.inl hrole))
    exact ⟨fun r' rec' hrec' hne => ⟨Function.update_of_ne hne ..,rfl⟩,fun _ _ => rfl⟩
  | authorizeReporter hrec =>
    obtain rfl := hr (Or.inr (Or.inr hrole))
    refine ⟨fun r' rec' hrec' hne => ⟨rfl,?_⟩,fun _ _ => rfl⟩
    exact mapProperties_elsewhere (hranges hrec r' rec' hrec' hne) _ _

end Ledger

/-- The answer with the role, the record, the receiver and the amount of the proposal. -/
def AnswerProposalAction.repeating (a : AnswerProposalAction) (c : Proposal) :
    AnswerProposalAction :=
  { a with
    role := c.role
    receivingParticipant := c.receivingParticipant
    recordId := c.recordId
    dgCoinAmount := c.dgCoinAmount }

namespace Ledger

/-- The answer did what the proposal says: the same as the answer that repeats it, and nothing
to a record or participant that it does not name. -/
structure Executes (range : String → Address) (L : Ledger) (signer : String) (ts : Nat)
    (a : AnswerProposalAction) (c : Proposal) (L' : Ledger) : Prop where
  effect : Step range L ⟨signer,ts,.AnswerProposal (a.repeating c)⟩ L'
  confined : Confined c.recordId [c.receivingParticipant,c.issuingParticipant] L L'

theorem Step.executes_iff (hd : DistinctRanges range L) (hresp : a.response = .ACCEPT)
    (hc : L.proposal a.proposalId = some c) (hu : ¬ Untouched L L')
    (hstep : Step range L ⟨signer,ts,.AnswerProposal a⟩ L') :
    Executes range L signer ts a c L' ↔ SameTerms a (a.repeating c) := by
  obtain ⟨c₁,i,p,hacc,heff⟩ := (step_accept_iff hresp).mp hstep
  obtain rfl := Option.some.inj (hc.symm.trans hacc.proposal)
  constructor
  · intro hexec
    obtain ⟨c₂,i₂,p₂,hacc₂,heff₂⟩ :=
      (step_accept_iff (show (a.repeating c).response = .ACCEPT from hresp)).mp hexec.effect
    obtain rfl : c = c₂ := Option.some.inj (hc.symm.trans hacc₂.proposal)
    obtain rfl := Option.some.inj (hacc.registered.symm.trans hacc₂.registered)
    exact heff.sameTerms hd hacc.registered hacc.participant hacc₂.participant heff₂ hu
  · intro hs
    have hreceiver : c.receivingParticipant = a.receivingParticipant := hs.receiver
    refine ⟨(step_accept_iff (show (a.repeating c).response = .ACCEPT from hresp)).mpr
      ⟨c,i,p,⟨⟨hc,hacc.registered⟩,hresp,hacc.receiver,?_⟩,Effect.congr (a := a) rfl hs heff⟩,?_⟩
    · exact (congrArg L.participant hreceiver).trans hacc.participant
    · have hconfined := heff.confined hd fun h => (hs.record h).symm
      refine ⟨hconfined.record,fun k hk => hconfined.participant k fun hmem => hk ?_⟩
      rw [← hreceiver,← hacc.receiver] at hmem
      obtain rfl : k = c.receivingParticipant := by simpa using hmem
      exact List.mem_cons_self

end Ledger

theorem accept_executes_iff {env : Env} {h : List (State × Tx)} {s s' : State} {signer : String}
    {ts : Nat} {a : AnswerProposalAction} {c : Proposal} (hr : Reachable env h s)
    (hd : DistinctAddresses env s) (hacc : Accepted env s ⟨signer,ts,.AnswerProposal a⟩ s')
    (hresp : a.response = .ACCEPT)
    (heffect : ¬ Ledger.Untouched (ledger env s) (ledger env s'))
    (hc : (ledger env s).proposal a.proposalId = some c) :
    Ledger.Executes env.range (ledger env s) signer ts a c (ledger env s') ↔
      SameTerms a (a.repeating c) :=
  (accepted_refines (reachable_refines hr).1 hacc).2.executes_iff hd hresp hc heffect

theorem accept_executes_sample : ∃ c,
    (ledger Sample.env (Sample.after Sample.offered)).proposal "x" = some c ∧
    Ledger.Executes Sample.env.range (ledger Sample.env (Sample.after Sample.offered)) "B" 6
      Sample.acceptance c (ledger Sample.env
        (Sample.next (Sample.answer "B" 6 Sample.acceptance) (Sample.after Sample.offered))) := by
  have hok : Sample.Valid Sample.offered := by decide +kernel
  obtain ⟨h,hr,_⟩ := Sample.reachable hok
  have hd := Sample.distinctAddresses hok (by decide +kernel)
  have hacc := Sample.accepted_answer "B" 6 Sample.acceptance (Sample.after Sample.offered)
    (by decide +kernel)
  obtain ⟨c,hc,hfields⟩ := Option.map_eq_some_iff.mp (show
    ((ledger Sample.env (Sample.after Sample.offered)).proposal "x").map
      (fun c => (c.role,c.receivingParticipant,c.recordId,c.dgCoinAmount)) =
        some (.creditDGC,"B","",10) by decide +kernel)
  obtain ⟨hrole,hk,hrec,hx⟩ : c.role = .creditDGC ∧ c.receivingParticipant = "B" ∧
      c.recordId = "" ∧ c.dgCoinAmount = 10 := by simpa using hfields
  refine ⟨c,hc,(accept_executes_iff hr hd hacc rfl (fun hu => ?_) hc).mpr
    ⟨hrole,hk,fun _ => hrec,fun _ => hx⟩⟩
  have hbefore : ((ledger Sample.env (Sample.after Sample.offered)).participant "B").map
      Participant.credit = some 0 := by decide +kernel
  have hafter : ((ledger Sample.env (Sample.next (Sample.answer "B" 6 Sample.acceptance)
      (Sample.after Sample.offered))).participant "B").map Participant.credit = some 10 := by
    decide +kernel
  rw [hu.participant,hbefore] at hafter
  exact absurd (Option.some.inj hafter) (by decide)

/-- The sample with a second record of the first participant, who offers the first one. -/
def Sample.owned : List TpProcessRequest :=
  [secondRecord,propose "A" 6
    { proposalId := "x", role := .transferOwnership, receivingParticipant := "B",
      recordId := "r" }]

/-- An acceptance that names the second record. -/
def Sample.redirected : AnswerProposalAction :=
  { proposalId := "x", role := .transferOwnership, response := .ACCEPT,
    receivingParticipant := "B", recordId := "q" }

/-- The receiver of an offer becomes the owner of a record that was not offered. -/
theorem accept_redirected : ∃ h c, Reachable Sample.env h (Sample.after Sample.owned) ∧
    DistinctAddresses Sample.env (Sample.after Sample.owned) ∧
    Accepted Sample.env (Sample.after Sample.owned) ⟨"B",7,.AnswerProposal Sample.redirected⟩
      (Sample.next (Sample.answer "B" 7 Sample.redirected) (Sample.after Sample.owned)) ∧
    (ledger Sample.env (Sample.after Sample.owned)).proposal "x" = some c ∧ c.recordId = "r" ∧
    ((ledger Sample.env (Sample.next (Sample.answer "B" 7 Sample.redirected)
      (Sample.after Sample.owned))).record "q").map
        (fun rec => rec.owners.map AssociatedParticipant.participantId) = some ["A","B"] ∧
    ¬ Ledger.Executes Sample.env.range (ledger Sample.env (Sample.after Sample.owned)) "B" 7
      Sample.redirected c (ledger Sample.env
        (Sample.next (Sample.answer "B" 7 Sample.redirected) (Sample.after Sample.owned))) := by
  have hok : Sample.Valid Sample.owned := by decide +kernel
  obtain ⟨h,hr,_⟩ := Sample.reachable hok
  have hd := Sample.distinctAddresses hok (by decide +kernel)
  have hacc := Sample.accepted_answer "B" 7 Sample.redirected (Sample.after Sample.owned)
    (by decide +kernel)
  obtain ⟨c,hc,hrecord⟩ := Option.map_eq_some_iff.mp (show
    ((ledger Sample.env (Sample.after Sample.owned)).proposal "x").map Proposal.recordId =
      some "r" by decide +kernel)
  obtain ⟨rec,hrec,howners⟩ := Option.map_eq_some_iff.mp (show
    ((ledger Sample.env (Sample.after Sample.owned)).record "q").map
      (fun rec => rec.owners.map AssociatedParticipant.participantId) = some ["A"]
      by decide +kernel)
  have hafter : ((ledger Sample.env (Sample.next (Sample.answer "B" 7 Sample.redirected)
      (Sample.after Sample.owned))).record "q").map
        (fun rec => rec.owners.map AssociatedParticipant.participantId) = some ["A","B"] := by
    decide +kernel
  refine ⟨h,c,hr,hd,hacc,hc,hrecord,hafter,fun hexec => ?_⟩
  have hsame := (hexec.confined.record "q" rec hrec (by rw [hrecord]; decide)).1
  rw [hsame,hrec,Option.map_some,howners] at hafter
  exact absurd (Option.some.inj hafter) (by decide)

end DgcRestApi
