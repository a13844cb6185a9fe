import DgcRestApi.Ledger.Reporters

/-!
# When a reporter can be revoked

`_revoke_reporter` stops at the first entry of the reporter that is not authorized. So a key
can be revoked as long as all its entries are, and two branches of `_answer_proposal` break
that: `authorizeReporter` appends an entry without looking at those there are, and a transfer
to the last owner itself takes the authorization from all its entries and appends another.
-/

namespace DgcRestApi

/-- All entries of the key are authorized. -/
def Standing (k : String) (q : Property) : Prop :=
  ∀ rep ∈ q.reporters, rep.publicKey = k → rep.authorized = true

/-- A key with an authorized entry has no other ones. -/
def Uniform (q : Property) : Prop :=
  ∀ rep ∈ q.reporters, rep.authorized = true → Standing rep.publicKey q

section Entries

variable {A B X : String} {q q' : Property} {k : Nat}

theorem Uniform.turned (ht : Turned q q') (h : Uniform q) : Uniform q' := by
  unfold Uniform Standing at h ⊢
  rwa [ht.reporters]

theorem uniform_newProperty (r signer n : String) (col : PropertySchema) :
    Uniform (newProperty r signer n col) := by
  intro rep hrep hauth rep' hrep' _
  obtain rfl := List.mem_singleton.mp hrep
  obtain rfl := List.mem_singleton.mp hrep'
  exact hauth

theorem Uniform.revoke (h : Uniform q) : Uniform (Ledger.revoke X q) := by
  intro rep hrep hauth rep' hrep' hkey
  obtain ⟨rep₀,hrep₀,rfl⟩ := List.mem_map.mp hrep
  obtain ⟨rep₁,hrep₁,rfl⟩ := List.mem_map.mp hrep'
  by_cases hX : rep₀.publicKey = X
  · rw [if_pos hX] at hauth
    exact nomatch hauth
  · rw [if_neg hX] at hauth hkey
    have hX' : rep₁.publicKey ≠ X := by
      intro he
      rw [if_pos he] at hkey
      exact hX (hkey.symm.trans he)
    rw [if_neg hX'] at hkey ⊢
    exact h rep₀ hrep₀ hauth rep₁ hrep₁ hkey

theorem Uniform.handOver (hne : A ≠ B) (h : Uniform q) : Uniform (handOver A B q) := by
  intro rep hrep hauth rep' hrep' hkey
  by_cases hA : rep.publicKey = A
  · have hbarred := barred_handOver hne q rep hrep hA
    rw [hauth] at hbarred
    exact nomatch hbarred
  · rcases mem_handOver hrep' with ⟨rep₁,hrep₁,hkey₁,hauth'⟩ | ⟨_,hauth'⟩
    · rw [hauth',if_neg (hkey.trans_ne hA)]
      by_cases hB : rep'.publicKey = B
      · rw [if_pos hB]
      · rw [if_neg hB]
        rcases mem_handOver hrep with ⟨rep₀,hrep₀,hkey₀,hauth₀⟩ | ⟨hB',_⟩
        · rw [if_neg hA,if_neg (hkey ▸ hB),hauth] at hauth₀
          exact h rep₀ hrep₀ hauth₀.symm rep₁ hrep₁ (hkey₁.trans (hkey.trans hkey₀.symm))
        · exact absurd (hkey.trans hB') hB
    · exact hauth'

theorem uniform_iterate {f : Property → Property} (hf : ∀ q, Uniform q → Uniform (f q))
    (h : Uniform q) (k : Nat) : Uniform (f^[k] q) := by
  induction k with
  | zero => exact h
  | succ k ih =>
    rw [Function.iterate_succ_apply']
    exact hf _ ih

/-! ### Authorizing -/

theorem Standing.addReporter (h : Standing X q) : Standing X (addReporter X q) := by
  intro rep hrep hkey
  rcases List.mem_append.mp hrep with hrep | hrep
  · exact h rep hrep hkey
  · rw [List.mem_singleton.mp hrep]

theorem Uniform.addReporter (h : Uniform q) (hX : Standing X q) : Uniform (addReporter X q) := by
  intro rep hrep hauth
  by_cases hkey : rep.publicKey = X
  · rw [hkey]
    exact hX.addReporter
  · have hold : ∀ rep' ∈ (DgcRestApi.addReporter X q).reporters, rep'.publicKey ≠ X →
        rep' ∈ q.reporters := by
      intro rep' hrep' hne
      rcases List.mem_append.mp hrep' with hrep' | hrep'
      · exact hrep'
      · exact absurd (congrArg Reporter.publicKey (List.mem_singleton.mp hrep')) hne
    intro rep' hrep' hkey'
    exact h rep (hold rep hrep hkey) hauth rep' (hold rep' hrep' (hkey'.trans_ne hkey)) hkey'

theorem addReporter_iterate_keeps (k : Nat) (q : Property) :
    q.reporters <+: ((addReporter X)^[k] q).reporters := by
  induction k with
  | zero => exact List.prefix_rfl
  | succ k ih =>
    rw [Function.iterate_succ_apply']
    exact ih.trans (List.prefix_append ..)

theorem uniform_addReporter_iff (h : Uniform q) (hk : 0 < k) :
    Uniform ((addReporter X)^[k] q) ↔ Standing X q := by
  constructor
  · intro hu rep hrep hkey
    obtain ⟨k,rfl⟩ := Nat.exists_eq_succ_of_ne_zero hk.ne'
    have hold : rep ∈ ((DgcRestApi.addReporter X)^[k + 1] q).reporters :=
      (addReporter_iterate_keeps (k + 1) q).subset hrep
    rw [Function.iterate_succ_apply'] at hu hold
    -- the entry that was added last is authorized
    exact hu _ (List.mem_append_right _ List.mem_cons_self) rfl rep hold hkey
  · intro hX
    have hboth : Uniform ((addReporter X)^[k] q) ∧ Standing X ((addReporter X)^[k] q) := by
      clear hk
      induction k with
      | zero => exact ⟨h,hX⟩
      | succ k ih =>
        rw [Function.iterate_succ_apply']
        exact ⟨ih.1.addReporter ih.2,ih.2.addReporter⟩
    exact hboth.1

/-! ### Handing over to the owner itself -/

theorem not_uniform_handOver_self {rep : Reporter} (hrep : rep ∈ q.reporters)
    (hkey : rep.publicKey = A) : ¬ Uniform (handOver A A q) := by
  intro hu
  obtain ⟨new,hnew,hnewkey,hauth⟩ := @handOver_receiver A A q
  have hold : { rep with authorized := false } ∈ (handOver A A q).reporters := by
    rw [handOver_reporters]
    refine List.mem_append_left _ (List.mem_map.mpr ⟨rep,hrep,?_⟩)
    rw [if_pos hkey]
  exact nomatch hu new hnew hauth _ hold (hkey.trans hnewkey.symm)

theorem uniform_handOver_self (h : Uniform q) (hnone : ∀ rep ∈ q.reporters, rep.publicKey ≠ A) :
    Uniform (handOver A A q) := by
  have hcases : ∀ rep ∈ (handOver A A q).reporters,
      (∃ rep₀ ∈ q.reporters, rep₀.publicKey = rep.publicKey ∧
        rep.authorized = rep₀.authorized) ∨ rep.publicKey = A ∧ rep.authorized = true := by
    intro rep hrep
    rcases mem_handOver hrep with ⟨rep₀,hrep₀,hkey₀,hauth⟩ | hnew
    · have hne : rep.publicKey ≠ A := hkey₀ ▸ hnone rep₀ hrep₀
      rw [if_neg hne,if_neg hne] at hauth
      exact Or.inl ⟨rep₀,hrep₀,hkey₀,hauth⟩
    · exact Or.inr hnew
  intro rep hrep hauth rep' hrep' hkey
  rcases hcases rep' hrep' with ⟨rep₁,hrep₁,hkey₁,hauth₁⟩ | ⟨_,hauth₁⟩
  · rcases hcases rep hrep with ⟨rep₀,hrep₀,hkey₀,hauth₀⟩ | ⟨hA,_⟩
    · rw [hauth₁]
      exact h rep₀ hrep₀ (hauth₀ ▸ hauth) rep₁ hrep₁ (hkey₁.trans (hkey.trans hkey₀.symm))
    · exact absurd (hkey₁.trans (hkey.trans hA)) (hnone rep₁ hrep₁)
  · exact hauth₁

theorem uniform_handOver_self_iff (h : Uniform q) (hk : 0 < k) :
    Uniform ((handOver A A)^[k] q) ↔ ¬ (1 < k ∨ ∃ rep ∈ q.reporters, rep.publicKey = A) := by
  obtain ⟨k,rfl⟩ := Nat.exists_eq_succ_of_ne_zero hk.ne'
  rw [Function.iterate_succ_apply']
  constructor
  · rintro hu (hlt | ⟨rep,hrep,hkey⟩)
    · obtain ⟨j,rfl⟩ := Nat.exists_eq_succ_of_ne_zero (n := k) (by omega)
      rw [Function.iterate_succ_apply'] at hu
      obtain ⟨rep,hrep,hkey,_⟩ := @handOver_receiver A A ((handOver A A)^[j] q)
      exact not_uniform_handOver_self hrep hkey hu
    · have hev : Evolves (fun _ => True) q ((handOver A A)^[k] q) :=
        evolves_iterate (fun q => .handOver q A trivial) k q
      obtain ⟨i,hi⟩ := List.mem_iff_getElem?.mp hrep
      obtain ⟨rep',hrep',hsame⟩ := hev.extends.reporters i rep hi
      exact not_uniform_handOver_self (List.mem_of_getElem? hrep') (hsame.1.trans hkey) hu
  · intro hnot
    rw [not_or,not_exists] at hnot
    obtain rfl : k = 0 := by omega
    exact uniform_handOver_self h fun rep hrep hkey => hnot.2 rep ⟨hrep,hkey⟩

end Entries

namespace Ledger

variable {range : String → Address} {L L' : Ledger} {tx : Tx} {r n : String} {q : Property}

/-- The record is there and not final. -/
def Unsealed (L : Ledger) (r : String) : Prop := ∃ rec, L.record r = some rec ∧ rec.final = false

/-- On the properties of records that are not final no key has entries of both kinds. -/
def AllUniform (L : Ledger) : Prop :=
  ∀ r n q, Unsealed L r → L.property r n = some q → Uniform q

/-- The transaction mixes the entries of a key on a property of a record that is not final:
it authorizes a reporter that has an entry without authorization, or hands the record to its
last owner, who has an entry already or is handed the property twice. Where identifiers have
one address range, a new record can also take over properties with mixed entries. -/
inductive Mixes (range : String → Address) (L : Ledger) (tx : Tx) : Prop
  | reauthorized {a c r n q rep} (ha : tx.action = .AnswerProposal a)
      (hresp : a.response = .ACCEPT) (hrole : a.role = .authorizeReporter)
      (hc : L.proposal a.proposalId = some c) (hn : n ∈ c.properties) (hr : Unsealed L r)
      (hrange : range r = range a.recordId) (hq : L.property r n = some q)
      (hrep : rep ∈ q.reporters) (hkey : rep.publicKey = a.receivingParticipant)
      (hauth : rep.authorized = false)
  | handedBack {a rec o t r n q} (ha : tx.action = .AnswerProposal a)
      (hresp : a.response = .ACCEPT) (hrole : a.role = .transferOwnership)
      (hrec : L.record a.recordId = some rec) (ho : rec.owners.getLast? = some o)
      (hself : o.participantId = a.receivingParticipant) (ht : L.table rec.table = some t)
      (hn : n ∈ t.properties.map PropertySchema.name) (hr : Unsealed L r)
      (hrange : range r = range a.recordId) (hq : L.property r n = some q)
      (hagain : 1 < (t.properties.map PropertySchema.name).count n ∨
        ∃ rep ∈ q.reporters, rep.publicKey = a.receivingParticipant)
  | takenOver {a t n q} (ha : tx.action = .CreateRecord a) (ht : L.table a.table = some t)
      (hn : t.entry n = none) (hq : L.property a.recordId n = some q) (hmixed : ¬ Uniform q)

theorem Unsealed.of_step (hstep : Step range L tx L') (h : Unsealed L' r) :
    Unsealed L r ∨ ∃ a, tx.action = .CreateRecord a ∧ r = a.recordId := by
  obtain ⟨rec',hrec',hopen⟩ := h
  rcases hstep.record_cases hrec' with ⟨_,_,a,_,_,rfl,_,hr,_⟩ | ⟨rec,hrec,hext,_⟩
  · exact Or.inr ⟨a,rfl,hr⟩
  · refine Or.inl ⟨rec,hrec,Bool.eq_false_iff.mpr fun hfinal => ?_⟩
    rw [hext.final hfinal] at hopen
    exact nomatch hopen

/-- A change of the owners or custodians leaves open what was open. -/
theorem Unsealed.setRecord {r' : String} {rec rec' : Record} (h : Unsealed L r)
    (hrec : L.record r' = some rec) (hfinal : rec'.final = rec.final) :
    Unsealed (L.setRecord r' rec') r := by
  obtain ⟨rec₁,hrec₁,hopen⟩ := h
  rw [Unsealed,setRecord_record]
  by_cases he : r = r'
  · subst he
    obtain rfl := Option.some.inj (hrec.symm.trans hrec₁)
    exact ⟨_,Function.update_self ..,hfinal.trans hopen⟩
  · exact ⟨rec₁,by rw [Function.update_of_ne he,hrec₁],hopen⟩

theorem Edits.uniform {names : List String} {f : Property → Property} {r' : String}
    (hedit : Edits L tx r' names f) (hmix : ¬ Mixes range L tx) (hr : Unsealed L r)
    (hrange : range r = range r') (hq : L.property r n = some q) (hu : Uniform q) :
    Uniform (f^[names.count n] q) := by
  rcases Nat.eq_zero_or_pos (names.count n) with hzero | hpos
  · rw [hzero]
    exact hu
  have hn : n ∈ names := List.count_pos_iff.mp hpos
  cases hedit with
  | @handOver a rec o t ha hresp hrole hrec ho ht =>
    by_cases hself : o.participantId = a.receivingParticipant
    · rw [hself,uniform_handOver_self_iff hu hpos]
      exact fun hagain => hmix
        (.handedBack ha hresp hrole hrec ho hself ht hn hr hrange hq hagain)
    · exact uniform_iterate (fun _ => Uniform.handOver hself) hu _
  | authorize ha hresp hrole hc =>
    rw [uniform_addReporter_iff hu hpos]
    intro rep hrep hkey
    by_contra hauth
    exact hmix (.reauthorized ha hresp hrole hc hn hr hrange hq hrep hkey
      (Bool.eq_false_iff.mpr hauth))
  | revoke => exact uniform_iterate (fun _ => Uniform.revoke) hu _

theorem Step.allUniform (hL : Homed range L) (h : AllUniform L) (hstep : Step range L tx L')
    (hmix : ¬ Mixes range L tx) : AllUniform L' := by
  intro r n q' hr' hq'
  rcases hstep.edit_cases with ⟨signer,ts,a,t,initial,rfl,hc⟩ | ⟨_,_,a,rec,rfl,hrec,hus⟩ |
      ⟨r',names,f,hedit,hprop⟩ | ⟨hother,hprop⟩
  · rw [hc.eq,initProperties_property] at hq'
    split at hq'
    · obtain ⟨col,_,rfl⟩ := Option.map_eq_some_iff.mp hq'
      exact uniform_newProperty _ _ _ _
    · rename_i hmiss
      rcases hr'.of_step hstep with hr | ⟨_,ha,rfl⟩
      · exact h r n q' hr hq'
      · -- the new record has properties of another one in its range
        obtain rfl := Action.CreateRecord.inj ha
        by_contra hmixed
        refine hmix (.takenOver rfl hc.table ?_ hq' hmixed)
        by_contra hn
        obtain ⟨col,hcol⟩ := Option.ne_none_iff_exists'.mp hn
        exact hmiss ⟨rfl,by rw [tableSchema_lookup,hcol]; rfl⟩
  · obtain ⟨q,hq,hturned⟩ := rel_some_right (hq' ▸ hus.turned_property hL ⟨rec,hrec⟩ r n)
    rcases hr'.of_step hstep with hr | ⟨_,ha,_⟩
    · exact (h r n q hr hq).turned hturned
    · exact nomatch ha
  · have hr : Unsealed L r := by
      rcases hr'.of_step hstep with hr | ⟨_,ha,_⟩
      · exact hr
      · cases hedit with
        | handOver ha' | authorize ha' | revoke ha' => exact nomatch ha.symm.trans ha'
    rw [hprop,mapProperties_property] at hq'
    split at hq'
    · rename_i hrange
      obtain ⟨q,hq,rfl⟩ := Option.map_eq_some_iff.mp hq'
      exact hedit.uniform hmix hr hrange hq (h r n q hr hq)
    · exact h r n q' hr hq'
  · rcases hr'.of_step hstep with hr | ⟨a,ha,rfl⟩
    · exact h r n q' hr (hprop ▸ hq')
    · exact absurd ha (hother a)

theorem Mixes.not_allUniform (h : AllUniform L) (hstep : Step range L tx L')
    (hmix : Mixes range L tx) : ¬ AllUniform L' := by
  intro h'
  cases hmix with
  | @reauthorized a c r n q rep ha hresp hrole hc hn hr hrange hq hrep hkey hauth =>
    obtain ⟨signer,ts,action⟩ := tx
    obtain rfl : action = .AnswerProposal a := ha
    obtain ⟨c',i,p,hacc,heff⟩ := (step_accept_iff hresp).mp hstep
    obtain rfl := Option.some.inj (hc.symm.trans hacc.proposal)
    rw [hrole] at heff
    cases heff with
    | authorizeReporter =>
      have hu : Uniform ((addReporter a.receivingParticipant)^[c.properties.count n] q) := by
        refine h' r n _ hr ?_
        rw [setProposal_property,mapProperties_property,if_pos hrange,hq]
        rfl
      rw [uniform_addReporter_iff (h r n q hr hq) (List.count_pos_iff.mpr hn)] at hu
      rw [hu rep hrep hkey] at hauth
      exact nomatch hauth
  | @handedBack a rec o t r n q ha hresp hrole hrec ho hself ht hn hr hrange hq hagain =>
    obtain ⟨signer,ts,action⟩ := tx
    obtain rfl : action = .AnswerProposal a := ha
    obtain ⟨c,i,p,_,heff⟩ := (step_accept_iff hresp).mp hstep
    rw [hrole] at heff
    cases heff with
    | transferOwnership hrec' ho' ht' =>
      obtain rfl := Option.some.inj (hrec.symm.trans hrec')
      obtain rfl := Option.some.inj (ho.symm.trans ho')
      obtain rfl := Option.some.inj (ht.symm.trans ht')
      have hr' : Unsealed (L.setRecord a.recordId
          { rec with owners := rec.owners ++ [⟨a.receivingParticipant,ts⟩] }) r :=
        hr.setRecord hrec rfl
      have hu := h' r n _ hr' (by
        rw [setProposal_property,mapProperties_property,if_pos hrange,setRecord_property,hq]
        rfl)
      rw [hself,uniform_handOver_self_iff (h r n q hr hq) (List.count_pos_iff.mpr hn)] at hu
      exact hu hagain
  | @takenOver a t n q ha ht hn hq hmixed =>
    obtain ⟨t',initial,hc⟩ := hstep.created_of_action ha
    obtain rfl := Option.some.inj (ht.symm.trans hc.table)
    refine hmixed (h' a.recordId n q ⟨_,by rw [hc.record,Function.update_self],rfl⟩ ?_)
    rw [hc.eq,initProperties_property,tableSchema_lookup,hn,if_neg (by simp)]
    exact hq

/-- Where the records have distinct ranges only answers mix entries. -/
theorem Mixes.answer (hL : Homed range L) (hd : DistinctRanges range L')
    (hstep : Step range L tx L') (hmix : Mixes range L tx) :
    ∃ a, tx.action = .AnswerProposal a := by
  cases hmix with
  | reauthorized ha | handedBack ha => exact ⟨_,ha⟩
  | takenOver ha _ _ hq =>
    obtain ⟨_,_,hc⟩ := hstep.created_of_action ha
    exact absurd rfl (hc.not_range hL hd hq)

theorem Step.allUniform_iff (hL : Homed range L) (h : AllUniform L) (hstep : Step range L tx L') :
    AllUniform L' ↔ ¬ Mixes range L tx :=
  ⟨fun h' hmix => hmix.not_allUniform h hstep h',hstep.allUniform hL h⟩

end Ledger

/-- Whenever a key is an authorized reporter of a property of a record that is not final, the
last owner can revoke it. -/
def Revocables (env : Env) (s : State) : Prop :=
  ∀ r rec o n q X t, (ledger env s).record r = some rec → rec.final = false →
    rec.owners.getLast? = some o → (ledger env s).property r n = some q →
    (∃ rep ∈ q.reporters, rep.publicKey = X ∧ rep.authorized = true) → t ≠ 0 →
      ∃ s', Accepted env s ⟨o.participantId,t,.RevokeReporter ⟨r,X,[n]⟩⟩ s'

theorem revocables_iff {env : Env} {h : List (State × Tx)} {s : State} (hr : Reachable env h s)
    (hw : ∀ signer t a, Writes env s ⟨signer,t,.RevokeReporter a⟩) :
    Revocables env s ↔ Ledger.AllUniform (ledger env s) := by
  constructor
  · rintro hrev r n q ⟨rec,hrec,hopen⟩ hq rep hrep hauth rep' hrep' hkey
    have hne := ((reachable_sound hr).record r rec hrec).owners_ne
    have hacc := hrev r rec (rec.owners.getLast hne) n q rep.publicKey 1 hrec hopen
      (List.getLast?_eq_getLast_of_ne_nil hne) hq ⟨rep,hrep,rfl,hauth⟩ one_ne_zero
    obtain ⟨_,L',hstep⟩ := (accepted_iff_step hr (hw _ _ _)).mp hacc
    cases hstep with
    | revokeReporter _ _ hprops =>
      obtain ⟨q',hq',hrevocable⟩ := hprops n List.mem_cons_self
      obtain rfl := Option.some.inj (hq.symm.trans hq')
      exact hrevocable.2 rep' hrep' hkey
  · intro hu r rec o n q X t hrec hopen ho hq hauth ht
    rw [accepted_iff_step hr (hw _ _ _),sendable_iff]
    refine ⟨⟨ht,trivial⟩,_,.revokeReporter ⟨hrec,hopen,o,ho,rfl⟩ (List.nodup_singleton n) ?_⟩
    intro n' hn'
    obtain rfl := List.mem_singleton.mp hn'
    obtain ⟨rep,hrep,rfl,hauth⟩ := hauth
    exact ⟨q,hq,⟨rep,hrep,rfl⟩,hu r n' q ⟨rec,hrec,hopen⟩ hq rep hrep hauth⟩

theorem reporters_revocable_iff {env : Env} {h : List (State × Tx)} {s : State}
    (hr : Reachable env h s)
    (hw : ∀ x ∈ Run.states h s, ∀ signer t a, Writes env x ⟨signer,t,.RevokeReporter a⟩) :
    (∀ x ∈ Run.states h s, Revocables env x) ↔
      ∀ e ∈ h, ¬ Ledger.Mixes env.range (ledger env e.1) e.2 := by
  refine reachable_states_iff (I := fun L => Ledger.Homed env.range L ∧ Ledger.AllUniform L)
    (Q := fun e => ¬ Ledger.Mixes env.range e.1 e.2) (fun L tx L' hL hstep => ?_)
    ⟨Ledger.homed_empty,fun _ _ _ _ hq => nomatch hq⟩ (fun h' x hx hr' => ?_) hr
  · rw [and_iff_right (hstep.homed hL.1)]
    exact hstep.allUniform_iff hL.1 hL.2
  · rw [revocables_iff hr' (hw x hx)]
    exact (and_iff_right (reachable_homed hr')).symm

namespace Sample

/-- The first participant authorizes the second one to report. -/
def authorizing (proposalId : String) : CreateProposalAction :=
  { proposalId, role := .authorizeReporter, receivingParticipant := "B", recordId := "r"
    properties := ["p"] }

def agreeing (proposalId : String) : AnswerProposalAction :=
  { proposalId, role := .authorizeReporter, response := .ACCEPT, receivingParticipant := "B"
    recordId := "r" }

/-- It does so, revokes the authorization, and gives it once more. -/
def reauthorized : List TpProcessRequest :=
  [propose "A" 5 (authorizing "x"),answer "B" 6 (agreeing "x"),
   request "A"
    { action := .REVOKE_REPORTER, timestamp := 7,
      revokeReporter := { recordId := "r", reporterId := "B", properties := ["p"] } },
   propose "A" 8 (authorizing "y"),answer "B" 9 (agreeing "y")]

end Sample

theorem reporters_revocable_sample : ∃ h : List (State × Tx),
    ∀ x ∈ Run.states h (Sample.plainly [Sample.revocation,Sample.offer "x"]),
      Revocables Sample.plain x := by
  have hrun := @Sample.plainly_eq [Sample.revocation,Sample.offer "x"] (by decide +kernel)
  obtain ⟨h,hr,hmap⟩ := replay_run hrun
  have hd := replay_distinctAddresses hrun (by decide +kernel)
  refine ⟨h,(reporters_revocable_iff hr fun x hx _ _ _ => ?_).mpr fun e he hmix => ?_⟩
  · obtain ⟨_,hr'⟩ := hr.of_states hx
    exact writes_of_total (reachable_sane hr') (fun _ => rfl) _
  obtain ⟨h₁,h₂,m,_,hr₁,hacc,hr₂⟩ := Run.split hr he
  have hstep := (accepted_refines (reachable_refines hr₁).1 hacc).2
  have hdm : Ledger.DistinctRanges Sample.plain.range (ledger Sample.plain m) :=
    hd.of_grown (Ledger.run_record_grown (run_refines (reachable_refines (hr₁.snoc hacc)).1 hr₂).2)
  obtain ⟨a,ha⟩ := hmix.answer (reachable_homed hr₁) hdm hstep
  exact not_answered hmap (by decide +kernel) he a ha

/-- A reporter that was authorized again cannot be revoked. -/
theorem reauthorized_irrevocable : ∃ h,
    Reachable Sample.plain h (Sample.plainly Sample.reauthorized) ∧
    ((ledger Sample.plain (Sample.plainly Sample.reauthorized)).property "r" "p").map
      Property.reporters = some [⟨"A",true,0⟩,⟨"B",false,1⟩,⟨"B",true,2⟩] ∧
    ¬ ∀ x ∈ Run.states h (Sample.plainly Sample.reauthorized), Revocables Sample.plain x := by
  obtain ⟨h,hr,_⟩ := replay_run (@Sample.plainly_eq Sample.reauthorized (by decide +kernel))
  have hreporters : ((ledger Sample.plain (Sample.plainly Sample.reauthorized)).property
      "r" "p").map Property.reporters =
        some [⟨"A",true,0⟩,⟨"B",false,1⟩,⟨"B",true,2⟩] := by decide +kernel
  refine ⟨h,hr,hreporters,fun hall => ?_⟩
  have hu := (revocables_iff hr fun _ _ _ => writes_of_total (reachable_sane hr) (fun _ => rfl)
    _).mp (hall _ List.mem_cons_self)
  obtain ⟨q,hq,hlist⟩ := Option.map_eq_some_iff.mp hreporters
  obtain ⟨rec,hrec,hopen⟩ := Option.map_eq_some_iff.mp (show
    ((ledger Sample.plain (Sample.plainly Sample.reauthorized)).record "r").map Record.final =
      some false by decide +kernel)
  have huniform := hu "r" "p" q ⟨rec,hrec,hopen⟩ hq
  have hB := huniform ⟨"B",true,2⟩ (by rw [hlist]; decide) rfl ⟨"B",false,1⟩
    (by rw [hlist]; decide) rfl
  exact nomatch hB

end DgcRestApi
