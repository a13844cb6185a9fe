import DgcRestApi.Ledger.Acceptance
import DgcRestApi.Ledger.Proposing

/-!
# Reporters

Who may update a property is a list of entries that only ACCEPT answers and revocations
rewrite. A key may have several entries, and `_update_properties` looks for an authorized
one, while `_revoke_reporter` gives up on the first that is not.
-/

namespace DgcRestApi

/-! ## Entries of one property -/

/-- No entry of the key is authorized. -/
def Barred (k : String) (q : Property) : Prop :=
  ∀ rep ∈ q.reporters, rep.publicKey = k → rep.authorized = false

/-- The entries of all other keys are the same, at the same positions. -/
def KeepsOthers (keys : List String) (q q' : Property) : Prop :=
  ∀ (i : Nat) (rep : Reporter), rep.publicKey ∉ keys →
    (q'.reporters[i]? = some rep ↔ q.reporters[i]? = some rep)

section Entries

variable {A B X k : String} {keys : List String} {q q' q'' : Property}

theorem KeepsOthers.refl (keys : List String) (q : Property) : KeepsOthers keys q q :=
  fun _ _ _ => Iff.rfl

theorem KeepsOthers.trans (h : KeepsOthers keys q q') (h' : KeepsOthers keys q' q'') :
    KeepsOthers keys q q'' := fun i rep hrep => (h' i rep hrep).trans (h i rep hrep)

theorem keepsOthers_iterate {f : Property → Property} (hf : ∀ q, KeepsOthers keys q (f q))
    (n : Nat) (q : Property) : KeepsOthers keys q (f^[n] q) := by
  induction n with
  | zero => exact .refl keys q
  | succ n ih =>
    rw [Function.iterate_succ_apply']
    exact ih.trans (hf _)

/-- Rewriting the entries of some keys and appending entries of such keys. -/
theorem keepsOthers_of_map {f : Reporter → Reporter} {added : List Reporter}
    (hq' : q'.reporters = q.reporters.map f ++ added)
    (hkey : ∀ rep, (f rep).publicKey = rep.publicKey)
    (hid : ∀ rep, rep.publicKey ∉ keys → f rep = rep)
    (hadded : ∀ rep ∈ added, rep.publicKey ∈ keys) : KeepsOthers keys q q' := by
  intro i rep hrep
  rw [hq']
  by_cases hi : i < q.reporters.length
  · rw [List.getElem?_append_left (by simpa using hi),List.getElem?_map]
    constructor
    · intro h
      obtain ⟨rep₀,hrep₀,rfl⟩ := Option.map_eq_some_iff.mp h
      rw [hkey] at hrep
      rw [hrep₀,hid rep₀ hrep]
    · intro h
      rw [h,Option.map_some,hid rep hrep]
  · rw [List.getElem?_append_right (by simpa using hi),
      List.getElem?_eq_none_iff.mpr (not_lt.mp hi)]
    refine iff_of_false (fun h => ?_) nofun
    exact hrep (hadded rep (List.mem_of_getElem? h))

theorem keepsOthers_revoke (q : Property) : KeepsOthers [X] q (Ledger.revoke X q) := by
  refine keepsOthers_of_map (List.append_nil _).symm (fun rep => ?_)
    (fun rep hrep => if_neg (by simpa using hrep)) (List.forall_mem_nil _)
  split <;> rfl

theorem keepsOthers_handOver (q : Property) : KeepsOthers [A,B] q (handOver A B q) := by
  refine keepsOthers_of_map (handOver_reporters A B q) (fun rep => ?_) (fun rep hrep => ?_) ?_
  · split
    · rfl
    · split <;> rfl
  · simp only [List.mem_cons,List.not_mem_nil,or_false,not_or] at hrep
    rw [if_neg hrep.1,if_neg hrep.2]
  · split <;> simp

/-! ### Authorization -/

theorem handOver_receiver (q : Property) :
    ∃ rep ∈ (handOver A B q).reporters, rep.publicKey = B ∧ rep.authorized = true := by
  rw [handOver_reporters]
  by_cases hany : ∃ rep ∈ q.reporters, rep.publicKey ≠ A ∧ rep.publicKey = B
  · obtain ⟨rep,hrep,hA,hB⟩ := hany
    refine ⟨{ rep with authorized := true },List.mem_append_left _ ?_,hB,rfl⟩
    refine List.mem_map.mpr ⟨rep,hrep,?_⟩
    rw [if_neg hA,if_pos hB]
  · rw [if_neg hany]
    exact ⟨_,List.mem_append_right _ List.mem_cons_self,rfl,rfl⟩

/-- An entry after a handover: an old one, which lost its authorization if it is the old
owner's and has it if it is the receiver's, or the one that was added for the receiver. -/
theorem mem_handOver {rep : Reporter} (h : rep ∈ (handOver A B q).reporters) :
    (∃ rep₀ ∈ q.reporters, rep₀.publicKey = rep.publicKey ∧ rep.authorized =
      if rep.publicKey = A then false else if rep.publicKey = B then true
        else rep₀.authorized) ∨
    rep.publicKey = B ∧ rep.authorized = true := by
  rw [handOver_reporters] at h
  rcases List.mem_append.mp h with h | h
  · obtain ⟨rep₀,hrep₀,rfl⟩ := List.mem_map.mp h
    refine Or.inl ⟨rep₀,hrep₀,?_⟩
    by_cases hA : rep₀.publicKey = A
    · simp [hA]
    · by_cases hB : rep₀.publicKey = B
      · have hne : B ≠ A := hB ▸ hA
        simp [hB,hne]
      · simp [hA,hB]
  · split at h
    · exact nomatch h
    · obtain rfl := List.mem_singleton.mp h
      exact Or.inr ⟨rfl,rfl⟩

/-- The old owner may not report any more, unless the record comes back to it. -/
theorem barred_handOver (hne : A ≠ B) (q : Property) : Barred A (handOver A B q) := by
  intro rep hrep hkey
  rcases mem_handOver hrep with ⟨_,_,_,hauth⟩ | ⟨hB,_⟩
  · rw [hauth,if_pos hkey]
  · exact absurd (hkey.symm.trans hB) hne

theorem Barred.handOver (hne : B ≠ k) (h : Barred k q) : Barred k (handOver A B q) := by
  intro rep hrep hkey
  rcases mem_handOver hrep with ⟨rep₀,hrep₀,hkey₀,hauth⟩ | ⟨hB,_⟩
  · rw [hauth]
    by_cases hA : rep.publicKey = A
    · rw [if_pos hA]
    · rw [if_neg hA,if_neg (fun hB => hne (hB.symm.trans hkey))]
      exact h rep₀ hrep₀ (hkey₀.trans hkey)
  · exact absurd (hB.symm.trans hkey) hne

theorem Barred.addReporter (hne : B ≠ k) (h : Barred k q) : Barred k (addReporter B q) := by
  intro rep hrep hkey
  rcases List.mem_append.mp hrep with hrep | hrep
  · exact h rep hrep hkey
  · obtain rfl := List.mem_singleton.mp hrep
    exact absurd hkey hne

theorem barred_revoke (q : Property) : Barred X (Ledger.revoke X q) := by
  intro rep hrep hkey
  obtain ⟨rep₀,_,rfl⟩ := List.mem_map.mp hrep
  split at hkey
  · rw [if_pos ‹_›]
  · exact absurd hkey ‹_›

theorem Barred.revoke (h : Barred k q) : Barred k (Ledger.revoke X q) := by
  intro rep hrep hkey
  obtain ⟨rep₀,hrep₀,rfl⟩ := List.mem_map.mp hrep
  split at hkey
  · rw [if_pos ‹_›]
  · rw [if_neg ‹_›]
    exact h rep₀ hrep₀ hkey

theorem Barred.iterate {f : Property → Property} (hf : ∀ q, Barred k q → Barred k (f q))
    (h : Barred k q) (n : Nat) : Barred k (f^[n] q) := by
  induction n with
  | zero => exact h
  | succ n ih =>
    rw [Function.iterate_succ_apply']
    exact hf _ ih

theorem Barred.turned (ht : Turned q q') (h : Barred k q) : Barred k q' := by
  rwa [Barred,ht.reporters]

end Entries

/-! ## Handing a record over -/

/-- `q'` is `q` after the record went from `A` to `B`: only the entries of these two changed,
and those that were there are at their positions. -/
structure HandedOver (A B : String) (q q' : Property) : Prop where
  eq : q' = { q with reporters := q'.reporters }
  receiver : ∃ rep ∈ q'.reporters, rep.publicKey = B ∧ rep.authorized = true
  owner : A ≠ B → Barred A q'
  others : KeepsOthers [A,B] q q'
  kept : ∀ (i : Nat) (rep : Reporter), q.reporters[i]? = some rep →
    ∃ rep', q'.reporters[i]? = some rep' ∧ rep.SameKey rep'

/-- A name that the table lists several times is handed over several times. -/
theorem handedOver_iterate {A B : String} {k : Nat} (hk : 0 < k) (q : Property) :
    HandedOver A B q ((handOver A B)^[k] q) := by
  obtain ⟨k,rfl⟩ := Nat.exists_eq_succ_of_ne_zero hk.ne'
  have hev : Evolves (fun _ => True) q ((handOver A B)^[k + 1] q) :=
    evolves_iterate (fun q => .handOver q A trivial) _ q
  have heq := hev.eq
  have hkept := hev.extends.reporters
  rw [Function.iterate_succ_apply'] at heq hkept ⊢
  refine ⟨heq,handOver_receiver _,fun hne => barred_handOver hne _,?_,hkept⟩
  exact (keepsOthers_iterate keepsOthers_handOver k q).trans (keepsOthers_handOver _)

namespace Ledger

variable {range : String → Address} {L L' : Ledger} {tx : Tx} {signer : String} {ts : Nat}

/-- The record `r` went from `A` to `B`. -/
structure Transferred (L : Ledger) (r : String) (rec : Record) (t : Table) (A B : String)
    (ts : Nat) (L' : Ledger) : Prop where
  record : L'.record r = some { rec with owners := rec.owners ++ [⟨B,ts⟩] }
  page : L'.page = L.page
  property : ∀ col ∈ t.properties, ∃ q q', L.property r col.name = some q ∧
    L'.property r col.name = some q' ∧ HandedOver A B q q'

theorem Step.transferred {a : AnswerProposalAction} (hresp : a.response = .ACCEPT)
    (hrole : a.role = .transferOwnership) (h : Step range L ⟨signer,ts,.AnswerProposal a⟩ L') :
    ∃ rec o t, L.record a.recordId = some rec ∧ rec.owners.getLast? = some o ∧
      L.table rec.table = some t ∧
      Transferred L a.recordId rec t o.participantId a.receivingParticipant ts L' := by
  obtain ⟨c,i,p,_,heff⟩ := (step_accept_iff hresp).mp h
  rw [hrole] at heff
  cases heff with
  | @transferOwnership rec o t hrec ho ht hprops =>
    refine ⟨rec,o,t,hrec,ho,ht,Function.update_self ..,rfl,fun col hcol => ?_⟩
    obtain ⟨q,hq⟩ := hprops col hcol
    have hcount : 0 < (t.properties.map PropertySchema.name).count col.name :=
      List.count_pos_iff.mpr (List.mem_map_of_mem hcol)
    refine ⟨q,_,hq,?_,handedOver_iterate hcount q⟩
    rw [setProposal_property,mapProperties_property,if_pos rfl,setRecord_property,hq]
    rfl

end Ledger

theorem ownership_hands_over {env : Env} {h : List (State × Tx)} {s s' : State}
    {signer : String} {ts : Nat} {a : AnswerProposalAction} (hr : Reachable env h s)
    (hsize : env.LimitsSize) (hacc : Accepted env s ⟨signer,ts,.AnswerProposal a⟩ s')
    (hresp : a.response = .ACCEPT) (hrole : a.role = .transferOwnership) :
    ∃ rec o t, (ledger env s).record a.recordId = some rec ∧ rec.owners.getLast? = some o ∧
      (ledger env s).table rec.table = some t ∧
      Ledger.Transferred (ledger env s) a.recordId rec t o.participantId a.receivingParticipant
        ts (ledger env s') ∧
      ∀ n q', (ledger env s').property a.recordId n = some q' → q'.Indexed := by
  obtain ⟨rec,o,t,hrec,ho,ht,htransferred⟩ :=
    (accepted_refines (reachable_refines hr).1 hacc).2.transferred hresp hrole
  exact ⟨rec,o,t,hrec,ho,ht,htransferred,fun n q' hq' => reachable_indexed (hr.snoc hacc) hsize hq'⟩

namespace Sample

/-- The second participant takes the record. -/
def taken : State := next (answer "B" 6 (taking "x" "B")) (after [offer "x"])

end Sample

theorem ownership_hands_over_sample :
    ∃ rec o t, (ledger Sample.env (Sample.after [Sample.offer "x"])).record "r" = some rec ∧
      rec.owners.getLast? = some o ∧
      (ledger Sample.env (Sample.after [Sample.offer "x"])).table rec.table = some t ∧
      Ledger.Transferred (ledger Sample.env (Sample.after [Sample.offer "x"])) "r" rec t
        o.participantId "B" 6 (ledger Sample.env Sample.taken) ∧
      ∀ n q', (ledger Sample.env Sample.taken).property "r" n = some q' → q'.Indexed := by
  obtain ⟨h,hr,_⟩ := @Sample.reachable [Sample.offer "x"] (by decide +kernel)
  have hacc : Accepted Sample.env (Sample.after [Sample.offer "x"])
      ⟨"B",6,.AnswerProposal (Sample.taking "x" "B")⟩ Sample.taken :=
    Sample.accepted_answer "B" 6 (Sample.taking "x" "B") _ (by decide +kernel)
  have hover := ownership_hands_over hr Sample.limitsSize hacc rfl rfl
  dsimp only [Sample.taking] at hover
  exact hover

/-! ## Who rewrites reporters -/

namespace Ledger

variable {range : String → Address} {L L' : Ledger} {tx : Tx} {r X : String} {names : List String}

/-- The transaction rewrites the reporters of properties: of which record, the names with
their repetitions, and what happens to a property each time. -/
inductive Edits (L : Ledger) (tx : Tx) : String → List String → (Property → Property) → Prop
  | handOver {a rec o t} (ha : tx.action = .AnswerProposal a) (hresp : a.response = .ACCEPT)
      (hrole : a.role = .transferOwnership) (hrec : L.record a.recordId = some rec)
      (ho : rec.owners.getLast? = some o) (ht : L.table rec.table = some t) :
      Edits L tx a.recordId (t.properties.map PropertySchema.name)
        (handOver o.participantId a.receivingParticipant)
  | authorize {a c rec} (ha : tx.action = .AnswerProposal a) (hresp : a.response = .ACCEPT)
      (hrole : a.role = .authorizeReporter) (hc : L.proposal a.proposalId = some c)
      (hrec : L.record a.recordId = some rec) :
      Edits L tx a.recordId c.properties (addReporter a.receivingParticipant)
  | revoke {a rec} (ha : tx.action = .RevokeReporter a) (hrec : L.record a.recordId = some rec) :
      Edits L tx a.recordId a.properties (revoke a.reporterId)

theorem Edits.record {f : Property → Property} (h : Edits L tx r names f) :
    ∃ rec, L.record r = some rec := by
  cases h with
  | handOver _ _ _ hrec | authorize _ _ _ _ hrec | revoke _ hrec => exact ⟨_,hrec⟩

/-- A step creates a record, reports updates, rewrites reporters, or leaves all properties
as they are. -/
theorem Step.edit_cases (h : Step range L tx L') :
    (∃ signer ts a t initial, tx = ⟨signer,ts,.CreateRecord a⟩ ∧
      Created range L signer ts a t initial L') ∨
    (∃ signer ts a rec, tx = ⟨signer,ts,.UpdateProperties a⟩ ∧ L.record a.recordId = some rec ∧
      Reports range a.recordId signer ts L a.properties L') ∨
    (∃ r names f, Edits L tx r names f ∧
      L'.property = (L.mapProperties range r names f).property) ∨
    (∀ a, tx.action ≠ .CreateRecord a) ∧ L'.property = L.property := by
  cases h with
  | createRecord hp hnew ht _ hprovided hinitial =>
    exact Or.inl ⟨_,_,_,_,_,rfl,⟨_,hp⟩,hnew,ht,hprovided,hinitial,rfl⟩
  | updateProperties hrec _ hus => exact Or.inr (Or.inl ⟨_,_,_,_,rfl,hrec,hus⟩)
  | acceptOwnership h hrole hrec ho ht =>
    exact Or.inr (Or.inr (Or.inl ⟨_,_,_,.handOver rfl h.response hrole hrec ho ht,rfl⟩))
  | acceptReporter h hrole hrec =>
    exact Or.inr (Or.inr (Or.inl ⟨_,_,_,.authorize rfl h.response hrole h.proposal hrec,rfl⟩))
  | revokeReporter howned =>
    exact Or.inr (Or.inr (Or.inl ⟨_,_,_,.revoke rfl howned.record,rfl⟩))
  | autoBuy | autoSell => exact Or.inr (Or.inr (Or.inr ⟨nofun,fill_property ..⟩))
  | _ => exact Or.inr (Or.inr (Or.inr ⟨nofun,rfl⟩))

/-! ## Revocation lasts -/

/-- The transaction accepts an answer that makes `X` a reporter of `r`, or its owner. -/
def Reauthorizes (r X : String) (tx : Tx) : Prop :=
  ∃ a, tx.action = .AnswerProposal a ∧ a.response = .ACCEPT ∧ a.recordId = r ∧
    a.receivingParticipant = X ∧ (a.role = .authorizeReporter ∨ a.role = .transferOwnership)

/-- No entry of `X` on any of these properties of `r` is authorized. -/
def Locked (r X : String) (names : List String) (L : Ledger) : Prop :=
  ∀ n ∈ names, ∀ q, L.property r n = some q → Barred X q

theorem Edits.barred {f : Property → Property} (h : Edits L tx r names f)
    (hno : ¬ Reauthorizes r X tx) (q : Property) (hq : Barred X q) : Barred X (f q) := by
  cases h with
  | handOver ha hresp hrole => exact hq.handOver fun he => hno ⟨_,ha,hresp,rfl,he,Or.inr hrole⟩
  | authorize ha hresp hrole =>
    exact hq.addReporter fun he => hno ⟨_,ha,hresp,rfl,he,Or.inl hrole⟩
  | revoke => exact hq.revoke

theorem Step.locked (hL : Homed range L) (hd : DistinctRanges range L')
    (hrec : ∃ rec, L.record r = some rec) (hno : ¬ Reauthorizes r X tx)
    (hstep : Step range L tx L') (h : Locked r X names L) : Locked r X names L' := by
  intro n hn q' hq'
  rcases hstep.edit_cases with ⟨_,_,a,_,_,_,hc⟩ | ⟨_,_,a,rec,_,hreca,hus⟩ |
      ⟨r',names',f,hedit,hprop⟩ | ⟨_,hprop⟩
  · obtain ⟨rec,hrec⟩ := hrec
    rw [hc.eq,initProperties_property,if_neg fun hhit => hc.range_ne hd hrec hhit.1] at hq'
    exact h n hn q' hq'
  · obtain ⟨q,hq,hturned⟩ := rel_some_right (hq' ▸ hus.turned_property hL ⟨rec,hreca⟩ r n)
    exact (h n hn q hq).turned hturned
  · rw [hprop,mapProperties_property] at hq'
    split at hq'
    · -- only `r` has this range
      rename_i hrange
      obtain ⟨rec,hrec⟩ := hrec
      obtain ⟨rec',hrec'⟩ := hedit.record
      obtain rfl : r = r' := hd.of_grown hstep.record_grown _ _ _ _ hrec hrec' hrange
      obtain ⟨q,hq,rfl⟩ := Option.map_eq_some_iff.mp hq'
      exact (h n hn q hq).iterate (hedit.barred hno) _
    · exact h n hn q' hq'
  · rw [hprop] at hq'
    exact h n hn q' hq'

theorem run_locked {h : List (Ledger × Tx)} (hL : Homed range L) (hd : DistinctRanges range L')
    (hrec : ∃ rec, L.record r = some rec) (hr : Run (Step range) L h L')
    (hno : ∀ e ∈ h, ¬ Reauthorizes r X e.2) (hlocked : Locked r X names L) :
    Locked r X names L' := by
  have hr' := (hr.of_end (DistinctRanges range)
    (fun _ _ _ hs hd => hd.of_grown hs.record_grown) hd).restrict _ hno
  have hstep : ∀ M tx M', Homed range M ∧ (∃ rec, M.record r = some rec) ∧ Locked r X names M →
      (Step range M tx M' ∧ DistinctRanges range M') ∧ ¬ Reauthorizes r X tx →
        Homed range M' ∧ (∃ rec, M'.record r = some rec) ∧ Locked r X names M' := by
    rintro M tx M' ⟨hM,hrec,hlocked⟩ ⟨⟨hs,hd⟩,hno⟩
    have hlocked' := hs.locked hM hd hrec hno hlocked
    obtain ⟨rec,hrec⟩ := hrec
    obtain ⟨rec',hrec',_⟩ := hs.record_grown r rec hrec
    exact ⟨hs.homed hM,⟨rec',hrec'⟩,hlocked'⟩
  exact (hr'.invariant _ hstep ⟨hL,hrec,hlocked⟩).2.2

/-- The reporters after a revocation: those of `X` on the named properties are not authorized,
all others are as before. -/
structure Revoked (L : Ledger) (a : RevokeReporterAction) (L' : Ledger) : Prop where
  locked : Locked a.recordId a.reporterId a.properties L'
  named : ∀ n ∈ a.properties, ∃ q q', L.property a.recordId n = some q ∧
    L'.property a.recordId n = some q' ∧ q' = { q with reporters := q'.reporters } ∧
      KeepsOthers [a.reporterId] q q'
  elsewhere : ∀ r n, (∃ rec, L.record r = some rec) → (r = a.recordId → n ∉ a.properties) →
    L'.property r n = L.property r n

theorem Step.revoked {signer : String} {ts : Nat} {a : RevokeReporterAction}
    (hd : DistinctRanges range L) (hstep : Step range L ⟨signer,ts,.RevokeReporter a⟩ L') :
    Revoked L a L' := by
  cases hstep with
  | revokeReporter howned hnodup hprops =>
    have hone : ∀ n ∈ a.properties, a.properties.count n = 1 := fun n hn =>
      List.count_eq_one_of_mem hnodup hn
    have hnamed : ∀ n ∈ a.properties, (L.mapProperties range a.recordId a.properties
        (revoke a.reporterId)).property a.recordId n =
          (L.property a.recordId n).map (revoke a.reporterId) := by
      intro n hn
      rw [mapProperties_property,if_pos rfl,hone n hn]
      rfl
    refine ⟨fun n hn q' hq' => ?_,fun n hn => ?_,fun r n hrec hn => ?_⟩
    · rw [hnamed n hn] at hq'
      obtain ⟨q,_,rfl⟩ := Option.map_eq_some_iff.mp hq'
      exact barred_revoke q
    · obtain ⟨q,hq,_⟩ := hprops n hn
      exact ⟨q,_,hq,by rw [hnamed n hn,hq]; rfl,rfl,keepsOthers_revoke q⟩
    · rw [mapProperties_property]
      split
      · rename_i hrange
        obtain ⟨rec,hrec⟩ := hrec
        have hr := hd _ _ _ _ hrec howned.record hrange
        rw [List.count_eq_zero_of_not_mem (hn hr)]
        exact Option.map_id'
      · rfl

theorem Step.revoked_record {signer : String} {ts : Nat} {a : RevokeReporterAction}
    (hstep : Step range L ⟨signer,ts,.RevokeReporter a⟩ L') :
    ∃ rec, L'.record a.recordId = some rec := by
  cases hstep with
  | revokeReporter howned => exact ⟨_,howned.record⟩

end Ledger

/-- After a revocation the reporter cannot update the properties until it is authorized again
or gets the record. -/
theorem revocation_lasts {env : Env} {h h' : List (State × Tx)} {s s₁ s' : State}
    {owner : String} {ts : Nat} {a : RevokeReporterAction} (hr : Reachable env h s)
    (hacc : Accepted env s ⟨owner,ts,.RevokeReporter a⟩ s₁) (hrun : Run (Accepted env) s₁ h' s')
    (hd : DistinctAddresses env s')
    (hno : ∀ e ∈ h', ¬ Ledger.Reauthorizes a.recordId a.reporterId e.2) :
    Ledger.Revoked (ledger env s) a (ledger env s₁) ∧
    ∀ t b, b.recordId = a.recordId → (∃ u ∈ b.properties, u.name ∈ a.properties) →
      ¬ ∃ s'', Accepted env s' ⟨a.reporterId,t,.UpdateProperties b⟩ s'' := by
  have hr₁ : Reachable env ((s,⟨owner,ts,.RevokeReporter a⟩) :: h) s₁ := hr.snoc hacc
  have hstep := (accepted_refines (reachable_refines hr).1 hacc).2
  have hrun' := (run_refines (reachable_refines hr₁).1 hrun).2
  have hd₁ := hd.of_grown (Ledger.run_record_grown hrun')
  have hrevoked := hstep.revoked (hd₁.of_grown hstep.record_grown)
  have hlocked := Ledger.run_locked (reachable_homed hr₁) hd hstep.revoked_record hrun'
    (forall_ledgers.mpr hno) hrevoked.locked
  refine ⟨hrevoked,?_⟩
  rintro t b hb ⟨u,hu,hn⟩ ⟨s'',hupdate⟩
  have hreach := Run.trans hr₁ hrun
  have hupdates := (Ledger.step_updateProperties_iff (reachable_paging hreach)).mp
    ⟨_,(accepted_refines (reachable_refines hreach).1 hupdate).2⟩
  obtain ⟨q,hq⟩ := hupdates.properties u hu
  obtain ⟨rep,hrep,hkey,hauth⟩ := hq.authorized
  have hbarred := hlocked u.name hn q (hb ▸ hq.property) rep hrep hkey
  rw [hauth] at hbarred
  exact nomatch hbarred

namespace Sample

/-- The first participant revokes its own authorization, and then offers the record. -/
def revoking : RevokeReporterAction :=
  { recordId := "r", reporterId := "A", properties := ["p"] }

def revocation : TpProcessRequest :=
  request "A" { action := .REVOKE_REPORTER, timestamp := 5, revokeReporter := revoking }

def revoked : State := next revocation (after [])

def revokedAndOffered : State := next (offer "x") revoked

end Sample

theorem revocation_lasts_sample :
    Ledger.Revoked (ledger Sample.env (Sample.after [])) Sample.revoking
      (ledger Sample.env Sample.revoked) ∧
    ∀ t b, b.recordId = "r" → (∃ u ∈ b.properties, u.name ∈ ["p"]) →
      ¬ ∃ s'', Accepted Sample.env Sample.revokedAndOffered ⟨"A",t,.UpdateProperties b⟩ s'' := by
  have hrun := @Sample.after_eq [] (by decide +kernel)
  obtain ⟨h,hr,_⟩ := replay_run hrun
  have hrevoke : (apply Sample.env Sample.orders Sample.revocation
      (Sample.after [])).isOk = true := by decide +kernel
  have hoffer : (apply Sample.env Sample.orders (Sample.offer "x") Sample.revoked).isOk = true := by
    decide +kernel
  have hacc : Accepted Sample.env (Sample.after []) ⟨"A",5,.RevokeReporter Sample.revoking⟩
      Sample.revoked := ⟨Sample.orders,Sample.revocation,rfl,Sample.next_eq hrevoke⟩
  have hacc' : Accepted Sample.env Sample.revoked
      ⟨"A",5,.CreateProposal (Sample.offering "x")⟩ Sample.revokedAndOffered :=
    ⟨Sample.orders,Sample.offer "x",rfl,Sample.next_eq hoffer⟩
  have hd := replay_distinctAddresses (replay_snoc (replay_snoc hrun (Sample.next_eq hrevoke))
    (Sample.next_eq hoffer)) (by decide +kernel)
  refine revocation_lasts hr hacc (.snoc .nil hacc') hd ?_
  rintro e he ⟨a,ha,_⟩
  obtain rfl := List.mem_singleton.mp he
  exact nomatch ha

end DgcRestApi
