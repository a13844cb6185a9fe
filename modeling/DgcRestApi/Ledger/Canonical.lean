import DgcRestApi.Ledger.View

/-!
# The canonical form of the state

Every container of the state has at least one entry, is strictly sorted by key and sits at
an address of its own kind. Then no getter fails, the setters of the handler keep the form,
and a state is determined by the ledger it stands for: two ways of storing the same objects
store the same bytes.
-/

namespace DgcRestApi
open Addressing Fallible Keyed

/-- Sorted by key, and no key occurs twice. -/
def Kind.Sorted {α κ : Type} [LinearOrder κ] (K : Kind α κ) (es : List α) : Prop :=
  es.Pairwise fun a b => K.key a < K.key b

def Container.Sorted : Container → Prop
  | .participants es => participantKind.Sorted es
  | .records es => recordKind.Sorted es
  | .tables es => tableKind.Sorted es
  | .properties es => propertyKind.Sorted es
  | .propertyPages es => propertyPageKind.Sorted es
  | .proposals es => proposalKind.Sorted es
  | .exchanges es => exchangeKind.Sorted es

/-- Some entry of the container has the address; a page is never at number 0, where the
properties are. -/
def Housed (sha : Sha512) (A : Address) : Container → Prop
  | .participants es => ∃ e ∈ es, A = makeParticipantAddress sha e.publicKey
  | .records es => ∃ e ∈ es, A = makeRecordAddress sha e.recordId
  | .tables es => ∃ e ∈ es, A = makeTableAddress sha e.name
  | .properties es => ∃ e ∈ es, A = makePropertyAddress sha e.recordId e.name 0
  | .propertyPages es =>
    ∃ e ∈ es, ∃ k, k ≠ 0 ∧ A = makePropertyAddress sha e.recordId e.name k
  | .proposals es => ∃ e ∈ es, A = makeProposalAddress sha e.proposalId
  | .exchanges es => ∃ e ∈ es, A = makeExchangeAddress sha e.buyProposalId e.sellProposalId

structure Canonical (env : Env) (s : State) : Prop where
  stored : Stored env s
  sorted : ∀ A c, s A = some c → c.Sorted
  housed : ∀ A c, s A = some c → Housed env.sha A c

theorem canonical_empty (env : Env) : Canonical env State.empty :=
  ⟨stored_empty env,nofun,nofun⟩

/-- The only error of a setter: a container that cannot be serialized. -/
def Unwritable (env : Env) (e : ApplyError) : Prop :=
  (∃ m, e = .InternalError m) ∧ ∃ c, env.writeToBytes c = false

section Codes

variable {sha : Sha512}

/-- The two digits after the family prefix. -/
def typeCode (A : Address) : Address := (A.drop 6).take 2

def Container.code : Container → Address
  | .participants _ => PARTICIPANT
  | .records _ => RECORD
  | .tables _ => TABLE
  | .properties _ => PROPERTY
  | .propertyPages _ => PROPERTY
  | .proposals _ => PROPOSAL
  | .exchanges _ => EXCHANGE

theorem typeCode_append {code rest : Address} (hcode : code.length = 2) :
    typeCode (getDgcRestApiPrefix sha ++ code ++ rest) = code := by
  rw [typeCode,List.append_assoc,List.drop_left' length_getDgcRestApiPrefix,
    List.take_left' hcode]

@[simp] theorem typeCode_participant (k : String) :
    typeCode (makeParticipantAddress sha k) = PARTICIPANT := typeCode_append rfl

@[simp] theorem typeCode_record (r : String) : typeCode (makeRecordAddress sha r) = RECORD :=
  typeCode_append rfl

@[simp] theorem typeCode_table (n : String) : typeCode (makeTableAddress sha n) = TABLE :=
  typeCode_append rfl

@[simp] theorem typeCode_property (r n : String) (k : Nat) :
    typeCode (makePropertyAddress sha r n k) = PROPERTY := by
  rw [makePropertyAddress,makePropertyAddressRange,List.append_assoc,List.append_assoc]
  exact typeCode_append rfl

@[simp] theorem typeCode_proposal (x : String) :
    typeCode (makeProposalAddress sha x) = PROPOSAL := typeCode_append rfl

@[simp] theorem typeCode_exchange (b v : String) :
    typeCode (makeExchangeAddress sha b v) = EXCHANGE := by
  rw [makeExchangeAddress,List.append_assoc]
  exact typeCode_append rfl

/-- The digits behind the codes. -/
theorem codes : PARTICIPANT = ['a','e'] ∧ PROPERTY = ['e','a'] ∧ PROPOSAL = ['a','a'] ∧
    RECORD = ['e','c'] ∧ TABLE = ['e','e'] ∧ EXCHANGE = ['c','e'] :=
  ⟨rfl,rfl,rfl,rfl,rfl,rfl⟩

/-- The code of an address says which kind of container it holds. -/
theorem Housed.code {A : Address} {c : Container} (h : Housed sha A c) :
    typeCode A = c.code := by
  cases c with
  | participants es => obtain ⟨e,_,rfl⟩ := h; exact typeCode_participant _
  | records es => obtain ⟨e,_,rfl⟩ := h; exact typeCode_record _
  | tables es => obtain ⟨e,_,rfl⟩ := h; exact typeCode_table _
  | properties es => obtain ⟨e,_,rfl⟩ := h; exact typeCode_property _ _ _
  | propertyPages es => obtain ⟨e,_,k,_,rfl⟩ := h; exact typeCode_property _ _ _
  | proposals es => obtain ⟨e,_,rfl⟩ := h; exact typeCode_proposal _
  | exchanges es => obtain ⟨e,_,rfl⟩ := h; exact typeCode_exchange _ _

end Codes

section Loads

variable {α κ : Type} [LinearOrder κ] {K : Kind α κ} {env : Env} {s : State} {A : Address}

omit [LinearOrder κ] in
theorem Canonical.loads (hs : Canonical env s)
    (hK : ∀ c, Housed env.sha A c → typeCode A = c.code → ∃ es, c = K.wrap es) :
    ∃ es, loadEntries K s A = .ok es := by
  cases hA : s A with
  | none => exact ⟨[],loadEntries_eq_ok.mpr (Or.inl ⟨hA,rfl⟩)⟩
  | some c =>
    have hc := hs.housed A c hA
    obtain ⟨es,rfl⟩ := hK c hc hc.code
    exact ⟨es,loadEntries_eq_ok.mpr (Or.inr hA)⟩

theorem Canonical.loads_participant (hs : Canonical env s) (k : String) :
    ∃ es, loadEntries participantKind s (makeParticipantAddress env.sha k) = .ok es := by
  refine hs.loads fun c _ hcode => ?_
  rw [typeCode_participant] at hcode
  cases c with
  | participants es => exact ⟨es,rfl⟩
  | _ => exact absurd hcode (by simp [Container.code,codes])

theorem Canonical.loads_record (hs : Canonical env s) (r : String) :
    ∃ es, loadEntries recordKind s (makeRecordAddress env.sha r) = .ok es := by
  refine hs.loads fun c _ hcode => ?_
  rw [typeCode_record] at hcode
  cases c with
  | records es => exact ⟨es,rfl⟩
  | _ => exact absurd hcode (by simp [Container.code,codes])

theorem Canonical.loads_table (hs : Canonical env s) (n : String) :
    ∃ es, loadEntries tableKind s (makeTableAddress env.sha n) = .ok es := by
  refine hs.loads fun c _ hcode => ?_
  rw [typeCode_table] at hcode
  cases c with
  | tables es => exact ⟨es,rfl⟩
  | _ => exact absurd hcode (by simp [Container.code,codes])

/-- Page numbers keep properties and pages apart. -/
theorem Canonical.loads_property (hs : Canonical env s) (r n : String) :
    ∃ es, loadEntries propertyKind s (makePropertyAddress env.sha r n 0) = .ok es := by
  refine hs.loads fun c hc hcode => ?_
  rw [typeCode_property] at hcode
  cases c with
  | properties es => exact ⟨es,rfl⟩
  | propertyPages es =>
    obtain ⟨e,_,k,hk,hA⟩ := hc
    exact absurd (makePropertyAddress_inj hA).2.2.symm hk
  | _ => exact absurd hcode (by simp [Container.code,codes])

theorem Canonical.loads_page (hs : Canonical env s) (r n : String) {k : Nat} (hk : k ≠ 0) :
    ∃ es, loadEntries propertyPageKind s (makePropertyAddress env.sha r n k) = .ok es := by
  refine hs.loads fun c hc hcode => ?_
  rw [typeCode_property] at hcode
  cases c with
  | propertyPages es => exact ⟨es,rfl⟩
  | properties es =>
    obtain ⟨e,_,hA⟩ := hc
    exact absurd (makePropertyAddress_inj hA).2.2 hk
  | _ => exact absurd hcode (by simp [Container.code,codes])

theorem Canonical.loads_proposal (hs : Canonical env s) (x : String) :
    ∃ es, loadEntries proposalKind s (makeProposalAddress env.sha x) = .ok es := by
  refine hs.loads fun c _ hcode => ?_
  rw [typeCode_proposal] at hcode
  cases c with
  | proposals es => exact ⟨es,rfl⟩
  | _ => exact absurd hcode (by simp [Container.code,codes])

theorem Canonical.loads_exchange (hs : Canonical env s) (b v : String) :
    ∃ es, loadEntries exchangeKind s (makeExchangeAddress env.sha b v) = .ok es := by
  refine hs.loads fun c _ hcode => ?_
  rw [typeCode_exchange] at hcode
  cases c with
  | exchanges es => exact ⟨es,rfl⟩
  | _ => exact absurd hcode (by simp [Container.code,codes])

omit [LinearOrder κ] in
theorem canonical_update (hs : Canonical env s) {c : Container}
    (hstored : Stored env (Function.update s A (some c))) (hsorted : c.Sorted)
    (hhoused : Housed env.sha A c) : Canonical env (Function.update s A (some c)) := by
  refine ⟨hstored,fun B d hd => ?_,fun B d hd => ?_⟩
  · by_cases hB : B = A
    · subst hB
      rw [Function.update_self,Option.some.injEq] at hd
      exact hd ▸ hsorted
    · exact hs.sorted B d (by rwa [Function.update_of_ne hB] at hd)
  · by_cases hB : B = A
    · subst hB
      rw [Function.update_self,Option.some.injEq] at hd
      exact hd ▸ hhoused
    · exact hs.housed B d (by rwa [Function.update_of_ne hB] at hd)

/-- Storing distinct entries at a home address: the form is kept, and only a serialization
that fails is an error. -/
theorem storeEntries_ends {es : List α} (hs : Canonical env s)
    (hstored : ∀ s', storeEntries K env s A es = .ok s' → Stored env s')
    (hsorted : ∀ es, K.Sorted es → (K.wrap es).Sorted) (hdistinct : Distinct K.key es)
    (hhoused : Housed env.sha A (K.wrap (sortByKey K.key es))) :
    Ends (storeEntries K env s A es) (Canonical env) (Unwritable env) := by
  constructor
  · intro s' h
    have hst := hstored s' h
    obtain ⟨_,rfl⟩ := storeEntries_eq_ok.mp h
    exact canonical_update hs hst (hsorted _ (sortByKey_increasing hdistinct)) hhoused
  · simp only [storeEntries]
    split
    · exact raises_ok _
    · next hw => exact raises_error ⟨⟨_,rfl⟩,_,by simpa using hw⟩

/-- The removal, the push and the sort of a setter keep the form. -/
theorem setEntry_ends {k : κ} {e : α} (hs : Canonical env s)
    (hload : ∃ es, loadEntries K s A = .ok es) {home : α → Prop}
    (hK : ∀ es, Lodged env.sha A (K.wrap es) ↔ Distinct K.key es ∧ ∀ e ∈ es, home e)
    (hsorted : ∀ es, K.Sorted es → (K.wrap es).Sorted)
    (hhoused : ∀ es, e ∈ es → Housed env.sha A (K.wrap es)) (he : home e) (hk : K.key e = k) :
    Ends (setEntry K env s A k e) (Canonical env) (Unwritable env) := by
  have hstored : ∀ s', setEntry K env s A k e = .ok s' → Stored env s' := fun s' h =>
    (put_of_setEntry hs.stored home hK he hk h).stored
  obtain ⟨old,hold⟩ := hload
  rw [setEntry_eq,hold] at hstored ⊢
  subst hk
  refine storeEntries_ends hs hstored hsorted ?_ (hhoused _ ?_)
  · exact distinct_replace (stored_load hs.stored hK hold).1 e
  · exact (mem_sortByKey _).mpr (List.mem_append_right _ (List.mem_singleton_self e))

/-- A getter of a state in canonical form never fails. -/
theorem getEntry_eq (hload : ∃ es, loadEntries K s A = .ok es) (k : κ) :
    getEntry K s A k = .ok (lookupEntry K s A k) := by
  obtain ⟨es,hes⟩ := hload
  rw [lookupEntry_of_load hes,getEntry,hes]
  rfl

end Loads

/-- One call of a setter of `StateDGC`, with its arguments. -/
inductive Setter
  | participant (participantId : String) (participant : Participant)
  | record (recordId : String) (record : Record)
  | table (name : String) (table : Table)
  | property (recordId propertyName : String) (property : Property)
  | propertyPage (recordId propertyName : String) (pageNum : Nat) (propertyPage : PropertyPage)
  | proposal (proposalId : String) (proposal : Proposal)
  | exchange (buyProposalId sellProposalId : String) (exchange : Exchange)

namespace Setter

def run (env : Env) (state : State) : Setter → Except ApplyError State
  | participant k p => setParticipant env state k p
  | record r rec => setRecord env state r rec
  | table n t => setTable env state n t
  | property r n q => setProperty env state r n q
  | propertyPage r n k page => setPropertyPage env state r n k page
  | proposal x c => setProposal env state x c
  | exchange b v e => setExchange env state b v e

/-- The call is made as the handler makes it: the object's key is the key argument (for
properties and pages up to records of one address range), a table is set only when there is
none, and a page has a number other than 0. -/
def Keyed (env : Env) (state : State) : Setter → Prop
  | participant k p => p.publicKey = k
  | record r rec => rec.recordId = r
  | table n t => t.name = n ∧ getTable env state n = .ok none
  | property r n q => q.name = n ∧ env.range q.recordId = env.range r
  | propertyPage r n k page => page.name = n ∧ env.range page.recordId = env.range r ∧ k ≠ 0
  | proposal x c => c.proposalId = x
  | exchange b v e => exchangeKind.key e = toLex (b,v)

/-- The call as an update of the ledger. -/
def effect (range : String → Address) (L : Ledger) : Setter → Ledger
  | participant k p => L.setParticipant k p
  | record r rec => L.setRecord r rec
  | table n t => L.setTable n t
  | property r n q => L.setProperty range r n q
  | propertyPage r n k page => L.setPage range r n k page
  | proposal x c => L.setProposal x c
  | exchange b v e => L.setExchange (toLex (b,v)) e

variable {env : Env} {s s' : State}

/-- A setter of the handler refines the update of the ledger. -/
theorem run_spec {c : Setter} (hs : Stored env s) (hc : c.Keyed env s)
    (h : c.run env s = .ok s') :
    Stored env s' ∧ ledger env s' = c.effect env.range (ledger env s) := by
  cases c with
  | participant k p => exact setParticipant_spec hs h hc
  | record r rec => exact setRecord_spec hs h hc
  | table n t => exact setTable_spec hs h hc.1 (found_of_ok hc.2)
  | property r n q => exact setProperty_spec hs h hc.1 hc.2
  | propertyPage r n k page => exact setPropertyPage_spec hs h hc.1 hc.2.1
  | proposal x c => exact setProposal_spec hs h hc
  | exchange b v e => exact setExchange_spec hs h hc

/-- A setter of the handler keeps the canonical form. -/
theorem run_canonical {c : Setter} (hs : Canonical env s) (hc : c.Keyed env s) :
    Ends (c.run env s) (Canonical env) (Unwritable env) := by
  cases c with
  | participant k p =>
    exact setEntry_ends hs (hs.loads_participant k) (fun _ => Iff.rfl) (fun _ h => h)
      (fun _ he => ⟨p,he,congrArg _ hc.symm⟩) (congrArg _ hc.symm) hc
  | record r rec =>
    exact setEntry_ends hs (hs.loads_record r) (fun _ => Iff.rfl) (fun _ h => h)
      (fun _ he => ⟨rec,he,congrArg _ hc.symm⟩) (congrArg _ hc.symm) hc
  | table n t =>
    have hstored : ∀ s', setTable env s n t = .ok s' → Stored env s' := fun s' h =>
      (setTable_spec hs.stored h hc.1 (found_of_ok hc.2)).1
    obtain ⟨old,hold⟩ := hs.loads_table n
    -- the table setter pushes without a removal: no table of the name is stored
    have habsent : ∀ b ∈ old, tableKind.key b ≠ tableKind.key t := by
      have hnone : lookupEntry tableKind s (makeTableAddress env.sha n) n = none :=
        found_of_ok hc.2
      rw [lookupEntry_of_load hold] at hnone
      rw [show tableKind.key t = n from hc.1]
      exact find_eq_none_iff.mp hnone
    have hdistinct : Distinct tableKind.key old :=
      (stored_load (K := tableKind) hs.stored (fun _ => Iff.rfl) hold).1
    simp only [run,setTable,hold] at hstored ⊢
    refine storeEntries_ends hs hstored (fun _ h => h) (distinct_push hdistinct habsent) ?_
    exact ⟨t,(mem_sortByKey _).mpr (List.mem_append_right _ (List.mem_singleton_self t)),
      congrArg _ hc.1.symm⟩
  | property r n q =>
    have hA : makePropertyAddress env.sha r n 0 = makePropertyAddress env.sha q.recordId q.name 0 :=
      by rw [hc.1]; exact makePropertyAddress_eq_iff.mpr ⟨hc.2.symm,rfl⟩
    exact setEntry_ends hs (hs.loads_property r n) (fun _ => Iff.rfl) (fun _ h => h)
      (fun _ he => ⟨q,he,hA⟩) hA hc.1
  | propertyPage r n k page =>
    have hA : makePropertyAddress env.sha r n k =
        makePropertyAddress env.sha page.recordId page.name k := by
      rw [hc.1]
      exact makePropertyAddress_eq_iff.mpr ⟨hc.2.1.symm,rfl⟩
    exact setEntry_ends hs (hs.loads_page r n hc.2.2) (fun _ => Iff.rfl) (fun _ h => h)
      (fun _ he => ⟨page,he,k,hc.2.2,hA⟩) ⟨k,hA⟩ hc.1
  | proposal x c =>
    exact setEntry_ends hs (hs.loads_proposal x) (fun _ => Iff.rfl) (fun _ h => h)
      (fun _ he => ⟨c,he,congrArg _ hc.symm⟩) (congrArg _ hc.symm) hc
  | exchange b v e =>
    obtain ⟨hb,hv⟩ : e.buyProposalId = b ∧ e.sellProposalId = v :=
      Prod.mk.inj (toLex.injective hc)
    have hA : makeExchangeAddress env.sha b v =
        makeExchangeAddress env.sha e.buyProposalId e.sellProposalId := by rw [hb,hv]
    exact setEntry_ends hs (hs.loads_exchange b v) (fun _ => Iff.rfl) (fun _ h => h)
      (fun _ he => ⟨e,he,hA⟩) hA hc

/-- Canonical form and effect of a setter in one judgement. -/
theorem run_ends {c : Setter} (hs : Canonical env s) (hc : c.Keyed env s) :
    Ends (c.run env s) (fun s' => Canonical env s' ∧
      ledger env s' = c.effect env.range (ledger env s)) (Unwritable env) :=
  ⟨fun _ h => ⟨(run_canonical hs hc).1 _ h,(run_spec hs.stored hc h).2⟩,(run_canonical hs hc).2⟩

end Setter

section Extensionality

variable {env : Env} {s s' : State} {A : Address}

/-- Two sorted containers of one kind with the same lookups are equal. -/
theorem wrap_eq {α κ : Type} [LinearOrder κ] {K : Kind α κ} {es : List α} {e : α}
    (hsorted : ∀ es, (s A = some (K.wrap es) ∨ s' A = some (K.wrap es)) →
      Distinct K.key es ∧ K.Sorted es)
    (hlook : ∀ es e, (s A = some (K.wrap es) ∨ s' A = some (K.wrap es)) → e ∈ es →
      lookupEntry K s A (K.key e) = lookupEntry K s' A (K.key e))
    (hA : s A = some (K.wrap es)) (he : e ∈ es) : s' A = some (K.wrap es) := by
  have hes := hsorted es (Or.inl hA)
  have hfound : ∀ e ∈ es, lookupEntry K s' A (K.key e) = some e := fun e he => by
    rw [← hlook es e (Or.inl hA) he]
    exact lookupEntry_eq_some.mpr ⟨es,hA,(find_eq_some_iff hes.1).mpr ⟨he,rfl⟩⟩
  obtain ⟨es',hA',_⟩ := lookupEntry_eq_some.mp (hfound e he)
  have hes' := hsorted es' (Or.inr hA')
  have hload : loadEntries K s A = .ok es := loadEntries_eq_ok.mpr (Or.inr hA)
  have hload' : loadEntries K s' A = .ok es' := loadEntries_eq_ok.mpr (Or.inr hA')
  have hmem : ∀ a, a ∈ es ↔ a ∈ es' := by
    intro a
    constructor
    · intro ha
      have hfind := hfound a ha
      rw [lookupEntry_of_load hload'] at hfind
      exact (find_some hfind).1
    · intro ha
      have hfind := hlook es' a (Or.inr hA') ha
      rw [lookupEntry_of_load hload,lookupEntry_of_load hload',
        (find_eq_some_iff hes'.1).mpr ⟨ha,rfl⟩] at hfind
      exact (find_some hfind).1
  rw [hA',eq_of_increasing hes.2 hes'.2 hmem]

/-- What holds of a container in either of two canonical states. -/
theorem either {P : Prop} {c : Container} (hs : Canonical env s) (hs' : Canonical env s')
    (h : s A = some c ∨ s' A = some c) (hP : Lodged env.sha A c → c.Sorted → P) : P := by
  rcases h with h | h
  · exact hP (hs.stored A c h).2 (hs.sorted A c h)
  · exact hP (hs'.stored A c h).2 (hs'.sorted A c h)

theorem container_of_ledger {c : Container} (hs : Canonical env s) (hs' : Canonical env s')
    (h : ledger env s = ledger env s') (hA : s A = some c) : s' A = some c := by
  cases c with
  | participants es =>
    obtain ⟨e,he,_⟩ := hs.housed A _ hA
    refine wrap_eq (K := participantKind) (fun _ h => either hs hs' h fun hl hc => ⟨hl.1,hc⟩)
      (fun es e hes he => ?_) hA he
    rw [either hs hs' hes fun hl _ => hl.2 e he]
    exact congrFun (congrArg Ledger.participant h) e.publicKey
  | records es =>
    obtain ⟨e,he,_⟩ := hs.housed A _ hA
    refine wrap_eq (K := recordKind) (fun _ h => either hs hs' h fun hl hc => ⟨hl.1,hc⟩)
      (fun es e hes he => ?_) hA he
    rw [either hs hs' hes fun hl _ => hl.2 e he]
    exact congrFun (congrArg Ledger.record h) e.recordId
  | tables es =>
    obtain ⟨e,he,_⟩ := hs.housed A _ hA
    refine wrap_eq (K := tableKind) (fun _ h => either hs hs' h fun hl hc => ⟨hl.1,hc⟩)
      (fun es e hes he => ?_) hA he
    rw [either hs hs' hes fun hl _ => hl.2 e he]
    exact congrFun (congrArg Ledger.table h) e.name
  | properties es =>
    obtain ⟨e,he,_⟩ := hs.housed A _ hA
    refine wrap_eq (K := propertyKind) (fun _ h => either hs hs' h fun hl hc => ⟨hl.1,hc⟩)
      (fun es e hes he => ?_) hA he
    rw [either hs hs' hes fun hl _ => hl.2 e he]
    exact congrFun (congrFun (congrArg Ledger.property h) e.recordId) e.name
  | propertyPages es =>
    obtain ⟨e,he,_⟩ := hs.housed A _ hA
    refine wrap_eq (K := propertyPageKind) (fun _ h => either hs hs' h fun hl hc => ⟨hl.1,hc⟩)
      (fun es e hes he => ?_) hA he
    obtain ⟨k,hk⟩ := either hs hs' hes fun hl _ => hl.2 e he
    rw [hk]
    exact congrFun (congrFun (congrFun (congrArg Ledger.page h) e.recordId) e.name) k
  | proposals es =>
    obtain ⟨e,he,_⟩ := hs.housed A _ hA
    refine wrap_eq (K := proposalKind) (fun _ h => either hs hs' h fun hl hc => ⟨hl.1,hc⟩)
      (fun es e hes he => ?_) hA he
    rw [either hs hs' hes fun hl _ => hl.2 e he]
    exact congrFun (congrArg Ledger.proposal h) e.proposalId
  | exchanges es =>
    obtain ⟨e,he,_⟩ := hs.housed A _ hA
    refine wrap_eq (K := exchangeKind) (fun _ h => either hs hs' h fun hl hc => ⟨hl.1,hc⟩)
      (fun es e hes he => ?_) hA he
    rw [either hs hs' hes fun hl _ => hl.2 e he]
    exact congrFun (congrArg Ledger.exchange h) (toLex (e.buyProposalId,e.sellProposalId))

/-- A canonical state is determined by its ledger. -/
theorem Canonical.ext (hs : Canonical env s) (hs' : Canonical env s')
    (h : ledger env s = ledger env s') : s = s' := by
  funext A
  cases hA : s A with
  | some c => rw [container_of_ledger hs hs' h hA]
  | none =>
    cases hA' : s' A with
    | none => rfl
    | some c =>
      rw [container_of_ledger hs' hs h.symm hA'] at hA
      exact nomatch hA

end Extensionality

end DgcRestApi
