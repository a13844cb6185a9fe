import DgcRestApi.Ledger.Canonical
import DgcRestApi.Processor.Replay

/-!
# The store as a map

A run of setter calls from the empty state, whatever the digest does. The getters of
participants, records, tables, proposals and exchanges return what was last set under
their key. Properties and pages of records whose address ranges coincide share one slot
for each name, and the last one set wins.
-/

namespace DgcRestApi
open Addressing Fallible Keyed

namespace Setter

/-- The call as the handler makes it, for an object of the record it names. -/
def Proper (env : Env) (state : State) (c : Setter) : Prop :=
  c.Keyed env state ∧ match c with
    | property r _ q => q.recordId = r
    | propertyPage r _ _ page => page.recordId = r
    | _ => True

/-- The participant the call sets under the key, if it does. -/
def participantAt (k : String) : Setter → Option Participant
  | participant k' p => if k' = k then some p else none
  | _ => none

def recordAt (r : String) : Setter → Option Record
  | record r' rec => if r' = r then some rec else none
  | _ => none

def tableAt (n : String) : Setter → Option Table
  | table n' t => if n' = n then some t else none
  | _ => none

def proposalAt (x : String) : Setter → Option Proposal
  | proposal x' c => if x' = x then some c else none
  | _ => none

def exchangeAt (b v : String) : Setter → Option Exchange
  | exchange b' v' e => if b' = b ∧ v' = v then some e else none
  | _ => none

/-- The property the call sets for a record of the address range under the name. -/
def propertyAt (env : Env) (r n : String) : Setter → Option Property
  | property r' n' q => if env.range r' = env.range r ∧ n' = n then some q else none
  | _ => none

def pageAt (env : Env) (r n : String) (k : Nat) : Setter → Option PropertyPage
  | propertyPage r' n' k' page =>
    if env.range r' = env.range r ∧ n' = n ∧ k' = k then some page else none
  | _ => none

end Setter

/-- Calls of the setters, newest first, that lead from the empty state to `s`. -/
abbrev Calls (env : Env) (history : List (State × Setter)) (s : State) : Prop :=
  Run (fun s c s' => c.Proper env s ∧ c.run env s = .ok s') State.empty history s

/-- What was last set under the key that `slot` looks at. -/
def lastSet {α : Type} (slot : Setter → Option α) (history : List (State × Setter)) : Option α :=
  history.findSome? fun e => slot e.2

section Effects

variable (range : String → Address) (L : Ledger) (c : Setter)

theorem effect_participant (k : String) :
    (c.effect range L).participant k = (c.participantAt k).or (L.participant k) := by
  cases c with
  | participant k' p =>
    simp only [Setter.effect,Ledger.setParticipant_participant,Function.update_apply,
      Setter.participantAt,eq_comm]
    split <;> rfl
  | _ => rfl

theorem effect_record (r : String) :
    (c.effect range L).record r = (c.recordAt r).or (L.record r) := by
  cases c with
  | record r' rec =>
    simp only [Setter.effect,Ledger.setRecord_record,Function.update_apply,Setter.recordAt,eq_comm]
    split <;> rfl
  | _ => rfl

theorem effect_table (n : String) :
    (c.effect range L).table n = (c.tableAt n).or (L.table n) := by
  cases c with
  | table n' t =>
    simp only [Setter.effect,Ledger.setTable_table,Function.update_apply,Setter.tableAt,eq_comm]
    split <;> rfl
  | _ => rfl

theorem effect_proposal (x : String) :
    (c.effect range L).proposal x = (c.proposalAt x).or (L.proposal x) := by
  cases c with
  | proposal x' c =>
    simp only [Setter.effect,Ledger.setProposal_proposal,Function.update_apply,
      Setter.proposalAt,eq_comm]
    split <;> rfl
  | _ => rfl

theorem effect_exchange (b v : String) : (c.effect range L).exchange (toLex (b,v)) =
    (c.exchangeAt b v).or (L.exchange (toLex (b,v))) := by
  cases c with
  | exchange b' v' e =>
    have hkey : toLex (b,v) = toLex (b',v') ↔ b' = b ∧ v' = v := by
      rw [toLex.apply_eq_iff_eq,Prod.mk.injEq,eq_comm,@eq_comm _ v]
    simp only [Setter.effect,Ledger.setExchange_exchange,Function.update_apply,
      Setter.exchangeAt,hkey]
    split <;> rfl
  | _ => rfl

variable {env : Env}

theorem effect_property (r n : String) : (c.effect env.range L).property r n =
    (c.propertyAt env r n).or (L.property r n) := by
  cases c with
  | property r' n' q =>
    simp only [Setter.effect,Ledger.setProperty_property,Setter.propertyAt,
      @eq_comm _ (env.range r),@eq_comm _ n]
    split <;> rfl
  | _ => rfl

theorem effect_page (r n : String) (k : Nat) : (c.effect env.range L).page r n k =
    (c.pageAt env r n k).or (L.page r n k) := by
  cases c with
  | propertyPage r' n' k' page =>
    simp only [Setter.effect,Ledger.setPage_page,Setter.pageAt,
      @eq_comm _ (env.range r),@eq_comm _ n,@eq_comm _ k]
    split <;> rfl
  | _ => rfl

end Effects

section Runs

variable {env : Env} {history : List (State × Setter)} {s s' : State}

theorem calls_canonical (hr : Calls env history s) : Canonical env s :=
  hr.invariant (Canonical env) (fun _ _ _ hs h => (Setter.run_canonical hs h.1.1).1 _ h.2)
    (canonical_empty env)

/-- A lookup that each call updates by `slot` finds what was last set. -/
theorem lookup_lastSet {α : Type} (read : Ledger → Option α) {slot : Setter → Option α}
    (hempty : read (ledger env State.empty) = none)
    (hstep : ∀ L c, read (Setter.effect env.range L c) = (slot c).or (read L))
    (hr : Calls env history s) : read (ledger env s) = lastSet slot history := by
  induction hr with
  | nil => exact hempty
  | @snoc history s s' c hr h ih =>
    rw [(Setter.run_spec (calls_canonical hr).stored h.1.1 h.2).2,hstep,ih,lastSet,lastSet,
      List.findSome?_cons]
    cases slot c <;> rfl

theorem getParticipant_lastSet (hr : Calls env history s) (k : String) :
    getParticipant env s k = .ok (lastSet (Setter.participantAt k) history) := by
  rw [← lookup_lastSet (fun L => L.participant k) rfl
    (fun L c => effect_participant _ L c k) hr]
  exact getEntry_eq ((calls_canonical hr).loads_participant k) k

theorem getRecord_lastSet (hr : Calls env history s) (r : String) :
    getRecord env s r = .ok (lastSet (Setter.recordAt r) history) := by
  rw [← lookup_lastSet (fun L => L.record r) rfl (fun L c => effect_record _ L c r) hr]
  exact getEntry_eq ((calls_canonical hr).loads_record r) r

theorem getTable_lastSet (hr : Calls env history s) (n : String) :
    getTable env s n = .ok (lastSet (Setter.tableAt n) history) := by
  rw [← lookup_lastSet (fun L => L.table n) rfl (fun L c => effect_table _ L c n) hr]
  exact getEntry_eq ((calls_canonical hr).loads_table n) n

theorem getProposal_lastSet (hr : Calls env history s) (x : String) :
    getProposal env s x = .ok (lastSet (Setter.proposalAt x) history) := by
  rw [← lookup_lastSet (fun L => L.proposal x) rfl
    (fun L c => effect_proposal _ L c x) hr]
  exact getEntry_eq ((calls_canonical hr).loads_proposal x) x

theorem getExchange_lastSet (hr : Calls env history s) (b v : String) :
    getExchange env s b v = .ok (lastSet (Setter.exchangeAt b v) history) := by
  rw [← lookup_lastSet (fun L => L.exchange (toLex (b,v))) rfl
    (fun L c => effect_exchange _ L c b v) hr]
  exact getEntry_eq ((calls_canonical hr).loads_exchange b v) (toLex (b,v))

theorem property_lastSet (hr : Calls env history s) (r n : String) :
    (ledger env s).property r n = lastSet (Setter.propertyAt env r n) history :=
  lookup_lastSet (fun L => L.property r n) rfl (fun L c => effect_property L c r n) hr

theorem page_lastSet (hr : Calls env history s) (r n : String) (k : Nat) :
    (ledger env s).page r n k = lastSet (Setter.pageAt env r n k) history :=
  lookup_lastSet (fun L => L.page r n k) rfl (fun L c => effect_page L c r n k) hr

theorem lastSet_cons {α : Type} {slot : Setter → Option α} {c : Setter} (h : slot c = none) :
    lastSet slot ((s,c) :: history) = lastSet slot history := by
  rw [lastSet,List.findSome?_cons,h]
  rfl

/-- The getters of a store return what was last set under exactly that key. -/
def Reads (env : Env) (history : List (State × Setter)) (s : State) : Prop :=
  (∀ k, getParticipant env s k = .ok (lastSet (Setter.participantAt k) history)) ∧
  (∀ r, getRecord env s r = .ok (lastSet (Setter.recordAt r) history)) ∧
  (∀ n, getTable env s n = .ok (lastSet (Setter.tableAt n) history)) ∧
  (∀ x, getProposal env s x = .ok (lastSet (Setter.proposalAt x) history)) ∧
  ∀ b v, getExchange env s b v = .ok (lastSet (Setter.exchangeAt b v) history)

/-- From `s` to `s'` only the gets under the key of the call may change. -/
def Frames (env : Env) (c : Setter) (s s' : State) : Prop :=
  (∀ k, c.participantAt k = none → getParticipant env s' k = getParticipant env s k) ∧
  (∀ r, c.recordAt r = none → getRecord env s' r = getRecord env s r) ∧
  (∀ n, c.tableAt n = none → getTable env s' n = getTable env s n) ∧
  (∀ x, c.proposalAt x = none → getProposal env s' x = getProposal env s x) ∧
  ∀ b v, c.exchangeAt b v = none → getExchange env s' b v = getExchange env s b v

theorem calls_reads (hr : Calls env history s) : Reads env history s :=
  ⟨getParticipant_lastSet hr,getRecord_lastSet hr,getTable_lastSet hr,getProposal_lastSet hr,
    getExchange_lastSet hr⟩

theorem calls_frames (hr : Calls env history s) {c : Setter} (hc : c.Proper env s)
    (h : c.run env s = .ok s') : Frames env c s s' := by
  have hr' : Calls env ((s,c) :: history) s' := hr.snoc ⟨hc,h⟩
  refine ⟨fun k hk => ?_,fun r hk => ?_,fun n hk => ?_,fun x hk => ?_,fun b v hk => ?_⟩
  · rw [getParticipant_lastSet hr',getParticipant_lastSet hr,lastSet_cons hk]
  · rw [getRecord_lastSet hr',getRecord_lastSet hr,lastSet_cons hk]
  · rw [getTable_lastSet hr',getTable_lastSet hr,lastSet_cons hk]
  · rw [getProposal_lastSet hr',getProposal_lastSet hr,lastSet_cons hk]
  · rw [getExchange_lastSet hr',getExchange_lastSet hr,lastSet_cons hk]

/-- Where every container can be serialized a proper call succeeds. -/
theorem run_total {c : Setter} (hs : Canonical env s) (hc : c.Keyed env s)
    (hw : ∀ c, env.writeToBytes c = true) : ∃ s', c.run env s = .ok s' := by
  obtain ⟨s',h,_⟩ := (Setter.run_canonical hs hc).total fun e he => by
    obtain ⟨_,c,hc⟩ := he
    rw [hw c] at hc
    exact nomatch hc
  exact ⟨s',h⟩

theorem store_is_map (hr : Calls env history s) :
    Reads env history s ∧
      (∀ c s', c.Proper env s → c.run env s = .ok s' → Frames env c s s') ∧
      (∀ A c, s A = some c → c.Sorted) ∧
      ((∀ c, env.writeToBytes c = true) → ∀ c : Setter, c.Proper env s →
        ∃ s', c.run env s = .ok s') :=
  ⟨calls_reads hr,fun _ _ hc h => calls_frames hr hc h,(calls_canonical hr).sorted,
    fun hw _ hc => run_total (calls_canonical hr) hc.1 hw⟩

end Runs

namespace Sample

/-- The state after one more setter call. -/
def put (c : Setter) (s : State) : State := outcome (c.run env s)

theorem calls_put {history : List (State × Setter)} {s : State} (hr : Calls env history s)
    (c : Setter) (hc : c.Proper env s) (h : (c.run env s).isOk = true) :
    Calls env ((s,c) :: history) (put c s) :=
  hr.snoc ⟨hc,eq_outcome h⟩

/-- Two participants at one address: the sample digest pads with zeros. -/
def setAnn : Setter := .participant "k" { publicKey := "k", name := "Ann" }
def setBob : Setter := .participant "k0" { publicKey := "k0", name := "Bob" }

theorem calls_ann : Calls env [(State.empty,setAnn)] (put setAnn State.empty) :=
  calls_put .nil setAnn ⟨rfl,trivial⟩ (by decide +kernel)

theorem calls_bob : Calls env [(put setAnn State.empty,setBob),(State.empty,setAnn)]
    (put setBob (put setAnn State.empty)) :=
  calls_put calls_ann setBob ⟨rfl,trivial⟩ (by decide +kernel)

end Sample

theorem store_is_map_colliding :
    makeParticipantAddress Sample.sha "k" = makeParticipantAddress Sample.sha "k0" ∧
      getParticipant Sample.env (Sample.put Sample.setBob (Sample.put Sample.setAnn State.empty))
        "k" = .ok (some { publicKey := "k", name := "Ann" }) :=
  ⟨by decide +kernel,(store_is_map Sample.calls_bob).1.1 "k"⟩

section Slots

variable {α κ : Type} [LinearOrder κ] {K : Kind α κ}
variable {env : Env} {history : List (State × Setter)} {s s' : State}

omit [LinearOrder κ] in
theorem loadEntries_update (s : State) (A : Address) (es : List α) :
    loadEntries K (Function.update s A (some (K.wrap es))) A = .ok es :=
  loadEntries_eq_ok.mpr (Or.inr (Function.update_self ..))

/-- A get after a set: the new object in the slot, elsewhere what was there. -/
theorem getEntry_setEntry {A : Address} {k : κ} {e : α}
    (hd : ∀ es, loadEntries K s A = .ok es → Distinct K.key es) (hk : K.key e = k)
    (h : setEntry K env s A k e = .ok s') (A' : Address) (k' : κ) :
    getEntry K s' A' k' = if A' = A ∧ k' = k then .ok (some e) else getEntry K s A' k' := by
  subst hk
  rw [setEntry_eq] at h
  obtain ⟨old,hold,hstore⟩ := bind_eq_ok.mp h
  obtain ⟨_,rfl⟩ := storeEntries_eq_ok.mp hstore
  by_cases hA : A' = A
  · subst hA
    rw [getEntry_eq ⟨_,loadEntries_update ..⟩,getEntry_eq ⟨_,hold⟩,
      lookupEntry_of_load (loadEntries_update ..),lookupEntry_of_load hold,
      find_sortByKey _ (distinct_replace (hd old hold) e),find_replace (hd old hold)]
    by_cases hk : k' = K.key e
    · rw [if_pos hk,if_pos ⟨rfl,hk⟩]
    · rw [if_neg hk,if_neg fun h => hk h.2]
  · rw [if_neg fun h => hA h.1,getEntry,getEntry,loadEntries,loadEntries,
      Function.update_of_ne hA]

theorem getProperty_set {r₁ r₂ n₁ n₂ : String} {q : Property} (hs : Stored env s)
    (hn : q.name = n₂) (h : setProperty env s r₂ n₂ q = .ok s') :
    getProperty env s' r₁ n₁ = if env.range r₁ = env.range r₂ ∧ n₁ = n₂ then .ok (some q)
      else getProperty env s r₁ n₁ := by
  refine (getEntry_setEntry (fun es hes => ?_) hn h _ n₁).trans ?_
  · exact (stored_load (K := propertyKind) hs (fun _ => Iff.rfl) hes).1
  · by_cases hn : n₁ = n₂
    · subst hn
      simp only [makePropertyAddress_eq_iff,and_true]
      rfl
    · rw [if_neg fun h => hn h.2,if_neg fun h => hn h.2]
      rfl

theorem getPropertyPage_set {r₁ r₂ n₁ n₂ : String} {j k : Nat} {page : PropertyPage}
    (hs : Stored env s) (hn : page.name = n₂)
    (h : setPropertyPage env s r₂ n₂ k page = .ok s') :
    getPropertyPage env s' r₁ n₁ j =
      if env.range r₁ = env.range r₂ ∧ n₁ = n₂ ∧ j = k then .ok (some page)
      else getPropertyPage env s r₁ n₁ j := by
  refine (getEntry_setEntry (fun es hes => ?_) hn h _ n₁).trans ?_
  · exact (stored_load (K := propertyPageKind) hs (fun _ => Iff.rfl) hes).1
  · by_cases hn : n₁ = n₂
    · subst hn
      simp only [makePropertyAddress_eq_iff,and_true,true_and]
      rfl
    · rw [if_neg fun h => hn h.2,if_neg fun h => hn h.2.1]
      rfl

theorem getProperty_eq_some (hr : Calls env history s) {r n : String} {q : Property} :
    getProperty env s r n = .ok (some q) ↔
      lastSet (Setter.propertyAt env r n) history = some q := by
  rw [← property_lastSet hr]
  exact found_eq_some.symm

theorem getPropertyPage_eq_some (hr : Calls env history s) {r n : String} {k : Nat}
    {page : PropertyPage} : getPropertyPage env s r n k = .ok (some page) ↔
      lastSet (Setter.pageAt env r n k) history = some page := by
  rw [← page_lastSet hr]
  exact found_eq_some.symm

/-- A set leaves a get unchanged exactly when it does not hit its slot, or the slot held the
same object before. -/
theorem unchanged_iff {α : Type} {c : Prop} [Decidable c] {x y : Except ApplyError (Option α)}
    {a : α} {o : Option α} (hx : x = if c then .ok (some a) else y)
    (hy : y = .ok (some a) ↔ o = some a) : x = y ↔ (c → o = some a) := by
  subst hx
  by_cases hc : c
  · rw [if_pos hc,eq_comm,hy]
    exact ⟨fun h _ => h,fun h => h hc⟩
  · rw [if_neg hc]
    exact ⟨fun _ h => absurd h hc,fun _ => rfl⟩

/-- Records stay apart exactly as far as their address ranges and names do: the slot of a
property is the range of its record and its name, and it holds the last object set there. -/
theorem records_apart_iff (hr : Calls env history s) (r₁ r₂ n₁ n₂ : String) :
    (∀ q s', q.recordId = r₂ → q.name = n₂ → setProperty env s r₂ n₂ q = .ok s' →
      (getProperty env s' r₁ n₁ = getProperty env s r₁ n₁ ↔
        (env.range r₁ = env.range r₂ ∧ n₁ = n₂ →
          lastSet (Setter.propertyAt env r₁ n₁) history = some q))) ∧
    (∀ j k page s', page.recordId = r₂ → page.name = n₂ →
      setPropertyPage env s r₂ n₂ k page = .ok s' →
      (getPropertyPage env s' r₁ n₁ j = getPropertyPage env s r₁ n₁ j ↔
        (env.range r₁ = env.range r₂ ∧ n₁ = n₂ ∧ j = k →
          lastSet (Setter.pageAt env r₁ n₁ j) history = some page))) ∧
    ((∀ q, getProperty env s r₁ n₁ = .ok (some q) → q.recordId = r₁) ↔
      ∀ q, lastSet (Setter.propertyAt env r₁ n₁) history = some q → q.recordId = r₁) ∧
    ∀ j, (∀ page, getPropertyPage env s r₁ n₁ j = .ok (some page) → page.recordId = r₁) ↔
      ∀ page, lastSet (Setter.pageAt env r₁ n₁ j) history = some page → page.recordId = r₁ := by
  have hs := (calls_canonical hr).stored
  refine ⟨fun q s' _ hn h => ?_,fun j k page s' _ hn h => ?_,?_,fun j => ?_⟩
  · exact unchanged_iff (getProperty_set hs hn h) (getProperty_eq_some hr)
  · exact unchanged_iff (getPropertyPage_set hs hn h) (getPropertyPage_eq_some hr)
  · exact forall_congr' fun q => by rw [getProperty_eq_some hr]
  · exact forall_congr' fun page => by rw [getPropertyPage_eq_some hr]

end Slots

namespace Sample

/-- Two records in one address range, with a property of the same name. -/
def setFirst : Setter := .property "r" "p" { name := "p", recordId := "r" }
def setSecond : Setter := .property "r0" "p" { name := "p", recordId := "r0" }

theorem calls_first : Calls env [(State.empty,setFirst)] (put setFirst State.empty) :=
  calls_put .nil setFirst ⟨⟨rfl,rfl⟩,rfl⟩ (by decide +kernel)

end Sample

theorem records_apart_colliding :
    getProperty Sample.env (Sample.put Sample.setSecond (Sample.put Sample.setFirst State.empty))
        "r" "p" ≠ getProperty Sample.env (Sample.put Sample.setFirst State.empty) "r" "p" := by
  have hiff := (records_apart_iff Sample.calls_first "r" "r0" "p" "p").1
    { name := "p", recordId := "r0" } _ rfl rfl (eq_outcome (by decide +kernel))
  refine hiff.not.mpr fun h => ?_
  have hlast := h ⟨by decide +kernel,rfl⟩
  simp [lastSet,Sample.setFirst,Setter.propertyAt] at hlast

/-- Setting a property of the record `r0` replaces the one of `r`, and the get of `r` then
returns an object of `r0`. -/
theorem records_mix : ∃ history s s' q, Calls Sample.env history s ∧
    q.recordId = "r0" ∧ q.name = "p" ∧ setProperty Sample.env s "r0" "p" q = .ok s' ∧
    getProperty Sample.env s' "r" "p" ≠ getProperty Sample.env s "r" "p" ∧
    getProperty Sample.env s' "r" "p" = .ok (some q) := by
  have hset : setProperty Sample.env (Sample.put Sample.setFirst State.empty) "r0" "p"
      { name := "p", recordId := "r0" } = .ok _ := eq_outcome (by decide +kernel)
  have hslot : Sample.env.range "r" = Sample.env.range "r0" ∧ "p" = "p" :=
    ⟨by decide +kernel,rfl⟩
  have hname : ({ name := "p", recordId := "r0" } : Property).name = "p" := rfl
  have hnew := (getProperty_set (calls_canonical Sample.calls_first).stored hname hset).trans
    (if_pos hslot)
  refine ⟨_,_,_,_,Sample.calls_first,rfl,rfl,hset,fun h => ?_,hnew⟩
  -- before the set the property of `r` was there
  have hold := (getProperty_eq_some Sample.calls_first).mp (h.symm.trans hnew)
  simp [lastSet,Sample.setFirst,Setter.propertyAt] at hold

end DgcRestApi
