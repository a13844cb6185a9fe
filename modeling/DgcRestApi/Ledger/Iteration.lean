import DgcRestApi.Ledger.Panics
import DgcRestApi.Ledger.Refines

/-!
# Iteration orders do not matter

`_create_record` walks three hash maps. Its checks hold of all entries or of none, whatever
the order, and its writes lead to the same ledger; since a canonical state is determined by
its ledger, two validators that iterate in different orders store the same containers.
-/

namespace DgcRestApi
open Addressing Fallible Keyed

/-- What a record is created with is determined by the ledger and the transaction. -/
theorem Ledger.Step.createRecord_unique {range : String → Address} {L L₁ L₂ : Ledger}
    {signer : String} {ts : Nat} {a : CreateRecordAction}
    (h₁ : Ledger.Step range L ⟨signer,ts,.CreateRecord a⟩ L₁)
    (h₂ : Ledger.Step range L ⟨signer,ts,.CreateRecord a⟩ L₂) : L₁ = L₂ := by
  cases h₁ with
  | @createRecord _ _ _ _ t initial hp hnew ht hrequired hprovided hinitial =>
    cases h₂ with
    | @createRecord _ _ _ _ t' initial' hp' hnew' ht' hrequired' hprovided' hinitial' =>
      obtain rfl : t = t' := Option.some.inj (ht.symm.trans ht')
      ext : 1
      case page =>
        funext r n k
        simp only [Ledger.initProperties_page]
        split
        · next hn =>
          -- the name is a column, so both runs read the same initial values
          obtain ⟨q,hq⟩ := Option.isSome_iff_exists.mp hn.2.1
          obtain ⟨col,hcol,_⟩ := Option.map_eq_some_iff.mp hq
          rw [Except.ok.inj ((hinitial n col hcol).symm.trans (hinitial' n col hcol))]
        · rfl
      all_goals rfl

section Total

variable {env : Env} {s : State} {signer : String} {ts : Nat}

theorem Canonical.getParticipant_eq (hs : Canonical env s) (k : String) :
    getParticipant env s k = .ok ((ledger env s).participant k) :=
  getEntry_eq (hs.loads_participant k) k

theorem Canonical.getRecord_eq (hs : Canonical env s) (r : String) :
    getRecord env s r = .ok ((ledger env s).record r) :=
  getEntry_eq (hs.loads_record r) r

theorem Canonical.getTable_eq (hs : Canonical env s) (n : String) :
    getTable env s n = .ok ((ledger env s).table n) :=
  getEntry_eq (hs.loads_table n) n

/-- The writes for one column succeed once its initial values do. -/
theorem initProperty_total {r : String} {provided : HashMap PropertyValue}
    {entry : Sigma fun _ : String => PropertySchema} {values : List ReportedValue}
    (hs : Canonical env s) (hvalues : initialValues ts (provided.lookup entry.1)
      (newProperty r signer entry.1 entry.2) = .ok values) :
    Ends (initProperty env r signer ts provided s entry) (Canonical env) (Unwritable env) := by
  rw [initProperty,providedValue_eq]
  refine ends_bind (Setter.run_canonical (c := .property r entry.1 _) hs ⟨rfl,rfl⟩) fun t ht => ?_
  change Ends (initialValues ts (provided.lookup entry.1) _ >>= _) _ _
  rw [hvalues]
  exact Setter.run_canonical (c := .propertyPage r entry.1 1 _) ht ⟨rfl,rfl,one_ne_zero⟩

/-- Where the ledger has a step, the handler takes it under every order. -/
theorem createRecord_total {a : CreateRecordAction} {L' : Ledger} (orders : Orders)
    (hs : Canonical env s)
    (hstep : Ledger.Step env.range (ledger env s) ⟨signer,ts,.CreateRecord a⟩ L') :
    Ends (createRecord env orders a s signer ts) (fun _ => True) (Unwritable env) := by
  cases hstep with
  | @createRecord _ _ _ p t initial hp hnew ht hrequired hprovided hinitial =>
    have hreq : ((orders.requiredProperties.order (requiredProperties t).entries).forM fun entry =>
        rejectIf (entry.1 ∉ providedProperties a) (ApplyError.InvalidTransaction
          ("Required property " ++ (entry.1 ++ " not provided")))) = .ok () := by
      refine forM_eq_ok.mpr fun entry hentry => rejectIf_eq_ok.mpr (not_not.mpr ?_)
      have hmem := (orders.requiredProperties.perm _).mem_iff.mp hentry
      exact hrequired _ (AList.mem_keys.mpr (List.mem_map_of_mem hmem))
    have hprov : ((orders.providedProperties.order (providedProperties a).entries).forM
        fun entry => checkProvided (tableSchema t) entry.1 entry.2) = .ok () := by
      refine forM_eq_ok.mpr fun entry hentry => hprovided _ _ (AList.mem_lookup_iff.mpr ?_)
      exact (orders.providedProperties.perm _).mem_iff.mp hentry
    refine ends_bind (ends_eq (expect_eq_ok.mpr (by rw [hs.getParticipant_eq,hp])))
      fun _ _ => ?_
    refine ends_bind (ends_eq (a := ()) (absent_eq_ok.mpr (by rw [hs.getRecord_eq,hnew])))
      fun _ _ => ?_
    refine ends_bind (ends_eq (expect_eq_ok.mpr (by rw [hs.getTable_eq,ht]))) ?_
    rintro _ rfl
    refine ends_bind (ends_eq hreq) fun _ _ => ends_bind (ends_eq hprov) fun _ _ => ?_
    refine ends_bind (Setter.run_canonical (c := .record a.recordId _) hs rfl) fun u hu => ?_
    refine Ends.mono (ends_foldlM (I := Canonical env) (fun v entry hentry hv => ?_) hu)
      (fun _ _ => trivial) fun _ => id
    have hmem := (orders.tableSchema.perm _).mem_iff.mp hentry
    exact initProperty_total hv (hinitial _ _ (AList.mem_lookup_iff.mpr hmem))

end Total

section Orders

variable {env : Env} {h : List (State × Tx)} {s s' : State}

/-- A record that is created under one order is created under every order, and the states
are the same. -/
theorem createRecord_orders {a : CreateRecordAction} {signer : String} {ts : Nat}
    (hs : Sane env s) {orders₁ orders₂ : Orders}
    (hw : ∀ m, createRecord env orders₂ a s signer ts ≠ .error (.InternalError m))
    (h₁ : createRecord env orders₁ a s signer ts = .ok s') :
    createRecord env orders₂ a s signer ts = .ok s' := by
  have hstep₁ := (createRecord_refines hs.canonical.stored h₁).2
  obtain ⟨t,ht,_⟩ := (createRecord_total orders₂ hs.canonical hstep₁).total
    fun e he => he.1.elim fun m hm => hm ▸ hw m
  have hstep₂ := (createRecord_refines hs.canonical.stored ht).2
  have hledger := Ledger.Step.createRecord_unique hstep₁ hstep₂
  have hcanonical₁ := ((createRecord_ends hs).1 _ h₁).canonical
  rw [ht,hcanonical₁.ext ((createRecord_ends hs).1 _ ht).canonical hledger]

/-- Creating a record is independent of the iteration orders of the hash maps, if under neither
of them a container turns out too large to be serialized. -/
theorem createRecord_order_independent (hr : Reachable env h s) (orders₁ orders₂ : Orders)
    (a : CreateRecordAction) (signer : String) (ts : Nat)
    (hw₁ : ∀ m, createRecord env orders₁ a s signer ts ≠ .error (.InternalError m))
    (hw₂ : ∀ m, createRecord env orders₂ a s signer ts ≠ .error (.InternalError m)) :
    (∃ m₁ m₂, createRecord env orders₁ a s signer ts = .error (.InvalidTransaction m₁) ∧
        createRecord env orders₂ a s signer ts = .error (.InvalidTransaction m₂)) ∨
      ∃ s', createRecord env orders₁ a s signer ts = .ok s' ∧
        createRecord env orders₂ a s signer ts = .ok s' := by
  have hs := reachable_sane hr
  cases h₁ : createRecord env orders₁ a s signer ts with
  | ok s' => exact Or.inr ⟨s',rfl,createRecord_orders hs hw₂ h₁⟩
  | error e₁ =>
    cases h₂ : createRecord env orders₂ a s signer ts with
    | ok s' =>
      rw [createRecord_orders hs hw₁ h₂] at h₁
      exact nomatch h₁
    | error e₂ =>
      obtain ⟨m₁,rfl⟩ := ((createRecord_ends hs).2 e₁ h₁).rejects fun m hm => hw₁ m (hm ▸ h₁)
      obtain ⟨m₂,rfl⟩ := ((createRecord_ends hs).2 e₂ h₂).rejects fun m hm => hw₂ m (hm ▸ h₂)
      exact Or.inl ⟨m₁,m₂,rfl,rfl⟩

end Orders

namespace Sample

/-- The sample environment with a serialization that never fails. -/
def plain : Env := { env with writeToBytes := fun _ => true }

def reversed : Orders where
  tableSchema := ⟨List.reverse,fun es => es.reverse_perm⟩
  requiredProperties := ⟨List.reverse,fun es => es.reverse_perm⟩
  providedProperties := ⟨List.reverse,fun es => es.reverse_perm⟩

def columns : List PropertySchema :=
  [{ name := "p", dataType := .NUMBER },{ name := "p0", dataType := .STRING }]

/-- A participant and a table whose two columns have one hash. -/
def tabling : List TpProcessRequest :=
  [request "A"
    { action := .CREATE_PARTICIPANT, timestamp := 1, createParticipant := { name := "Ann" } },
   request "A"
    { action := .CREATE_TABLE, timestamp := 2,
      createTable := { name := "t", properties := columns } }]

def tabled : State := outcome (replay plain orders tabling State.empty)

def twoColumns : CreateRecordAction :=
  { recordId := "r"
    table := "t"
    properties := [{ name := "p0", dataType := .STRING, stringValue := "x" }] }

theorem tabled_eq : replay plain orders tabling State.empty = .ok tabled :=
  eq_outcome (by decide +kernel)

end Sample

theorem createRecord_reversed :
    createRecord Sample.plain Sample.orders Sample.twoColumns Sample.tabled "A" 3 =
      createRecord Sample.plain Sample.reversed Sample.twoColumns Sample.tabled "A" 3 := by
  obtain ⟨history,hr,_⟩ := replay_run Sample.tabled_eq
  have hcreated := @eq_outcome (createRecord Sample.plain Sample.orders Sample.twoColumns
    Sample.tabled "A" 3) (by decide +kernel)
  have hreversed := @eq_outcome (createRecord Sample.plain Sample.reversed Sample.twoColumns
    Sample.tabled "A" 3) (by decide +kernel)
  rcases createRecord_order_independent hr Sample.orders Sample.reversed Sample.twoColumns "A" 3
    (fun m h => nomatch hcreated.symm.trans h) (fun m h => nomatch hreversed.symm.trans h) with
      ⟨m,_,h,_⟩ | ⟨s',h,h'⟩
  · exact nomatch hcreated.symm.trans h
  · exact h.trans h'.symm

end DgcRestApi
