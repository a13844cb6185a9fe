import DgcRestApi.Ledger.Reference

/-!
# Attribution of reported values

A stored value keeps only a number and a timestamp. The number is a position in the list of
reporters, where entries stay in place, so it leads back to the key that signed.
-/

namespace DgcRestApi
open Fallible Keyed

theorem mem_pushReportedValue {page : PropertyPage} {v w : ReportedValue} :
    w ∈ (pushReportedValue page v).reportedValues ↔ w ∈ page.reportedValues ∨ w = v := by
  simp [pushReportedValue]

@[simp] theorem clearedPage_reportedValues (r n : String) (page : Option PropertyPage) :
    (clearedPage r n page).reportedValues = [] := by
  cases page <;> rfl

namespace Ledger

variable {range : String → Address} {L L' : Ledger} {tx : Tx} {r n signer : String} {ts : Nat}
variable {u : PropertyValue} {us : List PropertyValue} {v : ReportedValue}

/-- In `L` the update `u` of the signer is stored as `v`. -/
def Reported (L : Ledger) (r signer : String) (ts : Nat) (u : PropertyValue)
    (v : ReportedValue) : Prop :=
  ∃ q rep, L.property r u.name = some q ∧ q.fixed = false ∧
    authorizedReporter q.reporters signer = some rep ∧
    makeNewReportedValue rep.index ts u q = .ok v

theorem Reportable.reported_value {q : Property} {page : PropertyPage}
    (h : Reportable L r signer ts u q page v) : Reported L r signer ts u v := by
  obtain ⟨rep,hrep,hv⟩ := h.reported
  exact ⟨q,rep,h.property,h.not_fixed,hrep,hv⟩

theorem Reported.of_turned (hrel : ∀ n, Option.Rel Turned (L.property r n) (L'.property r n))
    (h : Reported L' r signer ts u v) : Reported L r signer ts u v := by
  obtain ⟨q',rep,hq',hfixed,hrep,hv⟩ := h
  obtain ⟨q,hq,hturned⟩ := rel_some_right (hq' ▸ hrel u.name)
  have hsame : q'.fixed = q.fixed := congrArg PropertySchema.fixed hturned.schema
  rw [hturned.makeNewReportedValue] at hv
  exact ⟨q,rep,hq,hsame ▸ hfixed,hturned.reporters ▸ hrep,hv⟩

/-- A value on a page after one update was there before or is the update's. -/
theorem Report.values (hL : Homed range L) (h : Report range r signer ts L u L')
    {r' : String} {k : Nat} {page' : PropertyPage} {w : ReportedValue}
    (hp : L'.page r' n k = some page') (hw : w ∈ page'.reportedValues) :
    (∃ page, L.page r' n k = some page ∧ w ∈ page.reportedValues) ∨
      range r' = range r ∧ u.name = n ∧ Reported L r signer ts u w := by
  have hset : ∀ {q page v}, Reportable L r signer ts u q page v →
      ∀ {page'}, (L.setPage range r u.name q.currentPage (pushReportedValue page v)).page r' n k =
        some page' → w ∈ page'.reportedValues →
      (∃ page, L.page r' n k = some page ∧ w ∈ page.reportedValues) ∨
        range r' = range r ∧ u.name = n ∧ Reported L r signer ts u w := by
    intro q page v hrep page' hp hw
    rw [setPage_page] at hp
    split at hp
    · next hhit =>
      obtain rfl := Option.some.inj hp
      rcases mem_pushReportedValue.mp hw with hw | rfl
      · refine Or.inl ⟨page,?_,hw⟩
        rw [hL.page_congr r r' hhit.1,hhit.2.1,hhit.2.2]
        exact hrep.page
      · exact Or.inr ⟨hhit.1,hhit.2.1.symm,hrep.reported_value⟩
    · exact Or.inl ⟨page',hp,hw⟩
  cases h with
  | filed hrep => exact hset hrep hp hw
  | turned hrep _ _ hL₁ =>
    subst hL₁
    rw [setProperty_page,setPage_page] at hp
    split at hp
    · obtain rfl := Option.some.inj hp
      rw [clearedPage_reportedValues] at hw
      exact nomatch hw
    · exact hset hrep hp hw

theorem Reports.values (hL : Homed range L) (hr : ∃ rec, L.record r = some rec)
    (h : Reports range r signer ts L us L') {r' : String} {k : Nat} {page' : PropertyPage}
    {w : ReportedValue} (hp : L'.page r' n k = some page') (hw : w ∈ page'.reportedValues) :
    (∃ page, L.page r' n k = some page ∧ w ∈ page.reportedValues) ∨
      range r' = range r ∧ ∃ u ∈ us, u.name = n ∧ Reported L r signer ts u w := by
  induction h generalizing page' with
  | nil => exact Or.inl ⟨page',hp,hw⟩
  | @cons L L₁ _ u us hu hus ih =>
    have hrel := hu.turned_property hL r
    rcases ih (hL.report hr hu) (hu.framed.record ▸ hr) hp hw with
      ⟨page₁,hp₁,hw₁⟩ | ⟨hrange,u',hu',hn,hrep⟩
    · rcases hu.values hL hp₁ hw₁ with hold | ⟨hrange,hn,hrep⟩
      · exact Or.inl hold
      · exact Or.inr ⟨hrange,u,List.mem_cons_self,hn,hrep⟩
    · exact Or.inr ⟨hrange,u',List.mem_cons_of_mem u hu',hn,hrep.of_turned hrel⟩

/-- Every update of an accepted transaction is stored as some value. -/
theorem Reports.all_reported (hL : Homed range L) (hr : ∃ rec, L.record r = some rec)
    (h : Reports range r signer ts L us L') : ∀ u ∈ us, ∃ v, Reported L r signer ts u v := by
  induction h with
  | nil => exact nofun
  | @cons L L₁ _ u us hu hus ih =>
    have hrel := hu.turned_property hL r
    have hrec := hu.framed.record ▸ hr
    intro u' hu'
    rcases List.mem_cons.mp hu' with rfl | hu'
    · cases hu with
      | filed hrep => exact ⟨_,hrep.reported_value⟩
      | turned hrep => exact ⟨_,hrep.reported_value⟩
    · obtain ⟨v,hv⟩ := ih (hL.report hr hu) hrec u' hu'
      exact ⟨v,hv.of_turned hrel⟩

/-- `tx`, accepted in `L`, wrote `v` for the property: as the initial value or as an update. -/
inductive Wrote (r n : String) (L : Ledger) (tx : Tx) (v : ReportedValue) : Prop
  | created {a t col value} (haction : tx.action = .CreateRecord a) (hr : a.recordId = r)
      (ht : L.table a.table = some t) (hcol : t.entry n = some col)
      (hvalue : (providedProperties a).lookup n = some value)
      (hv : makeNewReportedValue 0 tx.timestamp value (newProperty r tx.signer n col) = .ok v)
  | updated {a u} (haction : tx.action = .UpdateProperties a) (hr : a.recordId = r)
      (hu : u ∈ a.properties) (hn : u.name = n) (hv : Reported L r tx.signer tx.timestamp u v)

theorem Created.wrote {a : CreateRecordAction} {t : Table} {initial : String → List ReportedValue}
    (hc : Created range L signer ts a t initial L') {col : PropertySchema}
    (hcol : t.entry n = some col) (hv : v ∈ initial n) :
    Wrote a.recordId n L ⟨signer,ts,.CreateRecord a⟩ v := by
  have hvalues := hc.values n col (by rw [tableSchema_lookup,hcol])
  cases hlookup : (providedProperties a).lookup n with
  | none =>
    rw [hlookup] at hvalues
    rw [← Except.ok.inj hvalues] at hv
    exact nomatch hv
  | some value =>
    rw [hlookup] at hvalues
    obtain ⟨v',hv',hvalues⟩ := bind_eq_ok.mp hvalues
    rw [← Except.ok.inj hvalues] at hv
    rw [List.mem_singleton.mp hv]
    exact .created rfl rfl hc.table hcol hlookup hv'

/-- Every value on a page of a record was written by a transaction of the history. -/
def Written (h : List (Ledger × Tx)) (L : Ledger) : Prop :=
  ∀ r rec n k page v, L.record r = some rec → L.page r n k = some page →
    v ∈ page.reportedValues → ∃ e ∈ h, Wrote r n e.1 e.2 v

theorem Step.written {h : List (Ledger × Tx)} (hL : Homed range L) (hd : DistinctRanges range L')
    (hW : Written h L) (hstep : Step range L tx L') : Written ((L,tx) :: h) L' := by
  intro r rec n k page v hrec hpage hv
  have old : ∀ {rec₀ page₀}, L.record r = some rec₀ → L.page r n k = some page₀ →
      v ∈ page₀.reportedValues → ∃ e ∈ (L,tx) :: h, Wrote r n e.1 e.2 v := by
    intro rec₀ page₀ hrec₀ hpage₀ hv₀
    obtain ⟨e,he,hw⟩ := hW r rec₀ n k page₀ v hrec₀ hpage₀ hv₀
    exact ⟨e,List.mem_cons_of_mem _ he,hw⟩
  rcases hstep.property_cases with ⟨signer,ts,a,t,initial,rfl,hc⟩ |
      ⟨signer,ts,a,recA,rfl,hrecA,_,hus⟩ | ⟨_,_,hpages,_⟩
  · rcases hc.page_cases hpage with hpage' | ⟨hrange,rfl,col,hcol⟩
    · -- a page that was there before belongs to a record that was there before
      obtain ⟨_,hrange,recP,hrecP⟩ := hL.page r n k page hpage'
      obtain ⟨recP',hrecP',_⟩ := hstep.record_grown _ _ hrecP
      have hr : page.recordId = r := hd _ _ _ _ hrecP' hrec hrange
      exact old (hr ▸ hrecP) hpage' hv
    · obtain rfl := hd _ _ _ _ hrec hc.new_record hrange
      exact ⟨_,List.mem_cons_self,hc.wrote hcol hv⟩
  · rw [hus.framed.record] at hrec
    rcases hus.values hL ⟨recA,hrecA⟩ hpage hv with ⟨page₀,hpage₀,hv₀⟩ | ⟨hrange,u,hu,hn,hrep⟩
    · exact old hrec hpage₀ hv₀
    · have hd₀ := hd.of_grown hstep.record_grown
      obtain rfl := hd₀ _ _ _ _ hrec hrecA hrange
      exact ⟨_,List.mem_cons_self,.updated rfl rfl hu hn hrep⟩
  · rw [hpages] at hpage
    rcases hstep.record_cases hrec with ⟨signer,ts,a,t,initial,_,hc,rfl,_⟩ | ⟨rec₀,hrec₀,_⟩
    · -- a new record has no page that was there before
      obtain ⟨_,hrange,recP,hrecP⟩ := hL.page _ n k page hpage
      obtain ⟨recP',hrecP',_⟩ := hstep.record_grown _ _ hrecP
      have hr := hd _ _ _ _ hrecP' hrec hrange
      rw [hr,hc.fresh] at hrecP
      exact nomatch hrecP
    · exact old hrec₀ hpage hv

theorem run_written {h : List (Ledger × Tx)} (hd : DistinctRanges range L)
    (hr : Run (Step range) empty h L) : Written h L := by
  induction hr with
  | nil => exact fun _ _ _ _ _ _ hrec => nomatch hrec
  | snoc hr hstep ih =>
    exact hstep.written (run_homed homed_empty hr) hd (ih (hd.of_grown hstep.record_grown))

end Ledger

/-! ## Positions of reporters -/

/-- Every reporter entry carries its position. -/
def Property.Indexed (q : Property) : Prop :=
  ∀ (i : Nat) (rep : Reporter), q.reporters[i]? = some rep → rep.index = i

theorem newProperty_indexed (r signer n : String) (col : PropertySchema) :
    (newProperty r signer n col).Indexed := by
  intro i rep hrep
  cases i with
  | zero => exact Option.some.inj hrep ▸ rfl
  | succ i => exact nomatch hrep

/-- A new entry is numbered by the length of the list, as long as that fits in 32 bits. -/
theorem Touch.indexed {registered : String → Prop} {q q' : Property}
    (h : Touch registered q q') (hlen : q'.reporters.length ≤ 2 ^ 32) (hq : q.Indexed) :
    q'.Indexed := by
  obtain ⟨_,f,hf,added,hreporters,hadded⟩ := h.spec
  intro i rep hrep
  rw [hreporters] at hrep hlen
  by_cases hi : i < q.reporters.length
  · rw [List.getElem?_append_left (by simpa using hi),List.getElem?_map] at hrep
    obtain ⟨rep₀,hrep₀,rfl⟩ := Option.map_eq_some_iff.mp hrep
    rw [(hf rep₀).2]
    exact hq i rep₀ hrep₀
  · rw [List.getElem?_append_right (by simpa using hi)] at hrep
    rcases hadded with rfl | ⟨receiver,_,rfl⟩
    · exact nomatch hrep
    · obtain ⟨hlt,rfl⟩ := List.getElem?_eq_some_iff.mp hrep
      simp only [List.length_append,List.length_map,List.length_singleton] at hlen hlt
      -- the one entry that was added is the last
      have hi' : i = q.reporters.length := by omega
      simp only [List.getElem_singleton,asU32,hi']
      exact Nat.mod_eq_of_lt (by omega)

theorem Touch.length_le {registered : String → Prop} {q q' : Property}
    (h : Touch registered q q') : q.reporters.length ≤ q'.reporters.length := by
  obtain ⟨_,_,_,_,hreporters,_⟩ := h.spec
  rw [hreporters]
  simp

theorem Evolves.indexed {registered : String → Prop} {q q' : Property}
    (h : Evolves registered q q') (hlen : q'.reporters.length ≤ 2 ^ 32) (hq : q.Indexed) :
    q'.Indexed := by
  induction h with
  | refl => exact hq
  | tail _ ht ih => exact ht.indexed hlen (ih (ht.length_le.trans hlen))

theorem Evolves.length_le {registered : String → Prop} {q q' : Property}
    (h : Evolves registered q q') : q.reporters.length ≤ q'.reporters.length := by
  induction h with
  | refl => exact le_rfl
  | tail _ ht ih => exact ih.trans ht.length_le

namespace Ledger

theorem Step.indexed {range : String → Address} {L L' : Ledger} {tx : Tx} (hL : Homed range L)
    (hI : ∀ r n q, L.property r n = some q → q.reporters.length ≤ 2 ^ 32 → q.Indexed)
    (hstep : Step range L tx L') :
    ∀ r n q, L'.property r n = some q → q.reporters.length ≤ 2 ^ 32 → q.Indexed := by
  refine hstep.property_invariant (fun _ q => q.reporters.length ≤ 2 ^ 32 → q.Indexed) hL
    ?_ ?_ ?_ hI
  · intro signer ts a t initial n col _ _ _ _
    exact newProperty_indexed a.recordId signer n col
  · intro q q' hP hturned
    rwa [Property.Indexed,hturned.reporters]
  · intro q q' hP hev hlen
    exact hev.indexed hlen (hP (hev.length_le.trans hlen))

theorem run_indexed {range : String → Address} {L : Ledger} {h : List (Ledger × Tx)}
    (hr : Run (Step range) empty h L) :
    ∀ r n q, L.property r n = some q → q.reporters.length ≤ 2 ^ 32 → q.Indexed := by
  have hboth := hr.invariant (fun L => Homed range L ∧
    ∀ r n q, L.property r n = some q → q.reporters.length ≤ 2 ^ 32 → q.Indexed)
    (fun _ _ _ hP hstep => ⟨hstep.homed hP.1,hstep.indexed hP.1 hP.2⟩) ⟨homed_empty,nofun⟩
  exact hboth.2

theorem Step.created_of_action {range : String → Address} {L L' : Ledger} {tx : Tx}
    {a : CreateRecordAction} (hstep : Step range L tx L') (ha : tx.action = .CreateRecord a) :
    ∃ t initial, Created range L tx.signer tx.timestamp a t initial L' := by
  cases hstep with
  | createRecord hp hnew ht _ hprovided hinitial =>
    cases ha
    exact ⟨_,_,⟨_,hp⟩,hnew,ht,hprovided,hinitial,rfl⟩
  | _ => exact nomatch ha

end Ledger

theorem Property.Extends.length_le {q q' : Property} (h : q.Extends q') :
    q.reporters.length ≤ q'.reporters.length := by
  by_contra hlt
  have hi : q'.reporters.length < q.reporters.length := not_le.mp hlt
  obtain ⟨rep',hrep',_⟩ := h.reporters _ _ (List.getElem?_eq_getElem hi)
  exact absurd (List.getElem?_eq_some_iff.mp hrep').1 (lt_irrefl _)

/-- What the position in a value tells about the transaction that wrote it: the key there
signed it at the time of the value, and it either created the record or updated a property
that is not fixed, with the entry authorized at the time. -/
structure WrittenBy (r n : String) (p : Property) (v : ReportedValue) (L : Ledger) (tx : Tx) :
    Prop where
  timestamp : v.timestamp = tx.timestamp
  key : ∃ rep, p.reporters[v.reporterIndex]? = some rep ∧ rep.publicKey = tx.signer
  authorized : ∀ a, tx.action = .UpdateProperties a → ∃ q rep, L.property r n = some q ∧
    q.reporters[v.reporterIndex]? = some rep ∧ rep.publicKey = tx.signer ∧ rep.authorized = true
  fixed : p.fixed = true → tx.created = some r

namespace Ledger

variable {range : String → Address} {L : Ledger} {h : List (Ledger × Tx)} {r n : String}
variable {p : Property} {v : ReportedValue} {e : Ledger × Tx}

/-- What the creation of a record made of a property is what was added to since. -/
theorem run_created_extends (hd : DistinctRanges range L) (hr : Run (Step range) empty h L)
    (hp : L.property r n = some p) (he : e ∈ h) {a : CreateRecordAction} {t : Table}
    {col : PropertySchema} (haction : e.2.action = .CreateRecord a) (hra : a.recordId = r)
    (ht : e.1.table a.table = some t) (hcol : t.entry n = some col) :
    (newProperty r e.2.signer n col).Extends p := by
  subst hra
  obtain ⟨h₁,h₂,m,_,hr₁,hstep,hr₂⟩ := hr.split he
  obtain ⟨t',initial,hc⟩ := hstep.created_of_action haction
  obtain rfl : t = t' := Option.some.inj (ht.symm.trans hc.table)
  have hm : m.property a.recordId n = some (newProperty a.recordId e.2.signer n col) := by
    rw [hc.eq]
    simp [hcol]
  have hafter : Grows m L := run_grows (hstep.homed (run_homed homed_empty hr₁)) hd hr₂
  obtain ⟨p',hp',hext⟩ := hafter.properties a.recordId n _ hm
  obtain rfl : p = p' := Option.some.inj (hp.symm.trans hp')
  exact hext

theorem run_writtenBy (hd : DistinctRanges range L) (hr : Run (Step range) empty h L)
    (hp : L.property r n = some p) (hlen : p.reporters.length ≤ 2 ^ 32) (he : e ∈ h)
    (hw : Wrote r n e.1 e.2 v) : WrittenBy r n p v e.1 e.2 := by
  have hgrows : Grows e.1 L := run_grows_from hd hr he
  obtain ⟨h₁,_,_,_,hr₁,_,_⟩ := hr.split he
  cases hw with
  | @created a t col value haction hra ht hcol hvalue hv =>
    obtain ⟨hindex,htime⟩ := (makeNewReportedValue_eq_ok.mp hv).made
    have hext := run_created_extends hd hr hp he haction hra ht hcol
    obtain ⟨rep,hrep,hkey,_⟩ := hext.reporters 0 _ rfl
    refine ⟨htime,⟨rep,hindex ▸ hrep,hkey⟩,fun b hb => ?_,fun _ => ?_⟩
    · rw [haction] at hb
      exact nomatch hb
    · rw [Tx.created,haction]
      exact congrArg some hra
  | @updated a u haction hra hu hn hv =>
    subst hra hn
    obtain ⟨q,rep,hq,hfixed,hfind,hv⟩ := hv
    obtain ⟨hindex,htime⟩ := (makeNewReportedValue_eq_ok.mp hv).made
    obtain ⟨p',hp',hext⟩ := hgrows.properties a.recordId u.name q hq
    obtain rfl : p = p' := Option.some.inj (hp.symm.trans hp')
    obtain ⟨hmem,hsigner,hauthorized⟩ := authorizedReporter_eq_some hfind
    obtain ⟨i,hi⟩ := List.mem_iff_getElem?.mp hmem
    -- at the time of the update the index of an entry was its position
    have hpos : rep.index = i :=
      run_indexed hr₁ _ _ q hq (hext.length_le.trans hlen) i rep hi
    rw [hpos] at hindex
    obtain ⟨rep',hrep',hkey,_⟩ := hext.reporters i rep hi
    refine ⟨htime,⟨rep',hindex ▸ hrep',hkey.trans hsigner⟩,fun _ _ => ?_,fun hpf => ?_⟩
    · exact ⟨q,rep,hq,hindex ▸ hi,hsigner,hauthorized⟩
    · have hsame : p.fixed = q.fixed := congrArg PropertySchema.fixed hext.schema
      rw [hsame,hfixed] at hpf
      exact nomatch hpf

end Ledger

/-- `write_to_bytes` refuses a property with 2^32 reporters: a message of that size is beyond
the limit of protobuf. -/
def Env.LimitsSize (env : Env) : Prop :=
  ∀ es, env.writeToBytes (.properties es) = true → ∀ q ∈ es, q.reporters.length < 2 ^ 32

theorem reachable_length {env : Env} {h : List (State × Tx)} {s : State}
    (hr : Reachable env h s) (hsize : env.LimitsSize) {r n : String} {p : Property}
    (hp : (ledger env s).property r n = some p) : p.reporters.length ≤ 2 ^ 32 := by
  obtain ⟨es,hq,hbytes⟩ := ledger_property_written (reachable_refines hr).1 hp
  exact (hsize es hbytes p hq).le

theorem reachable_indexed {env : Env} {h : List (State × Tx)} {s : State}
    (hr : Reachable env h s) (hsize : env.LimitsSize) {r n : String} {p : Property}
    (hp : (ledger env s).property r n = some p) : p.Indexed :=
  Ledger.run_indexed (reachable_refines hr).2 r n p hp (reachable_length hr hsize hp)

theorem mem_ledgers {env : Env} {h : List (State × Tx)} {e : State × Tx} (he : e ∈ h) :
    (ledger env e.1,e.2) ∈ ledgers env h :=
  List.mem_map_of_mem (f := Prod.map (ledger env) id) he

theorem reported_values_attributed {env : Env} {h : List (State × Tx)} {s : State}
    (hr : Reachable env h s) (hd : DistinctAddresses env s) (hsize : env.LimitsSize)
    {r n : String} {rec : Record} {p : Property} (hrec : (ledger env s).record r = some rec)
    (hp : (ledger env s).property r n = some p) :
    p.Indexed ∧
    (∀ k page, (ledger env s).page r n k = some page → ∀ v ∈ page.reportedValues,
      v.reporterIndex < p.reporters.length ∧
      (∃ e ∈ h, Ledger.Wrote r n (ledger env e.1) e.2 v) ∧
      ∀ e ∈ h, Ledger.Wrote r n (ledger env e.1) e.2 v →
        WrittenBy r n p v (ledger env e.1) e.2) ∧
    ∀ e ∈ h, ∀ q, (ledger env e.1).property r n = some q →
      ∀ (i : Nat) (rep : Reporter), q.reporters[i]? = some rep →
        ∃ rep', p.reporters[i]? = some rep' ∧ rep'.publicKey = rep.publicKey := by
  have hrun := (reachable_refines hr).2
  have hby : ∀ e ∈ h, ∀ v, Ledger.Wrote r n (ledger env e.1) e.2 v →
      WrittenBy r n p v (ledger env e.1) e.2 := fun e he v hw =>
    Ledger.run_writtenBy hd hrun hp (reachable_length hr hsize hp) (mem_ledgers he) hw
  refine ⟨reachable_indexed hr hsize hp,fun k page hpage v hv => ?_,?_⟩
  · obtain ⟨_,hmem,hw⟩ := Ledger.run_written hd hrun r rec n k page v hrec hpage hv
    obtain ⟨e,he,rfl⟩ := List.mem_map.mp hmem
    obtain ⟨rep,hrep,_⟩ := (hby e he v hw).key
    exact ⟨(List.getElem?_eq_some_iff.mp hrep).1,⟨e,he,hw⟩,fun e he => hby e he v⟩
  · intro e he q hq i rep hrep
    obtain ⟨p',hp',hext⟩ := (Ledger.run_grows_from hd hrun (mem_ledgers he)).properties r n q hq
    obtain rfl : p = p' := Option.some.inj (hp.symm.trans hp')
    obtain ⟨rep',hrep',hkey,_⟩ := hext.reporters i rep hrep
    exact ⟨rep',hrep',hkey⟩

theorem Sample.limitsSize : Sample.env.LimitsSize := by
  intro es h q hq
  exact of_decide_eq_true (List.all_eq_true.mp h q hq)

/-- The sample with one update of the property. -/
def Sample.updated : List TpProcessRequest :=
  [Sample.request "A"
    { action := .UPDATE_PROPERTIES, timestamp := 5,
      updateProperties :=
        { recordId := "r",
          properties := [{ name := "p", dataType := .NUMBER, numberValue := 7 }] } }]

theorem reported_values_attributed_sample :
    ∃ p page, (ledger Sample.env (Sample.after Sample.updated)).property "r" "p" = some p ∧
      (ledger Sample.env (Sample.after Sample.updated)).page "r" "p" 1 = some page ∧
      page.reportedValues.length = 1 ∧ p.Indexed ∧
      ∀ v ∈ page.reportedValues, v.reporterIndex < p.reporters.length := by
  have hok : Sample.Valid Sample.updated := by decide +kernel
  obtain ⟨_,hr,_⟩ := Sample.reachable hok
  have hd := Sample.distinctAddresses hok (by decide +kernel)
  obtain ⟨rec,hrec⟩ := Option.isSome_iff_exists.mp (show
    ((ledger Sample.env (Sample.after Sample.updated)).record "r").isSome by decide +kernel)
  obtain ⟨p,hp⟩ := Option.isSome_iff_exists.mp (show
    ((ledger Sample.env (Sample.after Sample.updated)).property "r" "p").isSome by decide +kernel)
  obtain ⟨page,hpage,hlen⟩ : ∃ page,
      (ledger Sample.env (Sample.after Sample.updated)).page "r" "p" 1 = some page ∧
        page.reportedValues.length = 1 := by
    have hlen : ((ledger Sample.env (Sample.after Sample.updated)).page "r" "p" 1).map
        (fun page => page.reportedValues.length) = some 1 := by decide +kernel
    exact Option.map_eq_some_iff.mp hlen
  obtain ⟨hindexed,hvalues,_⟩ := reported_values_attributed hr hd Sample.limitsSize hrec hp
  exact ⟨p,page,hp,hpage,hlen,hindexed,fun v hv => (hvalues 1 page hpage v hv).1⟩

end DgcRestApi
