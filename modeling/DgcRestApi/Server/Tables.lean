import DgcRestApi.Ledger.Persistence
import DgcRestApi.LedgerSync.Reflection
import DgcRestApi.Server.Creation
import DgcRestApi.Server.Submission

/-!
# Tables

`create` of `transaction/tables.js`, and `fetch` and `list` of `db/tables.js`. The columns of a
table are published as an object, under their names. No object has two members of one name, but a
table may have two such columns: the processor does not compare them. One table of this kind fails
every list that it would be in, and nothing ever changes a table.
-/

namespace DgcRestApi
namespace Ledger

variable {range : String → Address} {L L' : Ledger}

/-- A table stays as it was created. -/
theorem run_table_kept {h : List (Ledger × Tx)} {n : String} {t : Table}
    (hr : Run (Step range) L h L') (ht : L.table n = some t) : L'.table n = some t := by
  induction hr with
  | nil => exact ht
  | snoc _ hstep ih =>
    obtain ⟨t',ht',rfl⟩ := hstep.table_grown n t ih
    exact ht'

theorem Step.createTable_eq {signer : String} {ts : Nat} {a : CreateTableAction}
    (hstep : Step range L ⟨signer,ts,.CreateTable a⟩ L') :
    L'.table a.name = some { name := a.name, properties := a.properties } := by
  cases hstep with
  | createTable => exact Function.update_self ..

end Ledger

namespace Server.Tables
open LedgerSync Keyed Fallible

/-- A table as the API shows it. -/
structure PublishedTable where
  name : String
  properties : List (String × PropertySchema)

def publishTable (table : Table) : Option PublishedTable :=
  (Creation.arrayToObject table.properties).map fun properties => { name := table.name, properties }

section Queries

variable (db : Db)

/-- The tables at a block; a filter without a name passes all. -/
def tablesNamed (name : Option String) (block : Nat) : List Table :=
  (objects Entry.toTable .tables block db).filter fun table => name.all fun n => table.name = n

/-- `list`; it is rejected when the query fails. -/
def list (name : Option String) : Option (List PublishedTable) :=
  (currentBlock db).bind fun block => (tablesNamed db name block).mapM publishTable

/-- What `api/tables.js` answers: the query may fail, and `null` is reported as not found. -/
inductive Fetched
  | failed | notFound | found (table : PublishedTable)

def fetch (name : String) : Fetched :=
  match currentBlock db with
  | none => .failed
  | some block => match (tablesNamed db (some name) block).head? with
    | none => .notFound
    | some table => match publishTable table with
      | none => .failed
      | some published => .found published

end Queries

/-- The batch of `create`: a transaction for each table. -/
def create (server : ServerEnv) (clock : Nat → Nat) (privateKey : String)
    (data : List CreateTableAction) : List TpProcessRequest :=
  (stamped clock data).map fun e => createTxn server privateKey
    { action := .CREATE_TABLE, timestamp := e.2, createTable := e.1 }

/-- The columns of a table have different names. -/
def Publishable (t : Table) : Prop := Distinct PropertySchema.name t.properties

/-- A table with all its columns. -/
def published (t : Table) : PublishedTable := ⟨t.name,t.properties.map fun col => (col.name,col)⟩

section Answers

variable {L : Ledger} {db : Db} {block : Nat} {name : Option String} {n : String} {t : Table}
variable {shown : PublishedTable}

theorem publishTable_eq_some :
    publishTable t = some shown ↔ Publishable t ∧ shown = published t := by
  rw [publishTable,Option.map_eq_some_iff]
  constructor
  · rintro ⟨properties,h,rfl⟩
    obtain ⟨hd,rfl⟩ := Creation.arrayToObject_eq_some.mp h
    exact ⟨hd,rfl⟩
  · rintro ⟨hd,rfl⟩
    exact ⟨_,Creation.arrayToObject_eq_some.mpr ⟨hd,rfl⟩,rfl⟩

theorem mem_tablesNamed (hm : Mirrors L db block) :
    t ∈ tablesNamed db name block ↔ L.table t.name = some t ∧ ∀ n, name = some n → t.name = n := by
  rw [tablesNamed,List.mem_filter,hm.mem_tables]
  cases name <;> simp

theorem distinct_tablesNamed (hm : Mirrors L db block) (name : Option String) :
    Distinct Table.name (tablesNamed db name block) := by
  have hnames : Distinct Table.name (objects Entry.toTable .tables block db) :=
    hm.distinct_by toTable_iff .tableName fun _ => rfl
  exact hnames.sublist (List.filter_sublist.map Table.name)

/-- The query for a name finds the table of that name and no other. -/
theorem tablesNamed_some (hm : Mirrors L db block) (n : String) :
    tablesNamed db (some n) block = (L.table n).toList := by
  refine eq_toList (distinct_tablesNamed hm _).of_map fun t => ?_
  rw [mem_tablesNamed hm]
  constructor
  · rintro ⟨ht,hname⟩
    exact hname n rfl ▸ ht
  · intro ht
    have hkey : (Entry.table t).key = .tableName n :=
      hm.key ((L.document_table n).trans (by rw [ht]; rfl))
    obtain rfl : t.name = n := Key.tableName.inj hkey
    exact ⟨ht,fun _ hname => Option.some.inj hname⟩

theorem list_iff (hm : Mirrors L db block) : (∃ ts, list db name = some ts) ↔
    ∀ t, L.table t.name = some t → (∀ n, name = some n → t.name = n) → Publishable t := by
  rw [list,hm.block,Option.bind_some,mapM_exists]
  constructor
  · intro h t ht hname
    obtain ⟨_,hshown⟩ := h t ((mem_tablesNamed hm).mpr ⟨ht,hname⟩)
    exact (publishTable_eq_some.mp hshown).1
  · intro h t ht
    obtain ⟨ht,hname⟩ := (mem_tablesNamed hm).mp ht
    exact ⟨_,publishTable_eq_some.mpr ⟨h t ht hname,rfl⟩⟩

theorem list_eq (hm : Mirrors L db block) {ts : List PublishedTable}
    (hts : list db name = some ts) : ts = (tablesNamed db name block).map published := by
  rw [list,hm.block,Option.bind_some] at hts
  have hshown : ts.map id = (tablesNamed db name block).map published :=
    mapM_map hts fun t _ shown h => (publishTable_eq_some.mp h).2
  rwa [List.map_id] at hshown

/-- A fetch answers with the table of the name, and says that there is none, as the ledger has it;
it fails only on a table with two columns of one name. -/
theorem fetch_iff (hm : Mirrors L db block) (n : String) :
    (fetch db n = .notFound ↔ L.table n = none) ∧
    (∀ shown, fetch db n = .found shown ↔
      ∃ t, L.table n = some t ∧ Publishable t ∧ published t = shown) ∧
    (fetch db n = .failed ↔ ∃ t, L.table n = some t ∧ ¬Publishable t) := by
  rw [fetch,hm.block]
  dsimp only
  rw [tablesNamed_some hm]
  cases L.table n with
  | none => simp
  | some t =>
    dsimp only [Option.toList,List.head?]
    cases hshown : publishTable t with
    | none =>
      have hd : ¬Publishable t := fun hd =>
        nomatch hshown.symm.trans (publishTable_eq_some.mpr ⟨hd,rfl⟩)
      simp [hd]
    | some shown =>
      obtain ⟨hd,rfl⟩ := publishTable_eq_some.mp hshown
      simp [hd]

/-- A list is answered exactly if no table in it has two columns of one name; then it has every
table of the ledger that the filter passes, once, with all its columns. A fetch finds the table of
the ledger, and fails on the same tables. -/
theorem tables_listed (hm : Mirrors L db block) (name : Option String) :
    ((∃ ts, list db name = some ts) ↔
      ∀ t, L.table t.name = some t → (∀ n, name = some n → t.name = n) → Publishable t) ∧
    (∀ ts, list db name = some ts → Distinct PublishedTable.name ts ∧ ∀ shown, shown ∈ ts ↔
      ∃ t, (L.table t.name = some t ∧ ∀ n, name = some n → t.name = n) ∧ published t = shown) ∧
    ∀ n, (fetch db n = .notFound ↔ L.table n = none) ∧
      (∀ shown, fetch db n = .found shown ↔
        ∃ t, L.table n = some t ∧ Publishable t ∧ published t = shown) ∧
      (fetch db n = .failed ↔ ∃ t, L.table n = some t ∧ ¬Publishable t) := by
  refine ⟨list_iff hm,fun ts hts => ⟨?_,fun shown => ?_⟩,fetch_iff hm⟩
  · rw [Distinct,list_eq hm hts,List.map_map]
    exact distinct_tablesNamed hm name
  · rw [list_eq hm hts,List.mem_map]
    exact exists_congr fun t => and_congr_left' (mem_tablesNamed hm)

theorem tables_listed_sample : ∃ db ts, list db (some "t") = some ts ∧
    ∃ shown ∈ ts, shown.name = "t" := by
  obtain ⟨h,hr,_⟩ := @DgcRestApi.Sample.reachable [] (by decide +kernel)
  obtain ⟨db,hm⟩ := exists_mirror hr (n := 1) (by decide)
  obtain ⟨hiff,hlist,_⟩ := tables_listed hm (some "t")
  have hnames : ((ledger DgcRestApi.Sample.env (DgcRestApi.Sample.after [])).table "t").map
      (fun t => (t.name,t.properties.map PropertySchema.name)) = some ("t",["p"]) := by
    decide +kernel
  obtain ⟨t,ht,hnames⟩ := Option.map_eq_some_iff.mp hnames
  obtain ⟨hname,hcolumns⟩ := Prod.mk.inj hnames
  obtain ⟨ts,hts⟩ := hiff.mpr fun t' ht' ht'name => by
    rw [ht'name "t" rfl] at ht'
    obtain rfl := Option.some.inj (ht.symm.trans ht')
    rw [Publishable,Distinct,hcolumns]
    decide
  have ht : (ledger DgcRestApi.Sample.env (DgcRestApi.Sample.after [])).table t.name = some t :=
    hname ▸ ht
  exact ⟨db,ts,hts,published t,((hlist ts hts).2 _).mpr
    ⟨t,⟨ht,fun _ h => hname.trans (Option.some.inj h)⟩,rfl⟩,hname⟩

/-- A table with two columns of one name. -/
def Sample.twofold : CreateTableAction :=
  { name := "u"
    properties := [{ name := "q", dataType := .NUMBER },{ name := "q", dataType := .STRING }] }

def Sample.single : CreateTableAction :=
  { name := "v", properties := [{ name := "q", dataType := .NUMBER }] }

/-- Tables are created together: exactly if all are new and of different names, and each has a
name and columns with names; who creates them does not matter. Whatever happens since, each is
fetched with the columns that were sent, or not at all if two of them have one name. -/
theorem tables_created {env : Env} {server : ServerEnv} {clock : Nat → Nat}
    {h : List (State × Tx)} {s : State} (hr : Reachable env h s) (hclock : ∀ i, clock i ≠ 0)
    (privateKey : String) (data : List CreateTableAction) :
    let requests := create server clock privateKey data
    (BatchWritable env requests s → ((∃ s', Batched env requests s s') ↔
      (data.map CreateTableAction.name).Nodup ∧
        ∀ a ∈ data, (a.name ≠ "" ∧ a.properties ≠ [] ∧ ∀ col ∈ a.properties, col.name ≠ "") ∧
          (ledger env s).table a.name = none)) ∧
    ∀ s', Batched env requests s s' →
      (∀ n ∉ data.map CreateTableAction.name,
        (ledger env s').table n = (ledger env s).table n) ∧
      ledger env s' = { ledger env s with table := (ledger env s').table } ∧
      ∀ h' s'' db block, Run (Accepted env) s' h' s'' → Mirrors (ledger env s'') db block →
        ∀ a ∈ data, (Publishable ⟨a.name,a.properties⟩ →
          fetch db a.name = .found (published ⟨a.name,a.properties⟩)) ∧
        (¬Publishable ⟨a.name,a.properties⟩ → fetch db a.name = .failed) := by
  intro requests
  have hrequests : requests = batch server privateKey
      ((stamped clock data).map fun e => (.CreateTable e.1,e.2)) := by
    simp only [requests,create,batch,List.map_map]
    rfl
  rw [hrequests]
  refine ⟨fun hw => ?_,fun s' hs' => ?_⟩
  · rw [batched_iff hr hw (List.forall_mem_map.mpr fun _ => stamp_ne hclock),List.forall_mem_map,
      forall_stamped (P := fun a => (Action.CreateTable a).Named)]
    simp only [Ledger.steps_createTable_iff,map_fst_stamped,exists_and_left,exists_eq,and_true]
    rw [forall₂_and]
    exact and_left_comm
  · obtain ⟨-,hsteps⟩ := hs'.steps hr
    obtain ⟨⟨hnd,-⟩,hL'⟩ := Ledger.steps_createTable_iff.mp hsteps
    rw [map_fst_stamped] at hnd hL'
    refine ⟨fun n hn => ?_,?_,fun h' s'' db block hrun hm a ha => ?_⟩
    · rw [hL',Ledger.foldl_define_other hn]
    · rw [hL']
      exact Ledger.foldl_define_eq data
    · have ht : (ledger env s').table a.name = some ⟨a.name,a.properties⟩ := by
        rw [hL']
        exact Ledger.foldl_define_mem hnd ha
      obtain ⟨_,hr'⟩ := hs'.reachable hr
      have hkept := Ledger.run_table_kept (run_refines (reachable_refines hr').1 hrun).2 ht
      obtain ⟨_,hfound,hfailed⟩ := fetch_iff hm a.name
      exact ⟨fun hp => (hfound _).mpr ⟨_,hkept,hp,rfl⟩,fun hp => hfailed.mpr ⟨_,hkept,hp⟩⟩

/-- Somebody creates two tables, of which one is never shown. -/
theorem tables_created_sample : ∃ s' db,
    Batched DgcRestApi.Sample.plain
      (create Server.Sample.server (5 + ·) "Z" [Sample.single,Sample.twofold])
      (DgcRestApi.Sample.plainly []) s' ∧
    fetch db "v" = .found (published ⟨"v",Sample.single.properties⟩) ∧ fetch db "u" = .failed := by
  obtain ⟨h,hr,_⟩ := replay_run (@DgcRestApi.Sample.plainly_eq [] (by decide +kernel))
  obtain ⟨hiff,heffect⟩ := @tables_created _ Server.Sample.server (5 + ·) _ _ hr
    (fun _ => by omega) "Z" [Sample.single,Sample.twofold]
  have hv : (ledger DgcRestApi.Sample.plain (DgcRestApi.Sample.plainly [])).table "v" = none :=
    Option.isNone_iff_eq_none.mp (by decide +kernel)
  have hu : (ledger DgcRestApi.Sample.plain (DgcRestApi.Sample.plainly [])).table "u" = none :=
    Option.isNone_iff_eq_none.mp (by decide +kernel)
  obtain ⟨s',hs'⟩ := (hiff (batchWritable_of_total hr (fun _ => rfl) _)).mpr
    ⟨by decide,List.forall_mem_cons.mpr
      ⟨⟨by decide,hv⟩,List.forall_mem_singleton.mpr ⟨by decide,hu⟩⟩⟩
  obtain ⟨_,hr'⟩ := hs'.reachable hr
  obtain ⟨db,hm⟩ := exists_mirror hr' (n := 1) (by decide)
  obtain ⟨_,_,hfetch⟩ := heffect s' hs'
  have hall := hfetch [] s' db 1 .nil hm
  exact ⟨s',db,hs',(hall Sample.single (by simp)).1 (by rw [Publishable,Distinct]; decide),
    (hall Sample.twofold (by simp)).2 (by rw [Publishable,Distinct]; decide)⟩

/-- A table that was created with two columns of one name fails every list without a filter, and
what is asked for it, in every later state. -/
theorem tables_lost {env : Env} {h h' : List (State × Tx)} {s s₁ s' : State} {signer : String}
    {ts : Nat} {a : CreateTableAction} (hr : Reachable env h s)
    (hacc : Accepted env s ⟨signer,ts,.CreateTable a⟩ s₁)
    (hrepeated : ¬Distinct PropertySchema.name a.properties) (hrun : Run (Accepted env) s₁ h' s')
    (hm : Mirrors (ledger env s') db block) :
    list db none = none ∧ list db (some a.name) = none ∧ fetch db a.name = .failed := by
  obtain ⟨hstored,hstep⟩ := accepted_refines (reachable_refines hr).1 hacc
  have ht : (ledger env s').table a.name = some ⟨a.name,a.properties⟩ :=
    Ledger.run_table_kept (run_refines hstored hrun).2 hstep.createTable_eq
  have hlist : ∀ name : Option String, (∀ n, name = some n → a.name = n) → list db name = none := by
    intro name hname
    refine Option.eq_none_iff_forall_ne_some.mpr fun ts hts => hrepeated ?_
    exact (list_iff hm).mp ⟨ts,hts⟩ ⟨a.name,a.properties⟩ ht hname
  refine ⟨hlist none nofun,hlist _ fun _ h => Option.some.inj h,?_⟩
  exact (fetch_iff hm a.name).2.2.mpr ⟨_,ht,hrepeated⟩

end Answers

/-- Ann creates a table with two columns of one name, -/
def Sample.creation : TpProcessRequest :=
  DgcRestApi.Sample.request "A"
    { action := .CREATE_TABLE, timestamp := 5, createTable := twofold }

def Sample.spoilt : State :=
  DgcRestApi.Sample.next creation (DgcRestApi.Sample.after [])

/-- and since then Bob has created a table, and Ann a record. -/
def Sample.further : List TpProcessRequest :=
  [DgcRestApi.Sample.request "B"
    { action := .CREATE_TABLE, timestamp := 6, createTable := single },
   DgcRestApi.Sample.request "A"
    { action := .CREATE_RECORD, timestamp := 7, createRecord := { recordId := "q", table := "t" } }]

def Sample.later : State :=
  outcome (replay DgcRestApi.Sample.env DgcRestApi.Sample.orders further spoilt)

theorem tables_lost_sample : ∃ db, Mirrors (ledger DgcRestApi.Sample.env Sample.later) db 1 ∧
    ((ledger DgcRestApi.Sample.env Sample.later).table "v").isSome = true ∧
    list db none = none ∧ list db (some "u") = none ∧ fetch db "u" = .failed := by
  obtain ⟨h,hr,_⟩ := @DgcRestApi.Sample.reachable [] (by decide +kernel)
  have hacc : Accepted DgcRestApi.Sample.env (DgcRestApi.Sample.after [])
      ⟨"A",5,.CreateTable Sample.twofold⟩ Sample.spoilt :=
    ⟨DgcRestApi.Sample.orders,Sample.creation,rfl,DgcRestApi.Sample.next_eq (by decide +kernel)⟩
  have hlater : replay DgcRestApi.Sample.env DgcRestApi.Sample.orders Sample.further
      Sample.spoilt = .ok Sample.later := eq_outcome (by decide +kernel)
  obtain ⟨_,hrun,_⟩ := replay_run hlater
  obtain ⟨db,hm⟩ := exists_mirror ((hr.snoc hacc).trans hrun) (n := 1) (by decide)
  exact ⟨db,hm,by decide +kernel,tables_lost hr hacc (by rw [Distinct]; decide) hrun hm⟩

end Server.Tables
end DgcRestApi
