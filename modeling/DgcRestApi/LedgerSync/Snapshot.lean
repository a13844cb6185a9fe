import DgcRestApi.Kit.Run
import DgcRestApi.LedgerSync.Delivery
import DgcRestApi.Processor.Replay

/-!
# The head snapshot

Deltas that are delivered in increasing order leave for every key the spans of its writes,
so that a query at the head sees exactly the entry of the last delta that held the key. A
page is converted with its property as it was before or after the delta of the page: the
query of the property and the write of a new property are not ordered.
-/

namespace DgcRestApi.LedgerSync
open Versions

/-- The entry that a delta holds for a key. -/
def Delta.entryOf (d : Delta) (k : Key) : Option Entry := d.entries.find? fun e => e.key = k

def Delta.Holds (d : Delta) (k : Key) : Prop := ∃ e ∈ d.entries, e.key = k

/-- No operation of a delta is for a key that it has no entry for. -/
theorem ops_key_ne {d : Delta} {k : Key} (hk : ¬d.Holds k) : ∀ op ∈ d.ops, op.key ≠ k := by
  intro op hop hkey
  obtain ⟨e,he,rfl⟩ := List.mem_map.mp hop
  exact hk ⟨e,he,(key_stateAdder e d.num).symm.trans hkey⟩

/-- The last entry of a key, in deltas listed newest first. -/
def lastEntry (ds : List Delta) (k : Key) : Option Entry := ds.findSome? fun d => d.entryOf k

/-- The property that a page is to be converted with. -/
def propertyOf (ds : List Delta) (e : Entry) : Option Property :=
  (e.propertyKey.bind (lastEntry ds)).bind Entry.toProperty

/-- What the last delta that holds the key writes for it, and the number of its block. -/
inductive LastWrite (k : Key) : List Delta → Nat → Entry → Prop
  | here {d : Delta} {ds : List Delta} {e : Entry} {p : Option Property}
      (he : d.entryOf k = some e) (hp : p = propertyOf ds e ∨ p = propertyOf (d :: ds) e) :
      LastWrite k (d :: ds) d.num (e.convert p)
  | there {d : Delta} {ds : List Delta} {n : Nat} {e : Entry} (hd : ¬d.Holds k)
      (h : LastWrite k ds n e) : LastWrite k (d :: ds) n e

/-- The writes of a delta are completed in some order, then its block is inserted. -/
def Handled (db : Db) (d : Delta) (db' : Db) : Prop :=
  ∃ db₁, Completes d.ops db db₁ ∧ db' = insert d.block db₁

/-- The deltas of a history, newest first. -/
def deltas (h : List (Db × Delta)) : List Delta := h.map Prod.snd

def Increasing (ds : List Delta) : Prop := ds.Pairwise fun d d' => d'.num < d.num

/-- The writes that the documents of a key record. -/
def Db.log (db : Db) (k : Key) : List (Nat × Entry) :=
  (db.docs k).map fun doc => (doc.startNum,doc.body)

/-- The log of a key is empty or ends in its last write. -/
def Latest (ds : List Delta) (db : Db) (k : Key) : Prop :=
  (db.log k = [] ∧ ∀ d ∈ ds, ¬d.Holds k) ∨
    ∃ ws w, db.log k = ws ++ [w] ∧ LastWrite k ds w.1 w.2

/-- Every document is in the table of its key. -/
def Tidy (db : Db) : Prop := ∀ t, ∀ doc ∈ db.tables t, doc.body.key.table = t

structure Synced (ds : List Delta) (db : Db) : Prop where
  blocks : db.blocks = (ds.map Delta.block).reverse
  tidy : Tidy db
  docs : ∀ k, db.docs k = spans MAX_SAFE_INTEGER (db.log k)
  past : ∀ k, ∀ w ∈ db.log k, ∃ d ∈ ds, d.Holds k ∧ d.num = w.1
  latest : ∀ k, Latest ds db k

section Entries

variable {d : Delta} {ds : List Delta} {k : Key} {e : Entry} {n : Nat}

theorem entryOf_eq_some (h : d.entryOf k = some e) : e ∈ d.entries ∧ e.key = k :=
  ⟨List.mem_of_find?_eq_some h,by simpa using List.find?_some h⟩

theorem entryOf_eq_none : d.entryOf k = none ↔ ¬d.Holds k := by
  simp [Delta.entryOf,Delta.Holds]

theorem Delta.Holds.entry (h : d.Holds k) : ∃ e, d.entryOf k = some e := by
  cases he : d.entryOf k with
  | none => exact absurd h (entryOf_eq_none.mp he)
  | some e => exact ⟨e,rfl⟩

theorem lastEntry_none (h : ∀ d ∈ ds, ¬d.Holds k) : lastEntry ds k = none :=
  List.findSome?_eq_none_iff.mpr fun d hd => entryOf_eq_none.mpr (h d hd)

theorem LastWrite.mem (h : LastWrite k ds n e) : ∃ d ∈ ds, d.Holds k ∧ d.num = n := by
  induction h with
  | @here d ds e p he _ =>
    have he := entryOf_eq_some he
    exact ⟨d,List.mem_cons_self,⟨e,he⟩,rfl⟩
  | there _ _ ih =>
    obtain ⟨d,hd,hk⟩ := ih
    exact ⟨d,List.mem_cons_of_mem _ hd,hk⟩

theorem convert_property {name recordId : String} (h : e.key = .property name recordId)
    (p : Option Property) : e.convert p = e := by
  cases e <;> first | rfl | cases h

/-- Properties are written as they are decoded. -/
theorem LastWrite.lastEntry {name recordId : String}
    (h : LastWrite (.property name recordId) ds n e) :
    lastEntry ds (.property name recordId) = some e := by
  induction h with
  | @here d ds e p he _ =>
    rw [convert_property (entryOf_eq_some he).2,LedgerSync.lastEntry,List.findSome?_cons,he]
  | there hd _ ih =>
    rw [LedgerSync.lastEntry,List.findSome?_cons,entryOf_eq_none.mpr hd]
    exact ih

end Entries

section Steps

variable {sha : Sha512} {d : Delta} {ds : List Delta} {k : Key} {e : Entry} {db db' : Db}

/-- The property that `addPropertyPage` finds for a page. -/
def readProperty (db : Db) : Entry → Option Property
  | .propertyPage page => (pageProperties page db).head?
  | _ => none

theorem entry_stateAdder (e : Entry) (n : Nat) (db : Db) :
    (stateAdder e n).entry db = e.convert (readProperty db e) := by
  cases e <;> rfl

theorem num_stateAdder (e : Entry) (n : Nat) : (stateAdder e n).num = n := by
  cases e <;> rfl

/-- The documents of a database whose log is a key's writes. -/
theorem log_of_docs {ws : List (Nat × Entry)} (h : db.docs k = spans MAX_SAFE_INTEGER ws) :
    db.log k = ws := by
  rw [Db.log,h,writes_spans]

theorem docs_insert (hfresh : ∀ b ∈ db.blocks, b.blockNum ≠ d.num) (k : Key) :
    (insert d.block db).docs k = db.docs k := by
  rw [insert_fresh hfresh]
  rfl

/-- A page is converted as it is to be if the last write of its property is the last entry. -/
theorem readProperty_of_docs {page : PageDoc} {ws : List (Nat × Entry)}
    (hdocs : db.docs (.property page.name page.recordId) = spans MAX_SAFE_INTEGER ws)
    (htop : ∀ w, ws.getLast? = some w → w.1 < MAX_SAFE_INTEGER)
    (hlast : ws.getLast?.map Prod.snd = lastEntry ds (.property page.name page.recordId)) :
    readProperty db (.propertyPage page) = propertyOf ds (.propertyPage page) := by
  have hproperty : propertyOf ds (.propertyPage page) =
      (lastEntry ds (.property page.name page.recordId)).bind Entry.toProperty := rfl
  rw [readProperty,pageProperties,hdocs,hproperty,← hlast]
  cases ws using List.reverseRecOn with
  | nil => rfl
  | append_singleton ws w =>
    rw [opened_spans (htop w (by simp))]
    cases hp : w.2.toProperty with
    | none => simp [hp]
    | some p => simp [hp]

/-- A database that reads the latest properties converts a page as it is to be converted. -/
theorem readProperty_eq (hspans : ∀ k, db.docs k = spans MAX_SAFE_INTEGER (db.log k))
    (hlatest : ∀ name recordId, Latest ds db (.property name recordId)) (e : Entry) :
    readProperty db e = propertyOf ds e := by
  cases e with
  | propertyPage page =>
    apply readProperty_of_docs (hspans _)
    · intro w hw
      rcases hlatest page.name page.recordId with ⟨hlog,_⟩ | ⟨ws,v,hlog,hv⟩
      · rw [hlog] at hw
        exact absurd hw (by simp)
      · obtain ⟨d,_,_,hd⟩ := hv.mem
        rw [hlog,List.getLast?_concat,Option.some.injEq] at hw
        rw [← hw,← hd]
        exact d.num_lt
    · rcases hlatest page.name page.recordId with ⟨hlog,hnone⟩ | ⟨ws,v,hlog,hv⟩
      · rw [hlog,lastEntry_none hnone]
        rfl
      · rw [hlog,List.getLast?_concat,hv.lastEntry]
        rfl
  | _ => rfl

theorem tidy_addEntry (h : Tidy db) (e : Entry) (n : Nat) : Tidy (addEntry e n db) := by
  intro t doc hdoc
  rw [addEntry_tables] at hdoc
  split at hdoc
  · next ht =>
    rcases mem_put hdoc with hb | ⟨u,hu,hb⟩
    · rw [hb,ht]
    · rw [← hb]
      exact h t u hu
  · exact h t doc hdoc

theorem Completes.tidy {ops : List Op} (hops : Completes ops db db') (h : Tidy db) : Tidy db' := by
  induction hops with
  | done db => exact h
  | @exec _ _ op _ _ _ _ ih =>
    cases op with
    | write e n => exact ih (tidy_addEntry h e n)
    | query page n => exact ih h

/-- Handling a new delta adds its entries to the logs of their keys. -/
theorem Handled.logs (hs : Synced ds db) (hd : Handled db d db') (hwf : d.WellFormed sha)
    (hnew : ∀ d' ∈ ds, d'.num < d.num) :
    db'.blocks = db.blocks ++ [d.block] ∧ Tidy db' ∧
      (∀ k, ¬d.Holds k → db'.docs k = db.docs k) ∧
      ∀ k e, d.entryOf k = some e →
        ∃ p, (p = readProperty db e ∨ p = readProperty db' e) ∧
          db'.docs k = spans MAX_SAFE_INTEGER (db.log k ++ [(d.num,e.convert p)]) := by
  obtain ⟨db₁,hops,rfl⟩ := hd
  have hsettled := hops.settled (by rw [keys_ops]; exact hwf.keys)
  have hfresh : ∀ b ∈ db₁.blocks, b.blockNum ≠ d.num := by
    rw [hsettled.blocks,hs.blocks]
    intro b hb
    obtain ⟨d',hd',rfl⟩ := List.mem_map.mp (List.mem_reverse.mp hb)
    exact (hnew d' hd').ne
  have hread : ∀ e, readProperty (insert d.block db₁) e = readProperty db₁ e := by
    rw [insert_fresh hfresh]
    intro e
    cases e <;> rfl
  refine ⟨?_,?_,fun k hk => ?_,fun k e he => ?_⟩
  · rw [insert_fresh hfresh,← hsettled.blocks]
  · rw [insert_fresh hfresh]
    exact hops.tidy hs.tidy
  · rw [docs_insert hfresh]
    exact hsettled.other k (ops_key_ne hk)
  · obtain ⟨hmem,rfl⟩ := entryOf_eq_some he
    obtain ⟨e',he',_,hdocs⟩ := hsettled.written _ (List.mem_map_of_mem hmem)
    rw [entry_stateAdder,entry_stateAdder] at he'
    rw [key_stateAdder,num_stateAdder,hs.docs,renew_spans] at hdocs
    · rw [docs_insert hfresh,hdocs,hread]
      rcases he' with rfl | rfl
      · exact ⟨_,Or.inl rfl,rfl⟩
      · exact ⟨_,Or.inr rfl,rfl⟩
    · intro w hw
      obtain ⟨d',hd',_,hn⟩ := hs.past _ w hw
      exact hn ▸ hnew d' hd'

/-- One delta keeps the log of a key up to date, once the logs of the properties are. -/
theorem Latest.step (h : Latest ds db k)
    (hother : ¬d.Holds k → db'.log k = db.log k)
    (hwrite : ∀ e, d.entryOf k = some e → ∃ p, (e.convert p = e.convert (propertyOf ds e) ∨
      e.convert p = e.convert (propertyOf (d :: ds) e)) ∧
      db'.log k = db.log k ++ [(d.num,e.convert p)]) : Latest (d :: ds) db' k := by
  by_cases hk : d.Holds k
  · obtain ⟨e,he⟩ := hk.entry
    obtain ⟨p,hp,hlog⟩ := hwrite e he
    refine Or.inr ⟨_,_,hlog,?_⟩
    rcases hp with hp | hp
    · rw [hp]
      exact .here he (Or.inl rfl)
    · rw [hp]
      exact .here he (Or.inr rfl)
  · rw [Latest,hother hk]
    rcases h with ⟨hlog,hnone⟩ | ⟨ws,w,hlog,hw⟩
    · exact Or.inl ⟨hlog,List.forall_mem_cons.mpr ⟨hk,hnone⟩⟩
    · exact Or.inr ⟨ws,w,hlog,hw.there hk⟩

theorem Synced.step (hs : Synced ds db) (hd : Handled db d db') (hwf : d.WellFormed sha)
    (hnew : ∀ d' ∈ ds, d'.num < d.num) : Synced (d :: ds) db' := by
  obtain ⟨hblocks,htidy,hother,hwrite⟩ := hd.logs hs hwf hnew
  have hlog : ∀ k, ¬d.Holds k → db'.log k = db.log k := fun k hk => by
    rw [Db.log,hother k hk,Db.log]
  have hproperty : ∀ name recordId, Latest (d :: ds) db' (.property name recordId) := by
    intro name recordId
    refine (hs.latest _).step (hlog _) fun e he => ?_
    obtain ⟨p,_,hdocs⟩ := hwrite _ e he
    have hkey := (entryOf_eq_some he).2
    refine ⟨p,Or.inl ?_,log_of_docs hdocs⟩
    rw [convert_property hkey,convert_property hkey]
  have hspans : ∀ k, db'.docs k = spans MAX_SAFE_INTEGER (db'.log k) := by
    intro k
    by_cases hk : d.Holds k
    · obtain ⟨e,he⟩ := hk.entry
      obtain ⟨p,_,hdocs⟩ := hwrite k e he
      rw [log_of_docs hdocs,hdocs]
    · rw [hlog k hk,hother k hk]
      exact hs.docs k
  refine ⟨?_,htidy,hspans,fun k w hw => ?_,fun k => ?_⟩
  · rw [hblocks,hs.blocks,List.map_cons,List.reverse_cons]
  · by_cases hk : d.Holds k
    · obtain ⟨e,he⟩ := hk.entry
      obtain ⟨p,_,hdocs⟩ := hwrite k e he
      rw [log_of_docs hdocs,List.mem_append,List.mem_singleton] at hw
      rcases hw with hw | rfl
      · obtain ⟨d',hd',hold⟩ := hs.past k w hw
        exact ⟨d',List.mem_cons_of_mem _ hd',hold⟩
      · exact ⟨d,List.mem_cons_self,hk,rfl⟩
    · rw [hlog k hk] at hw
      obtain ⟨d',hd',hold⟩ := hs.past k w hw
      exact ⟨d',List.mem_cons_of_mem _ hd',hold⟩
  · refine (hs.latest k).step (hlog k) fun e he => ?_
    obtain ⟨p,hp,hdocs⟩ := hwrite k e he
    rw [readProperty_eq hs.docs (fun _ _ => hs.latest _),readProperty_eq hspans hproperty] at hp
    exact ⟨p,hp.imp (congrArg (e.convert ·)) (congrArg (e.convert ·)),log_of_docs hdocs⟩

end Steps

section Runs

variable {sha : Sha512} {h : List (Db × Delta)} {db : Db}

theorem synced_empty : Synced [] Db.empty := by
  have hlog : ∀ k, Db.empty.log k = [] := fun _ => rfl
  refine ⟨rfl,fun _ => List.forall_mem_nil _,fun k => ?_,fun k w hw => ?_,
    fun k => Or.inl ⟨hlog k,List.forall_mem_nil _⟩⟩
  · rw [hlog]
    rfl
  · rw [hlog] at hw
    exact absurd hw List.not_mem_nil

/-- The invariant holds after every delta of a run in increasing order. -/
theorem synced (hr : Run Handled Db.empty h db) (hinc : Increasing (deltas h))
    (hwf : ∀ d ∈ deltas h, d.WellFormed sha) : Synced (deltas h) db := by
  induction hr with
  | nil => exact synced_empty
  | snoc hr hd ih =>
    obtain ⟨hnew,hinc⟩ := List.pairwise_cons.mp hinc
    obtain ⟨hd',hwf⟩ := List.forall_mem_cons.mp hwf
    exact (ih hinc hwf).step hd hd' hnew

/-- The head is the greatest number of a delivered block. -/
theorem head_of_synced {ds : List Delta} {head : Nat} (hs : Synced ds db)
    (hhead : currentBlock db = some head) :
    head < MAX_SAFE_INTEGER ∧ ∀ d ∈ ds, d.num ≤ head := by
  rw [currentBlock,hs.blocks,List.max?_eq_some_iff] at hhead
  obtain ⟨hmem,hmax⟩ := hhead
  constructor
  · obtain ⟨b,_,rfl⟩ := List.mem_map.mp hmem
    exact b.blockNum_lt
  · intro d hd
    apply hmax
    exact List.mem_map_of_mem (List.mem_reverse.mpr (List.mem_map_of_mem hd))

/-- At the head a query sees for every key that was ever written one document, the entry of
the last delta that held the key, and no other documents. -/
theorem head_shows_last_write {head : Nat} (hwf : ∀ d ∈ deltas h, d.WellFormed sha)
    (hinc : Increasing (deltas h)) (hr : Run Handled Db.empty h db)
    (hhead : currentBlock db = some head) :
    (∀ k, (∃ d ∈ deltas h, d.Holds k) →
      ∃ doc, slice Entry.key k (getTable k.table head db) = [doc] ∧
        LastWrite k (deltas h) doc.startNum doc.body) ∧
    ∀ t, ∀ doc ∈ getTable t head db,
      doc.body.key.table = t ∧ ∃ d ∈ deltas h, d.Holds doc.body.key := by
  have hs := synced hr hinc hwf
  obtain ⟨htop,hmax⟩ := head_of_synced hs hhead
  constructor
  · intro k hk
    have hslice : slice Entry.key k (getTable k.table head db) = visible head (db.docs k) := by
      rw [getTable,visible_slice]
      rfl
    rcases hs.latest k with ⟨_,hnone⟩ | ⟨ws,w,hlog,hw⟩
    · obtain ⟨d,hd,hold⟩ := hk
      exact absurd hold (hnone d hd)
    · obtain ⟨d,hd,_,hn⟩ := hw.mem
      refine ⟨⟨w.2,w.1,MAX_SAFE_INTEGER⟩,?_,hw⟩
      rw [hslice,hs.docs,hlog]
      exact visible_spans (hn ▸ hmax d hd) htop
  · intro t doc hdoc
    have hdoc : doc ∈ db.tables t := (List.mem_filter.mp hdoc).1
    have htable := hs.tidy t doc hdoc
    have hmem : doc ∈ db.docs doc.body.key := by
      rw [Db.docs,htable]
      exact mem_slice.mpr ⟨hdoc,rfl⟩
    obtain ⟨d,hd,hold,_⟩ := hs.past doc.body.key _
      (List.mem_map_of_mem (f := fun doc : Doc => (doc.startNum,doc.body)) hmem)
    exact ⟨htable,d,hd,hold⟩

end Runs

namespace Sample
open DgcRestApi.Sample Addressing

def ann (name : String) : Participant := { publicKey := "A", name }

/-- A block that stores one participant, with the name for its id. -/
def joined (n : Nat) (name : String) (h : n < MAX_SAFE_INTEGER ∧ name ≠ "") : Delta where
  block := ⟨n,name,"",h.1,h.2⟩
  changes := [⟨makeParticipantAddress sha "A",.participants [ann name]⟩]

/-- The database after handling it. -/
def join (n : Nat) (name : String) (h : n < MAX_SAFE_INTEGER ∧ name ≠ "") (db : Db) : Db :=
  insert (joined n name h).block (addEntry (.participant (ann name).toObject) n db)

theorem entries_joined (n : Nat) (name : String) (h : n < MAX_SAFE_INTEGER ∧ name ≠ "") :
    (joined n name h).entries = [.participant (ann name).toObject] := by
  simp only [Delta.entries,joined,List.flatMap_cons,List.flatMap_nil,Change.entries,getEntries,
    getProtoName,typePrefix_eq,typeCode_participant]
  rfl

theorem wellFormed_joined (n : Nat) (name : String) (h : n < MAX_SAFE_INTEGER ∧ name ≠ "") :
    (joined n name h).WellFormed sha := by
  refine ⟨List.forall_mem_singleton.mpr ⟨⟨by simp [Keyed.Distinct],?_⟩,?_,?_⟩,
    List.nodup_singleton _⟩
  · exact List.forall_mem_singleton.mpr rfl
  · exact ⟨ann name,List.mem_singleton_self _,rfl⟩
  · exact (by decide +kernel : (makeParticipantAddress sha "A").length = 70)

theorem handled_joined (n : Nat) (name : String) (h : n < MAX_SAFE_INTEGER ∧ name ≠ "")
    (db : Db) :
    Handled db (joined n name h) (join n name h db) := by
  refine ⟨_,?_,rfl⟩
  rw [Delta.ops,entries_joined]
  exact Completes.next (o := .write _ n) trivial (.done _)

theorem ann_joins : 1 < MAX_SAFE_INTEGER ∧ "Ann" ≠ "" := by decide

/-- Ann joins in block 1 and is called Anna from block 2 on. -/
def renamed : List (Db × Delta) :=
  [(join 1 "Ann" (by decide) Db.empty,joined 2 "Anna" (by decide)),
    (Db.empty,joined 1 "Ann" (by decide))]

def renamedDb : Db := join 2 "Anna" (by decide) (join 1 "Ann" (by decide) Db.empty)

theorem run_renamed : Run Handled Db.empty renamed renamedDb :=
  (Run.nil.snoc (handled_joined 1 "Ann" (by decide) _)).snoc
    (handled_joined 2 "Anna" (by decide) _)

theorem wellFormed_renamed : ∀ d ∈ deltas renamed, d.WellFormed sha :=
  List.forall_mem_cons.mpr ⟨wellFormed_joined 2 "Anna" (by decide),
    List.forall_mem_singleton.mpr (wellFormed_joined 1 "Ann" (by decide))⟩

theorem increasing_renamed : Increasing (deltas renamed) :=
  List.pairwise_pair.mpr (by decide)

theorem holds_joined (n : Nat) (name : String) (h : n < MAX_SAFE_INTEGER ∧ name ≠ "") :
    (joined n name h).Holds (.publicKey "A") := by
  rw [Delta.Holds,entries_joined]
  exact ⟨_,List.mem_singleton_self _,rfl⟩

end Sample

theorem head_shows_renamed : ∃ doc,
    slice Entry.key (.publicKey "A") (getTable .participants 2 Sample.renamedDb) = [doc] ∧
      LastWrite (.publicKey "A") (deltas Sample.renamed) doc.startNum doc.body :=
  (head_shows_last_write Sample.wellFormed_renamed Sample.increasing_renamed
    Sample.run_renamed rfl).1 (.publicKey "A")
    ⟨Sample.joined 2 "Anna" (by decide),List.mem_cons_self,Sample.holds_joined 2 "Anna" _⟩

end DgcRestApi.LedgerSync
