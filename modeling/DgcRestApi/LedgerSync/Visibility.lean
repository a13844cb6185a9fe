import DgcRestApi.LedgerSync.Queue
import DgcRestApi.LedgerSync.Snapshot

/-!
# When a block becomes visible

The queue inserts a block without having waited for the operations of its entries. If it
happens to insert each block after its operations, and each page reads its property after
the property was written, then the documents are complete: the tables hold exactly the
history of the deltas so far, except for the keys whose operations are pending.
-/

namespace DgcRestApi.LedgerSync
open Versions Fallible

/-- The writes of a key by deltas listed newest first; pages are converted with the property
as of their own block. -/
def history : List Delta → Key → List (Nat × Entry)
  | [],_ => []
  | d :: ds,k => history ds k ++
      ((d.entryOf k).map fun e => (d.num,e.convert (propertyOf (d :: ds) e))).toList

section History

variable {d : Delta} {ds : List Delta} {k : Key} {e : Entry} {w : Nat × Entry}

theorem history_some (he : d.entryOf k = some e) :
    history (d :: ds) k = history ds k ++ [(d.num,e.convert (propertyOf (d :: ds) e))] := by
  rw [history,he]
  rfl

theorem history_none (hk : ¬d.Holds k) : history (d :: ds) k = history ds k := by
  rw [history,entryOf_eq_none.mpr hk]
  exact List.append_nil _

theorem mem_history (hw : w ∈ history ds k) : ∃ before d after e, ds = before ++ d :: after ∧
    d.entryOf k = some e ∧ w = (d.num,e.convert (propertyOf (d :: after) e)) := by
  induction ds with
  | nil => exact absurd hw List.not_mem_nil
  | cons d ds ih =>
    by_cases hk : d.Holds k
    · obtain ⟨e,he⟩ := hk.entry
      rw [history_some he,List.mem_append,List.mem_singleton] at hw
      rcases hw with hw | rfl
      · obtain ⟨before,d',after,e',rfl,he',rfl⟩ := ih hw
        exact ⟨d :: before,d',after,e',rfl,he',rfl⟩
      · exact ⟨[],d,ds,e,rfl,he,rfl⟩
    · rw [history_none hk] at hw
      obtain ⟨before,d',after,e',rfl,he',rfl⟩ := ih hw
      exact ⟨d :: before,d',after,e',rfl,he',rfl⟩

theorem history_append (ds₁ ds₂ : List Delta) (k : Key) :
    ∃ ws, history (ds₁ ++ ds₂) k = history ds₂ k ++ ws := by
  induction ds₁ with
  | nil => exact ⟨[],(List.append_nil _).symm⟩
  | cons d ds₁ ih =>
    obtain ⟨ws,hws⟩ := ih
    rw [List.cons_append,history,hws,List.append_assoc]
    exact ⟨_,rfl⟩

theorem num_of_history (hw : w ∈ history ds k) : ∃ d ∈ ds, d.num = w.1 := by
  obtain ⟨before,d,after,e,rfl,_,rfl⟩ := mem_history hw
  exact ⟨d,List.mem_append_right _ List.mem_cons_self,rfl⟩

/-- The history of a property ends in its last entry. -/
theorem history_last (name recordId : String) :
    (history ds (.property name recordId)).getLast?.map Prod.snd =
      lastEntry ds (.property name recordId) := by
  induction ds with
  | nil => rfl
  | cons d ds ih =>
    rw [lastEntry,List.findSome?_cons]
    cases he : d.entryOf (.property name recordId) with
    | none =>
      rw [history_none (entryOf_eq_none.mp he)]
      exact ih
    | some e =>
      rw [history_some he,List.getLast?_concat,Option.map_some,
        convert_property (entryOf_eq_some he).2]

/-- A database that holds the history of a property converts its pages with it. -/
theorem readProperty_of_history {page : PageDoc} {db : Db}
    (hdocs : db.docs (.property page.name page.recordId) =
      spans MAX_SAFE_INTEGER (history ds (.property page.name page.recordId))) :
    readProperty db (.propertyPage page) = propertyOf ds (.propertyPage page) := by
  apply readProperty_of_docs hdocs
  · intro w hw
    obtain ⟨d,_,hd⟩ := num_of_history (List.mem_of_getLast? hw)
    exact hd ▸ d.num_lt
  · exact history_last _ _

end History

/-- What a pending operation of a delta will write is right: the entry, or the page converted
with the property as of the delta. -/
def Right (d : Delta) (ds : List Delta) : Op → Prop
  | .write e n => n = d.num ∧
      ∃ e₀, d.entryOf e.key = some e₀ ∧ e = e₀.convert (propertyOf (d :: ds) e₀)
  | .query page n => n = d.num ∧
      d.entryOf (.page page.name page.recordId page.pageNum) = some (.propertyPage page)

/-- While `d` is handled after `ds`, the operations in `ops` are pending and those of the
keys `unsent` are still to be sent. The documents of these keys are the history of `ds`,
those of the other keys the history with `d`. -/
structure Busy (d : Delta) (ds : List Delta) (unsent : Key → Prop) (ops : List Op) (db : Db) :
    Prop where
  blocks : db.blocks = (ds.map Delta.block).reverse
  tidy : Tidy db
  nodup : (ops.map Op.key).Nodup
  right : ∀ op ∈ ops, Right d ds op
  sent : ∀ op ∈ ops, ¬unsent op.key
  pages : ∀ k, unsent k → k.table = .propertyPages
  old : ∀ k, (unsent k ∨ ∃ op ∈ ops, op.key = k) →
    db.docs k = spans MAX_SAFE_INTEGER (history ds k)
  new : ∀ k, ¬unsent k → (∀ op ∈ ops, op.key ≠ k) →
    db.docs k = spans MAX_SAFE_INTEGER (history (d :: ds) k)

section Operations

variable {d : Delta} {ds : List Delta} {unsent : Key → Prop} {db : Db} {ops ops' : List Op}
variable {e : Entry} {n : Nat} {page : PageDoc}

theorem Busy.perm (h : Busy d ds unsent ops db) (hp : ops.Perm ops') :
    Busy d ds unsent ops' db where
  blocks := h.blocks
  tidy := h.tidy
  nodup := ((hp.map Op.key).nodup_iff).mp h.nodup
  right op hop := h.right op (hp.mem_iff.mpr hop)
  sent op hop := h.sent op (hp.mem_iff.mpr hop)
  pages := h.pages
  old k hk := h.old k (hk.imp_right fun ⟨op,hop,hk⟩ => ⟨op,hp.mem_iff.mpr hop,hk⟩)
  new k hk hops := h.new k hk fun op hop => hops op (hp.mem_iff.mp hop)

theorem Busy.write (h : Busy d ds unsent (.write e n :: ops) db)
    (hnew : ∀ d' ∈ ds, d'.num < d.num) : Busy d ds unsent ops (addEntry e n db) := by
  obtain ⟨hkey,hnodup⟩ := List.nodup_cons.mp h.nodup
  obtain ⟨rfl,e₀,he₀,he⟩ := h.right _ List.mem_cons_self
  have hne : ∀ op ∈ ops, op.key ≠ e.key := fun op hop heq =>
    hkey (List.mem_map.mpr ⟨op,hop,heq⟩)
  have hself : (addEntry e d.num db).docs e.key =
      spans MAX_SAFE_INTEGER (history (d :: ds) e.key) := by
    rw [docs_addEntry,h.old e.key (Or.inr ⟨_,List.mem_cons_self,rfl⟩),renew_spans,
      history_some he₀,← he]
    intro w hw
    obtain ⟨d',hd',hn⟩ := num_of_history hw
    exact hn ▸ hnew d' hd'
  refine ⟨addEntry_blocks.trans h.blocks,tidy_addEntry h.tidy e d.num,hnodup,
    fun op hop => h.right op (List.mem_cons_of_mem _ hop),
    fun op hop => h.sent op (List.mem_cons_of_mem _ hop),h.pages,fun k hk => ?_,
    fun k hk hops => ?_⟩
  · have hk' : e.key ≠ k := by
      rintro rfl
      rcases hk with hk | ⟨op,hop,hk⟩
      · exact h.sent _ List.mem_cons_self hk
      · exact hne op hop hk
    rw [docs_addEntry_ne hk']
    exact h.old k (hk.imp_right fun ⟨op,hop,hk⟩ => ⟨op,List.mem_cons_of_mem _ hop,hk⟩)
  · by_cases hk' : e.key = k
    · exact hk' ▸ hself
    · rw [docs_addEntry_ne hk']
      exact h.new k hk (List.forall_mem_cons.mpr ⟨hk',hops⟩)

/-- A property query that is answered when no write of the property is pending sends the
page that is to be written. -/
theorem Busy.query (h : Busy d ds unsent (.query page n :: ops) db)
    (hread : ∀ op ∈ ops, op.key ≠ .property page.name page.recordId) :
    Busy d ds unsent (.write (.propertyPage (convertPage page db)) n :: ops) db := by
  obtain ⟨rfl,he⟩ := h.right _ List.mem_cons_self
  have hkey : (Op.write (.propertyPage (convertPage page db)) d.num).key =
      (Op.query page d.num).key := key_convertPage page db
  have hdocs := h.new (.property page.name page.recordId)
    (fun hk => absurd (h.pages _ hk) (by simp [Key.table]))
    (List.forall_mem_cons.mpr ⟨by simp [Op.key],hread⟩)
  have hright : Right d ds (.write (.propertyPage (convertPage page db)) d.num) := by
    refine ⟨rfl,.propertyPage page,?_,?_⟩
    · rw [key_convertPage]
      exact he
    · rw [← readProperty_of_history hdocs]
      rfl
  refine ⟨h.blocks,h.tidy,?_,?_,?_,h.pages,fun k hk => h.old k ?_,fun k hk hops => h.new k hk ?_⟩
  · rw [List.map_cons,hkey]
    exact h.nodup
  · exact List.forall_mem_cons.mpr ⟨hright,fun op hop => h.right op (List.mem_cons_of_mem _ hop)⟩
  · refine List.forall_mem_cons.mpr ⟨?_,fun op hop => h.sent op (List.mem_cons_of_mem _ hop)⟩
    rw [hkey]
    exact h.sent _ List.mem_cons_self
  · rcases hk with hk | ⟨op,hop,hk⟩
    · exact Or.inl hk
    · rcases List.mem_cons.mp hop with rfl | hop
      · exact Or.inr ⟨_,List.mem_cons_self,hkey.symm.trans hk⟩
      · exact Or.inr ⟨op,List.mem_cons_of_mem _ hop,hk⟩
  · obtain ⟨hfirst,hrest⟩ := List.forall_mem_cons.mp hops
    exact List.forall_mem_cons.mpr ⟨hkey.symm.trans_ne hfirst,hrest⟩

end Operations

section Sending

variable {sha : Sha512} {c : Change} {changes pageChanges otherChanges : List Change}
variable {block : Block} {d : Delta} {ds : List Delta} {db : Db}

/-- The entries of a change are pages exactly when its address says so. -/
theorem entries_table (hc : c.WellFormed sha) : ∃ name, getProtoName c.address = .ok name ∧
    ∀ e ∈ c.entries, (e.key.table = .propertyPages ↔ name = .PropertyPage) := by
  have hget := hc.decodes.1
  rw [getEntries] at hget
  obtain ⟨name,hname,hget⟩ := bind_eq_ok.mp hget
  refine ⟨name,hname,fun e he => ?_⟩
  split at hget
  case h_8 => cases hget
  all_goals
    rw [← Except.ok.inj hget] at he
    obtain ⟨a,_,rfl⟩ := List.mem_map.mp he
    simp [Entry.key,Key.table]

/-- The changes of the processor decode, and are parted into pages and others. -/
theorem partition_ok (hwf : ∀ c ∈ changes, c.WellFormed sha) :
    ∃ pageChanges otherChanges, partition changes = .ok (pageChanges,otherChanges) ∧
      (∀ e ∈ pageChanges.flatMap Change.entries, e.key.table = .propertyPages) ∧
      ∀ e ∈ otherChanges.flatMap Change.entries, e.key.table ≠ .propertyPages := by
  induction changes with
  | nil => exact ⟨[],[],rfl,List.forall_mem_nil _,List.forall_mem_nil _⟩
  | cons c changes ih =>
    obtain ⟨hc,hwf⟩ := List.forall_mem_cons.mp hwf
    obtain ⟨pages,others,hpart,hpages,hothers⟩ := ih hwf
    obtain ⟨name,hname,htable⟩ := entries_table hc
    rw [partition,hname,hpart]
    by_cases hn : name = .PropertyPage
    · refine ⟨c :: pages,others,if_pos hn,fun e he => ?_,hothers⟩
      rcases List.mem_append.mp he with he | he
      · exact (htable e he).mpr hn
      · exact hpages e he
    · refine ⟨pages,c :: others,if_neg hn,hpages,fun e he => ?_⟩
      rcases List.mem_append.mp he with he | he
      · exact fun ht => hn ((htable e he).mp ht)
      · exact hothers e he

theorem sendEach_ok (hwf : ∀ c ∈ changes, c.WellFormed sha) :
    sendEach block changes =
      ((changes.flatMap Change.entries).map fun e => stateAdder e block.blockNum,true) := by
  induction changes with
  | nil => rfl
  | cons c changes ih =>
    obtain ⟨hc,hwf⟩ := List.forall_mem_cons.mp hwf
    have hadder : entryAdder block c =
        .ok (c.entries.map fun e => stateAdder e block.blockNum) := by
      rw [entryAdder,hc.decodes.1]
      rfl
    rw [sendEach,hadder,ih hwf,List.flatMap_cons,List.map_append]

/-- The two rounds of entries that handling a delta sends. -/
structure Rounds (d : Delta) (pageChanges otherChanges : List Change) : Prop where
  perm : (otherChanges.flatMap Change.entries ++ pageChanges.flatMap Change.entries).Perm d.entries
  pages : ∀ e ∈ pageChanges.flatMap Change.entries, e.key.table = .propertyPages
  others : ∀ e ∈ otherChanges.flatMap Change.entries, e.key.table ≠ .propertyPages
  sendPages : sendEach d.block pageChanges =
    ((pageChanges.flatMap Change.entries).map fun e => stateAdder e d.num,true)
  sendOthers : sendEach d.block otherChanges =
    ((otherChanges.flatMap Change.entries).map fun e => stateAdder e d.num,true)

theorem rounds (hd : d.WellFormed sha) : ∃ pageChanges otherChanges,
    partition d.changes = .ok (pageChanges,otherChanges) ∧ Rounds d pageChanges otherChanges := by
  obtain ⟨pages,others,hpart,hpages,hothers⟩ := partition_ok hd.changes
  have hperm := partition_perm hpart
  have hwf : ∀ c ∈ others ++ pages, c.WellFormed sha := fun c hc =>
    hd.changes c (hperm.mem_iff.mp hc)
  obtain ⟨hwf₁,hwf₂⟩ := List.forall_mem_append.mp hwf
  refine ⟨pages,others,hpart,?_,hpages,hothers,sendEach_ok hwf₂,sendEach_ok hwf₁⟩
  rw [← List.flatMap_append]
  exact hperm.flatMap_right _

/-- The keys of the pages of a delta. -/
def PageOf (d : Delta) (k : Key) : Prop := k.table = .propertyPages ∧ d.Holds k

theorem right_stateAdder {e : Entry} (hd : d.WellFormed sha) (he : e ∈ d.entries) :
    Right d ds (stateAdder e d.num) := by
  have hentry : d.entryOf e.key = some e := (Keyed.find_eq_some_iff hd.keys).mpr ⟨he,rfl⟩
  cases e with
  | propertyPage page => exact ⟨rfl,hentry⟩
  | _ => exact ⟨rfl,_,hentry,rfl⟩

theorem mem_entries {pages others : List Change} {e : Entry} (hr : Rounds d pages others) :
    e ∈ d.entries ↔
      e ∈ others.flatMap Change.entries ∨ e ∈ pages.flatMap Change.entries := by
  rw [← hr.perm.mem_iff,List.mem_append]

/-- After the first round the pages are still to be sent. -/
theorem busy_start {pages others : List Change} (hd : d.WellFormed sha) (hr : Rounds d pages others)
    (hblocks : db.blocks = (ds.map Delta.block).reverse) (htidy : Tidy db)
    (hdocs : ∀ k, db.docs k = spans MAX_SAFE_INTEGER (history ds k)) :
    Busy d ds (PageOf d)
      ((others.flatMap Change.entries).map fun e => stateAdder e d.num) db := by
  have hkeys := hd.keys
  rw [← (hr.perm.map Entry.key).nodup_iff,List.map_append] at hkeys
  refine ⟨hblocks,htidy,?_,?_,?_,fun k hk => hk.1,fun k _ => hdocs k,fun k hk hops => ?_⟩
  · rw [keys_sent]
    exact (List.nodup_append.mp hkeys).1
  · intro op hop
    obtain ⟨e,he,rfl⟩ := List.mem_map.mp hop
    exact right_stateAdder hd ((mem_entries hr).mpr (Or.inl he))
  · intro op hop hk
    obtain ⟨e,he,rfl⟩ := List.mem_map.mp hop
    rw [key_stateAdder] at hk
    exact hr.others e he hk.1
  · rw [history_none]
    · exact hdocs k
    · rintro ⟨e,he,rfl⟩
      rcases (mem_entries hr).mp he with he' | he'
      · exact hops _ (List.mem_map_of_mem he') (key_stateAdder e d.num)
      · exact hk ⟨hr.pages e he',e,he,rfl⟩

/-- At the timer the pages are sent. -/
theorem Busy.fire {pages others : List Change} {ops : List Op} (hd : d.WellFormed sha)
    (hr : Rounds d pages others) (h : Busy d ds (PageOf d) ops db) :
    Busy d ds (fun _ => False)
      (ops ++ (pages.flatMap Change.entries).map fun e => stateAdder e d.num) db := by
  have hkeys := hd.keys
  rw [← (hr.perm.map Entry.key).nodup_iff,List.map_append] at hkeys
  have hpage : ∀ e ∈ pages.flatMap Change.entries, PageOf d e.key := fun e he =>
    ⟨hr.pages e he,e,(mem_entries hr).mpr (Or.inr he),rfl⟩
  refine ⟨h.blocks,h.tidy,?_,?_,fun _ _ hk => hk,fun k hk => hk.elim,fun k hk => ?_,
    fun k _ hops => ?_⟩
  · rw [List.map_append,keys_sent,List.nodup_append]
    refine ⟨h.nodup,(List.nodup_append.mp hkeys).2.1,?_⟩
    rintro k hk _ hk' rfl
    obtain ⟨op,hop,rfl⟩ := List.mem_map.mp hk
    obtain ⟨e,he,hkey⟩ := List.mem_map.mp hk'
    exact h.sent op hop (hkey ▸ hpage e he)
  · refine List.forall_mem_append.mpr ⟨h.right,fun op hop => ?_⟩
    obtain ⟨e,he,rfl⟩ := List.mem_map.mp hop
    exact right_stateAdder hd ((mem_entries hr).mpr (Or.inr he))
  · apply h.old k
    obtain ⟨op,hop,rfl⟩ := hk.resolve_left id
    rcases List.mem_append.mp hop with hop | hop
    · exact Or.inr ⟨op,hop,rfl⟩
    · obtain ⟨e,he,rfl⟩ := List.mem_map.mp hop
      rw [key_stateAdder]
      exact Or.inl (hpage e he)
  · obtain ⟨hops,hsent⟩ := List.forall_mem_append.mp hops
    refine h.new k (fun hk => ?_) hops
    obtain ⟨htable,e,he,rfl⟩ := hk
    rcases (mem_entries hr).mp he with he | he
    · exact hr.others e he htable
    · exact hsent _ (List.mem_map_of_mem he) (key_stateAdder e d.num)

end Sending

/-- All operations of the deltas so far are done. -/
structure Quiet (ds : List Delta) (db : Db) : Prop where
  blocks : db.blocks = (ds.map Delta.block).reverse
  tidy : Tidy db
  docs : ∀ k, db.docs k = spans MAX_SAFE_INTEGER (history ds k)

/-- The states of a run in which the queue happens to wait for its operations, with the
deltas received so far, newest first. -/
inductive Tracks (sha : Sha512) : List Delta → Sync → Prop
  | idle {ds : List Delta} {db : Db} (h : Quiet ds db) : Tracks sha ds ⟨[],.idle,[],db⟩
  | waiting {d : Delta} {ds queue : List Delta} {pages others : List Change} {ops : List Op}
      {db : Db} (hd : d.WellFormed sha) (hr : Rounds d pages others)
      (h : Busy d ds (PageOf d) ops db) :
      Tracks sha (queue.reverse ++ d :: ds) ⟨queue,.waiting d.block pages,ops,db⟩
  | inserting {d : Delta} {ds queue : List Delta} {ops : List Op} {db : Db}
      (h : Busy d ds (fun _ => False) ops db) :
      Tracks sha (queue.reverse ++ d :: ds) ⟨queue,.inserting d.block,ops,db⟩
  | inserted {d : Delta} {ds queue : List Delta} {db : Db} (h : Quiet (d :: ds) db) :
      Tracks sha (queue.reverse ++ d :: ds) ⟨queue,.inserted d.block none,[],db⟩

/-- The queue waits for its operations: a page reads its property when no write of the
property is pending and is then taken by the driver, and a block is inserted when no
operation is pending. -/
def Awaited : Sync × Event → Prop
  | (s,.exec (.query page _)) =>
    (∀ op ∈ s.ops, op.key ≠ .property page.name page.recordId) ∧
      (convertPage page s.db).defined = true
  | (s,.insert) => s.ops = []
  | _ => True

/-- The deltas received in a history, newest first. -/
def received : List (Sync × Event) → List Delta
  | [] => []
  | (_,.receive d) :: h => d :: received h
  | _ :: h => received h

section Steps

variable {sha : Sha512} {d : Delta} {ds queue : List Delta} {db : Db} {s s' : Sync} {t : Event}

theorem start_eq (hd : d.WellFormed sha) (phase : Phase) : ∃ pages others,
    Rounds d pages others ∧ start d ⟨queue,phase,[],db⟩ =
      ⟨queue,.waiting d.block pages,
        (others.flatMap Change.entries).map fun e => stateAdder e d.num,db⟩ := by
  obtain ⟨pages,others,hpart,hr⟩ := rounds hd
  refine ⟨pages,others,hr,?_⟩
  rw [start,hpart]
  dsimp only
  rw [hr.sendOthers]
  rfl

theorem tracks_runNext (h : Quiet ds db) (hwf : ∀ d ∈ queue, d.WellFormed sha) (phase : Phase) :
    Tracks sha (queue.reverse ++ ds) (runNext ⟨queue,phase,[],db⟩) := by
  cases queue with
  | nil => exact .idle h
  | cons d queue =>
    have hd := hwf d List.mem_cons_self
    obtain ⟨pages,others,hr,hstart⟩ := @start_eq sha d queue db hd phase
    rw [List.reverse_cons,List.append_assoc]
    change Tracks sha (queue.reverse ++ d :: ds) (start d ⟨queue,phase,[],db⟩)
    rw [hstart]
    exact .waiting hd hr (busy_start hd hr h.blocks h.tidy h.docs)

theorem Tracks.receive (h : Tracks sha ds s) (hd : d.WellFormed sha) :
    Tracks sha (d :: ds) (add d s) := by
  have hpush : ∀ (queue ds : List Delta),
      d :: (queue.reverse ++ ds) = (queue ++ [d]).reverse ++ ds := by simp
  cases h with
  | idle h => exact @tracks_runNext sha ds [d] _ h (List.forall_mem_singleton.mpr hd) .idle
  | waiting hd hr h =>
    rw [hpush]
    exact .waiting hd hr h
  | inserting h =>
    rw [hpush]
    exact .inserting h
  | inserted h =>
    rw [hpush]
    exact .inserted h

/-- The database executes a pending operation. -/
theorem Busy.exec {unsent : Key → Prop} {phase : Phase} {before after : List Op} {op : Op}
    (h : Busy d ds unsent (before ++ op :: after) db) (hnew : ∀ d' ∈ ds, d'.num < d.num)
    (hsafe : Awaited (⟨queue,phase,before ++ op :: after,db⟩,.exec op)) :
    Busy d ds unsent (before ++ ((op.exec db).1 ++ after)) (op.exec db).2 := by
  have hfirst := h.perm List.perm_middle
  cases op with
  | write e n => exact hfirst.write hnew
  | query page n =>
    obtain ⟨hread,hdef⟩ := hsafe
    rw [exec_query hdef]
    refine (hfirst.query fun o ho => hread o ?_).perm List.perm_middle.symm
    rcases List.mem_append.mp ho with ho | ho
    · exact List.mem_append_left _ ho
    · exact List.mem_append_right _ (List.mem_cons_of_mem _ ho)

/-- A block inserted when nothing is pending finds all its documents in place. -/
theorem Busy.insert (h : Busy d ds (fun _ => False) [] db) (hnew : ∀ d' ∈ ds, d'.num < d.num) :
    (insertBlock d.block db).1 = none ∧ Quiet (d :: ds) (insertBlock d.block db).2 := by
  have hnone : db.blocks.find? (fun b => b.blockNum = d.block.blockNum) = none := by
    rw [h.blocks,List.find?_eq_none]
    intro b hb
    obtain ⟨d',hd',rfl⟩ := List.mem_map.mp (List.mem_reverse.mp hb)
    have := hnew d' hd'
    simp only [Delta.num] at this
    simpa using this.ne
  rw [insertBlock,hnone]
  refine ⟨rfl,?_,h.tidy,fun k => h.new k id (List.forall_mem_nil _)⟩
  rw [List.map_cons,List.reverse_cons,← h.blocks]

theorem Tracks.step (h : Tracks sha ds s) (hstep : QueueStep s t s') (hsafe : Awaited (s,t))
    (hinc : Increasing ds) (hwf : ∀ d ∈ ds, d.WellFormed sha) (ht : ∀ d, t ≠ .receive d) :
    Tracks sha ds s' := by
  cases hstep with
  | receive d => exact absurd rfl (ht d)
  | timer hs =>
    cases h with
    | waiting hd hr h =>
      cases hs
      rw [LedgerSync.fire,hr.sendPages]
      exact .inserting (h.fire hd hr)
    | _ => cases hs
  | exec hs =>
    cases h with
    | waiting hd hr h =>
      cases hs
      obtain ⟨hnew,_⟩ := List.pairwise_cons.mp (List.pairwise_append.mp hinc).2.1
      exact .waiting hd hr (Busy.exec h hnew hsafe)
    | inserting h =>
      cases hs
      obtain ⟨hnew,_⟩ := List.pairwise_cons.mp (List.pairwise_append.mp hinc).2.1
      exact .inserting (Busy.exec h hnew hsafe)
    | _ => simp at hs
  | insert hs =>
    cases h with
    | inserting h =>
      cases hs
      obtain ⟨hnew,_⟩ := List.pairwise_cons.mp (List.pairwise_append.mp hinc).2.1
      cases hsafe
      obtain ⟨hnone,hq⟩ := h.insert hnew
      rw [hnone]
      exact .inserted hq
    | _ => cases hs
  | next hs hfork =>
    cases h with
    | inserted h =>
      refine tracks_runNext h (fun d hd => ?_) _
      exact hwf d (List.mem_append_left _ (List.mem_reverse.mpr hd))
    | _ => cases hs
  | fork hs hfork =>
    cases h with
    | inserted h =>
      cases hs
      cases hfork
    | _ => cases hs
  | _ hs => cases h <;> cases hs

end Steps

/-- The deltas up to a number. -/
def asOf (ds : List Delta) (n : Nat) : List Delta := ds.filter fun d => d.num ≤ n

/-- What visible blocks are to guarantee, the deltas received so far being `ds`. -/
structure Complete (ds : List Delta) (s : Sync) : Prop where
  /-- Every document of a block in the blocks table is in its state table. -/
  present : ∀ d ∈ ds, d.block ∈ s.db.blocks → ∀ e ∈ d.entries,
    ∃ doc ∈ s.db.tables e.key.table, doc.startNum = d.num ∧
      doc.body = e.convert (propertyOf (asOf ds d.num) e)
  /-- The operations of two blocks are never pending together. -/
  inOrder : ∀ op ∈ s.ops, ∀ op' ∈ s.ops, op.num = op'.num
  /-- A page was converted with its property as of its own block. -/
  converted : ∀ doc ∈ s.db.tables .propertyPages, ∃ d ∈ ds, d.num = doc.startNum ∧
    ∃ e ∈ d.entries, e.key = doc.body.key ∧
      doc.body = e.convert (propertyOf (asOf ds d.num) e)

section Completeness

variable {sha : Sha512} {d : Delta} {ds before after : List Delta} {s : Sync} {k : Key}

theorem asOf_append (hinc : Increasing (before ++ d :: after)) :
    asOf (before ++ d :: after) d.num = d :: after := by
  obtain ⟨_,htail,hcross⟩ := List.pairwise_append.mp hinc
  have hnone : before.filter (fun d' => d'.num ≤ d.num) = [] := by
    rw [List.filter_eq_nil_iff]
    intro d' hd'
    have := hcross d' hd' d List.mem_cons_self
    simpa using this
  have hall : (d :: after).filter (fun d' => d'.num ≤ d.num) = d :: after := by
    rw [List.filter_eq_self]
    refine List.forall_mem_cons.mpr ⟨by simp,fun d' hd' => ?_⟩
    have := (List.pairwise_cons.mp htail).1 d' hd'
    simpa using this.le
  rw [asOf,List.filter_append,hnone,hall]
  rfl

/-- In a tracked state the documents of each key are a history that contains all blocks of
the blocks table. -/
theorem Tracks.histories (h : Tracks sha ds s) : ∃ done, done <:+ ds ∧ Tidy s.db ∧
    s.db.blocks = (done.map Delta.block).reverse ∧
    (∀ k, ∃ ds', done <:+ ds' ∧ ds' <:+ ds ∧
      s.db.docs k = spans MAX_SAFE_INTEGER (history ds' k)) ∧
    ∃ n, ∀ op ∈ s.ops, op.num = n := by
  have hbusy : ∀ {d : Delta} {ds queue : List Delta} {unsent : Key → Prop} {ops : List Op}
      {db : Db}, Busy d ds unsent ops db → ∃ done, done <:+ queue.reverse ++ d :: ds ∧ Tidy db ∧
      db.blocks = (done.map Delta.block).reverse ∧
      (∀ k, ∃ ds', done <:+ ds' ∧ ds' <:+ queue.reverse ++ d :: ds ∧
        db.docs k = spans MAX_SAFE_INTEGER (history ds' k)) ∧ ∃ n, ∀ op ∈ ops, op.num = n := by
    intro d ds queue unsent ops db h
    have hcons : ds <:+ d :: ds := List.suffix_cons d ds
    have hall : d :: ds <:+ queue.reverse ++ d :: ds := List.suffix_append _ _
    refine ⟨ds,hcons.trans hall,h.tidy,h.blocks,fun k => ?_,d.num,fun op hop => ?_⟩
    · by_cases hk : unsent k ∨ ∃ op ∈ ops, op.key = k
      · exact ⟨ds,List.suffix_refl ds,hcons.trans hall,h.old k hk⟩
      · obtain ⟨hk,hops⟩ := not_or.mp hk
        exact ⟨d :: ds,hcons,hall,h.new k hk fun op hop hkey => hops ⟨op,hop,hkey⟩⟩
    · have hright := h.right op hop
      cases op with
      | write e n => exact hright.1
      | query page n => exact hright.1
  cases h with
  | idle h =>
    exact ⟨ds,List.suffix_refl ds,h.tidy,h.blocks,
      fun k => ⟨ds,List.suffix_refl ds,List.suffix_refl ds,h.docs k⟩,0,List.forall_mem_nil _⟩
  | waiting _ _ h => exact hbusy h
  | inserting h => exact hbusy h
  | inserted h =>
    exact ⟨_,List.suffix_append _ _,h.tidy,h.blocks,
      fun k => ⟨_,List.suffix_refl _,List.suffix_append _ _,h.docs k⟩,0,List.forall_mem_nil _⟩

theorem Increasing.eq_of_num (hinc : Increasing ds) {d' : Delta} (hd : d ∈ ds) (hd' : d' ∈ ds)
    (hnum : d'.num = d.num) : d' = d := by
  have hnodup : (ds.map Delta.num).Nodup := List.pairwise_map.mpr (hinc.imp fun hlt => hlt.ne')
  exact List.inj_on_of_nodup_map hnodup hd' hd hnum

theorem Tracks.complete (h : Tracks sha ds s) (hinc : Increasing ds)
    (hwf : ∀ d ∈ ds, d.WellFormed sha) : Complete ds s := by
  obtain ⟨done,hdone,htidy,hblocks,hdocs,n,hops⟩ := h.histories
  refine ⟨fun d hd hblock e he => ?_,
    fun op hop op' hop' => (hops op hop).trans (hops op' hop').symm,fun doc hdoc => ?_⟩
  · have hentry : d.entryOf e.key = some e :=
      (Keyed.find_eq_some_iff (hwf d hd).keys).mpr ⟨he,rfl⟩
    have hmem : d ∈ done := by
      rw [hblocks] at hblock
      obtain ⟨d',hd',heq⟩ := List.mem_map.mp (List.mem_reverse.mp hblock)
      rw [← hinc.eq_of_num hd (hdone.subset hd') (congrArg Block.blockNum heq)]
      exact hd'
    obtain ⟨ds',⟨later,rfl⟩,⟨queue,rfl⟩,hspans⟩ := hdocs e.key
    obtain ⟨before,after,rfl⟩ := List.append_of_mem hmem
    obtain ⟨ws,hws⟩ := history_append (later ++ before) (d :: after) e.key
    rw [List.append_assoc,history_some hentry] at hws
    have hwrite : (d.num,e.convert (propertyOf (d :: after) e)) ∈
        history (later ++ (before ++ d :: after)) e.key := by
      rw [hws]
      simp
    obtain ⟨doc,hdoc,hnum,hbody⟩ := exists_mem_spans hwrite
    rw [← hspans] at hdoc
    refine ⟨doc,(mem_slice.mp hdoc).1,hnum,?_⟩
    rw [← List.append_assoc,← List.append_assoc] at hinc ⊢
    rw [asOf_append hinc]
    exact hbody
  · have htable := htidy _ doc hdoc
    have hmem : doc ∈ s.db.docs doc.body.key := by
      rw [Db.docs,htable]
      exact mem_slice.mpr ⟨hdoc,rfl⟩
    obtain ⟨ds',_,⟨queue,rfl⟩,hspans⟩ := hdocs doc.body.key
    rw [hspans] at hmem
    obtain ⟨before,d,after,e,rfl,he,hw⟩ := mem_history (mem_spans hmem)
    obtain ⟨hnum,hbody⟩ := Prod.mk.inj hw
    obtain ⟨hmem,hkey⟩ := entryOf_eq_some he
    rw [← List.append_assoc] at hinc ⊢
    refine ⟨d,List.mem_append_right _ List.mem_cons_self,hnum.symm,e,hmem,hkey,?_⟩
    rw [asOf_append hinc]
    exact hbody

/-- In every run in which block numbers increase and the queue happens to wait for its
operations, blocks become visible only when they are complete. -/
theorem blocks_complete {h : List (Sync × Event)} (hr : Run QueueStep {} h s)
    (hinc : Increasing (received h)) (hwf : ∀ d ∈ received h, d.WellFormed sha)
    (hsafe : ∀ x ∈ h, Awaited x) : Complete (received h) s := by
  have htracks : Tracks sha (received h) s := by
    induction hr with
    | nil =>
      exact .idle ⟨rfl,synced_empty.tidy,synced_empty.docs⟩
    | @snoc h a b t _ hstep ih =>
      obtain ⟨hfirst,hrest⟩ := List.forall_mem_cons.mp hsafe
      by_cases ht : ∃ d, t = .receive d
      · obtain ⟨d,rfl⟩ := ht
        obtain ⟨_,hinc⟩ := List.pairwise_cons.mp hinc
        obtain ⟨hd,hwf⟩ := List.forall_mem_cons.mp hwf
        cases hstep
        exact (ih hinc hwf hrest).receive hd
      · have ht : ∀ d, t ≠ .receive d := fun d heq => ht ⟨d,heq⟩
        have hsame : received ((a,t) :: h) = received h := by
          cases t <;> first | rfl | exact absurd rfl (ht _)
        rw [hsame] at hinc hwf ⊢
        exact (ih hinc hwf hrest).step hstep hfirst hinc hwf ht
  exact htracks.complete hinc hwf

end Completeness

namespace Sample
open DgcRestApi.Sample

/-- The block in which Ann joins, and its only operation. -/
def first : Delta := joined 1 "Ann" ann_joins

def write : Op := .write (.participant (ann "Ann").toObject) 1

def sent (phase : Phase) (ops : List Op) (db : Db) : Sync := ⟨[],phase,ops,db⟩

theorem receive_first :
    QueueStep {} (.receive first) (sent (.waiting first.block []) [write] Db.empty) := by
  have hadd : add first {} = sent (.waiting first.block []) [write] Db.empty := rfl
  exact hadd ▸ .receive {} first

theorem fire_first : QueueStep (sent (.waiting first.block []) [write] Db.empty) .timer
    (sent (.inserting first.block) [write] Db.empty) :=
  @QueueStep.timer (sent _ [write] Db.empty) first.block [] rfl

/-- The database inserts the block before it executes the write. -/
def early : List (Sync × Event) :=
  [(sent (.inserting first.block) [write] Db.empty,.insert),
    (sent (.waiting first.block []) [write] Db.empty,.timer),({},.receive first)]

/-- The database executes the write first. -/
def timely : List (Sync × Event) :=
  [(sent (.inserting first.block) [] (addEntry (.participant (ann "Ann").toObject) 1 Db.empty),
      .insert),
    (sent (.inserting first.block) [write] Db.empty,.exec write),
    (sent (.waiting first.block []) [write] Db.empty,.timer),({},.receive first)]

end Sample

theorem blocks_complete_timely : Complete [Sample.first] (Sample.sent
    (.inserted Sample.first.block none) []
    { addEntry (.participant (Sample.ann "Ann").toObject) 1 Db.empty with
      blocks := [Sample.first.block] }) := by
  refine @blocks_complete DgcRestApi.Sample.sha _ Sample.timely ?_ (List.pairwise_singleton _ _)
    (List.forall_mem_singleton.mpr (Sample.wellFormed_joined 1 "Ann" _)) ?_
  · refine (((Run.nil.snoc Sample.receive_first).snoc Sample.fire_first).snoc ?_).snoc ?_
    · exact @QueueStep.exec (Sample.sent _ [Sample.write] _) [] [] Sample.write rfl
    · exact @QueueStep.insert (Sample.sent _ [] _) Sample.first.block rfl
  · simp [Sample.timely,Awaited,Sample.sent,Sample.write]

/-- The block is in the blocks table and its participant is not in the state table. -/
theorem block_early : ∃ s, Run QueueStep {} Sample.early s ∧
    received Sample.early = [Sample.first] ∧ Sample.first.block ∈ s.db.blocks ∧
    s.db.tables .participants = [] ∧ ¬Complete (received Sample.early) s := by
  refine ⟨Sample.sent (.inserted Sample.first.block none) [Sample.write]
    ⟨Db.empty.tables,[Sample.first.block]⟩,?_,rfl,List.mem_cons_self,rfl,fun h => ?_⟩
  · exact ((Run.nil.snoc Sample.receive_first).snoc Sample.fire_first).snoc
      (@QueueStep.insert (Sample.sent _ [Sample.write] Db.empty) Sample.first.block rfl)
  · have hentries : Sample.first.entries = [.participant (Sample.ann "Ann").toObject] :=
      Sample.entries_joined 1 "Ann" _
    obtain ⟨doc,hdoc,_⟩ := h.present Sample.first List.mem_cons_self List.mem_cons_self
      (.participant (Sample.ann "Ann").toObject) (hentries ▸ List.mem_cons_self)
    exact absurd hdoc List.not_mem_nil

end DgcRestApi.LedgerSync
