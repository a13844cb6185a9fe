import DgcRestApi.Kit.Histories
import DgcRestApi.LedgerSync.Db

/-!
# Fork clean-up as a rollback

The clean-up of a fork deletes the documents from its number on and reopens those that were
closed since. That restores the database before the fork for the keys that were written in
one earlier block at most, and in the six tables that `stateTables` lists.
-/

namespace DgcRestApi.LedgerSync
open Versions

/-- A block of a chain with the entries its delta stores. -/
structure ChainBlock where
  block : Block
  entries : List Entry

namespace ChainBlock

def num (c : ChainBlock) : Nat := c.block.blockNum

/-- The block writes a document of the key. -/
def Writes (c : ChainBlock) (k : Key) : Prop := ∃ e ∈ c.entries, e.key = k

instance (c : ChainBlock) (k : Key) : Decidable (c.Writes k) :=
  inferInstanceAs (Decidable (∃ e ∈ c.entries, _))

def writes (c : ChainBlock) : List (Nat × Entry) := c.entries.map fun e => (c.num,e)

/-- The entries go to `addBlockState`, then the block to `blocks.insert`. -/
def apply (c : ChainBlock) (db : Db) : Db :=
  insert c.block (c.entries.foldl (fun db e => addEntry e c.num db) db)

end ChainBlock

/-- The blocks of a chain, in order. -/
def applyChain (chain : List ChainBlock) : Db := chain.foldl (fun db c => c.apply db) Db.empty

def InOrder (chain : List ChainBlock) : Prop := chain.Pairwise fun c d => c.num < d.num

/-- The blocks of a chain before a number. -/
def before (n : Nat) (chain : List ChainBlock) : List ChainBlock := chain.filter fun c => c.num < n

/-- `after` is `was`, the database before block `n`. -/
structure RolledBack (n : Nat) (was after : Db) : Prop where
  removed : ∀ t, ∀ doc ∈ after.tables t, doc.startNum < n
  same : ∀ t b, n - 1 ≤ b → b < MAX_SAFE_INTEGER →
    (getTable t b after).Perm (getTable t (n - 1) was)

variable {chain : List ChainBlock} {db : Db} {k : Key} {n : Nat}

/-! ## The documents of a chain -/

theorem addEntries_blocks (es : List Entry) (db : Db) :
    (es.foldl (fun db e => addEntry e n db) db).blocks = db.blocks := by
  induction es generalizing db with
  | nil => rfl
  | cons e es ih => rw [List.foldl_cons,ih,addEntry_blocks]

theorem ChainBlock.apply_eq {c : ChainBlock} (hnew : ∀ b ∈ db.blocks, b.blockNum ≠ c.num) :
    c.apply db = { c.entries.foldl (fun db e => addEntry e c.num db) db with
      blocks := db.blocks ++ [c.block] } := by
  have hblocks := @addEntries_blocks c.num c.entries db
  rw [ChainBlock.apply,insert_fresh (by rwa [hblocks]),hblocks]

theorem applyChain_snoc (chain : List ChainBlock) (c : ChainBlock) :
    applyChain (chain ++ [c]) = c.apply (applyChain chain) := by
  rw [applyChain,List.foldl_append]
  rfl

/-- Blocks in order are all new to the blocks table. -/
theorem applyChain_blocks (hchain : InOrder chain) :
    (applyChain chain).blocks = chain.map ChainBlock.block := by
  induction chain using List.reverseRecOn with
  | nil => rfl
  | append_singleton chain c ih =>
    obtain ⟨hchain,_,hc⟩ := List.pairwise_append.mp hchain
    rw [applyChain_snoc,ChainBlock.apply_eq,ih hchain,List.map_append,List.map_singleton]
    rw [ih hchain]
    intro b hb
    obtain ⟨d,hd,rfl⟩ := List.mem_map.mp hb
    exact Nat.ne_of_lt (hc d hd c (List.mem_singleton_self c))

/-- A block of a chain in order only adds its entries to the state tables. -/
theorem applyChain_tables {c : ChainBlock} (hchain : InOrder (chain ++ [c])) :
    (applyChain (chain ++ [c])).tables =
      (c.entries.foldl (fun db e => addEntry e c.num db) (applyChain chain)).tables := by
  obtain ⟨hchain,_,hc⟩ := List.pairwise_append.mp hchain
  rw [applyChain_snoc,ChainBlock.apply_eq]
  rw [applyChain_blocks hchain]
  intro b hb
  obtain ⟨d,hd,rfl⟩ := List.mem_map.mp hb
  exact Nat.ne_of_lt (hc d hd c (List.mem_singleton_self c))

theorem docs_addEntries {ws : List (Nat × Entry)} (es : List Entry) (hn : n < MAX_SAFE_INTEGER)
    (hws : ∀ w ∈ ws, w.1 < MAX_SAFE_INTEGER)
    (hdb : db.docs k = spans MAX_SAFE_INTEGER (stored ws)) :
    (es.foldl (fun db e => addEntry e n db) db).docs k =
      spans MAX_SAFE_INTEGER (stored (ws ++ writesOf Entry.key k (es.map fun e => (n,e)))) := by
  induction es generalizing db ws with
  | nil => rw [List.map_nil,writesOf,List.filter_nil,List.append_nil]; exact hdb
  | cons e es ih =>
    rw [List.foldl_cons,List.map_cons]
    by_cases hk : e.key = k
    · subst hk
      have hws' : ∀ w ∈ ws ++ [(n,e)], w.1 < MAX_SAFE_INTEGER := by
        intro w hw
        rcases List.mem_append.mp hw with hw | hw
        · exact hws w hw
        · exact (List.mem_singleton.mp hw) ▸ hn
      rw [ih hws' (by rw [docs_addEntry,hdb]; exact renew_stored hws (n,e)),List.append_assoc]
      simp [writesOf]
    · rw [ih hws ((docs_addEntry_ne hk).trans hdb)]
      simp [writesOf,hk]

/-- The writes of a key in a chain. -/
def chainWrites (chain : List ChainBlock) (k : Key) : List (Nat × Entry) :=
  writesOf Entry.key k (chain.flatMap ChainBlock.writes)

theorem mem_chainWrites {w : Nat × Entry} : w ∈ chainWrites chain k ↔
    ∃ c ∈ chain, c.num = w.1 ∧ w.2 ∈ c.entries ∧ w.2.key = k := by
  simp only [chainWrites,writesOf,List.mem_filter,List.mem_flatMap,ChainBlock.writes,List.mem_map,
    decide_eq_true_eq]
  constructor
  · rintro ⟨⟨c,hc,e,he,rfl⟩,hk⟩
    exact ⟨c,hc,rfl,he,hk⟩
  · rintro ⟨c,hc,hnum,he,hk⟩
    exact ⟨⟨c,hc,w.2,he,by rw [hnum]⟩,hk⟩

theorem chainWrites_lt : ∀ w ∈ chainWrites chain k, w.1 < MAX_SAFE_INTEGER := by
  intro w hw
  obtain ⟨c,_,hnum,_⟩ := mem_chainWrites.mp hw
  exact hnum ▸ c.block.blockNum_lt

theorem chainWrites_append (chain chain' : List ChainBlock) (k : Key) :
    chainWrites (chain ++ chain') k = chainWrites chain k ++ chainWrites chain' k := by
  rw [chainWrites,List.flatMap_append,writesOf,List.filter_append]
  rfl

theorem docs_applyChain (hchain : InOrder chain) (k : Key) :
    (applyChain chain).docs k = spans MAX_SAFE_INTEGER (stored (chainWrites chain k)) := by
  induction chain using List.reverseRecOn with
  | nil => rfl
  | append_singleton chain c ih =>
    have hdocs := docs_addEntries c.entries c.block.blockNum_lt chainWrites_lt
      (ih (List.pairwise_append.mp hchain).1)
    rw [Db.docs,applyChain_tables hchain,chainWrites_append]
    rw [Db.docs] at hdocs
    refine hdocs.trans ?_
    simp [chainWrites,ChainBlock.writes,ChainBlock.num]

/-! ## One key -/

/-- The stored writes of a key before block `n`. -/
def older (n : Nat) (chain : List ChainBlock) (k : Key) : List (Nat × Entry) :=
  stored (chainWrites (before n chain) k)

/-- The stored writes of a key from block `n` on. -/
def newer (n : Nat) (chain : List ChainBlock) (k : Key) : List (Nat × Entry) :=
  stored (chainWrites (chain.filter fun c => n ≤ c.num) k)

theorem older_lt : ∀ w ∈ older n chain k, w.1 < n := by
  intro w hw
  obtain ⟨c,hc,hnum,_⟩ := mem_chainWrites.mp (mem_stored hw)
  have hlt := (List.mem_filter.mp hc).2
  simp only [decide_eq_true_eq] at hlt
  exact hnum ▸ hlt

theorem newer_ge : ∀ w ∈ newer n chain k, n ≤ w.1 := by
  intro w hw
  obtain ⟨c,hc,hnum,_⟩ := mem_chainWrites.mp (mem_stored hw)
  have hge := (List.mem_filter.mp hc).2
  simp only [decide_eq_true_eq] at hge
  exact hnum ▸ hge

theorem docs_split (hchain : InOrder chain) (n : Nat) (k : Key) :
    (applyChain chain).docs k = spans MAX_SAFE_INTEGER (older n chain k ++ newer n chain k) := by
  have hsplit : before n chain ++ chain.filter (fun c => n ≤ c.num) = chain :=
    filter_lt_append hchain n
  rw [docs_applyChain hchain,older,newer,← stored_append,← chainWrites_append,hsplit]
  intro u hu w hw
  obtain ⟨c,hc,hu⟩ := mem_chainWrites.mp hu
  obtain ⟨d,hd,hw⟩ := mem_chainWrites.mp hw
  have hc := (List.mem_filter.mp hc).2
  have hd := (List.mem_filter.mp hd).2
  simp only [decide_eq_true_eq] at hc hd
  omega

theorem docs_before (hchain : InOrder chain) (n : Nat) (k : Key) :
    (applyChain (before n chain)).docs k = spans MAX_SAFE_INTEGER (older n chain k) :=
  docs_applyChain (hchain.filter _) k

/-- When the clean-up restores the documents of a key. -/
def Restored (n : Nat) (chain : List ChainBlock) (k : Key) : Prop :=
  newer n chain k ≠ [] → k.table ≠ .exchanges ∧ (older n chain k).length ≤ 1

section Resolved

variable {block : Block} (hchain : InOrder chain)
include hchain

/-- A restored key has its documents from before the fork. -/
theorem Restored.docs (h : Restored block.blockNum chain k) :
    (resolveFork block (applyChain chain)).docs k =
      (applyChain (before block.blockNum chain)).docs k := by
  rw [docs_resolveFork,docs_split hchain block.blockNum,docs_before hchain]
  by_cases hnew : newer block.blockNum chain k = []
  · rw [hnew,List.append_nil,rewind_old older_lt,ite_self]
  · obtain ⟨htable,hlen⟩ := h hnew
    rw [if_neg htable,rewind_new older_lt newer_ge hnew]
    -- a single version is the open one
    match older block.blockNum chain k, hlen with
    | [], _ => rfl
    | [w], _ => rfl
    | _ :: _ :: _, hlen => simp at hlen

theorem restored_of_rolledBack
    (hremoved : ∀ doc ∈ (resolveFork block (applyChain chain)).docs k,
      doc.startNum < block.blockNum)
    (hsame : (visible block.blockNum ((resolveFork block (applyChain chain)).docs k)).Perm
      (visible (block.blockNum - 1) ((applyChain (before block.blockNum chain)).docs k))) :
    Restored block.blockNum chain k := by
  intro hnew
  rw [docs_resolveFork,docs_split hchain block.blockNum] at hremoved hsame
  have htable : k.table ≠ .exchanges := by
    intro hx
    -- an exchange that was written since is still there
    obtain ⟨w,hw⟩ := List.exists_mem_of_ne_nil _ hnew
    have hmem := List.mem_append_right (older block.blockNum chain k) hw
    obtain ⟨doc,hdoc,hstart,_⟩ := @exists_mem_spans _ MAX_SAFE_INTEGER _ _ hmem
    rw [if_pos hx] at hremoved
    have := hremoved doc hdoc
    have := newer_ge w hw
    omega
  refine ⟨htable,?_⟩
  rw [if_neg htable,rewind_new older_lt newer_ge hnew,docs_before hchain,
    visible_all (fun w hw => Nat.le_of_lt (older_lt w hw)) block.blockNum_lt] at hsame
  have hlen := hsame.length_eq
  have hlt : block.blockNum - 1 < MAX_SAFE_INTEGER :=
    Nat.lt_of_le_of_lt (Nat.sub_le ..) block.blockNum_lt
  have hold : ∀ w ∈ older block.blockNum chain k, w.1 ≤ block.blockNum - 1 := fun w hw =>
    Nat.le_sub_one_of_lt (older_lt w hw)
  have hlast := congrArg List.length (visible_spans_last hold hlt)
  rw [List.length_map] at hlen
  rw [List.length_map,List.length_map] at hlast
  rw [hlen,hlast]
  cases (older block.blockNum chain k).getLast? <;> simp

end Resolved

/-! ## All tables -/

/-- Every document is in the table of its key. -/
def Filed (db : Db) : Prop := ∀ t, ∀ doc ∈ db.tables t, doc.body.key.table = t

theorem Filed.addEntry {e : Entry} (h : Filed db) : Filed (addEntry e n db) := by
  intro t doc hdoc
  rw [addEntry_tables] at hdoc
  split at hdoc
  · next ht =>
    subst ht
    rcases mem_put hdoc with hbody | ⟨doc',hdoc',hbody⟩
    · rw [hbody]
    · exact hbody ▸ h _ doc' hdoc'
  · exact h t doc hdoc

theorem filed_applyChain (hchain : InOrder chain) : Filed (applyChain chain) := by
  induction chain using List.reverseRecOn with
  | nil => exact fun t doc hdoc => absurd hdoc List.not_mem_nil
  | append_singleton chain c ih =>
    have hes : ∀ (es : List Entry) (db : Db), Filed db →
        Filed (es.foldl (fun db e => DgcRestApi.LedgerSync.addEntry e c.num db) db) := by
      intro es
      induction es with
      | nil => exact fun _ h => h
      | cons e es ih => exact fun _ h => ih _ h.addEntry
    rw [Filed,applyChain_tables hchain]
    exact hes c.entries _ (ih (List.pairwise_append.mp hchain).1)

theorem Filed.modifyTable {f : List Doc → List Doc} (h : Filed db)
    (hf : ∀ docs, ∀ doc ∈ f docs, ∃ doc' ∈ docs, doc'.body = doc.body) (t : StateTable) :
    Filed (db.modifyTable t f) := by
  intro t' doc hdoc
  dsimp only [Db.modifyTable] at hdoc
  by_cases ht : t' = t
  · subst ht
    rw [Function.update_self] at hdoc
    obtain ⟨doc',hdoc',hbody⟩ := hf _ doc hdoc
    exact hbody ▸ h _ doc' hdoc'
  · rw [Function.update_of_ne ht] at hdoc
    exact h t' doc hdoc

theorem Filed.resolveFork {block : Block} (h : Filed db) : Filed (resolveFork block db) := by
  have hrewind : ∀ docs : List Doc, ∀ doc ∈ rewind MAX_SAFE_INTEGER block.blockNum docs,
      ∃ doc' ∈ docs, doc'.body = doc.body := by
    intro docs doc hdoc
    obtain ⟨doc',hdoc',rfl⟩ := List.mem_map.mp hdoc
    refine ⟨doc',List.mem_of_mem_filter hdoc',?_⟩
    split <;> rfl
  have hall : ∀ (ts : List StateTable) (db : Db), Filed db →
      Filed (ts.foldl (fun db t => getForkedDocRemover block.blockNum t db) db) := by
    intro ts
    induction ts with
    | nil => exact fun _ h => h
    | cons t ts ih => exact fun _ h => ih _ (h.modifyTable hrewind t)
  exact hall stateTables _ h

/-- The versions of a key in its table, and in another one. -/
theorem Filed.slice_getTable (h : Filed db) (t : StateTable) (b : Nat) (k : Key) :
    slice Entry.key k (getTable t b db) = if k.table = t then visible b (db.docs k) else [] := by
  rw [getTable,visible_slice]
  split
  · next ht =>
    subst ht
    rfl
  · next ht =>
    have hnone : slice Entry.key k (db.tables t) = [] :=
      List.filter_eq_nil_iff.mpr fun doc hdoc => by
        simp only [decide_eq_true_eq]
        rintro rfl
        exact ht (h t doc hdoc)
    rw [hnone]
    rfl

/-- Before a fork nothing changes from the block before it on. -/
theorem visible_before {b : Nat} (hb : n - 1 ≤ b) (htop : b < MAX_SAFE_INTEGER) :
    visible b (spans MAX_SAFE_INTEGER (older n chain k)) =
      visible (n - 1) (spans MAX_SAFE_INTEGER (older n chain k)) := by
  have hlt := @older_lt chain k n
  rcases List.eq_nil_or_concat (older n chain k) with hnil | ⟨old,w,hold⟩
  · rw [hnil]
    rfl
  · rw [List.concat_eq_append] at hold
    have hw := Nat.le_sub_one_of_lt (hlt w (hold ▸ by simp))
    rw [hold,visible_spans (hw.trans hb) htop,visible_spans hw (Nat.lt_of_le_of_lt hb htop)]

theorem rolledBack_iff_restored {block : Block} (hchain : InOrder chain) :
    RolledBack block.blockNum (applyChain (before block.blockNum chain))
        (resolveFork block (applyChain chain)) ↔ ∀ k, Restored block.blockNum chain k := by
  have hwas : Filed (applyChain (before block.blockNum chain)) :=
    filed_applyChain (hchain.filter _)
  have hafter : Filed (resolveFork block (applyChain chain)) :=
    (filed_applyChain hchain).resolveFork
  constructor
  · intro h k
    refine restored_of_rolledBack hchain (fun doc hdoc => ?_) ?_
    · exact h.removed k.table doc (mem_slice.mp hdoc).1
    · have hsame := (h.same k.table block.blockNum (Nat.sub_le ..) block.blockNum_lt).filter
        fun doc => decide (doc.body.key = k)
      have hslices := hafter.slice_getTable k.table block.blockNum k
      have hslices' := hwas.slice_getTable k.table (block.blockNum - 1) k
      rw [if_pos rfl] at hslices hslices'
      rw [← hslices,← hslices']
      exact hsame
  · intro h
    have hdocs := fun k => (h k).docs hchain
    refine ⟨fun t doc hdoc => ?_,fun t b hb htop => ?_⟩
    · obtain rfl := hafter t doc hdoc
      have hmem : doc ∈ (resolveFork block (applyChain chain)).docs doc.body.key :=
        mem_slice.mpr ⟨hdoc,rfl⟩
      rw [hdocs,docs_before hchain] at hmem
      exact older_lt _ (mem_spans hmem)
    · refine @perm_of_slices _ _ _ Entry.key _ _ fun k => ?_
      rw [hafter.slice_getTable,hwas.slice_getTable,hdocs,docs_before hchain,visible_before hb htop]

/-- The number of blocks before `n` that write a document of the key. -/
def writesBefore (n : Nat) (chain : List ChainBlock) (k : Key) : Nat :=
  ((before n chain).filter fun c => c.Writes k).length

theorem nonDecreasing_chainWrites (hchain : InOrder chain) :
    NonDecreasing (chainWrites chain k) := by
  have hall : NonDecreasing (chain.flatMap ChainBlock.writes) := by
    refine List.pairwise_flatMap.mpr ⟨fun c _ => ?_,hchain.imp fun {c d} hcd u hu w hw => ?_⟩
    · exact List.pairwise_map.mpr (List.pairwise_of_forall fun _ _ => Nat.le_refl _)
    · obtain ⟨e,_,rfl⟩ := List.mem_map.mp hu
      obtain ⟨e',_,rfl⟩ := List.mem_map.mp hw
      exact Nat.le_of_lt hcd
  exact List.Pairwise.filter _ hall

/-- A key has one stored write for each block that writes it. -/
theorem length_older (hchain : InOrder chain) :
    (older n chain k).length = writesBefore n chain k := by
  have hbefore : InOrder (before n chain) := hchain.filter _
  have hnodup : (((before n chain).filter fun c => c.Writes k).map ChainBlock.num).Nodup :=
    List.pairwise_map.mpr ((hbefore.filter _).imp fun h => Nat.ne_of_lt h)
  have hperm : ((chainWrites (before n chain) k).map Prod.fst).dedup.Perm
      (((before n chain).filter fun c => c.Writes k).map ChainBlock.num) := by
    refine (List.perm_ext_iff_of_nodup (List.nodup_dedup _) hnodup).mpr fun m => ?_
    rw [List.mem_dedup,List.mem_map,List.mem_map]
    constructor
    · rintro ⟨w,hw,rfl⟩
      obtain ⟨c,hc,hnum,he,hk⟩ := mem_chainWrites.mp hw
      exact ⟨c,List.mem_filter.mpr ⟨hc,decide_eq_true ⟨w.2,he,hk⟩⟩,hnum⟩
    · rintro ⟨c,hc,rfl⟩
      obtain ⟨hc,hwrites⟩ := List.mem_filter.mp hc
      obtain ⟨e,he,hk⟩ := of_decide_eq_true hwrites
      exact ⟨(c.num,e),mem_chainWrites.mpr ⟨c,hc,rfl,he,hk⟩,rfl⟩
  rw [older,length_stored (nonDecreasing_chainWrites hbefore),hperm.length_eq,List.length_map,
    writesBefore]

theorem newer_ne_nil : newer n chain k ≠ [] ↔ ∃ c ∈ chain, n ≤ c.num ∧ c.Writes k := by
  constructor
  · intro hnew
    obtain ⟨w,hw⟩ := List.exists_mem_of_ne_nil _ hnew
    obtain ⟨c,hc,_,he,hk⟩ := mem_chainWrites.mp (mem_stored hw)
    obtain ⟨hc,hn⟩ := List.mem_filter.mp hc
    exact ⟨c,hc,of_decide_eq_true hn,w.2,he,hk⟩
  · rintro ⟨c,hc,hn,e,he,hk⟩
    have hw : (c.num,e) ∈ chainWrites (chain.filter fun c => n ≤ c.num) k :=
      mem_chainWrites.mpr ⟨c,List.mem_filter.mpr ⟨hc,decide_eq_true hn⟩,rfl,he,hk⟩
    obtain ⟨w,hw,_⟩ := (stored_numbers c.num).mpr ⟨_,hw,rfl⟩
    exact List.ne_nil_of_mem hw

/-- The clean-up for block `n` is an exact rollback exactly if no exchange is written from
block `n` on, and what is written from there on was written by one earlier block at most. -/
theorem fork_rolls_back_iff (hchain : InOrder chain) (block : Block) :
    RolledBack block.blockNum (applyChain (before block.blockNum chain))
        (resolveFork block (applyChain chain)) ↔
      ∀ c ∈ chain, block.blockNum ≤ c.num → ∀ e ∈ c.entries,
        e.key.table ≠ .exchanges ∧ writesBefore block.blockNum chain e.key ≤ 1 := by
  rw [rolledBack_iff_restored hchain]
  constructor
  · intro h c hc hn e he
    have hkey := h e.key (newer_ne_nil.mpr ⟨c,hc,hn,e,he,rfl⟩)
    rwa [length_older hchain] at hkey
  · intro h k hnew
    obtain ⟨c,hc,hn,e,he,rfl⟩ := newer_ne_nil.mp hnew
    rw [length_older hchain]
    exact h c hc hn e he

namespace Sample

def block (blockNum : Nat) (blockId : String) (hnum : blockNum < MAX_SAFE_INTEGER)
    (hid : blockId ≠ "") : Block := ⟨blockNum,blockId,"",hnum,hid⟩

def holding (blockNum : Nat) (h : blockNum < 10) (entries : List Entry) : ChainBlock :=
  ⟨block blockNum "a" (Nat.lt_trans h (by decide)) (by decide),entries⟩

def named (name : String) : Entry := .participant { publicKey := "A", name }

def traded (timestamp : Nat) : Entry :=
  .exchange { buyProposalId := "x", sellProposalId := "y", timestamp }

/-- A participant is written by the first block and again by the second. -/
def secondName : List ChainBlock :=
  [holding 1 (by decide) [named "Ann"],holding 2 (by decide) [named "Anna"]]

end Sample

theorem fork_rolls_back_renaming :
    RolledBack 2 (applyChain (before 2 Sample.secondName))
      (resolveFork (Sample.block 2 "b" (by decide) (by decide))
        (applyChain Sample.secondName)) := by
  have hchain : InOrder Sample.secondName := by
    simp [InOrder,Sample.secondName,Sample.holding,Sample.block,ChainBlock.num]
  refine (fork_rolls_back_iff hchain (Sample.block 2 "b" (by decide) (by decide))).mpr ?_
  intro c hc hn e he
  rcases List.mem_pair.mp hc with rfl | rfl
  · exact absurd hn (by decide)
  · obtain rfl := List.mem_singleton.mp he
    exact ⟨by decide,by decide⟩

/-- A fork at the third block that writes a participant brings back both older documents, and
one at the second block that writes an exchange removes none. -/
theorem fork_keeps_too_much :
    (getTable .participants 2 (resolveFork (Sample.block 3 "b" (by decide) (by decide))
      (applyChain (Sample.secondName ++
        [Sample.holding 3 (by decide) [Sample.named "Annabel"]]))) =
      [⟨Sample.named "Ann",1,MAX_SAFE_INTEGER⟩,⟨Sample.named "Anna",2,MAX_SAFE_INTEGER⟩]) ∧
    (getTable .participants 2 (applyChain Sample.secondName) =
      [⟨Sample.named "Anna",2,MAX_SAFE_INTEGER⟩]) ∧
    ¬RolledBack 3 (applyChain Sample.secondName)
      (resolveFork (Sample.block 3 "b" (by decide) (by decide))
        (applyChain (Sample.secondName ++
          [Sample.holding 3 (by decide) [Sample.named "Annabel"]]))) ∧
    ¬RolledBack 2 (applyChain [Sample.holding 1 (by decide) []])
      (resolveFork (Sample.block 2 "b" (by decide) (by decide)) (applyChain
        [Sample.holding 1 (by decide) [],Sample.holding 2 (by decide) [Sample.traded 5]])) := by
  refine ⟨rfl,rfl,fun h => ?_,fun h => ?_⟩
  · have hlen := (h.same .participants 2 (by decide) (by decide)).length_eq
    exact absurd hlen (by decide)
  · exact absurd (h.removed .exchanges ⟨Sample.traded 5,2,MAX_SAFE_INTEGER⟩ (by exact .head _))
      (by decide)

end DgcRestApi.LedgerSync
