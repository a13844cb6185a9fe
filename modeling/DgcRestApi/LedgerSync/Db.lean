import DgcRestApi.Kit.Versions
import DgcRestApi.LedgerSync.Documents
import Mathlib.Logic.Function.Basic

/-!
# The synced database

`db/state.js` and `db/blocks.js` of the ledger sync, and the queries of the server that read
what these write. Each function is one query, which the database executes as a whole. A
document of a state table is a version of an entry; its numbers are `startBlockNum` and
`endBlockNum`.
-/

namespace DgcRestApi.LedgerSync
open Versions

def MAX_SAFE_INTEGER : Nat := 9007199254740991

/-- A block as `getBlock` reads it from a block commit event. -/
structure Block where
  blockNum : Nat
  blockId : String
  stateRootHash : String
  blockNum_lt : blockNum < MAX_SAFE_INTEGER
  blockId_ne : blockId ≠ ""

abbrev Doc := Version Entry

structure Db where
  tables : StateTable → List Doc
  blocks : List Block

def Db.empty : Db := ⟨fun _ => [],[]⟩

/-- The documents of one key. -/
def Db.docs (db : Db) (k : Key) : List Doc := slice Entry.key k (db.tables k.table)

def Db.modifyTable (tableName : StateTable) (query : List Doc → List Doc) (db : Db) : Db :=
  { db with tables := Function.update db.tables tableName (query (db.tables tableName)) }

/-- The index value of the source is the key of the document. -/
def addBlockState (tableName : StateTable) (doc : Entry) (blockNum : Nat) (db : Db) : Db :=
  db.modifyTable tableName (put Entry.key MAX_SAFE_INTEGER doc blockNum)

def addParticipant (participant : Participant) (blockNum : Nat) : Db → Db :=
  addBlockState .participants (.participant participant) blockNum

def addRecord (record : Record) (blockNum : Nat) : Db → Db :=
  addBlockState .records (.record record) blockNum

def addTable (table : Table) (blockNum : Nat) : Db → Db :=
  addBlockState .tables (.table table) blockNum

def addProperty (property : Property) (blockNum : Nat) : Db → Db :=
  addBlockState .properties (.property property) blockNum

/-- The query of `addPropertyPage`: the open documents of the property of a page. -/
def pageProperties (page : PageDoc) (db : Db) : List Property :=
  (opened MAX_SAFE_INTEGER (db.docs (.property page.name page.recordId))).filterMap
    fun doc => doc.body.toProperty

/-- `addPropertyPage` after its query, with the page converted. -/
def addPage (page : PageDoc) (blockNum : Nat) : Db → Db :=
  addBlockState .propertyPages (.propertyPage page) blockNum

def addProposal (proposal : Proposal) (blockNum : Nat) : Db → Db :=
  addBlockState .proposals (.proposal proposal) blockNum

def addExchange (exchange : Exchange) (blockNum : Nat) : Db → Db :=
  addBlockState .exchanges (.exchange exchange) blockNum

/-- The query that stores an entry, a page being converted already. -/
def addEntry (e : Entry) (blockNum : Nat) : Db → Db :=
  match e with
  | .participant p => addParticipant p blockNum
  | .record r => addRecord r blockNum
  | .table t => addTable t blockNum
  | .property p => addProperty p blockNum
  | .propertyPage page => addPage page blockNum
  | .proposal p => addProposal p blockNum
  | .exchange x => addExchange x blockNum

/-- `stateTables` of the fork clean-up. -/
def stateTables : List StateTable :=
  [.participants,.records,.tables,.properties,.propertyPages,.proposals]

def getForkedDocRemover (blockNum : Nat) (tableName : StateTable) : Db → Db :=
  Db.modifyTable tableName (rewind MAX_SAFE_INTEGER blockNum)

/-- The first query of `resolveFork`. -/
def replaceBlocks (block : Block) (db : Db) : Db :=
  { db with blocks := db.blocks.filter (fun b => b.blockNum < block.blockNum) ++ [block] }

def resolveFork (block : Block) (db : Db) : Db :=
  stateTables.foldl (fun db t => getForkedDocRemover block.blockNum t db) (replaceBlocks block db)

/-- The first query of `insert`: the block found under the number, or none after inserting. -/
def insertBlock (block : Block) (db : Db) : Option Block × Db :=
  match db.blocks.find? fun b => b.blockNum = block.blockNum with
  | some found => (some found,db)
  | none => (none,{ db with blocks := db.blocks ++ [block] })

/-- The answer of the first query is a block with another id. -/
def isFork (block : Block) (found : Option Block) : Bool :=
  found.any fun b => !(b.blockId = "" || b.blockId = block.blockId)

def insert (block : Block) (db : Db) : Db :=
  let (found,db) := insertBlock block db
  if isFork block found then resolveFork block db else db

/-- `queryWithCurrentBlock` of the server: the greatest number of the blocks table. The query
fails on an empty table. -/
def currentBlock (db : Db) : Option Nat := (db.blocks.map Block.blockNum).max?

/-- `getTable` of the server with its filter `hasBlock`. -/
def getTable (tableName : StateTable) (block : Nat) (db : Db) : List Doc :=
  visible block (db.tables tableName)

/-- The bodies of the documents of one key that a query at `block` sees. -/
def shown (db : Db) (block : Nat) (k : Key) : List Entry :=
  (slice Entry.key k (getTable k.table block db)).map Version.body

section Frames

variable {db : Db} {block : Block} {e : Entry} {n : Nat} {k : Key}

theorem addEntry_eq (e : Entry) (n : Nat) : addEntry e n = addBlockState e.key.table e n := by
  cases e <;> rfl

@[simp] theorem addEntry_blocks : (addEntry e n db).blocks = db.blocks := by
  rw [addEntry_eq]
  rfl

theorem shown_eq : shown db n k = (visible n (db.docs k)).map Version.body := by
  rw [shown,getTable,visible_slice]
  rfl

theorem addEntry_tables (t : StateTable) : (addEntry e n db).tables t =
    if t = e.key.table then put Entry.key MAX_SAFE_INTEGER e n (db.tables t) else db.tables t := by
  rw [addEntry_eq,addBlockState,Db.modifyTable]
  by_cases ht : t = e.key.table
  · subst ht
    rw [if_pos rfl]
    exact Function.update_self ..
  · rw [if_neg ht]
    exact Function.update_of_ne ht ..

/-- A write leaves the documents of the other keys as they are. -/
theorem docs_addEntry_ne (hk : e.key ≠ k) : (addEntry e n db).docs k = db.docs k := by
  rw [Db.docs,addEntry_tables]
  split
  · exact slice_put_ne hk
  · rfl

theorem docs_addEntry :
    (addEntry e n db).docs e.key = renew MAX_SAFE_INTEGER e n (db.docs e.key) := by
  rw [Db.docs,addEntry_tables,if_pos rfl]
  exact slice_put

theorem docs_modifyTable (t : StateTable) (query : List Doc → List Doc) :
    (db.modifyTable t query).docs k =
      if k.table = t then slice Entry.key k (query (db.tables t)) else db.docs k := by
  rw [Db.docs,Db.modifyTable]
  by_cases ht : k.table = t
  · subst ht
    rw [if_pos rfl]
    exact congrArg _ (Function.update_self ..)
  · rw [if_neg ht]
    exact congrArg _ (Function.update_of_ne ht ..)

/-- The clean-up rewinds the documents of every key but those of exchanges. -/
theorem docs_resolveFork : (resolveFork block db).docs k =
    if k.table = .exchanges then db.docs k
    else rewind MAX_SAFE_INTEGER block.blockNum (db.docs k) := by
  have hrewind : ∀ (t : StateTable) (db : Db), (getForkedDocRemover block.blockNum t db).docs k =
      if k.table = t then rewind MAX_SAFE_INTEGER block.blockNum (db.docs k) else db.docs k := by
    intro t db
    rw [getForkedDocRemover,docs_modifyTable]
    split
    · next ht =>
      subst ht
      rw [slice_rewind]
      rfl
    · rfl
  have hblocks : (replaceBlocks block db).docs k = db.docs k := rfl
  simp only [resolveFork,stateTables,List.foldl_cons,List.foldl_nil,hrewind,hblocks]
  cases k.table <;> rfl

theorem insert_fresh (h : ∀ b ∈ db.blocks, b.blockNum ≠ block.blockNum) :
    insert block db = { db with blocks := db.blocks ++ [block] } := by
  have hnone : db.blocks.find? (fun b => b.blockNum = block.blockNum) = none :=
    List.find?_eq_none.mpr fun b hb => by simpa using h b hb
  rw [insert,insertBlock,hnone]
  rfl

end Frames

end DgcRestApi.LedgerSync
