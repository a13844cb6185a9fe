import DgcRestApi.LedgerSync.Db
import DgcRestApi.Processor.State

/-!
# Handling a delta event

`subscriber/deltas.js`. The entries of a delta are decoded by the type of their address and
each is sent to the database as an operation: a write, or for a page the query of its
property, whose answer sends the write of the converted page. `stateAdder` returns nothing,
so nobody waits for these operations; they stay pending until the database executes them,
in any order. `handle` here is the order of the program text, with every operation executed
when it is sent.
-/

namespace DgcRestApi.LedgerSync
open Addressing Versions

/-- A state change of an event: the container now stored at the address. -/
structure Change where
  address : Address
  value : Container

/-- A delta event: the block of its commit event and the changes of its delta. -/
structure Delta where
  block : Block
  changes : List Change

inductive ProtoName
  | Property | PropertyPage | Participant | Proposal | Exchange | Record | Table
deriving DecidableEq, Repr

/-- `address.slice(6, 8)`. -/
def typePrefix (address : Address) : Address := (address.drop 6).take 2

/-- `address.slice(-4)`. -/
def lastFour (address : Address) : Address := address.drop (address.length - 4)

def getProtoName (address : Address) : Except String ProtoName :=
  if typePrefix address = ['e','a'] then
    if lastFour address = ['0','0','0','0'] then .ok .Property else .ok .PropertyPage
  else if typePrefix address = ['a','e'] then .ok .Participant
  else if typePrefix address = ['a','a'] then .ok .Proposal
  else if typePrefix address = ['c','e'] then .ok .Exchange
  else if typePrefix address = ['e','c'] then .ok .Record
  else if typePrefix address = ['e','e'] then .ok .Table
  else .error ("Blockchain Error: No Protobuf for prefix \"" ++
    String.ofList (typePrefix address) ++ "\"")

/-- `parseInt(address.slice(-4), 16)`. -/
def pageNum (address : Address) : Nat :=
  Nat.ofDigits 16 ((lastFour address).map digitValue).reverse

/-- The decoded entries of a change as the objects of `getObjectifier`. The bytes of another
kind of container do not decode. -/
def getEntries (change : Change) : Except String (List Entry) := do
  let name ← getProtoName change.address
  match name,change.value with
  | .Participant,.participants es => .ok (es.map fun e => .participant e.toObject)
  | .Record,.records es => .ok (es.map fun e => .record e.toObject)
  | .Table,.tables es => .ok (es.map fun e => .table e.toObject)
  | .Property,.properties es => .ok (es.map fun e => .property e.toObject)
  | .PropertyPage,.propertyPages es =>
    .ok (es.map fun e => .propertyPage (e.toObject (pageNum change.address)))
  | .Proposal,.proposals es => .ok (es.map fun e => .proposal e.toObject)
  | .Exchange,.exchanges es => .ok (es.map fun e => .exchange e.toObject)
  | _,_ => .error "invalid wire type"

/-- A database operation that was sent: the write of an entry, a page being converted
already, or the query of the property of a page. -/
inductive Op
  | write (e : Entry) (blockNum : Nat)
  | query (page : PageDoc) (blockNum : Nat)

/-- What `addState` sends for an entry. -/
def stateAdder (e : Entry) (blockNum : Nat) : Op :=
  match e with
  | .propertyPage page => .query page blockNum
  | e => .write e blockNum

def entryAdder (block : Block) (change : Change) : Except String (List Op) :=
  (getEntries change).map fun es => es.map fun e => stateAdder e block.blockNum

/-- The page that the answer of its property query leads to. -/
def convertPage (page : PageDoc) (db : Db) : PageDoc :=
  page.convert (pageProperties page db).head?

/-- The write of a converted page, which the driver refuses if a member is undefined. -/
def sendPage (page : PageDoc) (blockNum : Nat) : List Op :=
  if page.defined then [.write (.propertyPage page) blockNum] else []

/-- The database executes an operation: its state after, and what the answer sends. -/
def Op.exec (db : Db) : Op → List Op × Db
  | .write e n => ([],addEntry e n db)
  | .query page n => (sendPage (convertPage page db) n,db)

/-- The page changes of a delta and its other changes. -/
def partition : List Change → Except String (List Change × List Change)
  | [] => .ok ([],[])
  | change :: changes => do
    let name ← getProtoName change.address
    let (pageChanges,otherChanges) ← partition changes
    if name = .PropertyPage then .ok (change :: pageChanges,otherChanges)
    else .ok (pageChanges,change :: otherChanges)

def sendAll (block : Block) (changes : List Change) : Except String (List Op) :=
  (changes.mapM (entryAdder block)).map List.flatten

/-- An operation and what its answer sends, one after the other. -/
def Op.run (db : Db) (op : Op) : Except String Db :=
  match op with
  | .write e n => .ok (addEntry e n db)
  | .query page n =>
    if (convertPage page db).defined then .ok (addPage (convertPage page db) n db)
    else .error "Object field may not be undefined"

/-- All operations of a delta in the order of the program text; an error stands for a throw
or a refused write. -/
def handle (block : Block) (changes : List Change) (db : Db) : Except String Db := do
  let (pageChanges,otherChanges) ← partition changes
  let others ← sendAll block otherChanges
  let db ← others.foldlM Op.run db
  let pages ← sendAll block pageChanges
  let db ← pages.foldlM Op.run db
  .ok (insert block db)

end DgcRestApi.LedgerSync
