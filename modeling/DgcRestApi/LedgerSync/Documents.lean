import DgcRestApi.Processor.Protos

/-!
# Documents of the synced database

What `ledger_sync` makes of the messages of a container before it stores them: `toObject`
of protobufjs, which turns 64 bit integers into doubles, and for property pages the
conversion of the reported values under their property. A document has a key, the value of
the index under which its table finds it.
-/

namespace DgcRestApi

/-- The double nearest to an unsigned 64 bit integer, ties to even. -/
def toNumber (n : Nat) : Nat :=
  let ulp := 1 <<< (n.log2 - 52)
  let q := n / ulp
  let r := n % ulp
  if ulp < 2 * r ∨ ulp = 2 * r ∧ q % 2 = 1 then (q + 1) * ulp else q * ulp

def intToNumber (n : Int) : Int := n.sign * toNumber n.natAbs

example : toNumber 9007199254740993 = 9007199254740992 ∧
    toNumber 9007199254740995 = 9007199254740996 := by decide +kernel

def Location.toObject (l : Location) : Location :=
  { latitude := intToNumber l.latitude, longitude := intToNumber l.longitude }

def CreditBalance.toObject (b : CreditBalance) : CreditBalance :=
  { b with timestamp := toNumber b.timestamp }

def Participant.toObject (p : Participant) : Participant :=
  { p with
    timestamp := toNumber p.timestamp
    dgCoinBalances := p.dgCoinBalances.map CreditBalance.toObject
    dgCoinCredits := p.dgCoinCredits.map CreditBalance.toObject }

def AssociatedParticipant.toObject (a : AssociatedParticipant) : AssociatedParticipant :=
  { a with timestamp := toNumber a.timestamp }

def Record.toObject (r : Record) : Record :=
  { r with
    owners := r.owners.map AssociatedParticipant.toObject
    custodians := r.custodians.map AssociatedParticipant.toObject }

/-- Tables and properties have no 64 bit fields. -/
def Table.toObject (t : Table) : Table := t

def Property.toObject (p : Property) : Property := p

def Proposal.toObject (p : Proposal) : Proposal := { p with timestamp := toNumber p.timestamp }

def Exchange.toObject (e : Exchange) : Exchange := { e with timestamp := toNumber e.timestamp }

mutual

def PropertyValue.toObject : PropertyValue → PropertyValue
  | ⟨name,dataType,bytes,boolean,number,string,enum,structs,location⟩ =>
    ⟨name,dataType,bytes,boolean,intToNumber number,string,enum,valueObjects structs,
      location.map Location.toObject⟩

def valueObjects : List PropertyValue → List PropertyValue
  | [] => []
  | v :: vs => v.toObject :: valueObjects vs

end

/-- The value of one member of a struct object; `undefined` for a member without a type. -/
inductive FieldDoc
  | bytes (value : List UInt8)
  | boolean (value : Bool)
  | number (value : Int)
  | string (value : String)
  | location (value : Option Location)
  | object (fields : List (String × FieldDoc))
  | undefined

/-- `_.fromPairs` assigns one member after the other to `{}`: a later pair replaces an earlier one
of its name, and the assignment to `__proto__` makes no member. -/
def fromPairs {α : Type} (pairs : List (String × α)) : List (String × α) :=
  pairs.foldl (fun obj p =>
    if p.1 = "__proto__" then obj
    else if obj.any fun q => q.1 == p.1 then obj.map fun q => if q.1 == p.1 then p else q
    else obj ++ [p]) []

mutual

/-- `property[valueNames[property.dataType]]`, or the object of a nested struct. -/
def PropertyValue.field : PropertyValue → FieldDoc
  | ⟨_,dataType,bytes,boolean,number,string,enum,structs,location⟩ =>
    match dataType with
    | .STRUCT => .object (fromPairs (structPairs structs))
    | .BYTES => .bytes bytes
    | .BOOLEAN => .boolean boolean
    | .NUMBER => .number number
    | .STRING => .string string
    | .ENUM => .string enum
    | .LOCATION => .location location
    | .TYPE_UNSET => .undefined

def structPairs : List PropertyValue → List (String × FieldDoc)
  | [] => []
  | v :: vs => (v.name,v.field) :: structPairs vs

end

def xformStruct (properties : List PropertyValue) : List (String × FieldDoc) :=
  fromPairs (structPairs properties)

mutual

/-- The driver builds a query only from objects without an undefined member. -/
def FieldDoc.defined : FieldDoc → Bool
  | .undefined => false
  | .object fields => fieldsDefined fields
  | _ => true

def fieldsDefined : List (String × FieldDoc) → Bool
  | [] => true
  | (_,v) :: fs => v.defined && fieldsDefined fs

end

/-- `enumValue` of a reported value: the index of the message, then the name of the option. -/
inductive EnumDoc
  | index (i : Nat)
  | name (n : String)
  | undefined
deriving DecidableEq, Repr

/-- A reported value. Its conversion deletes `structValues` and adds `structValue`. -/
structure ReportedDoc where
  reporterIndex : Nat
  timestamp : Nat
  bytesValue : List UInt8
  booleanValue : Bool
  numberValue : Int
  stringValue : String
  enumValue : EnumDoc
  locationValue : Option Location
  structValues : Option (List PropertyValue)
  structValue : Option (List (String × FieldDoc))

structure PageDoc where
  name : String
  recordId : String
  pageNum : Nat
  reportedValues : List ReportedDoc

def ReportedValue.toObject (r : ReportedValue) : ReportedDoc where
  reporterIndex := r.reporterIndex
  timestamp := toNumber r.timestamp
  bytesValue := r.bytesValue
  booleanValue := r.booleanValue
  numberValue := intToNumber r.numberValue
  stringValue := r.stringValue
  enumValue := .index r.enumValue
  locationValue := r.locationValue.map Location.toObject
  structValues := some (valueObjects r.structValues)
  structValue := none

def PropertyPage.toObject (page : PropertyPage) (pageNum : Nat) : PageDoc where
  name := page.name
  recordId := page.recordId
  pageNum
  reportedValues := page.reportedValues.map ReportedValue.toObject

/-- `property.enumOptions[reported.enumValue]`. -/
def EnumDoc.option (options : List String) : EnumDoc → EnumDoc
  | .index i => (options[i]?).elim .undefined .name
  | _ => .undefined

/-- Enum indexes become names, or empty strings if the property is no enum; `structValues`
becomes the object `structValue`. -/
def ReportedDoc.convert (property : Property) (r : ReportedDoc) : ReportedDoc :=
  { r with
    enumValue := if property.dataType = .ENUM then r.enumValue.option property.enumOptions
      else .name ""
    structValue := some (if property.dataType = .STRUCT then
      xformStruct (r.structValues.getD []) else [])
    structValues := none }

/-- A page whose property is not found is stored as it is. -/
def PageDoc.convert (property : Option Property) (page : PageDoc) : PageDoc :=
  match property with
  | none => page
  | some p => { page with reportedValues := page.reportedValues.map (ReportedDoc.convert p) }

def ReportedDoc.defined (r : ReportedDoc) : Bool :=
  r.enumValue ≠ .undefined && (r.structValue.getD []).all fun f => f.2.defined

def PageDoc.defined (page : PageDoc) : Bool := page.reportedValues.all ReportedDoc.defined

inductive StateTable
  | participants | records | tables | properties | propertyPages | proposals | exchanges
deriving DecidableEq, Repr

/-- A document of a state table, without its block numbers. -/
inductive Entry
  | participant (e : Participant)
  | record (e : Record)
  | table (e : Table)
  | property (e : Property)
  | propertyPage (e : PageDoc)
  | proposal (e : Proposal)
  | exchange (e : Exchange)

/-- The value of a document under the index of its table. -/
inductive Key
  | publicKey (k : String)
  | recordId (r : String)
  | tableName (n : String)
  | property (name recordId : String)
  | page (name recordId : String) (pageNum : Nat)
  | proposalId (x : String)
  | exchange (buyProposalId sellProposalId : String)
deriving DecidableEq, Repr

def Key.table : Key → StateTable
  | .publicKey _ => .participants
  | .recordId _ => .records
  | .tableName _ => .tables
  | .property _ _ => .properties
  | .page _ _ _ => .propertyPages
  | .proposalId _ => .proposals
  | .exchange _ _ => .exchanges

namespace Entry

def key : Entry → Key
  | .participant e => .publicKey e.publicKey
  | .record e => .recordId e.recordId
  | .table e => .tableName e.name
  | .property e => .property e.name e.recordId
  | .propertyPage e => .page e.name e.recordId e.pageNum
  | .proposal e => .proposalId e.proposalId
  | .exchange e => .exchange e.buyProposalId e.sellProposalId

/-- Only pages are converted. -/
def convert (property : Option Property) : Entry → Entry
  | .propertyPage page => .propertyPage (page.convert property)
  | e => e

/-- The key of the property that a page is converted with. -/
def propertyKey : Entry → Option Key
  | .propertyPage page => some (.property page.name page.recordId)
  | _ => none

def toProperty : Entry → Option Property
  | .property p => some p
  | _ => none

def toRecord : Entry → Option Record
  | .record r => some r
  | _ => none

def toPage : Entry → Option PageDoc
  | .propertyPage page => some page
  | _ => none

theorem key_convert (p : Option Property) (e : Entry) : (e.convert p).key = e.key := by
  cases e with
  | propertyPage page =>
    cases p with
    | none => rfl
    | some p => rfl
  | _ => rfl

end Entry

end DgcRestApi
