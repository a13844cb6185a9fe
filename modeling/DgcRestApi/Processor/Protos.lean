import Mathlib.Data.Rat.Defs

/-!
# Protobuf messages of the transaction family

The messages of `protos/*.proto` as structures whose field defaults are the proto3
defaults, so that `{}` is the `new()` of the generated Rust code. Field names are those of
the `.proto` files in camel case. A `double` coin amount is an exact rational; the unsigned
integers are natural numbers, and the narrowing casts of the handler are explicit there.
-/

namespace DgcRestApi

inductive DataType
  | TYPE_UNSET | BYTES | BOOLEAN | NUMBER | STRING | ENUM | STRUCT | LOCATION
deriving DecidableEq, Repr

/-- The `{:?}` text of a data type in an error message. -/
def DataType.debug : DataType → String
  | .TYPE_UNSET => "TYPE_UNSET"
  | .BYTES => "BYTES"
  | .BOOLEAN => "BOOLEAN"
  | .NUMBER => "NUMBER"
  | .STRING => "STRING"
  | .ENUM => "ENUM"
  | .STRUCT => "STRUCT"
  | .LOCATION => "LOCATION"

structure Location where
  latitude : Int := 0
  longitude : Int := 0
deriving DecidableEq, Repr

/-- One column of a table, or one member of a struct. -/
structure PropertySchema where
  name : String := ""
  dataType : DataType := .TYPE_UNSET
  required : Bool := false
  fixed : Bool := false
  delayed : Bool := false
  numberExponent : Int := 0
  enumOptions : List String := []
  structProperties : List PropertySchema := []
  unit : String := ""

/-- A value as a client submits it: one field for each data type. -/
structure PropertyValue where
  name : String := ""
  dataType : DataType := .TYPE_UNSET
  bytesValue : List UInt8 := []
  booleanValue : Bool := false
  numberValue : Int := 0
  stringValue : String := ""
  enumValue : String := ""
  structValues : List PropertyValue := []
  locationValue : Option Location := none

structure Reporter where
  publicKey : String := ""
  authorized : Bool := false
  index : Nat := 0
deriving DecidableEq, Repr

structure Property where
  name : String := ""
  recordId : String := ""
  dataType : DataType := .TYPE_UNSET
  reporters : List Reporter := []
  currentPage : Nat := 0
  wrapped : Bool := false
  fixed : Bool := false
  numberExponent : Int := 0
  enumOptions : List String := []
  structProperties : List PropertySchema := []
  unit : String := ""

structure ReportedValue where
  reporterIndex : Nat := 0
  timestamp : Nat := 0
  bytesValue : List UInt8 := []
  booleanValue : Bool := false
  numberValue : Int := 0
  stringValue : String := ""
  enumValue : Nat := 0
  structValues : List PropertyValue := []
  locationValue : Option Location := none

structure PropertyPage where
  name : String := ""
  recordId : String := ""
  reportedValues : List ReportedValue := []

structure CreditBalance where
  timestamp : Nat := 0
  dgCoinAmount : ℚ := 0
  proposalId : String := ""
deriving DecidableEq, Repr

structure Participant where
  publicKey : String := ""
  name : String := ""
  timestamp : Nat := 0
  email : String := ""
  dgCoinBalances : List CreditBalance := []
  dgCoinCredits : List CreditBalance := []
deriving DecidableEq, Repr

structure AssociatedParticipant where
  participantId : String := ""
  timestamp : Nat := 0
deriving DecidableEq, Repr

structure Record where
  recordId : String := ""
  table : String := ""
  owners : List AssociatedParticipant := []
  custodians : List AssociatedParticipant := []
  final : Bool := false
deriving DecidableEq, Repr

structure Table where
  name : String := ""
  properties : List PropertySchema := []

inductive Role
  | transferOwnership | transferCustodianship | authorizeReporter
  | buyDGC | sellDGC | creditDGC | transferDGC
deriving DecidableEq, Repr

inductive Status
  | OPEN | ACCEPTED | REJECTED | CANCELED | CLOSED
deriving DecidableEq, Repr

structure Proposal where
  proposalId : String := ""
  role : Role := .transferOwnership
  status : Status := .OPEN
  timestamp : Nat := 0
  issuingParticipant : String := ""
  receivingParticipant : String := ""
  recordId : String := ""
  properties : List String := []
  terms : String := ""
  dgCoinAmount : ℚ := 0
  currencyIsoCodes : String := ""
  currencyQuoteAmount : ℚ := 0
  dgCoinExchanged : ℚ := 0
deriving DecidableEq, Repr

structure Exchange where
  timestamp : Nat := 0
  lastDgcPrice : ℚ := 0
  currencyIsoCodes : String := ""
  lastCurrencyPrice : ℚ := 0
  buyProposalId : String := ""
  sellProposalId : String := ""
deriving DecidableEq, Repr

inductive ActionTag
  | CREATE_PARTICIPANT | CREATE_RECORD | FINALIZE_RECORD | CREATE_TABLE
  | UPDATE_PROPERTIES | CREATE_PROPOSAL | ANSWER_PROPOSAL | REVOKE_REPORTER
deriving DecidableEq, Repr

inductive Response
  | ACCEPT | REJECT | CANCEL | autoCLOSE | autoOPEN
deriving DecidableEq, Repr

structure CreateParticipantAction where
  name : String := ""

structure CreateRecordAction where
  recordId : String := ""
  table : String := ""
  properties : List PropertyValue := []

structure FinalizeRecordAction where
  recordId : String := ""

structure CreateTableAction where
  name : String := ""
  properties : List PropertySchema := []

structure UpdatePropertiesAction where
  recordId : String := ""
  properties : List PropertyValue := []

structure CreateProposalAction where
  proposalId : String := ""
  role : Role := .transferOwnership
  timestamp : Nat := 0
  receivingParticipant : String := ""
  recordId : String := ""
  properties : List String := []
  dgCoinAmount : ℚ := 0
  currencyIsoCodes : String := ""
  currencyQuoteAmount : ℚ := 0

structure AnswerProposalAction where
  proposalId : String := ""
  role : Role := .transferOwnership
  response : Response := .ACCEPT
  timestamp : Nat := 0
  receivingParticipant : String := ""
  recordId : String := ""
  dgCoinAmount : ℚ := 0
  dgCoinExchanged : ℚ := 0
  exchanges : List Exchange := []

structure RevokeReporterAction where
  recordId : String := ""
  reporterId : String := ""
  properties : List String := []

/-- The payload message. An unset submessage reads as its default instance. -/
structure PayloadMessage where
  action : ActionTag := .CREATE_PARTICIPANT
  timestamp : Nat := 0
  createParticipant : CreateParticipantAction := {}
  createRecord : CreateRecordAction := {}
  finalizeRecord : FinalizeRecordAction := {}
  createTable : CreateTableAction := {}
  updateProperties : UpdatePropertiesAction := {}
  createProposal : CreateProposalAction := {}
  answerProposal : AnswerProposalAction := {}
  revokeReporter : RevokeReporterAction := {}

end DgcRestApi
