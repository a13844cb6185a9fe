import Mathlib.Data.Nat.Digits.Lemmas
import Mathlib.Tactic.IntervalCases

/-!
# Addresses

`addressing.rs`: every object of the family is stored at an address built from the family
prefix, a two digit code for its kind and slices of SHA-512 digests of its identifiers. The
digest is a parameter; all that is known of it is that it has the 62 digits which the longest
slice takes. Addresses and digests are the lists of their characters.
-/

namespace DgcRestApi

/-- An address of the validator's state, a hexadecimal string. -/
abbrev Address := List Char

/-- `Sha512` of the crypto crate, as the function from the input to `result_str`. -/
structure Sha512 where
  resultStr : String → List Char
  length_resultStr : ∀ x, 62 ≤ (resultStr x).length

namespace Addressing

def FAMILY_NAME : String := "dgc_REST_api"
def PARTICIPANT : Address := ['a','e']
def PROPERTY : Address := ['e','a']
def PROPOSAL : Address := ['a','a']
def RECORD : Address := ['e','c']
def TABLE : Address := ['e','e']
def EXCHANGE : Address := ['c','e']

variable (sha : Sha512)

def getDgcRestApiPrefix : Address := (sha.resultStr FAMILY_NAME).take 6

/-- The first `num` digits of the digest, or nothing when it has fewer. -/
def hash (toHash : String) (num : Nat) : Address :=
  let temp := sha.resultStr toHash
  if num ≤ temp.length then temp.take num else []

def makeParticipantAddress (identifier : String) : Address :=
  getDgcRestApiPrefix sha ++ PARTICIPANT ++ hash sha identifier 62

def makeRecordAddress (recordId : String) : Address :=
  getDgcRestApiPrefix sha ++ RECORD ++ hash sha recordId 62

def makeTableAddress (name : String) : Address :=
  getDgcRestApiPrefix sha ++ TABLE ++ hash sha name 62

def makePropertyAddressRange (recordId : String) : Address :=
  getDgcRestApiPrefix sha ++ PROPERTY ++ hash sha recordId 36

/-- `format!("{:01$x}", page, 4)`: hexadecimal, padded with zeros to four digits. -/
def numToPageNumber (page : Nat) : Address :=
  List.leftpad 4 '0' ((Nat.digits 16 page).reverse.map Nat.digitChar)

def makePropertyAddress (recordId propertyName : String) (page : Nat) : Address :=
  makePropertyAddressRange sha recordId ++ hash sha propertyName 22 ++ numToPageNumber page

def makeProposalAddress (proposalId : String) : Address :=
  getDgcRestApiPrefix sha ++ PROPOSAL ++ hash sha proposalId 62

def makeExchangeAddress (buyProposalId sellProposalId : String) : Address :=
  getDgcRestApiPrefix sha ++ EXCHANGE ++ hash sha buyProposalId 31 ++ hash sha sellProposalId 31

variable {sha}

theorem hash_eq_take {x : String} {num : Nat} (hn : num ≤ 62) :
    hash sha x num = (sha.resultStr x).take num := by
  rw [hash,if_pos (hn.trans (sha.length_resultStr x))]

theorem length_hash {x : String} {num : Nat} (hn : num ≤ 62) :
    (hash sha x num).length = num := by
  rw [hash_eq_take hn,List.length_take]
  exact min_eq_left (hn.trans (sha.length_resultStr x))

theorem length_getDgcRestApiPrefix : (getDgcRestApiPrefix sha).length = 6 := by
  rw [getDgcRestApiPrefix,List.length_take]
  exact min_eq_left (le_trans (by decide) (sha.length_resultStr FAMILY_NAME))

/-- The value of a hexadecimal digit. -/
def digitValue (c : Char) : Nat := if c.toNat < 97 then c.toNat - 48 else c.toNat - 87

theorem digitValue_digitChar {d : Nat} (hd : d < 16) : digitValue (Nat.digitChar d) = d := by
  interval_cases d <;> rfl

/-- A page number is read back from its digits: the padding adds only leading zeros. -/
theorem ofDigits_numToPageNumber (page : Nat) :
    Nat.ofDigits 16 ((numToPageNumber page).map digitValue).reverse = page := by
  have hdigits : ((Nat.digits 16 page).reverse.map Nat.digitChar).map digitValue =
      (Nat.digits 16 page).reverse := by
    rw [List.map_map]
    conv_rhs => rw [← List.map_id (Nat.digits 16 page).reverse]
    apply List.map_congr_left
    intro d hd
    exact digitValue_digitChar (Nat.digits_lt_base (by decide) (List.mem_reverse.mp hd))
  have hzero : digitValue '0' = 0 := rfl
  rw [numToPageNumber,List.leftpad,List.map_append,List.map_replicate,
    hdigits,hzero,List.reverse_append,List.reverse_reverse,List.reverse_replicate,
    Nat.ofDigits_append_replicate_zero,Nat.ofDigits_digits]

theorem numToPageNumber_injective : Function.Injective numToPageNumber := by
  intro a b h
  rw [← ofDigits_numToPageNumber a,h,ofDigits_numToPageNumber]

/-- From 0x10000 on a page number takes more than four digits. -/
theorem length_numToPageNumber {page : Nat} :
    (numToPageNumber page).length = 4 ↔ page ≤ 0xffff := by
  have hdigits : (Nat.digits 16 page).length ≤ 4 ↔ page < 16 ^ 4 :=
    Nat.digits_length_le_iff (by decide) page
  rw [numToPageNumber,List.length_leftpad,List.length_map,List.length_reverse,max_eq_left_iff,
    hdigits]
  omega

/-- An address: the family prefix, a code and 62 digits. -/
theorem length_address {code rest : Address} (hcode : code.length = 2) (hrest : rest.length = 62) :
    (getDgcRestApiPrefix sha ++ code ++ rest).length = 70 := by
  rw [List.length_append,List.length_append,length_getDgcRestApiPrefix,hcode,hrest]

theorem length_propertyAddress (r n : String) (k : Nat) :
    (makePropertyAddress sha r n k).length = 66 + (numToPageNumber k).length := by
  rw [makePropertyAddress,makePropertyAddressRange]
  simp only [List.length_append,length_getDgcRestApiPrefix,length_hash (show 36 ≤ 62 by decide),
    length_hash (show 22 ≤ 62 by decide),PROPERTY,List.length_cons,List.length_nil]

/-- A property address determines the address range of its record, the name slice and the
page. -/
theorem makePropertyAddress_inj {r₁ r₂ n₁ n₂ : String} {p₁ p₂ : Nat}
    (h : makePropertyAddress sha r₁ n₁ p₁ = makePropertyAddress sha r₂ n₂ p₂) :
    makePropertyAddressRange sha r₁ = makePropertyAddressRange sha r₂ ∧
      hash sha n₁ 22 = hash sha n₂ 22 ∧ p₁ = p₂ := by
  have hl : (makePropertyAddressRange sha r₁).length =
      (makePropertyAddressRange sha r₂).length := by
    simp only [makePropertyAddressRange,List.length_append,length_hash (show 36 ≤ 62 by decide)]
  simp only [makePropertyAddress,List.append_assoc] at h
  obtain ⟨hr,htail⟩ := List.append_inj h hl
  obtain ⟨hn,hp⟩ := List.append_inj htail (by
    rw [length_hash (by decide),length_hash (by decide)])
  exact ⟨hr,hn,numToPageNumber_injective hp⟩

end Addressing

end DgcRestApi
