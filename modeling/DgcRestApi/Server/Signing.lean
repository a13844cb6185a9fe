import DgcRestApi.Kit.Fallible
import DgcRestApi.Kit.Interleaving
import DgcRestApi.Server.Proposals
import Mathlib.Logic.Function.Basic

/-!
# Signing transactions

Each script of `transaction/` keeps one `createTxn` for all its calls. A call that has learnt the
batcher's key puts a new closure there, and later uses what it finds there, which may be the
closure of another call by then, with the signers that the other call has cached. The closure is
given the private key with every transaction and caches a signer under the string of the key, so
this does no harm as long as one string is one key: a call comes to what it would come to alone.
A private key that is missing or null is no string. A random one is drawn for it, and its signer is
cached all the same.
-/

namespace DgcRestApi.Server.Signing
open Interleaving Program Fallible

/-- The scripts, each with a `createTxn` of its own. -/
inductive Script
  | participants | proposals | records | tables
deriving DecidableEq, Repr

/-- What every object has a property of, without having been given it. -/
def inherited : List String :=
  ["constructor","hasOwnProperty","isPrototypeOf","propertyIsEnumerable","toLocaleString",
    "toString","valueOf","__defineGetter__","__defineSetter__","__lookupGetter__",
    "__lookupSetter__","__proto__"]

/-- The private key of a transaction as the request has it: missing, null, a string, or some other
value, of which the library may make a key too. -/
inductive PrivateKey
  | undefined | null
  | hex (x : String)
  | other (name : String) (publicKey : Option String)
deriving DecidableEq, Repr

/-- The string of the value, under which an object has it for a property. -/
def PrivateKey.name : PrivateKey → String
  | .undefined => "undefined"
  | .null => "null"
  | .hex x => x
  | .other name _ => name

/-- The keys of the signing library: `fromHex` accepts hexadecimal numbers only. The public keys
of the private keys that are drawn, in this order, are `random`. -/
structure Keys where
  server : ServerEnv
  fromHex : String → Bool
  random : Nat → String
  not_inherited : ∀ x ∈ inherited, fromHex x = false

/-- A transaction, by what its header says of it. -/
structure Transaction where
  signerPublicKey : String
  batcherPublicKey : String
  payload : PayloadMessage

/-- What `getTxnCreator` returns: its closure over the two keys. -/
structure TxnCreator where
  signerPublicKey : String
  batcherPublicKey : String

/-- `createTxn` is null, or what it gives for a key is no transaction. -/
inductive Fault
  | notAFunction | noTransaction
deriving DecidableEq, Repr

/-- The closure in `createTxn`. -/
structure TxnCreators where
  batcherPublicKey : String
  txnCreators : List (String × TxnCreator) := []

section Definitions

variable (keys : Keys)

/-- With the number of keys that were drawn before and after. -/
def getTxnCreator (privateKey : PrivateKey) (batcherPublicKey : String) (drawn : Nat) :
    Except Fault TxnCreator × Nat :=
  match privateKey with
  | .undefined | .null => (.ok ⟨keys.random drawn,batcherPublicKey⟩,drawn + 1)
  | .hex x =>
    if keys.fromHex x then (.ok ⟨keys.server.publicKey x,batcherPublicKey⟩,drawn)
    else (.error .noTransaction,drawn)
  | .other _ (some publicKey) => (.ok ⟨publicKey,batcherPublicKey⟩,drawn)
  | .other _ none => (.error .noTransaction,drawn)

/-- The creator for a key, made when it is first needed. Under an inherited name there is
something that is no creator. -/
def TxnCreators.creator (c : TxnCreators) (privateKey : PrivateKey) (drawn : Nat) :
    Except Fault TxnCreator × TxnCreators × Nat :=
  if privateKey.name ∈ inherited then (.error .noTransaction,c,drawn)
  else match c.txnCreators.lookup privateKey.name with
    | some creator => (.ok creator,c,drawn)
    | none => match getTxnCreator keys privateKey c.batcherPublicKey drawn with
      | (.ok creator,drawn) =>
        (.ok creator,{ c with txnCreators := (privateKey.name,creator) :: c.txnCreators },drawn)
      | (.error fault,drawn) => (.error fault,c,drawn)

def TxnCreator.create (payload : PayloadMessage) (creator : TxnCreator) : Transaction :=
  ⟨creator.signerPublicKey,creator.batcherPublicKey,payload⟩

def callCreateTxn (entry : PrivateKey × PayloadMessage) :
    Option TxnCreators → Nat → Except Fault Transaction × Option TxnCreators × Nat
  | none,drawn => (.error .notAFunction,none,drawn)
  | some c,drawn =>
    let (creator,c,drawn) := c.creator keys entry.1 drawn
    (creator.map (TxnCreator.create entry.2),some c,drawn)

/-- The transactions of a call, up to the first that fails. -/
def createTxns : List (PrivateKey × PayloadMessage) → Option TxnCreators → Nat →
    Except Fault (List Transaction) × Option TxnCreators × Nat
  | [],slot,drawn => (.ok [],slot,drawn)
  | entry :: entries,slot,drawn =>
    match callCreateTxn keys entry slot drawn with
    | (.error fault,slot,drawn) => (.error fault,slot,drawn)
    | (.ok txn,slot,drawn) =>
      let (txns,slot,drawn) := createTxns entries slot drawn
      (txns.map (txn :: ·),slot,drawn)

/-- The key that `/info` tells, the variables `createTxn`, and how many keys were drawn. -/
structure Slots where
  pubkey : String
  createTxn : Script → Option TxnCreators
  drawn : Nat := 0

def Slots.assign (s : Slots) (script : Script) (slot : Option TxnCreators) : Slots :=
  { s with createTxn := Function.update s.createTxn script slot }

/-- What a request asks a script to sign: private keys and payloads. -/
structure Call where
  script : Script
  entries : List (PrivateKey × PayloadMessage)

/-- The transactions of a call, made with the closure that is found. -/
def Slots.sign (s : Slots) (call : Call) : Except Fault (List Transaction) × Slots :=
  let (txns,slot,drawn) := createTxns keys call.entries (s.createTxn call.script) s.drawn
  (txns,{ s.assign call.script slot with drawn })

/-- A call up to the submission of its transactions. -/
def submit (call : Call) : Program Slots (Except Fault (List Transaction)) :=
  query (fun s => (s.pubkey,s)) fun batcherPublicKey =>
    query (fun s => ((),s.assign call.script (some { batcherPublicKey }))) fun _ =>
      query (fun s => s.sign keys call) done

end Definitions

/-- `validateTxns` of the batcher. -/
def validateTxns (publicKeyHex : String) (txns : List Transaction) : Bool :=
  txns.all fun txn => txn.batcherPublicKey = publicKeyHex

/-- The transaction as the processor gets it. -/
def Transaction.request (txn : Transaction) : TpProcessRequest :=
  { signerPublicKey := txn.signerPublicKey
    payload := some txn.payload
    inputs := ["3bfc81"]
    outputs := ["3bfc81"] }

/-- A pool of calls, in which nothing else touches the variables. -/
def Calling (keys : Keys) (pubkey : String)
    (h : List (Pool Slots (Except Fault (List Transaction)) × Move Empty Call))
    (P : Pool Slots (Except Fault (List Transaction))) : Prop :=
  Run (Step (fun _ _ _ => False) (submit keys)) ⟨{ pubkey, createTxn := fun _ => none },[],[]⟩ h P

/-- The private keys that the calls of a history carry. -/
def Carried (h : List (Pool Slots (Except Fault (List Transaction)) × Move Empty Call))
    (privateKey : PrivateKey) : Prop :=
  ∃ call ∈ requests h, ∃ e ∈ call.entries, e.1 = privateKey

/-- A string, of which none of the private keys `K` but itself has the name. -/
def OneKey (K : PrivateKey → Prop) (privateKey : PrivateKey) : Prop :=
  (∃ x, privateKey = .hex x) ∧
    ∀ privateKey', K privateKey' → privateKey'.name = privateKey.name → privateKey' = privateKey

/-! ## The invariant of the variables -/

section Signers

variable (keys : Keys) (K : PrivateKey → Prop) (pubkey : String)

/-- The creator of one of the private keys `K` of that name. -/
def CreatorOf (name : String) (creator : TxnCreator) : Prop :=
  ∃ privateKey, K privateKey ∧ privateKey.name = name ∧
    ∃ drawn, (getTxnCreator keys privateKey pubkey drawn).1 = .ok creator

/-- The transaction is that of the entry. -/
def Signed (entry : PrivateKey × PayloadMessage) (txn : Transaction) : Prop :=
  ∃ creator, CreatorOf keys K pubkey entry.1.name creator ∧ txn = creator.create entry.2

/-- A key of which no creator can be made, or none that can be found. -/
def Refused (privateKey : PrivateKey) : Prop :=
  privateKey.name ∈ inherited ∨
    ∀ drawn, (getTxnCreator keys privateKey pubkey drawn).1 = .error .noTransaction

/-- What becomes of the entries of a call. -/
structure Outcome (entries : List (PrivateKey × PayloadMessage))
    (r : Except Fault (List Transaction)) : Prop where
  signed : ∀ txns, r = .ok txns → List.Forall₂ (Signed keys K pubkey) entries txns
  refused : ∀ fault, r = .error fault →
    fault = .noTransaction ∧ ∃ e ∈ entries, Refused keys pubkey e.1

/-- What a closure has cached are creators of the names they are cached under. -/
structure Faithful (c : TxnCreators) : Prop where
  batcher : c.batcherPublicKey = pubkey
  cached : ∀ name creator, c.txnCreators.lookup name = some creator →
    CreatorOf keys K pubkey name creator

end Signers

def Sound (keys : Keys) (K : PrivateKey → Prop) (s : Slots) : Prop :=
  ∀ script c, s.createTxn script = some c → Faithful keys K s.pubkey c

/-- The key stays, closures stay faithful, and no variable becomes null again. -/
structure Onward (keys : Keys) (K : PrivateKey → Prop) (s s' : Slots) : Prop where
  pubkey : s'.pubkey = s.pubkey
  sound : Sound keys K s → Sound keys K s'
  held : ∀ script, (s.createTxn script).isSome → (s'.createTxn script).isSome

section Calls

variable {keys : Keys} {K : PrivateKey → Prop} {pubkey : String} {c : TxnCreators}
variable {entry : PrivateKey × PayloadMessage} {entries : List (PrivateKey × PayloadMessage)}
variable {s s' s'' : Slots} {call : Call} {drawn : Nat}

theorem Onward.refl (s : Slots) : Onward keys K s s := ⟨rfl,id,fun _ => id⟩

theorem Onward.trans (h : Onward keys K s s') (h' : Onward keys K s' s'') : Onward keys K s s'' :=
  ⟨h'.pubkey.trans h.pubkey,h'.sound ∘ h.sound,fun script => h'.held script ∘ h.held script⟩

theorem assign_eq_some {script script' : Script} {c' : TxnCreators}
    (h : (s.assign script (some c)).createTxn script' = some c') :
    c' = c ∨ s.createTxn script' = some c' := by
  rw [Slots.assign] at h
  dsimp only at h
  rw [Function.update_apply] at h
  split at h
  · exact Or.inl (Option.some.inj h).symm
  · exact Or.inr h

/-- A faithful closure is put into a variable, and keys are drawn. -/
theorem Onward.assign {script : Script} (hc : Sound keys K s → Faithful keys K s.pubkey c)
    (drawn : Nat) : Onward keys K s { s.assign script (some c) with drawn } where
  pubkey := rfl
  sound hs script' c' hc' := by
    rcases assign_eq_some hc' with rfl | hc'
    · exact hc hs
    · exact hs script' c' hc'
  held script' h := by
    rw [Slots.assign]
    dsimp only
    rw [Function.update_apply]
    split
    · rfl
    · exact h

theorem getTxnCreator_hex {x : String} : (getTxnCreator keys (.hex x) pubkey drawn).1 =
    if keys.fromHex x then .ok ⟨keys.server.publicKey x,pubkey⟩ else .error .noTransaction := by
  rw [getTxnCreator]
  split <;> rfl

theorem CreatorOf.batcher {name : String} {creator : TxnCreator}
    (h : CreatorOf keys K pubkey name creator) : creator.batcherPublicKey = pubkey := by
  obtain ⟨privateKey,_,_,drawn,h⟩ := h
  cases privateKey with
  | undefined | null => exact Except.ok.inj h ▸ rfl
  | hex x =>
    rw [getTxnCreator_hex] at h
    split at h
    · exact Except.ok.inj h ▸ rfl
    · cases h
  | other name publicKey =>
    cases publicKey with
    | some publicKey => exact Except.ok.inj h ▸ rfl
    | none => cases h

/-- A key has no creator whatever was drawn, or it has one each time. -/
theorem refused_of_error {privateKey : PrivateKey} {fault : Fault}
    (h : (getTxnCreator keys privateKey pubkey drawn).1 = .error fault) :
    fault = .noTransaction ∧ Refused keys pubkey privateKey := by
  cases privateKey with
  | undefined | null => cases h
  | hex x =>
    rw [getTxnCreator_hex] at h
    split at h
    · cases h
    · next hx =>
      refine ⟨(Except.error.inj h).symm,Or.inr fun drawn => ?_⟩
      rw [getTxnCreator_hex,if_neg hx]
  | other name publicKey =>
    cases publicKey with
    | some publicKey => cases h
    | none => exact ⟨(Except.error.inj h).symm,Or.inr fun _ => rfl⟩

theorem creator_faithful (hc : Faithful keys K pubkey c) {privateKey : PrivateKey}
    (hK : K privateKey) {r : Except Fault TxnCreator} {c' : TxnCreators} {drawn' : Nat}
    (h : c.creator keys privateKey drawn = (r,c',drawn')) :
    (∀ creator, r = .ok creator → CreatorOf keys K pubkey privateKey.name creator) ∧
      (∀ fault, r = .error fault → fault = .noTransaction ∧ Refused keys pubkey privateKey) ∧
      Faithful keys K pubkey c' := by
  rw [TxnCreators.creator] at h
  split at h
  · next hin =>
    obtain ⟨rfl,rfl,_⟩ := Prod.mk.inj h |>.imp_right Prod.mk.inj
    exact ⟨nofun,fun fault hf => ⟨(Except.error.inj hf).symm,Or.inl hin⟩,hc⟩
  split at h
  · next creator hfound =>
    obtain ⟨rfl,rfl,_⟩ := Prod.mk.inj h |>.imp_right Prod.mk.inj
    exact ⟨fun creator' hr => Except.ok.inj hr ▸ hc.cached _ _ hfound,nofun,hc⟩
  rw [hc.batcher] at h
  split at h
  · next creator _ hnew =>
    obtain ⟨rfl,rfl,_⟩ := Prod.mk.inj h |>.imp_right Prod.mk.inj
    have hcreator : CreatorOf keys K pubkey privateKey.name creator :=
      ⟨privateKey,hK,rfl,drawn,congrArg Prod.fst hnew⟩
    refine ⟨fun creator' hr => Except.ok.inj hr ▸ hcreator,nofun,rfl,?_⟩
    intro name creator' hname
    rw [List.lookup_cons] at hname
    split at hname
    · next hkey =>
      obtain rfl := Option.some.inj hname
      rwa [beq_iff_eq.mp hkey]
    · exact hc.cached _ _ hname
  · next fault _ hnew =>
    obtain ⟨rfl,rfl,_⟩ := Prod.mk.inj h |>.imp_right Prod.mk.inj
    refine ⟨nofun,fun fault' hf => ?_,hc⟩
    obtain rfl := Except.error.inj hf
    exact refused_of_error (congrArg Prod.fst hnew)

/-- A faithful closure makes every transaction of the call with a creator of its name. -/
theorem createTxns_faithful (hc : Faithful keys K pubkey c) (hK : ∀ e ∈ entries, K e.1) :
    ∃ c', (createTxns keys entries (some c) drawn).2.1 = some c' ∧ Faithful keys K pubkey c' ∧
      Outcome keys K pubkey entries (createTxns keys entries (some c) drawn).1 := by
  induction entries generalizing c drawn with
  | nil => exact ⟨c,rfl,hc,fun _ h => Except.ok.inj h ▸ .nil,nofun⟩
  | cons entry entries ih =>
    rw [createTxns,callCreateTxn]
    rcases hcreator : c.creator keys entry.1 drawn with ⟨r,c',drawn'⟩
    obtain ⟨hok,herror,hc'⟩ := creator_faithful hc (hK _ List.mem_cons_self) hcreator
    cases r with
    | error fault =>
      obtain ⟨rfl,hrefused⟩ := herror fault rfl
      refine ⟨c',rfl,hc',nofun,fun fault' h => ⟨(Except.error.inj h).symm,?_⟩⟩
      exact ⟨entry,List.mem_cons_self,hrefused⟩
    | ok creator =>
      obtain ⟨c'',hslot,hc'',hrest⟩ :=
        @ih c' drawn' hc' fun e he => hK e (List.mem_cons_of_mem _ he)
      dsimp only [Except.map]
      rcases hresult : createTxns keys entries (some c') drawn' with ⟨r,slot,drawn''⟩
      rw [hresult] at hslot hrest
      refine ⟨c'',hslot,hc'',?_⟩
      cases r with
      | error fault =>
        obtain ⟨hfault,e,he,hrefused⟩ := hrest.refused fault rfl
        exact ⟨nofun,fun _ h => Except.error.inj h ▸ ⟨hfault,e,List.mem_cons_of_mem _ he,hrefused⟩⟩
      | ok txns =>
        refine ⟨fun txns' h => ?_,nofun⟩
        obtain rfl := Except.ok.inj h
        exact .cons ⟨creator,hok creator rfl,rfl⟩ (hrest.signed txns rfl)

/-- Whatever other calls do in between, a call comes to transactions of its own entries. -/
theorem submit_respects (hs : Sound keys K s) (hK : ∀ e ∈ call.entries, K e.1) :
    (submit keys call).Respects (Onward keys K)
      (fun r _ => Outcome keys K s.pubkey call.entries r) s := by
  intro s₁ h₁
  refine ⟨.refl s₁,fun s₂ h₂ => ?_⟩
  have hfresh : Onward keys K s₂ (s₂.assign call.script (some { batcherPublicKey := s₁.pubkey })) :=
    .assign (fun _ => ⟨h₂.pubkey.symm,fun _ _ h => by cases h⟩) s₂.drawn
  refine ⟨hfresh,fun s₃ h₃ => ?_⟩
  have honward : Onward keys K s s₃ := ((h₁.trans h₂).trans hfresh).trans h₃
  -- another call may have replaced the closure, but there is one
  have hheld : (s₃.createTxn call.script).isSome := h₃.held _ (by simp [Slots.assign])
  obtain ⟨c,hc⟩ := Option.isSome_iff_exists.mp hheld
  obtain ⟨c',hslot,hc',houtcome⟩ :=
    @createTxns_faithful _ _ _ _ _ s₃.drawn (honward.sound hs _ c hc) hK
  dsimp only
  rw [Slots.sign,hc]
  rcases hresult : createTxns keys call.entries (some c) s₃.drawn with ⟨r,slot,drawn⟩
  rw [hresult] at hslot houtcome
  obtain rfl := hslot
  exact ⟨.assign (fun _ => hc') drawn,honward.pubkey ▸ houtcome⟩

/-- A string that can be parsed is none of the inherited names. -/
theorem not_refused_hex {x : String} (hx : keys.fromHex x = true) :
    ¬ Refused keys pubkey (.hex x) := by
  rintro (hin | h)
  · rw [keys.not_inherited x hin] at hx
    cases hx
  · have h := h 0
    rw [getTxnCreator_hex,if_pos hx] at h
    cases h

theorem Signed.eq_of_oneKey {txn : Transaction} (h : Signed keys K pubkey entry txn)
    (hone : OneKey K entry.1) : keys.fromHex entry.1.name = true ∧
      txn = ⟨keys.server.publicKey entry.1.name,pubkey,entry.2⟩ := by
  obtain ⟨creator,⟨k,hk,hname,drawn,hcreator⟩,rfl⟩ := h
  obtain ⟨⟨x,hx⟩,hone⟩ := hone
  rw [hone k hk hname,hx,getTxnCreator_hex] at hcreator
  rw [hx]
  split at hcreator
  · next hparse =>
    obtain rfl := Except.ok.inj hcreator
    exact ⟨hparse,rfl⟩
  · cases hcreator

theorem signed_eq_of_oneKey {txns : List Transaction}
    (h : List.Forall₂ (Signed keys K pubkey) entries txns) (hone : ∀ e ∈ entries, OneKey K e.1) :
    (∀ e ∈ entries, keys.fromHex e.1.name = true) ∧
      txns = entries.map fun e => ⟨keys.server.publicKey e.1.name,pubkey,e.2⟩ := by
  induction h with
  | nil => exact ⟨List.forall_mem_nil _,rfl⟩
  | cons htxn _ ih =>
    rw [List.forall_mem_cons] at hone ⊢
    obtain ⟨hparse,rfl⟩ := htxn.eq_of_oneKey hone.1
    obtain ⟨hparses,rfl⟩ := ih hone.2
    exact ⟨⟨hparse,hparses⟩,rfl⟩

theorem Outcome.ok_iff_of_oneKey {r : Except Fault (List Transaction)}
    (ho : Outcome keys K pubkey entries r) (hone : ∀ e ∈ entries, OneKey K e.1) :
    (∃ txns, r = .ok txns) ↔ ∀ e ∈ entries, keys.fromHex e.1.name = true := by
  refine ⟨fun ⟨txns,htxns⟩ => (signed_eq_of_oneKey (ho.signed txns htxns) hone).1,fun hparse => ?_⟩
  cases r with
  | ok txns => exact ⟨txns,rfl⟩
  | error fault =>
    obtain ⟨_,e,he,hrefused⟩ := ho.refused fault rfl
    obtain ⟨⟨x,hx⟩,_⟩ := hone e he
    have hparsed := hparse e he
    rw [hx] at hrefused hparsed
    exact absurd hrefused (not_refused_hex hparsed)

end Calls

/-- In every interleaving of calls, `createTxn` is a function when it is called. The transactions of
a call pass the batcher, and each is signed with a key that some call carries under the name of
its own. If these are strings, of which no call carries another value of the same name, the call
has its transactions exactly if all its keys can be parsed, and the processor gets what it would
get of `createTxn` without any closure. -/
theorem calls_signed {keys : Keys} {pubkey : String}
    {h : List (Pool Slots (Except Fault (List Transaction)) × Move Empty Call)}
    {P : Pool Slots (Except Fault (List Transaction))} (hr : Calling keys pubkey h P) {i : Nat}
    {r : Except Fault (List Transaction)} (ha : P.answer i = some r) :
    ∃ call, (requests h).reverse[i]? = some call ∧ r ≠ .error .notAFunction ∧
      (∀ txns, r = .ok txns → validateTxns pubkey txns = true ∧
        List.Forall₂ (Signed keys (Carried h) pubkey) call.entries txns) ∧
      ((∀ e ∈ call.entries, OneKey (Carried h) e.1) →
        ((∃ txns, r = .ok txns) ↔ ∀ e ∈ call.entries, keys.fromHex e.1.name = true) ∧
        ∀ txns, r = .ok txns → txns.map Transaction.request =
          call.entries.map fun e => createTxn keys.server e.1.name e.2) := by
  let post : Call → Except Fault (List Transaction) → Slots → Prop :=
    fun call r _ => Outcome keys (Carried h) pubkey call.entries r
  have hsound : Sound keys (Carried h) { pubkey, createTxn := fun _ => none } :=
    fun _ _ hc => nomatch hc
  have hrun := (@run_respects _ _ _ _ _ _ _ _ _ _ post (@Onward.refl keys (Carried h))
    (fun _ _ _ => Onward.trans) (fun _ _ _ => False.elim) (fun _ _ _ _ hpost _ => hpost) hr
    fun call hcall s hs => ?_).2
  · obtain ⟨call,hcall,houtcome⟩ := hrun.answer ha
    refine ⟨call,hcall,fun herror => ?_,fun txns htxns => ⟨?_,houtcome.signed txns htxns⟩,?_⟩
    · exact nomatch (houtcome.refused _ herror).1
    · refine List.all_eq_true.mpr fun txn htxn => ?_
      obtain ⟨n,hn⟩ := List.getElem?_of_mem htxn
      obtain ⟨_,_,creator,hcreator,rfl⟩ :=
        forall₂_getElem? (houtcome.signed txns htxns) hn
      exact decide_eq_true hcreator.batcher
    · intro hone
      refine ⟨houtcome.ok_iff_of_oneKey hone,fun txns htxns => ?_⟩
      rw [(signed_eq_of_oneKey (houtcome.signed txns htxns) hone).2,List.map_map]
      rfl
  · have hpubkey : s.pubkey = pubkey := hs.pubkey
    have hcall' := @submit_respects keys (Carried h) s call (hs.sound hsound)
      fun e he => ⟨call,hcall,e,he,rfl⟩
    rwa [hpubkey] at hcall'

namespace Sample

def keys : Keys where
  server :=
    { publicKey := id
      price
        | .nan => 0
        | .finite q => q
        | .negInf | .posInf => 0 }
  fromHex x := x = "a1" ∨ x = "b2"
  random n := if n = 0 then "c3" else "d4"
  not_inherited := by decide

def payload (timestamp : Nat) : PayloadMessage := { action := .CREATE_PROPOSAL, timestamp }

def call (privateKey : PrivateKey) (timestamp : Nat) : Call :=
  ⟨.proposals,[(privateKey,payload timestamp)]⟩

/-- The first call signs with the closure of the second one, which has no private key. -/
theorem calling : ∃ h P r, Calling keys "p" h P ∧
    requests h = [call .undefined 6,call (.hex "a1") 5] ∧ P.answer 0 = some r := by
  refine ⟨_,_,_,((((((((Run.nil.snoc (.start (call (.hex "a1") 5))).snoc
    (.start (call .undefined 6))).snoc (.query (i := 0) rfl)).snoc (.query (i := 1) rfl)).snoc
      (.query (i := 0) rfl)).snoc (.query (i := 1) rfl)).snoc (.query (i := 1) rfl)).snoc
        (.query (i := 0) rfl)),rfl,rfl⟩

end Sample

theorem calls_signed_sample : ∃ h P txns, Calling Sample.keys "p" h P ∧
    P.answer 0 = some (.ok txns) ∧ txns.map Transaction.request =
      [createTxn Sample.keys.server "a1" (Sample.payload 5)] := by
  obtain ⟨h,P,r,hr,hcalls,ha⟩ := Sample.calling
  obtain ⟨call,hcall,_,_,hsigned⟩ := calls_signed hr ha
  rw [hcalls] at hcall
  obtain rfl : Sample.call (.hex "a1") 5 = call := Option.some.inj hcall
  have hone : ∀ e ∈ (Sample.call (.hex "a1") 5).entries, OneKey (Carried h) e.1 := by
    intro e he
    obtain rfl := List.mem_singleton.mp he
    refine ⟨⟨"a1",rfl⟩,fun k ⟨call,hcall,e,he,hk⟩ hname => ?_⟩
    subst hk
    rw [hcalls,List.mem_cons,List.mem_singleton] at hcall
    rcases hcall with rfl | rfl <;> obtain rfl := List.mem_singleton.mp he
    · exact absurd hname (by decide)
    · rfl
  obtain ⟨hiff,hrequests⟩ := hsigned hone
  obtain ⟨txns,rfl⟩ := hiff.mpr (by decide)
  exact ⟨h,P,txns,hr,ha,hrequests txns rfl⟩

end DgcRestApi.Server.Signing
