import DgcRestApi.LedgerSync.Deltas
import DgcRestApi.Ledger.Canonical

/-!
# Deltas of the processor, and their delivery

A change that the processor made holds a container whose entries are all at its address, so
the keys of the entries of a delta are distinct. The operations of a delta may then be
executed in any order: each key of the delta gets one write, and no other key changes.
-/

namespace DgcRestApi.LedgerSync
open Addressing Versions Keyed Fallible

/-- The address at which the processor keeps the object of a key. -/
def keyAddress (sha : Sha512) : Key → Address
  | .publicKey k => makeParticipantAddress sha k
  | .recordId r => makeRecordAddress sha r
  | .tableName n => makeTableAddress sha n
  | .property n r => makePropertyAddress sha r n 0
  | .page n r k => makePropertyAddress sha r n k
  | .proposalId x => makeProposalAddress sha x
  | .exchange b v => makeExchangeAddress sha b v

/-- The name of the kind of object that has the key. -/
def keyName : Key → ProtoName
  | .publicKey _ => .Participant
  | .recordId _ => .Record
  | .tableName _ => .Table
  | .property _ _ => .Property
  | .page _ _ _ => .PropertyPage
  | .proposalId _ => .Proposal
  | .exchange _ _ => .Exchange

/-- A page is not at the number of its property, and its number has four digits. -/
def Numbered : Key → Prop
  | .page _ _ k => 1 ≤ k ∧ k ≤ 0xffff
  | _ => True

/-- The name of the objects of a container. -/
def containerName : Container → ProtoName
  | .participants _ => .Participant
  | .records _ => .Record
  | .tables _ => .Table
  | .properties _ => .Property
  | .propertyPages _ => .PropertyPage
  | .proposals _ => .Proposal
  | .exchanges _ => .Exchange

/-- A change of a state of the processor, at an address of the validator's length. -/
structure Change.WellFormed (sha : Sha512) (c : Change) : Prop where
  lodged : Lodged sha c.address c.value
  housed : Housed sha c.address c.value
  length : c.address.length = 70

def Change.entries (c : Change) : List Entry :=
  match getEntries c with
  | .ok es => es
  | .error _ => []

structure Delta.WellFormed (sha : Sha512) (d : Delta) : Prop where
  changes : ∀ c ∈ d.changes, c.WellFormed sha
  nodup : (d.changes.map Change.address).Nodup

def Delta.entries (d : Delta) : List Entry := d.changes.flatMap Change.entries

def Delta.num (d : Delta) : Nat := d.block.blockNum

theorem Delta.num_lt (d : Delta) : d.num < MAX_SAFE_INTEGER := d.block.blockNum_lt

/-- The operations that handling a delta sends, at the timer and before it. -/
def Delta.ops (d : Delta) : List Op := d.entries.map fun e => stateAdder e d.num

/-- Every container of a reachable state of the processor makes a well formed change. -/
theorem wellFormed_of_canonical {env : Env} {s : State} {A : Address} {c : Container}
    (hs : Canonical env s) (hA : s A = some c) (hlen : A.length = 70) :
    (Change.mk A c).WellFormed env.sha :=
  ⟨(hs.stored A c hA).2,hs.housed A c hA,hlen⟩

section Decoding

variable {sha : Sha512} {A : Address} {key : Key} {r n : String} {k : Nat}

theorem typePrefix_eq (A : Address) : typePrefix A = typeCode A := rfl

theorem lastFour_propertyAddress (h : (makePropertyAddress sha r n k).length = 70) :
    lastFour (makePropertyAddress sha r n k) = numToPageNumber k := by
  have hlen := @length_propertyAddress sha r n k
  rw [lastFour,h]
  rw [makePropertyAddress] at hlen ⊢
  apply List.drop_left'
  rw [List.length_append] at hlen
  omega

theorem pageNum_propertyAddress (h : (makePropertyAddress sha r n k).length = 70) :
    pageNum (makePropertyAddress sha r n k) = k := by
  rw [pageNum,lastFour_propertyAddress h,ofDigits_numToPageNumber]

theorem getProtoName_property (h : typePrefix A = PROPERTY) : getProtoName A =
    if lastFour A = ['0','0','0','0'] then .ok .Property else .ok .PropertyPage := if_pos h

/-- A property is at page 0, its pages are at the others. -/
theorem getProtoName_propertyAddress (h : (makePropertyAddress sha r n k).length = 70) :
    getProtoName (makePropertyAddress sha r n k) =
      .ok (if k = 0 then .Property else .PropertyPage) := by
  have hzero : numToPageNumber k = ['0','0','0','0'] ↔ k = 0 :=
    numToPageNumber_injective.eq_iff' rfl
  rw [getProtoName_property (typeCode_property r n k),lastFour_propertyAddress h]
  simp only [hzero]
  split <;> rfl

theorem length_makePropertyAddress (hk : k ≤ 0xffff) :
    (makePropertyAddress sha r n k).length = 70 := by
  rw [length_propertyAddress,length_numToPageNumber.mpr hk]

theorem length_keyAddress (h : Numbered key) : (keyAddress sha key).length = 70 := by
  have hhash : ∀ x, (hash sha x 62).length = 62 := fun x => length_hash le_rfl
  cases key with
  | publicKey k => exact length_address rfl (hhash k)
  | recordId r => exact length_address rfl (hhash r)
  | tableName n => exact length_address rfl (hhash n)
  | property n r => exact length_makePropertyAddress (Nat.zero_le _)
  | page n r k => exact length_makePropertyAddress h.2
  | proposalId x => exact length_address rfl (hhash x)
  | exchange b v =>
    rw [keyAddress,makeExchangeAddress,List.append_assoc]
    refine length_address rfl ?_
    rw [List.length_append,length_hash (by decide),length_hash (by decide)]

theorem getProtoName_keyAddress (h : Numbered key) :
    getProtoName (keyAddress sha key) = .ok (keyName key) := by
  have hlen := @length_keyAddress sha key h
  cases key with
  | publicKey k =>
    rw [keyAddress,getProtoName,typePrefix_eq,typeCode_participant]
    rfl
  | recordId r =>
    rw [keyAddress,getProtoName,typePrefix_eq,typeCode_record]
    rfl
  | tableName n =>
    rw [keyAddress,getProtoName,typePrefix_eq,typeCode_table]
    rfl
  | property n r => exact getProtoName_propertyAddress hlen
  | page n r k =>
    have hk : k ≠ 0 := Nat.one_le_iff_ne_zero.mp h.1
    exact (getProtoName_propertyAddress hlen).trans (by rw [if_neg hk]; rfl)
  | proposalId x =>
    rw [keyAddress,getProtoName,typePrefix_eq,typeCode_proposal]
    rfl
  | exchange b v =>
    rw [keyAddress,getProtoName,typePrefix_eq,typeCode_exchange]
    rfl

/-- A container with an entry at the address is at that of a key of its kind, given that pages
have numbers of four digits. -/
theorem housed_key {c : Container} (h : Housed sha A c)
    (hpage : ∀ es e k, c = .propertyPages es → e ∈ es →
      A = makePropertyAddress sha e.recordId e.name k → k ≤ 0xffff) :
    ∃ key, Numbered key ∧ keyName key = containerName c ∧ keyAddress sha key = A := by
  cases c with
  | participants es =>
    obtain ⟨e,_,hA⟩ := h
    exact ⟨.publicKey e.publicKey,trivial,rfl,hA.symm⟩
  | records es =>
    obtain ⟨e,_,hA⟩ := h
    exact ⟨.recordId e.recordId,trivial,rfl,hA.symm⟩
  | tables es =>
    obtain ⟨e,_,hA⟩ := h
    exact ⟨.tableName e.name,trivial,rfl,hA.symm⟩
  | properties es =>
    obtain ⟨e,_,hA⟩ := h
    exact ⟨.property e.name e.recordId,trivial,rfl,hA.symm⟩
  | propertyPages es =>
    obtain ⟨e,he,k,hk,hA⟩ := h
    have hlow : 1 ≤ k := Nat.one_le_iff_ne_zero.mpr hk
    exact ⟨.page e.name e.recordId k,⟨hlow,hpage es e k rfl he hA⟩,rfl,hA.symm⟩
  | proposals es =>
    obtain ⟨e,_,hA⟩ := h
    exact ⟨.proposalId e.proposalId,trivial,rfl,hA.symm⟩
  | exchanges es =>
    obtain ⟨e,_,hA⟩ := h
    exact ⟨.exchange e.buyProposalId e.sellProposalId,trivial,rfl,hA.symm⟩

/-- The protobuf of an address is that of its container. -/
theorem Change.WellFormed.protoName {c : Change} (h : c.WellFormed sha) :
    getProtoName c.address = .ok (containerName c.value) := by
  obtain ⟨key,hkey,hname,hA⟩ := housed_key h.housed fun es e k _ _ hA => by
    have hlen := h.length
    rw [hA,length_propertyAddress] at hlen
    exact length_numToPageNumber.mp (by omega)
  rw [← hA,getProtoName_keyAddress hkey,hname]

/-- What decoding a change gives: distinct keys, all at the address of the change. -/
def Decodes (sha : Sha512) (c : Change) : Prop :=
  getEntries c = .ok c.entries ∧ (c.entries.map Entry.key).Nodup ∧
    ∀ e ∈ c.entries, keyAddress sha e.key = c.address

theorem decodes_map {α κ : Type} {K : Kind α κ} {f : α → Entry} {c : Change} {es : List α}
    (hget : getEntries c = .ok (es.map f)) (hes : Distinct K.key es)
    (hf : ∀ a b, (f a).key = (f b).key → K.key a = K.key b)
    (haddr : ∀ a ∈ es, keyAddress sha (f a).key = c.address) : Decodes sha c := by
  have heq : c.entries = es.map f := by rw [Change.entries,hget]
  rw [Decodes,heq,List.map_map]
  refine ⟨hget,?_,?_⟩
  · rw [Distinct] at hes
    rw [List.Nodup,List.pairwise_map] at hes ⊢
    exact hes.imp fun hne hab => hne (hf _ _ hab)
  · intro e he
    obtain ⟨a,ha,rfl⟩ := List.mem_map.mp he
    exact haddr a ha

theorem Change.WellFormed.decodes {c : Change} (h : c.WellFormed sha) : Decodes sha c := by
  have hname := h.protoName
  obtain ⟨A,c⟩ := c
  obtain ⟨hl,_,hlen⟩ := h
  cases c with
  | participants es =>
    refine decodes_map (K := participantKind) (f := fun e => .participant e.toObject) ?_ hl.1
      (fun a b hab => Key.publicKey.inj hab) fun a ha => (hl.2 a ha).symm
    rw [getEntries,hname]
    rfl
  | records es =>
    refine decodes_map (K := recordKind) (f := fun e => .record e.toObject) ?_ hl.1
      (fun a b hab => Key.recordId.inj hab) fun a ha => (hl.2 a ha).symm
    rw [getEntries,hname]
    rfl
  | tables es =>
    refine decodes_map (K := tableKind) (f := fun e => .table e.toObject) ?_ hl.1
      (fun a b hab => Key.tableName.inj hab) fun a ha => (hl.2 a ha).symm
    rw [getEntries,hname]
    rfl
  | properties es =>
    refine decodes_map (K := propertyKind) (f := fun e => .property e.toObject) ?_ hl.1
      (fun a b hab => (Key.property.inj hab).1) fun a ha => (hl.2 a ha).symm
    rw [getEntries,hname]
    rfl
  | propertyPages es =>
    refine decodes_map (K := propertyPageKind)
      (f := fun e => .propertyPage (e.toObject (pageNum A))) ?_ hl.1
      (fun a b hab => (Key.page.inj hab).1) fun a ha => ?_
    · rw [getEntries,hname]
      rfl
    · -- the page is at some number, which is the one that its address is read as
      obtain ⟨k,hk⟩ := hl.2 a ha
      have hk : A = makePropertyAddress sha a.recordId a.name k := hk
      have hnum : pageNum A = k := by
        rw [hk] at hlen ⊢
        exact pageNum_propertyAddress hlen
      rw [hnum]
      exact hk.symm
  | proposals es =>
    refine decodes_map (K := proposalKind) (f := fun e => .proposal e.toObject) ?_ hl.1
      (fun a b hab => Key.proposalId.inj hab) fun a ha => (hl.2 a ha).symm
    rw [getEntries,hname]
    rfl
  | exchanges es =>
    refine decodes_map (K := exchangeKind) (f := fun e => .exchange e.toObject) ?_ hl.1
      (fun a b hab => ?_) fun a ha => (hl.2 a ha).symm
    · rw [getEntries,hname]
      rfl
    · obtain ⟨hb,hv⟩ := Key.exchange.inj hab
      exact congrArg toLex (Prod.ext hb hv)

end Decoding

section Entries

variable {sha : Sha512} {d : Delta}

/-- No two entries of a delta have the same key. -/
theorem Delta.WellFormed.keys (h : d.WellFormed sha) : (d.entries.map Entry.key).Nodup := by
  rw [Delta.entries,List.map_flatMap,List.nodup_flatMap]
  refine ⟨fun c hc => (h.changes c hc).decodes.2.1,?_⟩
  have hne : d.changes.Pairwise fun c c' => c.address ≠ c'.address :=
    List.pairwise_map.mp h.nodup
  refine hne.imp_of_mem fun hc hc' hA => ?_
  intro k hk hk'
  obtain ⟨e,he,rfl⟩ := List.mem_map.mp hk
  obtain ⟨e',he',hke⟩ := List.mem_map.mp hk'
  apply hA
  rw [← (h.changes _ hc).decodes.2.2 e he,← hke,(h.changes _ hc').decodes.2.2 e' he']

def Op.key : Op → Key
  | .write e _ => e.key
  | .query page _ => .page page.name page.recordId page.pageNum

@[simp] theorem key_stateAdder (e : Entry) (n : Nat) : (stateAdder e n).key = e.key := by
  cases e <;> rfl

theorem keys_sent (es : List Entry) (n : Nat) :
    (es.map fun e => stateAdder e n).map Op.key = es.map Entry.key := by
  rw [List.map_map]
  exact List.map_congr_left fun e _ => key_stateAdder e n

theorem keys_ops (d : Delta) : d.ops.map Op.key = d.entries.map Entry.key := keys_sent ..

end Entries

/-- The driver takes what the answer of an operation sends. -/
def Op.Accepted (db : Db) : Op → Prop
  | .write _ _ => True
  | .query page _ => (convertPage page db).defined = true

/-- The database executes one pending operation, whichever. -/
inductive Step : List Op × Db → List Op × Db → Prop
  | exec (before : List Op) (op : Op) (after : List Op) (db : Db) :
      Step (before ++ op :: after,db) (before ++ ((op.exec db).1 ++ after),(op.exec db).2)

/-- All pending operations and what they send are executed, in some order. -/
inductive Completes : List Op → Db → Db → Prop
  | done (db : Db) : Completes [] db db
  | exec {before after : List Op} {op : Op} {db db' : Db} (hop : op.Accepted db)
      (h : Completes (before ++ ((op.exec db).1 ++ after)) (op.exec db).2 db') :
      Completes (before ++ op :: after) db db'

section Completion

variable {ops : List Op} {db db' : Db} {n : Nat}

/-- The entry that an operation writes if it reads the database as it is in `db`. -/
def Op.entry (db : Db) : Op → Entry
  | .write e _ => e
  | .query page _ => .propertyPage (convertPage page db)

def Op.num : Op → Nat
  | .write _ n => n
  | .query _ n => n

/-- The key has the write of the operation, which read its property before the delta or
after it. -/
def Written (db db' : Db) (op : Op) : Prop := ∃ e, (e = op.entry db ∨ e = op.entry db') ∧
  e.key = op.key ∧ db'.docs op.key = renew MAX_SAFE_INTEGER e op.num (db.docs op.key)

theorem key_convertPage (page : PageDoc) (db : Db) :
    (Entry.propertyPage (convertPage page db)).key =
      .page page.name page.recordId page.pageNum :=
  Entry.key_convert _ (.propertyPage page)

/-- The conversion of a page depends on the documents of its property alone. -/
theorem convertPage_congr {page : PageDoc}
    (h : db.docs (.property page.name page.recordId) =
      db'.docs (.property page.name page.recordId)) :
    convertPage page db = convertPage page db' := by
  rw [convertPage,convertPage,pageProperties,pageProperties,h]

/-- A write of one key changes what another operation will write only if it is the write of
its property, and then that property is not written again. -/
theorem entry_addEntry {e : Entry} (op : Op)
    (hlast : (addEntry e n db).docs e.key = db'.docs e.key) :
    op.entry (addEntry e n db) = op.entry db ∨ op.entry (addEntry e n db) = op.entry db' := by
  cases op with
  | write e' m => exact Or.inl rfl
  | query page m =>
    by_cases hk : e.key = .property page.name page.recordId
    · rw [hk] at hlast
      exact Or.inr (congrArg Entry.propertyPage (convertPage_congr hlast))
    · exact Or.inl (congrArg Entry.propertyPage (convertPage_congr (docs_addEntry_ne hk)))

/-- Each key of the operations gets one write, and no other key changes. -/
structure Settled (ops : List Op) (db db' : Db) : Prop where
  blocks : db'.blocks = db.blocks
  other : ∀ k, (∀ op ∈ ops, op.key ≠ k) → db'.docs k = db.docs k
  written : ∀ op ∈ ops, Written db db' op

theorem Settled.perm {ops' : List Op} (h : Settled ops db db') (hp : ops.Perm ops') :
    Settled ops' db db' where
  blocks := h.blocks
  other k hk := h.other k fun op hop => hk op (hp.mem_iff.mp hop)
  written op hop := h.written op (hp.mem_iff.mpr hop)

theorem Settled.write {e : Entry} (h : Settled ops (addEntry e n db) db')
    (hnew : ∀ op ∈ ops, op.key ≠ e.key) : Settled (.write e n :: ops) db db' := by
  have hlast : db'.docs e.key = (addEntry e n db).docs e.key := h.other _ hnew
  refine ⟨h.blocks.trans addEntry_blocks,fun k hk => ?_,fun op hop => ?_⟩
  · rw [h.other k fun op hop => hk op (List.mem_cons_of_mem _ hop)]
    exact docs_addEntry_ne (hk _ List.mem_cons_self)
  · rcases List.mem_cons.mp hop with rfl | hop
    · exact ⟨e,Or.inl rfl,rfl,hlast.trans docs_addEntry⟩
    · obtain ⟨e',he',hk,hdocs⟩ := h.written op hop
      refine ⟨e',?_,hk,?_⟩
      · rcases he' with rfl | rfl
        · exact entry_addEntry op hlast.symm
        · exact Or.inr rfl
      · rw [hdocs]
        exact congrArg _ (docs_addEntry_ne (hnew op hop).symm)

theorem Settled.query {page : PageDoc}
    (h : Settled (.write (.propertyPage (convertPage page db)) n :: ops) db db') :
    Settled (.query page n :: ops) db db' := by
  refine ⟨h.blocks,fun k hk => h.other k fun op hop => ?_,fun op hop => ?_⟩
  · rcases List.mem_cons.mp hop with rfl | hop
    · exact (key_convertPage page db).trans_ne (hk _ List.mem_cons_self)
    · exact hk op (List.mem_cons_of_mem _ hop)
  · rcases List.mem_cons.mp hop with rfl | hop
    · obtain ⟨e,he,hk,hdocs⟩ := h.written _ List.mem_cons_self
      have he : e = .propertyPage (convertPage page db) := he.elim id id
      rw [Op.key,key_convertPage] at hk hdocs
      exact ⟨e,Or.inl he,hk,hdocs⟩
    · exact h.written op (List.mem_cons_of_mem _ hop)

/-- The answer of the query of a property sends the write of the page. -/
theorem exec_query {page : PageDoc} (h : (convertPage page db).defined = true) :
    (Op.exec db (.query page n)).1 = [.write (.propertyPage (convertPage page db)) n] := if_pos h

/-- The operation that was sent first may be executed first. -/
theorem Completes.next {o : Op} (hop : o.Accepted db)
    (h : Completes ((o.exec db).1 ++ ops) (o.exec db).2 db') : Completes (o :: ops) db db' :=
  @Completes.exec [] ops o db db' hop h

theorem Completes.settled (h : Completes ops db db') (hkeys : (ops.map Op.key).Nodup) :
    Settled ops db db' := by
  induction h with
  | done db => exact ⟨rfl,fun _ _ => rfl,List.forall_mem_nil _⟩
  | @exec before after op db db' hop _ ih =>
    refine Settled.perm ?_ List.perm_middle.symm
    rw [(List.perm_middle.map Op.key).nodup_iff,List.map_cons,List.nodup_cons] at hkeys
    cases op with
    | write e n => exact (ih hkeys.2).write fun op hop hk => hkeys.1 (List.mem_map.mpr ⟨op,hop,hk⟩)
    | query page n =>
      rw [exec_query hop,List.singleton_append] at ih
      refine Settled.query ((ih ?_).perm List.perm_middle)
      rw [(List.perm_middle.map Op.key).nodup_iff,List.map_cons,Op.key,key_convertPage]
      exact List.nodup_cons.mpr hkeys

end Completion

section Handle

variable {block : Block} {change : Change} {changes pageChanges otherChanges : List Change}
variable {ops rest : List Op} {db db₁ db' : Db}

/-- Executing each operation when it is sent is one of the orders. -/
theorem completes_run (h : ops.foldlM Op.run db = .ok db₁) (hrest : Completes rest db₁ db') :
    Completes (ops ++ rest) db db' := by
  induction ops generalizing db with
  | nil =>
    cases h
    exact hrest
  | cons op ops ih =>
    rw [List.foldlM_cons] at h
    cases op with
    | write e n => exact Completes.next (o := .write e n) trivial (ih h)
    | query page n =>
      rw [Op.run] at h
      split at h
      · next hdef =>
        refine Completes.next (o := .query page n) hdef ?_
        rw [exec_query hdef]
        exact Completes.next (o := .write _ n) trivial (ih h)
      · cases h

theorem partition_perm (h : partition changes = .ok (pageChanges,otherChanges)) :
    (otherChanges ++ pageChanges).Perm changes := by
  induction changes generalizing pageChanges otherChanges with
  | nil =>
    cases h
    exact .nil
  | cons change changes ih =>
    rw [partition] at h
    obtain ⟨name,_,h⟩ := bind_eq_ok.mp h
    obtain ⟨⟨pages,others⟩,hrest,h⟩ := bind_eq_ok.mp h
    dsimp only at h
    split at h
    · cases h
      exact List.perm_middle.trans ((ih hrest).cons change)
    · cases h
      exact (ih hrest).cons change

theorem entryAdder_ok (h : entryAdder block change = .ok ops) :
    ops = change.entries.map fun e => stateAdder e block.blockNum := by
  rw [entryAdder] at h
  rw [Change.entries]
  cases hget : getEntries change with
  | error e =>
    rw [hget] at h
    cases h
  | ok es =>
    rw [hget] at h
    cases h
    rfl

theorem sendAll_ok (h : sendAll block changes = .ok ops) :
    ops = (changes.flatMap Change.entries).map fun e => stateAdder e block.blockNum := by
  rw [sendAll] at h
  induction changes generalizing ops with
  | nil =>
    cases h
    rfl
  | cons change changes ih =>
    rw [List.mapM_cons] at h
    cases hhead : entryAdder block change with
    | error e =>
      rw [hhead] at h
      cases h
    | ok first =>
      cases htail : changes.mapM (entryAdder block) with
      | error e =>
        rw [hhead,htail] at h
        cases h
      | ok others =>
        rw [hhead,htail] at h
        rw [htail] at ih
        cases h
        rw [List.flatMap_cons,List.map_append,← entryAdder_ok hhead,← ih rfl]
        rfl

/-- Handling a delta in the order of the program text completes its operations. -/
theorem handle_completes (h : handle block changes db = .ok db') :
    ∃ ops db₁, ops.Perm (Delta.ops ⟨block,changes⟩) ∧ Completes ops db db₁ ∧
      db' = insert block db₁ := by
  rw [handle] at h
  obtain ⟨⟨pageChanges,otherChanges⟩,hpart,h⟩ := bind_eq_ok.mp h
  obtain ⟨others,hothers,h⟩ := bind_eq_ok.mp h
  obtain ⟨db₀,hrun₀,h⟩ := bind_eq_ok.mp h
  obtain ⟨pages,hpages,h⟩ := bind_eq_ok.mp h
  obtain ⟨db₁,hrun₁,h⟩ := bind_eq_ok.mp h
  cases h
  refine ⟨others ++ pages,db₁,?_,?_,rfl⟩
  · rw [sendAll_ok hothers,sendAll_ok hpages,← List.map_append,← List.flatMap_append]
    exact ((partition_perm hpart).flatMap_right _).map _
  · have hdone := completes_run hrun₁ (.done db₁)
    rw [List.append_nil] at hdone
    exact completes_run hrun₀ hdone

end Handle

end DgcRestApi.LedgerSync
