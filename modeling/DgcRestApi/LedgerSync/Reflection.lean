import DgcRestApi.Ledger.Conformity
import DgcRestApi.Ledger.Locality
import DgcRestApi.LedgerSync.Mirror

/-!
# Tables of a mirror

What a query sees in each table of a database that shows a ledger: one document for each object
of the ledger, and no other. Every ledger that is reached has a database that shows it.
-/

namespace DgcRestApi

namespace Entry

def toParticipant : Entry → Option Participant
  | .participant p => some p
  | _ => none

def toTable : Entry → Option Table
  | .table t => some t
  | _ => none

def toProposal : Entry → Option Proposal
  | .proposal c => some c
  | _ => none

def toExchange : Entry → Option Exchange
  | .exchange e => some e
  | _ => none

end Entry

namespace Ledger

variable (L : Ledger)

theorem document_participant (k : String) : L.document (.publicKey k) =
    (L.participant k).map fun p => .participant p.toObject := by
  rw [document,entry]
  cases L.participant k <;> rfl

theorem document_record (r : String) : L.document (.recordId r) =
    (L.record r).map fun rec => .record rec.toObject := by
  rw [document,entry]
  cases L.record r <;> rfl

theorem document_table (n : String) : L.document (.tableName n) =
    (L.table n).map fun t => .table t.toObject := by
  rw [document,entry]
  cases L.table n <;> rfl

theorem document_property (n r : String) : L.document (.property n r) =
    (L.ownProperty r n).map fun q => .property q.toObject := by
  rw [document,entry]
  cases L.ownProperty r n <;> rfl

theorem document_proposal (x : String) : L.document (.proposalId x) =
    (L.proposal x).map fun c => .proposal c.toObject := by
  rw [document,entry]
  cases L.proposal x <;> rfl

theorem document_exchange (b v : String) : L.document (.exchange b v) =
    (L.exchange (toLex (b,v))).map fun e => .exchange e.toObject := by
  rw [document,entry]
  cases L.exchange (toLex (b,v)) <;> rfl

theorem document_page (n r : String) (k : Nat) : L.document (.page n r k) =
    (L.ownPage r n k).map fun page => .propertyPage ((page.toObject k).convert
      ((L.ownProperty page.recordId page.name).map Property.toObject)) := by
  rw [document,entry]
  cases L.ownPage r n k with
  | none => rfl
  | some page =>
    rw [Option.map_some,Option.map_some,Option.map_some,propertyFor_page]
    rfl

end Ledger

namespace LedgerSync
open Addressing Versions Keyed

/-- What a query at the block `n` sees in a table. -/
def bodies (t : StateTable) (n : Nat) (db : Db) : List Entry := (getTable t n db).map Version.body

section Tables

variable {L : Ledger} {db : Db} {n : Nat} {t : StateTable} {k : Key} {e : Entry}

theorem shown_eq_filter : shown db n k = (bodies k.table n db).filter fun e => e.key = k := by
  rw [shown,slice,bodies,List.filter_map]
  rfl

theorem Mirrors.shown_iff (h : Mirrors L db n) :
    e ∈ LedgerSync.shown db n k ↔ L.document k = some e := by
  rw [h.shown k,Option.mem_toList]

theorem Mirrors.key (h : Mirrors L db n) (he : L.document k = some e) : e.key = k := by
  have hmem := h.shown_iff.mpr he
  rw [shown_eq_filter] at hmem
  simpa using (List.mem_filter.mp hmem).2

theorem Mirrors.table (h : Mirrors L db n) (he : e ∈ bodies t n db) : e.key.table = t := by
  obtain ⟨doc,hdoc,rfl⟩ := List.mem_map.mp he
  exact h.tidy t doc hdoc

/-- The documents of a table are those of the objects of the ledger. -/
theorem Mirrors.mem_bodies (h : Mirrors L db n) :
    e ∈ bodies t n db ↔ e.key.table = t ∧ L.document e.key = some e := by
  have hshown : e ∈ LedgerSync.shown db n e.key ↔ e ∈ bodies e.key.table n db := by
    simp [shown_eq_filter]
  rw [← h.shown_iff,hshown]
  constructor
  · exact fun he => ⟨h.table he,(h.table he).symm ▸ he⟩
  · rintro ⟨rfl,he⟩
    exact he

/-- No two documents of a table have one key. -/
theorem Mirrors.distinct (h : Mirrors L db n) (t : StateTable) :
    Distinct Entry.key (bodies t n db) := by
  rw [Distinct,List.nodup_iff_count_le_one]
  intro k
  have hcount : ((bodies t n db).map Entry.key).count k =
      ((bodies t n db).filter fun e => e.key = k).length := by
    rw [List.count,List.countP_map,List.countP_eq_length_filter]
    rfl
  rw [hcount]
  by_cases hk : k.table = t
  · subst hk
    rw [← shown_eq_filter,h.shown k]
    cases L.document k <;> simp
  · have hnone : (bodies t n db).filter (fun e => e.key = k) = [] := by
      refine List.filter_eq_nil_iff.mpr fun e he hkey => hk ?_
      obtain rfl : e.key = k := by simpa using hkey
      exact h.table he
    rw [hnone]
    exact Nat.zero_le 1

/-- A query does not tell in which order it finds the documents. -/
theorem Mirrors.perm {db' : Db} (h : Mirrors L db n) (hblocks : db'.blocks = db.blocks)
    (htables : ∀ t, (db'.tables t).Perm (db.tables t)) : Mirrors L db' n where
  block := by
    rw [currentBlock,hblocks]
    exact h.block
  shown k := by
    have hperm : (LedgerSync.shown db' n k).Perm (LedgerSync.shown db n k) :=
      (((htables k.table).filter _).filter _).map Version.body
    rw [h.shown k] at hperm
    cases hdoc : L.document k with
    | none =>
      rw [hdoc] at hperm
      exact List.perm_nil.mp hperm
    | some e =>
      rw [hdoc] at hperm
      exact List.perm_singleton.mp hperm
  tidy t doc hdoc := h.tidy t doc (((htables t).filter _).mem_iff.mp hdoc)

/-- Each document may be the first that a query finds. -/
theorem Mirrors.front {doc : Doc} (h : Mirrors L db n) (hdoc : doc ∈ getTable t n db) :
    ∃ db' docs, Mirrors L db' n ∧ getTable t n db' = doc :: docs := by
  obtain ⟨hmem,hvisible⟩ := List.mem_filter.mp hdoc
  obtain ⟨before,after,hsplit⟩ := List.append_of_mem hmem
  obtain ⟨db',hdb'⟩ : ∃ db', db' = db.modifyTable t fun _ => doc :: (before ++ after) := ⟨_,rfl⟩
  have htable : db'.tables t = doc :: (before ++ after) := by
    rw [hdb']
    exact Function.update_self ..
  refine ⟨db',visible n (before ++ after),h.perm (hdb' ▸ rfl) fun t' => ?_,?_⟩
  · by_cases ht : t' = t
    · subst ht
      rw [htable,hsplit]
      exact List.perm_middle.symm
    · have hsame : db'.tables t' = db.tables t' := by
        rw [hdb']
        exact Function.update_of_ne ht ..
      rw [hsame]
  · rw [getTable,htable]
    exact List.filter_cons_of_pos hvisible

end Tables

section Objects

variable {α β : Type} {read : Entry → Option α} {wrap : α → Entry} {L : Ledger} {db : Db} {n : Nat}
variable {t : StateTable} {a : α}

/-- The objects of one kind that a query sees in a table. -/
def objects (read : Entry → Option α) (t : StateTable) (n : Nat) (db : Db) : List α :=
  (getTable t n db).filterMap fun doc => read doc.body

theorem objects_eq : objects read t n db = (bodies t n db).filterMap read := by
  rw [objects,bodies,List.filterMap_map]
  rfl

theorem Mirrors.mem_objects (h : Mirrors L db n) (hto : ∀ e a, read e = some a ↔ e = wrap a) :
    a ∈ objects read t n db ↔ (wrap a).key.table = t ∧ L.document (wrap a).key = some (wrap a) := by
  rw [objects_eq,List.mem_filterMap,← h.mem_bodies]
  constructor
  · rintro ⟨e,he,ha⟩
    exact (hto e a).mp ha ▸ he
  · exact fun he => ⟨wrap a,he,(hto _ a).mpr rfl⟩

/-- The objects of a kind whose documents are not converted. -/
theorem Mirrors.mem_kind (h : Mirrors L db n) (hto : ∀ e a, read e = some a ↔ e = wrap a)
    (ht : (wrap a).key.table = t) {o : Option β} {f : β → α}
    (hdoc : L.document (wrap a).key = o.map fun b => wrap (f b)) :
    a ∈ objects read t n db ↔ ∃ b, o = some b ∧ f b = a := by
  have hinj : ∀ b, wrap b = wrap a → b = a := fun b hb =>
    Option.some.inj (((hto _ b).mpr hb.symm).symm.trans ((hto _ a).mpr rfl))
  rw [h.mem_objects hto,hdoc,and_iff_right ht,Option.map_eq_some_iff]
  exact exists_congr fun b => and_congr_right fun _ => ⟨hinj _,congrArg wrap⟩

theorem Mirrors.distinct_objects (h : Mirrors L db n) (hto : ∀ e a, read e = some a ↔ e = wrap a) :
    Distinct (fun a => (wrap a).key) (objects read t n db) := by
  have hmap : (objects read t n db).map wrap = (bodies t n db).filter fun e => (read e).isSome := by
    rw [objects_eq,List.map_filterMap,← List.filterMap_eq_filter]
    refine List.filterMap_congr fun e _ => ?_
    cases ha : read e with
    | none => simp [Option.guard,ha]
    | some a =>
      obtain rfl := (hto e a).mp ha
      simp [Option.guard,ha]
  have hsub : ((objects read t n db).map fun a => (wrap a).key) =
      ((bodies t n db).filter fun e => (read e).isSome).map Entry.key := by
    rw [← hmap,List.map_map]
    rfl
  rw [Distinct,hsub]
  exact (h.distinct t).sublist (List.filter_sublist.map Entry.key)

theorem Mirrors.nodup_objects (h : Mirrors L db n) (hto : ∀ e a, read e = some a ↔ e = wrap a) :
    (objects read t n db).Nodup := (h.distinct_objects hto).of_map

/-- The identifier of an object tells it apart if its key is made of it. -/
theorem Mirrors.distinct_by {κ : Type} {identifier : α → κ} (h : Mirrors L db n)
    (hto : ∀ e a, read e = some a ↔ e = wrap a) (k : κ → Key)
    (hkey : ∀ a, (wrap a).key = k (identifier a)) :
    Distinct identifier (objects read t n db) := by
  have hkeys : k ∘ identifier = fun a => (wrap a).key := funext fun a => (hkey a).symm
  refine List.Nodup.of_map k ?_
  rw [List.map_map,hkeys]
  exact h.distinct_objects hto

end Objects

section Kinds

variable {L : Ledger} {db : Db} {n : Nat}

theorem toParticipant_iff (e : Entry) (p : Participant) :
    e.toParticipant = some p ↔ e = .participant p := by
  cases e <;> simp [Entry.toParticipant]

theorem toRecord_iff (e : Entry) (r : Record) : e.toRecord = some r ↔ e = .record r := by
  cases e <;> simp [Entry.toRecord]

theorem toTable_iff (e : Entry) (t : Table) : e.toTable = some t ↔ e = .table t := by
  cases e <;> simp [Entry.toTable]

theorem toProperty_iff (e : Entry) (q : Property) : e.toProperty = some q ↔ e = .property q := by
  cases e <;> simp [Entry.toProperty]

theorem toPage_iff (e : Entry) (page : PageDoc) :
    e.toPage = some page ↔ e = .propertyPage page := by
  cases e <;> simp [Entry.toPage]

theorem toProposal_iff (e : Entry) (c : Proposal) : e.toProposal = some c ↔ e = .proposal c := by
  cases e <;> simp [Entry.toProposal]

theorem toExchange_iff (e : Entry) (x : Exchange) : e.toExchange = some x ↔ e = .exchange x := by
  cases e <;> simp [Entry.toExchange]

theorem Mirrors.mem_participants (h : Mirrors L db n) {p : Participant} :
    p ∈ objects Entry.toParticipant .participants n db ↔
      ∃ q, L.participant p.publicKey = some q ∧ q.toObject = p :=
  h.mem_kind toParticipant_iff rfl (L.document_participant p.publicKey)

theorem Mirrors.mem_records (h : Mirrors L db n) {r : Record} :
    r ∈ objects Entry.toRecord .records n db ↔
      ∃ rec, L.record r.recordId = some rec ∧ rec.toObject = r :=
  h.mem_kind toRecord_iff rfl (L.document_record r.recordId)

theorem Mirrors.mem_tables (h : Mirrors L db n) {t : Table} :
    t ∈ objects Entry.toTable .tables n db ↔ L.table t.name = some t := by
  refine (h.mem_kind toTable_iff rfl (L.document_table t.name)).trans ?_
  exact ⟨fun ⟨_,ht,he⟩ => he ▸ ht,fun ht => ⟨t,ht,rfl⟩⟩

theorem Mirrors.mem_properties (h : Mirrors L db n) {q : Property} :
    q ∈ objects Entry.toProperty .properties n db ↔ L.ownProperty q.recordId q.name = some q := by
  refine (h.mem_kind toProperty_iff rfl (L.document_property q.name q.recordId)).trans ?_
  exact ⟨fun ⟨_,hq,he⟩ => he ▸ hq,fun hq => ⟨q,hq,rfl⟩⟩

theorem Mirrors.mem_proposals (h : Mirrors L db n) {c : Proposal} :
    c ∈ objects Entry.toProposal .proposals n db ↔
      ∃ c', L.proposal c.proposalId = some c' ∧ c'.toObject = c :=
  h.mem_kind toProposal_iff rfl (L.document_proposal c.proposalId)

theorem Mirrors.mem_exchanges (h : Mirrors L db n) {x : Exchange} :
    x ∈ objects Entry.toExchange .exchanges n db ↔
      ∃ e, L.exchange (exchangeKind.key x) = some e ∧ e.toObject = x :=
  h.mem_kind toExchange_iff rfl (L.document_exchange x.buyProposalId x.sellProposalId)

theorem Mirrors.mem_pages (h : Mirrors L db n) {doc : PageDoc} :
    doc ∈ objects Entry.toPage .propertyPages n db ↔
      ∃ page, L.ownPage doc.recordId doc.name doc.pageNum = some page ∧
        (page.toObject doc.pageNum).convert
          ((L.ownProperty page.recordId page.name).map Property.toObject) = doc :=
  h.mem_kind toPage_iff rfl (L.document_page doc.name doc.recordId doc.pageNum)

end Kinds

/-! ## Every ledger can be shown -/

/-- What is stored at the addresses, as changes. -/
def changesAt (s : State) (addresses : List Address) : List Change :=
  addresses.filterMap fun A => (s A).map (Change.mk A)

/-- A database with the documents, all of them written by one block. -/
def Db.ofEntries (block : Block) (docs : List Entry) : Db where
  tables t := (docs.filter fun e => e.key.table = t).map fun e =>
    ⟨e,block.blockNum,MAX_SAFE_INTEGER⟩
  blocks := [block]

section Existence

variable {env : Env} {h : List (State × Tx)} {s : State} {addresses : List Address}
variable {block : Block} {docs : List Entry} {k : Key}

theorem mem_changesAt {c : Change} :
    c ∈ changesAt s addresses ↔ c.address ∈ addresses ∧ s c.address = some c.value := by
  rw [changesAt,List.mem_filterMap]
  constructor
  · rintro ⟨A,hA,hc⟩
    obtain ⟨_,hstored,rfl⟩ := Option.map_eq_some_iff.mp hc
    exact ⟨hA,hstored⟩
  · rintro ⟨hA,hstored⟩
    refine ⟨c.address,hA,?_⟩
    rw [hstored]
    rfl

theorem nodup_changesAt (hnd : addresses.Nodup) :
    ((changesAt s addresses).map Change.address).Nodup := by
  have hfilter : (changesAt s addresses).map Change.address =
      addresses.filter fun A => (s A).isSome := by
    rw [changesAt,List.map_filterMap,← List.filterMap_eq_filter]
    refine List.filterMap_congr fun A _ => ?_
    cases hA : s A <;> simp [Option.guard,hA]
  rw [hfilter]
  exact hnd.filter _

/-- The whole ledger as the changes of one block. -/
theorem exists_delta (hr : Reachable env h s) (block : Block) : ∃ d : Delta, d.block = block ∧
    d.WellFormed env.sha ∧ ∀ k e, (ledger env s).entry k = some e ↔ e ∈ d.entries ∧ e.key = k := by
  have hmem : ∀ c, c ∈ changesAt s (reachable_finite hr).toFinset.toList ↔
      s c.address = some c.value := by
    intro c
    rw [mem_changesAt,Finset.mem_toList,Set.Finite.mem_toFinset,and_iff_right_iff_imp]
    intro hc hnone
    exact nomatch hc.symm.trans hnone
  refine ⟨⟨block,changesAt s (reachable_finite hr).toFinset.toList⟩,rfl,?_,fun k e =>
    ⟨fun he => ?_,?_⟩⟩
  · exact ⟨fun c hc => wellFormed_of_reachable hr ((hmem c).mp hc),
      nodup_changesAt (Finset.nodup_toList _)⟩
  · obtain ⟨hk,c,hc,he⟩ := mem_of_entry hr he
    exact ⟨List.mem_flatMap.mpr ⟨_,(hmem _).mpr hc,he⟩,hk⟩
  · rintro ⟨he,rfl⟩
    obtain ⟨c,hc,he⟩ := List.mem_flatMap.mp he
    exact entry_of_mem hr ((hmem c).mp hc) he

theorem getTable_ofEntries (t : StateTable) : getTable t block.blockNum (Db.ofEntries block docs) =
    (Db.ofEntries block docs).tables t := by
  refine List.filter_eq_self.mpr fun doc hdoc => ?_
  obtain ⟨e,_,rfl⟩ := List.mem_map.mp hdoc
  simpa using block.blockNum_lt

theorem shown_ofEntries : shown (Db.ofEntries block docs) block.blockNum k =
    docs.filter fun e => e.key = k := by
  have hbodies : bodies k.table block.blockNum (Db.ofEntries block docs) =
      docs.filter fun e => e.key.table = k.table := by
    rw [bodies,getTable_ofEntries,Db.ofEntries,List.map_map]
    exact List.map_id _
  rw [shown_eq_filter,hbodies,List.filter_filter]
  refine List.filter_congr fun e _ => ?_
  by_cases hk : e.key = k <;> simp [hk]

/-- A database that shows the ledger. -/
theorem exists_mirror (hr : Reachable env h s) {n : Nat} (hn : n < MAX_SAFE_INTEGER) :
    ∃ db, Mirrors (ledger env s) db n := by
  obtain ⟨d,hblock,hwf,hentries⟩ := exists_delta hr ⟨n,"head","",hn,by decide⟩
  obtain ⟨docs,hd⟩ : ∃ docs, docs =
    d.entries.map fun e => e.convert ((ledger env s).propertyFor e) := ⟨_,rfl⟩
  have hkeys : Distinct Entry.key docs := by
    rw [hd,Distinct,List.map_map]
    refine (congrArg List.Nodup (List.map_congr_left fun e _ => ?_)).mpr hwf.keys
    exact Entry.key_convert _ e
  have hdocs : ∀ k e, (ledger env s).document k = some e ↔ e ∈ docs ∧ e.key = k := by
    intro k e
    rw [Ledger.document,Option.map_eq_some_iff,hd]
    constructor
    · rintro ⟨e',he',rfl⟩
      obtain ⟨hmem,hk⟩ := (hentries k e').mp he'
      exact ⟨List.mem_map_of_mem hmem,(Entry.key_convert _ e').trans hk⟩
    · rintro ⟨he,rfl⟩
      obtain ⟨e',he',rfl⟩ := List.mem_map.mp he
      exact ⟨e',(hentries _ e').mpr ⟨he',(Entry.key_convert _ e').symm⟩,rfl⟩
  have hnum : d.block.blockNum = n := congrArg Block.blockNum hblock
  refine ⟨Db.ofEntries d.block docs,?_,fun k => ?_,fun t doc hdoc => ?_⟩
  · rw [currentBlock,← hnum]
    exact List.max?_singleton
  · rw [← hnum,shown_ofEntries]
    cases hdoc : (ledger env s).document k with
    | some e =>
      obtain ⟨he,rfl⟩ := (hdocs k e).mp hdoc
      exact filter_distinct hkeys he
    | none =>
      refine List.filter_eq_nil_iff.mpr fun e he hk => ?_
      have hsome := (hdocs k e).mpr ⟨he,by simpa using hk⟩
      exact Option.some_ne_none e (hsome.symm.trans hdoc)
  · rw [← hnum,getTable_ofEntries] at hdoc
    obtain ⟨e,he,rfl⟩ := List.mem_map.mp hdoc
    simpa using (List.mem_filter.mp he).2

end Existence

end LedgerSync

end DgcRestApi
