import DgcRestApi.Ledger.Persistence
import DgcRestApi.LedgerSync.Subscriber
import DgcRestApi.LedgerSync.Visibility

/-!
# The image of the ledger

What the documents of the database are to say about a ledger, and that the deltas of the blocks
of the processor say it: the last entry of a key is its object on the ledger, and the last
document of a page is the page converted with its property.
-/

namespace DgcRestApi

/-- The documents of a container, as the objects of `getObjectifier`. -/
def Container.documents (pageNum : Nat) : Container → List Entry
  | .participants es => es.map fun e => .participant e.toObject
  | .records es => es.map fun e => .record e.toObject
  | .tables es => es.map fun e => .table e.toObject
  | .properties es => es.map fun e => .property e.toObject
  | .propertyPages es => es.map fun e => .propertyPage (e.toObject pageNum)
  | .proposals es => es.map fun e => .proposal e.toObject
  | .exchanges es => es.map fun e => .exchange e.toObject

namespace Ledger

/-- The object of a key as an entry of a delta. -/
def entry (L : Ledger) : Key → Option Entry
  | .publicKey k => (L.participant k).map fun p => .participant p.toObject
  | .recordId r => (L.record r).map fun rec => .record rec.toObject
  | .tableName n => (L.table n).map fun t => .table t.toObject
  | .property n r => (L.ownProperty r n).map fun q => .property q.toObject
  | .page n r k => (L.ownPage r n k).map fun page => .propertyPage (page.toObject k)
  | .proposalId x => (L.proposal x).map fun c => .proposal c.toObject
  | .exchange b v => (L.exchange (toLex (b,v))).map fun e => .exchange e.toObject

/-- The property that an entry is converted with. -/
def propertyFor (L : Ledger) (e : Entry) : Option Property :=
  (e.propertyKey.bind L.entry).bind Entry.toProperty

/-- The document that the database is to show for a key. -/
def document (L : Ledger) (k : Key) : Option Entry :=
  (L.entry k).map fun e => e.convert (L.propertyFor e)

variable {range : String → Address} {L L' : Ledger} {k : Key} {e : Entry}

theorem propertyFor_page (L : Ledger) (page : PageDoc) : L.propertyFor (.propertyPage page) =
    (L.ownProperty page.recordId page.name).map Property.toObject := by
  rw [propertyFor,Entry.propertyKey,Option.bind_some,entry]
  cases L.ownProperty page.recordId page.name <;> rfl

/-- What has an entry keeps one. -/
theorem entry_kept (hL : Homed range L) (hL' : Homed range L') (hd : DistinctRanges range L')
    (h : Lasts L L') (he : L.entry k = some e) : ∃ e', L'.entry k = some e' := by
  have hmap : ∀ {α : Type} {o : Option α} {f : α → Entry}, (∃ a, o = some a) →
      ∃ e', o.map f = some e' := fun ⟨_,ha⟩ => ⟨_,congrArg (Option.map _) ha⟩
  cases k with
  | publicKey k =>
    obtain ⟨p,hp,_⟩ := Option.map_eq_some_iff.mp he
    exact hmap (h.participant k p hp)
  | recordId r =>
    obtain ⟨rec,hrec,_⟩ := Option.map_eq_some_iff.mp he
    exact hmap (h.record r rec hrec)
  | tableName n =>
    obtain ⟨t,ht,_⟩ := Option.map_eq_some_iff.mp he
    exact hmap (h.table n t ht)
  | property n r =>
    obtain ⟨q,hq,_⟩ := Option.map_eq_some_iff.mp he
    exact hmap (ownProperty_kept hL hL' hd h hq)
  | page n r k =>
    obtain ⟨page,hpage,_⟩ := Option.map_eq_some_iff.mp he
    exact hmap (ownPage_kept hL hL' hd h hpage)
  | proposalId x =>
    obtain ⟨c,hc,_⟩ := Option.map_eq_some_iff.mp he
    exact hmap (h.proposal x c hc)
  | exchange b v =>
    obtain ⟨x,hx,_⟩ := Option.map_eq_some_iff.mp he
    exact hmap (h.exchange _ x hx)

/-- A page is converted by the type and the options of its property alone. -/
theorem convert_congr {p p' : Property} (htype : p'.dataType = p.dataType)
    (hoptions : p'.enumOptions = p.enumOptions) (e : Entry) :
    e.convert (some p') = e.convert (some p) := by
  have hconvert : ∀ r : ReportedDoc, r.convert p' = r.convert p := by
    intro r
    rw [ReportedDoc.convert,ReportedDoc.convert,htype,hoptions]
  cases e with
  | propertyPage page =>
    have hvalues := List.map_congr_left fun r (_ : r ∈ page.reportedValues) => hconvert r
    exact congrArg (fun values => Entry.propertyPage { page with reportedValues := values }) hvalues
  | _ => rfl

/-- An object that does not change keeps its document: the type of its property is fixed. -/
theorem document_congr (hL : Homed range L) (hL' : Homed range L') (hd : DistinctRanges range L')
    (hc : Complete L) (hlasts : Lasts L L') (hg : Grows L L') (h : L'.entry k = L.entry k) :
    L'.document k = L.document k := by
  rw [document,document,h]
  refine Option.map_congr fun e he => ?_
  cases k with
  | page n r k =>
    obtain ⟨page,hpage,rfl⟩ := Option.map_eq_some_iff.mp he
    obtain ⟨hstored,hr⟩ := ownPage_eq_some.mp hpage
    have hn := (hL.page _ _ _ _ hstored).1
    obtain ⟨q,hq⟩ := property_of_page hL hc hpage
    obtain ⟨q',hq'⟩ := ownProperty_kept hL hL' hd hlasts hq
    obtain ⟨q₁,hq₁,hext⟩ := hg.properties r n q (ownProperty_eq_some.mp hq).1
    obtain rfl := Option.some.inj (hq₁.symm.trans (ownProperty_eq_some.mp hq').1)
    have hfor : L.propertyFor (.propertyPage (page.toObject k)) = some q.toObject := by
      rw [propertyFor_page]
      exact congrArg (Option.map _) (hr ▸ hn ▸ hq)
    have hfor' : L'.propertyFor (.propertyPage (page.toObject k)) = some q₁.toObject := by
      rw [propertyFor_page]
      exact congrArg (Option.map _) (hr ▸ hn ▸ hq')
    rw [hfor,hfor']
    exact convert_congr (congrArg PropertySchema.dataType hext.schema)
      (congrArg PropertySchema.enumOptions hext.schema) _
  | _ =>
    obtain ⟨_,_,rfl⟩ := Option.map_eq_some_iff.mp he
    rfl

end Ledger

namespace LedgerSync
open Addressing Versions Fallible

section Entries

variable {env : Env} {h : List (State × Tx)} {s : State} {A : Address} {c : Container}
variable {k : Key} {e : Entry}

theorem entries_wellFormed {sha : Sha512} (hc : (Change.mk A c).WellFormed sha) :
    (Change.mk A c).entries = c.documents (pageNum A) := by
  rw [Change.entries,getEntries,hc.protoName]
  cases c <;> rfl

/-- What a stored container holds is on the ledger under its key. -/
theorem entry_of_mem (hr : Reachable env h s) (hA : s A = some c)
    (he : e ∈ (Change.mk A c).entries) : (ledger env s).entry e.key = some e := by
  have hwf := wellFormed_of_reachable hr hA
  have hs := (reachable_sane hr).canonical.stored
  rw [entries_wellFormed hwf] at he
  obtain ⟨hl,_,hlen⟩ := hwf
  cases c with
  | participants es =>
    obtain ⟨p,hp,rfl⟩ := List.mem_map.mp he
    have hfound : (ledger env s).participant p.publicKey = some p :=
      (lookupEntry_eq_some (K := participantKind)).mpr
        ⟨es,hl.2 p hp ▸ hA,(Keyed.find_eq_some_iff hl.1).mpr ⟨hp,rfl⟩⟩
    exact congrArg (Option.map _) hfound
  | records es =>
    obtain ⟨rec,hrec,rfl⟩ := List.mem_map.mp he
    have hfound : (ledger env s).record rec.recordId = some rec :=
      (lookupEntry_eq_some (K := recordKind)).mpr
        ⟨es,hl.2 rec hrec ▸ hA,(Keyed.find_eq_some_iff hl.1).mpr ⟨hrec,rfl⟩⟩
    exact congrArg (Option.map _) hfound
  | tables es =>
    obtain ⟨t,ht,rfl⟩ := List.mem_map.mp he
    have hfound : (ledger env s).table t.name = some t :=
      (lookupEntry_eq_some (K := tableKind)).mpr
        ⟨es,hl.2 t ht ▸ hA,(Keyed.find_eq_some_iff hl.1).mpr ⟨ht,rfl⟩⟩
    exact congrArg (Option.map _) hfound
  | properties es =>
    obtain ⟨q,hq,rfl⟩ := List.mem_map.mp he
    have hown := Ledger.ownProperty_eq_some.mpr ⟨ledger_of_property hs hA hq,rfl⟩
    exact congrArg (Option.map _) hown
  | propertyPages es =>
    obtain ⟨page,hpage,rfl⟩ := List.mem_map.mp he
    obtain ⟨j,hj⟩ := hl.2 page hpage
    -- the number that the address is read as is the one that the page is at
    have hj : A = makePropertyAddress env.sha page.recordId page.name j := hj
    have hnum : pageNum A = j := by
      rw [hj] at hlen ⊢
      exact pageNum_propertyAddress hlen
    have hown := Ledger.ownPage_eq_some.mpr ⟨ledger_page_at hs hA hpage (hnum ▸ hj),rfl⟩
    exact congrArg (Option.map _) hown
  | proposals es =>
    obtain ⟨x,hx,rfl⟩ := List.mem_map.mp he
    have hfound : (ledger env s).proposal x.proposalId = some x :=
      (lookupEntry_eq_some (K := proposalKind)).mpr
        ⟨es,hl.2 x hx ▸ hA,(Keyed.find_eq_some_iff hl.1).mpr ⟨hx,rfl⟩⟩
    exact congrArg (Option.map _) hfound
  | exchanges es =>
    obtain ⟨x,hx,rfl⟩ := List.mem_map.mp he
    have hfound : (ledger env s).exchange (toLex (x.buyProposalId,x.sellProposalId)) = some x :=
      (lookupEntry_eq_some (K := exchangeKind)).mpr
        ⟨es,hl.2 x hx ▸ hA,(Keyed.find_eq_some_iff hl.1).mpr ⟨hx,rfl⟩⟩
    exact congrArg (Option.map _) hfound

theorem mem_of_lookup {α κ : Type} [LinearOrder κ] {K : Kind α κ} {i : κ} {a : α}
    (hr : Reachable env h s) (hA : lookupEntry K s A i = some a) :
    ∃ es, s A = some (K.wrap es) ∧ a ∈ es ∧ K.key a = i ∧
      (Change.mk A (K.wrap es)).entries = (K.wrap es).documents (pageNum A) := by
  obtain ⟨es,hes,hf⟩ := lookupEntry_eq_some.mp hA
  obtain ⟨ha,hk⟩ := Keyed.find_some hf
  exact ⟨es,hes,ha,hk,entries_wellFormed (wellFormed_of_reachable hr hes)⟩

/-- What is on the ledger under a key is in the container at the address of the key. -/
theorem mem_of_entry (hr : Reachable env h s) (he : (ledger env s).entry k = some e) :
    e.key = k ∧ ∃ c, s (keyAddress env.sha k) = some c ∧
      e ∈ (Change.mk (keyAddress env.sha k) c).entries := by
  cases k with
  | publicKey k =>
    obtain ⟨p,hp,rfl⟩ := Option.map_eq_some_iff.mp he
    obtain ⟨es,hes,hmem,hk,hentries⟩ := mem_of_lookup (K := participantKind) hr hp
    exact ⟨congrArg Key.publicKey hk,_,hes,hentries ▸ List.mem_map_of_mem hmem⟩
  | recordId r =>
    obtain ⟨rec,hrec,rfl⟩ := Option.map_eq_some_iff.mp he
    obtain ⟨es,hes,hmem,hk,hentries⟩ := mem_of_lookup (K := recordKind) hr hrec
    exact ⟨congrArg Key.recordId hk,_,hes,hentries ▸ List.mem_map_of_mem hmem⟩
  | tableName n =>
    obtain ⟨t,ht,rfl⟩ := Option.map_eq_some_iff.mp he
    obtain ⟨es,hes,hmem,hk,hentries⟩ := mem_of_lookup (K := tableKind) hr ht
    exact ⟨congrArg Key.tableName hk,_,hes,hentries ▸ List.mem_map_of_mem hmem⟩
  | property n r =>
    obtain ⟨q,hq,rfl⟩ := Option.map_eq_some_iff.mp he
    obtain ⟨hq,hown⟩ := Ledger.ownProperty_eq_some.mp hq
    obtain ⟨es,hes,hmem,hk,hentries⟩ := mem_of_lookup (K := propertyKind) hr hq
    exact ⟨congrArg₂ Key.property hk hown,_,hes,hentries ▸ List.mem_map_of_mem hmem⟩
  | page n r k =>
    obtain ⟨page,hpage,rfl⟩ := Option.map_eq_some_iff.mp he
    obtain ⟨hpage,hown⟩ := Ledger.ownPage_eq_some.mp hpage
    obtain ⟨es,hes,hmem,hk,hentries⟩ := mem_of_lookup (K := propertyPageKind) hr hpage
    have hnum : pageNum (makePropertyAddress env.sha r n k) = k :=
      pageNum_propertyAddress (wellFormed_of_reachable hr hes).length
    refine ⟨?_,_,hes,?_⟩
    · rw [Entry.key]
      exact congrArg₂ (fun a b => Key.page a b k) hk hown
    · rw [keyAddress,hentries,hnum]
      exact List.mem_map_of_mem hmem
  | proposalId x =>
    obtain ⟨c,hc,rfl⟩ := Option.map_eq_some_iff.mp he
    obtain ⟨es,hes,hmem,hk,hentries⟩ := mem_of_lookup (K := proposalKind) hr hc
    exact ⟨congrArg Key.proposalId hk,_,hes,hentries ▸ List.mem_map_of_mem hmem⟩
  | exchange b v =>
    obtain ⟨x,hx,rfl⟩ := Option.map_eq_some_iff.mp he
    obtain ⟨es,hes,hmem,hk,hentries⟩ := mem_of_lookup (K := exchangeKind) hr hx
    obtain ⟨hb,hv⟩ := Prod.mk.inj (toLex_inj.mp hk)
    exact ⟨congrArg₂ Key.exchange hb hv,_,hes,hentries ▸ List.mem_map_of_mem hmem⟩

end Entries

end LedgerSync

end DgcRestApi
