import DgcRestApi.Ledger.Prices
import DgcRestApi.LedgerSync.Reflection
import DgcRestApi.Server.Settlement

/-!
# Exchanges

`list`, `retrieve` and `last` of `db/exchanges.js`. A client that asks for prices gets, of each
pair of proposals, the exchange that came last with an accepted answer. What it gets as the last
exchange is whichever the database finds first.
-/

namespace DgcRestApi.Server.Exchanges
open LedgerSync Keyed

section Queries

variable (query : Exchange → Bool) (db : Db)

/-- `list`, which returns before it filters. -/
def list : Option (List Exchange) :=
  (currentBlock db).map fun block => objects Entry.toExchange .exchanges block db

def retrieve : Option (List Exchange) := (list db).map (List.filter query)

/-- `last`; the query fails when it finds nothing. -/
def last : Option Exchange := (retrieve query db).bind List.head?

end Queries

section Answers

variable {L : Ledger} {db : Db} {block : Nat} {query : Exchange → Bool} {x : Exchange}

theorem list_mirrors (hm : Mirrors L db block) :
    list db = some (objects Entry.toExchange .exchanges block db) := by
  rw [list,hm.block]
  rfl

theorem distinct_exchanges (hm : Mirrors L db block) :
    Distinct exchangeKind.key (objects Entry.toExchange .exchanges block db) :=
  hm.distinct_by toExchange_iff (fun k => .exchange (ofLex k).1 (ofLex k).2) fun _ => rfl

theorem last_mirrors (hm : Mirrors L db block) :
    last query db = ((objects Entry.toExchange .exchanges block db).filter query).head? := by
  rw [last,retrieve,list_mirrors hm]
  rfl

/-- Each exchange that a query selects is the first one in some order of the documents. -/
theorem exists_last (hm : Mirrors L db block)
    (hx : x ∈ objects Entry.toExchange .exchanges block db) (hquery : query x = true) :
    ∃ db', Mirrors L db' block ∧ last query db' = some x := by
  obtain ⟨doc,hdoc,hread⟩ := List.mem_filterMap.mp hx
  obtain ⟨db',docs,hm',htable⟩ := hm.front hdoc
  refine ⟨db',hm',?_⟩
  rw [last_mirrors hm',objects,htable,
    List.filterMap_cons_some (f := fun doc : Doc => doc.body.toExchange) hread,
    List.filter_cons_of_pos hquery,List.head?_cons]

end Answers

section Histories

variable {env : Env} {h : List (State × Tx)} {s : State} {db : Db} {block : Nat}

/-- What is listed are the last exchanges of all pairs, each once. A query for the last one fails
exactly if none of them meets it, and may find any that does. -/
theorem exchanges_listed (hr : Reachable env h s) (hm : Mirrors (ledger env s) db block) :
    ∃ xs, list db = some xs ∧ Distinct exchangeKind.key xs ∧
      (∀ x, x ∈ xs ↔ ∃ e, lastTrade (trades h) (exchangeKind.key x) = some e ∧ e.toObject = x) ∧
      ∀ query, (last query db = none ↔ ∀ x ∈ xs, query x = false) ∧
        (∀ x, last query db = some x → x ∈ xs ∧ query x = true) ∧
        ∀ x ∈ xs, query x = true →
          ∃ db', Mirrors (ledger env s) db' block ∧ last query db' = some x := by
  refine ⟨_,list_mirrors hm,distinct_exchanges hm,fun x => ?_,fun query => ⟨?_,fun x hx => ?_,?_⟩⟩
  · rw [hm.mem_exchanges,reachable_exchange hr]
  · rw [last_mirrors hm,List.head?_eq_none_iff,List.filter_eq_nil_iff]
    exact forall₂_congr fun x _ => Bool.not_eq_true _ ▸ Iff.rfl
  · rw [last_mirrors hm] at hx
    exact List.mem_filter.mp (List.mem_of_mem_head? hx)
  · exact fun x hx => exists_last hm hx

end Histories

namespace Sample
open DgcRestApi.Sample Server.Sample

/-- The two orders and both answers of their match. -/
def traded : List TpProcessRequest :=
  ordered ++ [answerProposal server 9 first,answerProposal server 10 second]

theorem traded_valid : Valid traded := by decide +kernel

/-- The exchange of the match. -/
def price : Exchange := (exchange.priced (some 10) (.finite 1)).encode server

theorem traded_price : ((base ++ traded).map TpProcessRequest.tx?).reverse.flatMap
    (fun o => (o.elim [] Tx.traded).reverse) = [price] := by decide +kernel

theorem lastTrade_price {k : String ×ₗ String} {e : Exchange} :
    lastTrade [price] k = some e ↔ exchangeKind.key price = k ∧ price = e := by
  simp [lastTrade]

end Sample

theorem exchanges_listed_sample : ∃ db, list db = some [Sample.price] ∧
    ∀ query, last query db = none ↔ query Sample.price = false := by
  obtain ⟨h,hr,hmap⟩ := DgcRestApi.Sample.reachable Sample.traded_valid
  obtain ⟨db,hm⟩ := exists_mirror hr (n := 1) (by decide)
  obtain ⟨xs,hlist,hdistinct,hmem,hlast⟩ := exchanges_listed hr hm
  rw [trades_history hmap,Sample.traded_price] at hmem
  obtain rfl : xs = [Sample.price] := by
    refine List.perm_singleton.mp ((List.perm_ext_iff_of_nodup (.of_map _ hdistinct)
      (List.nodup_singleton _)).mpr fun x => (hmem x).trans ?_)
    rw [List.mem_singleton]
    constructor
    · rintro ⟨e,he,rfl⟩
      exact (Sample.lastTrade_price.mp he).2 ▸ rfl
    · rintro rfl
      exact ⟨Sample.price,Sample.lastTrade_price.mpr ⟨rfl,rfl⟩,rfl⟩
  exact ⟨db,hlist,fun query => (hlast query).1.trans (List.forall_mem_singleton ..)⟩

end DgcRestApi.Server.Exchanges
