import DgcRestApi.Kit.Histories
import DgcRestApi.LedgerSync.Db

/-!
# The intervals of the documents of one key

`addBlockState` looks for the open document of a key, but updates the end of all of them. So
a document that was closed by the second write of its key is closed again by the third.
-/

namespace DgcRestApi.LedgerSync
open Versions

/-- A call of `addBlockState` for the index value of its document. -/
structure Call where
  doc : Entry
  blockNum : Nat
  blockNum_lt : blockNum < MAX_SAFE_INTEGER

def addCalls (tableName : StateTable) (calls : List Call) : Db :=
  calls.foldl (fun db c => addBlockState tableName c.doc c.blockNum db) Db.empty

/-- The documents of an index value after the calls. -/
def docsOf (tableName : StateTable) (calls : List Call) (k : Key) : List Doc :=
  slice Entry.key k ((addCalls tableName calls).tables tableName)

/-- The writes of an index value. -/
def writesAt (calls : List Call) (k : Key) : List (Nat × Entry) :=
  writesOf Entry.key k (calls.map fun c => (c.blockNum,c.doc))

variable {t : StateTable} {calls : List Call} {k : Key}

theorem addCalls_tables (t : StateTable) (calls : List Call) : (addCalls t calls).tables t =
    puts Entry.key MAX_SAFE_INTEGER (calls.map fun c => (c.blockNum,c.doc)) := by
  induction calls using List.reverseRecOn with
  | nil => rfl
  | append_singleton calls c ih =>
    rw [List.map_append,List.map_singleton,puts_snoc,← ih,addCalls,List.foldl_append]
    exact Function.update_self ..

theorem docsOf_eq (t : StateTable) (calls : List Call) (k : Key) :
    docsOf t calls k = spans MAX_SAFE_INTEGER (stored (writesAt calls k)) := by
  rw [docsOf,addCalls_tables,slice_puts]
  · rfl
  · intro w hw
    obtain ⟨c,_,rfl⟩ := List.mem_map.mp hw
    exact c.blockNum_lt

theorem writesAt_lt : ∀ w ∈ writesAt calls k, w.1 < MAX_SAFE_INTEGER := by
  intro w hw
  obtain ⟨c,_,rfl⟩ := List.mem_map.mp (List.mem_of_mem_filter hw)
  exact c.blockNum_lt

theorem nonDecreasing_writesAt (hmono : calls.Pairwise fun c d => c.blockNum ≤ d.blockNum) :
    NonDecreasing (writesAt calls k) := by
  have hall : NonDecreasing (calls.map fun c => (c.blockNum,c.doc)) := List.pairwise_map.mpr hmono
  exact List.Pairwise.filter _ hall

/-- The versions of an index value are right at every block exactly if it is written in at
most two blocks, and with the same document whenever it is written twice in one. A call that
finds the document of its own block stores nothing; if it is not counted as a write, the
second condition goes away. -/
theorem versions_track_iff (t : StateTable)
    (hmono : calls.Pairwise fun c d => c.blockNum ≤ d.blockNum) (k : Key) :
    (Chronicle MAX_SAFE_INTEGER (writesAt calls k) (lastAt (writesAt calls k)) (docsOf t calls k) ↔
      ((writesAt calls k).map Prod.fst).dedup.length ≤ 2 ∧ Agreeing (writesAt calls k)) ∧
    (Chronicle MAX_SAFE_INTEGER (writesAt calls k) (lastAt (stored (writesAt calls k)))
        (docsOf t calls k) ↔
      ((writesAt calls k).map Prod.fst).dedup.length ≤ 2) := by
  have hwrites := nonDecreasing_writesAt (k := k) hmono
  rw [docsOf_eq]
  exact ⟨chronicle_iff hwrites writesAt_lt,chronicle_stored_iff hwrites writesAt_lt⟩

/-- A participant is written under a name. -/
def Sample.naming (blockNum : Nat) (name : String) (h : blockNum < MAX_SAFE_INTEGER) : Call :=
  ⟨.participant { publicKey := "A", name },blockNum,h⟩

/-- Two blocks write a participant. -/
def Sample.twice : List Call := [naming 1 "Ann" (by decide),naming 2 "Anna" (by decide)]

theorem versions_track_twice :
    Chronicle MAX_SAFE_INTEGER (writesAt Sample.twice (.publicKey "A"))
      (lastAt (writesAt Sample.twice (.publicKey "A")))
      (docsOf .participants Sample.twice (.publicKey "A")) := by
  have hmono : Sample.twice.Pairwise fun c d => c.blockNum ≤ d.blockNum := by decide
  refine (versions_track_iff .participants hmono (.publicKey "A")).1.mpr ⟨by decide,fun n => ?_⟩
  by_cases h₁ : 1 = n
  · subst h₁
    rfl
  · by_cases h₂ : 2 = n
    · subst h₂
      rfl
    · simp [writesAt,writesOf,Sample.twice,Sample.naming,Entry.key,h₁,h₂]

/-- A third block writes the participant again. -/
def Sample.thrice : List Call := twice ++ [naming 3 "Annabel" (by decide)]

/-- The third write ends the first document at its own block, so that it overlaps the second. -/
theorem third_write_overlaps :
    (Sample.thrice.Pairwise fun c d => c.blockNum ≤ d.blockNum) ∧
    (docsOf .participants Sample.thrice (.publicKey "A")).map
      (fun doc => (doc.startNum,doc.endNum)) = [(1,3),(2,3),(3,MAX_SAFE_INTEGER)] ∧
    ¬Chronicle MAX_SAFE_INTEGER (writesAt Sample.thrice (.publicKey "A"))
      (lastAt (writesAt Sample.thrice (.publicKey "A")))
      (docsOf .participants Sample.thrice (.publicKey "A")) := by
  refine ⟨by decide,rfl,fun h => ?_⟩
  have hfirst := (List.pairwise_cons.mp h.disjoint).1
  exact hfirst _ List.mem_cons_self 2 ⟨⟨by decide,by decide⟩,by decide,by decide⟩

end DgcRestApi.LedgerSync
