import DgcRestApi.LedgerSync.Snapshot
import Mathlib.Logic.Relation

/-!
# Redelivered blocks

The subscription starts from the null block, so that after a restart every block of the
chain is handled again. A write of an old block is recognized only while the document of
that block is the open one of its key; after a later write the old entry is taken for new.
-/

namespace DgcRestApi.LedgerSync
open Versions Fallible

section Replay

variable {sha : Sha512} {h : List (Db × Delta)} {d : Delta} {ds : List Delta} {k : Key}
variable {e : Entry} {n : Nat} {db db' : Db}

/-- The last write of a key is not before any block that holds it. -/
theorem LastWrite.ge (hw : LastWrite k ds n e) (hinc : Increasing ds) (hd : d ∈ ds)
    (hk : d.Holds k) : d.num ≤ n := by
  induction hw with
  | @here d₀ ds e p _ _ =>
    rcases List.mem_cons.mp hd with rfl | hd
    · exact Nat.le_refl _
    · exact ((List.pairwise_cons.mp hinc).1 d hd).le
  | @there d₀ ds n e hno _ ih =>
    rcases List.mem_cons.mp hd with rfl | hd
    · exact absurd hk hno
    · exact ih (List.pairwise_cons.mp hinc).2 hd

/-- The document of a block is the open one of a key exactly when the key was not written
later. -/
theorem current_iff (hs : Synced ds db) (hinc : Increasing ds) (hd : d ∈ ds) (hk : d.Holds k) :
    Current MAX_SAFE_INTEGER d.num (db.docs k) ↔ ∀ d' ∈ ds, d.num < d'.num → ¬d'.Holds k := by
  rcases hs.latest k with ⟨_,hnone⟩ | ⟨ws,w,hlog,hw⟩
  · exact absurd hk (hnone d hd)
  · obtain ⟨d₁,hd₁,hk₁,hn⟩ := hw.mem
    have htop : w.1 < MAX_SAFE_INTEGER := hn ▸ d₁.block.blockNum_lt
    rw [hs.docs,hlog,current_spans htop]
    constructor
    · intro heq d' hd' hlt hk'
      have := hw.ge hinc hd' hk'
      omega
    · intro hlater
      have hle := hw.ge hinc hd hk
      by_contra hne
      exact hlater d₁ hd₁ (by omega) hk₁

theorem addEntry_current (hcur : Current MAX_SAFE_INTEGER n (db.docs e.key)) :
    addEntry e n db = db := by
  rw [addEntry_eq,addBlockState,Db.modifyTable,put_current hcur,Function.update_eq_self]

/-- An operation that is refused, or whose document is the open one of its key. -/
def Idle (db : Db) (op : Op) : Prop :=
  op.Accepted db → Current MAX_SAFE_INTEGER op.num (db.docs op.key)

/-- Idle operations change nothing, in whatever order they are executed. -/
theorem replay_steps {ops : List Op} {s : List Op × Db} (hidle : ∀ op ∈ ops, Idle db op)
    (hsteps : Relation.ReflTransGen Step (ops,db) s) : s.2 = db ∧ ∀ op ∈ s.1, Idle db op := by
  induction hsteps with
  | refl => exact ⟨rfl,hidle⟩
  | tail _ hstep ih =>
    cases hstep with
    | exec before op after db₁ =>
      obtain ⟨rfl,hidle⟩ := ih
      have hop := hidle op (List.mem_append_right _ List.mem_cons_self)
      have hrest : ∀ o, o ∈ before ∨ o ∈ after → Idle db₁ o := by
        intro o ho
        apply hidle o
        rcases ho with ho | ho
        · exact List.mem_append_left _ ho
        · exact List.mem_append_right _ (List.mem_cons_of_mem _ ho)
      have hsent : ∀ o ∈ (op.exec db₁).1, Idle db₁ o := by
        intro o ho _
        cases op with
        | write e n => exact absurd ho List.not_mem_nil
        | query page n =>
          -- the write that the answer sends has the key and the number of the query
          dsimp only [Op.exec,sendPage] at ho
          split at ho
          · next hdef =>
            rw [List.mem_singleton.mp ho,Op.key,key_convertPage]
            exact hop hdef
          · exact absurd ho List.not_mem_nil
      refine ⟨?_,fun o ho => ?_⟩
      · cases op with
        | write e n => exact addEntry_current (hop trivial)
        | query page n => rfl
      · rcases List.mem_append.mp ho with ho | ho
        · exact hrest o (Or.inl ho)
        · rcases List.mem_append.mp ho with ho | ho
          · exact hsent o ho
          · exact hrest o (Or.inr ho)

theorem blocks_distinct (hblocks : db.blocks = (ds.map Delta.block).reverse)
    (hinc : Increasing ds) : Keyed.Distinct Block.blockNum db.blocks := by
  rw [Keyed.Distinct,hblocks,List.map_reverse,List.nodup_reverse,List.map_map]
  exact List.pairwise_map.mpr (hinc.imp fun hlt => hlt.ne')

theorem mem_blocks (hblocks : db.blocks = (ds.map Delta.block).reverse) (hd : d ∈ ds) :
    d.block ∈ db.blocks := by
  rw [hblocks]
  exact List.mem_reverse.mpr (List.mem_map_of_mem hd)

theorem insert_known (hblocks : db.blocks = (ds.map Delta.block).reverse) (hinc : Increasing ds)
    (hd : d ∈ ds) : insert d.block db = db := by
  have hfind : db.blocks.find? (fun b => b.blockNum = d.block.blockNum) = some d.block :=
    (Keyed.find_eq_some_iff (blocks_distinct hblocks hinc)).mpr ⟨mem_blocks hblocks hd,rfl⟩
  rw [insert,insertBlock,hfind]
  simp [isFork]

theorem Completes.steps {ops : List Op} (hops : Completes ops db db') :
    Relation.ReflTransGen Step (ops,db) ([],db') := by
  induction hops with
  | done db => exact .refl
  | @exec before after op db db' _ _ ih => exact ih.head (.exec before op after db)

theorem addEntry_ne (hcur : ¬Current MAX_SAFE_INTEGER n (db.docs e.key)) :
    addEntry e n db ≠ db := by
  intro heq
  have hdocs : (addEntry e n db).docs e.key = renew MAX_SAFE_INTEGER e n (db.docs e.key) :=
    docs_addEntry
  rw [heq] at hdocs
  exact renew_ne hcur hdocs.symm

/-- An operation that is not idle can change the database. -/
theorem exists_change {ops : List Op} {op : Op} (hop : op ∈ ops) (hidle : ¬Idle db op) :
    ∃ s, Relation.ReflTransGen Step (ops,db) s ∧ s.2 ≠ db := by
  obtain ⟨before,after,rfl⟩ := List.append_of_mem hop
  rw [Idle,Classical.not_imp] at hidle
  obtain ⟨hacc,hcur⟩ := hidle
  have hfirst := Step.exec before op after db
  cases op with
  | write e n => exact ⟨_,.single hfirst,addEntry_ne hcur⟩
  | query page n =>
    rw [exec_query hacc] at hfirst
    have hkey := key_convertPage page db
    refine ⟨_,(Relation.ReflTransGen.single hfirst).tail (.exec before _ after db),?_⟩
    exact addEntry_ne (e := .propertyPage (convertPage page db)) (by rw [hkey]; exact hcur)

/-- Handling a block of the chain again changes nothing, neither while it runs nor at its
end, exactly when no entry of the block that the driver takes was written by a later block. -/
theorem replay_unchanged_iff (hwf : ∀ d ∈ deltas h, d.WellFormed sha)
    (hinc : Increasing (deltas h)) (hr : Run Handled Db.empty h db) (hd : d ∈ deltas h) :
    ((∀ ops₁ db₁, Relation.ReflTransGen Step (d.ops,db) (ops₁,db₁) →
        db₁ = db ∧ insert d.block db₁ = db) ∧
      ∀ db', handle d.block d.changes db = .ok db' → db' = db) ↔
    ∀ e ∈ d.entries, (stateAdder e d.num).Accepted db →
      ∀ d' ∈ deltas h, d.num < d'.num → ¬d'.Holds e.key := by
  have hs := synced hr hinc hwf
  have hknown : insert d.block db = db := insert_known hs.blocks hinc hd
  have hiff : (∀ op ∈ d.ops, Idle db op) ↔ ∀ e ∈ d.entries, (stateAdder e d.num).Accepted db →
      ∀ d' ∈ deltas h, d.num < d'.num → ¬d'.Holds e.key := by
    rw [Delta.ops,List.forall_mem_map]
    refine forall₂_congr fun e he => ?_
    rw [Idle,num_stateAdder,key_stateAdder,current_iff hs hinc hd ⟨e,he,rfl⟩]
  rw [← hiff]
  constructor
  · rintro ⟨hsame,-⟩ op hop
    by_contra hidle
    obtain ⟨⟨ops₁,db₁⟩,hsteps,hne⟩ := exists_change hop hidle
    exact hne (hsame ops₁ db₁ hsteps).1
  · intro hidle
    constructor
    · intro ops₁ db₁ hsteps
      have heq : db₁ = db := (replay_steps hidle hsteps).1
      exact ⟨heq,heq ▸ hknown⟩
    · intro db' hrun
      obtain ⟨ops,db₁,hperm,hdone,rfl⟩ := handle_completes hrun
      have heq : db₁ = db :=
        (replay_steps (fun op hop => hidle op (hperm.mem_iff.mp hop)) hdone.steps).1
      rw [heq,hknown]

end Replay

namespace Sample
open DgcRestApi.Sample Addressing

theorem handle_joined (n : Nat) (name : String) (h : n < MAX_SAFE_INTEGER ∧ name ≠ "")
    (db : Db) :
    handle (joined n name h).block (joined n name h).changes db = .ok (join n name h db) := by
  simp only [handle,joined,partition,sendAll,getProtoName,typePrefix_eq,typeCode_participant]
  rfl

/-- The sample chain with its first block handled again. -/
def restored : Db := join 1 "Ann" ann_joins renamedDb

end Sample

theorem replay_unchanged_renamed :
    Sample.join 2 "Anna" (by decide) Sample.renamedDb = Sample.renamedDb := by
  refine ((replay_unchanged_iff Sample.wellFormed_renamed Sample.increasing_renamed
    Sample.run_renamed List.mem_cons_self).mpr ?_).2 _ (Sample.handle_joined 2 "Anna" _ _)
  intro e _ _ d' hd' hlt
  rcases List.mem_cons.mp hd' with rfl | hd'
  · exact absurd hlt (by decide)
  · rw [List.mem_singleton.mp hd'] at hlt
    exact absurd hlt (by decide)

/-- After block 1 is handled again a query at the head, block 2, shows the old name. -/
theorem replay_restores_name : Run Handled Db.empty Sample.renamed Sample.renamedDb ∧
    Sample.joined 1 "Ann" (by decide) ∈ deltas Sample.renamed ∧
    handle (Sample.joined 1 "Ann" (by decide)).block (Sample.joined 1 "Ann" (by decide)).changes
      Sample.renamedDb = .ok Sample.restored ∧
    currentBlock Sample.restored = some 2 ∧
    shown Sample.renamedDb 2 (.publicKey "A") = [.participant (Sample.ann "Anna").toObject] ∧
    shown Sample.restored 2 (.publicKey "A") = [.participant (Sample.ann "Ann").toObject] :=
  ⟨Sample.run_renamed,List.mem_cons_of_mem _ List.mem_cons_self,
    Sample.handle_joined 1 "Ann" _ _,rfl,rfl,rfl⟩

end DgcRestApi.LedgerSync
