import DgcRestApi.LedgerSync.Image

/-!
# The mirror

From the transactions that the processor accepts, through the events of their blocks and the
delta queue, to the documents that a query at the current block sees. While nothing of a later
block is written these are the image of the ledger after the current block. An early write of a
later block ends all documents of its key at that block: queries then see every one of them.
-/

namespace DgcRestApi.LedgerSync
open Addressing Versions Fallible

/-- The events by which the validator announces that a block took the state from `s` to `s'`:
each change that passes the filter is a value of the new state, and none is missing. What other
families store is at other addresses. -/
structure Announces (s s' : State) (events : List StreamEvent) : Prop where
  nodup : ((stateChanges events).map Change.address).Nodup
  value : ∀ c ∈ stateChanges events, hasPrefix c.address = true → s' c.address = some c.value
  changed : ∀ A, hasPrefix A = true → s' A ≠ s A → ∃ c ∈ stateChanges events, c.address = A

/-- A block of accepted transactions, with the delta that its events are handled as. -/
def Commits (env : Env) (s : State) (d : Delta) (s' : State) : Prop :=
  ∃ txs events, Run (Accepted env) s txs s' ∧ Announces s s' events ∧
    handleEvent (.clientEvents events) = some d

/-- The deltas of a chain of blocks, newest first. -/
def announced (chain : List (State × Delta)) : List Delta := chain.map Prod.snd

/-- The blocks that changed the object of a key. -/
def rewrites (ds : List Delta) (k : Key) : Nat := (ds.filter fun d => (d.entryOf k).isSome).length

/-- The database has a document of the key from a block after `n`. -/
def InFlight (db : Db) (n : Nat) (k : Key) : Prop := ∃ doc ∈ db.docs k, n < doc.startNum

section Blocks

variable {env : Env} {s s' : State} {d : Delta} {k : Key} {e : Entry} {h : List (State × Tx)}

theorem Commits.reachable (hr : Reachable env h s) (hc : Commits env s d s') :
    ∃ h', Reachable env h' s' := by
  obtain ⟨txs,_,hrun,_,_⟩ := hc
  exact ⟨txs ++ h,hr.trans hrun⟩

/-- The changes of a block are those of its family: all, and at their new values. -/
theorem Commits.changes (hc : Commits env s d s') : (d.changes.map Change.address).Nodup ∧
    (∀ c ∈ d.changes, s' c.address = some c.value) ∧
      ∀ A, hasPrefix A = true → A ∉ d.changes.map Change.address → s' A = s A := by
  obtain ⟨_,events,_,ha,hd⟩ := hc
  obtain ⟨block,_,rfl⟩ := Option.map_eq_some_iff.mp hd
  refine ⟨?_,fun c hc => ?_,fun A hA hnone => ?_⟩
  · exact ha.nodup.sublist ((List.filter_sublist (l := stateChanges events)).map Change.address)
  · obtain ⟨hmem,hours⟩ := mem_getChanges.mp hc
    exact ha.value c hmem hours
  · by_contra hchange
    obtain ⟨c,hc,rfl⟩ := ha.changed A hA hchange
    exact hnone (List.mem_map_of_mem (mem_getChanges.mpr ⟨hc,hA⟩))

theorem Commits.wellFormed (hr : Reachable env h s) (hc : Commits env s d s') :
    d.WellFormed env.sha := by
  obtain ⟨_,hr'⟩ := hc.reachable hr
  obtain ⟨hnodup,hvalue,_⟩ := hc.changes
  exact ⟨fun c hmem => wellFormed_of_reachable hr' (hvalue c hmem),hnodup⟩

/-- A delta holds the new object of each key whose address changed. -/
theorem Commits.entryOf (hr : Reachable env h s) (hc : Commits env s d s') :
    d.entryOf k = some e ↔
      keyAddress env.sha k ∈ d.changes.map Change.address ∧ (ledger env s').entry k = some e := by
  obtain ⟨_,hr'⟩ := hc.reachable hr
  have hwf := hc.wellFormed hr
  obtain ⟨_,hvalue,_⟩ := hc.changes
  have hfind : d.entryOf k = some e ↔ e ∈ d.entries ∧ e.key = k := Keyed.find_eq_some_iff hwf.keys
  rw [hfind]
  constructor
  · rintro ⟨he,rfl⟩
    obtain ⟨c,hmem,he⟩ := List.mem_flatMap.mp he
    have haddress := (hwf.changes c hmem).decodes.2.2 e he
    exact ⟨haddress ▸ List.mem_map_of_mem hmem,entry_of_mem hr' (hvalue c hmem) he⟩
  · rintro ⟨hmem,he⟩
    obtain ⟨c,hmem,haddress⟩ := List.mem_map.mp hmem
    obtain ⟨hk,c',hc',he⟩ := mem_of_entry hr' he
    rw [← haddress,hvalue c hmem] at hc'
    obtain rfl := Option.some.inj hc'
    exact ⟨List.mem_flatMap.mpr ⟨c,hmem,by rw [← haddress] at he; exact he⟩,hk⟩

/-- A key that the delta does not hold has the object it had before. -/
theorem Commits.entry_same (henv : env.sha = sha512) (hr : Reachable env h s)
    (hd : DistinctAddresses env s') (hc : Commits env s d s') (hnone : d.entryOf k = none) :
    (ledger env s').entry k = (ledger env s).entry k := by
  obtain ⟨_,hr'⟩ := hc.reachable hr
  have hnot : ∀ e, (ledger env s').entry k = some e →
      keyAddress env.sha k ∉ d.changes.map Change.address := fun e he hmem =>
    nomatch hnone.symm.trans ((hc.entryOf hr).mpr ⟨hmem,he⟩)
  cases he' : (ledger env s').entry k with
  | some e =>
    obtain ⟨rfl,c,hA,hmem⟩ := mem_of_entry hr' he'
    have hours : hasPrefix (keyAddress env.sha e.key) = true := by
      rw [henv]
      exact hasPrefix_keyAddress _
    rw [hc.changes.2.2 _ hours (hnot e he')] at hA
    exact (entry_of_mem hr hA hmem).symm
  | none =>
    cases he : (ledger env s).entry k with
    | none => rfl
    | some e =>
      obtain ⟨_,_,hrun,_,_⟩ := hc
      obtain ⟨e',he''⟩ := Ledger.entry_kept (reachable_homed hr) (reachable_homed hr') hd
        (reachable_lasts hr hrun) he
      exact nomatch he'.symm.trans he''

end Blocks

section Chains

variable {env : Env} {chain : List (State × Delta)} {s : State} {k : Key}

/-- The blocks of a chain are a run of the processor. -/
theorem chain_run {m : State} (hchain : Run (Commits env) m chain s) :
    ∃ txs, Run (Accepted env) m txs s := by
  induction hchain with
  | nil => exact ⟨[],.nil⟩
  | snoc _ hc ih =>
    obtain ⟨txs,hrun⟩ := ih
    obtain ⟨txs',_,hrun',_,_⟩ := hc
    exact ⟨txs' ++ txs,hrun.trans hrun'⟩

theorem chain_reachable (hchain : Run (Commits env) State.empty chain s) :
    ∃ h, Reachable env h s := chain_run hchain

theorem chain_wellFormed (hchain : Run (Commits env) State.empty chain s) :
    ∀ d ∈ announced chain, d.WellFormed env.sha := by
  induction hchain with
  | nil => exact List.forall_mem_nil _
  | snoc hchain hc ih =>
    obtain ⟨_,hr⟩ := chain_reachable hchain
    exact List.forall_mem_cons.mpr ⟨hc.wellFormed hr,ih⟩

theorem distinctAddresses_before {h h' : List (State × Tx)} {s' : State}
    (hr : Reachable env h s) (hrun : Run (Accepted env) s h' s') (hd : DistinctAddresses env s') :
    DistinctAddresses env s :=
  Ledger.DistinctRanges.of_grown hd
    (Ledger.run_record_grown (run_refines (reachable_refines hr).1 hrun).2)

/-- The last entry of a key is its object on the ledger, and the last of its writes is its
document. -/
theorem chain_entries (henv : env.sha = sha512) (hchain : Run (Commits env) State.empty chain s)
    (hd : DistinctAddresses env s) : lastEntry (announced chain) = (ledger env s).entry ∧
      ∀ k, (history (announced chain) k).getLast?.map Prod.snd = (ledger env s).document k := by
  induction hchain with
  | nil =>
    have hnone : ∀ k, (ledger env State.empty).entry k = none := by
      intro k
      cases he : (ledger env State.empty).entry k with
      | none => rfl
      | some e =>
        obtain ⟨_,c,hc,_⟩ := mem_of_entry (.nil : Reachable env [] State.empty) he
        exact nomatch hc
    refine ⟨funext fun k => (hnone k).symm,fun k => ?_⟩
    rw [Ledger.document,hnone]
    rfl
  | @snoc chain s s' d hchain hc ih =>
    obtain ⟨h,hr⟩ := chain_reachable hchain
    obtain ⟨h',hr'⟩ := hc.reachable hr
    obtain ⟨_,_,hrun,_,_⟩ := id hc
    have hd₀ := distinctAddresses_before hr hrun hd
    obtain ⟨hlast,hdoc⟩ := ih hd₀
    have hentry : lastEntry (d :: announced chain) = (ledger env s').entry := by
      funext k
      rw [lastEntry,List.findSome?_cons]
      cases he : d.entryOf k with
      | some e => exact ((hc.entryOf hr).mp he).2.symm
      | none => exact (congrFun hlast k).trans (hc.entry_same henv hr hd he).symm
    refine ⟨hentry,fun k => ?_⟩
    cases he : d.entryOf k with
    | some e =>
      have hproperty : propertyOf (d :: announced chain) e = (ledger env s').propertyFor e := by
        rw [propertyOf,hentry,Ledger.propertyFor]
      rw [announced,List.map_cons,← announced,history_some he,List.getLast?_concat,hproperty,
        Ledger.document,((hc.entryOf hr).mp he).2]
      rfl
    | none =>
      have hgrows := Ledger.run_grows (reachable_homed hr) hd
        (run_refines (reachable_refines hr).1 hrun).2
      rw [announced,List.map_cons,← announced,history_none (entryOf_eq_none.mp he),hdoc]
      exact (Ledger.document_congr (reachable_homed hr) (reachable_homed hr') hd
        (reachable_complete hr hd₀) (reachable_lasts hr hrun) hgrows
        (hc.entry_same henv hr hd he)).symm

end Chains

section Moments

variable {sha : Sha512} {ds done : List Delta} {d : Delta} {q : Sync} {h : List (Sync × Event)}
variable {db : Db} {n : Nat} {k : Key}

theorem run_tracks (hr : Run QueueStep {} h q) (hinc : Increasing (received h))
    (hwf : ∀ d ∈ received h, d.WellFormed sha) (hsafe : ∀ x ∈ h, Awaited x) :
    Tracks sha (received h) q := by
  induction hr with
  | nil => exact .idle ⟨rfl,synced_empty.tidy,synced_empty.docs⟩
  | @snoc h a b t _ hstep ih =>
    obtain ⟨hfirst,hrest⟩ := List.forall_mem_cons.mp hsafe
    cases t with
    | receive d =>
      obtain ⟨_,hinc⟩ := List.pairwise_cons.mp hinc
      obtain ⟨hd,hwf⟩ := List.forall_mem_cons.mp hwf
      cases hstep
      exact (ih hinc hwf hrest).receive hd
    | _ => exact (ih hinc hwf hrest).step hstep hfirst hinc hwf nofun

/-- The documents of a key are those of the blocks in the blocks table, or those of the block
that is being handled with them. -/
theorem Tracks.moment (h : Tracks sha ds q) : ∃ done, done <:+ ds ∧ Tidy q.db ∧
    q.db.blocks = (done.map Delta.block).reverse ∧
    ∀ k, q.db.docs k = spans MAX_SAFE_INTEGER (history done k) ∨ ∃ d, d :: done <:+ ds ∧
      q.db.docs k = spans MAX_SAFE_INTEGER (history (d :: done) k) := by
  have hbusy : ∀ {d : Delta} {ds queue : List Delta} {unsent : Key → Prop} {ops : List Op}
      {db : Db}, Busy d ds unsent ops db → ∀ k,
      db.docs k = spans MAX_SAFE_INTEGER (history ds k) ∨ ∃ d', d' :: ds <:+ queue ++ d :: ds ∧
        db.docs k = spans MAX_SAFE_INTEGER (history (d' :: ds) k) := by
    intro d ds queue unsent ops db h k
    by_cases hk : unsent k ∨ ∃ op ∈ ops, op.key = k
    · exact Or.inl (h.old k hk)
    · obtain ⟨hk,hops⟩ := not_or.mp hk
      exact Or.inr ⟨d,List.suffix_append _ _,h.new k hk fun op hop hkey => hops ⟨op,hop,hkey⟩⟩
  have hinner : ∀ {d : Delta} {ds queue : List Delta}, ds <:+ queue ++ d :: ds :=
    fun {d ds queue} => (List.suffix_cons d ds).trans (List.suffix_append queue _)
  cases h with
  | idle h => exact ⟨ds,List.suffix_refl ds,h.tidy,h.blocks,fun k => Or.inl (h.docs k)⟩
  | waiting _ _ h => exact ⟨_,hinner,h.tidy,h.blocks,hbusy h⟩
  | inserting h => exact ⟨_,hinner,h.tidy,h.blocks,hbusy h⟩
  | inserted h => exact ⟨_,List.suffix_append _ _,h.tidy,h.blocks,fun k => Or.inl (h.docs k)⟩

theorem length_history (ds : List Delta) (k : Key) : (history ds k).length = rewrites ds k := by
  induction ds with
  | nil => rfl
  | cons d ds ih =>
    rw [rewrites,List.filter_cons]
    cases he : d.entryOf k with
    | none =>
      rw [history_none (entryOf_eq_none.mp he),ih]
      rfl
    | some e =>
      rw [history_some he,List.length_append,ih]
      rfl

/-- The greatest number in the blocks table is that of its last block. -/
theorem head_of_blocks (hinc : Increasing done)
    (hblocks : db.blocks = (done.map Delta.block).reverse) (hhead : currentBlock db = some n) :
    done.head?.map Delta.num = some n ∧ n < MAX_SAFE_INTEGER ∧ ∀ d ∈ done, d.num ≤ n := by
  rw [currentBlock,hblocks,List.max?_eq_some_iff] at hhead
  obtain ⟨hmem,hmax⟩ := hhead
  have hmax : ∀ d ∈ done, d.num ≤ n := fun d hd =>
    hmax _ (List.mem_map_of_mem (List.mem_reverse.mpr (List.mem_map_of_mem hd)))
  obtain ⟨b,hb,rfl⟩ := List.mem_map.mp hmem
  obtain ⟨d,hd,rfl⟩ := List.mem_map.mp (List.mem_reverse.mp hb)
  refine ⟨?_,d.num_lt,hmax⟩
  cases done with
  | nil => exact absurd hd List.not_mem_nil
  | cons d₀ ds =>
    -- the last block has the greatest number, so it is the one that was found
    have hle := hmax d₀ List.mem_cons_self
    rcases List.mem_cons.mp hd with rfl | hd
    · rfl
    · exact absurd ((List.pairwise_cons.mp hinc).1 d hd) (Nat.not_lt.mpr hle)

theorem not_inFlight (hdone : ∀ d ∈ done, d.num ≤ n)
    (hdocs : db.docs k = spans MAX_SAFE_INTEGER (history done k)) : ¬InFlight db n k := by
  rintro ⟨doc,hdoc,hn⟩
  rw [hdocs] at hdoc
  obtain ⟨d,hd,hnum⟩ := num_of_history (mem_spans hdoc)
  have hle : doc.startNum ≤ n := hnum.symm.le.trans (hdone d hd)
  exact absurd hle (Nat.not_le.mpr hn)

/-- What the documents of a key show at the current block is its last one, unless a later
block has written it and there were several before. -/
theorem shown_last_iff (hdone : ∀ d ∈ done, d.num ≤ n) (htop : n < MAX_SAFE_INTEGER)
    (hdocs : db.docs k = spans MAX_SAFE_INTEGER (history done k) ∨ ∃ d, n < d.num ∧
      db.docs k = spans MAX_SAFE_INTEGER (history (d :: done) k)) :
    shown db n k = ((history done k).getLast?.map Prod.snd).toList ↔
      (InFlight db n k → rewrites done k ≤ 1) := by
  have hold : ∀ w ∈ history done k, w.1 ≤ n := by
    intro w hw
    obtain ⟨d,hd,hnum⟩ := num_of_history hw
    exact hnum ▸ hdone d hd
  have hquiet : db.docs k = spans MAX_SAFE_INTEGER (history done k) →
      (shown db n k = ((history done k).getLast?.map Prod.snd).toList ↔
        (InFlight db n k → rewrites done k ≤ 1)) := by
    intro hdocs
    refine iff_of_true ?_ fun hflight => absurd hflight (not_inFlight hdone hdocs)
    rw [shown_eq,hdocs,visible_spans_last hold htop]
    cases (history done k).getLast? <;> rfl
  rcases hdocs with hdocs | ⟨d,hd,hdocs⟩
  · exact hquiet hdocs
  · cases he : d.entryOf k with
    | none => exact hquiet (history_none (entryOf_eq_none.mp he) ▸ hdocs)
    | some e =>
      rw [history_some he] at hdocs
      have hflight : InFlight db n k := by
        obtain ⟨doc,hdoc,hnum,_⟩ := @exists_mem_spans _ MAX_SAFE_INTEGER _ _
          (List.mem_append_right (history done k) (List.mem_singleton_self (d.num,_)))
        exact ⟨doc,hdocs ▸ hdoc,hnum ▸ hd⟩
      rw [imp_iff_right hflight,← length_history,shown_eq,hdocs,
        visible_spans_before hold (List.forall_mem_singleton.mpr hd) (List.cons_ne_nil _ _)]
      cases history done k using List.reverseRecOn with
      | nil => simp
      | append_singleton ws w =>
        rw [List.getLast?_concat]
        cases ws <;> simp

end Moments

/-- At the current block the database shows the ledger: for each key its document, in its table. -/
structure Mirrors (L : Ledger) (db : Db) (n : Nat) : Prop where
  block : currentBlock db = some n
  shown : ∀ k, LedgerSync.shown db n k = (L.document k).toList
  tidy : ∀ t, ∀ doc ∈ getTable t n db, doc.body.key.table = t

section Mirror

variable {env : Env} {chain : List (State × Delta)} {s : State} {h : List (Sync × Event)}
variable {q : Sync} {n : Nat}

theorem tidy_getTable {db : Db} (htidy : Tidy db) (n : Nat) (t : StateTable) :
    ∀ doc ∈ getTable t n db, doc.body.key.table = t := fun doc hdoc =>
  htidy t doc (List.mem_of_mem_filter hdoc)

/-- At every moment of a run that waits for its operations, a query at the current block sees
for a key exactly its object after that block, unless a later block has written the key and it
was written more than once before. -/
theorem snapshot_iff (henv : env.sha = sha512) (hchain : Run (Commits env) State.empty chain s)
    (hd : DistinctAddresses env s) (hinc : Increasing (announced chain))
    (hrun : Run QueueStep {} h q) (hreceived : received h = announced chain)
    (hsafe : ∀ x ∈ h, Awaited x) (hhead : currentBlock q.db = some n) :
    ∃ before m, before <:+ chain ∧ Run (Commits env) State.empty before m ∧
      (announced before).head?.map Delta.num = some n ∧
      (∀ k, shown q.db n k = ((ledger env m).document k).toList ↔
        (InFlight q.db n k → rewrites (announced before) k ≤ 1)) ∧
      ((∀ k, ¬InFlight q.db n k) → Mirrors (ledger env m) q.db n) := by
  have hwf := chain_wellFormed hchain
  rw [← hreceived] at hinc hwf
  obtain ⟨done,hdone,htidy,hblocks,hdocs⟩ := (run_tracks hrun hinc hwf hsafe).moment
  obtain ⟨hnum,htop,hmax⟩ := head_of_blocks (hinc.sublist hdone.sublist) hblocks hhead
  obtain ⟨later,hlater⟩ := hdone
  rw [hreceived] at hlater
  obtain ⟨after,before,rfl,_,rfl⟩ := List.map_eq_append_iff.mp hlater.symm
  obtain ⟨m,hbefore,hafter⟩ := hchain.of_suffix
  obtain ⟨_,hr⟩ := chain_reachable hbefore
  obtain ⟨_,hrun'⟩ := chain_run hafter
  have hdm := distinctAddresses_before hr hrun' hd
  obtain ⟨_,hdocument⟩ := chain_entries henv hbefore hdm
  have hshown : ∀ k, shown q.db n k = ((ledger env m).document k).toList ↔
      (InFlight q.db n k → rewrites (announced before) k ≤ 1) := by
    intro k
    rw [← hdocument]
    refine shown_last_iff hmax htop ((hdocs k).imp_right fun ⟨d,hsuffix,hdoc⟩ => ⟨d,?_,hdoc⟩)
    obtain ⟨hlast,_⟩ := List.pairwise_cons.mp (hinc.sublist hsuffix.sublist)
    obtain ⟨d',hd',rfl⟩ := Option.map_eq_some_iff.mp hnum
    exact hlast d' (List.mem_of_mem_head? hd')
  exact ⟨before,m,List.suffix_append _ _,hbefore,hnum,hshown,
    fun hquiet => ⟨hhead,fun k => (hshown k).mpr fun hflight => absurd hflight (hquiet k),
      tidy_getTable htidy n⟩⟩

theorem Tracks.quiet {sha : Sha512} {ds : List Delta} (h : Tracks sha ds q)
    (hidle : q.phase = .idle) : Quiet ds q.db := by
  cases h with
  | idle h => exact h
  | _ => cases hidle

theorem Quiet.currentBlock {ds : List Delta} {d : Delta} {db : Db} (h : Quiet (d :: ds) db)
    (hinc : Increasing (d :: ds)) : LedgerSync.currentBlock db = some d.num := by
  rw [LedgerSync.currentBlock,h.blocks,List.max?_eq_some_iff]
  constructor
  · simp [Delta.num]
  · intro b hb
    obtain ⟨block,hblock,rfl⟩ := List.mem_map.mp hb
    obtain ⟨d',hd',rfl⟩ := List.mem_map.mp (List.mem_reverse.mp hblock)
    rcases List.mem_cons.mp hd' with rfl | hd'
    · exact le_rfl
    · exact ((List.pairwise_cons.mp hinc).1 d' hd').le

/-- A database that holds the history of a chain shows the ledger at its end. -/
theorem Quiet.mirrors {d : Delta} {db : Db} (henv : env.sha = sha512)
    (hchain : Run (Commits env) State.empty chain s) (hd : DistinctAddresses env s)
    (hinc : Increasing (announced chain)) (hquiet : Quiet (announced chain) db)
    (hlast : (announced chain).head? = some d) : Mirrors (ledger env s) db d.num := by
  obtain ⟨_,hdocument⟩ := chain_entries henv hchain hd
  obtain ⟨ds,hds⟩ := List.head?_eq_some_iff.mp hlast
  have hhead : LedgerSync.currentBlock db = some d.num := by
    rw [hds] at hquiet hinc
    exact hquiet.currentBlock hinc
  obtain ⟨_,htop,hmax⟩ := head_of_blocks hinc hquiet.blocks hhead
  refine ⟨hhead,fun k => ?_,tidy_getTable hquiet.tidy _⟩
  rw [← hdocument]
  exact (shown_last_iff hmax htop (Or.inl (hquiet.docs k))).mpr fun hflight =>
    absurd hflight (not_inFlight hmax (hquiet.docs k))

/-- Whenever the queue is idle, the database shows at its current block the ledger after the
last block that was received. -/
theorem idle_mirrors {d : Delta} (henv : env.sha = sha512)
    (hchain : Run (Commits env) State.empty chain s) (hd : DistinctAddresses env s)
    (hinc : Increasing (announced chain)) (hrun : Run QueueStep {} h q)
    (hreceived : received h = announced chain) (hsafe : ∀ x ∈ h, Awaited x)
    (hidle : q.phase = .idle) (hlast : (announced chain).head? = some d) :
    Mirrors (ledger env s) q.db d.num := by
  have hwf := chain_wellFormed hchain
  rw [← hreceived] at hinc hwf
  have hquiet := (run_tracks hrun hinc hwf hsafe).quiet hidle
  rw [hreceived] at hinc hquiet
  exact hquiet.mirrors henv hchain hd hinc hlast

end Mirror

/-- A run that waits for its operations takes the queue, which receives the deltas, to `q`. -/
def Arrives (ds : List Delta) (q : Sync) : Prop :=
  ∃ h, Run QueueStep {} h q ∧ received h = ds ∧ ∀ x ∈ h, Awaited x

section Handling

variable {ds : List Delta} {d : Delta} {e : Entry} {db : Db}

/-- A delta of one entry, which is no page. -/
structure Single (d : Delta) (e : Entry) : Prop where
  partition : partition d.changes = .ok ([],d.changes)
  sends : sendEach d.block d.changes = ([.write e d.num],true)
  entries : d.entries = [e]

theorem single_of_change {block : Block} {c : Change} {name : ProtoName}
    (hname : getProtoName c.address = .ok name) (hpage : name ≠ .PropertyPage)
    (hentries : getEntries c = .ok [e])
    (hwrite : stateAdder e block.blockNum = .write e block.blockNum) :
    Single ⟨block,[c]⟩ e where
  partition := by
    rw [LedgerSync.partition,hname]
    exact if_neg hpage
  sends := by
    rw [sendEach,entryAdder,hentries]
    simp [Except.map,hwrite,sendEach,Delta.num]
  entries := by
    rw [Delta.entries,List.flatMap_singleton,Change.entries,hentries]

theorem Single.entryOf (h : Single d e) (k : Key) :
    d.entryOf k = if e.key = k then some e else none := by
  rw [Delta.entryOf,h.entries,List.find?_singleton]
  simp

/-- An idle queue receives the delta, and the database writes its entry at once. -/
theorem Arrives.sent (h : Arrives ds ⟨[],.idle,[],db⟩) (hd : Single d e) :
    Arrives (d :: ds) ⟨[],.waiting d.block [],[],addEntry e d.num db⟩ := by
  obtain ⟨h,hrun,hreceived,hsafe⟩ := h
  have hadd : add d ⟨[],.idle,[],db⟩ = ⟨[],.waiting d.block [],[.write e d.num],db⟩ := by
    change start d ⟨[],.idle,[],db⟩ = _
    rw [start,hd.partition]
    dsimp only
    rw [hd.sends]
    rfl
  have hreceive : QueueStep ⟨[],.idle,[],db⟩ (.receive d)
      ⟨[],.waiting d.block [],[.write e d.num],db⟩ := hadd ▸ QueueStep.receive _ d
  refine ⟨_,(hrun.snoc hreceive).snoc
    (@QueueStep.exec ⟨[],_,_,_⟩ [] [] (.write e d.num) rfl),congrArg (d :: ·) hreceived,?_⟩
  exact List.forall_mem_cons.mpr ⟨trivial,List.forall_mem_cons.mpr ⟨trivial,hsafe⟩⟩

/-- Then it inserts the block, and is idle again. -/
theorem Arrives.inserted (h : Arrives ds ⟨[],.idle,[],db⟩) (hd : Single d e)
    (hnew : ∀ b ∈ db.blocks, b.blockNum ≠ d.num) : Arrives (d :: ds)
      ⟨[],.idle,[],{ addEntry e d.num db with blocks := db.blocks ++ [d.block] }⟩ := by
  obtain ⟨h,hrun,hreceived,hsafe⟩ := h.sent hd
  have hinsert : insertBlock d.block (addEntry e d.num db) =
      (none,{ addEntry e d.num db with blocks := db.blocks ++ [d.block] }) := by
    have hfind : (addEntry e d.num db).blocks.find? (fun b => b.blockNum = d.block.blockNum) =
        none := by
      rw [addEntry_blocks,List.find?_eq_none]
      exact fun b hb => by simpa [Delta.num] using hnew b hb
    rw [insertBlock,hfind,addEntry_blocks]
  have htimer : QueueStep ⟨[],.waiting d.block [],[],addEntry e d.num db⟩ .timer
      ⟨[],.inserting d.block,[],addEntry e d.num db⟩ :=
    @QueueStep.timer ⟨[],_,[],_⟩ d.block [] rfl
  have hnext : QueueStep ⟨[],.inserting d.block,[],addEntry e d.num db⟩ .insert
      ⟨[],.inserted d.block none,[],
        { addEntry e d.num db with blocks := db.blocks ++ [d.block] }⟩ := by
    have hstep := @QueueStep.insert ⟨[],.inserting d.block,[],addEntry e d.num db⟩ d.block rfl
    rwa [hinsert] at hstep
  refine ⟨_,((hrun.snoc htimer).snoc hnext).snoc (QueueStep.next rfl rfl),hreceived,?_⟩
  exact List.forall_mem_cons.mpr ⟨trivial,List.forall_mem_cons.mpr ⟨rfl,
    List.forall_mem_cons.mpr ⟨trivial,hsafe⟩⟩⟩

end Handling

namespace Sample
open DgcRestApi.Sample Addressing

/-- The environment of the samples with the digest of the processor. -/
def env512 : Env := { env with sha := sha512 }

def joining : TpProcessRequest :=
  request "A"
    { action := .CREATE_PARTICIPANT, timestamp := 1, createParticipant := { name := "Ann" } }

def joinedAnn : Participant := { publicKey := "A", name := "Ann", timestamp := 1 }

def annChange : Change := ⟨makeParticipantAddress sha512 "A",.participants [joinedAnn]⟩

/-- The state after the request. -/
def welcomed : State := Function.update State.empty annChange.address (some annChange.value)

theorem apply_joining : apply env512 orders joining State.empty = .ok welcomed := rfl

/-- The events of the block, in which another family stored something as well. -/
def welcome : List StreamEvent :=
  [{ eventType := "sawtooth/block-commit"
     attributes := [("block_num","1"),("block_id","b1"),("state_root_hash","r")] },
   { eventType := "sawtooth/state-delta"
     stateChanges := [⟨"000000".toList,.tables []⟩,annChange] }]

theorem welcome_safe : 1 < MAX_SAFE_INTEGER := by decide

def welcomeBlock : Block := ⟨1,"b1","r",welcome_safe,by decide⟩

theorem getBlock_welcome : getBlock welcome = some welcomeBlock := rfl

theorem getChanges_welcome : getChanges welcome = [annChange] := by
  have hann : hasPrefix annChange.address = true := hasPrefix_keyAddress (.publicKey "A")
  have hother : hasPrefix "000000".toList = false := by decide +kernel
  change List.filter _ [_,annChange] = _
  simp only [List.filter_cons,List.filter_nil,hann,hother]
  rfl

/-- The block in which Ann joins. -/
def welcomeDelta : Delta := ⟨welcomeBlock,[annChange]⟩

theorem commits_welcome : Commits env512 State.empty welcomeDelta welcomed := by
  obtain ⟨tx,_,hacc⟩ := accepted_of_apply apply_joining
  refine ⟨_,welcome,Run.nil.snoc hacc,⟨?_,fun c hc hours => ?_,fun A _ hA => ?_⟩,?_⟩
  · have haddress : "000000".toList ≠ annChange.address := by decide +kernel
    exact List.nodup_cons.mpr ⟨by simpa using haddress,List.nodup_singleton _⟩
  · obtain rfl : c = annChange := by
      have hmem := mem_getChanges.mpr ⟨hc,hours⟩
      rw [getChanges_welcome] at hmem
      exact List.mem_singleton.mp hmem
    exact Function.update_self ..
  · refine ⟨annChange,List.mem_cons_of_mem _ (List.mem_singleton_self _),?_⟩
    by_contra hne
    exact hA (Function.update_of_ne (Ne.symm hne) ..)
  · rw [handleEvent,getBlock_welcome,getChanges_welcome]
    rfl

theorem welcome_chain : Run (Commits env512) State.empty [(State.empty,welcomeDelta)] welcomed :=
  Run.nil.snoc commits_welcome

theorem distinct_welcomed : DistinctAddresses env512 welcomed := by
  obtain ⟨tx,htx,hacc⟩ := accepted_of_apply apply_joining
  have hr : Reachable env512 [(State.empty,tx)] welcomed := Run.nil.snoc hacc
  have hnone : tx.created = none := by
    have hbind : joining.tx?.bind Tx.created = none := rfl
    rwa [htx] at hbind
  refine distinctAddresses_of_created hr ?_
  simp [hnone]

theorem single_welcome : Single welcomeDelta (.participant joinedAnn.toObject) := by
  have hname : getProtoName annChange.address = .ok .Participant :=
    @getProtoName_keyAddress sha512 (.publicKey "A") trivial
  refine single_of_change hname nofun ?_ rfl
  rw [getEntries,hname]
  rfl

/-- The database after the write of the block. -/
def annDb : Db := addEntry (.participant joinedAnn.toObject) 1 Db.empty

/-- The queue waits for the write, then inserts the block. -/
theorem arrives_welcome :
    Arrives [welcomeDelta] ⟨[],.idle,[],{ annDb with blocks := [welcomeBlock] }⟩ :=
  Arrives.inserted ⟨[],.nil,rfl,List.forall_mem_nil _⟩ single_welcome (List.forall_mem_nil _)

theorem mirrors_welcome :
    Mirrors (ledger env512 welcomed) { annDb with blocks := [welcomeBlock] } 1 := by
  obtain ⟨h,hrun,hreceived,hsafe⟩ := arrives_welcome
  have hinc : Increasing (received h) := hreceived ▸ List.pairwise_singleton _ _
  have hwf : ∀ d ∈ received h, d.WellFormed sha512 := by
    rw [hreceived]
    exact chain_wellFormed welcome_chain
  have hquiet := (run_tracks hrun hinc hwf hsafe).quiet rfl
  rw [hreceived] at hquiet
  exact hquiet.mirrors rfl welcome_chain distinct_welcomed
    (List.pairwise_singleton _ _) rfl

/-- What the proposal asks for. -/
def offering (ts : Nat) : TpProcessRequest :=
  propose "A" ts { proposalId := "x", role := .buyDGC }

def offered (ts : Nat) : Proposal := newProposal { proposalId := "x", role := .buyDGC } "A" ts

def offerChange (ts : Nat) : Change := ⟨makeProposalAddress sha512 "x",.proposals [offered ts]⟩

/-- The state after the proposal was last made at the time. -/
def proposed (ts : Nat) : State :=
  Function.update welcomed (offerChange ts).address (some (offerChange ts).value)

theorem annChange_ne (ts : Nat) : annChange.address ≠ (offerChange ts).address := by
  change makeParticipantAddress sha512 "A" ≠ makeProposalAddress sha512 "x"
  decide +kernel

theorem participant_welcomed : welcomed annChange.address = some annChange.value :=
  Function.update_self ..

theorem apply_offering {s : State} {ts : Nat} (hts : ts ≠ 0)
    (hann : s annChange.address = some annChange.value)
    (hx : ∀ c, s (offerChange ts).address = some c → ∃ old, c = (offerChange old).value) :
    apply env512 orders (offering ts) s =
      .ok (Function.update s (offerChange ts).address (some (offerChange ts).value)) := by
  have hparticipant : getParticipant env512 s "A" = .ok (some joinedAnn) := by
    change getEntry participantKind s annChange.address "A" = _
    simp only [getEntry,loadEntries,hann]
    rfl
  have hset : setProposal env512 s "x" (offered ts) =
      .ok (Function.update s (offerChange ts).address (some (offerChange ts).value)) := by
    change setEntry proposalKind env512 s (offerChange ts).address "x" (offered ts) = _
    cases hs : s (offerChange ts).address with
    | none => 
      simp only [setEntry,loadEntries,hs]
      rfl
    | some c =>
      obtain ⟨old,rfl⟩ := hx c hs
      simp only [setEntry,loadEntries,hs]
      rfl
  have hnew : PayloadDGC.new (offering ts).payload =
      .ok (some ⟨.CreateProposal { proposalId := "x", role := .buyDGC },ts⟩) := by
    simp [PayloadDGC.new,offering,propose,request,payloadAction,rejectIf,hts]
  have hcreate : createProposal env512 { proposalId := "x", role := .buyDGC } s "A" ts =
     setProposal env512 s "x" (offered ts) := by
    simp only [createProposal,hparticipant]
    rfl
  simp only [apply,hnew]
  change createProposal env512 { proposalId := "x", role := .buyDGC } s "A" ts = _
  rw [hcreate,hset]

theorem update_proposed {s : State} (hs : s = welcomed ∨ ∃ old, s = proposed old) (ts : Nat) :
    Function.update s (offerChange ts).address (some (offerChange ts).value) = proposed ts := by
  obtain rfl | ⟨old,rfl⟩ := hs
  · rfl
  · exact Function.update_idem ..

theorem apply_proposed {s : State} {ts : Nat} (hts : ts ≠ 0)
    (hs : s = welcomed ∨ ∃ old, s = proposed old) :
    apply env512 orders (offering ts) s = .ok (proposed ts) := by
  have hne := annChange_ne ts
  rw [apply_offering hts,update_proposed hs]
  · obtain rfl | ⟨old,rfl⟩ := hs
    · exact participant_welcomed
    · exact (Function.update_of_ne hne ..).trans participant_welcomed
  · obtain rfl | ⟨old,rfl⟩ := hs
    · have hnone : welcomed (offerChange ts).address = none := by
        rw [welcomed,Function.update_of_ne hne.symm]
        rfl
      intro c hc
      exact nomatch hnone.symm.trans hc
    · have hold : proposed old (offerChange ts).address = some (offerChange old).value :=
        Function.update_self ..
      intro c hc
      exact ⟨old,(Option.some.inj (hold.symm.trans hc)).symm⟩

/-- The events of the block in which the proposal is made. -/
def offerEvents (num : String) (ts : Nat) : List StreamEvent :=
  [{ eventType := "sawtooth/block-commit"
     attributes := [("block_num",num),("block_id","b" ++ num),("state_root_hash","r")] },
   { eventType := "sawtooth/state-delta", stateChanges := [offerChange ts] }]

theorem getProtoName_offer (ts : Nat) : getProtoName (offerChange ts).address = .ok .Proposal :=
  @getProtoName_keyAddress sha512 (.proposalId "x") trivial

theorem getChanges_offer (num : String) (ts : Nat) :
    getChanges (offerEvents num ts) = [offerChange ts] := by
  have hoffer : hasPrefix (offerChange ts).address = true :=
    hasPrefix_keyAddress (.proposalId "x")
  change List.filter _ [offerChange ts] = _
  simp only [List.filter_cons,List.filter_nil,hoffer]
  rfl

/-- The proposal is made, again if it was made before. -/
theorem commits_offer {s : State} (num : String) {ts : Nat} {block : Block} (hts : ts ≠ 0)
    (hs : s = welcomed ∨ ∃ old, s = proposed old)
    (hblock : getBlock (offerEvents num ts) = some block) :
    Commits env512 s ⟨block,[offerChange ts]⟩ (proposed ts) := by
  obtain ⟨tx,_,hacc⟩ := accepted_of_apply (apply_proposed hts hs)
  have hchanged : ∀ A, A ≠ (offerChange ts).address → proposed ts A = s A := by
    intro A hA
    rw [← update_proposed hs]
    exact Function.update_of_ne hA ..
  refine ⟨_,offerEvents num ts,Run.nil.snoc hacc,⟨List.nodup_singleton _,fun c hc hours => ?_,
    fun A _ hA => ?_⟩,?_⟩
  · obtain rfl := List.mem_singleton.mp hc
    exact Function.update_self ..
  · refine ⟨offerChange ts,List.mem_singleton_self _,?_⟩
    by_contra hne
    exact hA (hchanged A (Ne.symm hne))
  · rw [handleEvent,hblock,getChanges_offer]
    rfl

/-- The block in which Ann makes the proposal. -/
def offerDelta (n : Nat) (id : String) (h : id ≠ "" ∧ n < MAX_SAFE_INTEGER) : Delta :=
  ⟨⟨n,id,"r",h.2,h.1⟩,[offerChange n]⟩

/-- Ann joins in block 1, and makes the proposal in the blocks 2 and 3. -/
def offers : List (State × Delta) :=
  [(proposed 2,offerDelta 3 "b3" (by decide)),(welcomed,offerDelta 2 "b2" (by decide)),
    (State.empty,welcomeDelta)]

/-- She makes it once more in block 4. -/
def moreOffers : List (State × Delta) := (proposed 3,offerDelta 4 "b4" (by decide)) :: offers

theorem offers_chain : Run (Commits env512) State.empty offers (proposed 3) :=
  (welcome_chain.snoc (commits_offer "2" (by decide) (.inl rfl) rfl)).snoc
    (commits_offer "3" (by decide) (.inr ⟨2,rfl⟩) rfl)

theorem moreOffers_chain : Run (Commits env512) State.empty moreOffers (proposed 4) :=
  offers_chain.snoc (commits_offer "4" (by decide) (.inr ⟨3,rfl⟩) rfl)

theorem replay_offers : replay env512 orders [joining,offering 2,offering 3] State.empty =
    .ok (proposed 3) := by
  refine foldlM_cons_eq_ok.mpr ⟨_,apply_joining,?_⟩
  refine foldlM_cons_eq_ok.mpr ⟨_,apply_proposed (by decide) (.inl rfl),?_⟩
  refine foldlM_cons_eq_ok.mpr ⟨_,apply_proposed (by decide) (.inr ⟨2,rfl⟩),?_⟩
  exact foldlM_nil_eq_ok.mpr rfl

theorem distinct_offers : DistinctAddresses env512 (proposed 3) :=
  replay_distinctAddresses replay_offers List.nodup_nil

theorem distinct_moreOffers : DistinctAddresses env512 (proposed 4) :=
  replay_distinctAddresses
    (replay_snoc replay_offers (@apply_proposed _ 4 (by decide) (.inr ⟨3,rfl⟩)))
    List.nodup_nil

theorem single_offer (n : Nat) (id : String) (h : id ≠ "" ∧ n < MAX_SAFE_INTEGER) :
    Single (offerDelta n id h) (.proposal (offered n).toObject) := by
  refine single_of_change (getProtoName_offer n) nofun ?_ rfl
  rw [getEntries,getProtoName_offer]
  rfl

/-- The database when block 3 was the last one. -/
def offeredDb : Db :=
  let second := addEntry (.proposal (offered 2).toObject) 2 annDb
  let third := addEntry (.proposal (offered 3).toObject) 3 second
  { third with
    blocks := [welcomeBlock,(offerDelta 2 "b2" (by decide)).block,
      (offerDelta 3 "b3" (by decide)).block] }

theorem arrives_offers : Arrives (announced offers) ⟨[],.idle,[],offeredDb⟩ :=
  (arrives_welcome.inserted (single_offer 2 _ _) (by decide)).inserted (single_offer 3 _ _)
    (by decide)

/-- The write of block 4 is there already. -/
def earlyDb : Db := addEntry (.proposal (offered 4).toObject) 4 offeredDb

theorem arrives_moreOffers : Arrives (announced moreOffers)
    ⟨[],.waiting (offerDelta 4 "b4" (by decide)).block [],[],earlyDb⟩ :=
  arrives_offers.sent (single_offer 4 "b4" (by decide))

theorem inFlight_early :
    InFlight earlyDb 3 (.proposalId "x") ∧ ¬InFlight earlyDb 3 (.publicKey "A") := by
  have hdocs : (earlyDb.docs (.proposalId "x")).map Version.startNum = [2,3,4] ∧
      (earlyDb.docs (.publicKey "A")).map Version.startNum = [1] := by decide +kernel
  constructor
  · have hmem : 4 ∈ (earlyDb.docs (.proposalId "x")).map Version.startNum := by
      rw [hdocs.1]
      decide
    obtain ⟨doc,hdoc,hn⟩ := List.mem_map.mp hmem
    exact ⟨doc,hdoc,by omega⟩
  · rintro ⟨doc,hdoc,hn⟩
    have hmem := List.mem_map_of_mem (f := Version.startNum) hdoc
    rw [hdocs.2,List.mem_singleton] at hmem
    omega

/-- Of the blocks up to the third one, two made the proposal. -/
theorem rewrites_offers {before : List (State × Delta)} (hbefore : before <:+ moreOffers)
    (hnum : (announced before).head?.map Delta.num = some 3) :
    rewrites (announced before) (.proposalId "x") = 2 := by
  simp only [moreOffers,offers,List.suffix_cons_iff,List.suffix_nil] at hbefore
  obtain rfl | rfl | rfl | rfl | rfl := hbefore
  · exact absurd hnum (by decide)
  · have hwelcome : welcomeDelta.entryOf (.proposalId "x") = none := single_welcome.entryOf _
    have hoffer : ∀ n id h, ((offerDelta n id h).entryOf (.proposalId "x")).isSome := fun n id h =>
      congrArg Option.isSome ((single_offer n id h).entryOf _)
    simp [rewrites,announced,hoffer,hwelcome]
  · exact absurd hnum (by decide)
  · exact absurd hnum (by decide)
  · exact absurd hnum (by decide)

end Sample

theorem idle_mirrors_offers : ∃ q : Sync, q.phase = .idle ∧
    Mirrors (ledger Sample.env512 (Sample.proposed 3)) q.db 3 := by
  obtain ⟨h,hrun,hreceived,hsafe⟩ := Sample.arrives_offers
  have hinc : Increasing (announced Sample.offers) := by
    rw [Increasing]
    decide
  exact ⟨_,rfl,idle_mirrors rfl Sample.offers_chain Sample.distinct_offers hinc hrun hreceived
    hsafe rfl rfl⟩

/-- While block 4 is written, Ann is shown as the ledger has her, and her proposal is not. -/
theorem snapshot_iff_offers : ∃ (q : Sync) (m : State), currentBlock q.db = some 3 ∧
    shown q.db 3 (.publicKey "A") =
      ((ledger Sample.env512 m).document (.publicKey "A")).toList ∧
    shown q.db 3 (.proposalId "x") ≠
      ((ledger Sample.env512 m).document (.proposalId "x")).toList := by
  obtain ⟨h,hrun,hreceived,hsafe⟩ := Sample.arrives_moreOffers
  have hinc : Increasing (announced Sample.moreOffers) := by
    rw [Increasing]
    decide
  obtain ⟨before,m,hbefore,_,hnum,hshown,_⟩ := snapshot_iff (n := 3) rfl Sample.moreOffers_chain
    Sample.distinct_moreOffers hinc hrun hreceived hsafe rfl
  refine ⟨_,m,rfl,(hshown _).mpr fun hflight => absurd hflight Sample.inFlight_early.2,
    fun heq => ?_⟩
  have hone := (hshown _).mp heq Sample.inFlight_early.1
  rw [Sample.rewrites_offers hbefore hnum] at hone
  exact absurd hone (by decide)

end DgcRestApi.LedgerSync
