import DgcRestApi.LedgerSync.Redelivery

/-!
# Forks

A block whose number is in the blocks table under another id is the first block of a new
chain. Its entries are stored first and the fork is resolved afterwards: in six tables the
clean-up deletes the documents from that number on, the new ones included, and reopens all
older documents of every key that was written since; the exchanges are not cleaned up.
-/

namespace DgcRestApi.LedgerSync
open Versions Fallible

/-- The property that a page of the first block of a new chain is to be converted with. -/
def newProperty (db₀ : Db) (d : Delta) (e : Entry) : Option Property :=
  e.propertyKey.bind fun k =>
    ((d.entryOf k).or (shown db₀ (d.num - 1) k).head?).bind Entry.toProperty

/-- What the new chain holds for a key at its first block: the entry of the block, or what
the old chain held just before, in the database `db₀`. -/
def newChain (db₀ : Db) (d : Delta) (k : Key) : List Entry :=
  match d.entryOf k with
  | some e => [e.convert (newProperty db₀ d e)]
  | none => shown db₀ (d.num - 1) k

/-- Some block after number `n` holds the key. -/
def WrittenAfter (ds : List Delta) (n : Nat) (k : Key) : Prop := ∃ d ∈ ds, n < d.num ∧ d.Holds k

/-- The entries of a key in the order in which they were written. -/
def Db.written (db : Db) (k : Key) : List Entry := (db.docs k).map Version.body

/-- When the clean-up leaves a key on the new chain. The old chain `ds` reached `db₀` before
its block `old`, in whose place `d` comes. -/
def Kept (ds : List Delta) (db₀ : Db) (old d : Delta) (k : Key) : Prop :=
  match d.entryOf k with
  | some e =>
    if k.table = .exchanges then
      ¬WrittenAfter ds d.num k → ∀ e₀, old.entryOf k = some e₀ → e₀ = e
    else db₀.written k = [e.convert (newProperty db₀ d e)]
  | none =>
    if k.table = .exchanges then
      (WrittenAfter ds d.num k → ¬old.Holds k ∧ (db₀.written k).length ≤ 1) ∧
        (¬WrittenAfter ds d.num k → ∀ e₀, old.entryOf k = some e₀ →
          (db₀.written k).getLast? = some e₀)
    else WrittenAfter ds d.num k ∨ old.Holds k → (db₀.written k).length ≤ 1

section Logs

variable {sha : Sha512} {h h₂ : List (Db × Delta)} {ds : List Delta} {k : Key} {m db db₀ : Db}
variable {old : Delta}

/-- From a synced database on the logs grow by the writes of the deltas that follow. -/
theorem logs_grow (hm : Synced ds m) (hr : Run Handled m h₂ db)
    (hinc : Increasing (deltas h₂ ++ ds)) (hwf : ∀ d ∈ deltas h₂, d.WellFormed sha) :
    Synced (deltas h₂ ++ ds) db ∧ ∀ k, ∃ later, db.log k = m.log k ++ later ∧
      (∀ w ∈ later, ∃ d ∈ deltas h₂, d.num = w.1) ∧
      (later = [] ↔ ∀ d ∈ deltas h₂, ¬d.Holds k) := by
  induction hr with
  | nil =>
    exact ⟨hm,fun k => ⟨[],(List.append_nil _).symm,List.forall_mem_nil _,
      iff_of_true rfl (List.forall_mem_nil _)⟩⟩
  | @snoc h₂ a b d hr hd ih =>
    obtain ⟨hnew,hinc⟩ := List.pairwise_cons.mp hinc
    obtain ⟨hd',hwf⟩ := List.forall_mem_cons.mp hwf
    obtain ⟨hs,hlogs⟩ := ih hinc hwf
    obtain ⟨_,_,hother,hwrite⟩ := hd.logs hs hd' hnew
    refine ⟨hs.step hd hd' hnew,fun k => ?_⟩
    obtain ⟨later,hlog,hnums,hnil⟩ := hlogs k
    have hnums' : ∀ w ∈ later, ∃ d' ∈ d :: deltas h₂, d'.num = w.1 := fun w hw => by
      obtain ⟨d',hd',hn⟩ := hnums w hw
      exact ⟨d',List.mem_cons_of_mem _ hd',hn⟩
    by_cases hk : d.Holds k
    · obtain ⟨e,he⟩ := hk.entry
      obtain ⟨p,_,hdocs⟩ := hwrite k e he
      refine ⟨later ++ [(d.num,e.convert p)],?_,?_,?_⟩
      · rw [log_of_docs hdocs,hlog,List.append_assoc]
      · intro w hw
        rcases List.mem_append.mp hw with hw | hw
        · exact hnums' w hw
        · rw [List.mem_singleton.mp hw]
          exact ⟨d,List.mem_cons_self,rfl⟩
      · exact iff_of_false (by simp) fun hall => hall d List.mem_cons_self hk
    · refine ⟨later,?_,hnums',?_⟩
      · rw [Db.log,hother k hk]
        exact hlog
      · rw [hnil]
        exact ⟨fun hall => List.forall_mem_cons.mpr ⟨hk,hall⟩,
          fun hall => (List.forall_mem_cons.mp hall).2⟩

/-- What the log of a key consists of: the writes before a block, the write of the block and
the writes after it. -/
structure Parts (ds : List Delta) (db₀ : Db) (old : Delta) (k : Key) (db : Db)
    (now later : List (Nat × Entry)) : Prop where
  docs₀ : db₀.docs k = spans MAX_SAFE_INTEGER (db₀.log k)
  docs : db.docs k = spans MAX_SAFE_INTEGER (db₀.log k ++ (now ++ later))
  past : ∀ w ∈ db₀.log k, w.1 < old.num
  now_eq : now = [] ∧ ¬old.Holds k ∨ ∃ e p, old.entryOf k = some e ∧ now = [(old.num,e.convert p)]
  later_gt : ∀ w ∈ later, old.num < w.1 ∧ w.1 < MAX_SAFE_INTEGER
  after : later ≠ [] ↔ WrittenAfter ds old.num k

theorem parts (hwf : ∀ d ∈ deltas h, d.WellFormed sha) (hinc : Increasing (deltas h))
    (hr : Run Handled Db.empty h db) (hold : (db₀,old) ∈ h) (k : Key) :
    ∃ now later, Parts (deltas h) db₀ old k db now later := by
  obtain ⟨h₁,h₂,m,rfl,hr₁,hm,hr₂⟩ := hr.split hold
  have hdeltas : deltas (h₂ ++ (db₀,old) :: h₁) = deltas h₂ ++ old :: deltas h₁ := by
    simp [deltas]
  rw [hdeltas] at hwf hinc ⊢
  obtain ⟨_,hinc₁,hcross⟩ := List.pairwise_append.mp hinc
  obtain ⟨hnew,hinc₀⟩ := List.pairwise_cons.mp hinc₁
  have hwf₁ : ∀ d ∈ deltas h₁, d.WellFormed sha := fun d hd =>
    hwf d (List.mem_append_right _ (List.mem_cons_of_mem _ hd))
  have hwf₂ : ∀ d ∈ deltas h₂, d.WellFormed sha := fun d hd => hwf d (List.mem_append_left _ hd)
  have hwf₀ : old.WellFormed sha := hwf old (List.mem_append_right _ List.mem_cons_self)
  have hs₁ : Synced (deltas h₁) db₀ := synced hr₁ hinc₀ hwf₁
  obtain ⟨_,_,hother,hwrite⟩ := Handled.logs hs₁ hm hwf₀ hnew
  obtain ⟨hs,hlogs⟩ := logs_grow (hs₁.step hm hwf₀ hnew) hr₂ hinc hwf₂
  obtain ⟨later,hlog,hnums,hnil⟩ := hlogs k
  have hpast : ∀ w ∈ db₀.log k, w.1 < old.num := by
    intro w hw
    obtain ⟨d,hd,_,hn⟩ := hs₁.past k w hw
    exact hn ▸ hnew d hd
  have hlater : ∀ w ∈ later, old.num < w.1 ∧ w.1 < MAX_SAFE_INTEGER := by
    intro w hw
    obtain ⟨d,hd,hn⟩ := hnums w hw
    exact hn ▸ ⟨hcross d hd old List.mem_cons_self,d.num_lt⟩
  have hafter : later ≠ [] ↔ WrittenAfter (deltas h₂ ++ old :: deltas h₁) old.num k := by
    rw [Ne,hnil]
    simp only [not_forall,not_not,exists_prop]
    constructor
    · rintro ⟨d,hd,hk⟩
      exact ⟨d,List.mem_append_left _ hd,hcross d hd old List.mem_cons_self,hk⟩
    · rintro ⟨d,hd,hlt,hk⟩
      rcases List.mem_append.mp hd with hd | hd
      · exact ⟨d,hd,hk⟩
      · rcases List.mem_cons.mp hd with rfl | hd
        · exact absurd hlt (Nat.lt_irrefl _)
        · exact absurd (hnew d hd) (Nat.lt_asymm hlt)
  by_cases hk : old.Holds k
  · obtain ⟨e,he⟩ := hk.entry
    obtain ⟨p,_,hdocs⟩ := hwrite k e he
    refine ⟨[(old.num,e.convert p)],later,hs₁.docs k,?_,hpast,Or.inr ⟨e,p,he,rfl⟩,hlater,hafter⟩
    rw [hs.docs,hlog,log_of_docs hdocs,List.append_assoc]
  · refine ⟨[],later,hs₁.docs k,?_,hpast,Or.inl ⟨rfl,hk⟩,hlater,hafter⟩
    rw [hs.docs,hlog,Db.log,hother k hk]
    rfl

end Logs

section Cleanup

variable {sha : Sha512} {h : List (Db × Delta)} {k : Key} {db db₀ db' : Db} {old d : Delta}

theorem insert_fork {block found : Block} (hfind :
    db.blocks.find? (fun b => b.blockNum = block.blockNum) = some found)
    (hid : found.blockId ≠ block.blockId) : insert block db = resolveFork block db := by
  have hne := found.blockId_ne
  rw [insert,insertBlock,hfind]
  simp [isFork,hne,hid]

/-- The documents of a key after the fork is handled. -/
theorem docs_fork (hwf : ∀ d ∈ deltas h, d.WellFormed sha) (hinc : Increasing (deltas h))
    (hr : Run Handled Db.empty h db) (hold : (db₀,old) ∈ h) (hd : d.WellFormed sha)
    (hnum : old.num = d.num) (hid : old.block.blockId ≠ d.block.blockId)
    (hrun : handle d.block d.changes db = .ok db') (k : Key) : ∃ vs,
      (db'.docs k = if k.table = .exchanges then vs else rewind MAX_SAFE_INTEGER d.num vs) ∧
      (¬d.Holds k → vs = db.docs k) ∧
      ∀ e, d.entryOf k = some e → ∃ p,
        vs = renew MAX_SAFE_INTEGER (e.convert p) d.num (db.docs k) := by
  have hs := synced hr hinc hwf
  obtain ⟨ops,db₁,hperm,hdone,rfl⟩ := handle_completes hrun
  have hkeys : (ops.map Op.key).Nodup := by
    rw [(hperm.map Op.key).nodup_iff]
    exact (keys_ops d).symm ▸ hd.keys
  have hsettled := (hdone.settled hkeys).perm hperm
  have hmem : old ∈ deltas h := List.mem_map_of_mem hold
  have hfind : db₁.blocks.find? (fun b => b.blockNum = d.block.blockNum) = some old.block := by
    rw [hsettled.blocks]
    exact (Keyed.find_eq_some_iff (blocks_distinct hs.blocks hinc)).mpr
      ⟨mem_blocks hs.blocks hmem,hnum⟩
  rw [insert_fork hfind hid]
  refine ⟨db₁.docs k,docs_resolveFork,fun hk => ?_,fun e he => ?_⟩
  · exact hsettled.other k (ops_key_ne hk)
  · obtain ⟨hmem,rfl⟩ := entryOf_eq_some he
    obtain ⟨e',he',_,hdocs⟩ := hsettled.written _ (List.mem_map_of_mem hmem)
    rw [key_stateAdder,num_stateAdder] at hdocs
    rw [entry_stateAdder,entry_stateAdder] at he'
    rcases he' with rfl | rfl
    · exact ⟨_,hdocs⟩
    · exact ⟨_,hdocs⟩

theorem written_eq (db : Db) (k : Key) : db.written k = (db.log k).map Prod.snd := by
  rw [Db.written,Db.log,List.map_map]
  rfl

theorem getLast?_written (db : Db) (k : Key) :
    (db.log k).getLast?.toList.map Prod.snd = (db.written k).getLast?.toList := by
  rw [written_eq,List.getLast?_map]
  cases (db.log k).getLast? <;> rfl

theorem eq_getLast? {α : Type} (l : List α) : l = l.getLast?.toList ↔ l.length ≤ 1 := by
  match l with
  | [] => simp
  | [a] => simp
  | a :: b :: l =>
    refine iff_of_false (fun heq => ?_) (by simp)
    have hlen := congrArg List.length heq
    rw [List.getLast?_eq_some_getLast (List.cons_ne_nil a _)] at hlen
    simp at hlen

theorem snoc_ne_getLast? {α : Type} (l : List α) (a : α) : l ++ [a] ≠ l.getLast?.toList := by
  intro heq
  have hlen := congrArg List.length heq
  cases l with
  | nil => simp at hlen
  | cons b l =>
    rw [List.getLast?_eq_some_getLast (List.cons_ne_nil b l)] at hlen
    simp at hlen

end Cleanup

section Keys

variable {k : Key} {db db₀ db' : Db} {old d : Delta} {e : Entry} {ds : List Delta}
variable {now later : List (Nat × Entry)} {vs : List Doc}

theorem Parts.not_before (hp : Parts ds db₀ old k db now later) (hnum : old.num = d.num) :
    ∀ w ∈ now ++ later, d.num ≤ w.1 := by
  intro w hw
  rw [← hnum]
  rcases List.mem_append.mp hw with hw | hw
  · rcases hp.now_eq with ⟨rfl,_⟩ | ⟨e,p,_,rfl⟩
    · exact absurd hw List.not_mem_nil
    · rw [List.mem_singleton.mp hw]
  · exact (hp.later_gt w hw).1.le

/-- No block from the fork on holds the key. -/
theorem Parts.nil_iff (hp : Parts ds db₀ old k db now later) :
    now ++ later = [] ↔ ¬WrittenAfter ds old.num k ∧ ¬old.Holds k := by
  rw [List.append_eq_nil_iff,and_comm,← hp.after,not_not]
  refine and_congr_right fun _ => ?_
  rcases hp.now_eq with ⟨rfl,hno⟩ | ⟨e,p,he,rfl⟩
  · exact iff_of_true rfl hno
  · have he := entryOf_eq_some he
    exact iff_of_false (List.cons_ne_nil _ _) fun hno => hno ⟨e,he⟩

/-- Just before the fork the old chain showed the last entry of the key. -/
theorem Parts.shown_before (hp : Parts ds db₀ old k db now later) (hnum : old.num = d.num) :
    shown db₀ (d.num - 1) k = (db₀.written k).getLast?.toList := by
  have htop := d.num_lt
  rw [shown_eq,hp.docs₀,visible_spans_last,getLast?_written]
  · intro w hw
    have := hp.past w hw
    omega
  · omega

/-- In a table that is cleaned up, an entry of the new block leaves what was written before. -/
theorem Parts.clean_new (hp : Parts ds db₀ old k db now later) (hnum : old.num = d.num)
    (hdocs : db'.docs k = rewind MAX_SAFE_INTEGER d.num
      (renew MAX_SAFE_INTEGER e d.num (db.docs k))) :
    shown db' d.num k = db₀.written k := by
  rw [shown_eq,hdocs,visible_rewind d.num_lt,hp.docs,
    reaching_renew (fun w hw => hnum ▸ hp.past w hw) (hp.not_before hnum),written_eq]

theorem Parts.clean_old (hp : Parts ds db₀ old k db now later) (hnum : old.num = d.num)
    (hdocs : db'.docs k = rewind MAX_SAFE_INTEGER d.num (db.docs k)) :
    shown db' d.num k = (db₀.written k).getLast?.toList ↔
      (WrittenAfter ds d.num k ∨ old.Holds k → (db₀.written k).length ≤ 1) := by
  have hpast : ∀ w ∈ db₀.log k, w.1 < d.num := fun w hw => hnum ▸ hp.past w hw
  have hnil := hp.nil_iff
  rw [hnum] at hnil
  rw [shown_eq,hdocs,visible_rewind d.num_lt,hp.docs]
  by_cases hrest : now ++ later = []
  · rw [hrest,List.append_nil,reaching_spans_old d.num_lt.le hpast,getLast?_written]
    obtain ⟨hafter,hold⟩ := hnil.mp hrest
    exact iff_of_true rfl fun hor => absurd hor (not_or.mpr ⟨hafter,hold⟩)
  · rw [reaching_spans hpast (hp.not_before hnum) hrest,← written_eq,eq_getLast?]
    have hor : WrittenAfter ds d.num k ∨ old.Holds k := by
      by_contra hno
      exact hrest (hnil.mpr (not_or.mp hno))
    exact ⟨fun hlen _ => hlen,fun hlen => hlen hor⟩

/-- An entry that is no page is written as it is decoded. -/
theorem convert_exchange (he : e.key = k) (hk : k.table = .exchanges) (p : Option Property) :
    e.convert p = e := by
  subst he
  cases e <;> first | rfl | cases hk

/-- The document of the old block is open exactly when the block wrote the key last. -/
theorem Parts.current_iff (hp : Parts ds db₀ old k db now later) (hnum : old.num = d.num) :
    Current MAX_SAFE_INTEGER d.num (db.docs k) ↔ now ≠ [] ∧ later = [] := by
  rw [hp.docs,← hnum]
  by_cases hlater : later = []
  · subst hlater
    rw [List.append_nil]
    rcases hp.now_eq with ⟨rfl,_⟩ | ⟨e,p,_,rfl⟩
    · rw [List.append_nil]
      refine iff_of_false ?_ fun h => h.1 rfl
      rintro ⟨v,hv,_,hs⟩
      have := hp.past _ (mem_spans hv)
      omega
    · rw [current_spans old.num_lt]
      exact iff_of_true rfl ⟨List.cons_ne_nil _ _,rfl⟩
  · obtain ⟨hlast,htop⟩ := hp.later_gt _ (List.getLast_mem hlater)
    rw [← List.dropLast_append_getLast hlater,← List.append_assoc,← List.append_assoc,
      current_spans htop]
    refine iff_of_false (fun heq => ?_) fun h => ?_
    · omega
    · simp at h

/-- An exchange of the new block is shown unless the old block wrote the key last: then its
document is kept. -/
theorem Parts.exchange_new (hp : Parts ds db₀ old k db now later) (hnum : old.num = d.num)
    (hk : k.table = .exchanges)
    (hdocs : db'.docs k = renew MAX_SAFE_INTEGER e d.num (db.docs k)) :
    shown db' d.num k = [e] ↔
      (¬WrittenAfter ds d.num k → ∀ e₀, old.entryOf k = some e₀ → e₀ = e) := by
  have hafter := hp.after
  have hcur := hp.current_iff hnum
  rw [hnum] at hafter
  rw [shown_eq,hdocs]
  by_cases hc : Current MAX_SAFE_INTEGER d.num (db.docs k)
  · obtain ⟨hnow,rfl⟩ := hcur.mp hc
    rcases hp.now_eq with ⟨rfl,_⟩ | ⟨e₁,p,he₁,rfl⟩
    · exact absurd rfl hnow
    · have hdocs := hp.docs
      rw [List.append_nil] at hdocs
      rw [renew,if_pos hc,hdocs,visible_spans hnum.le d.num_lt,List.map_singleton,
        convert_exchange (entryOf_eq_some he₁).2 hk,List.singleton_inj,he₁]
      have hno : ¬WrittenAfter ds d.num k := fun hw => absurd (hafter.mpr hw) (fun h => h rfl)
      exact ⟨fun h _ e₀ he₀ => Option.some.inj he₀ ▸ h,fun h => h hno e₁ rfl⟩
  · rw [visible_renew hc d.num_lt]
    refine iff_of_true rfl fun hno e₀ he₀ => ?_
    have hlater : later = [] := by
      by_contra h
      exact hno (hafter.mp h)
    rcases hp.now_eq with ⟨_,hnot⟩ | ⟨e₁,p,_,rfl⟩
    · exact absurd ⟨e₀,entryOf_eq_some he₀⟩ hnot
    · exact absurd (hcur.mpr ⟨List.cons_ne_nil _ _,hlater⟩) hc

theorem Parts.exchange_old (hp : Parts ds db₀ old k db now later) (hnum : old.num = d.num)
    (hk : k.table = .exchanges) (hdocs : db'.docs k = db.docs k) :
    shown db' d.num k = (db₀.written k).getLast?.toList ↔
      (WrittenAfter ds d.num k → ¬old.Holds k ∧ (db₀.written k).length ≤ 1) ∧
        (¬WrittenAfter ds d.num k → ∀ e₀, old.entryOf k = some e₀ →
          (db₀.written k).getLast? = some e₀) := by
  have hpast : ∀ w ∈ db₀.log k, w.1 ≤ d.num := fun w hw => hnum ▸ (hp.past w hw).le
  have hafter := hp.after
  rw [hnum] at hafter
  rw [shown_eq,hdocs,hp.docs]
  by_cases hlater : later = []
  · have hno : ¬WrittenAfter ds d.num k := fun hw => absurd hlater (hafter.mpr hw)
    subst hlater
    rw [List.append_nil]
    rcases hp.now_eq with ⟨rfl,hnot⟩ | ⟨e₁,p,he₁,rfl⟩
    · rw [List.append_nil,visible_spans_last hpast d.num_lt,getLast?_written]
      exact iff_of_true rfl ⟨fun hw => absurd hw hno,
        fun _ e₀ he₀ => absurd ⟨e₀,entryOf_eq_some he₀⟩ hnot⟩
    · rw [visible_spans hnum.le d.num_lt,List.map_singleton,
        convert_exchange (entryOf_eq_some he₁).2 hk,he₁]
      constructor
      · intro heq
        refine ⟨fun hw => absurd hw hno,fun _ e₀ he₀ => ?_⟩
        cases he₀
        exact (Option.toList_eq_singleton_iff.mp heq.symm)
      · intro h
        rw [h.2 hno e₁ rfl]
        rfl
  · have hyes := hafter.mp hlater
    have hgt : ∀ w ∈ later, d.num < w.1 := fun w hw => hnum ▸ (hp.later_gt w hw).1
    rcases hp.now_eq with ⟨rfl,hnot⟩ | ⟨e₁,p,he₁,rfl⟩
    · rw [List.nil_append,visible_spans_before hpast hgt hlater,← written_eq,eq_getLast?]
      exact ⟨fun hlen => ⟨fun _ => ⟨hnot,hlen⟩,fun hno => absurd hyes hno⟩,fun h => (h.1 hyes).2⟩
    · -- the document of the old block is shown next to those before it
      have hpast' : ∀ w ∈ db₀.log k ++ [(old.num,e₁.convert p)], w.1 ≤ d.num := by
        intro w hw
        rcases List.mem_append.mp hw with hw | hw
        · exact hpast w hw
        · rw [List.mem_singleton.mp hw]
          exact hnum.le
      rw [← List.append_assoc,visible_spans_before hpast' hgt hlater,List.map_append,← written_eq]
      refine iff_of_false (snoc_ne_getLast? _ _) fun h => ?_
      exact (h.1 hyes).1 ⟨e₁,entryOf_eq_some he₁⟩

end Keys

section Fork

variable {sha : Sha512} {h : List (Db × Delta)} {db db₀ db' : Db} {old d : Delta}

/-- Handling the first block of a new chain leaves every table on the new chain exactly when
every key is kept. -/
theorem fork_shows_new_chain_iff (hwf : ∀ d ∈ deltas h, d.WellFormed sha)
    (hinc : Increasing (deltas h)) (hr : Run Handled Db.empty h db) (hold : (db₀,old) ∈ h)
    (hd : d.WellFormed sha) (hnum : old.num = d.num)
    (hid : old.block.blockId ≠ d.block.blockId)
    (hrun : handle d.block d.changes db = .ok db') :
    (∀ k, shown db' d.num k = newChain db₀ d k) ↔ ∀ k, Kept (deltas h) db₀ old d k := by
  refine forall_congr' fun k => ?_
  obtain ⟨now,later,hp⟩ := parts hwf hinc hr hold k
  obtain ⟨vs,hdocs,hno,hyes⟩ := docs_fork hwf hinc hr hold hd hnum hid hrun k
  by_cases hk : k.table = .exchanges
  · rw [if_pos hk] at hdocs
    cases he : d.entryOf k with
    | some e =>
      obtain ⟨p,rfl⟩ := hyes e he
      have hkey := (entryOf_eq_some he).2
      rw [convert_exchange hkey hk] at hdocs
      simp only [newChain,Kept,he,if_pos hk,convert_exchange hkey hk]
      exact hp.exchange_new hnum hk hdocs
    | none =>
      rw [hno (entryOf_eq_none.mp he)] at hdocs
      simp only [newChain,Kept,he,if_pos hk]
      rw [hp.shown_before hnum]
      exact hp.exchange_old hnum hk hdocs
  · rw [if_neg hk] at hdocs
    cases he : d.entryOf k with
    | some e =>
      obtain ⟨p,rfl⟩ := hyes e he
      simp only [newChain,Kept,he,if_neg hk]
      rw [hp.clean_new hnum hdocs]
    | none =>
      rw [hno (entryOf_eq_none.mp he)] at hdocs
      simp only [newChain,Kept,he,if_neg hk]
      rw [hp.shown_before hnum]
      exact hp.clean_old hnum hdocs

end Fork

namespace Sample
open DgcRestApi.Sample

theorem entryOf_joined {n : Nat} {name : String} {h : n < MAX_SAFE_INTEGER ∧ name ≠ ""} (k : Key) :
    (joined n name h).entryOf k =
      if .publicKey "A" = k then some (.participant (ann name).toObject) else none := by
  rw [Delta.entryOf,entries_joined,List.find?_singleton]
  simp [Entry.key,Participant.toObject,ann]

/-- Block 2 of the sample chain is replaced by one in which Ann keeps her name. -/
theorem kept_joined (k : Key) : Kept (deltas renamed) (join 1 "Ann" (by decide) Db.empty)
    (joined 2 "Anna" (by decide)) (joined 2 "Ann" (by decide)) k := by
  rw [Kept,entryOf_joined]
  by_cases hk : .publicKey "A" = k
  · subst hk
    simp only [if_true]
    rfl
  · have hafter : ¬WrittenAfter (deltas renamed) (joined 2 "Ann" (by decide)).num k := by
      rintro ⟨d,hd,hlt,_⟩
      rcases List.mem_cons.mp hd with rfl | hd
      · exact absurd hlt (by decide)
      · rw [List.mem_singleton.mp hd] at hlt
        exact absurd hlt (by decide)
    have hold : ¬(joined 2 "Anna" (by decide)).Holds k := by
      rw [← entryOf_eq_none,entryOf_joined,if_neg hk]
    simp only [if_neg hk]
    split
    · exact ⟨fun h => absurd h hafter,fun _ e₀ he₀ => absurd ⟨e₀,entryOf_eq_some he₀⟩ hold⟩
    · exact fun h => absurd h (not_or.mpr ⟨hafter,hold⟩)

end Sample

theorem fork_shows_joined :
    shown (Sample.join 2 "Ann" (by decide) Sample.renamedDb) 2 (.publicKey "A") =
      newChain (Sample.join 1 "Ann" (by decide) Db.empty) (Sample.joined 2 "Ann" (by decide))
        (.publicKey "A") :=
  (fork_shows_new_chain_iff Sample.wellFormed_renamed Sample.increasing_renamed Sample.run_renamed
    List.mem_cons_self (Sample.wellFormed_joined 2 "Ann" _) rfl (by decide)
    (Sample.handle_joined 2 "Ann" _ _)).mpr Sample.kept_joined (.publicKey "A")

/-- A new block 2 in which Ann is called Annabel leaves the name from before block 2. -/
theorem fork_loses_name : Run Handled Db.empty Sample.renamed Sample.renamedDb ∧
    handle (Sample.joined 2 "Annabel" (by decide)).block
      (Sample.joined 2 "Annabel" (by decide)).changes Sample.renamedDb =
        .ok (Sample.join 2 "Annabel" (by decide) Sample.renamedDb) ∧
    newChain (Sample.join 1 "Ann" (by decide) Db.empty) (Sample.joined 2 "Annabel" (by decide))
      (.publicKey "A") = [.participant (Sample.ann "Annabel").toObject] ∧
    shown (Sample.join 2 "Annabel" (by decide) Sample.renamedDb) 2 (.publicKey "A") =
      [.participant (Sample.ann "Ann").toObject] := by
  refine ⟨Sample.run_renamed,Sample.handle_joined 2 "Annabel" _ _,?_,rfl⟩
  rw [newChain,Sample.entryOf_joined]
  rfl

end DgcRestApi.LedgerSync
