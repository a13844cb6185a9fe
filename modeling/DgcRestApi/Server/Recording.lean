import DgcRestApi.Server.Matching
import DgcRestApi.Server.Symmetry

/-!
# Recording a match

One of the two answers of a match carries its exchange: the first, which closes the document, or
the second, which closes the order and takes the exchange from the object that all matches share.
A match that uses up the order but not its document is therefore recorded as it is in every run
exactly if nothing else is exchanged.
-/

namespace DgcRestApi.Server

/-- The exchange of a match, with the matched quantity. -/
def Match.quoted (m : Match) (balance : ℚ) : ExchangeObject :=
  m.exchange.priced (some (min balance m.doc.balance)) m.exchangeRate

/-- The answers of each match that is finished carry its exchange and no other. -/
def Recorded (balance : ℚ) (t : Trade) : Prop :=
  ∀ m a b, ⟨m,.finished a b⟩ ∈ t.tasks → a.exchanges ++ b.exchanges = [m.quoted balance]

/-- If one document has more left than the order, the other has nothing left. -/
def Apart (balance : ℚ) (c c' : Proposal) : Prop :=
  (balance < c.balance → c'.balance = 0) ∧ (balance < c'.balance → c.balance = 0)

theorem Apart.symm {balance : ℚ} {c c' : Proposal} (h : Apart balance c c') :
    Apart balance c' c := ⟨h.2,h.1⟩

/-- What a match keeps of its exchange. -/
structure Keeps (balance : ℚ) (m : Match) : Prop where
  below : m.branch = .below ↔ balance < m.doc.balance
  counter : m.counter.exchanges = if m.branch = .below then [] else [m.quoted balance]

section Answers

variable {side : Side} {order o : Offer} {c : Proposal} {balance : ℚ} {m : Match} {timestamp : Nat}

theorem matchOffer_keeps (h : side.matchOffer timestamp order c = some m)
    (hbalance : order.balance = some balance) : Keeps balance m := by
  obtain ⟨rate,balance',_,hbalance',_,rfl⟩ := matchOffer_eq_some.mp h
  obtain rfl := Option.some.inj (hbalance.symm.trans hbalance')
  rw [settle]
  split
  · next hlt =>
    refine ⟨iff_of_false (by simp) hlt.not_gt,?_⟩
    rw [if_neg (by simp),Match.quoted,min_eq_right hlt.le]
    rfl
  · next hge =>
    split
    · next hlt => exact ⟨iff_of_true rfl hlt,rfl⟩
    · next hle =>
      refine ⟨iff_of_false (by simp) hle,?_⟩
      rw [if_neg (by simp),Match.quoted,min_eq_left (le_of_not_gt hge)]
      exact congrArg (fun b => [ExchangeObject.priced _ b _]) hbalance

theorem Keeps.first (h : Keeps balance m) :
    (m.firstAnswer side).exchanges = if m.branch = .below then [] else [m.quoted balance] := by
  rw [← h.counter,Match.firstAnswer]
  cases hb : m.branch with
  | below =>
    have hempty := h.counter
    rw [if_pos hb] at hempty
    rw [hempty]
    cases side <;> rfl
  | above | level => cases side <;> rfl

theorem secondAnswer_exchanges :
    (m.secondAnswer side o).exchanges = if m.branch = .above then [] else o.exchanges := by
  rw [Match.secondAnswer]
  cases m.branch <;> cases side <;> rfl

theorem resume_exchanges : (m.resume o).exchanges =
    if m.branch = .below then [m.exchange.priced o.balance m.exchangeRate] else o.exchanges := by
  rw [Match.resume]
  cases m.branch <;> rfl

end Answers

/-- The chain has written to the object of the order. -/
def Progress.Wrote : Progress → Prop
  | .mapped | .answered _ => False
  | .resumed _ | .finished _ _ => True

/-- The object of the order holds the exchange of its only match that uses the order up, from
when that match has written to it. -/
structure Held (balance : ℚ) (t : Trade) : Prop where
  empty : (∀ x ∈ t.tasks, x.found.branch = .below → ¬x.progress.Wrote) → t.order.exchanges = []
  untouched : ∀ x ∈ t.tasks, x.found.branch = .below → ¬x.progress.Wrote →
    t.order.balance = some balance
  wrote : ∀ x ∈ t.tasks, x.found.branch = .below → x.progress.Wrote →
    t.order.exchanges = [x.found.quoted balance]
  second : ∀ x ∈ t.tasks, ∀ b, x.progress.second = some b →
    b.exchanges = if x.found.branch = .below then [x.found.quoted balance] else []

section Steps

variable {side : Side} {order : Offer} {balance : ℚ} {m : Match} {p p' : Progress} {t t' : Trade}
variable {before after : List Task} {e : TradeEvent}

theorem apart_middle (h : ((before ++ ⟨m,p⟩ :: after).map fun x => x.found.doc).Pairwise
    (Apart balance)) : ∀ x ∈ before ++ after, Apart balance m.doc x.found.doc := by
  have hperm : (before ++ ⟨m,p⟩ :: after).Perm (⟨m,p⟩ :: (before ++ after)) := List.perm_middle
  have hcons := ((hperm.map fun x => x.found.doc).pairwise_iff Apart.symm).mp h
  rw [List.map_cons,List.pairwise_cons] at hcons
  exact fun x hx => hcons.1 _ (List.mem_map_of_mem hx)

/-- A step of a chain that does not write to the object of the order. -/
theorem Held.advance (h : Held balance t) (hs : t.tasks = before ++ ⟨m,p⟩ :: after)
    (hwrote : p'.Wrote ↔ p.Wrote) (hsecond : ∀ b, p'.second = some b →
      b.exchanges = if m.branch = .below then [m.quoted balance] else []) :
    Held balance { t with tasks := before ++ ⟨m,p'⟩ :: after } := by
  obtain ⟨hempty,huntouched,hwrites,hbuilt⟩ := h
  rw [hs] at hempty huntouched hwrites hbuilt
  rw [forall_mem_middle] at hempty huntouched hwrites hbuilt
  refine ⟨fun hall => hempty ?_,forall_mem_middle.mpr ⟨?_,huntouched.2⟩,
    forall_mem_middle.mpr ⟨?_,hwrites.2⟩,forall_mem_middle.mpr ⟨hsecond,hbuilt.2⟩⟩
  · rw [forall_mem_middle] at hall
    exact ⟨fun hb hp => hall.1 hb (hwrote.mpr hp),hall.2⟩
  · exact fun hb hp => huntouched.1 hb fun hp' => hp (hwrote.mpr hp')
  · exact fun hb hp => hwrites.1 hb (hwrote.mp hp)

theorem Held.resume {a : Answer} (h : Held balance t)
    (hs : t.tasks = before ++ ⟨m,.answered a⟩ :: after)
    (hfound : ∀ x ∈ t.tasks, Found side order balance x.found ∧ Keeps balance x.found)
    (hapart : (t.tasks.map fun x => x.found.doc).Pairwise (Apart balance)) :
    Held balance ⟨m.resume t.order,before ++ ⟨m,.resumed a⟩ :: after⟩ := by
  obtain ⟨hempty,huntouched,hwrites,hbuilt⟩ := h
  rw [hs] at hempty huntouched hwrites hbuilt hfound hapart
  have hdocs := apart_middle hapart
  rw [forall_mem_middle] at hempty huntouched hwrites hbuilt hfound
  obtain ⟨⟨hm,hkeeps⟩,hothers⟩ := hfound
  by_cases hb : m.branch = .below
  · -- the other documents have nothing left
    have hlt := hkeeps.below.mp hb
    have hother : ∀ x ∈ before ++ after, x.found.branch ≠ .below := by
      intro x hx hbelow
      have hzero := (hdocs x hx).1 hlt
      have hpos := ((hothers x hx).2.below.mp hbelow).trans_eq hzero
      exact hpos.not_gt hm.pos
    have hown : t.order.balance = some balance := huntouched.1 hb not_false
    refine ⟨fun hall => absurd trivial ((forall_mem_middle.mp hall).1 hb),
      forall_mem_middle.mpr ⟨fun _ hp => absurd trivial hp,fun x hx hbelow => ?_⟩,
      forall_mem_middle.mpr ⟨fun _ _ => ?_,fun x hx hbelow => ?_⟩,
      forall_mem_middle.mpr ⟨nofun,hbuilt.2⟩⟩
    · exact absurd hbelow (hother x hx)
    · rw [resume_exchanges,if_pos hb,hown,Match.quoted,min_eq_left hlt.le]
    · exact absurd hbelow (hother x hx)
  · have hsame : (m.resume t.order).exchanges = t.order.exchanges := by
      rw [resume_exchanges,if_neg hb]
    refine ⟨fun hall => hsame.trans (hempty ⟨fun hbelow => absurd hbelow hb,
        (forall_mem_middle.mp hall).2⟩),
      forall_mem_middle.mpr ⟨fun hbelow => absurd hbelow hb,fun x hx hbelow hp => ?_⟩,
      forall_mem_middle.mpr ⟨fun hbelow => absurd hbelow hb,fun x hx hbelow hp => ?_⟩,
      forall_mem_middle.mpr ⟨nofun,hbuilt.2⟩⟩
    · -- the document of this match has nothing left, so the balance is not changed
      have hzero := (hdocs x hx).2 ((hothers x hx).2.below.mp hbelow)
      have habove : m.doc.balance < balance := hzero.trans_lt hm.pos
      rw [(hm.resume_above habove _).2,huntouched.2 x hx hbelow hp,hzero,Option.map_some,sub_zero]
    · exact hsame.trans (hwrites.2 x hx hbelow hp)

theorem Held.step (h : Held balance t)
    (hfound : ∀ x ∈ t.tasks, Found side order balance x.found ∧ Keeps balance x.found)
    (hapart : (t.tasks.map fun x => x.found.doc).Pairwise (Apart balance))
    (hstep : TradeStep side t e t') : Held balance t' := by
  cases hstep with
  | first hs => exact h.advance hs Iff.rfl nofun
  | resume hs => exact h.resume hs hfound hapart
  | @second before after m a hs =>
    refine h.advance hs Iff.rfl fun b hb => ?_
    obtain rfl : m.secondAnswer side t.order = b := Option.some.inj hb
    obtain ⟨hempty,_,hwrites,_⟩ := h
    rw [hs] at hempty hwrites hfound hapart
    have hdocs := apart_middle hapart
    rw [forall_mem_middle] at hempty hwrites hfound
    obtain ⟨⟨hm,_⟩,hothers⟩ := hfound
    rw [secondAnswer_exchanges]
    by_cases hb : m.branch = .below
    · rw [if_pos hb,if_neg (by simp [hb])]
      exact hwrites.1 hb trivial
    · rw [if_neg hb,ite_eq_left_iff]
      intro habove
      -- a match that uses the order up would be the only one with something to exchange
      refine hempty ⟨fun hbelow => absurd hbelow hb,fun x hx hbelow _ => habove ?_⟩
      have hzero := (hdocs x hx).2 ((hothers x hx).2.below.mp hbelow)
      exact hm.above.mpr (hzero.trans_lt hm.pos)

end Steps

section Runs

variable {side : Side} {balance : ℚ} {ms : List Match} {m m' : Match} {s t : Trade}
variable {h : List (Trade × TradeEvent)} {before after : List Task}

theorem run_held (hs : s.tasks = ms.map fun m => ⟨m,.mapped⟩) (hempty : s.order.exchanges = [])
    (hfound : ∀ m ∈ ms, Found side s.order balance m ∧ Keeps balance m)
    (hapart : (ms.map Match.doc).Pairwise (Apart balance)) (hr : Run (TradeStep side) s h t) :
    t.tasks.map Task.found = ms ∧ Held balance t := by
  have hms : s.tasks.map Task.found = ms := by
    rw [hs,List.map_map]
    exact List.map_id ms
  have hstart : Held balance s := by
    constructor
    · exact fun _ => hempty
    · intro x hx _ _
      exact (hfound _ (hms ▸ List.mem_map_of_mem hx)).1.orderBalance
    · intro x hx _ hwrote
      rw [hs] at hx
      obtain ⟨_,_,rfl⟩ := List.mem_map.mp hx
      exact hwrote.elim
    · intro x hx b hb
      rw [hs] at hx
      obtain ⟨_,_,rfl⟩ := List.mem_map.mp hx
      cases hb
  refine hr.invariant (fun u => u.tasks.map Task.found = ms ∧ Held balance u)
    (fun u _ u' hu hstep => ⟨hstep.found.trans hu.1,
      @Held.step side s.order _ _ _ _ hu.2 (fun x hx => ?_) ?_ hstep⟩) ⟨hms,hstart⟩
  · exact hfound _ (hu.1 ▸ List.mem_map_of_mem hx)
  · rw [← hu.1,List.map_map] at hapart
    exact hapart

theorem recorded_of_apart (hs : s.tasks = ms.map fun m => ⟨m,.mapped⟩)
    (hempty : s.order.exchanges = [])
    (hfound : ∀ m ∈ ms, Found side s.order balance m ∧ Keeps balance m)
    (hapart : (ms.map Match.doc).Pairwise (Apart balance)) (hr : Run (TradeStep side) s h t) :
    Recorded balance t := by
  intro m a b hm
  obtain ⟨hms,hheld⟩ := run_held hs hempty hfound hapart hr
  have hmapped : ∀ x ∈ s.tasks, x.progress = .mapped := by
    rw [hs]
    exact List.forall_mem_map.mpr fun _ _ => rfl
  obtain rfl : a = m.firstAnswer side := ((run_continues hmapped hr).built _ hm).first a rfl
  have hkeeps := (hfound m (hms ▸ List.mem_map_of_mem (f := Task.found) hm)).2
  rw [hkeeps.first,hheld.second _ hm b rfl]
  by_cases hb : m.branch = .below
  · rw [if_pos hb,if_pos hb,List.nil_append]
  · rw [if_neg hb,if_neg hb,List.append_nil]

/-- One chain may run after another has written to the object of the order. -/
theorem run_after (hs : s.tasks = before ++ ⟨m',.mapped⟩ :: after)
    (hm : ⟨m,.mapped⟩ ∈ before ++ after) : ∃ h t, Run (TradeStep side) s h t ∧
      ⟨m,.finished (m.firstAnswer side) (m.secondAnswer side (m.resume (m'.resume s.order)))⟩ ∈
        t.tasks := by
  obtain ⟨h₁,hr₁⟩ := @run_chain side s _ _ _ hs
  obtain ⟨p,hp⟩ : ∃ p, p = Progress.finished (m'.firstAnswer side)
    (m'.secondAnswer side (m'.resume s.order)) := ⟨_,rfl⟩
  rw [← hp] at hr₁
  have hmem : ⟨m,.mapped⟩ ∈ before ++ ⟨m',p⟩ :: after :=
    List.perm_middle.mem_iff.mpr (List.mem_cons_of_mem _ hm)
  obtain ⟨before',after',hsplit⟩ := List.append_of_mem hmem
  obtain ⟨h₂,hr₂⟩ := @run_chain side ⟨m'.resume s.order,before ++ ⟨m',p⟩ :: after⟩ _ _ _ hsplit
  exact ⟨_,_,hr₁.trans hr₂,List.mem_append_right _ List.mem_cons_self⟩

/-- A match that uses the order up records what another one has left of it. -/
theorem zero_of_recorded (hm : Keeps balance m) (hm' : Found side s.order balance m')
    (hs : s.tasks = before ++ ⟨m',.mapped⟩ :: after) (hmem : ⟨m,.mapped⟩ ∈ before ++ after)
    (hall : ∀ h t, Run (TradeStep side) s h t → Recorded balance t)
    (hlt : balance < m.doc.balance) : m'.doc.balance = 0 := by
  obtain ⟨h,t,hr,hfinished⟩ := @run_after side _ _ _ _ _ hs hmem
  have hb := hm.below.mpr hlt
  have hrecorded := hall h t hr m _ _ hfinished
  rw [hm.first,if_pos hb,List.nil_append,secondAnswer_exchanges,if_neg (by simp [hb]),
    resume_exchanges,if_pos hb,Match.quoted,min_eq_left hlt.le,List.singleton_inj] at hrecorded
  have hbalance : (m'.resume s.order).balance = some balance :=
    congrArg ExchangeObject.lastDgcPrice hrecorded
  rcases lt_or_ge m'.doc.balance balance with habove | hge
  · rw [(hm'.resume_above habove _).2,hm'.orderBalance,Option.map_some,Option.some.injEq,
      sub_eq_self] at hbalance
    exact hbalance
  · rw [(hm'.resume_full hge _).2,Option.some.injEq] at hbalance
    exact absurd hbalance hm'.pos.ne

theorem apart_of_recorded (hs : s.tasks = ms.map fun m => ⟨m,.mapped⟩)
    (hfound : ∀ m ∈ ms, Found side s.order balance m ∧ Keeps balance m)
    (hall : ∀ h t, Run (TradeStep side) s h t → Recorded balance t) :
    (ms.map Match.doc).Pairwise (Apart balance) := by
  rw [List.pairwise_map,List.pairwise_iff_forall_sublist]
  intro m m' hsub
  obtain ⟨l,l',rfl,hm,hm'⟩ := List.cons_sublist_iff.mp hsub
  rw [List.singleton_sublist] at hm'
  have hmem : ∀ {n : Match} {ns : List Match}, n ∈ ns →
      (⟨n,.mapped⟩ : Task) ∈ ns.map fun m => ⟨m,.mapped⟩ := fun hn => List.mem_map_of_mem hn
  obtain ⟨_,hkeeps⟩ := hfound m (List.mem_append_left _ hm)
  obtain ⟨_,hkeeps'⟩ := hfound m' (List.mem_append_right _ hm')
  obtain ⟨hf,_⟩ := hfound m (List.mem_append_left _ hm)
  obtain ⟨hf',_⟩ := hfound m' (List.mem_append_right _ hm')
  rw [List.map_append] at hs
  constructor
  · obtain ⟨before,after,hsplit⟩ := List.append_of_mem (hmem hm')
    rw [hsplit,← List.append_assoc] at hs
    exact zero_of_recorded hkeeps hf' hs
      (List.mem_append_left _ (List.mem_append_left _ (hmem hm))) hall
  · obtain ⟨before,after,hsplit⟩ := List.append_of_mem (hmem hm)
    rw [hsplit,List.append_assoc,List.cons_append] at hs
    exact zero_of_recorded hkeeps' hf hs
      (List.mem_append_right _ (List.mem_append_right _ (hmem hm'))) hall

end Runs

section Trades

variable {side : Side} {params : Params} {timestamp : Nat} {own : Proposal} {arrived : Bool}
variable {counters : List Proposal}

theorem trade_exchanges :
    (side.trade params timestamp own arrived counters).order.exchanges = [] := by
  rw [trade_order]
  split
  · exact newOrder_ids.2
  · exact newOrder_ids.2

end Trades

/-- Every match is recorded once, as it is, whatever the chains do, exactly if a matched document
with more left than the order is matched with nothing beside it but documents that have nothing
left. -/
theorem matches_recorded_iff (side : Side) (params : Params) (timestamp : Nat) (own : Proposal)
    (arrived : Bool) (counters : List Proposal) :
    (∀ h t, Run (TradeStep side) (side.trade params timestamp own arrived counters) h t →
      Recorded own.balance t) ↔
    (side.matched own arrived counters).Pairwise (Apart own.balance) := by
  obtain ⟨ms,hms⟩ : ∃ ms, ms = counters.filterMap (side.matchOffer timestamp
    (side.trade params timestamp own arrived counters).order) := ⟨_,rfl⟩
  have hs : (side.trade params timestamp own arrived counters).tasks =
      ms.map fun m => ⟨m,.mapped⟩ := hms ▸ rfl
  have hfound : ∀ m ∈ ms,
      Found side (side.trade params timestamp own arrived counters).order own.balance m ∧
        Keeps own.balance m := by
    intro m hm
    have hf := mem_trade (hs ▸ List.mem_map_of_mem hm)
    obtain ⟨c,_,hc⟩ := List.mem_filterMap.mp (hms ▸ hm)
    exact ⟨hf,matchOffer_keeps hc hf.orderBalance⟩
  have hdocs : side.matched own arrived counters = ms.map Match.doc := by
    rw [← @trade_docs side params timestamp own arrived counters,hs,List.map_map]
    rfl
  rw [hdocs]
  constructor
  · exact apart_of_recorded hs hfound
  · exact fun hapart h t hr => recorded_of_apart hs trade_exchanges hfound hapart hr

end DgcRestApi.Server
