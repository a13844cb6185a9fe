import Mathlib.Data.List.Basic
import Mathlib.Data.List.Induction

/-!
# Versioned tables

A table that keeps every version of an object with the numbers between which it is valid.
Writing an object closes all versions of its key at the number of the write and adds one
that ends at `top`, unless the key has an open version of that very number. What a table
holds for one key is then given by the writes of the key: the last one is open, and all
others end where the last one starts.
-/

namespace Versions

structure Version (β : Type) where
  body : β
  startNum : Nat
  endNum : Nat
deriving DecidableEq

variable {β κ : Type} [DecidableEq κ] (key : β → κ) (top : Nat)

/-- The versions of one key. -/
def slice (i : κ) (table : List (Version β)) : List (Version β) :=
  table.filter fun v => key v.body = i

/-- End every version at `n`. -/
def close (n : Nat) (table : List (Version β)) : List (Version β) :=
  table.map fun v => { v with endNum := n }

/-- One of the versions is open and starts at `n`. -/
def Current (n : Nat) (vs : List (Version β)) : Prop := ∃ v ∈ vs, v.endNum = top ∧ v.startNum = n

instance (n : Nat) (vs : List (Version β)) : Decidable (Current top n vs) :=
  inferInstanceAs (Decidable (∃ v ∈ vs, _))

def put (b : β) (n : Nat) (table : List (Version β)) : List (Version β) :=
  if Current top n (slice key (key b) table) then table
  else table.map (fun v => if key v.body = key b then { v with endNum := n } else v) ++
    [⟨b,n,top⟩]

/-- What a write does to the versions of its own key. -/
def renew (b : β) (n : Nat) (vs : List (Version β)) : List (Version β) :=
  if Current top n vs then vs else close n vs ++ [⟨b,n,top⟩]

/-- The versions valid at `n`. -/
def visible (n : Nat) (table : List (Version β)) : List (Version β) :=
  table.filter fun v => v.startNum ≤ n ∧ n < v.endNum

/-- The versions that end at `top`. -/
def opened (table : List (Version β)) : List (Version β) := table.filter fun v => v.endNum = top

/-- Forget the versions from `n` on, and reopen those that reach `n`. -/
def rewind (n : Nat) (table : List (Version β)) : List (Version β) :=
  (table.filter fun v => v.startNum < n).map fun v =>
    if n ≤ v.endNum then { v with endNum := top } else v

/-- The versions that the writes of one key leave, oldest first. -/
def spans (writes : List (Nat × β)) : List (Version β) :=
  writes.foldl (fun vs w => close w.1 vs ++ [⟨w.2,w.1,top⟩]) []

variable {key top}

theorem mem_slice {i : κ} {table : List (Version β)} {v : Version β} :
    v ∈ slice key i table ↔ v ∈ table ∧ key v.body = i := by
  simp [slice]

theorem slice_append (i : κ) (table₁ table₂ : List (Version β)) :
    slice key i (table₁ ++ table₂) = slice key i table₁ ++ slice key i table₂ :=
  List.filter_append ..

theorem visible_slice (i : κ) (n : Nat) (table : List (Version β)) :
    slice key i (visible n table) = visible n (slice key i table) := by
  rw [slice,slice,visible,visible,List.filter_filter,List.filter_filter]
  exact List.filter_congr fun v _ => Bool.and_comm _ _

/-- A change that keeps the bodies acts on the versions of a key alone. -/
theorem slice_map {f : Version β → Version β} (hf : ∀ v, (f v).body = v.body) (i : κ)
    (table : List (Version β)) : slice key i (table.map f) = (slice key i table).map f := by
  rw [slice,slice,List.filter_map]
  congr 2
  funext v
  simp only [Function.comp_apply,hf]

theorem slice_rewind (i : κ) (n : Nat) (table : List (Version β)) :
    slice key i (rewind top n table) = rewind top n (slice key i table) := by
  rw [rewind,rewind,slice_map]
  · rw [slice,slice,List.filter_filter,List.filter_filter]
    congr 1
    exact List.filter_congr fun v _ => Bool.and_comm _ _
  · intro v
    split <;> rfl

section Writes

variable {b : β} {i : κ} {n : Nat} {table : List (Version β)}

theorem put_current (h : Current top n (slice key (key b) table)) :
    put key top b n table = table := if_pos h

theorem slice_put_aux (i : κ) (h : ¬Current top n (slice key (key b) table)) :
    slice key i (put key top b n table) =
      (slice key i table).map (fun v => if key v.body = key b then { v with endNum := n } else v) ++
        slice key i [⟨b,n,top⟩] := by
  rw [put,if_neg h,slice_append,slice_map]
  intro v
  split <;> rfl

/-- A write changes the versions of its own key only. -/
theorem slice_put_ne (hi : key b ≠ i) :
    slice key i (put key top b n table) = slice key i table := by
  by_cases h : Current top n (slice key (key b) table)
  · rw [put_current h]
  · have hnew : slice key i [(⟨b,n,top⟩ : Version β)] = [] := by simp [slice,hi]
    rw [slice_put_aux i h,hnew,List.append_nil]
    refine (List.map_congr_left fun v hv => ?_).trans (List.map_id _)
    rw [if_neg (by rw [(mem_slice.mp hv).2]; exact hi.symm)]
    rfl

theorem mem_put {v : Version β} (h : v ∈ put key top b n table) :
    v.body = b ∨ ∃ u ∈ table, u.body = v.body := by
  rw [put] at h
  split at h
  · exact Or.inr ⟨v,h,rfl⟩
  · rcases List.mem_append.mp h with h | h
    · obtain ⟨u,hu,rfl⟩ := List.mem_map.mp h
      refine Or.inr ⟨u,hu,?_⟩
      split <;> rfl
    · rw [List.mem_singleton.mp h]
      exact Or.inl rfl

theorem slice_put : slice key (key b) (put key top b n table) =
    renew top b n (slice key (key b) table) := by
  by_cases h : Current top n (slice key (key b) table)
  · rw [put_current h,renew,if_pos h]
  · have hnew : slice key (key b) [(⟨b,n,top⟩ : Version β)] = [⟨b,n,top⟩] := by simp [slice]
    rw [slice_put_aux _ h,hnew,renew,if_neg h,close]
    congr 1
    exact List.map_congr_left fun v hv => if_pos (mem_slice.mp hv).2

theorem renew_ne {vs : List (Version β)} (h : ¬Current top n vs) : renew top b n vs ≠ vs := by
  intro heq
  have hlen := congrArg List.length heq
  rw [renew,if_neg h,List.length_append,close,List.length_map,List.length_singleton] at hlen
  omega

end Writes

section Spans

variable {writes : List (Nat × β)} {w : Nat × β} {n : Nat}

theorem spans_snoc (writes : List (Nat × β)) (w : Nat × β) :
    spans top (writes ++ [w]) = close w.1 (spans top writes) ++ [⟨w.2,w.1,top⟩] := by
  rw [spans,List.foldl_append]
  rfl

/-- Closing forgets where the versions ended before. -/
theorem close_spans (writes : List (Nat × β)) (n : Nat) :
    close n (spans top writes) = writes.map fun w => ⟨w.2,w.1,n⟩ := by
  induction writes using List.reverseRecOn with
  | nil => rfl
  | append_singleton writes w ih =>
    rw [spans_snoc,List.map_append,← ih]
    simp [close]

/-- All versions but the last end where the last one starts. -/
theorem spans_last (writes : List (Nat × β)) (w : Nat × β) :
    spans top (writes ++ [w]) =
      (writes.map fun v => ⟨v.2,v.1,w.1⟩) ++ [⟨w.2,w.1,top⟩] := by
  rw [spans_snoc,close_spans]

theorem mem_spans {v : Version β} (h : v ∈ spans top writes) : (v.startNum,v.body) ∈ writes := by
  have hv : { v with endNum := 0 } ∈ close 0 (spans top writes) := List.mem_map.mpr ⟨v,h,rfl⟩
  rw [close_spans] at hv
  obtain ⟨u,hu,heq⟩ := List.mem_map.mp hv
  have hs : u.1 = v.startNum := congrArg Version.startNum heq
  have hb : u.2 = v.body := congrArg Version.body heq
  rw [← hs,← hb]
  exact hu

theorem writes_spans (writes : List (Nat × β)) :
    (spans top writes).map (fun v => (v.startNum,v.body)) = writes := by
  have hclose : (close 0 (spans top writes)).map (fun v => (v.startNum,v.body)) =
      (spans top writes).map fun v => (v.startNum,v.body) := by
    rw [close,List.map_map]
    rfl
  rw [← hclose,close_spans,List.map_map]
  exact List.map_id _

theorem exists_mem_spans (h : w ∈ writes) :
    ∃ v ∈ spans top writes, v.startNum = w.1 ∧ v.body = w.2 := by
  rw [← @writes_spans _ top writes] at h
  obtain ⟨v,hv,rfl⟩ := List.mem_map.mp h
  exact ⟨v,hv,rfl,rfl⟩

/-- A write with a greater number than all before adds a span. -/
theorem renew_spans (b : β) (h : ∀ w ∈ writes, w.1 < n) :
    renew top b n (spans top writes) = spans top (writes ++ [(n,b)]) := by
  rw [renew,if_neg,spans_snoc]
  rintro ⟨v,hv,_,rfl⟩
  exact Nat.lt_irrefl _ (h _ (mem_spans hv))

/-- From the last write on only the last version is valid. -/
theorem visible_spans (hn : w.1 ≤ n) (htop : n < top) :
    visible n (spans top (writes ++ [w])) = [⟨w.2,w.1,top⟩] := by
  have hold : visible n (writes.map fun v => (⟨v.2,v.1,w.1⟩ : Version β)) = [] := by
    rw [visible,List.filter_eq_nil_iff]
    intro v hv
    obtain ⟨u,_,rfl⟩ := List.mem_map.mp hv
    simp only [decide_eq_true_eq,not_and,Nat.not_lt]
    exact fun _ => hn
  rw [visible] at hold
  rw [spans_last,visible,List.filter_append,hold]
  simp [hn,htop]

theorem opened_spans (htop : w.1 < top) :
    opened top (spans top (writes ++ [w])) = [⟨w.2,w.1,top⟩] := by
  have hold : opened top (writes.map fun v => (⟨v.2,v.1,w.1⟩ : Version β)) = [] := by
    rw [opened,List.filter_eq_nil_iff]
    intro v hv
    obtain ⟨u,_,rfl⟩ := List.mem_map.mp hv
    simpa using Nat.ne_of_lt htop
  rw [opened] at hold
  rw [spans_last,opened,List.filter_append,hold]
  simp

theorem visible_spans_last (hold : ∀ w ∈ writes, w.1 ≤ n) (htop : n < top) :
    (visible n (spans top writes)).map Version.body = writes.getLast?.toList.map Prod.snd := by
  induction writes using List.reverseRecOn with
  | nil => rfl
  | append_singleton writes w _ =>
    rw [visible_spans (hold w (List.mem_append_right _ (List.mem_singleton_self w))) htop]
    simp

/-- Before the last write all versions up to then are valid. -/
theorem visible_spans_before {old new : List (Nat × β)} (hold : ∀ w ∈ old, w.1 ≤ n)
    (hnew : ∀ w ∈ new, n < w.1) (hne : new ≠ []) :
    (visible n (spans top (old ++ new))).map Version.body = old.map Prod.snd := by
  rw [← List.dropLast_append_getLast hne] at hnew ⊢
  generalize new.getLast hne = w at hnew ⊢
  have hw := hnew w (List.mem_append_right _ (List.mem_singleton_self w))
  have hlast : visible n [(⟨w.2,w.1,top⟩ : Version β)] = [] := by
    have hlt : ¬w.1 ≤ n := Nat.not_le.mpr hw
    simp [visible,hlt]
  have hskip : visible n (new.dropLast.map fun v => (⟨v.2,v.1,w.1⟩ : Version β)) = [] := by
    rw [visible,List.filter_eq_nil_iff]
    intro v hv
    obtain ⟨u,hu,rfl⟩ := List.mem_map.mp hv
    have hlt : ¬u.1 ≤ n := Nat.not_le.mpr (hnew u (List.mem_append_left _ hu))
    simp [hlt]
  have hkeep : visible n (old.map fun v => (⟨v.2,v.1,w.1⟩ : Version β)) =
      old.map fun v => ⟨v.2,v.1,w.1⟩ := by
    rw [visible,List.filter_eq_self]
    intro v hv
    obtain ⟨u,hu,rfl⟩ := List.mem_map.mp hv
    simpa using ⟨hold u hu,hw⟩
  rw [visible] at hlast hskip hkeep
  rw [← List.append_assoc,spans_last,visible,List.map_append,List.filter_append,
    List.filter_append,hlast,hskip,hkeep,List.append_nil,List.append_nil,List.map_map]
  rfl

/-- The open version is the last one. -/
theorem current_spans (htop : w.1 < top) : Current top n (spans top (writes ++ [w])) ↔ n = w.1 := by
  have hopen : ∀ v, v ∈ spans top (writes ++ [w]) ∧ v.endNum = top ↔ v = ⟨w.2,w.1,top⟩ := by
    intro v
    have hv : v ∈ opened top (spans top (writes ++ [w])) ↔ v = ⟨w.2,w.1,top⟩ := by
      rw [opened_spans htop,List.mem_singleton]
    rw [← hv,opened,List.mem_filter,decide_eq_true_eq]
  constructor
  · rintro ⟨v,hv,hend,rfl⟩
    rw [(hopen v).mp ⟨hv,hend⟩]
  · rintro rfl
    obtain ⟨hv,hend⟩ := (hopen ⟨w.2,w.1,top⟩).mpr rfl
    exact ⟨_,hv,hend,rfl⟩

end Spans

section Rewind

variable {b : β} {n : Nat} {vs : List (Version β)} {old new : List (Nat × β)}

/-- The versions from before `n` that were valid at `n - 1` or closed from `n` on. -/
def reaching (n : Nat) (vs : List (Version β)) : List (Version β) :=
  vs.filter fun v => v.startNum < n ∧ n ≤ v.endNum

/-- After a rewind these versions are valid. -/
theorem visible_rewind (hn : n < top) :
    (visible n (rewind top n vs)).map Version.body = (reaching n vs).map Version.body := by
  induction vs with
  | nil => rfl
  | cons v vs ih =>
    simp only [visible,rewind,reaching,List.filter_cons] at ih ⊢
    by_cases hs : v.startNum < n
    · by_cases he : n ≤ v.endNum
      · have hle : v.startNum ≤ n := Nat.le_of_lt hs
        simpa [hs,he,hle,hn] using ih
      · simpa [hs,he,Nat.not_lt.mpr (Nat.le_of_not_le he)] using ih
    · simpa [hs] using ih

theorem reaching_append (vs us : List (Version β)) :
    reaching n (vs ++ us) = reaching n vs ++ reaching n us := List.filter_append ..

/-- Versions that all end at a number from `n` on reach `n` if they start before. -/
theorem reaching_closed {m : Nat} (hm : n ≤ m) (hold : ∀ w ∈ old, w.1 < n)
    (hnew : ∀ w ∈ new, n ≤ w.1) :
    (reaching n ((old ++ new).map fun w => (⟨w.2,w.1,m⟩ : Version β))).map Version.body =
      old.map Prod.snd := by
  have h₀ : reaching n (old.map fun w => (⟨w.2,w.1,m⟩ : Version β)) =
      old.map fun w => ⟨w.2,w.1,m⟩ := by
    rw [reaching,List.filter_eq_self]
    intro v hv
    obtain ⟨w,hw,rfl⟩ := List.mem_map.mp hv
    simpa using ⟨hold w hw,hm⟩
  have h₁ : reaching n (new.map fun w => (⟨w.2,w.1,m⟩ : Version β)) = [] := by
    rw [reaching,List.filter_eq_nil_iff]
    intro v hv
    obtain ⟨w,hw,rfl⟩ := List.mem_map.mp hv
    simpa using fun hlt => absurd hlt (Nat.not_lt.mpr (hnew w hw))
  rw [List.map_append,reaching_append,h₀,h₁,List.append_nil,List.map_map]
  rfl

theorem reaching_new {m : Nat} : reaching n [(⟨b,n,m⟩ : Version β)] = [] := by
  simp [reaching]

/-- A key whose last write is before `n` has one version that reaches `n`, the last. -/
theorem reaching_spans_old (hn : n ≤ top) (hold : ∀ w ∈ old, w.1 < n) :
    (reaching n (spans top old)).map Version.body = old.getLast?.toList.map Prod.snd := by
  induction old using List.reverseRecOn with
  | nil => rfl
  | append_singleton writes w _ =>
    have hw := hold w (List.mem_append_right _ (List.mem_singleton_self w))
    have h₀ : reaching n (writes.map fun v => (⟨v.2,v.1,w.1⟩ : Version β)) = [] := by
      rw [reaching,List.filter_eq_nil_iff]
      intro v hv
      obtain ⟨u,_,rfl⟩ := List.mem_map.mp hv
      simpa using fun _ => hw
    rw [spans_last,reaching_append,h₀]
    simp [reaching,hw,hn]

/-- A key that is written from `n` on keeps all its versions from before. -/
theorem reaching_spans (hold : ∀ w ∈ old, w.1 < n) (hnew : ∀ w ∈ new, n ≤ w.1) (hne : new ≠ []) :
    (reaching n (spans top (old ++ new))).map Version.body = old.map Prod.snd := by
  rw [← List.dropLast_append_getLast hne] at hnew ⊢
  have hlast := hnew (new.getLast hne) (List.mem_append_right _ (List.mem_singleton_self _))
  have hskip : reaching n [(⟨(new.getLast hne).2,(new.getLast hne).1,top⟩ : Version β)] = [] := by
    simpa [reaching] using fun hlt => absurd hlt (Nat.not_lt.mpr hlast)
  rw [← List.append_assoc,spans_last,reaching_append,hskip,List.append_nil]
  exact reaching_closed hlast hold fun w hw => hnew w (List.mem_append_left _ hw)

/-- A write at `n` closes all versions at `n`. -/
theorem reaching_renew (hold : ∀ w ∈ old, w.1 < n)
    (hnew : ∀ w ∈ new, n ≤ w.1) :
    (reaching n (renew top b n (spans top (old ++ new)))).map Version.body = old.map Prod.snd := by
  rw [renew]
  split
  · next hcur =>
    -- the version of this very number is there, so the last write is not before `n`
    have hne : new ≠ [] := by
      rintro rfl
      obtain ⟨v,hv,_,hs⟩ := hcur
      rw [List.append_nil] at hv
      have := hold _ (mem_spans hv)
      omega
    exact reaching_spans hold hnew hne
  · rw [close_spans,reaching_append,reaching_new,List.append_nil]
    exact reaching_closed (Nat.le_refl n) hold hnew

/-- A write that is no duplicate is the only version valid at its number. -/
theorem visible_renew (h : ¬Current top n vs) (htop : n < top) :
    visible n (renew top b n vs) = [⟨b,n,top⟩] := by
  have hclosed : visible n (close n vs) = [] := by
    rw [visible,List.filter_eq_nil_iff]
    intro v hv
    obtain ⟨u,_,rfl⟩ := List.mem_map.mp hv
    simp
  rw [visible] at hclosed
  rw [renew,if_neg h,visible,List.filter_append,hclosed,List.nil_append]
  simp [htop]

end Rewind

end Versions
