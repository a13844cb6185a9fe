import Mathlib.Data.List.Sort
import Mathlib.Data.List.Nodup
import Mathlib.Data.List.Perm.Basic
import Mathlib.Data.List.Sigma
import Mathlib.Logic.Function.Basic

/-!
# Keyed lists

A list used as a small table: every element has a key, a key occurs at most once, and an
element is replaced by removing the first one with its key, pushing the new one and sorting
stably by key. Lookup after such an upsert is lookup in a map.
-/

namespace Keyed

variable {α κ : Type} [DecidableEq κ] (key : α → κ)

/-- The first element with key `k`. -/
def find (k : κ) (l : List α) : Option α := l.find? (fun a => key a = k)

/-- No key occurs twice. -/
def Distinct (l : List α) : Prop := (l.map key).Nodup

variable {key}

theorem find_some {k : κ} {l : List α} {a : α} (h : find key k l = some a) :
    a ∈ l ∧ key a = k :=
  ⟨List.mem_of_find?_eq_some h,by simpa using List.find?_some h⟩

theorem find_eq_some_iff {l : List α} (hl : Distinct key l) {k : κ} {a : α} :
    find key k l = some a ↔ a ∈ l ∧ key a = k := by
  refine ⟨find_some,?_⟩
  rintro ⟨ha,rfl⟩
  cases hf : find key (key a) l with
  | none =>
    have := List.find?_eq_none.mp hf a ha
    simp at this
  | some b =>
    obtain ⟨hb,hk⟩ := find_some hf
    rw [List.inj_on_of_nodup_map hl hb ha hk]

theorem find_eq_none_iff {l : List α} {k : κ} : find key k l = none ↔ ∀ a ∈ l, key a ≠ k := by
  simp [find,List.find?_eq_none]

/-- Lookup sees only which elements the list has. -/
theorem find_perm {l l' : List α} (hl : Distinct key l) (hp : l'.Perm l) (k : κ) :
    find key k l' = find key k l := by
  have hl' : Distinct key l' := ((hp.map key).nodup_iff).mpr hl
  ext a
  rw [find_eq_some_iff hl,find_eq_some_iff hl',hp.mem_iff]

/-- An element is the only one of its key. -/
theorem filter_distinct {l : List α} (hl : Distinct key l) {a : α} (ha : a ∈ l) :
    l.filter (fun b => key b = key a) = [a] := by
  have hmem : ∀ b, b ∈ l.filter (fun b => key b = key a) ↔ b ∈ [a] := by
    intro b
    rw [List.mem_filter,decide_eq_true_iff,List.mem_singleton]
    constructor
    · rintro ⟨hb,hk⟩
      exact List.inj_on_of_nodup_map hl hb ha hk
    · rintro rfl
      exact ⟨ha,rfl⟩
  have hnd : l.Nodup := .of_map key hl
  have hperm := (List.perm_ext_iff_of_nodup (hnd.filter _) (List.nodup_singleton a)).mpr hmem
  exact List.perm_singleton.mp hperm

theorem mem_eraseP_iff {l : List α} (hl : Distinct key l) {k : κ} {a : α} :
    a ∈ l.eraseP (fun b => key b = k) ↔ a ∈ l ∧ key a ≠ k := by
  induction l with
  | nil => simp
  | cons b l ih =>
    have hnd := List.nodup_cons.mp hl
    -- the head's key does not occur in the tail
    have hne : ∀ c ∈ l, key c ≠ key b := fun c hc he => hnd.1 (he ▸ List.mem_map_of_mem hc)
    by_cases hb : key b = k
    · subst hb
      rw [List.eraseP_cons_of_pos (by simp)]
      constructor
      · exact fun ha => ⟨List.mem_cons_of_mem b ha,hne a ha⟩
      · rintro ⟨ha,hk⟩
        rcases List.mem_cons.mp ha with rfl | ha
        · exact absurd rfl hk
        · exact ha
    · rw [List.eraseP_cons_of_neg (by simpa using hb),List.mem_cons,List.mem_cons,ih hnd.2]
      constructor
      · rintro (rfl | ⟨ha,hk⟩)
        · exact ⟨Or.inl rfl,hb⟩
        · exact ⟨Or.inr ha,hk⟩
      · rintro ⟨rfl | ha,hk⟩
        · exact Or.inl rfl
        · exact Or.inr ⟨ha,hk⟩

omit [DecidableEq κ] in
theorem distinct_push {l : List α} (hl : Distinct key l) {a : α} (ha : ∀ b ∈ l, key b ≠ key a) :
    Distinct key (l ++ [a]) := by
  rw [Distinct,List.map_append,List.map_singleton]
  refine List.Nodup.append hl (List.nodup_singleton _) ?_
  intro k hk hka
  obtain ⟨b,hb,rfl⟩ := List.mem_map.mp hk
  exact ha b hb (List.mem_singleton.mp hka)

theorem distinct_replace {l : List α} (hl : Distinct key l) (a : α) :
    Distinct key (l.eraseP (fun b => key b = key a) ++ [a]) :=
  distinct_push (hl.sublist (List.eraseP_sublist.map key))
    (fun _ hb => ((mem_eraseP_iff hl).mp hb).2)

theorem find_push {l : List α} (hl : Distinct key l) {a : α} (ha : ∀ b ∈ l, key b ≠ key a)
    (k : κ) : find key k (l ++ [a]) = if k = key a then some a else find key k l := by
  ext b
  rw [find_eq_some_iff (distinct_push hl ha)]
  split
  · next hk =>
    subst hk
    simp only [List.mem_append,List.mem_singleton,Option.some.injEq]
    constructor
    · rintro ⟨hb | rfl,hk⟩
      · exact absurd hk (ha b hb)
      · rfl
    · rintro rfl
      exact ⟨Or.inr rfl,rfl⟩
  · next hk =>
    rw [find_eq_some_iff hl]
    simp only [List.mem_append,List.mem_singleton]
    constructor
    · rintro ⟨hb | rfl,hk'⟩
      · exact ⟨hb,hk'⟩
      · exact absurd hk'.symm hk
    · exact fun ⟨hb,hk'⟩ => ⟨Or.inl hb,hk'⟩

theorem find_replace {l : List α} (hl : Distinct key l) (a : α) (k : κ) :
    find key k (l.eraseP (fun b => key b = key a) ++ [a]) =
      if k = key a then some a else find key k l := by
  rw [find_push (hl.sublist (List.eraseP_sublist.map key))
    (fun _ hb => ((mem_eraseP_iff hl).mp hb).2)]
  split
  · rfl
  · next hk =>
    ext b
    rw [find_eq_some_iff hl,find_eq_some_iff (hl.sublist (List.eraseP_sublist.map key)),
      mem_eraseP_iff hl]
    constructor
    · exact fun ⟨⟨hb,_⟩,he⟩ => ⟨hb,he⟩
    · rintro ⟨hb,rfl⟩
      exact ⟨⟨hb,hk⟩,rfl⟩

theorem mem_replace {l : List α} {a b : α} {p : α → Bool} (h : b ∈ l.eraseP p ++ [a]) :
    b ∈ l ∨ b = a := by
  rcases List.mem_append.mp h with hb | hb
  · exact Or.inl (List.mem_of_mem_eraseP hb)
  · exact Or.inr (List.mem_singleton.mp hb)

omit [DecidableEq κ] in
/-- As many elements as keyed partners: if every `a` finds one of its own key, then each finds
exactly one, and none is left over. -/
theorem exists_perm_forall₂ {β : Type} {key' : β → κ} {R : α → β → Prop}
    (hkey : ∀ a b, R a b → key' b = key a) {l : List α} {m : List β} (hl : Distinct key l)
    (hlen : m.length = l.length) (h : ∀ a ∈ l, ∃ b ∈ m, R a b) :
    ∃ m', m.Perm m' ∧ List.Forall₂ R l m' := by
  induction l generalizing m with
  | nil => exact ⟨[],(List.eq_nil_of_length_eq_zero hlen) ▸ .refl _,.nil⟩
  | cons a l ih =>
    obtain ⟨ha,hl⟩ := List.nodup_cons.mp hl
    obtain ⟨b,hb,hab⟩ := h a List.mem_cons_self
    obtain ⟨s,t,rfl⟩ := List.append_of_mem hb
    -- the partner of a later element has another key than `b`
    have hrest : ∀ a' ∈ l, ∃ b' ∈ s ++ t, R a' b' := by
      intro a' ha'
      obtain ⟨b',hb',hab'⟩ := h a' (List.mem_cons_of_mem _ ha')
      rcases List.mem_cons.mp (List.perm_middle.mem_iff.mp hb') with rfl | hmem
      · have he : key a' = key a := (hkey _ _ hab').symm.trans (hkey _ _ hab)
        exact absurd (he ▸ List.mem_map_of_mem ha') ha
      · exact ⟨b',hmem,hab'⟩
    have hlen' : (s ++ t).length = l.length := by
      rw [List.length_append,List.length_cons,List.length_cons] at hlen
      rw [List.length_append]
      omega
    obtain ⟨m',hperm,hall⟩ := ih hl hlen' hrest
    exact ⟨b :: m',List.perm_middle.trans (hperm.cons b),.cons hab hall⟩

theorem exists_of_forall₂ {β : Type} {R : α → β → Prop} {l : List α} {m : List β}
    (h : List.Forall₂ R l m) : ∀ a ∈ l, ∃ b ∈ m, R a b := by
  induction h with
  | nil => exact fun _ ha => absurd ha List.not_mem_nil
  | cons hab _ ih =>
    rintro a' (_ | ⟨_,ha'⟩)
    · exact ⟨_,List.mem_cons_self,hab⟩
    · obtain ⟨b',hb',hab'⟩ := ih a' ha'
      exact ⟨b',List.mem_cons_of_mem _ hb',hab'⟩

section Sorting

variable {ρ : Type} [LinearOrder ρ] (rank : α → ρ)

/-- Rust's `sort_by_key`: elements of equal rank keep their order. -/
def sortByKey (l : List α) : List α := l.insertionSort (fun a b => rank a ≤ rank b)

theorem sortByKey_perm (l : List α) : (sortByKey rank l).Perm l := List.perm_insertionSort _ l

@[simp] theorem mem_sortByKey {l : List α} {a : α} : a ∈ sortByKey rank l ↔ a ∈ l :=
  (sortByKey_perm rank l).mem_iff

@[simp] theorem length_sortByKey (l : List α) : (sortByKey rank l).length = l.length :=
  (sortByKey_perm rank l).length_eq

omit [DecidableEq κ] in
theorem distinct_sortByKey {l : List α} (hl : Distinct key l) : Distinct key (sortByKey rank l) :=
  (((sortByKey_perm rank l).map key).nodup_iff).mpr hl

theorem find_sortByKey {l : List α} (hl : Distinct key l) (k : κ) :
    find key k (sortByKey rank l) = find key k l :=
  find_perm hl (sortByKey_perm rank l) k

omit [DecidableEq κ] in
/-- Sorting distinct keys by the keys makes them strictly increasing. -/
theorem sortByKey_increasing {r : α → ρ} {l : List α} (hl : Distinct r l) :
    (sortByKey r l).Pairwise (fun a b => r a < r b) := by
  have hle : (sortByKey r l).Pairwise (fun a b => r a ≤ r b) := List.pairwise_insertionSort _ l
  have hne : (sortByKey r l).Pairwise (fun a b => r a ≠ r b) :=
    List.pairwise_map.mp (distinct_sortByKey r hl)
  exact (hle.and hne).imp fun h => lt_of_le_of_ne h.1 h.2

omit [DecidableEq κ] in
/-- A list with strictly increasing keys is determined by its elements. -/
theorem eq_of_increasing {r : α → ρ} {l l' : List α} (hl : l.Pairwise (fun a b => r a < r b))
    (hl' : l'.Pairwise (fun a b => r a < r b)) (h : ∀ a, a ∈ l ↔ a ∈ l') : l = l' := by
  have hnd : ∀ {m : List α}, m.Pairwise (fun a b => r a < r b) → m.Nodup := fun hm =>
    hm.imp fun hab he => absurd (congrArg r he) hab.ne
  have hperm : l.Perm l' := (List.perm_ext_iff_of_nodup (hnd hl) (hnd hl')).mpr h
  exact hperm.eq_of_pairwise (fun a b _ _ hab hba => absurd (hab.trans hba) (lt_irrefl _)) hl hl'

end Sorting

section Entries

/-- The lookups of a list of named entries, one at a time: the first entry is an update. -/
theorem map_dlookup_cons {ν α β : Type} [DecidableEq ν] (f : ν → α → β)
    (entry : Sigma fun _ : ν => α) (entries : List (Sigma fun _ : ν => α)) :
    (fun n => ((entry :: entries).dlookup n).map (f n)) =
      Function.update (fun n => (entries.dlookup n).map (f n)) entry.1
        (some (f entry.1 entry.2)) := by
  funext n
  by_cases hn : n = entry.1
  · subst hn
    rw [Function.update_self,List.dlookup_cons_eq]
    rfl
  · rw [Function.update_of_ne hn,List.dlookup_cons_ne _ entry hn]

end Entries

section Options

variable {l : List α} {o : Option α}

/-- A search whose matches are what the option holds. -/
theorem find?_eq_option {p : α → Bool} (h : ∀ a, a ∈ l ∧ p a = true ↔ o = some a) :
    l.find? p = o := by
  cases hfind : l.find? p with
  | some a => exact ((h a).mp ⟨List.mem_of_find?_eq_some hfind,List.find?_some hfind⟩).symm
  | none =>
    cases o with
    | none => rfl
    | some a =>
      obtain ⟨ha,hp⟩ := (h a).mpr rfl
      exact absurd hp (List.find?_eq_none.mp hfind a ha)

/-- A list without repetitions that has what the option holds. -/
theorem eq_toList (hnd : l.Nodup) (h : ∀ a, a ∈ l ↔ o = some a) : l = o.toList := by
  cases o with
  | none => exact List.eq_nil_iff_forall_not_mem.mpr fun a ha => nomatch (h a).mp ha
  | some a =>
    have hmem : ∀ b, b ∈ l ↔ b ∈ [a] := by
      intro b
      rw [h b,Option.some.injEq,List.mem_singleton]
      exact eq_comm
    have hperm := List.perm_ext_iff_of_nodup hnd (List.nodup_singleton a)
    exact List.perm_singleton.mp (hperm.mpr hmem)

end Options

end Keyed
