import DgcRestApi.Kit.Grown

/-!
# A table and the index of its names

A table finds a value under a key, every value has a name, and a second table holds the names
that are taken. `Indexes` says that no two values share a name and that the index holds
exactly the names in use. The rules tell what writes to the two do to it. A table has one
index, so a write to one of the two alone is right only when it writes what is there.
-/

variable {κ α ν : Type*} {name : α → ν} {f : κ → Option α} {names names' : ν → Bool} {k : κ}

/-- The values of `f` have different names, and `names` holds these and no others. -/
structure Indexes (name : α → ν) (f : κ → Option α) (names : ν → Bool) : Prop where
  unique : ∀ k k' a a', f k = some a → f k' = some a' → name a = name a' → k = k'
  mem_iff : ∀ n, names n = true ↔ ∃ k a, f k = some a ∧ name a = n

namespace Indexes

theorem empty : Indexes name (fun _ : κ => none) fun _ => false where
  unique _ _ _ _ h := by cases h
  mem_iff n := by simp

theorem mem (h : Indexes name f names) {a : α} (hk : f k = some a) :
    names (name a) = true := (h.mem_iff _).mpr ⟨k,a,hk,rfl⟩

/-- A table has one index. -/
theorem eq (h : Indexes name f names) (h' : Indexes name f names') : names = names' := by
  funext n
  rw [Bool.eq_iff_iff,h.mem_iff,h'.mem_iff]

section Names

variable [DecidableEq ν]

/-- A write of the index alone changes nothing or is wrong. -/
theorem list_iff (h : Indexes name f names) {n : ν} {b : Bool} :
    Indexes name f (Function.update names n b) ↔ names n = b := by
  constructor
  · intro h'
    rw [congrFun (h.eq h') n,Function.update_self]
  · rintro rfl
    rwa [Function.update_eq_self]

end Names

section Keys

variable [DecidableEq κ]

/-- A value is put under a key and the index stays: that is right exactly when the key had a
value of the same name. -/
theorem put_iff (h : Indexes name f names) {a : α} :
    Indexes name (Function.update f k (some a)) names ↔ ∃ b, f k = some b ∧ name b = name a := by
  constructor
  · intro h'
    obtain ⟨k',b,hk',hname⟩ := (h.mem_iff _).mp (h'.mem (Function.update_self k (some a) f))
    by_cases he : k' = k
    · subst he
      exact ⟨b,hk',hname⟩
    · refine absurd (h'.unique k' k b a ?_ (Function.update_self ..) hname) he
      rw [Function.update_of_ne he,hk']
  · rintro ⟨b,hb,hname⟩
    have hold : ∀ k' a', Function.update f k (some a) k' = some a' →
        ∃ b', f k' = some b' ∧ name b' = name a' := by
      intro k' a' hk'
      rcases update_eq_some.mp hk' with ⟨rfl,rfl⟩ | ⟨_,hk'⟩
      · exact ⟨b,hb,hname⟩
      · exact ⟨a',hk',rfl⟩
    refine ⟨fun k₁ k₂ a₁ a₂ h₁ h₂ he => ?_,fun n => ?_⟩
    · obtain ⟨b₁,hb₁,hn₁⟩ := hold k₁ a₁ h₁
      obtain ⟨b₂,hb₂,hn₂⟩ := hold k₂ a₂ h₂
      exact h.unique k₁ k₂ b₁ b₂ hb₁ hb₂ (hn₁.trans (he.trans hn₂.symm))
    · rw [h.mem_iff]
      constructor
      · rintro ⟨k',a',hk',rfl⟩
        by_cases he : k' = k
        · subst he
          obtain rfl := Option.some.inj (hb.symm.trans hk')
          exact ⟨k',a,Function.update_self ..,hname.symm⟩
        · exact ⟨k',a',by rw [Function.update_of_ne he,hk'],rfl⟩
      · rintro ⟨k',a',hk',rfl⟩
        obtain ⟨b',hb',hn⟩ := hold k' a' hk'
        exact ⟨k',b',hb',hn⟩

/-- A key is cleared and the index stays: that is right exactly when the key was empty. -/
theorem erase_iff (h : Indexes name f names) :
    Indexes name (Function.update f k none) names ↔ f k = none := by
  constructor
  · intro h'
    cases hk : f k with
    | none => rfl
    | some a =>
      obtain ⟨k',a',hk',hname⟩ := (h'.mem_iff _).mp (h.mem hk)
      by_cases he : k' = k
      · subst he
        rw [Function.update_self] at hk'
        cases hk'
      · rw [Function.update_of_ne he] at hk'
        exact absurd (h.unique k' k a' a hk' hk hname) he
  · intro hk
    rwa [← hk,Function.update_eq_self]

end Keys

section Both

variable [DecidableEq κ] [DecidableEq ν]

/-- A value with a new name is put under a new key. -/
theorem add (h : Indexes name f names) {a : α} (hk : f k = none) (hn : names (name a) = false) :
    Indexes name (Function.update f k (some a)) (Function.update names (name a) true) := by
  have hfree : ∀ k' a', f k' = some a' → name a' ≠ name a := by
    intro k' a' hk' he
    rw [← he,h.mem hk'] at hn
    cases hn
  refine ⟨fun k₁ k₂ a₁ a₂ h₁ h₂ he => ?_,fun n => ?_⟩
  · rcases update_eq_some.mp h₁ with ⟨rfl,rfl⟩ | ⟨_,hold₁⟩ <;>
      rcases update_eq_some.mp h₂ with ⟨rfl,rfl⟩ | ⟨_,hold₂⟩
    · rfl
    · exact absurd he.symm (hfree k₂ a₂ hold₂)
    · exact absurd he (hfree k₁ a₁ hold₁)
    · exact h.unique k₁ k₂ a₁ a₂ hold₁ hold₂ he
  · rw [Function.update_apply]
    split
    · next heq =>
      subst heq
      exact iff_of_true rfl ⟨k,a,Function.update_self ..,rfl⟩
    · next hne =>
      rw [h.mem_iff]
      constructor
      · rintro ⟨k',a',hk',rfl⟩
        refine ⟨k',a',?_,rfl⟩
        rw [Function.update_of_ne (by rintro rfl; rw [hk] at hk'; cases hk'),hk']
      · rintro ⟨k',a',hk',rfl⟩
        rcases update_eq_some.mp hk' with ⟨rfl,rfl⟩ | ⟨_,hk'⟩
        · exact absurd rfl hne
        · exact ⟨k',a',hk',rfl⟩

/-- A value is removed with its name. -/
theorem remove (h : Indexes name f names) {a : α} (hk : f k = some a) :
    Indexes name (Function.update f k none) (Function.update names (name a) false) := by
  have hold : ∀ k' a', Function.update f k none k' = some a' → k' ≠ k ∧ f k' = some a' := by
    intro k' a' hk'
    by_cases he : k' = k
    · subst he
      rw [Function.update_self] at hk'
      cases hk'
    · exact ⟨he,by rwa [Function.update_of_ne he] at hk'⟩
  refine ⟨fun k₁ k₂ a₁ a₂ h₁ h₂ he => ?_,fun n => ?_⟩
  · exact h.unique k₁ k₂ a₁ a₂ (hold k₁ a₁ h₁).2 (hold k₂ a₂ h₂).2 he
  · rw [Function.update_apply]
    split
    · next heq =>
      subst heq
      refine iff_of_false (by simp) ?_
      rintro ⟨k',a',hk',hname⟩
      exact (hold k' a' hk').1 (h.unique k' k a' a (hold k' a' hk').2 hk hname)
    · next hne =>
      rw [h.mem_iff]
      constructor
      · rintro ⟨k',a',hk',rfl⟩
        refine ⟨k',a',?_,rfl⟩
        rwa [Function.update_of_ne]
        rintro rfl
        obtain rfl := Option.some.inj (hk.symm.trans hk')
        exact hne rfl
      · rintro ⟨k',a',hk',rfl⟩
        exact ⟨k',a',(hold k' a' hk').2,rfl⟩

/-- A value takes the place of another one, and its name the place of the other's name. -/
theorem move (h : Indexes name f names) {a b : α} (hk : f k = some b)
    (hn : Function.update names (name b) false (name a) = false) :
    Indexes name (Function.update f k (some a))
      (Function.update (Function.update names (name b) false) (name a) true) := by
  have hadd := (h.remove hk).add (Function.update_self k none f) hn
  rwa [Function.update_idem] at hadd

end Both

end Indexes
