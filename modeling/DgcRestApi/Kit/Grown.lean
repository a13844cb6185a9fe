import Mathlib.Logic.Function.Basic

/-!
# Lookups that only grow

`Grown R f g`: everything `f` finds, `g` finds as well, in a form related by `R` to what it
was. Updates of a lookup that replace a value by a related one, or that give a value to a
key without one, only grow it. `Persists f g`: whatever it was.
-/

/-- What `f` finds under a key, `g` finds in a form related by `R`. -/
def Grown {κ α : Type*} (R : α → α → Prop) (f g : κ → Option α) : Prop :=
  ∀ k a, f k = some a → ∃ b, g k = some b ∧ R a b

namespace Grown

variable {κ α : Type*} {R : α → α → Prop} {f g e : κ → Option α}

theorem refl (hR : ∀ a, R a a) (f : κ → Option α) : Grown R f f :=
  fun _ a h => ⟨a,h,hR a⟩

theorem trans (hR : ∀ a b c, R a b → R b c → R a c) (hfg : Grown R f g) (hge : Grown R g e) :
    Grown R f e := by
  intro k a ha
  obtain ⟨b,hb,hab⟩ := hfg k a ha
  obtain ⟨c,hc,hbc⟩ := hge k b hb
  exact ⟨c,hc,hR a b c hab hbc⟩

variable [DecidableEq κ]

theorem update (hR : ∀ a, R a a) {k : κ} {a b : α} (hk : f k = some a) (hab : R a b) :
    Grown R f (Function.update f k (some b)) := by
  intro k' a' ha'
  by_cases h : k' = k
  · subst h
    obtain rfl : a = a' := Option.some.inj (hk.symm.trans ha')
    exact ⟨b,Function.update_self ..,hab⟩
  · exact ⟨a',by rw [Function.update_of_ne h,ha'],hR a'⟩

theorem create (hR : ∀ a, R a a) {k : κ} (b : α) (hk : f k = none) :
    Grown R f (Function.update f k (some b)) := by
  intro k' a' ha'
  have h : k' ≠ k := by
    rintro rfl
    rw [hk] at ha'
    exact nomatch ha'
  exact ⟨a',by rw [Function.update_of_ne h,ha'],hR a'⟩

end Grown

theorem update_eq_some {κ α : Type*} [DecidableEq κ] {f : κ → Option α} {k k' : κ} {a b : α} :
    Function.update f k (some a) k' = some b ↔ k' = k ∧ b = a ∨ k' ≠ k ∧ f k' = some b := by
  rw [Function.update_apply]
  split
  · next h => simp [h,eq_comm]
  · next h => simp [h]

theorem update_eq_ite {κ β : Type*} [DecidableEq κ] (m : κ → β) (k' : κ) (x : β) (k : κ) :
    Function.update m k' x k = if k' = k then x else m k := by
  rw [Function.update_apply]
  exact if_congr eq_comm rfl rfl

/-- What is stored under `k'` is rewritten, read at `k`. -/
theorem update_eq_map {κ α : Type*} [DecidableEq κ] {m : κ → Option α} {k' : κ} {x : α} {f : α → α}
    (hx : m k' = some x) (k : κ) :
    Function.update m k' (some (f x)) k = if k' = k then (m k).map f else m k := by
  rw [update_eq_ite]
  by_cases hk : k' = k
  · obtain rfl := hk
    rw [hx,Option.map_some]
  · rw [if_neg hk,if_neg hk]

theorem ite_map {α : Type*} {c : Prop} [Decidable c] {f : α → α} (o : Option α) :
    (if c then o.map f else o) = o.map fun x => if c then f x else x := by
  split
  · rfl
  · exact Option.map_id_apply.symm

/-- What `f` finds under a key, `g` finds in some form. -/
def Persists {κ α : Type*} (f g : κ → Option α) : Prop :=
  ∀ k a, f k = some a → ∃ b, g k = some b

namespace Persists

variable {κ α : Type*} {f g e : κ → Option α}

theorem refl (f : κ → Option α) : Persists f f := fun _ a h => ⟨a,h⟩

theorem trans (hfg : Persists f g) (hge : Persists g e) : Persists f e := by
  intro k a ha
  obtain ⟨b,hb⟩ := hfg k a ha
  exact hge k b hb

theorem update [DecidableEq κ] (f : κ → Option α) (k : κ) (b : α) :
    Persists f (Function.update f k (some b)) := by
  intro k' a ha
  by_cases hk : k' = k
  · subst hk
    exact ⟨b,Function.update_self ..⟩
  · exact ⟨a,by rw [Function.update_of_ne hk,ha]⟩

end Persists

theorem Grown.persists {κ α : Type*} {R : α → α → Prop} {f g : κ → Option α}
    (h : Grown R f g) : Persists f g := fun k a ha => (h k a ha).imp fun _ hb => hb.1
