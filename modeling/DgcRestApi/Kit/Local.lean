import DgcRestApi.Kit.Fallible
import Mathlib.Data.Set.Finite.Basic

/-!
# Local computations

Two runs of a fallible computation, from two maps that agree on a set of cells. When each step
reads and writes only there, the runs end alike: with one error, or in maps that agree on the
set again and have elsewhere what they had, after finitely many writes.
-/

namespace Local

variable {ε α β γ δ : Type}

/-- With the same error, or both with results that `R` relates. -/
inductive Alike (R : α → β → Prop) : Except ε α → Except ε β → Prop
  | ok {a : α} {b : β} (h : R a b) : Alike R (.ok a) (.ok b)
  | error (e : ε) : Alike R (.error e) (.error e)

section Rules

variable {R : α → β → Prop} {S : γ → δ → Prop}

theorem Alike.mono {R' : α → β → Prop} {x : Except ε α} {y : Except ε β} (h : Alike R x y)
    (hR : ∀ a b, R a b → R' a b) : Alike R' x y := by
  cases h with
  | ok h => exact .ok (hR _ _ h)
  | error e => exact .error e

theorem Alike.bind {x : Except ε α} {y : Except ε β} {f : α → Except ε γ} {g : β → Except ε δ}
    (h : Alike R x y) (hf : ∀ a b, R a b → Alike S (f a) (g b)) :
    Alike S (x >>= f) (y >>= g) := by
  cases h with
  | ok h => exact hf _ _ h
  | error e => exact .error e

/-- A step that is the same in both runs. -/
theorem Alike.same {x y : Except ε α} {f : α → Except ε γ} {g : α → Except ε δ} (h : x = y)
    (hf : ∀ a, Alike S (f a) (g a)) : Alike S (x >>= f) (y >>= g) := by
  subst h
  cases x with
  | ok a => exact hf a
  | error e => exact .error e

theorem Alike.foldlM {f : α → γ → Except ε α} {g : β → γ → Except ε β} {l : List γ}
    (hf : ∀ a b c, R a b → Alike R (f a c) (g b c)) {a : α} {b : β} (h : R a b) :
    Alike R (l.foldlM f a) (l.foldlM g b) := by
  induction l generalizing a b with
  | nil => exact .ok h
  | cons c l ih =>
    rw [List.foldlM_cons,List.foldlM_cons]
    exact (hf a b c h).bind fun _ _ => ih

theorem Alike.ok_left {x : Except ε α} {y : Except ε β} {a : α} (h : Alike R x y)
    (hx : x = .ok a) : ∃ b, y = .ok b ∧ R a b := by
  cases h with
  | ok h =>
    cases hx
    exact ⟨_,rfl,h⟩
  | error e => cases hx

end Rules

section Cells

variable {ι : Type}

/-- After writes to cells of `P`: two maps that agree there, and each has elsewhere what it had. -/
structure Beside (P : ι → Prop) (s₀ t₀ s t : ι → β) : Prop where
  agree : ∀ i, P i → s i = t i
  left : ∀ i, ¬P i → s i = s₀ i
  right : ∀ i, ¬P i → t i = t₀ i
  finite : {i | s i ≠ s₀ i}.Finite

variable {P : ι → Prop} {s₀ t₀ s t : ι → β}

theorem Beside.refl (h : ∀ i, P i → s i = t i) : Beside P s t s t where
  agree := h
  left _ _ := rfl
  right _ _ := rfl
  finite := by simp

theorem Beside.update [DecidableEq ι] (h : Beside P s₀ t₀ s t) {i : ι} (hi : P i) (b : β) :
    Beside P s₀ t₀ (Function.update s i b) (Function.update t i b) where
  agree j hj := by
    by_cases hji : j = i
    · rw [hji,Function.update_self,Function.update_self]
    · rw [Function.update_of_ne hji,Function.update_of_ne hji,h.agree j hj]
  left j hj := by
    have hji : j ≠ i := fun he => hj (he ▸ hi)
    rw [Function.update_of_ne hji,h.left j hj]
  right j hj := by
    have hji : j ≠ i := fun he => hj (he ▸ hi)
    rw [Function.update_of_ne hji,h.right j hj]
  finite := by
    refine (h.finite.insert i).subset fun j hj => ?_
    by_cases hji : j = i
    · exact Set.mem_insert_iff.mpr (Or.inl hji)
    · have hj : Function.update s i b j ≠ s₀ j := hj
      rw [Function.update_of_ne hji] at hj
      exact Set.mem_insert_of_mem i hj

end Cells

end Local
