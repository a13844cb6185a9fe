import DgcRestApi.Kit.Fallible
import DgcRestApi.Kit.Keyed

/-!
# Query operators

Operators of a query language whose evaluation may fail: `none` is an error, which an operator
passes on from each argument that it evaluates. A sequence is a list.
-/

namespace Reql
open Fallible Keyed

variable {α β : Type}

/-- Arguments are evaluated up to the first that is true. -/
def or : List (Option Bool) → Option Bool
  | [] => some false
  | a :: as => a.bind fun b => if b then some true else or as

/-- An object must not repeat a key. -/
def object (pairs : List (String × α)) : Option (List (String × α)) :=
  if (pairs.map Prod.fst).Nodup then some pairs else none

def concatMap (f : α → Option (List β)) (l : List α) : Option (List β) :=
  (l.mapM f).map List.flatten

def add : List Nat → Nat
  | [] => 0
  | n :: ns => n + add ns

theorem or_true {l : List (Option Bool)} {b : Bool} (h : or l = some b) (hl : some true ∈ l) :
    b = true := by
  induction l with
  | nil => cases hl
  | cons a as ih =>
    obtain ⟨c,rfl,h⟩ := Option.bind_eq_some_iff.mp h
    cases c with
    | true => exact (Option.some.inj h).symm
    | false => exact ih h (by simpa using hl)

theorem object_eq_some {pairs obj : List (String × α)} :
    object pairs = some obj ↔ Distinct Prod.fst pairs ∧ obj = pairs := by
  rw [object,Distinct]
  split <;> simp_all [eq_comm]

/-- One is added for each element without `p`: the sum falls short of the length when there is
one with `p`. -/
theorem add_lt_length (p : α → Bool) (l : List α) :
    add (l.map fun a => if p a then 0 else 1) ≤ l.length ∧
      (add (l.map fun a => if p a then 0 else 1) < l.length ↔ ∃ a ∈ l, p a = true) := by
  induction l with
  | nil => simp [add]
  | cons a l ih =>
    obtain ⟨hle,hlt⟩ := ih
    rw [List.map_cons,add,List.length_cons,List.exists_mem_cons_iff,← hlt]
    cases p a with
    | true =>
      simp only [if_true,true_or,iff_true]
      omega
    | false =>
      simp only [Bool.false_eq_true,if_false,false_or]
      omega

section Loops

variable {f : α → Option (List β)} {l : List α} {m : List β}

theorem concatMap_exists : (∃ m, concatMap f l = some m) ↔ ∀ a ∈ l, ∃ b, f a = some b := by
  rw [← mapM_exists]
  simp [concatMap]

theorem mem_concatMap (h : concatMap f l = some m) {a : α} (ha : a ∈ l) {b : List β}
    (hb : f a = some b) {x : β} (hx : x ∈ b) : x ∈ m := by
  obtain ⟨bs,hbs,rfl⟩ := Option.map_eq_some_iff.mp h
  obtain ⟨b',hb',hfa⟩ := exists_of_forall₂ (mapM_eq_some.mp hbs) a ha
  obtain rfl := Option.some.inj (hb.symm.trans hfa)
  exact List.mem_flatten.mpr ⟨b,hb',hx⟩

theorem concatMap_ne_nil (h : concatMap f l = some m) :
    m ≠ [] ↔ ∃ a ∈ l, ∃ b, f a = some b ∧ b ≠ [] := by
  obtain ⟨bs,hbs,rfl⟩ := Option.map_eq_some_iff.mp h
  rw [List.flatten_ne_nil_iff]
  constructor
  · rintro ⟨b,hb,hne⟩
    obtain ⟨a,ha,hab⟩ := (mem_mapM hbs).mp hb
    exact ⟨a,ha,b,hab,hne⟩
  · rintro ⟨a,ha,b,hab,hne⟩
    exact ⟨b,(mem_mapM hbs).mpr ⟨a,ha,hab⟩,hne⟩

end Loops

end Reql
