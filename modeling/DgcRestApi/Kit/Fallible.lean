import Mathlib.Data.List.Basic
import Mathlib.Data.List.Forall2

/-!
# Fallible computations

Rules for `Except`. The `_eq_ok` lemmas say what is known when a bind, a lookup that must
succeed, a guard or a loop returned a value; the `raises_` lemmas bound the errors such a
program can end in by those of its parts, and the `ends_` lemmas bound both its values and its
errors.
-/

namespace Fallible

variable {ε α β σ : Type}

/-- The value a lookup must have found; `missing` is the error when it found none. -/
def expect (lookup : Except ε (Option α)) (missing : ε) : Except ε α :=
  match lookup with
  | .error e => .error e
  | .ok none => .error missing
  | .ok (some a) => .ok a

/-- A lookup that must not find anything; `present` is the error when it does. -/
def absent (lookup : Except ε (Option α)) (present : α → ε) : Except ε Unit :=
  match lookup with
  | .error e => .error e
  | .ok none => .ok ()
  | .ok (some a) => .error (present a)

/-- Stop with `e` when `c` holds. -/
def rejectIf (c : Prop) [Decidable c] (e : ε) : Except ε Unit :=
  if c then .error e else .ok ()

/-- Run the checks `x` only when `c` holds. -/
def onlyIf (c : Prop) [Decidable c] (x : Except ε Unit) : Except ε Unit :=
  if c then x else .ok ()

/-- What a lookup found, an error counting as nothing. -/
def found : Except ε (Option α) → Option α
  | .ok o => o
  | .error _ => none

@[simp] theorem found_ok (o : Option α) : found (.ok o : Except ε (Option α)) = o := rfl

@[simp] theorem found_error (e : ε) : found (.error e : Except ε (Option α)) = none := rfl

theorem found_eq_some {x : Except ε (Option α)} {a : α} : found x = some a ↔ x = .ok (some a) := by
  cases x <;> simp

theorem found_of_ok {x : Except ε (Option α)} {o : Option α} (h : x = .ok o) : found x = o := by
  rw [h, found_ok]

theorem bind_eq_ok {x : Except ε α} {f : α → Except ε β} {b : β} :
    x >>= f = .ok b ↔ ∃ a, x = .ok a ∧ f a = .ok b := by
  cases x <;> simp [bind, Except.bind]

theorem expect_eq_ok {x : Except ε (Option α)} {e : ε} {a : α} :
    expect x e = .ok a ↔ x = .ok (some a) := by
  cases x with
  | error e' => simp [expect]
  | ok o => cases o <;> simp [expect]

theorem absent_eq_ok {x : Except ε (Option α)} {p : α → ε} {u : Unit} :
    absent x p = .ok u ↔ x = .ok none := by
  cases x with
  | error e => simp [absent]
  | ok o => cases o <;> simp [absent]

theorem found_of_expect {x : Except ε (Option α)} {e : ε} {a : α} (h : expect x e = .ok a) :
    found x = some a :=
  found_of_ok (expect_eq_ok.mp h)

theorem found_of_absent {x : Except ε (Option α)} {p : α → ε} {u : Unit}
    (h : absent x p = .ok u) : found x = none :=
  found_of_ok (absent_eq_ok.mp h)

theorem rejectIf_eq_ok {c : Prop} [Decidable c] {e : ε} {u : Unit} :
    rejectIf c e = .ok u ↔ ¬c := by
  by_cases hc : c <;> simp [rejectIf,hc]

theorem onlyIf_eq_ok {c : Prop} [Decidable c] {x : Except ε Unit} {u : Unit} :
    onlyIf c x = .ok u ↔ (c → x = .ok ()) := by
  by_cases hc : c <;> simp [onlyIf,hc]

theorem forM_eq_ok {f : α → Except ε Unit} {l : List α} :
    l.forM f = .ok () ↔ ∀ a ∈ l, f a = .ok () := by
  induction l with
  | nil => simp [List.forM,pure,Except.pure]
  | cons a l ih =>
    rw [List.forall_mem_cons,← ih]
    change (f a >>= fun _ => l.forM f) = .ok () ↔ _
    rw [bind_eq_ok]
    constructor
    · rintro ⟨⟨⟩,ha,hl⟩
      exact ⟨ha,hl⟩
    · rintro ⟨ha,hl⟩
      exact ⟨(),ha,hl⟩

theorem foldlM_cons_eq_ok {f : σ → α → Except ε σ} {a : α} {l : List α} {s s' : σ} :
    (a :: l).foldlM f s = .ok s' ↔ ∃ t, f s a = .ok t ∧ l.foldlM f t = .ok s' := by
  rw [List.foldlM_cons, bind_eq_ok]

theorem foldlM_nil_eq_ok {f : σ → α → Except ε σ} {s s' : σ} :
    ([] : List α).foldlM f s = .ok s' ↔ s = s' := by
  rw [List.foldlM_nil]
  exact ⟨Except.ok.inj,congrArg _⟩

/-- Whatever error `x` ends in satisfies `E`. -/
def Raises (x : Except ε α) (E : ε → Prop) : Prop := ∀ e, x = .error e → E e

variable {E : ε → Prop}

theorem Raises.mono {x : Except ε α} {F : ε → Prop} (h : Raises x E) (hEF : ∀ e, E e → F e) :
    Raises x F :=
  fun e he => hEF e (h e he)

theorem raises_ok (a : α) : Raises (.ok a : Except ε α) E := nofun

theorem raises_error {e : ε} (he : E e) : Raises (.error e : Except ε α) E :=
  fun _ h => Except.error.inj h ▸ he

theorem raises_bind {x : Except ε α} {f : α → Except ε β} (hx : Raises x E)
    (hf : ∀ a, x = .ok a → Raises (f a) E) : Raises (x >>= f) E := by
  cases x with
  | error e => exact raises_error (hx e rfl)
  | ok a => exact hf a rfl

theorem raises_expect {x : Except ε (Option α)} {m : ε} (hx : Raises x E)
    (hm : x = .ok none → E m) : Raises (expect x m) E := by
  cases x with
  | error e => exact raises_error (hx e rfl)
  | ok o =>
    cases o with
    | none => exact raises_error (hm rfl)
    | some a => exact raises_ok a

theorem raises_absent {x : Except ε (Option α)} {p : α → ε} (hx : Raises x E)
    (hp : ∀ a, E (p a)) : Raises (absent x p) E := by
  cases x with
  | error e => exact raises_error (hx e rfl)
  | ok o =>
    cases o with
    | none => exact raises_ok ()
    | some a => exact raises_error (hp a)

theorem raises_rejectIf {c : Prop} [Decidable c] {m : ε} (hm : E m) :
    Raises (rejectIf c m) E := by
  by_cases hc : c
  · rw [rejectIf,if_pos hc]
    exact raises_error hm
  · rw [rejectIf,if_neg hc]
    exact raises_ok ()

theorem raises_onlyIf {c : Prop} [Decidable c] {x : Except ε Unit} (hx : Raises x E) :
    Raises (onlyIf c x) E := by
  by_cases hc : c
  · rwa [onlyIf,if_pos hc]
  · rw [onlyIf,if_neg hc]
    exact raises_ok ()

theorem raises_forM {f : α → Except ε Unit} {l : List α} (hf : ∀ a ∈ l, Raises (f a) E) :
    Raises (l.forM f) E := by
  induction l with
  | nil => exact raises_ok ()
  | cons a l ih =>
    exact raises_bind (hf a List.mem_cons_self) fun _ _ =>
      ih fun b hb => hf b (List.mem_cons_of_mem a hb)

/-- The loop rule: each iteration starts in a state that satisfies the invariant `P`. -/
theorem raises_foldlM {f : σ → α → Except ε σ} (P : σ → Prop) {l : List α} {s : σ}
    (hstep : ∀ t a t', a ∈ l → P t → f t a = .ok t' → P t')
    (hf : ∀ t a, a ∈ l → P t → Raises (f t a) E) (hs : P s) : Raises (l.foldlM f s) E := by
  induction l generalizing s with
  | nil => exact raises_ok s
  | cons a l ih =>
    rw [List.foldlM_cons]
    exact raises_bind (hf s a List.mem_cons_self hs) fun t ht =>
      ih (fun t b t' hb => hstep t b t' (List.mem_cons_of_mem a hb))
        (fun t b hb => hf t b (List.mem_cons_of_mem a hb)) (hstep s a t List.mem_cons_self hs ht)

/-- `x` returns a value that satisfies `Q`, or it ends in an error that satisfies `E`. -/
def Ends (x : Except ε α) (Q : α → Prop) (E : ε → Prop) : Prop :=
  (∀ a, x = .ok a → Q a) ∧ Raises x E

variable {Q : α → Prop}

theorem Ends.mono {x : Except ε α} {Q' : α → Prop} {F : ε → Prop} (h : Ends x Q E)
    (hQ : ∀ a, Q a → Q' a) (hEF : ∀ e, E e → F e) : Ends x Q' F :=
  ⟨fun a ha => hQ a (h.1 a ha),h.2.mono hEF⟩

/-- Where it ends in none of the errors, there is a value. -/
theorem Ends.total {x : Except ε α} (h : Ends x Q E) (hE : ∀ e, E e → x ≠ .error e) :
    ∃ a, x = .ok a ∧ Q a := by
  cases x with
  | error e => exact absurd rfl (hE e (h.2 e rfl))
  | ok a => exact ⟨a,rfl,h.1 a rfl⟩

theorem ends_ok {a : α} (ha : Q a) : Ends (.ok a : Except ε α) Q E :=
  ⟨fun _ h => Except.ok.inj h ▸ ha,raises_ok a⟩

/-- The value is known. -/
theorem ends_eq {x : Except ε α} {a : α} (h : x = .ok a) : Ends x (fun b => b = a) E :=
  h ▸ ends_ok rfl

theorem ends_error {e : ε} (he : E e) : Ends (.error e : Except ε α) Q E :=
  ⟨nofun,raises_error he⟩

theorem ends_bind {x : Except ε α} {f : α → Except ε β} {R : β → Prop} (hx : Ends x Q E)
    (hf : ∀ a, Q a → Ends (f a) R E) : Ends (x >>= f) R E := by
  cases x with
  | error e => exact ends_error (hx.2 e rfl)
  | ok a => exact hf a (hx.1 a rfl)

theorem ends_expect {x : Except ε (Option α)} {m : ε}
    (hx : Ends x (fun o => ∀ a, o = some a → Q a) E) (hm : E m) : Ends (expect x m) Q E := by
  cases x with
  | error e => exact ends_error (hx.2 e rfl)
  | ok o =>
    cases o with
    | none => exact ends_error hm
    | some a => exact ends_ok (hx.1 _ rfl a rfl)

theorem ends_absent {x : Except ε (Option α)} {p : α → ε} {P : Option α → Prop}
    (hx : Ends x P E) (hp : ∀ a, E (p a)) : Ends (absent x p) (fun _ => P none) E := by
  cases x with
  | error e => exact ends_error (hx.2 e rfl)
  | ok o =>
    cases o with
    | none => exact ends_ok (hx.1 none rfl)
    | some a => exact ends_error (hp a)

theorem ends_onlyIf {c : Prop} [Decidable c] {x : Except ε Unit} (hx : Raises x E) :
    Ends (onlyIf c x) (fun _ => True) E :=
  ⟨fun _ _ => trivial,raises_onlyIf hx⟩

theorem ends_forM {f : α → Except ε Unit} {l : List α} {P : α → Prop}
    (hf : ∀ a ∈ l, Ends (f a) (fun _ => P a) E) :
    Ends (l.forM f) (fun _ => ∀ a ∈ l, P a) E :=
  ⟨fun _ h a ha => (hf a ha).1 () (forM_eq_ok.mp h a ha),raises_forM fun a ha => (hf a ha).2⟩

/-- The loop rule for values and errors: the invariant `I` is kept by each iteration. -/
theorem ends_foldlM {f : σ → α → Except ε σ} {I : σ → Prop} {l : List α} {s : σ}
    (hf : ∀ t a, a ∈ l → I t → Ends (f t a) I E) (hs : I s) : Ends (l.foldlM f s) I E := by
  induction l generalizing s with
  | nil => exact ends_ok hs
  | cons a l ih =>
    rw [List.foldlM_cons]
    exact ends_bind (hf s a List.mem_cons_self hs) fun t ht =>
      ih (fun u b hb => hf u b (List.mem_cons_of_mem a hb)) ht

/-- The first computation returns a known value. -/
theorem ends_step {x : Except ε α} {a : α} {f : α → Except ε β} {R : β → Prop}
    (hx : x = .ok a) (hf : Ends (f a) R E) : Ends (x >>= f) R E := by
  subst hx
  exact hf

theorem ends_step_expect {x : Except ε (Option α)} {m : ε} {a : α} {f : α → Except ε β}
    {R : β → Prop} (hx : x = .ok (some a)) (hf : Ends (f a) R E) :
    Ends (expect x m >>= f) R E :=
  ends_step (expect_eq_ok.mpr hx) hf

theorem ends_step_absent {x : Except ε (Option α)} {p : α → ε} {f : Unit → Except ε β}
    {R : β → Prop} (hx : x = .ok none) (hf : Ends (f ()) R E) : Ends (absent x p >>= f) R E :=
  ends_step (absent_eq_ok.mpr hx) hf

theorem ends_step_rejectIf {c : Prop} [Decidable c] {m : ε} {f : Unit → Except ε β}
    {R : β → Prop} (hc : ¬c) (hf : Ends (f ()) R E) : Ends (rejectIf c m >>= f) R E :=
  ends_step (rejectIf_eq_ok.mpr hc) hf

theorem ends_step_onlyIf {c : Prop} [Decidable c] {x : Except ε Unit} {f : Unit → Except ε β}
    {R : β → Prop} (hx : c → x = .ok ()) (hf : Ends (f ()) R E) : Ends (onlyIf c x >>= f) R E :=
  ends_step (onlyIf_eq_ok.mpr hx) hf

theorem ends_cons {f : σ → α → Except ε σ} {a : α} {l : List α} {s : σ} {Q R : σ → Prop}
    (ha : Ends (f s a) Q E) (hl : ∀ t, Q t → Ends (l.foldlM f t) R E) :
    Ends ((a :: l).foldlM f s) R E := by
  rw [List.foldlM_cons]
  exact ends_bind ha hl

/-- A loop that collects the values of its body ends when every round has one. -/
theorem mapM_eq_some {f : α → Option β} {l : List α} {m : List β} :
    l.mapM f = some m ↔ List.Forall₂ (fun a b => f a = some b) l m := by
  induction l generalizing m with
  | nil => simp [eq_comm]
  | cons a l ih =>
    simp only [List.mapM_cons,List.forall₂_cons_left_iff,← ih]
    cases f a with
    | none => simp
    | some b => cases l.mapM f <;> simp [eq_comm]

theorem mapM_eq_none {f : α → Option β} {l : List α} :
    l.mapM f = none ↔ ∃ a ∈ l, f a = none := by
  induction l with
  | nil => simp
  | cons a l ih =>
    simp only [List.mapM_cons,List.mem_cons,exists_eq_or_imp,← ih]
    cases f a with
    | none => simp
    | some b => cases l.mapM f <;> simp

theorem mapM_exists {f : α → Option β} {l : List α} :
    (∃ m, l.mapM f = some m) ↔ ∀ a ∈ l, ∃ b, f a = some b := by
  simp only [← Option.ne_none_iff_exists',ne_eq,mapM_eq_none]
  push Not
  rfl

/-- What each round says about its value, said about all of them. -/
theorem mapM_map {γ : Type} {f : α → Option β} {l : List α} {m : List β} {g : α → γ} {h : β → γ}
    (hl : l.mapM f = some m) (hf : ∀ a ∈ l, ∀ b, f a = some b → h b = g a) :
    m.map h = l.map g := by
  induction l generalizing m with
  | nil =>
    obtain rfl : m = [] := by simpa [eq_comm] using hl
    rfl
  | cons a l ih =>
    obtain ⟨b,m,hb,hm,rfl⟩ := List.forall₂_cons_left_iff.mp (mapM_eq_some.mp hl)
    rw [List.map_cons,List.map_cons,hf a List.mem_cons_self b hb,
      ih (mapM_eq_some.mpr hm) fun c hc => hf c (List.mem_cons_of_mem a hc)]

theorem mem_mapM {f : α → Option β} {l : List α} {m : List β} (hl : l.mapM f = some m) {b : β} :
    b ∈ m ↔ ∃ a ∈ l, f a = some b := by
  induction l generalizing m with
  | nil =>
    obtain rfl : m = [] := by simpa [eq_comm] using hl
    simp
  | cons a l ih =>
    obtain ⟨c,m,hc,hm,rfl⟩ := List.forall₂_cons_left_iff.mp (mapM_eq_some.mp hl)
    rw [List.mem_cons,ih (mapM_eq_some.mpr hm),List.exists_mem_cons_iff,hc,Option.some.injEq,
      eq_comm]

end Fallible

/-!
# Programs whose state survives their errors

Rules for `ExceptT` over a state: a program that fails stops there, and what it wrote stays.
`exec` runs such a program; each rule says what one more step of it does.
-/

namespace Persistent

variable {σ ε α β : Type}

/-- The outcome of a program and the state it leaves. -/
def exec (x : ExceptT ε (StateM σ) α) (s : σ) : Except ε α × σ := x s

@[simp] theorem exec_pure (a : α) (s : σ) :
    exec (pure a : ExceptT ε (StateM σ) α) s = (.ok a,s) := rfl

@[simp] theorem exec_throw (e : ε) (s : σ) :
    exec (throw e : ExceptT ε (StateM σ) α) s = (.error e,s) := rfl

@[simp] theorem exec_lift (x : StateM σ α) (s : σ) :
    exec (ExceptT.lift x : ExceptT ε (StateM σ) α) s = (.ok (x s).1,(x s).2) := rfl

theorem exec_bind_ok {x : ExceptT ε (StateM σ) α} {s s' : σ} {a : α} (h : exec x s = (.ok a,s'))
    (f : α → ExceptT ε (StateM σ) β) : exec (x >>= f) s = exec (f a) s' := by
  have hbind : exec (x >>= f) s = ExceptT.bindCont f (exec x s).1 (exec x s).2 := rfl
  rw [hbind,h]
  rfl

theorem exec_bind_error {x : ExceptT ε (StateM σ) α} {s s' : σ} {e : ε}
    (h : exec x s = (.error e,s')) (f : α → ExceptT ε (StateM σ) β) :
    exec (x >>= f) s = (.error e,s') := by
  have hbind : exec (x >>= f) s = ExceptT.bindCont f (exec x s).1 (exec x s).2 := rfl
  rw [hbind,h]
  rfl

end Persistent
