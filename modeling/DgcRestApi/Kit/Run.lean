import Mathlib.Data.List.Basic

/-!
# Runs of a labelled step relation

`Run step s₀ h s`: the steps recorded in `h`, newest first, lead from `s₀` to `s`. The
history keeps for every step its label and the state it started in, so a property of past
steps can be stated about it. The rules below package the inductions: what every step
preserves holds at the end, what the end needs held all along, and a simulation maps runs
to runs.
-/

variable {σ τ σ' : Type*}

/-- The steps of `h`, newest first, lead from `s₀` to the last argument. -/
inductive Run (step : σ → τ → σ → Prop) (s₀ : σ) : List (σ × τ) → σ → Prop
  | nil : Run step s₀ [] s₀
  | snoc {h : List (σ × τ)} {s s' : σ} {t : τ} :
      Run step s₀ h s → step s t s' → Run step s₀ ((s,t) :: h) s'

namespace Run

variable {step : σ → τ → σ → Prop} {s₀ s s' : σ} {h h' : List (σ × τ)}

/-- The states a run passes through, its end first. -/
def states (h : List (σ × τ)) (s : σ) : List σ := s :: h.map Prod.fst

/-- The steps of a run, each with the state it ends in, newest first. -/
def steps : List (σ × τ) → σ → List (σ × τ × σ)
  | [],_ => []
  | (s,t) :: h,s' => (s,t,s') :: steps h s

theorem invariant (P : σ → Prop) (hstep : ∀ s t s', P s → step s t s' → P s')
    (h₀ : P s₀) (hr : Run step s₀ h s) : P s := by
  induction hr with
  | nil => exact h₀
  | snoc _ hs ih => exact hstep _ _ _ ih hs

/-- What every step makes of a view of the state by its label alone is folded over the labels of
the run, of which those can be left out that change nothing. -/
theorem view_foldr {α : Type*} (view : σ → α) (f : τ → α → α) (Q : τ → Bool)
    (hstep : ∀ s t s', step s t s' → view s' = f t (view s))
    (hidle : ∀ t a, Q t = false → f t a = a) (hr : Run step s₀ h s) :
    view s = ((h.map Prod.snd).filter Q).foldr f (view s₀) := by
  induction hr with
  | nil => rfl
  | @snoc h s s' t _ hs ih =>
    rw [hstep s t s' hs,ih,List.map_cons]
    cases hQ : Q t with
    | true => rw [List.filter_cons_of_pos hQ,List.foldr_cons]
    | false => rw [List.filter_cons_of_neg (hQ ▸ Bool.false_ne_true),hidle t _ hQ]

/-- A run whose steps all satisfy `Q` is a run of these steps. -/
theorem restrict (Q : σ × τ → Prop) (hr : Run step s₀ h s) (hq : ∀ e ∈ h, Q e) :
    Run (fun s t s' => step s t s' ∧ Q (s,t)) s₀ h s := by
  induction hr with
  | nil => exact .nil
  | snoc _ hs ih =>
    exact (ih fun e he => hq e (List.mem_cons_of_mem _ he)).snoc ⟨hs,hq _ List.mem_cons_self⟩

/-- A condition that no step establishes held before every step of a run at whose end it
holds. -/
theorem of_end (D : σ → Prop) (hback : ∀ s t s', step s t s' → D s' → D s)
    (hr : Run step s₀ h s) (hD : D s) : Run (fun s t s' => step s t s' ∧ D s') s₀ h s := by
  induction hr with
  | nil => exact .nil
  | snoc _ hs ih => exact (ih (hback _ _ _ hs hD)).snoc ⟨hs,hD⟩

theorem trans (hr : Run step s₀ h s) (hr' : Run step s h' s') : Run step s₀ (h' ++ h) s' := by
  induction hr' with
  | nil => exact hr
  | snoc _ hs ih => exact ih.snoc hs

/-- A step at a place of the history: the run up to it, the step, and the run after it. -/
theorem of_append {h₁ h₂ : List (σ × τ)} {e : σ × τ} (hr : Run step s₀ (h₂ ++ e :: h₁) s) :
    ∃ m, Run step s₀ h₁ e.1 ∧ step e.1 e.2 m ∧ Run step m h₂ s := by
  induction h₂ generalizing s with
  | nil =>
    cases hr with
    | snoc hr hs => exact ⟨s,hr,hs,.nil⟩
  | cons e' h₂ ih =>
    cases hr with
    | snoc hr hs =>
      obtain ⟨m,hr₁,hm,hr₂⟩ := ih hr
      exact ⟨m,hr₁,hm,hr₂.snoc hs⟩

/-- The run up to a place of the history. -/
theorem of_suffix {h₁ h₂ : List (σ × τ)} (hr : Run step s₀ (h₂ ++ h₁) s) :
    ∃ m, Run step s₀ h₁ m ∧ Run step m h₂ s := by
  induction h₂ generalizing s with
  | nil => exact ⟨s,hr,.nil⟩
  | cons e h₂ ih =>
    cases hr with
    | snoc hr hs =>
      obtain ⟨m,hr₁,hr₂⟩ := ih hr
      exact ⟨m,hr₁,hr₂.snoc hs⟩

/-- A step recorded in the history: the run up to it, the step, and the run after it. -/
theorem split (hr : Run step s₀ h s) {e : σ × τ} (he : e ∈ h) :
    ∃ h₁ h₂ m, h = h₂ ++ e :: h₁ ∧ Run step s₀ h₁ e.1 ∧ step e.1 e.2 m ∧ Run step m h₂ s := by
  obtain ⟨h₂,h₁,rfl⟩ := List.append_of_mem he
  obtain ⟨m,hr⟩ := hr.of_append
  exact ⟨h₁,h₂,m,rfl,hr⟩

/-- Every state of a run is the end of a run. -/
theorem of_states (hr : Run step s₀ h s) {x : σ} (hx : x ∈ states h s) :
    ∃ h', Run step s₀ h' x := by
  rcases List.mem_cons.mp hx with rfl | hx
  · exact ⟨h,hr⟩
  · obtain ⟨e,he,rfl⟩ := List.mem_map.mp hx
    obtain ⟨h₁,_,_,_,hr₁,_⟩ := hr.split he
    exact ⟨h₁,hr₁⟩

/-- What every step preserves that satisfies `Q` holds in every state of a run whose steps
all satisfy it. -/
theorem forall_states (P : σ → Prop) (Q : σ × τ → Prop)
    (hstep : ∀ s t s', P s → step s t s' → Q (s,t) → P s') (hP : P s₀) (hr : Run step s₀ h s)
    (hq : ∀ e ∈ h, Q e) : ∀ x ∈ states h s, P x := by
  intro x hx
  obtain ⟨h',hr'⟩ := (hr.restrict Q hq).of_states hx
  exact hr'.invariant P (fun s t s' hs ht => hstep s t s' hs ht.1 ht.2) hP

/-- A simulation maps runs to runs. -/
theorem map {step' : σ' → τ → σ' → Prop} (f : σ → σ') (P : σ → Prop)
    (hP : ∀ s t s', P s → step s t s' → P s')
    (hsim : ∀ s t s', P s → step s t s' → step' (f s) t (f s')) (h₀ : P s₀)
    (hr : Run step s₀ h s) :
    P s ∧ Run step' (f s₀) (h.map (Prod.map f id)) (f s) := by
  induction hr with
  | nil => exact ⟨h₀,.nil⟩
  | snoc _ hs ih => exact ⟨hP _ _ _ ih.1 hs,ih.2.snoc (hsim _ _ _ ih.1 hs)⟩

/-- The states of a run satisfy `P` exactly when its steps satisfy `Q`, given that from a
state with `P` a step ends in one exactly when it satisfies `Q`. -/
theorem states_iff (P : σ → Prop) (Q : σ × τ → Prop)
    (hstep : ∀ s t s', P s → step s t s' → (P s' ↔ Q (s,t)))
    (hP : P s₀) (hr : Run step s₀ h s) : (∀ x ∈ states h s, P x) ↔ ∀ e ∈ h, Q e := by
  induction hr with
  | nil => simpa [states] using hP
  | @snoc h a b t _ hs ih =>
    -- `hstep` needs `P` before the step, which is what the run so far gives on either side
    have hcons : (∀ x ∈ states ((a,t) :: h) b, P x) ↔ P b ∧ ∀ x ∈ states h a, P x := by
      simp only [states,List.map_cons,List.mem_cons]
      constructor
      · exact fun hx => ⟨hx b (Or.inl rfl),fun x hx' => hx x (Or.inr hx')⟩
      · rintro ⟨hb,ha⟩ x (rfl | hx)
        · exact hb
        · exact ha x hx
    rw [hcons,ih,List.forall_mem_cons]
    constructor
    · rintro ⟨hb,hq⟩
      exact ⟨(hstep a t b (ih.mpr hq a List.mem_cons_self) hs).mp hb,hq⟩
    · rintro ⟨hq₀,hq⟩
      exact ⟨(hstep a t b (ih.mpr hq a List.mem_cons_self) hs).mpr hq₀,hq⟩

/-- Every step of a run satisfies `P` exactly when it satisfies `Q`, given that each step of
the relation does. -/
theorem steps_iff (P : σ × τ × σ → Prop) (Q : σ × τ → Prop)
    (hstep : ∀ s t s', step s t s' → (P (s,t,s') ↔ Q (s,t))) (hr : Run step s₀ h s) :
    (∀ e ∈ steps h s, P e) ↔ ∀ e ∈ h, Q e := by
  induction hr with
  | nil => simp [steps]
  | snoc _ hs ih => rw [steps,List.forall_mem_cons,List.forall_mem_cons,ih,hstep _ _ _ hs]

end Run
