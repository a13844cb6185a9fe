import DgcRestApi.Kit.Fallible
import DgcRestApi.Kit.Run
import Mathlib.Data.List.Basic

/-!
# Programs that share a state

A program asks one query at a time, and each query is executed as a whole; between two queries
of one program those of the others run. A query may be dropped: the program goes on, and the
query runs at some later time. Two judgements on a program hold in every interleaving.
`Respects` says what the others may do to the state and what the program does to it, `Blind`
that the program cannot tell two states apart. Both follow from what queries it `Asks`.
-/

namespace Interleaving

variable {σ ε τ α β : Type}

inductive Program (σ α : Type) : Type 1
  | done (a : α)
  | query {ρ : Type} (q : σ → ρ × σ) (next : ρ → Program σ α)
  | drop {ρ : Type} (q : σ → ρ × σ) (next : Program σ α)

namespace Program

def bind : Program σ α → (α → Program σ β) → Program σ β
  | done a,f => f a
  | query q next,f => query q fun r => (next r).bind f
  | drop q next,f => drop q (next.bind f)

instance : Monad (Program σ) where
  pure := done
  bind := bind

/-- The program alone, with a dropped query executed at once. -/
def exec : Program σ α → σ → α × σ
  | done a,s => (a,s)
  | query q next,s => (next (q s).1).exec (q s).2
  | drop q next,s => next.exec (q s).2

theorem exec_bind (p : Program σ α) (f : α → Program σ β) (s : σ) :
    (p >>= f).exec s = (f (p.exec s).1).exec (p.exec s).2 := by
  induction p generalizing s with
  | done a => rfl
  | query q next ih => exact ih (q s).1 (q s).2
  | drop q next ih => exact ih (q s).2

/-- Whatever of `R` happens before each query, the query is of `R`; at the end the result and
the state satisfy `post`. -/
def Respects (R : σ → σ → Prop) (post : α → σ → Prop) : Program σ α → σ → Prop
  | done a,s => post a s
  | query q next,s => ∀ s', R s s' → R s' (q s').2 ∧ (next (q s').1).Respects R post (q s').2
  | drop q next,s => (∀ s', R s s' → R s' (q s').2) ∧ next.Respects R post s

/-- Every query that the program may ask is one of `Q`. -/
def Asks (Q : ∀ ρ : Type, (σ → ρ × σ) → Prop) : Program σ α → Prop
  | done _ => True
  | query q next => Q _ q ∧ ∀ r, (next r).Asks Q
  | drop q next => Q _ q ∧ next.Asks Q

/-- The queries keep states alike, and have one result in states that are alike. -/
def Blind (E : σ → σ → Prop) : Program σ α → Prop
  | done _ => True
  | query q next => (∀ s t, E s t → (q s).1 = (q t).1 ∧ E (q s).2 (q t).2) ∧
      ∀ r, (next r).Blind E
  | drop q next => (∀ s t, E s t → E (q s).2 (q t).2) ∧ next.Blind E

section Rules

variable {R E : σ → σ → Prop} {post : α → σ → Prop} {post' : β → σ → Prop} {s s' : σ}

theorem Respects.bind {p : Program σ α} {f : α → Program σ β} (h : p.Respects R post s)
    (hf : ∀ a s, post a s → (f a).Respects R post' s) : (p >>= f).Respects R post' s := by
  induction p generalizing s with
  | done a => exact hf a s h
  | query q next ih => exact fun s' hs => ⟨(h s' hs).1,ih _ (h s' hs).2⟩
  | drop q next ih => exact ⟨h.1,ih h.2⟩

/-- What the others do to the state leaves the judgement as it is. -/
theorem Respects.stable (htrans : ∀ s s' s'', R s s' → R s' s'' → R s s'')
    (hpost : ∀ a s s', post a s → R s s' → post a s') {p : Program σ α}
    (h : p.Respects R post s) (hs : R s s') : p.Respects R post s' := by
  induction p with
  | done a => exact hpost a s s' h hs
  | query q next ih => exact fun s'' hs' => h s'' (htrans _ _ _ hs hs')
  | drop q next ih => exact ⟨fun s'' hs' => h.1 s'' (htrans _ _ _ hs hs'),ih h.2⟩

variable {Q : ∀ ρ : Type, (σ → ρ × σ) → Prop}

theorem Asks.bind {p : Program σ α} {f : α → Program σ β} (h : p.Asks Q)
    (hf : ∀ a, (f a).Asks Q) : (p >>= f).Asks Q := by
  induction p with
  | done a => exact hf a
  | query q next ih => exact ⟨h.1,fun r => ih r (h.2 r)⟩
  | drop q next ih => exact ⟨h.1,ih h.2⟩

/-- From a state on, every query is of `R`. -/
theorem Asks.respects (htrans : ∀ s s' s'', R s s' → R s' s'' → R s s'') {p : Program σ α}
    (h : p.Asks Q) (hQ : ∀ ρ q, Q ρ q → ∀ s', R s s' → R s' (q s').2) :
    p.Respects R (fun _ _ => True) s := by
  induction p generalizing s with
  | done a => trivial
  | query q next ih =>
    refine fun s' hs => ⟨hQ _ q h.1 s' hs,ih _ (h.2 _) fun ρ q' hq' s'' hs' => ?_⟩
    exact hQ ρ q' hq' s'' (htrans _ _ _ hs (htrans _ _ _ (hQ _ q h.1 s' hs) hs'))
  | drop q next ih => exact ⟨hQ _ q h.1,ih h.2 hQ⟩

theorem Asks.blind {p : Program σ α} (h : p.Asks Q)
    (hQ : ∀ ρ q, Q ρ q → ∀ s t, E s t → (q s).1 = (q t).1 ∧ E (q s).2 (q t).2) : p.Blind E := by
  induction p with
  | done a => trivial
  | query q next ih => exact ⟨hQ _ q h.1,fun r => ih r (h.2 r)⟩
  | drop q next ih => exact ⟨fun s t hE => (hQ _ q h.1 s t hE).2,ih h.2⟩

end Rules

end Program

/-! ## Programs that may fail -/

/-- A program whose result may be an error. -/
abbrev Promised (ε σ : Type) := ExceptT ε (Program σ)

section Chains

open Program

variable {x : Promised ε σ α} {f : α → Promised ε σ β} {R : σ → σ → Prop} {s : σ}

/-- One query. -/
def ask {ρ : Type} (q : σ → ρ × σ) : Promised ε σ ρ := ExceptT.lift (query q done)

/-- One query that nobody waits for. -/
def forget {ρ : Type} (q : σ → ρ × σ) : Promised ε σ Unit := ExceptT.lift (drop q (done ()))

/-- The outcome as a value. -/
def attempt (x : Promised ε σ α) : Promised ε σ (Except ε α) := ExceptT.lift x.run

theorem exec_ask {ρ : Type} (q : σ → ρ × σ) (s : σ) :
    (ask q : Promised ε σ ρ).run.exec s = (.ok (q s).1,(q s).2) := rfl

theorem exec_attempt (x : Promised ε σ α) (s : σ) :
    (attempt x).run.exec s = (.ok (x.run.exec s).1,(x.run.exec s).2) := exec_bind ..

theorem exec_chain (x : Promised ε σ α) (f : α → Promised ε σ β) (s : σ) :
    (x >>= f).run.exec s = match x.run.exec s with
      | (.ok a,s') => (f a).run.exec s'
      | (.error e,s') => (.error e,s') := by
  refine (exec_bind x.run _ s).trans ?_
  rcases x.run.exec s with ⟨_ | a,s'⟩ <;> rfl

theorem respects_chain {post : Except ε α → σ → Prop} {post' : Except ε β → σ → Prop}
    (h : x.run.Respects R post s)
    (hok : ∀ a s, post (.ok a) s → (f a).run.Respects R post' s)
    (herror : ∀ e s, post (.error e) s → post' (.error e) s) :
    (x >>= f).run.Respects R post' s := by
  refine Respects.bind h fun r s hr => ?_
  cases r with
  | ok a => exact hok a s hr
  | error e => exact herror e s hr

variable {Q : ∀ ρ : Type, (σ → ρ × σ) → Prop}

theorem asks_chain (h : x.run.Asks Q) (hf : ∀ a, (f a).run.Asks Q) : (x >>= f).run.Asks Q := by
  refine Asks.bind h fun r => ?_
  cases r with
  | ok a => exact hf a
  | error e => trivial

theorem asks_pure (a : α) : (pure a : Promised ε σ α).run.Asks Q := trivial

theorem asks_throw (e : ε) : (throw e : Promised ε σ α).run.Asks Q := trivial

theorem asks_ask {ρ : Type} {q : σ → ρ × σ} (hq : Q ρ q) : (ask q : Promised ε σ ρ).run.Asks Q :=
  ⟨hq,fun _ => trivial⟩

theorem asks_forget {ρ : Type} {q : σ → ρ × σ} (hq : Q ρ q) :
    (forget q : Promised ε σ Unit).run.Asks Q := ⟨hq,trivial⟩

theorem asks_attempt (h : x.run.Asks Q) : (attempt x).run.Asks Q := Asks.bind h fun _ => trivial

theorem asks_map (g : α → β) (h : x.run.Asks Q) : (g <$> x).run.Asks Q :=
  Asks.bind h fun r => by cases r <;> trivial

theorem asks_ite {c : Prop} [Decidable c] {y : Promised ε σ α} (hx : x.run.Asks Q)
    (hy : y.run.Asks Q) : (if c then x else y).run.Asks Q := by
  split
  · exact hx
  · exact hy

end Chains

/-! ## Pools of programs -/

/-- The programs that were started, in this order, and the queries that were dropped. -/
structure Pool (σ α : Type) : Type 1 where
  state : σ
  calls : List (Program σ α) := []
  dropped : List (σ → σ) := []

inductive Move (ε τ : Type)
  | start (r : τ)
  | advance (i : Nat)
  | late (i : Nat)
  | outside (e : ε)

/-- A program is started for a request, the next query of one that was started is executed or
dropped, a dropped one is executed, or something else happens to the state. -/
inductive Step (world : σ → ε → σ → Prop) (serve : τ → Program σ α) :
    Pool σ α → Move ε τ → Pool σ α → Prop
  | start {P : Pool σ α} (r : τ) :
      Step world serve P (.start r) { P with calls := P.calls ++ [serve r] }
  | query {P : Pool σ α} {i : Nat} {ρ : Type} {q : σ → ρ × σ} {next : ρ → Program σ α}
      (hi : P.calls[i]? = some (.query q next)) : Step world serve P (.advance i)
        { P with state := (q P.state).2, calls := P.calls.set i (next (q P.state).1) }
  | drop {P : Pool σ α} {i : Nat} {ρ : Type} {q : σ → ρ × σ} {next : Program σ α}
      (hi : P.calls[i]? = some (.drop q next)) : Step world serve P (.advance i)
        { P with calls := P.calls.set i next, dropped := P.dropped ++ [fun s => (q s).2] }
  | late {P : Pool σ α} {i : Nat} {f : σ → σ} (hi : P.dropped[i]? = some f) :
      Step world serve P (.late i)
        { P with state := f P.state, dropped := P.dropped.eraseIdx i }
  | outside {P : Pool σ α} {e : ε} {s : σ} (h : world P.state e s) :
      Step world serve P (.outside e) { P with state := s }

/-- What the `i`-th program that was started came to. -/
def Pool.answer (P : Pool σ α) (i : Nat) : Option α :=
  match P.calls[i]? with
  | some (.done a) => some a
  | _ => none

/-- The request that the move takes in. -/
def Move.request : Move ε τ → Option τ
  | .start r => some r
  | _ => none

/-- The requests of a history, newest first. -/
def requests (h : List (Pool σ α × Move ε τ)) : List τ := h.filterMap fun e => e.2.request

theorem mem_requests {h : List (Pool σ α × Move ε τ)} {r : τ} :
    r ∈ requests h ↔ ∃ P, (P,Move.start r) ∈ h := by
  rw [requests,List.mem_filterMap]
  constructor
  · rintro ⟨⟨P,m⟩,hm,hr⟩
    cases m with
    | start r' =>
      obtain rfl := Option.some.inj hr
      exact ⟨P,hm⟩
    | _ => cases hr
  · rintro ⟨P,hm⟩
    exact ⟨_,hm,rfl⟩

theorem requests_append (h h' : List (Pool σ α × Move ε τ)) :
    requests (h' ++ h) = requests h' ++ requests h := List.filterMap_append

section Pools

variable {world : σ → ε → σ → Prop} {serve : τ → Program σ α} {R E : σ → σ → Prop}
variable {h : List (Pool σ α × Move ε τ)} {P P' : Pool σ α} {m : Move ε τ} {s t : σ}
variable {post : τ → α → σ → Prop} {rs : List τ}

/-- The programs that were started for the requests, in this order, respect `R` from the present
state on and come to what is said of their requests; what was dropped is of `R`. -/
structure Orderly (R : σ → σ → Prop) (post : τ → α → σ → Prop) (rs : List τ) (P : Pool σ α) :
    Prop where
  calls : List.Forall₂ (fun r p => p.Respects R (post r) P.state) rs P.calls
  dropped : ∀ f ∈ P.dropped, ∀ s, R P.state s → R s (f s)

theorem orderly_idle (R : σ → σ → Prop) (post : τ → α → σ → Prop) (s : σ) :
    Orderly R post [] ⟨s,[],[]⟩ := ⟨.nil,nofun⟩

theorem forall₂_getElem? {γ : Type*} {S : τ → γ → Prop} {l : List γ} {i : Nat} {c : γ}
    (h : List.Forall₂ S rs l) (hi : l[i]? = some c) : ∃ r, rs[i]? = some r ∧ S r c := by
  induction h generalizing i with
  | nil => cases hi
  | cons hS _ ih =>
    cases i with
    | zero => exact ⟨_,rfl,Option.some.inj hi ▸ hS⟩
    | succ i => exact ih hi

theorem forall₂_set {γ : Type*} {S T : τ → γ → Prop} {l : List γ} {i : Nat} {c c' : γ}
    (h : List.Forall₂ S rs l) (hi : l[i]? = some c) (hT : ∀ r d, S r d → T r d)
    (hc : ∀ r, S r c → T r c') : List.Forall₂ T rs (l.set i c') := by
  induction h generalizing i with
  | nil => cases hi
  | cons hS htail ih =>
    cases i with
    | zero => exact .cons (hc _ (Option.some.inj hi ▸ hS)) (htail.imp hT)
    | succ i => exact .cons (hT _ _ hS) (ih hi)

theorem Orderly.outside (htrans : ∀ s s' s'', R s s' → R s' s'' → R s s'')
    (hpost : ∀ r a s s', post r a s → R s s' → post r a s') (ho : Orderly R post rs P)
    (hs : R P.state s) : Orderly R post rs { P with state := s } where
  calls := ho.calls.imp fun r _ hp => hp.stable htrans (hpost r) hs
  dropped f hf s' hs' := ho.dropped f hf s' (htrans _ _ _ hs hs')

theorem Orderly.answer (ho : Orderly R post rs P) {i : Nat} {a : α} (ha : P.answer i = some a) :
    ∃ r, rs[i]? = some r ∧ post r a P.state := by
  rw [Pool.answer] at ha
  split at ha
  · next a' hi =>
    obtain rfl := Option.some.inj ha
    obtain ⟨r,hr,hp⟩ := forall₂_getElem? ho.calls hi
    exact ⟨r,hr,hp⟩
  · cases ha

/-- What one move does to the state is of `R`, and what was started stays orderly. -/
theorem Step.respects (hrefl : ∀ s, R s s) (htrans : ∀ s s' s'', R s s' → R s' s'' → R s s'')
    (hout : ∀ s e s', world s e s' → R s s')
    (hpost : ∀ r a s s', post r a s → R s s' → post r a s')
    (hserve : ∀ r, m = .start r → (serve r).Respects R (post r) P.state)
    (ho : Orderly R post rs P) (hs : Step world serve P m P') :
    R P.state P'.state ∧ Orderly R post (rs ++ m.request.toList) P' := by
  have hrest : ∀ {P' : Pool σ α}, Orderly R post rs P' → Orderly R post (rs ++ []) P' :=
    fun ho => (List.append_nil rs).symm ▸ ho
  cases hs with
  | start r =>
    exact ⟨hrefl _,List.rel_append ho.calls (.cons (hserve r rfl) .nil),ho.dropped⟩
  | query hi =>
    obtain ⟨r,_,hp⟩ := forall₂_getElem? ho.calls hi
    have hq := (hp _ (hrefl _)).1
    exact ⟨hq,hrest ⟨forall₂_set ho.calls hi (fun r _ hp => hp.stable htrans (hpost r) hq)
      fun r hp => (hp _ (hrefl _)).2,(ho.outside htrans hpost hq).dropped⟩⟩
  | drop hi =>
    obtain ⟨r,_,hp⟩ := forall₂_getElem? ho.calls hi
    refine ⟨hrefl _,hrest ⟨forall₂_set ho.calls hi (fun _ _ hp => hp) fun _ hp => hp.2,?_⟩⟩
    intro f hf
    rcases List.mem_append.mp hf with hf | hf
    · exact ho.dropped f hf
    · obtain rfl := List.mem_singleton.mp hf
      exact hp.1
  | late hi =>
    have hf := ho.dropped _ (List.mem_of_getElem? hi) _ (hrefl _)
    have hlate := ho.outside htrans hpost hf
    exact ⟨hf,hrest ⟨hlate.calls,fun g hg => hlate.dropped g (List.mem_of_mem_eraseIdx hg)⟩⟩
  | outside h => exact ⟨hout _ _ _ h,hrest (ho.outside htrans hpost (hout _ _ _ h))⟩

/-- A run whose requests are served by programs that respect `R`. -/
theorem run_respects (hrefl : ∀ s, R s s) (htrans : ∀ s s' s'', R s s' → R s' s'' → R s s'')
    (hout : ∀ s e s', world s e s' → R s s')
    (hpost : ∀ r a s s', post r a s → R s s' → post r a s')
    (hr : Run (Step world serve) ⟨s,[],[]⟩ h P)
    (hserve : ∀ r ∈ requests h, ∀ s', R s s' → (serve r).Respects R (post r) s') :
    (∀ P' ∈ Run.states h P, R s P'.state) ∧ Orderly R post (requests h).reverse P := by
  induction hr with
  | nil =>
    refine ⟨fun P' hP' => ?_,orderly_idle R post s⟩
    obtain rfl := List.mem_singleton.mp hP'
    exact hrefl s
  | @snoc h P P' m _ hs ih =>
    have hcons : requests ((P,m) :: h) = m.request.toList ++ requests h := requests_append h [(P,m)]
    obtain ⟨hR,ho⟩ := ih fun r hr => hserve r (hcons ▸ List.mem_append_right _ hr)
    have hP : R s P.state := hR P List.mem_cons_self
    obtain ⟨hstep,ho'⟩ := Step.respects hrefl htrans hout hpost
      (fun r hm => hserve r (mem_requests.mpr ⟨P,hm ▸ List.mem_cons_self⟩) _ hP) ho hs
    refine ⟨fun Q hQ => ?_,?_⟩
    · rcases List.mem_cons.mp hQ with rfl | hQ
      · exact htrans _ _ _ hP hstep
      · exact hR Q hQ
    · rw [hcons,List.reverse_append]
      cases m <;> exact ho'

/-- Two pools with the same programs, none of which can tell their states apart. -/
structure Twins (E : σ → σ → Prop) (P Q : Pool σ α) : Prop where
  state : E P.state Q.state
  calls : Q.calls = P.calls
  dropped : Q.dropped = P.dropped
  blind : ∀ p ∈ P.calls, p.Blind E
  late : ∀ f ∈ P.dropped, ∀ s t, E s t → E (f s) (f t)

theorem Twins.answer {Q : Pool σ α} (ht : Twins E P Q) (i : Nat) : Q.answer i = P.answer i := by
  rw [Pool.answer,ht.calls]
  rfl

/-- What one of two twins does, the other can do. -/
theorem Step.twins {Q : Pool σ α}
    (hout : ∀ s t e s', E s t → world s e s' → ∃ t', world t e t' ∧ E s' t')
    (hserve : ∀ r, m = .start r → (serve r).Blind E) (ht : Twins E P Q)
    (hs : Step world serve P m P') : ∃ Q', Step world serve Q m Q' ∧ Twins E P' Q' := by
  have hset : ∀ {p : Program σ α} {i : Nat}, p.Blind E → ∀ p' ∈ P.calls.set i p, p'.Blind E := by
    intro p i hp p' hp'
    rcases List.mem_or_eq_of_mem_set hp' with hp' | rfl
    · exact ht.blind p' hp'
    · exact hp
  cases hs with
  | start r =>
    refine ⟨_,.start r,ht.state,congrArg (· ++ [serve r]) ht.calls,ht.dropped,?_,ht.late⟩
    intro p hp
    rcases List.mem_append.mp hp with hp | hp
    · exact ht.blind p hp
    · exact List.mem_singleton.mp hp ▸ hserve r rfl
  | query hi =>
    obtain ⟨hq,hnext⟩ := ht.blind _ (List.mem_of_getElem? hi)
    obtain ⟨hresult,hstate⟩ := hq _ _ ht.state
    refine ⟨_,.query (ht.calls ▸ hi),hstate,?_,ht.dropped,hset (hnext _),ht.late⟩
    rw [ht.calls,hresult]
  | drop hi =>
    obtain ⟨hq,hnext⟩ := ht.blind _ (List.mem_of_getElem? hi)
    refine ⟨_,.drop (ht.calls ▸ hi),ht.state,?_,?_,hset hnext,fun f hf => ?_⟩
    · rw [ht.calls]
    · rw [ht.dropped]
    · rcases List.mem_append.mp hf with hf | hf
      · exact ht.late f hf
      · exact List.mem_singleton.mp hf ▸ hq
  | late hi =>
    refine ⟨_,.late (ht.dropped ▸ hi),ht.late _ (List.mem_of_getElem? hi) _ _ ht.state,ht.calls,
      ?_,ht.blind,fun f hf => ht.late f (List.mem_of_mem_eraseIdx hf)⟩
    rw [ht.dropped]
  | outside h =>
    obtain ⟨t',ht',hE⟩ := hout _ _ _ _ ht.state h
    exact ⟨_,.outside ht',hE,ht.calls,ht.dropped,ht.blind,ht.late⟩

/-- A run whose requests are served by blind programs goes the same way from a state that is
alike. -/
theorem run_twins
    (hout : ∀ s t e s', E s t → world s e s' → ∃ t', world t e t' ∧ E s' t')
    (hE : E s t) (hr : Run (Step world serve) ⟨s,[],[]⟩ h P)
    (hserve : ∀ r ∈ requests h, (serve r).Blind E) :
    ∃ h' Q, Run (Step world serve) ⟨t,[],[]⟩ h' Q ∧ h'.map Prod.snd = h.map Prod.snd ∧
      Twins E P Q := by
  induction hr with
  | nil => exact ⟨[],_,.nil,rfl,hE,rfl,rfl,nofun,nofun⟩
  | @snoc h P P' m _ hs ih =>
    have hcons : ∀ r ∈ requests h, r ∈ requests ((P,m) :: h) := fun r hr =>
      (requests_append h [(P,m)]).symm ▸ List.mem_append_right _ hr
    obtain ⟨h',Q,hrun,hmoves,ht⟩ := ih fun r hr => hserve r (hcons r hr)
    obtain ⟨Q',hs',ht'⟩ := hs.twins hout
      (fun r hm => hserve r (mem_requests.mpr ⟨P,hm ▸ List.mem_cons_self⟩)) ht
    exact ⟨_,Q',hrun.snoc hs',congrArg (m :: ·) hmoves,ht'⟩

/-- A program that was started goes to its end while the others stand still. -/
theorem exists_finish (p : Program σ α) (s : σ) (cs : List (Program σ α)) (ds : List (σ → σ)) :
    ∃ h, Run (Step world serve) ⟨s,cs ++ [p],ds⟩ h
      ⟨(p.exec s).2,cs ++ [.done (p.exec s).1],ds⟩ ∧ requests h = [] := by
  have hlast : ∀ p : Program σ α, (cs ++ [p])[cs.length]? = some p := fun p => by simp
  have hset : ∀ p p' : Program σ α, (cs ++ [p]).set cs.length p' = cs ++ [p'] := fun p p' => by simp
  induction p generalizing s with
  | done a => exact ⟨[],.nil,rfl⟩
  | query q next ih =>
    obtain ⟨h,hr,hq⟩ := ih (q s).1 (q s).2
    have hs : Step world serve ⟨s,cs ++ [.query q next],ds⟩ (.advance cs.length) _ :=
      .query (hlast _)
    rw [hset] at hs
    refine ⟨_,(Run.nil.snoc hs).trans hr,?_⟩
    rw [requests_append,hq]
    rfl
  | drop q next ih =>
    obtain ⟨h,hr,hq⟩ := ih (q s).2
    have hs : Step world serve ⟨s,cs ++ [.drop q next],ds⟩ (.advance cs.length) _ :=
      .drop (hlast _)
    rw [hset] at hs
    have hlate : Step world serve ⟨s,cs ++ [next],ds ++ [fun s => (q s).2]⟩ (.late ds.length) _ :=
      .late (f := fun s => (q s).2) (by simp)
    have herase : (ds ++ [fun s => (q s).2]).eraseIdx ds.length = ds := by
      rw [List.eraseIdx_append_of_length_le (Nat.le_refl _)]
      simp
    rw [herase] at hlate
    refine ⟨_,((Run.nil.snoc hs).snoc hlate).trans hr,?_⟩
    rw [requests_append,hq]
    rfl

/-- A request that is served alone. -/
theorem exists_serve (P : Pool σ α) (r : τ) : ∃ h, Run (Step world serve) P h
    { P with
      state := ((serve r).exec P.state).2
      calls := P.calls ++ [.done ((serve r).exec P.state).1] } ∧ requests h = [r] := by
  obtain ⟨h,hr,hq⟩ := @exists_finish _ _ _ _ world serve (serve r) P.state P.calls P.dropped
  refine ⟨_,(Run.nil.snoc (.start r)).trans hr,?_⟩
  rw [requests_append,hq]
  rfl

end Pools

end Interleaving
