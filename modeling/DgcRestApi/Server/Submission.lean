import DgcRestApi.Ledger.Batches
import DgcRestApi.Ledger.Progress
import DgcRestApi.Server.Settlement

/-!
# Submitted transactions

What the processor does with the transactions of the server, one by one and in batches: if it can
store them, it applies them exactly when the ledger has steps for them. The server reads the clock
for each transaction of a batch, so that a batch may last longer than a second.
-/

namespace DgcRestApi
namespace Server
open Fallible

/-- A transaction of the server with the action. -/
def signed (server : ServerEnv) (privateKey : String) (now : Nat) (action : Action) :
    TpProcessRequest := createTxn server privateKey (action.payload now)

/-- The elements with the seconds that are read off the clock for them, one after the other. -/
def stamped {α : Type} (clock : Nat → Nat) (l : List α) : List (α × Nat) :=
  l.zipIdx.map fun e => (e.1,clock e.2)

/-- The transactions of a batch, from the actions and the second of each. -/
def batch (server : ServerEnv) (privateKey : String) (actions : List (Action × Nat)) :
    List TpProcessRequest :=
  actions.map fun e => signed server privateKey e.2 e.1

/-- What the request stores can be serialized. -/
def Writable (env : Env) (s : State) (request : TpProcessRequest) : Prop :=
  ∀ tx, request.tx? = some tx → Writes env s tx

/-- The transactions of a batch are applied in order, all or none. -/
inductive Batched (env : Env) : List TpProcessRequest → State → State → Prop
  | nil {s} : Batched env [] s s
  | cons {request requests s s₁ s'} (h : Submitted env request s true s₁)
      (hs : Batched env requests s₁ s') : Batched env (request :: requests) s s'

/-- Each request of a batch can be stored after those before it. -/
def BatchWritable (env : Env) : List TpProcessRequest → State → Prop
  | [],_ => True
  | request :: requests,s => Writable env s request ∧
      ∀ s', Submitted env request s true s' → BatchWritable env requests s'

section Stamps

variable {α β : Type} {clock : Nat → Nat} {l : List α} {e : α × Nat}

theorem stamped_cons (a : α) : stamped clock (a :: l) =
    (a,clock 0) :: stamped (fun i => clock (i + 1)) l := by
  rw [stamped,stamped,List.zipIdx_cons',List.map_cons,List.map_map]
  rfl

theorem stamped_append (l l' : List α) : stamped clock (l ++ l') =
    stamped clock l ++ stamped (fun i => clock (l.length + i)) l' := by
  induction l generalizing clock with
  | nil => simp [stamped]
  | cons a l ih =>
    rw [List.cons_append,stamped_cons,stamped_cons,ih,List.cons_append,List.length_cons]
    simp only [Nat.add_right_comm _ _ 1]

theorem stamped_map (f : α → β) :
    stamped clock (l.map f) = (stamped clock l).map fun e => (f e.1,e.2) := by
  induction l generalizing clock with
  | nil => rfl
  | cons a l ih => rw [List.map_cons,stamped_cons,stamped_cons,ih,List.map_cons]

@[simp] theorem map_fst_stamped : (stamped clock l).map Prod.fst = l := by
  rw [stamped,List.map_map]
  exact List.zipIdx_map_fst 0 l

theorem stamped_fst_mem (h : e ∈ stamped clock l) : e.1 ∈ l := by
  have hmem := List.mem_map_of_mem (f := Prod.fst) h
  rwa [map_fst_stamped] at hmem

theorem stamp_ne (hclock : ∀ i, clock i ≠ 0) (h : e ∈ stamped clock l) : e.2 ≠ 0 := by
  obtain ⟨e,_,rfl⟩ := List.mem_map.mp h
  exact hclock e.2

/-- What holds of the elements holds of them with their stamps. -/
theorem forall_stamped {P : α → Prop} : (∀ e ∈ stamped clock l, P e.1) ↔ ∀ a ∈ l, P a := by
  have hmap : (∀ a ∈ (stamped clock l).map Prod.fst, P a) ↔ ∀ e ∈ stamped clock l, P e.1 :=
    List.forall_mem_map
  rw [← hmap,map_fst_stamped]

/-- Within one second all have the same stamp. -/
theorem stamped_const {now : Nat} (h : ∀ i < l.length, clock i = now) :
    stamped clock l = l.map fun a => (a,now) := by
  induction l generalizing clock with
  | nil => rfl
  | cons a l ih =>
    rw [stamped_cons,h 0 (by simp),ih fun i hi => h (i + 1) (by simpa using hi),List.map_cons]

end Stamps

section Submissions

variable {env : Env} {server : ServerEnv} {privateKey : String} {now : Nat} {action : Action}
variable {actions : List (Action × Nat)} {h : List (State × Tx)} {s s' : State} {tx : Tx}
variable {L' : Ledger}

theorem new_payload (h : action.Named) (hnow : now ≠ 0) :
    PayloadDGC.new (some (action.payload now)) = .ok (some ⟨action,now⟩) := by
  have hstamp := action.payload_timestamp now
  refine bind_eq_ok.mpr ⟨_,payloadAction_payload h _,bind_eq_ok.mpr ⟨(),?_,?_⟩⟩
  · rwa [hstamp,rejectIf_eq_ok]
  · rw [hstamp]
    rfl

theorem payloadAction_payload_eq {action' : Action}
    (h : payloadAction (action.payload now) = .ok action') : action' = action := by
  cases action with
  | CreateParticipant a | CreateRecord a =>
    obtain ⟨_,_,h⟩ := bind_eq_ok.mp h
    exact (Except.ok.inj h).symm
  | CreateTable a =>
    obtain ⟨_,_,h⟩ := bind_eq_ok.mp h
    obtain ⟨_,_,h⟩ := bind_eq_ok.mp h
    obtain ⟨_,_,h⟩ := bind_eq_ok.mp h
    exact (Except.ok.inj h).symm
  | _ => exact (Except.ok.inj h).symm

/-- The processor reads the transaction that was signed. -/
theorem tx_signed (h : action.Named) (hnow : now ≠ 0) :
    (signed server privateKey now action).tx? = some ⟨server.publicKey privateKey,now,action⟩ :=
  congrArg (Option.map _) (found_of_ok (new_payload h hnow))

/-- A transaction that the processor reads is the one that was signed. -/
theorem tx_signed_eq (htx : (signed server privateKey now action).tx? = some tx) :
    tx = ⟨server.publicKey privateKey,now,action⟩ ∧ action.Named := by
  obtain ⟨payload,hp,rfl⟩ := Option.map_eq_some_iff.mp htx
  obtain ⟨action',haction,hp⟩ := bind_eq_ok.mp (found_eq_some.mp hp)
  obtain ⟨_,_,hp⟩ := bind_eq_ok.mp hp
  obtain rfl := Option.some.inj (Except.ok.inj hp)
  obtain rfl := payloadAction_payload_eq haction
  refine ⟨?_,payloadAction_named haction⟩
  rw [action'.payload_timestamp now]
  rfl

theorem tx_createProposal {a : CreateProposalAction}
    (htx : (createProposal server privateKey now a).tx? = some tx) :
    tx = ⟨server.publicKey privateKey,now,.CreateProposal a⟩ :=
  (@tx_signed_eq _ _ _ (.CreateProposal a) _ htx).1

/-- What was applied is a step of the ledger. -/
theorem Submitted.step (hr : Reachable env h s)
    (hs' : Submitted env (signed server privateKey now action) s true s') :
    (∃ h', Reachable env h' s') ∧ action.Named ∧
      Ledger.Step env.range (ledger env s) ⟨server.publicKey privateKey,now,action⟩
        (ledger env s') := by
  cases hs' with
  | accepted happly =>
    obtain ⟨tx,htx,hacc⟩ := accepted_of_apply happly
    obtain ⟨rfl,hnamed⟩ := tx_signed_eq htx
    exact ⟨⟨_,hr.snoc hacc⟩,hnamed,(accepted_refines (reachable_refines hr).1 hacc).2⟩

/-- A step of the ledger is applied, if it can be stored. -/
theorem submitted_of_step (hr : Reachable env h s)
    (hw : Writable env s (signed server privateKey now action)) (hnamed : action.Named)
    (hnow : now ≠ 0)
    (hstep : Ledger.Step env.range (ledger env s) ⟨server.publicKey privateKey,now,action⟩ L') :
    ∃ s', Submitted env (signed server privateKey now action) s true s' ∧ ledger env s' = L' := by
  let keep : IterOrder := ⟨id,fun _ => .refl _⟩
  have htx : (signed server privateKey now action).tx? = some _ := tx_signed hnamed hnow
  obtain ⟨s',hd,hshows⟩ := (hw _ htx).takes hr hstep ⟨keep,keep,keep⟩
  have happly : apply env ⟨keep,keep,keep⟩ (signed server privateKey now action) s = .ok s' :=
    bind_eq_ok.mpr ⟨⟨action,now⟩,expect_eq_ok.mpr (new_payload hnamed hnow),
      bind_eq_ok.mpr ⟨(),if_neg (by simp [signed,createTxn]),hd⟩⟩
  exact ⟨s',.accepted happly,hshows.ledger⟩

theorem submitted_iff_step (hr : Reachable env h s)
    (hw : Writable env s (signed server privateKey now action)) (hnow : now ≠ 0) :
    (∃ s', Submitted env (signed server privateKey now action) s true s' ∧ ledger env s' = L') ↔
      action.Named ∧
        Ledger.Step env.range (ledger env s) ⟨server.publicKey privateKey,now,action⟩ L' := by
  constructor
  · rintro ⟨s',hs',rfl⟩
    exact (hs'.step hr).2
  · exact fun ⟨hnamed,hstep⟩ => submitted_of_step hr hw hnamed hnow hstep

theorem submitted_iff (hr : Reachable env h s)
    (hw : Writable env s (signed server privateKey now action)) (hnow : now ≠ 0) :
    (∃ s', Submitted env (signed server privateKey now action) s true s') ↔ action.Named ∧
      ∃ L', Ledger.Step env.range (ledger env s) ⟨server.publicKey privateKey,now,action⟩ L' := by
  rw [← exists_and_left]
  simp only [← submitted_iff_step hr hw hnow]
  exact ⟨fun ⟨s',hs'⟩ => ⟨_,s',hs',rfl⟩,fun ⟨_,s',hs',_⟩ => ⟨s',hs'⟩⟩

theorem Batched.reachable {requests : List TpProcessRequest} (hr : Reachable env h s)
    (hs' : Batched env requests s s') : ∃ h', Reachable env h' s' := by
  induction hs' generalizing h with
  | nil => exact ⟨h,hr⟩
  | cons hone _ ih =>
    cases hone with
    | accepted happly =>
      obtain ⟨_,_,hacc⟩ := accepted_of_apply happly
      exact ih (hr.snoc hacc)

theorem writable_of_total (hr : Reachable env h s) (hw : ∀ c, env.writeToBytes c = true)
    (request : TpProcessRequest) : Writable env s request :=
  fun tx _ => writes_of_total (reachable_sane hr) hw tx

/-- Where every container can be serialized, every batch can be stored. -/
theorem batchWritable_of_total (hr : Reachable env h s) (hw : ∀ c, env.writeToBytes c = true)
    (requests : List TpProcessRequest) : BatchWritable env requests s := by
  induction requests generalizing s h with
  | nil => trivial
  | cons request requests ih =>
    refine ⟨writable_of_total hr hw request,fun s' hs' => ?_⟩
    cases hs' with
    | accepted happly =>
      obtain ⟨_,_,hacc⟩ := accepted_of_apply happly
      exact ih (hr.snoc hacc)

theorem Batched.steps (hr : Reachable env h s) (hs' : Batched env (batch server privateKey actions)
    s s') : (∀ e ∈ actions, e.1.Named) ∧
      Ledger.Steps env.range (server.publicKey privateKey) (ledger env s) actions
        (ledger env s') := by
  induction actions generalizing s h with
  | nil =>
    cases hs'
    exact ⟨List.forall_mem_nil _,.nil⟩
  | cons e actions ih =>
    cases hs' with
    | cons hone hrest =>
      obtain ⟨⟨h',hr'⟩,hfirst,hstep⟩ := hone.step hr
      obtain ⟨hnamed,hsteps⟩ := ih hr' hrest
      exact ⟨List.forall_mem_cons.mpr ⟨hfirst,hnamed⟩,.cons hstep hsteps⟩

theorem batched_iff_steps (hr : Reachable env h s)
    (hw : BatchWritable env (batch server privateKey actions) s) (hnow : ∀ e ∈ actions, e.2 ≠ 0) :
    (∃ s', Batched env (batch server privateKey actions) s s' ∧ ledger env s' = L') ↔
      (∀ e ∈ actions, e.1.Named) ∧
        Ledger.Steps env.range (server.publicKey privateKey) (ledger env s) actions L' := by
  constructor
  · rintro ⟨s',hs',rfl⟩
    exact hs'.steps hr
  · rintro ⟨hnamed,hsteps⟩
    induction actions generalizing s h with
    | nil =>
      cases hsteps
      exact ⟨s,.nil,rfl⟩
    | cons e actions ih =>
      cases hsteps with
      | cons hstep hsteps =>
        obtain ⟨hfirst,hnamed⟩ := List.forall_mem_cons.mp hnamed
        obtain ⟨hstamp,hnow⟩ := List.forall_mem_cons.mp hnow
        obtain ⟨s₁,hone,rfl⟩ := submitted_of_step hr hw.1 hfirst hstamp hstep
        obtain ⟨⟨h',hr'⟩,_⟩ := hone.step hr
        obtain ⟨s',hrest,hL'⟩ := ih hr' (hw.2 s₁ hone) hnow hnamed hsteps
        exact ⟨s',.cons hone hrest,hL'⟩

theorem batched_iff (hr : Reachable env h s)
    (hw : BatchWritable env (batch server privateKey actions) s) (hnow : ∀ e ∈ actions, e.2 ≠ 0) :
    (∃ s', Batched env (batch server privateKey actions) s s') ↔
      (∀ e ∈ actions, e.1.Named) ∧ ∃ L',
        Ledger.Steps env.range (server.publicKey privateKey) (ledger env s) actions L' := by
  rw [← exists_and_left]
  simp only [← batched_iff_steps hr hw hnow]
  exact ⟨fun ⟨s',hs'⟩ => ⟨_,s',hs',rfl⟩,fun ⟨_,s',hs',_⟩ => ⟨s',hs'⟩⟩

end Submissions

end Server
end DgcRestApi
