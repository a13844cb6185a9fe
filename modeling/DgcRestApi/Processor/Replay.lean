import DgcRestApi.Processor.Apply

/-!
# Replaying requests

A list of requests applied one after the other, all of which must be accepted. A replay is a
run, so a ledger can be reached by evaluating the handler on concrete requests; the sample
at the end is such a ledger.
-/

namespace DgcRestApi
open Fallible

def replay (env : Env) (orders : Orders) (requests : List TpProcessRequest) (state : State) :
    Except ApplyError State :=
  requests.foldlM (fun state request => apply env orders request state) state

/-- The state after a replay, the empty ledger when a request was rejected. -/
def outcome (result : Except ApplyError State) : State :=
  match result with
  | .ok state => state
  | .error _ => State.empty

theorem eq_outcome {result : Except ApplyError State} (h : result.isOk = true) :
    result = .ok (outcome result) := by
  cases result with
  | ok state => rfl
  | error e => exact nomatch h

section Runs

variable {env : Env} {orders : Orders} {requests : List TpProcessRequest} {s s' : State}

theorem accepted_of_apply {request : TpProcessRequest}
    (h : apply env orders request s = .ok s') :
    ∃ tx, request.tx? = some tx ∧ Accepted env s tx s' := by
  obtain ⟨payload,hp,_⟩ := bind_eq_ok.mp h
  have htx : request.tx? = some
      { signer := request.signerPublicKey, timestamp := payload.timestamp,
        action := payload.action } := by
    rw [TpProcessRequest.tx?,found_of_expect hp]
    rfl
  exact ⟨_,htx,orders,request,htx,h⟩

/-- A replay is a run whose history carries the transactions of the requests. -/
theorem replay_run (h : replay env orders requests s = .ok s') :
    ∃ history, Run (Accepted env) s history s' ∧
      history.map (fun e => some e.2) = (requests.map TpProcessRequest.tx?).reverse := by
  induction requests generalizing s with
  | nil =>
    obtain rfl : s = s' := foldlM_nil_eq_ok.mp h
    exact ⟨[],.nil,rfl⟩
  | cons request requests ih =>
    obtain ⟨t,ht,htail⟩ := foldlM_cons_eq_ok.mp h
    obtain ⟨tx,htx,hacc⟩ := accepted_of_apply ht
    obtain ⟨history,hrun,hmap⟩ := ih htail
    refine ⟨history ++ [(s,tx)],Run.trans (.snoc .nil hacc) hrun,?_⟩
    simp [hmap,htx]

/-- What a history says about its transactions can be read off the requests. -/
theorem filterMap_history {β : Type} {history : List (State × Tx)}
    (h : history.map (fun e => some e.2) = (requests.map TpProcessRequest.tx?).reverse)
    (f : Tx → Option β) :
    history.filterMap (fun e => f e.2) = (requests.filterMap fun r => r.tx?.bind f).reverse := by
  calc history.filterMap (fun e => f e.2)
      = (history.map fun e => some e.2).filterMap (fun o => o.bind f) := by
        rw [List.filterMap_map]
        rfl
    _ = (requests.filterMap fun r => r.tx?.bind f).reverse := by
        rw [h,List.filterMap_reverse,List.filterMap_map]
        rfl

theorem replay_snoc {request : TpProcessRequest} (h : replay env orders requests s = .ok s')
    {s'' : State} (happly : apply env orders request s' = .ok s'') :
    replay env orders (requests ++ [request]) s = .ok s'' := by
  rw [replay,List.foldlM_append,bind_eq_ok]
  exact ⟨s',h,foldlM_cons_eq_ok.mpr ⟨s'',happly,foldlM_nil_eq_ok.mpr rfl⟩⟩

end Runs

namespace Sample

/-- A digest for evaluation: the input itself, padded with zeros. -/
def sha : Sha512 where
  resultStr x := (x.toList ++ List.replicate 128 '0').take 128
  length_resultStr x := by simp

def env : Env where
  sha := sha
  writeToBytes
    | .properties es => es.all fun q => q.reporters.length < 2 ^ 32
    | _ => true
  debugBalance _ := ""
  logInfo := false

def orders : Orders where
  tableSchema := ⟨id,fun _ => .refl _⟩
  requiredProperties := ⟨id,fun _ => .refl _⟩
  providedProperties := ⟨id,fun _ => .refl _⟩

def request (signer : String) (payload : PayloadMessage) : TpProcessRequest :=
  { signerPublicKey := signer, payload := some payload }

/-- Two participants, a table with one column and a record of the first participant. -/
def base : List TpProcessRequest :=
  [request "A"
    { action := .CREATE_PARTICIPANT, timestamp := 1, createParticipant := { name := "Ann" } },
   request "B"
    { action := .CREATE_PARTICIPANT, timestamp := 2, createParticipant := { name := "Bob" } },
   request "A"
    { action := .CREATE_TABLE, timestamp := 3,
      createTable := { name := "t", properties := [{ name := "p", dataType := .NUMBER }] } },
   request "A"
    { action := .CREATE_RECORD, timestamp := 4, createRecord := { recordId := "r", table := "t" } }]

def propose (signer : String) (timestamp : Nat) (createProposal : CreateProposalAction) :
    TpProcessRequest :=
  request signer { action := .CREATE_PROPOSAL, timestamp, createProposal }

def answer (signer : String) (timestamp : Nat) (answerProposal : AnswerProposalAction) :
    TpProcessRequest :=
  request signer { action := .ANSWER_PROPOSAL, timestamp, answerProposal }

/-- The ledger after the base requests and some more. -/
def after (requests : List TpProcessRequest) : State :=
  outcome (replay env orders (base ++ requests) State.empty)

/-- The ledger after one more request. -/
def next (request : TpProcessRequest) (state : State) : State :=
  outcome (apply env orders request state)

/-- The handler accepts the base requests and then these. -/
abbrev Valid (requests : List TpProcessRequest) : Prop :=
  (replay env orders (base ++ requests) State.empty).isOk = true

theorem next_eq {request : TpProcessRequest} {state : State}
    (h : (apply env orders request state).isOk = true) :
    apply env orders request state = .ok (next request state) := eq_outcome h

/-- An answer that the handler accepts, as a step. -/
theorem accepted_answer (signer : String) (timestamp : Nat) (a : AnswerProposalAction)
    (state : State) (h : (apply env orders (answer signer timestamp a) state).isOk = true) :
    Accepted env state ⟨signer,timestamp,.AnswerProposal a⟩
      (next (answer signer timestamp a) state) := by
  obtain ⟨tx,htx,hacc⟩ := accepted_of_apply (next_eq h)
  obtain rfl := tx_answer rfl htx
  exact hacc

theorem after_eq {requests : List TpProcessRequest} (h : Valid requests) :
    replay env orders (base ++ requests) State.empty = .ok (after requests) := eq_outcome h

theorem reachable {requests : List TpProcessRequest} (h : Valid requests) :
    ∃ history, Reachable env history (after requests) ∧ history.map (fun e => some e.2) =
      ((base ++ requests).map TpProcessRequest.tx?).reverse := replay_run (after_eq h)

end Sample

end DgcRestApi
