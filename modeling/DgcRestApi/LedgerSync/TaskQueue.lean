import DgcRestApi.Kit.Run
import DgcRestApi.LedgerSync.Queue

/-!
# The queue of promised functions

`deltaQueue` over arbitrary functions, one step for each thing that can happen to them: one is
added, the call of one returns its promise or throws, a promise is fulfilled or rejected. The
reaction to a promise is part of its settlement. `_runNext` only reacts to fulfilment, so a
function that throws or is rejected leaves `_running` set with nothing under way.
-/

namespace DgcRestApi.LedgerSync

/-- Where a function that was started is: in its call, or its promise is unsettled. -/
inductive Stage
  | calling | promised
deriving DecidableEq

/-- The fields of `deltaQueue`, the functions under way, and all that were ever started. -/
structure TaskQueue (Fn : Type) where
  queue : List Fn := []
  running : Bool := false
  unsettled : List (Fn × Stage) := []
  started : List Fn := []

namespace TaskQueue

variable {Fn : Type}

/-- `_runNext`, up to the call of the function. -/
def runNext (q : TaskQueue Fn) : TaskQueue Fn :=
  match q.queue with
  | [] => { q with running := false }
  | current :: queue =>
    { q with
      queue
      unsettled := q.unsettled ++ [(current,.calling)]
      started := q.started ++ [current] }

def runUntilEmpty (q : TaskQueue Fn) : TaskQueue Fn :=
  if q.running then q else runNext { q with running := true }

def add (promisedFn : Fn) (q : TaskQueue Fn) : TaskQueue Fn :=
  runUntilEmpty { q with queue := q.queue ++ [promisedFn] }

end TaskQueue

inductive TaskEvent (Fn : Type)
  | add (f : Fn)
  | returned (f : Fn)
  | threw (f : Fn)
  | fulfilled (f : Fn)
  | rejected (f : Fn)

def TaskEvent.adds {Fn : Type} : TaskEvent Fn → List Fn
  | .add f => [f]
  | _ => []

/-- The function throws, or its promise is rejected. -/
def TaskEvent.Fails {Fn : Type} : TaskEvent Fn → Prop
  | .threw _ => True
  | .rejected _ => True
  | _ => False

section Steps

variable {Fn : Type}

/-- What can happen, in any order. -/
inductive TaskStep : TaskQueue Fn → TaskEvent Fn → TaskQueue Fn → Prop
  | add (q : TaskQueue Fn) (f : Fn) : TaskStep q (.add f) (q.add f)
  | returned {q : TaskQueue Fn} {f : Fn} {before after : List (Fn × Stage)}
      (h : q.unsettled = before ++ (f,.calling) :: after) :
      TaskStep q (.returned f) { q with unsettled := before ++ (f,.promised) :: after }
  | threw {q : TaskQueue Fn} {f : Fn} {before after : List (Fn × Stage)}
      (h : q.unsettled = before ++ (f,.calling) :: after) :
      TaskStep q (.threw f) { q with unsettled := before ++ after }
  | fulfilled {q : TaskQueue Fn} {f : Fn} {before after : List (Fn × Stage)}
      (h : q.unsettled = before ++ (f,.promised) :: after) :
      TaskStep q (.fulfilled f) (TaskQueue.runNext { q with unsettled := before ++ after })
  | rejected {q : TaskQueue Fn} {f : Fn} {before after : List (Fn × Stage)}
      (h : q.unsettled = before ++ (f,.promised) :: after) :
      TaskStep q (.rejected f) { q with unsettled := before ++ after }

/-- The functions that were added in a run, in order. -/
def added (h : List (TaskQueue Fn × TaskEvent Fn)) : List Fn :=
  h.reverse.flatMap fun e => e.2.adds

/-- What holds of the queue whatever happens: one function at most is under way, and then the
queue is running; while it is not running nothing is queued. -/
structure Exclusive (q : TaskQueue Fn) : Prop where
  one : q.unsettled.length ≤ 1
  running : q.unsettled ≠ [] → q.running = true
  idle : q.running = false → q.queue = []

/-- With nothing under way the queue is empty and not running. -/
def Released (q : TaskQueue Fn) : Prop :=
  q.unsettled = [] → q.queue = [] ∧ q.running = false

variable {q q' : TaskQueue Fn} {e : TaskEvent Fn} {h : List (TaskQueue Fn × TaskEvent Fn)}

theorem Exclusive.runNext (hone : q.unsettled = []) (hrunning : q.running = true) :
    Exclusive q.runNext ∧ Released q.runNext := by
  obtain ⟨queue,running,unsettled,started⟩ := q
  subst hone hrunning
  cases queue with
  | nil => exact ⟨⟨Nat.zero_le 1,fun hne => absurd rfl hne,fun _ => rfl⟩,fun _ => ⟨rfl,rfl⟩⟩
  | cons f queue =>
    exact ⟨⟨Nat.le_refl 1,fun _ => rfl,fun hidle => nomatch hidle⟩,fun hnone => nomatch hnone⟩

/-- One function under way: nothing is under way besides. -/
theorem Exclusive.alone (hq : Exclusive q) {before after : List (Fn × Stage)} {x : Fn × Stage}
    (h : q.unsettled = before ++ x :: after) : before = [] ∧ after = [] ∧ q.running = true := by
  have hlen := hq.one
  have hrunning := hq.running (by rw [h]; simp)
  rw [h,List.length_append,List.length_cons] at hlen
  refine ⟨List.eq_nil_of_length_eq_zero ?_,List.eq_nil_of_length_eq_zero ?_,hrunning⟩ <;> omega

/-- One step: the queue stays exclusive, and is released after it unless a function failed. -/
theorem TaskStep.exclusive (hs : TaskStep q e q') (hq : Exclusive q) :
    Exclusive q' ∧ (Released q → (Released q' ↔ ¬e.Fails)) := by
  cases hs with
  | add f =>
    rw [TaskQueue.add,TaskQueue.runUntilEmpty]
    by_cases hrunning : q.running = true
    · rw [if_pos hrunning]
      refine ⟨⟨hq.one,hq.running,fun hidle => ?_⟩,fun hr => iff_of_true ?_ id⟩
      · exact nomatch hrunning.symm.trans hidle
      · intro hnone
        have hidle := (hr hnone).2
        exact nomatch hrunning.symm.trans hidle
    · -- the queue was idle, so the function that is added is started
      have hnone : q.unsettled = [] := by
        by_contra hne
        exact hrunning (hq.running hne)
      rw [if_neg hrunning]
      obtain ⟨hexclusive,hreleased⟩ := @Exclusive.runNext _
        { q with queue := q.queue ++ [f], running := true } hnone rfl
      exact ⟨hexclusive,fun _ => iff_of_true hreleased id⟩
  | returned h =>
    obtain ⟨rfl,rfl,hrunning⟩ := hq.alone h
    exact ⟨⟨Nat.le_refl 1,fun _ => hrunning,hq.idle⟩,
      fun _ => iff_of_true (fun hnone => nomatch hnone) id⟩
  | fulfilled h =>
    obtain ⟨rfl,rfl,hrunning⟩ := hq.alone h
    obtain ⟨hexclusive,hreleased⟩ := @Exclusive.runNext _ { q with unsettled := [] } rfl hrunning
    exact ⟨hexclusive,fun _ => iff_of_true hreleased id⟩
  | threw h | rejected h =>
    obtain ⟨rfl,rfl,hrunning⟩ := hq.alone h
    refine ⟨⟨Nat.zero_le 1,fun hne => absurd rfl hne,hq.idle⟩,
      fun _ => iff_of_false ?_ fun hn => hn trivial⟩
    -- nothing is under way, and `_running` is still set
    intro hreleased
    exact nomatch hrunning.symm.trans (hreleased rfl).2

theorem TaskQueue.runNext_order (q : TaskQueue Fn) :
    q.runNext.started ++ q.runNext.queue = q.started ++ q.queue := by
  rw [TaskQueue.runNext]
  split
  · rfl
  · next hqueue => simp [hqueue]

/-- Functions are started from the front of the queue and added at its end. -/
theorem TaskStep.order (hs : TaskStep q e q') :
    q'.started ++ q'.queue = q.started ++ q.queue ++ e.adds := by
  cases hs with
  | add f =>
    rw [TaskQueue.add,TaskQueue.runUntilEmpty]
    split
    · exact (List.append_assoc ..).symm
    · exact (TaskQueue.runNext_order _).trans (List.append_assoc ..).symm
  | fulfilled => exact (TaskQueue.runNext_order _).trans (List.append_nil _).symm
  | _ => exact (List.append_nil _).symm

theorem run_order (hr : Run TaskStep {} h q) : q.started ++ q.queue = added h := by
  induction hr with
  | nil => rfl
  | snoc _ hs ih =>
    rw [hs.order,ih,added,added,List.reverse_cons,List.flatMap_append]
    simp

theorem exclusive_initial : Exclusive ({} : TaskQueue Fn) :=
  ⟨Nat.zero_le 1,fun hne => absurd rfl hne,fun _ => rfl⟩

theorem run_exclusive (hr : Run TaskStep {} h q) : Exclusive q :=
  hr.invariant Exclusive (fun _ _ _ hq hs => (hs.exclusive hq).1) exclusive_initial

/-- The delta queue starts the functions in the order added, each once, one at a time; it is
released in every state in which none is under way exactly if no function throws or is
rejected. -/
theorem delta_queue_released_iff (hr : Run TaskStep {} h q) :
    q.started ++ q.queue = added h ∧ (∀ x ∈ Run.states h q, x.unsettled.length ≤ 1) ∧
      ((∀ x ∈ Run.states h q, Released x) ↔ ∀ e ∈ h, ¬e.2.Fails) := by
  refine ⟨run_order hr,fun x hx => ?_,?_⟩
  · obtain ⟨_,hr'⟩ := hr.of_states hx
    exact (run_exclusive hr').one
  · have hiff := hr.states_iff (fun x => Exclusive x ∧ Released x) (fun e => ¬e.2.Fails)
      (fun _ _ _ hx hs => by
        obtain ⟨hexclusive,hreleased⟩ := hs.exclusive hx.1
        rw [and_iff_right hexclusive,hreleased hx.2])
      ⟨exclusive_initial,fun _ => ⟨rfl,rfl⟩⟩
    rw [← hiff]
    refine forall₂_congr fun x hx => ?_
    obtain ⟨_,hr'⟩ := hr.of_states hx
    exact (and_iff_right (run_exclusive hr')).symm

/-- Once a function failed, no other is ever started. -/
theorem run_wedged {q₀ : TaskQueue Fn} (hnone : q₀.unsettled = []) (hrunning : q₀.running = true)
    (hr : Run TaskStep q₀ h q) :
    q.unsettled = [] ∧ q.running = true ∧ q.started = q₀.started := by
  refine hr.invariant (fun x => x.unsettled = [] ∧ x.running = true ∧ x.started = q₀.started)
    ?_ ⟨hnone,hrunning,rfl⟩
  rintro x e x' ⟨hx,hxrunning,hstarted⟩ hs
  cases hs with
  | add f =>
    rw [TaskQueue.add,TaskQueue.runUntilEmpty,if_pos hxrunning]
    exact ⟨hx,hxrunning,hstarted⟩
  | returned h | threw h | fulfilled h | rejected h =>
    rw [hx] at h
    exact absurd h.symm (by simp)

end Steps

namespace Sample

/-- Two functions are added, and the first is fulfilled. -/
def fulfilling : List (TaskEvent String) :=
  [.add "a",.returned "a",.add "b",.fulfilled "a"]

def startedBoth : TaskQueue String := ⟨[],true,[("b",.calling)],["a","b"]⟩

theorem run_fulfilling : ∃ h, h.map Prod.snd = fulfilling.reverse ∧
    Run TaskStep {} h startedBoth := by
  have h₁ : TaskStep {} (.add "a") ⟨[],true,[("a",.calling)],["a"]⟩ := .add {} "a"
  have h₂ := @TaskStep.returned _ ⟨[],true,[("a",.calling)],["a"]⟩ "a" [] [] rfl
  have h₃ : TaskStep ⟨[],true,[("a",.promised)],["a"]⟩ (.add "b")
      ⟨["b"],true,[("a",.promised)],["a"]⟩ := .add _ "b"
  have h₄ := @TaskStep.fulfilled _ ⟨["b"],true,[("a",.promised)],["a"]⟩ "a" [] [] rfl
  exact ⟨_,rfl,(((Run.nil.snoc h₁).snoc h₂).snoc h₃).snoc h₄⟩

end Sample

theorem delta_queue_released_both : ∃ h, h.map Prod.snd = Sample.fulfilling.reverse ∧
    added h = ["a","b"] ∧ ∀ x ∈ Run.states h Sample.startedBoth, Released x := by
  obtain ⟨h,hevents,hr⟩ := Sample.run_fulfilling
  obtain ⟨horder,_,hreleased⟩ := delta_queue_released_iff hr
  refine ⟨h,hevents,horder.symm,hreleased.mpr fun e he => ?_⟩
  have hmem : e.2 ∈ Sample.fulfilling := by
    rw [← List.mem_reverse,← hevents]
    exact List.mem_map_of_mem he
  simp only [Sample.fulfilling,List.mem_cons,List.not_mem_nil,or_false] at hmem
  rcases hmem with he | he | he | he <;> rw [he] <;> exact id

/-- The first function is rejected: the second waits in a queue that runs nothing. -/
theorem delta_queue_wedged : ∃ h, Run TaskStep {} h ⟨["b"],true,[],["a"]⟩ ∧
    h.map Prod.snd = [.add "b",.rejected "a",.returned "a",.add "a"] ∧
    ¬Released (⟨["b"],true,[],["a"]⟩ : TaskQueue String) := by
  have h₁ : TaskStep {} (.add "a") ⟨[],true,[("a",.calling)],["a"]⟩ := .add {} "a"
  have h₂ := @TaskStep.returned _ ⟨[],true,[("a",.calling)],["a"]⟩ "a" [] [] rfl
  have h₃ := @TaskStep.rejected _ ⟨[],true,[("a",.promised)],["a"]⟩ "a" [] [] rfl
  have h₄ : TaskStep ⟨[],true,[],["a"]⟩ (.add "b") ⟨["b"],true,[],["a"]⟩ := .add _ "b"
  refine ⟨_,(((Run.nil.snoc h₁).snoc h₂).snoc h₃).snoc h₄,rfl,fun hreleased => ?_⟩
  exact nomatch (hreleased rfl).2

/-! ## The queue of deltas -/

/-- The state of the delta queue that the phase of the sync stands for. -/
structure Sync.Runs (s : Sync) (q : TaskQueue Delta) : Prop where
  queue : q.queue = s.queue
  running : q.running = true ↔ s.phase ≠ .idle
  settled : s.phase = .idle ∨ s.phase = .stuck → q.unsettled = []
  promised : s.phase ≠ .idle → s.phase ≠ .stuck → ∃ d, q.unsettled = [(d,.promised)]

section Simulation

variable {s s' : Sync} {e : Event} {q : TaskQueue Delta} {d : Delta}

theorem add_idle (h : s.phase = .idle) :
    add d s = runNext { s with queue := s.queue ++ [d] } := by
  rw [add,h]

theorem add_busy (h : s.phase ≠ .idle) : add d s = { s with queue := s.queue ++ [d] } := by
  rw [add]
  split
  · next hidle => exact absurd hidle h
  · rfl

theorem start_queue (d : Delta) (s : Sync) : (start d s).queue = s.queue := by
  rw [start]
  split <;> rfl

theorem start_phase (d : Delta) (s : Sync) : (start d s).phase = .stuck ∨
    ∃ block pageChanges, (start d s).phase = .waiting block pageChanges := by
  rw [start]
  split
  · exact Or.inl rfl
  · next pageChanges otherChanges _ =>
    by_cases hok : (sendEach d.block otherChanges).2 = true
    · exact Or.inr ⟨d.block,pageChanges,if_pos hok⟩
    · exact Or.inl (if_neg hok)

/-- The call of a delta's function throws, or returns a promise that waits for its timer. -/
theorem start_simulated (hqueue : q.queue = s.queue) (hrunning : q.running = true)
    (hcalling : q.unsettled = [(d,.calling)]) :
    ∃ h q', Run TaskStep q h q' ∧ (start d s).Runs q' := by
  rcases start_phase d s with hphase | ⟨block,pageChanges,hphase⟩
  · refine ⟨_,_,Run.nil.snoc (@TaskStep.threw _ q d [] [] hcalling),
      hqueue.trans (start_queue d s).symm,?_,fun _ => rfl,fun _ hstuck => absurd hphase hstuck⟩
    simp [hphase,hrunning]
  · refine ⟨_,_,Run.nil.snoc (@TaskStep.returned _ q d [] [] hcalling),
      hqueue.trans (start_queue d s).symm,?_,fun hidle => ?_,fun _ _ => ⟨d,rfl⟩⟩
    · simp [hphase,hrunning]
    · simp [hphase] at hidle

theorem runNext_simulated (hqueue : q.queue = s.queue) (hrunning : q.running = true)
    (hnone : q.unsettled = []) : ∃ h q', Run TaskStep q.runNext h q' ∧ (runNext s).Runs q' := by
  rw [runNext]
  cases hs : s.queue with
  | nil =>
    refine ⟨_,_,.nil,?_⟩
    rw [TaskQueue.runNext,hqueue,hs]
    exact ⟨rfl,iff_of_false (fun h => nomatch h) fun h => h rfl,fun _ => hnone,
      fun hidle => absurd rfl hidle⟩
  | cons d queue =>
    refine @start_simulated { s with queue } q.runNext d ?_ ?_ ?_
    all_goals rw [TaskQueue.runNext,hqueue,hs]
    · exact hrunning
    · rw [hnone]
      rfl

/-- The promise of the function under way is fulfilled. -/
theorem fulfilled_simulated (hq : s.Runs q) (hidle : s.phase ≠ .idle) (hstuck : s.phase ≠ .stuck) :
    ∃ h q', Run TaskStep q h q' ∧ (runNext s).Runs q' := by
  obtain ⟨d,hd⟩ := hq.promised hidle hstuck
  obtain ⟨h,q',hr,hq'⟩ := @runNext_simulated s { q with unsettled := [] } hq.queue
    (hq.running.mpr hidle) rfl
  exact ⟨_,q',(Run.nil.snoc (@TaskStep.fulfilled _ q d [] [] hd)).trans hr,hq'⟩

/-- A step that goes on with the function under way. -/
theorem Sync.Runs.going (hq : s.Runs q) (hidle : s.phase ≠ .idle) (hstuck : s.phase ≠ .stuck)
    (hqueue : s'.queue = s.queue) (hidle' : s'.phase ≠ .idle) (hstuck' : s'.phase ≠ .stuck) :
    s'.Runs q where
  queue := hq.queue.trans hqueue.symm
  running := iff_of_true (hq.running.mpr hidle) hidle'
  settled h := absurd h (not_or.mpr ⟨hidle',hstuck'⟩)
  promised _ _ := hq.promised hidle hstuck

/-- Whatever happens to the sync, happens to the queue of its functions. -/
theorem QueueStep.simulated (hs : QueueStep s e s') (hq : s.Runs q) :
    ∃ h q', Run TaskStep q h q' ∧ s'.Runs q' := by
  cases hs with
  | receive d =>
    have hadd : TaskStep q (.add d) (q.add d) := .add q d
    rw [TaskQueue.add,TaskQueue.runUntilEmpty] at hadd
    by_cases hidle : s.phase = .idle
    · -- the delta that is added is started at once
      have hrunning : ¬q.running = true := fun h => hq.running.mp h hidle
      rw [if_neg hrunning] at hadd
      obtain ⟨h,q',hr,hq'⟩ := @runNext_simulated { s with queue := s.queue ++ [d] }
        { q with queue := q.queue ++ [d], running := true } (by rw [hq.queue]) rfl
        (hq.settled (Or.inl hidle))
      exact ⟨_,q',(Run.nil.snoc hadd).trans hr,add_idle hidle ▸ hq'⟩
    · rw [if_pos (hq.running.mpr hidle)] at hadd
      rw [add_busy hidle]
      exact ⟨_,_,Run.nil.snoc hadd,by rw [hq.queue],hq.running,hq.settled,hq.promised⟩
  | @timer block pageChanges hphase =>
    have hidle : s.phase ≠ .idle := by simp [hphase]
    have hstuck : s.phase ≠ .stuck := by simp [hphase]
    rw [fire]
    by_cases hok : (sendEach block pageChanges).2 = true
    · exact ⟨[],q,.nil,hq.going hidle hstuck rfl (by simp [hok]) (by simp [hok])⟩
    · -- the decoding throws in a reaction, so the promise of the function is rejected
      obtain ⟨d,hd⟩ := hq.promised hidle hstuck
      refine ⟨_,_,Run.nil.snoc (@TaskStep.rejected _ q d [] [] hd),hq.queue,?_,fun _ => rfl,?_⟩
      · simp [hok,hq.running.mpr hidle]
      · simp [hok]
  | exec => exact ⟨[],q,.nil,hq.queue,hq.running,hq.settled,hq.promised⟩
  | next hphase => exact fulfilled_simulated hq (by simp [hphase]) (by simp [hphase])
  | resolved hphase => exact fulfilled_simulated hq (by simp [hphase]) (by simp [hphase])
  | insert hphase | fork hphase | replace hphase | defork hphase | remove hphase =>
    exact ⟨[],q,.nil,hq.going (by simp [hphase]) (by simp [hphase]) rfl (by simp) (by simp)⟩

/-- A run of the sync is one of the queue, to which the results above apply. -/
theorem sync_simulated {h : List (Sync × Event)} (hr : Run QueueStep {} h s) :
    ∃ h' q, Run TaskStep {} h' q ∧ s.Runs q := by
  induction hr with
  | nil =>
    exact ⟨[],{},.nil,rfl,iff_of_false (fun h => nomatch h) fun h => h rfl,fun _ => rfl,
      fun hidle => absurd rfl hidle⟩
  | snoc _ hs ih =>
    obtain ⟨h',q,hq,hruns⟩ := ih
    obtain ⟨h'',q',hq',hruns'⟩ := hs.simulated hruns
    exact ⟨_,q',hq.trans hq',hruns'⟩

/-- A sync that is stuck has a queue that was not released. -/
theorem Sync.Runs.stuck (hq : s.Runs q) (hstuck : s.phase = .stuck) : ¬Released q := by
  intro hreleased
  have hrunning := hq.running.mpr (by simp [hstuck])
  exact nomatch hrunning.symm.trans (hreleased (hq.settled (Or.inr hstuck))).2

end Simulation

end DgcRestApi.LedgerSync
