import DgcRestApi.LedgerSync.Deltas

/-!
# The delta queue

`deltaQueue` and the promise chain of `handle`, one step for each thing that happens: a
delta event arrives, the timer fires, the database executes a query, or its answer arrives.
The queue waits for the timer, for `blocks.insert` and for the queries of `resolveFork`. It
does not wait for the operations of the entries, which are in `ops` until the database
executes them, whatever the queue does meanwhile.
-/

namespace DgcRestApi.LedgerSync

/-- What the running function of the queue waits for. `stuck` is a throw or a rejection:
`_running` stays true and nothing runs any more. -/
inductive Phase
  | idle
  | waiting (block : Block) (pageChanges : List Change)
  | inserting (block : Block)
  | inserted (block : Block) (found : Option Block)
  | forking (block : Block)
  | forked (block : Block)
  | deforking (block : Block) (tables : List StateTable)
  | stuck

structure Sync where
  queue : List Delta := []
  phase : Phase := .idle
  ops : List Op := []
  db : Db := Db.empty

/-- `changes.map(entryAdder(block))`: the operations sent, and whether all changes decoded. -/
def sendEach (block : Block) : List Change → List Op × Bool
  | [] => ([],true)
  | change :: changes =>
    match entryAdder block change with
    | .error _ => ([],false)
    | .ok ops => (ops ++ (sendEach block changes).1,(sendEach block changes).2)

/-- The function that `handle` queues, up to its timer. -/
def start (d : Delta) (s : Sync) : Sync :=
  match partition d.changes with
  | .error _ => { s with phase := .stuck }
  | .ok (pageChanges,otherChanges) =>
    let (ops,ok) := sendEach d.block otherChanges
    { s with
      ops := s.ops ++ ops
      phase := if ok then .waiting d.block pageChanges else .stuck }

/-- The function from its timer to `blocks.insert`. -/
def fire (block : Block) (pageChanges : List Change) (s : Sync) : Sync :=
  let (ops,ok) := sendEach block pageChanges
  { s with
    ops := s.ops ++ ops
    phase := if ok then .inserting block else .stuck }

def runNext (s : Sync) : Sync :=
  match s.queue with
  | [] => { s with phase := .idle }
  | d :: queue => start d { s with queue }

/-- `deltaQueue.add` with `_runUntilEmpty`. -/
def add (d : Delta) (s : Sync) : Sync :=
  match s.phase with
  | .idle => runNext { s with queue := s.queue ++ [d] }
  | _ => { s with queue := s.queue ++ [d] }

inductive Event
  | receive (d : Delta)
  | timer
  | exec (op : Op)
  | insert
  | replace
  | remove (tableName : StateTable)
  | answer

inductive QueueStep : Sync → Event → Sync → Prop
  | receive (s : Sync) (d : Delta) : QueueStep s (.receive d) (add d s)
  | timer {s : Sync} {block : Block} {pageChanges : List Change}
      (hs : s.phase = .waiting block pageChanges) :
      QueueStep s .timer (fire block pageChanges s)
  | exec {s : Sync} {before after : List Op} {op : Op} (hs : s.ops = before ++ op :: after) :
      QueueStep s (.exec op)
        { s with
          ops := before ++ ((op.exec s.db).1 ++ after)
          db := (op.exec s.db).2 }
  | insert {s : Sync} {block : Block} (hs : s.phase = .inserting block) :
      QueueStep s .insert
        { s with
          phase := .inserted block (insertBlock block s.db).1
          db := (insertBlock block s.db).2 }
  | next {s : Sync} {block : Block} {found : Option Block} (hs : s.phase = .inserted block found)
      (hfork : isFork block found = false) : QueueStep s .answer (runNext s)
  | fork {s : Sync} {block : Block} {found : Option Block} (hs : s.phase = .inserted block found)
      (hfork : isFork block found = true) : QueueStep s .answer { s with phase := .forking block }
  | replace {s : Sync} {block : Block} (hs : s.phase = .forking block) :
      QueueStep s .replace { s with phase := .forked block, db := replaceBlocks block s.db }
  | defork {s : Sync} {block : Block} (hs : s.phase = .forked block) :
      QueueStep s .answer { s with phase := .deforking block stateTables }
  | remove {s : Sync} {block : Block} {before after : List StateTable} {t : StateTable}
      (hs : s.phase = .deforking block (before ++ t :: after)) :
      QueueStep s (.remove t)
        { s with
          phase := .deforking block (before ++ after)
          db := getForkedDocRemover block.blockNum t s.db }
  | resolved {s : Sync} {block : Block} (hs : s.phase = .deforking block []) :
      QueueStep s .answer (runNext s)

end DgcRestApi.LedgerSync
