import DgcRestApi.Kit.Fallible
import DgcRestApi.Kit.Index
import DgcRestApi.Kit.Run

/-!
# Users of the server

`db/users.js` keeps the users in one table and their names in another. No transaction spans
the two: a call that fails at the second write undoes the first one by hand. A failed promise
keeps what its queries wrote, so a call is a program with a state that survives its errors.
The promise of the first query of `insert` is dropped: when that query runs is left open.
-/

namespace DgcRestApi.Server.Users
open Persistent

/-! ## Arguments -/

/-- The properties of an argument; a value that is no string is `none`. -/
abbrev Input := List (String × Option String)

/-- The string under a key. -/
def Input.field (input : Input) (key : String) : Option String := (input.lookup key).join

/-- The `publicKey` of a valid document. -/
def Input.publicKey (input : Input) : String := (input.field "publicKey").getD ""

/-- `.` of a regular expression. -/
def isDot (c : Char) : Bool := c != '\n' && c != '\r' && c != '\u2028' && c != '\u2029'

/-- The rest of `.+\..+` after its first character. -/
def domainRest : List Char → Bool
  | [] => false
  | c :: cs => isDot c && (c == '.' && (match cs with
      | [] => false
      | d :: _ => isDot d) || domainRest cs)

/-- `/.+@.+\..+/` is found in the text. -/
def emailPattern : List Char → Bool
  | [] => false
  | c :: cs => isDot c && (match cs with
      | '@' :: d :: rest => isDot d && domainRest rest
      | _ => false) || emailPattern cs

example : emailPattern "user@mail.org".toList = true ∧ emailPattern "user@mail".toList = false := by
  decide +kernel

inductive Pattern
  | string | email
deriving DecidableEq, Repr

def Pattern.accepts : Pattern → Option String → Bool
  | _,none => false
  | .string,some _ => true
  | .email,some text => emailPattern text.toList

structure SchemaEntry where
  key : String
  pattern : Pattern
  optional : Bool
deriving DecidableEq, Repr

def USER_SCHEMA : List SchemaEntry :=
  [⟨"username",.string,false⟩,⟨"password",.string,false⟩,⟨"email",.email,false⟩,
    ⟨"publicKey",.string,false⟩,⟨"encryptedKey",.string,true⟩]

/-- Modified user schema with optional keys. -/
def UPDATE_SCHEMA : List SchemaEntry := USER_SCHEMA.map fun e => { e with optional := true }

/-- The test of `validate`: every property is of the schema, and all that must be are there. -/
def Input.valid (input : Input) (schema : List SchemaEntry) : Bool :=
  (input.all fun (key,value) => schema.any fun e => e.key = key && e.pattern.accepts value) &&
    schema.all fun e => e.optional || (input.lookup e.key).isSome

/-! ## Tables -/

/-- A document of the `users` table, which is stored under its `publicKey`. -/
structure User where
  username : String
  password : String
  email : String
  encryptedKey : Option String := none
deriving DecidableEq, Repr

/-- The document that an argument of `insert` is. -/
def Input.user (input : Input) : User where
  username := (input.field "username").getD ""
  password := (input.field "password").getD ""
  email := (input.field "email").getD ""
  encryptedKey := input.field "encryptedKey"

/-- The document with the changes merged into it. -/
def User.merge (user : User) (changes : Input) : User where
  username := (changes.field "username").getD user.username
  password := (changes.field "password").getD user.password
  email := (changes.field "email").getD user.email
  encryptedKey := (changes.field "encryptedKey").or user.encryptedKey

/-- A document as an argument of `updateTable`. -/
def User.input (publicKey : String) (user : User) : Input :=
  [("username",some user.username),("password",some user.password),("email",some user.email),
    ("publicKey",some publicKey)] ++
      user.encryptedKey.toList.map fun key => ("encryptedKey",some key)

structure Tables where
  users : String → Option User
  usernames : String → Bool

/-- The tables that `bootstrap_db.js` creates. -/
def Tables.empty : Tables where
  users _ := none
  usernames _ := false

/-- What is left to the database and to js-schema: which strings can be a primary key, the
text of the error about a key that is refused, and the first of the errors of an input that
does not fit its schema, if there is one. -/
structure Database where
  storable : String → Bool
  firstError : String → String
  schemaError : Input → Option (String × String)

section Keys

variable (db : Database) (t : Tables)

/-- `users` takes a document with the key. -/
def Database.Insertable (publicKey : String) : Prop :=
  db.storable publicKey = true ∧ t.users publicKey = none

/-- `usernames` takes the name. -/
def Database.Listable (username : String) : Prop :=
  db.storable username = true ∧ t.usernames username = false

instance (publicKey : String) : Decidable (db.Insertable t publicKey) :=
  inferInstanceAs (Decidable (_ ∧ _))

instance (username : String) : Decidable (db.Listable t username) :=
  inferInstanceAs (Decidable (_ ∧ _))

end Keys

/-! ## Queries -/

/-- The summary of a write, as far as it is read. -/
structure Results where
  inserted : Nat := 0
  replaced : Nat := 0
  unchanged : Nat := 0
  errors : Nat := 0
  firstError : String := ""
  changes : List (User × User) := []

/-- A query is executed as a whole. -/
abbrev Query := Tables → Results × Tables

section Queries

variable (db : Database)

def Database.refusal (key : String) : Results := { errors := 1, firstError := db.firstError key }

/-- `users.insert(user)`. -/
def insertUser (publicKey : String) (user : User) : Query := fun t =>
  if db.Insertable t publicKey then
    ({ inserted := 1 },{ t with users := Function.update t.users publicKey (some user) })
  else (db.refusal publicKey,t)

/-- `users.get(publicKey).delete()`. -/
def deleteUser (publicKey : String) : Query := fun t =>
  if db.storable publicKey = true then
    ({},{ t with users := Function.update t.users publicKey none })
  else (db.refusal publicKey,t)

/-- `users.get(publicKey).update(changes, {returnChanges: true})`. -/
def updateUser (publicKey : String) (changes : Input) : Query := fun t =>
  if db.storable publicKey = true then
    match t.users publicKey with
    | none => ({},t)
    | some user =>
      -- the primary key of a document cannot be changed
      if (changes.field "publicKey").getD publicKey ≠ publicKey then (db.refusal publicKey,t)
      else if user.merge changes = user then ({ unchanged := 1 },t)
      else ({ replaced := 1, changes := [(user,user.merge changes)] },
        { t with users := Function.update t.users publicKey (some (user.merge changes)) })
  else (db.refusal publicKey,t)

/-- `usernames.insert({username})`. -/
def insertUsername (username : String) : Query := fun t =>
  if db.Listable t username then
    ({ inserted := 1 },{ t with usernames := Function.update t.usernames username true })
  else (db.refusal username,t)

/-- `usernames.get(oldName).delete().do(() => usernames.insert({username}))`. -/
def replaceUsername (oldName username : String) : Query := fun t =>
  if db.storable oldName = true then
    insertUsername db username { t with usernames := Function.update t.usernames oldName false }
  else (db.refusal oldName,t)

end Queries

/-! ## Promises -/

/-- A chain of promises that is resolved or rejected, and the tables it leaves. -/
abbrev Promise := ExceptT String (StateM Tables)

def queryTable (query : Query) : Promise Results := ExceptT.lift query

/-- Use for queries that modify a table, turns error messages into errors. -/
def modifyTable (query : Query) : Promise Results := do
  let results ← queryTable query
  if results.errors > 0 then throw results.firstError else return results

/-- Inserts a document into a table, throwing an error on failure. -/
def insertTable (table : String) (query : Query) : Promise Results := do
  let results ← modifyTable query
  if results.inserted = 0 then throw ("Unknown Error: Unable to insert to " ++ table)
  else return results

def updateTable (db : Database) (primary : String) (changes : Input) : Promise Results := do
  let results ← modifyTable (updateUser db primary changes)
  if results.replaced = 0 ∧ results.unchanged = 0 then
    throw ("Unknown Error: Unable to update " ++ primary)
  else return results

def validate (db : Database) (input : Input) (schema : List SchemaEntry) : Promise Unit :=
  if input.valid schema = true then return
  else match db.schemaError input with
    | none => throw "Invalid Input: one or more keys forbidden"
    | some (key,message) => throw ("Invalid Input: \"" ++ key ++ "\" - " ++ message)

/-- When the first query of `insert` runs: before the second one, after it, or after all that
the call does. -/
inductive Timing
  | before | between | after
deriving DecidableEq, Repr

/-- A dropped promise: its query runs at its time, and nobody looks at the outcome. -/
def Timing.run (timing now : Timing) (query : Query) : Promise Unit :=
  if timing = now then discard (queryTable query) else return

/-- The outcome of a promise as a value. -/
def settle {α : Type} (promise : Promise α) : Promise (Except String α) := ExceptT.lift promise.run

/-- Delete user, before re-throwing error. -/
def removeUser (db : Database) (timing : Timing) (publicKey : String) (user : User)
    (err : String) : Promise Unit := do
  let deleted ← settle (modifyTable (deleteUser db publicKey))
  timing.run .after (insertUser db publicKey user)
  match deleted with
  | .ok _ => throw err
  | .error err => throw err

def insert (db : Database) (timing : Timing) (user : Input) : Promise Unit := do
  validate db user USER_SCHEMA
  let first := insertUser db user.publicKey user.user
  timing.run .before first
  let listed ← settle (insertTable "usernames" (insertUsername db user.user.username))
  timing.run .between first
  match listed with
  | .ok _ => timing.run .after first
  | .error err => removeUser db timing user.publicKey user.user err

/-- What `update` does about the username of a user it changed. -/
def updateUsername (db : Database) (publicKey : String) (changes : Input)
    (oldUser newUser : User) : Promise (Option User) :=
  let username := (changes.field "username").getD ""
  -- If username did not change, send back new users
  if username = "" then return newUser
  else do
    -- Modify usernames table with new name
    match ← settle (modifyTable (replaceUsername db oldUser.username username)) with
    | .ok _ => return newUser
    | .error err =>
      -- If failed to update usernames, reset user and re-throw error
      let _ ← updateTable db publicKey (oldUser.input publicKey)
      throw err

def update (db : Database) (publicKey : String) (changes : Input) : Promise (Option User) := do
  validate db changes UPDATE_SCHEMA
  let results ← updateTable db publicKey changes
  -- If changes did not change the resource, just fetch it
  if results.unchanged = 1 then return (← get).users publicKey
  else match results.changes with
    | [] => throw "TypeError"
    | (oldUser,newUser) :: _ => updateUsername db publicKey changes oldUser newUser

/-! ## What the calls write -/

section Writes

variable {db : Database} {t t' : Tables} {input : Input} {k n : String} {user : User}
variable {query : Query} {results : Results}

theorem exec_modifyTable_ok (h : query t = (results,t')) (hok : results.errors = 0) :
    exec (modifyTable query) t = (.ok results,t') := by
  have hquery : exec (queryTable query) t = (.ok results,t') := by
    rw [queryTable,exec_lift,h]
  rw [modifyTable,exec_bind_ok hquery,if_neg (by simp [hok]),exec_pure]

theorem exec_modifyTable_error (h : query t = (results,t')) (herror : 0 < results.errors) :
    exec (modifyTable query) t = (.error results.firstError,t') := by
  have hquery : exec (queryTable query) t = (.ok results,t') := by
    rw [queryTable,exec_lift,h]
  rw [modifyTable,exec_bind_ok hquery,if_pos herror,exec_throw]

theorem exec_validate (schema : List SchemaEntry) : ∃ e, exec (validate db input schema) t =
    (if input.valid schema = true then .ok () else .error e,t) := by
  rw [validate]
  split
  · exact ⟨"",rfl⟩
  · split <;> exact ⟨_,rfl⟩

theorem exec_run (timing now : Timing) :
    exec (timing.run now query) t = (.ok (),if timing = now then (query t).2 else t) := by
  rw [Timing.run]
  split <;> rfl

theorem exec_settle {α : Type} (promise : Promise α) :
    exec (settle promise) t = (.ok (exec promise t).1,(exec promise t).2) := rfl

/-- The second query of `insert`. -/
theorem exec_insertUsername : exec (insertTable "usernames" (insertUsername db n)) t =
    if db.Listable t n then
      (Except.ok { inserted := 1 },{ t with usernames := Function.update t.usernames n true })
    else (Except.error (db.firstError n),t) := by
  rw [insertTable]
  split
  · next h => rw [exec_bind_ok (exec_modifyTable_ok (if_pos h) rfl)]; rfl
  · next h => rw [exec_bind_error (exec_modifyTable_error (if_neg h) Nat.one_pos)]; rfl

/-- The tables after a call of `insert` with a valid document. -/
def Tables.inserted (db : Database) (t : Tables) (timing : Timing) (k : String) (user : User) :
    Tables :=
  if db.Listable t user.username then
    { users := if db.Insertable t k then Function.update t.users k (some user) else t.users
      usernames := Function.update t.usernames user.username true }
  else if db.storable k = true then
    { t with
      users := Function.update t.users k (if timing = .after then some user else none) }
  else t

theorem insertUser_tables : (insertUser db k user t).2 =
    { t with
      users := if db.Insertable t k then Function.update t.users k (some user) else t.users } := by
  rw [insertUser]
  split <;> rfl

theorem deleteUser_tables : (exec (modifyTable (deleteUser db k)) t).2 =
    if db.storable k = true then { t with users := Function.update t.users k none } else t := by
  split
  · next h => rw [exec_modifyTable_ok (if_pos h) rfl]
  · next h => rw [exec_modifyTable_error (if_neg h) Nat.one_pos]

/-- Whatever was stored under the key is removed, and comes back only when the first query
runs last. -/
theorem removeUser_tables (timing : Timing) (err : String) :
    (exec (removeUser db timing k user err) t).2 = if db.storable k = true then
      { t with
        users := Function.update t.users k (if timing = .after then some user else none) }
    else t := by
  rw [removeUser,exec_bind_ok (exec_settle _),exec_bind_ok (exec_run timing .after),
    deleteUser_tables]
  have hthrow : ∀ (deleted : Except String Results) t', (exec (match deleted with
      | .ok _ => throw err
      | .error err => throw err : Promise Unit) t').2 = t' := by
    intro deleted t'
    cases deleted <;> rfl
  rw [hthrow]
  by_cases hk : db.storable k = true
  · cases timing <;> simp [hk,insertUser_tables,Database.Insertable]
  · cases timing <;> simp [hk,insertUser_tables,Database.Insertable]

theorem insert_tables (timing : Timing) : (exec (insert db timing input) t).2 =
    if input.valid USER_SCHEMA = true then
      t.inserted db timing input.publicKey input.user
    else t := by
  obtain ⟨e,hvalidate⟩ := @exec_validate db t input USER_SCHEMA
  rw [insert]
  split
  · next hvalid =>
    rw [if_pos hvalid] at hvalidate
    rw [exec_bind_ok hvalidate]
    dsimp only
    generalize input.publicKey = k
    generalize input.user = user
    rw [exec_bind_ok (exec_run timing .before),exec_bind_ok (exec_settle _),
      exec_bind_ok (exec_run timing .between),exec_insertUsername,Tables.inserted]
    have hlisted : ∀ t' : Tables, t'.usernames = t.usernames →
        (db.Listable t' user.username ↔ db.Listable t user.username) := by
      intro t' ht'
      rw [Database.Listable,Database.Listable,ht']
    by_cases hn : db.Listable t user.username
    · have hkey : ∀ names, db.Insertable { t with usernames := names } k ↔ db.Insertable t k :=
        fun _ => Iff.rfl
      cases timing <;> simp [hlisted,hn,hkey,exec_run,insertUser_tables]
    · have hremoved : Function.update (if db.Insertable t k
          then Function.update t.users k (some user) else t.users) k none =
            Function.update t.users k none := by
        split <;> simp
      by_cases hk : db.storable k = true
      · cases timing <;> simp_all [removeUser_tables,insertUser_tables]
      · have hkept : ¬ db.Insertable t k := fun h => hk h.1
        cases timing <;> simp_all [removeUser_tables,insertUser_tables]
  · next hvalid =>
    rw [if_neg hvalid] at hvalidate
    rw [exec_bind_error hvalidate]

/-! ### `update` -/

theorem input_username (v w : User) : (w.merge (v.input k)).username = v.username := rfl

theorem input_publicKey (v : User) : (v.input k).field "publicKey" = some k := rfl

/-- An update of a user that is there. -/
theorem exec_updateTable {changes : Input} {v : User} (hk : db.storable k = true)
    (hv : t.users k = some v) (hkey : (changes.field "publicKey").getD k = k) :
    exec (updateTable db k changes) t = if v.merge changes = v then
      (Except.ok { unchanged := 1 },t)
    else (Except.ok { replaced := 1, changes := [(v,v.merge changes)] },
      { t with users := Function.update t.users k (some (v.merge changes)) }) := by
  have hquery : updateUser db k changes t = if v.merge changes = v then
      ({ unchanged := 1 },t)
    else ({ replaced := 1, changes := [(v,v.merge changes)] },
      { t with users := Function.update t.users k (some (v.merge changes)) }) := by
    simp [updateUser,hk,hv,hkey]
  rw [updateTable]
  split
  · next hsame =>
    rw [if_pos hsame] at hquery
    rw [exec_bind_ok (exec_modifyTable_ok hquery rfl)]
    rfl
  · next hsame =>
    rw [if_neg hsame] at hquery
    rw [exec_bind_ok (exec_modifyTable_ok hquery rfl)]
    rfl

/-- Any other update is refused or skipped, and fails. -/
theorem exec_updateTable_error {changes : Input} (h : ¬ (db.storable k = true ∧
    (changes.field "publicKey").getD k = k ∧ ∃ v, t.users k = some v)) :
    ∃ e, exec (updateTable db k changes) t = (.error e,t) := by
  rw [updateTable]
  by_cases hk : db.storable k = true
  · cases hv : t.users k with
    | none =>
      have hquery : updateUser db k changes t = ({},t) := by simp [updateUser,hk,hv]
      exact ⟨_,by rw [exec_bind_ok (exec_modifyTable_ok hquery rfl)]; rfl⟩
    | some v =>
      have hkey : (changes.field "publicKey").getD k ≠ k := fun hkey => h ⟨hk,hkey,v,hv⟩
      have hquery : updateUser db k changes t = (db.refusal k,t) := by
        simp [updateUser,hk,hv,hkey]
      exact ⟨_,exec_bind_error (exec_modifyTable_error hquery Nat.one_pos) _⟩
  · have hquery : updateUser db k changes t = (db.refusal k,t) := by simp [updateUser,hk]
    exact ⟨_,exec_bind_error (exec_modifyTable_error hquery Nat.one_pos) _⟩

/-- The reset of a user writes the old values over the new ones. -/
theorem reset_tables {v w : User} (hk : db.storable k = true) (hw : t.users k = some w) :
    ∃ outcome, exec (updateTable db k (v.input k)) t = (.ok outcome,
      { t with users := Function.update t.users k (some (w.merge (v.input k))) }) := by
  rw [exec_updateTable hk hw (by rw [input_publicKey]; rfl)]
  split
  · next hsame =>
    rw [hsame,← hw,Function.update_eq_self]
    exact ⟨_,rfl⟩
  · exact ⟨_,rfl⟩

/-- The tables after the third query of `update`, and the fourth if that failed. -/
def Tables.renamed (db : Database) (t : Tables) (k : String) (v w : User) (n : String) : Tables :=
  if db.storable v.username = true then
    if db.Listable { t with usernames := Function.update t.usernames v.username false } n then
      { t with
        usernames := Function.update (Function.update t.usernames v.username false) n true }
    else
      { users := Function.update t.users k (some (w.merge (v.input k)))
        usernames := Function.update t.usernames v.username false }
  else { t with users := Function.update t.users k (some (w.merge (v.input k))) }

theorem updateUsername_tables {changes : Input} {v w : User} (hk : db.storable k = true)
    (hw : t.users k = some w) : (exec (updateUsername db k changes v w) t).2 =
      if (changes.field "username").getD "" = "" then t
      else t.renamed db k v w ((changes.field "username").getD "") := by
  rw [updateUsername]
  generalize (changes.field "username").getD "" = n
  split
  · rfl
  · rw [exec_bind_ok (exec_settle _),Tables.renamed]
    have hreset : ∀ (t' : Tables) (err : String), t'.users k = some w → (exec (do
        let _ ← updateTable db k (v.input k)
        throw err : Promise (Option User)) t').2 =
          { t' with users := Function.update t'.users k (some (w.merge (v.input k))) } := by
      intro t' err hw'
      obtain ⟨outcome,hreset⟩ := @reset_tables db t' k v w hk hw'
      rw [exec_bind_ok hreset]
      rfl
    by_cases hold : db.storable v.username = true
    · have hquery : replaceUsername db v.username n t = insertUsername db n
          { t with usernames := Function.update t.usernames v.username false } := if_pos hold
      rw [if_pos hold]
      by_cases hn : db.Listable
          { t with usernames := Function.update t.usernames v.username false } n
      · rw [if_pos hn,exec_modifyTable_ok (hquery.trans (if_pos hn)) rfl]
        rfl
      · rw [if_neg hn,exec_modifyTable_error (hquery.trans (if_neg hn)) Nat.one_pos]
        exact hreset _ _ hw
    · rw [if_neg hold,exec_modifyTable_error (if_neg hold) Nat.one_pos]
      exact hreset _ _ hw

/-- The tables after a call of `update` that finds the user `v`. -/
def Tables.updated (db : Database) (t : Tables) (k : String) (changes : Input) (v : User) :
    Tables :=
  let w := v.merge changes
  let t' : Tables := { t with users := Function.update t.users k (some w) }
  if w = v then t
  else if (changes.field "username").getD "" = "" then t'
  else t'.renamed db k v w ((changes.field "username").getD "")

theorem update_tables {changes : Input} {v : User} (hvalid : changes.valid UPDATE_SCHEMA = true)
    (hk : db.storable k = true) (hv : t.users k = some v)
    (hkey : (changes.field "publicKey").getD k = k) :
    (exec (update db k changes) t).2 = t.updated db k changes v := by
  obtain ⟨e,hvalidate⟩ := @exec_validate db t changes UPDATE_SCHEMA
  rw [if_pos hvalid] at hvalidate
  have hupdate := exec_updateTable hk hv hkey
  rw [update,exec_bind_ok hvalidate,Tables.updated]
  split
  · next hsame =>
    rw [if_pos hsame] at hupdate
    rw [exec_bind_ok hupdate]
    rfl
  · next hsame =>
    rw [if_neg hsame] at hupdate
    rw [exec_bind_ok hupdate]
    exact updateUsername_tables hk (Function.update_self ..)

/-- The changes are valid and leave the key of a user who is there. -/
def Finds (db : Database) (t : Tables) (k : String) (changes : Input) : Prop :=
  changes.valid UPDATE_SCHEMA = true ∧ db.storable k = true ∧
    (changes.field "publicKey").getD k = k ∧ ∃ v, t.users k = some v

theorem update_failed {changes : Input} (h : ¬ Finds db t k changes) :
    (exec (update db k changes) t).2 = t := by
  obtain ⟨e,hvalidate⟩ := @exec_validate db t changes UPDATE_SCHEMA
  rw [update]
  by_cases hvalid : changes.valid UPDATE_SCHEMA = true
  · rw [if_pos hvalid] at hvalidate
    obtain ⟨e,herror⟩ := exec_updateTable_error fun h' => h ⟨hvalid,h'⟩
    rw [exec_bind_ok hvalidate,exec_bind_error herror]
  · rw [if_neg hvalid] at hvalidate
    rw [exec_bind_error hvalidate]

end Writes

/-! ## Calls one after the other -/

/-- A call, with the time at which the query runs that `insert` does not wait for. -/
inductive Call
  | insert (user : Input) (timing : Timing)
  | update (publicKey : String) (changes : Input)

/-- The tables when all queries of the call have run. -/
def Call.tables (db : Database) (t : Tables) : Call → Tables
  | .insert user timing => (exec (Users.insert db timing user) t).2
  | .update publicKey changes => (exec (Users.update db publicKey changes) t).2

/-- No two users have one name, and the names listed are those of the users. -/
def InStep (t : Tables) : Prop := Indexes User.username t.users t.usernames

/-- The calls that the compensations do not cover. -/
inductive Breaks (db : Database) (t : Tables) : Call → Prop
  /-- the key is refused, and the name is listed nevertheless -/
  | orphaned {user timing} (hvalid : user.valid USER_SCHEMA = true)
      (hkey : ¬ db.Insertable t user.publicKey)
      (hname : db.Listable t user.user.username) : Breaks db t (.insert user timing)
  /-- key and name are refused, and the user who has the key is removed -/
  | removed {user timing v} (hvalid : user.valid USER_SCHEMA = true)
      (hkey : t.users user.publicKey = some v)
      (hname : ¬ db.Listable t user.user.username)
      (htiming : timing = .after → v.username ≠ user.user.username) :
      Breaks db t (.insert user timing)
  /-- the name is refused, and the user is inserted when it was removed already -/
  | late {user} (hvalid : user.valid USER_SCHEMA = true)
      (hkey : db.Insertable t user.publicKey)
      (hname : ¬ db.Listable t user.user.username) : Breaks db t (.insert user .after)
  /-- the new name is refused when the old one was struck already -/
  | renamed {k changes v n} (hvalid : changes.valid UPDATE_SCHEMA = true)
      (hv : t.users k = some v) (hkey : (changes.field "publicKey").getD k = k)
      (hn : changes.field "username" = some n) (hempty : n ≠ "") (hother : n ≠ v.username)
      (hname : ¬ db.Listable t n) : Breaks db t (.update k changes)
  /-- the new name is empty, which counts as no new name -/
  | blanked {k changes v} (hvalid : changes.valid UPDATE_SCHEMA = true)
      (hv : t.users k = some v) (hkey : (changes.field "publicKey").getD k = k)
      (hn : changes.field "username" = some "") (hother : v.username ≠ "") :
      Breaks db t (.update k changes)

section Steps

variable {db : Database} {t : Tables} {k : String} {user v : User} {timing : Timing}
variable {changes : Input}

/-- Whatever is stored under a key has a key that can be stored. -/
structure Storable (db : Database) (t : Tables) : Prop where
  keys : ∀ k v, t.users k = some v → db.storable k = true
  names : ∀ n, t.usernames n = true → db.storable n = true

/-- When the name can be listed, the key must be free as well. -/
theorem inserted_listed_iff (h : InStep t) (hn : db.Listable t user.username) :
    InStep (t.inserted db timing k user) ↔ db.Insertable t k := by
  rw [Tables.inserted,if_pos hn]
  by_cases hk : db.Insertable t k
  · refine iff_of_true ?_ hk
    have hadd := h.add hk.2 hn.2
    rwa [InStep,if_pos hk]
  · refine iff_of_false (fun h' => ?_) hk
    rw [InStep,if_neg hk] at h'
    have hlisted : t.usernames user.username = true := h.list_iff.mp h'
    rw [hn.2] at hlisted
    cases hlisted

/-- When the name is refused, the document under the key is removed, or replaced if the first
query runs last. -/
theorem inserted_refused_iff (h : InStep t) (hn : ¬ db.Listable t user.username) :
    InStep (t.inserted db timing k user) ↔ (db.storable k = true →
      if timing = .after then ∃ b, t.users k = some b ∧ b.username = user.username
      else t.users k = none) := by
  rw [Tables.inserted,if_neg hn]
  by_cases hk : db.storable k = true
  · rw [if_pos hk,imp_iff_right hk]
    split
    · exact h.put_iff
    · exact h.erase_iff
  · rw [if_neg hk]
    exact iff_of_true h fun hk' => absurd hk' hk

/-- After the old name was struck, the new one can be listed if it is the old one or could be
listed before. -/
theorem listable_struck {t' : Tables} {n : String}
    (ht' : t'.usernames = Function.update t.usernames v.username false)
    (hold : db.storable v.username = true) :
    db.Listable t' n ↔ n = v.username ∨ db.Listable t n := by
  rw [Database.Listable,ht']
  by_cases hn : n = v.username
  · simp [hn,hold]
  · simp [Database.Listable,hn]

theorem updated_iff (h : InStep t) (hnames : ∀ n, t.usernames n = true → db.storable n = true)
    (hv : t.users k = some v) : InStep (t.updated db k changes v) ↔
      ∀ n, changes.field "username" = some n → n = v.username ∨ n ≠ "" ∧ db.Listable t n := by
  have hold : t.usernames v.username = true := h.mem hv
  -- the user is there, so a write of its document alone must keep the name
  have hput : ∀ w : User, Indexes User.username (Function.update t.users k (some w)) t.usernames ↔
      v.username = w.username := by
    intro w
    rw [h.put_iff,hv]
    simp
  rw [Tables.updated]
  cases hn : changes.field "username" with
  | none =>
    have hname : (v.merge changes).username = v.username := by simp [User.merge,hn]
    refine iff_of_true ?_ fun _ hn' => by cases hn'
    split
    · exact h
    · exact (hput _).mpr hname.symm
  | some n =>
    have hname : (v.merge changes).username = n := by simp [User.merge,hn]
    simp only [Option.some.injEq,forall_eq',Option.getD_some]
    split
    · next hsame => exact iff_of_true h (Or.inl (by rw [← hname,hsame]))
    · split
      · next hempty =>
        subst hempty
        rw [InStep,hput,hname,or_iff_left fun h => h.1 rfl]
        exact eq_comm
      · next hempty =>
        rw [Tables.renamed,if_pos (hnames _ hold)]
        split
        · next hstruck =>
          have hfree := (listable_struck rfl (hnames _ hold)).mp hstruck
          refine iff_of_true ?_ (hfree.imp_right fun hfree => ⟨hempty,hfree⟩)
          have hmove := h.move (a := v.merge changes) hv (by rw [hname]; exact hstruck.2)
          rwa [hname] at hmove
        · next hstruck =>
          refine iff_of_false (fun h' => hstruck ?_) fun hfree => hstruck ?_
          · -- the old name is struck and the user has it again
            rw [InStep,Function.update_idem] at h'
            have hlisted := ((hput _).mpr (input_username v _).symm).list_iff.mp h'
            rw [hold] at hlisted
            cases hlisted
          · exact (listable_struck rfl (hnames _ hold)).mpr (hfree.imp_right And.right)

theorem Storable.put (h : Storable db t) (hk : db.storable k = true) (o : Option User) :
    Storable db { t with users := Function.update t.users k o } := by
  refine ⟨fun k' v hv => ?_,h.names⟩
  by_cases hk' : k' = k
  · rwa [hk']
  · dsimp only at hv
    exact h.keys k' v (by rwa [Function.update_of_ne hk'] at hv)

theorem Storable.list {n : String} (h : Storable db t) (hn : db.storable n = true) :
    Storable db { t with usernames := Function.update t.usernames n true } := by
  refine ⟨h.keys,fun n' hn' => ?_⟩
  by_cases he : n' = n
  · rwa [he]
  · dsimp only at hn'
    exact h.names n' (by rwa [Function.update_of_ne he] at hn')

theorem Storable.strike (h : Storable db t) (n : String) :
    Storable db { t with usernames := Function.update t.usernames n false } := by
  refine ⟨h.keys,fun n' hn' => h.names n' ?_⟩
  dsimp only at hn'
  by_cases he : n' = n
  · simp [he] at hn'
  · rwa [Function.update_of_ne he] at hn'

theorem Storable.inserted (h : Storable db t) : Storable db (t.inserted db timing k user) := by
  rw [Tables.inserted]
  split
  · next hn =>
    split
    · next hk => exact (h.put hk.1 _).list hn.1
    · exact h.list hn.1
  · split
    · next hk => exact h.put hk _
    · exact h

theorem Storable.updated (h : Storable db t) (hv : t.users k = some v) :
    Storable db (t.updated db k changes v) := by
  have hk : db.storable k = true := h.keys k v hv
  have hput : ∀ w, Storable db { t with users := Function.update t.users k (some w) } :=
    fun w => h.put hk _
  rw [Tables.updated]
  split
  · exact h
  · split
    · exact hput _
    · rw [Tables.renamed]
      split
      · split
        · next hn => exact ((hput _).strike _).list hn.1
        · exact ((hput _).put hk _).strike _
      · exact (hput _).put hk _

/-- Tables in step, all of whose keys could be stored. -/
structure Sound (db : Database) (t : Tables) : Prop where
  inStep : InStep t
  storable : Storable db t

theorem sound_empty : Sound db .empty where
  inStep := Indexes.empty
  storable := ⟨fun _ _ hv => (nomatch hv),fun _ hn => (nomatch hn)⟩

theorem Storable.sound_iff (h : Storable db t) : Sound db t ↔ InStep t :=
  ⟨Sound.inStep,fun h' => ⟨h',h⟩⟩

/-- An insert whose name can be listed breaks tables when its key is refused. -/
theorem breaks_listed_iff {input : Input} (hvalid : input.valid USER_SCHEMA = true)
    (hn : db.Listable t input.user.username) :
    Breaks db t (.insert input timing) ↔ ¬ db.Insertable t input.publicKey := by
  refine ⟨fun hbreaks => ?_,fun hk => .orphaned hvalid hk hn⟩
  cases hbreaks with
  | orphaned _ hk => exact hk
  | removed _ _ hn' => exact absurd hn hn'
  | late _ _ hn' => exact absurd hn hn'

/-- One whose name is refused keeps them when the key cannot be stored, and when the first
query writes last what is there already or writes earlier where nothing was. -/
theorem not_breaks_refused_iff {input : Input} (h : Storable db t)
    (hvalid : input.valid USER_SCHEMA = true) (hn : ¬ db.Listable t input.user.username) :
    ¬ Breaks db t (.insert input timing) ↔ (db.storable input.publicKey = true →
      if timing = .after then
        ∃ b, t.users input.publicKey = some b ∧ b.username = input.user.username
      else t.users input.publicKey = none) := by
  constructor
  · intro hno hk
    cases hv : t.users input.publicKey with
    | none =>
      split
      · next htime =>
        subst htime
        exact absurd (.late hvalid ⟨hk,hv⟩ hn) hno
      · rfl
    | some v =>
      have hsame : ¬ (timing = .after → v.username ≠ input.user.username) :=
        fun htiming => hno (.removed hvalid hv hn htiming)
      push Not at hsame
      rw [if_pos hsame.1]
      exact ⟨v,rfl,hsame.2⟩
  · intro hkept hbreaks
    cases hbreaks with
    | orphaned _ _ hn' => exact hn hn'
    | @removed _ _ v _ hkey _ htiming =>
      have hkept := hkept (h.keys _ v hkey)
      split at hkept
      · next htime =>
        obtain ⟨b,hb,hname⟩ := hkept
        obtain rfl := Option.some.inj (hkey.symm.trans hb)
        exact htiming htime hname
      · rw [hkept] at hkey
        cases hkey
    | late _ hkey =>
      obtain ⟨b,hb,_⟩ := hkept hkey.1
      rw [hkey.2] at hb
      cases hb

/-- An update of a user who is there keeps the tables when the new name, if there is one, is
the old one or can be listed. -/
theorem not_breaks_update_iff (hvalid : changes.valid UPDATE_SCHEMA = true)
    (hkey : (changes.field "publicKey").getD k = k) (hv : t.users k = some v) :
    ¬ Breaks db t (.update k changes) ↔
      ∀ n, changes.field "username" = some n → n = v.username ∨ n ≠ "" ∧ db.Listable t n := by
  constructor
  · intro hno n hn
    by_contra hbad
    push Not at hbad
    obtain ⟨hother,htaken⟩ := hbad
    by_cases hempty : n = ""
    · subst hempty
      exact hno (.blanked hvalid hv hkey hn (Ne.symm hother))
    · exact hno (.renamed hvalid hv hkey hn hempty hother (htaken hempty))
  · intro hkept hbreaks
    cases hbreaks with
    | @renamed _ _ v' n _ hv' _ hn hempty hother hname =>
      obtain rfl := Option.some.inj (hv.symm.trans hv')
      rcases hkept n hn with hsame | ⟨_,hfree⟩
      · exact hother hsame
      · exact hname hfree
    | @blanked _ _ v' _ hv' _ hn hother =>
      obtain rfl := Option.some.inj (hv.symm.trans hv')
      rcases hkept "" hn with hsame | ⟨hempty,_⟩
      · exact hother hsame.symm
      · exact hempty rfl

theorem sound_insert_iff {input : Input} (h : Sound db t) :
    Sound db ((Call.insert input timing).tables db t) ↔ ¬ Breaks db t (.insert input timing) := by
  rw [Call.tables,insert_tables]
  split
  · next hvalid =>
    rw [h.storable.inserted.sound_iff]
    by_cases hn : db.Listable t input.user.username
    · rw [inserted_listed_iff h.inStep hn,breaks_listed_iff hvalid hn,not_not]
    · rw [inserted_refused_iff h.inStep hn,not_breaks_refused_iff h.storable hvalid hn]
  · next hvalid =>
    refine iff_of_true h fun hbreaks => ?_
    cases hbreaks <;> contradiction

theorem sound_update_iff (h : Sound db t) :
    Sound db ((Call.update k changes).tables db t) ↔ ¬ Breaks db t (.update k changes) := by
  rw [Call.tables]
  by_cases hfound : Finds db t k changes
  · obtain ⟨hvalid,hk,hkey,v,hv⟩ := hfound
    rw [update_tables hvalid hk hv hkey,(h.storable.updated hv).sound_iff,
      updated_iff h.inStep h.storable.names hv,not_breaks_update_iff hvalid hkey hv]
  · rw [update_failed hfound]
    refine iff_of_true h fun hbreaks => hfound ?_
    cases hbreaks with
    | renamed hvalid hv hkey => exact ⟨hvalid,h.storable.keys k _ hv,hkey,_,hv⟩
    | blanked hvalid hv hkey => exact ⟨hvalid,h.storable.keys k _ hv,hkey,_,hv⟩

/-- From sound tables a call ends in sound ones exactly when it is none of those that break
them. -/
theorem sound_iff {call : Call} (h : Sound db t) :
    Sound db (call.tables db t) ↔ ¬ Breaks db t call := by
  cases call with
  | insert => exact sound_insert_iff h
  | update => exact sound_update_iff h

theorem Storable.call {call : Call} (h : Storable db t) : Storable db (call.tables db t) := by
  cases call with
  | insert input timing =>
    rw [Call.tables,insert_tables]
    split
    · exact h.inserted
    · exact h
  | update k changes =>
    rw [Call.tables]
    by_cases hfound : Finds db t k changes
    · obtain ⟨hvalid,hk,hkey,v,hv⟩ := hfound
      rw [update_tables hvalid hk hv hkey]
      exact h.updated hv
    · rwa [update_failed hfound]

end Steps

/-- A sequence of calls, each of which begins when the queries of the one before have run. -/
abbrev Calls (db : Database) : List (Tables × Call) → Tables → Prop :=
  Run (fun t call t' => t' = call.tables db t) .empty

/-- The names stay in step in a run exactly when none of its calls breaks them. -/
theorem usernames_in_step_iff {db : Database} {h : List (Tables × Call)} {t : Tables}
    (hr : Calls db h t) : (∀ x ∈ Run.states h t, InStep x) ↔ ∀ e ∈ h, ¬ Breaks db e.1 e.2 := by
  have hiff := hr.states_iff (Sound db) (fun e => ¬ Breaks db e.1 e.2)
    (fun t call t' ht hstep => by rw [hstep]; exact sound_iff ht) sound_empty
  rw [← hiff]
  refine forall₂_congr fun x hx => ?_
  obtain ⟨h',hr'⟩ := hr.of_states hx
  have hstorable := hr'.invariant (Storable db)
    (fun t call t' ht hstep => by rw [hstep]; exact ht.call) sound_empty.storable
  exact hstorable.sound_iff.symm

namespace Sample

/-- Keys of at most 127 bytes. -/
def db : Database where
  storable key := key.utf8ByteSize ≤ 127
  firstError key := "Duplicate primary key: " ++ key
  schemaError _ := none

def user (username publicKey : String) : Input :=
  [("username",some username),("password",some "secret"),("email",some "user@mail.org"),
    ("publicKey",some publicKey)]

def rename (publicKey username : String) : Call := .update publicKey [("username",some username)]

/-- One user is there. -/
def joined : Tables := (Call.insert (user "ann" "02a") .before).tables db .empty

/-- A second one joins. -/
def both : Tables := (Call.insert (user "bob" "03b") .before).tables db joined

end Sample

/-- The user joins and takes another name. -/
theorem usernames_in_step_sample : ∃ h t,
    Calls Sample.db ((Sample.joined,Sample.rename "02a" "anna") :: h) t ∧
      t.usernames "anna" = true ∧
        ∀ x ∈ Run.states ((Sample.joined,Sample.rename "02a" "anna") :: h) t, InStep x := by
  have hr : Calls Sample.db [(Tables.empty,.insert (Sample.user "ann" "02a") .before)]
      Sample.joined := .snoc .nil rfl
  refine ⟨_,_,hr.snoc rfl,by decide +kernel,(usernames_in_step_iff (hr.snoc rfl)).mpr
    (List.forall_mem_cons.mpr
      ⟨fun hbreaks => ?_,List.forall_mem_singleton.mpr fun hbreaks => ?_⟩)⟩
  · cases hbreaks with
    | @renamed _ _ _ n _ _ _ hn _ _ hname =>
      obtain rfl : "anna" = n := Option.some.inj hn
      exact hname (by decide +kernel)
    | blanked _ _ _ hn => exact absurd (Option.some.inj hn) (by decide)
  · cases hbreaks with
    | orphaned _ hkey => exact hkey (by decide +kernel)
    | removed _ hkey => cases hkey

/-- A user is renamed to the name of another one. The call fails and puts the document back,
but the old name is gone from the list. -/
theorem renamed_to_taken : ∃ h t, Calls Sample.db ((Sample.both,Sample.rename "02a" "bob") :: h) t ∧
    (t.users "02a").map User.username = some "ann" ∧ t.usernames "ann" = false ∧
      ¬ ∀ x ∈ Run.states ((Sample.both,Sample.rename "02a" "bob") :: h) t, InStep x := by
  have hr : Calls Sample.db [(Sample.joined,.insert (Sample.user "bob" "03b") .before),
      (Tables.empty,.insert (Sample.user "ann" "02a") .before)] Sample.both :=
    .snoc (.snoc .nil rfl) rfl
  have hname : (((Sample.rename "02a" "bob").tables Sample.db Sample.both).users "02a").map
      User.username = some "ann" := by decide +kernel
  have hlisted : ((Sample.rename "02a" "bob").tables Sample.db Sample.both).usernames "ann" =
      false := by decide +kernel
  refine ⟨_,_,hr.snoc rfl,hname,hlisted,fun hall => ?_⟩
  obtain ⟨v,hv,hann⟩ := Option.map_eq_some_iff.mp hname
  have hmem := (hall _ List.mem_cons_self).mem hv
  rw [hann,hlisted] at hmem
  cases hmem

end DgcRestApi.Server.Users
