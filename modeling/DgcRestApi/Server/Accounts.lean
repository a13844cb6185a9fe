import DgcRestApi.Kit.Interleaving
import DgcRestApi.LedgerSync.Reflection
import DgcRestApi.Server.Users

/-!
# Accounts

The routes of `api/index.js` that deal with accounts, from the middleware down to the queries.
A route is a program that shares the database with all the other routes in flight, with ledger
sync and with the ledger behind it. `api/auth.js` leaves hashes to bcrypt and tokens to
jsonwebtoken.
-/

namespace DgcRestApi.Server.Accounts
open Interleaving LedgerSync
open Users (Input Tables User Query Results Database)

/-- The ledger, what ledger sync made of it, and the tables of the server. -/
structure World where
  state : State
  db : Db
  tables : Tables

/-- What is left to the database and to the libraries. `first` is the key of the document that
comes first among those with a username. -/
structure Services where
  db : Database
  first : (String → Option String) → String → Option String
  first_some : ∀ names n k, first names n = some k → names k = some n
  first_none : ∀ names n, first names n = none → ∀ k, names k ≠ some n
  hash (salt password : String) : String
  compare (password hashed : String) : Bool
  sign (payload : String) : String
  verify (token : String) : Option String

/-! ## The database -/

/-- A promise of `db/index.js` or `db/users.js`. -/
abbrev Promise := Promised String World

def onTables (query : Query) (w : World) : Results × World :=
  ((query w.tables).1,{ w with tables := (query w.tables).2 })

section Database

variable (db : Database)

/-- Use for queries that modify a table, turns error messages into errors. -/
def modifyTable (query : Query) : Promise Results := do
  let results ← ask (onTables query)
  if results.errors > 0 then throw results.firstError else return results

/-- Inserts a document into a table, throwing an error on failure. -/
def insertTable (table : String) (query : Query) : Promise Results := do
  let results ← modifyTable query
  if results.inserted = 0 then throw ("Unknown Error: Unable to insert to " ++ table)
  else return results

def updateTable (primary : String) (changes : Input) : Promise Results := do
  let results ← modifyTable (Users.updateUser db primary changes)
  if results.replaced = 0 ∧ results.unchanged = 0 then
    throw ("Unknown Error: Unable to update " ++ primary)
  else return results

def validate (input : Input) (schema : List Users.SchemaEntry) : Promise Unit :=
  if input.valid schema = true then return
  else match db.schemaError input with
    | none => throw "Invalid Input: one or more keys forbidden"
    | some (key,message) => throw ("Invalid Input: \"" ++ key ++ "\" - " ++ message)

/-- Delete user, before re-throwing error. -/
def removeUser (publicKey : String) (err : String) : Promise Unit := do
  match ← attempt (modifyTable (Users.deleteUser db publicKey)) with
  | .ok _ => throw err
  | .error err => throw err

/-- Nobody waits for the first query. -/
def insert (user : Input) : Promise Unit := do
  validate db user Users.USER_SCHEMA
  forget (onTables (Users.insertUser db user.publicKey user.user))
  match ← attempt (insertTable "usernames" (Users.insertUsername db user.user.username)) with
  | .ok _ => return
  | .error err => removeUser db user.publicKey err

/-- What `update` does about the username of a user it changed. -/
def updateUsername (publicKey : String) (changes : Input) (oldUser newUser : User) :
    Promise (Option User) :=
  let username := (changes.field "username").getD ""
  -- If username did not change, send back new users
  if username = "" then return newUser
  else do
    -- Modify usernames table with new name
    match ← attempt (modifyTable (Users.replaceUsername db oldUser.username username)) with
    | .ok _ => return newUser
    | .error err =>
      -- If failed to update usernames, reset user and re-throw error
      let _ ← updateTable db publicKey (oldUser.input publicKey)
      throw err

def update (publicKey : String) (changes : Input) : Promise (Option User) := do
  validate db changes Users.UPDATE_SCHEMA
  let results ← updateTable db publicKey changes
  -- If changes did not change the resource, just fetch it
  if results.unchanged = 1 then ask fun w => (w.tables.users publicKey,w)
  else match results.changes with
    | [] => throw "TypeError"
    | (oldUser,newUser) :: _ => updateUsername db publicKey changes oldUser newUser

end Database

/-- Of a user without the password. -/
structure Account where
  username : String
  email : String
  encryptedKey : Option String
deriving DecidableEq, Repr

def account (user : User) : Account := ⟨user.username,user.email,user.encryptedKey⟩

structure Profile where
  name : String
  publicKey : String
  user : Option Account := none
deriving DecidableEq, Repr

/-- `fetchQuery` of `db/participants.js`; `nth(0)` fails when there is none, and so does
`fetchUser`, of which the query makes use for `auth`. -/
def fetchQuery (publicKey : String) (auth : Bool) (w : World) : Option Profile :=
  (currentBlock w.db).bind fun block =>
    ((objects Entry.toParticipant .participants block w.db).find? fun p =>
      p.publicKey = publicKey).bind fun participant =>
        if auth then
          (w.tables.users publicKey).map fun user =>
            ⟨participant.name,publicKey,some (account user)⟩
        else some ⟨participant.name,publicKey,none⟩

/-! ## The routes -/

/-- An error with its status; the texts of the database and of the libraries are left out. -/
inductive Failure
  | badRequest (message : String)
  | unauthorized (message : String)
  | internal (message : Option String)
deriving DecidableEq, Repr

/-- A promise of `api/`. -/
abbrev Action := Promised Failure World

/-- What a login and a registration are answered with. -/
structure Grant where
  authorization : String
  encryptedKey : Option String
deriving DecidableEq, Repr

/-- The error of a promise in other words. -/
def rethrow {ε ε' α : Type} (f : ε → ε') (x : Promised ε World α) : Promised ε' World α :=
  ExceptT.mk (x.run >>= fun r => .done (r.mapError f))

/-- `_.assign({}, user, {password: hashed})`. -/
def assignPassword (input : Input) (hashed : String) : Input :=
  ("password",some hashed) :: input.filter fun e => e.1 ≠ "password"

/-- A username and a password; one that is missing is `none`. -/
structure Credentials where
  username : Option String
  password : Option String
deriving DecidableEq, Repr

section Actions

variable (sv : Services)

def fetch (publicKey : String) (auth : Bool) : Action Profile := do
  match ← ask fun w => (fetchQuery publicKey auth w,w) with
  | some profile => return profile
  | none => throw (.internal none)

/-- `hashPassword` rejects what is no string. -/
def hashPassword (salt : String) (password : Option String) : Action String :=
  match password with
  | some password => return sv.hash salt password
  | none => throw (.internal none)

/-- A key that is missing cannot be put into the query; one that is no string is of nobody. -/
def create (user : Input) (salt : String) : Action Grant := do
  match user.lookup "publicKey" with
  | none => throw (.internal none)
  | some none => throw (.badRequest "Public key must match a Participant on blockchain")
  | some (some publicKey) =>
    match ← attempt (fetch publicKey false) with
    | .error _ => throw (.badRequest "Public key must match a Participant on blockchain")
    | .ok _ =>
      let hashed ← hashPassword sv salt (user.field "password")
      rethrow .badRequest (insert sv.db (assignPassword user hashed))
      return ⟨sv.sign publicKey,(user.field "encryptedKey").filter (· ≠ "")⟩

/-- The password is hashed unless it is missing or empty. -/
def hashChanges (changes : Input) (salt : String) : Action Input :=
  match changes.lookup "password" with
  | none | some (some "") => return changes
  | some password => do
    let hashed ← hashPassword sv salt password
    return assignPassword changes hashed

def updateAccount (changes : Input) (salt authedKey : String) : Action (Option Account) := do
  let finalChanges ← hashChanges sv changes salt
  let updated ← rethrow (fun message => .internal (some message))
    (update sv.db authedKey finalChanges)
  return updated.map account

/-- The user whom a query for the username finds first. -/
def firstUser (username : String) (w : World) : Option (String × User) :=
  (sv.first (fun k => (w.tables.users k).map User.username) username).bind fun k =>
    (w.tables.users k).map fun user => (k,user)

/-- Checks an object with username and password keys.
Returns an auth token and the user's private key if it passes. -/
def authorize (credentials : Credentials) : Action Grant :=
  let username := credentials.username.getD ""
  let password := credentials.password.getD ""
  if username = "" ∨ password = "" then
    throw (.badRequest "Authorization requires username and password")
  else do
    match ← ask fun w => (firstUser sv username w,w) with
    | none => throw (.unauthorized "Authorization Failed")
    | some (publicKey,user) =>
      if sv.compare password user.password = true then
        return ⟨sv.sign publicKey,user.encryptedKey⟩
      else throw (.unauthorized "Authorization Failed")

end Actions

/-! ## Requests -/

inductive Route
  /-- `POST /users` -/
  | createUser (user : Input)
  /-- `PATCH /users` -/
  | updateUser (changes : Input)
  /-- `PATCH /users/:publicKey` -/
  | updateUserAt (publicKey : String) (changes : Input)
  /-- `POST /authorization` -/
  | authorize (credentials : Credentials)
  /-- `POST /isUsernameExists`, with what its query selects -/
  | isUsernameExists (query : String → Bool)
  /-- `GET /participants/:publicKey` -/
  | fetchParticipant (publicKey : String)

/-- A request; `salt` is what bcrypt draws for it. -/
structure Request where
  route : Route
  authorization : Option String := none
  query : Input := []
  salt : String := ""

inductive Response
  | granted (grant : Grant)
  | updated (user : Option Account)
  | usernames (listed : String → Bool)
  | profile (profile : Profile)
  | failed (failure : Failure)

section Requests

variable (sv : Services)

/-- `authHandler`: saves the public key of the token, if there is a valid one. -/
def authedKey (request : Request) : Option String :=
  (request.authorization.filter (· ≠ "")).bind sv.verify

/-- `_.assign({}, req.query, req.params, req.internal)`: a later object wins, so it comes
first in the list. -/
def merged (request : Request) (params : Input) : Input :=
  ("authedKey",authedKey sv request) :: params ++ request.query

/-- Route-specific middleware, throws error if not authorized. -/
def restrict {α : Type} (request : Request) (action : Action α) : Action α :=
  if ((authedKey sv request).getD "") = "" then
    throw (.unauthorized "This route requires a valid Authorization header")
  else action

def act (request : Request) : Action Response :=
  match request.route with
  | .createUser user => Response.granted <$> create sv user request.salt
  | .updateUser changes => restrict sv request <| Response.updated <$>
      updateAccount sv changes request.salt (((merged sv request []).field "authedKey").getD "")
  | .updateUserAt publicKey changes => restrict sv request <|
      let params := merged sv request [("publicKey",some publicKey)]
      if params.field "publicKey" ≠ params.field "authedKey" then
        throw (.unauthorized "You may only modify your own user account!")
      else Response.updated <$>
        updateAccount sv changes request.salt ((params.field "authedKey").getD "")
  | .authorize credentials => Response.granted <$> authorize sv credentials
  | .isUsernameExists query =>
      ask fun w => (.usernames fun n => w.tables.usernames n && query n,w)
  | .fetchParticipant publicKey =>
      let params := merged sv request [("publicKey",some publicKey)]
      Response.profile <$> fetch ((params.field "publicKey").getD "")
        (params.field "publicKey" = params.field "authedKey")

/-- `errorHandler` sends what was thrown. -/
def serve (request : Request) : Program World Response :=
  (act sv request).run >>= fun
    | .ok response => .done response
    | .error failure => .done (.failed failure)

end Requests

/-- What happens besides the requests: a transaction is accepted, or ledger sync shows the
ledger at some block. -/
inductive Elsewhere (env : Env) (w : World) : Option Tx → World → Prop
  | committed {tx : Tx} {s : State} (h : Accepted env w.state tx s) :
      Elsewhere env w (some tx) { w with state := s }
  | synced {db : Db} {n : Nat} (h : Mirrors (ledger env w.state) db n) :
      Elsewhere env w none { w with db }

/-- Requests are served and the ledger goes on, in any interleaving. -/
abbrev Serving (env : Env) (sv : Services) :
    World → List (Pool World Response × Move (Option Tx) Request) → Pool World Response → Prop :=
  fun w => Run (Step (Elsewhere env) (serve sv)) ⟨w,[],[]⟩

/-! ## Calls one after the other -/

/-- Alone, the program does to the tables what the promise does, and ends alike. -/
def Alone {α : Type} (x : Promise α) (y : Users.Promise α) : Prop :=
  ∀ w, x.run.exec w = ((Persistent.exec y w.tables).1,
    { w with tables := (Persistent.exec y w.tables).2 })

section Alone

variable {α β : Type} {x : Promise α} {y : Users.Promise α} {db : Database}

theorem Alone.bind {f : α → Promise β} {g : α → Users.Promise β} (h : Alone x y)
    (hf : ∀ a, Alone (f a) (g a)) : Alone (x >>= f) (y >>= g) := by
  intro w
  rw [exec_chain,h w]
  rcases hy : Persistent.exec y w.tables with ⟨e | a,t⟩
  · rw [Persistent.exec_bind_error hy]
  · rw [Persistent.exec_bind_ok hy]
    exact hf a _

theorem Alone.ite {c : Prop} [Decidable c] {x' : Promise α} {y' : Users.Promise α}
    (h : Alone x y) (h' : Alone x' y') : Alone (if c then x else x') (if c then y else y') := by
  split
  · exact h
  · exact h'

theorem alone_pure (a : α) : Alone (pure a) (pure a) := fun _ => rfl

theorem alone_throw (e : String) : Alone (throw e : Promise α) (throw e) := fun _ => rfl

theorem alone_attempt (h : Alone x y) : Alone (attempt x) (Users.settle y) := by
  intro w
  rw [exec_attempt,h w,Users.exec_settle]

theorem alone_modifyTable (query : Query) :
    Alone (modifyTable query) (Users.modifyTable query) :=
  .bind (fun _ => rfl) fun _ => .ite (alone_throw _) (alone_pure _)

theorem alone_insertTable (table : String) (query : Query) :
    Alone (insertTable table query) (Users.insertTable table query) :=
  .bind (alone_modifyTable query) fun _ => .ite (alone_throw _) (alone_pure _)

theorem alone_updateTable (primary : String) (changes : Input) :
    Alone (updateTable db primary changes) (Users.updateTable db primary changes) :=
  .bind (alone_modifyTable _) fun _ => .ite (alone_throw _) (alone_pure _)

theorem alone_validate (input : Input) (schema : List Users.SchemaEntry) :
    Alone (validate db input schema) (Users.validate db input schema) := by
  rw [validate,Users.validate]
  split
  · exact alone_pure ()
  · cases db.schemaError input <;> exact alone_throw _

theorem alone_removeUser (k : String) (user : User) (err : String) :
    Alone (removeUser db k err) (Users.removeUser db .before k user err) := by
  refine .bind (alone_attempt (alone_modifyTable _)) fun deleted => ?_
  cases deleted <;> exact alone_throw _

/-- A call of `insert` that nothing interrupts is one whose first query runs at once. -/
theorem alone_insert (user : Input) : Alone (insert db user) (Users.insert db .before user) := by
  refine .bind (alone_validate _ _) fun _ => .bind (fun _ => rfl) fun _ => ?_
  refine .bind (alone_attempt (alone_insertTable _ _)) fun listed => ?_
  cases listed with
  | ok => exact alone_pure ()
  | error e => exact alone_removeUser _ user.user e

theorem alone_updateUsername (k : String) (changes : Input) (oldUser newUser : User) :
    Alone (updateUsername db k changes oldUser newUser)
      (Users.updateUsername db k changes oldUser newUser) := by
  refine .ite (alone_pure _) (.bind (alone_attempt (alone_modifyTable _)) fun renamed => ?_)
  cases renamed with
  | ok => exact alone_pure _
  | error e => exact .bind (alone_updateTable _ _) fun _ => alone_throw e

theorem alone_update (k : String) (changes : Input) :
    Alone (update db k changes) (Users.update db k changes) := by
  refine .bind (alone_validate _ _) fun _ => .bind (alone_updateTable _ _) fun results => ?_
  refine .ite (fun _ => rfl) ?_
  rcases results.changes with _ | ⟨⟨oldUser,newUser⟩,_⟩
  · exact alone_throw _
  · exact alone_updateUsername _ _ _ _

end Alone

namespace Sample

/-- Tokens are the keys themselves, marked as such. -/
noncomputable def services : Services where
  db := Users.Sample.db
  first names n := open Classical in if h : ∃ k, names k = some n then some h.choose else none
  first_some names n k h := by
    split at h
    · next hn => exact Option.some.inj h ▸ hn.choose_spec
    · cases h
  first_none names n h k hk := by
    rw [dif_pos ⟨k,hk⟩] at h
    cases h
  hash salt password := salt ++ "#" ++ password
  compare password hashed := hashed = "#" ++ password
  sign payload := String.ofList ('j' :: '.' :: payload.toList)
  verify token := match token.toList with
    | 'j' :: '.' :: payload => some (String.ofList payload)
    | _ => none

/-- Ann is on the ledger and in the database. -/
def shown : World where
  state := LedgerSync.Sample.welcomed
  db := { LedgerSync.Sample.annDb with blocks := [LedgerSync.Sample.welcomeBlock] }
  tables := .empty

def ann : User := ⟨"ann","#secret","ann@mail.org",none⟩

/-- She has an account. -/
def joined : World :=
  { shown with tables := ⟨Function.update (fun _ => none) "A" (some ann),fun n => n == "ann"⟩ }

/-- Bob registers his own key. -/
def other : Request where
  route := .createUser [("username",some "bob"),("password",some "secret"),
    ("email",some "bob@mail.org"),("publicKey",some "B")]

/-- Bob asks for Ann. -/
def asking : Request where
  route := .fetchParticipant "A"
  query := [("authedKey",some "A")]

theorem fetchQuery_shown : fetchQuery "A" false shown = some ⟨"Ann","A",none⟩ := rfl

end Sample

end DgcRestApi.Server.Accounts
