import DgcRestApi.Server.Accounts

/-!
# Who has access to an account

An account is changed through its own key: by an update with a token for it, or by a
registration that names it, whoever sends that. What it holds besides its username is told to
nobody else. Both hold in every interleaving of the requests.
-/

namespace DgcRestApi.Server.Accounts
open Interleaving LedgerSync
open Users (Input Tables User Query Results Database)

/-! ## What a request asks -/

/-- The request registers the key. -/
def Request.Registers (k : String) (request : Request) : Prop :=
  match request.route with
  | .createUser user => user.field "publicKey" = some k
  | _ => False

/-- The request is an update, with a token for the key. -/
def Request.Updates (sv : Services) (k : String) (request : Request) : Prop :=
  match request.route with
  | .updateUser _ | .updateUserAt _ _ => authedKey sv request = some k
  | _ => False

/-- The request is a login with the username. -/
def Request.LogsIn (n : String) (request : Request) : Prop :=
  match request.route with
  | .authorize credentials => credentials.username = some n
  | _ => False

/-- The queries of a request. -/
inductive Asked (sv : Services) (request : Request) : ∀ ρ : Type, (World → ρ × World) → Prop
  | fetched {k : String} {auth : Bool} (h : auth = true → authedKey sv request = some k) :
      Asked sv request _ fun w => (fetchQuery k auth w,w)
  | inserted {k : String} (user : User) (h : request.Registers k) :
      Asked sv request _ (onTables (Users.insertUser sv.db k user))
  | deleted {k : String} (h : request.Registers k) :
      Asked sv request _ (onTables (Users.deleteUser sv.db k))
  | listed (n : String) : Asked sv request _ (onTables (Users.insertUsername sv.db n))
  | updated {k : String} (changes : Input) (h : request.Updates sv k) :
      Asked sv request _ (onTables (Users.updateUser sv.db k changes))
  | read {k : String} (h : request.Updates sv k) :
      Asked sv request _ fun w => (w.tables.users k,w)
  | renamed (oldName n : String) :
      Asked sv request _ (onTables (Users.replaceUsername sv.db oldName n))
  | found {n : String} (h : request.LogsIn n) : Asked sv request _ fun w => (firstUser sv n w,w)
  | names (query : String → Bool) : Asked sv request Response
      fun w => (.usernames fun n => w.tables.usernames n && query n,w)

section Queries

variable {α : Type} {db : Database} {k : String} {input : Input}
variable {Q : ∀ ρ : Type, (World → ρ × World) → Prop}

theorem asks_rethrow {ε ε' : Type} (f : ε → ε') {x : Promised ε World α} (h : x.run.Asks Q) :
    (rethrow f x).run.Asks Q := Program.Asks.bind h fun _ => trivial

theorem asks_modifyTable {query : Query} (h : Q _ (onTables query)) :
    (modifyTable query).run.Asks Q :=
  asks_chain (asks_ask h) fun _ => asks_ite (asks_throw _) (asks_pure _)

theorem asks_insertTable {table : String} {query : Query} (h : Q _ (onTables query)) :
    (insertTable table query).run.Asks Q :=
  asks_chain (asks_modifyTable h) fun _ => asks_ite (asks_throw _) (asks_pure _)

theorem asks_updateTable {changes : Input} (h : Q _ (onTables (Users.updateUser db k changes))) :
    (updateTable db k changes).run.Asks Q :=
  asks_chain (asks_modifyTable h) fun _ => asks_ite (asks_throw _) (asks_pure _)

theorem asks_validate (schema : List Users.SchemaEntry) :
    (validate db input schema).run.Asks Q := by
  rw [validate]
  split
  · exact asks_pure ()
  · split <;> exact asks_throw _

theorem asks_insert (hinsert : Q _ (onTables (Users.insertUser db input.publicKey input.user)))
    (hdelete : Q _ (onTables (Users.deleteUser db input.publicKey)))
    (hname : Q _ (onTables (Users.insertUsername db input.user.username))) :
    (insert db input).run.Asks Q := by
  refine asks_chain (asks_validate _) fun _ => asks_chain (asks_forget hinsert) fun _ => ?_
  refine asks_chain (asks_attempt (asks_insertTable hname)) fun listed => ?_
  cases listed with
  | ok => exact asks_pure ()
  | error e =>
    refine asks_chain (asks_attempt (asks_modifyTable hdelete)) fun deleted => ?_
    cases deleted <;> exact asks_throw _

theorem asks_update (hupdate : ∀ changes, Q _ (onTables (Users.updateUser db k changes)))
    (hread : Q _ fun w => (w.tables.users k,w))
    (hrename : ∀ oldName n, Q _ (onTables (Users.replaceUsername db oldName n))) :
    (update db k input).run.Asks Q := by
  refine asks_chain (asks_validate _) fun _ => ?_
  refine asks_chain (asks_updateTable (hupdate _)) fun results => asks_ite (asks_ask hread) ?_
  rcases results.changes with _ | ⟨⟨oldUser,newUser⟩,_⟩
  · exact asks_throw _
  · refine asks_ite (asks_pure _) (asks_chain (asks_attempt (asks_modifyTable (hrename _ _))) ?_)
    rintro (e | _)
    · exact asks_chain (asks_updateTable (hupdate _)) fun _ => asks_throw _
    · exact asks_pure _

theorem lookup_filter {p key : String} (hkey : key ≠ p) :
    (input.filter fun e => e.1 ≠ p).lookup key = input.lookup key := by
  induction input with
  | nil => rfl
  | cons e input ih =>
    obtain ⟨key',value⟩ := e
    rw [List.filter_cons]
    by_cases he : key = key'
    · subst he
      simp [hkey]
    · have hne : (key == key') = false := beq_false_of_ne he
      split
      · rw [List.lookup_cons,List.lookup_cons,hne,ih]
      · rw [List.lookup_cons,hne,ih]

theorem assignPassword_field {hashed key : String} (hkey : key ≠ "password") :
    (assignPassword input hashed).field key = input.field key := by
  have hne : (key == "password") = false := beq_false_of_ne hkey
  rw [assignPassword,Input.field,Input.field,List.lookup_cons,hne]
  exact congrArg Option.join (lookup_filter hkey)

end Queries

section Requests

variable {sv : Services} {request : Request}

theorem asks_fetch {k : String} {auth : Bool}
    (h : auth = true → authedKey sv request = some k) :
    (fetch k auth).run.Asks (Asked sv request) :=
  asks_chain (asks_ask (.fetched h)) fun profile => by
    cases profile
    · exact asks_throw _
    · exact asks_pure _

theorem asks_hashPassword {Q : ∀ ρ : Type, (World → ρ × World) → Prop} (salt : String)
    (password : Option String) : (hashPassword sv salt password).run.Asks Q := by
  cases password
  · exact asks_throw _
  · exact asks_pure _

/-- What `create` does once the participant is found. -/
theorem asks_registration {k : String} {user : Input} (hroute : request.route = .createUser user)
    (hk : user.field "publicKey" = some k) (hashed : String) :
    (rethrow Failure.badRequest (insert sv.db (assignPassword user hashed))).run.Asks
      (Asked sv request) := by
  have hkey : (assignPassword user hashed).publicKey = k := by
    rw [Input.publicKey,assignPassword_field (by decide),hk]
    rfl
  have hreg : request.Registers (assignPassword user hashed).publicKey := by
    rw [Request.Registers,hroute,hkey]
    exact hk
  exact asks_rethrow _ (asks_insert (.inserted _ hreg) (.deleted hreg) (.listed _))

theorem asks_create {user : Input} (hroute : request.route = .createUser user) (salt : String) :
    (create sv user salt).run.Asks (Asked sv request) := by
  rw [create]
  split
  · exact asks_throw _
  · exact asks_throw _
  · next k hlookup =>
    have hk : user.field "publicKey" = some k := by rw [Input.field,hlookup]; rfl
    refine asks_chain (asks_attempt (asks_fetch nofun)) fun found => ?_
    cases found with
    | error => exact asks_throw _
    | ok =>
      refine asks_chain (asks_hashPassword _ _) fun hashed => ?_
      exact asks_chain (asks_registration hroute hk hashed) fun _ => asks_pure _

theorem asks_updateAccount {k : String} (hk : request.Updates sv k) (changes : Input)
    (salt : String) : (updateAccount sv changes salt k).run.Asks (Asked sv request) := by
  have hhash : (hashChanges sv changes salt).run.Asks (Asked sv request) := by
    rw [hashChanges]
    split
    · exact asks_pure _
    · exact asks_pure _
    · exact asks_chain (asks_hashPassword _ _) fun _ => asks_pure _
  refine asks_chain hhash fun finalChanges => asks_chain (asks_rethrow _ ?_) fun _ => asks_pure _
  exact asks_update (fun c => .updated c hk) (.read hk) .renamed

theorem asks_authorize {credentials : Credentials}
    (hroute : request.route = .authorize credentials) :
    (authorize sv credentials).run.Asks (Asked sv request) := by
  rw [authorize]
  by_cases hmissing : credentials.username.getD "" = "" ∨ credentials.password.getD "" = ""
  · simp only [hmissing,if_true]
    exact asks_throw _
  · simp only [hmissing,if_false]
    have hlogin : request.LogsIn (credentials.username.getD "") := by
      rw [Request.LogsIn,hroute]
      cases hn : credentials.username with
      | none => exact absurd (Or.inl (by rw [hn]; rfl)) hmissing
      | some n => exact hn
    refine asks_chain (asks_ask (.found hlogin)) fun found => ?_
    rcases found with _ | ⟨k,user⟩
    · exact asks_throw _
    · exact asks_ite (asks_pure _) (asks_throw _)

/-- The middleware finds the key of the token, whatever the query of the request says. -/
theorem merged_authedKey (params : Input) :
    (merged sv request params).field "authedKey" = authedKey sv request := rfl

theorem merged_publicKey (k : String) :
    (merged sv request [("publicKey",some k)]).field "publicKey" = some k := rfl

theorem asks_restrict {α : Type} {action : Action α}
    {Q : ∀ ρ : Type, (World → ρ × World) → Prop}
    (h : ∀ k, authedKey sv request = some k → action.run.Asks Q) :
    (restrict sv request action).run.Asks Q := by
  rw [restrict]
  split
  · exact asks_throw _
  · next hkey =>
    cases hauth : authedKey sv request with
    | none => exact absurd (by rw [hauth]; rfl) hkey
    | some k => exact h k hauth

theorem asks_act : (act sv request).run.Asks (Asked sv request) := by
  rw [act]
  split
  · next user hroute => exact asks_map _ (asks_create hroute _)
  · next changes hroute =>
    refine asks_restrict fun k hk => asks_map _ ?_
    rw [merged_authedKey,hk]
    refine asks_updateAccount ?_ _ _
    rw [Request.Updates,hroute]
    exact hk
  · next k' changes hroute =>
    refine asks_restrict fun k hk => asks_ite (asks_throw _) (asks_map _ ?_)
    rw [merged_authedKey,hk]
    refine asks_updateAccount ?_ _ _
    rw [Request.Updates,hroute]
    exact hk
  · next credentials hroute => exact asks_map _ (asks_authorize hroute)
  · next query hroute => exact asks_ask (.names query)
  · next k hroute =>
    refine asks_map _ (asks_fetch fun hauth => ?_)
    rw [merged_publicKey,merged_authedKey,decide_eq_true_iff] at hauth
    exact hauth.symm

theorem asks_serve : (serve sv request).Asks (Asked sv request) :=
  Program.Asks.bind asks_act fun r => by cases r <;> trivial

end Requests

/-! ## Writes -/

section Writes

variable {db : Database} {t : Tables} {k k' : String}

theorem insertUser_ne (user : User) (hk : k ≠ k') :
    (Users.insertUser db k' user t).2.users k = t.users k := by
  rw [Users.insertUser]
  split
  · exact Function.update_of_ne hk ..
  · rfl

theorem deleteUser_ne (hk : k ≠ k') : (Users.deleteUser db k' t).2.users k = t.users k := by
  rw [Users.deleteUser]
  split
  · exact Function.update_of_ne hk ..
  · rfl

theorem updateUser_ne (changes : Input) (hk : k ≠ k') :
    (Users.updateUser db k' changes t).2.users k = t.users k := by
  rw [Users.updateUser]
  split
  · split
    · rfl
    · split
      · rfl
      · split
        · rfl
        · exact Function.update_of_ne hk ..
  · rfl

theorem insertUsername_users (n : String) : (Users.insertUsername db n t).2.users = t.users := by
  rw [Users.insertUsername]
  split <;> rfl

theorem replaceUsername_users (oldName n : String) :
    (Users.replaceUsername db oldName n t).2.users = t.users := by
  rw [Users.replaceUsername]
  split
  · exact insertUsername_users n
  · rfl

variable {sv : Services} {request : Request} {ρ : Type} {q : World → ρ × World} {w : World}

/-- A query writes to the tables of the server alone. -/
theorem Asked.frame (h : Asked sv request ρ q) :
    (q w).2.state = w.state ∧ (q w).2.db = w.db := by
  cases h <;> exact ⟨rfl,rfl⟩

theorem Asked.elsewhere (h : Asked sv request ρ q) (hregisters : ¬request.Registers k)
    (hupdates : ¬request.Updates sv k) : (q w).2.tables.users k = w.tables.users k := by
  cases h with
  | fetched | read | found | names => rfl
  | inserted user h => exact insertUser_ne user fun hk => hregisters (hk ▸ h)
  | deleted h => exact deleteUser_ne fun hk => hregisters (hk ▸ h)
  | listed n => exact congrFun (insertUsername_users n) k
  | updated changes h => exact updateUser_ne changes fun hk => hupdates (hk ▸ h)
  | renamed oldName n => exact congrFun (replaceUsername_users oldName n) k

end Writes

/-- In every interleaving, an account stays as it is unless a request registers its key or is an
update with a token for it. -/
theorem account_untouched {env : Env} {sv : Services} {w : World} {k : String}
    {h : List (Pool World Response × Move (Option Tx) Request)} {P : Pool World Response}
    (hr : Serving env sv w h P)
    (hothers : ∀ request ∈ requests h, ¬request.Registers k ∧ ¬request.Updates sv k) :
    ∀ P' ∈ Run.states h P, P'.state.tables.users k = w.tables.users k := by
  let R : World → World → Prop := fun w w' => w'.tables.users k = w.tables.users k
  have htrans : ∀ w₁ w₂ w₃, R w₁ w₂ → R w₂ w₃ → R w₁ w₃ := fun _ _ _ h₁ h₂ => h₂.trans h₁
  refine (run_respects (R := R) (fun _ => rfl) htrans ?_ (fun _ _ _ _ _ _ => trivial) hr
    fun request hrequest w' _ => ?_).1
  · rintro _ _ _ (_ | _) <;> rfl
  · obtain ⟨hregisters,hupdates⟩ := hothers request hrequest
    exact asks_serve.respects htrans fun ρ q hq _ _ => hq.elsewhere hregisters hupdates

/-- Bob registers while Ann has an account. -/
theorem account_untouched_sample : ∃ h P,
    Serving LedgerSync.Sample.env512 Sample.services Sample.joined h P ∧ h ≠ [] ∧
      P.state.tables.users "A" = some Sample.ann := by
  obtain ⟨h,hr,hreq⟩ := @exists_serve _ _ _ _ (Elsewhere LedgerSync.Sample.env512)
    (serve Sample.services) ⟨Sample.joined,[],[]⟩ Sample.other
  refine ⟨h,_,hr,fun hnil => ?_,?_⟩
  · rw [hnil] at hreq
    cases hreq
  · refine account_untouched hr (fun request hrequest => ?_) _ List.mem_cons_self
    obtain rfl := List.mem_singleton.mp (hreq ▸ hrequest)
    exact ⟨fun hreg => absurd (show some "B" = some "A" from hreg) (by decide),id⟩

/-! ## Secrets -/

/-- Two worlds that differ at most in what the account under `k` holds besides its username. A
name in `N`, which may be used for a login, is not its username then. -/
structure Alike (k : String) (N : String → Prop) (w w' : World) : Prop where
  state : w.state = w'.state
  db : w.db = w'.db
  usernames : w.tables.usernames = w'.tables.usernames
  others : ∀ k', k' ≠ k → w.tables.users k' = w'.tables.users k'
  account : w.tables.users k = w'.tables.users k ∨ ∃ v v', w.tables.users k = some v ∧
    w'.tables.users k = some v' ∧ v.username = v'.username ∧ ¬N v.username

section Secrets

variable {k k' : String} {N : String → Prop} {w w' : World} {db : Database}

theorem Alike.free_iff (h : Alike k N w w') (k' : String) :
    w.tables.users k' = none ↔ w'.tables.users k' = none := by
  by_cases hk : k' = k
  · subst hk
    rcases h.account with heq | ⟨v,v',hv,hv',_⟩
    · rw [heq]
    · rw [hv,hv']
      exact iff_of_false nofun nofun
  · rw [h.others k' hk]

theorem Alike.names (h : Alike k N w w') (k' : String) :
    (w.tables.users k').map User.username = (w'.tables.users k').map User.username := by
  by_cases hk : k' = k
  · subst hk
    rcases h.account with heq | ⟨v,v',hv,hv',hname,_⟩
    · rw [heq]
    · rw [hv,hv',Option.map_some,Option.map_some,hname]
  · rw [h.others k' hk]

/-- The same document is put under a key of both, or none. -/
theorem Alike.put (h : Alike k N w w') (k' : String) (o : Option User) : Alike k N
    { w with tables := { w.tables with users := Function.update w.tables.users k' o } }
    { w' with tables := { w'.tables with users := Function.update w'.tables.users k' o } } where
  state := h.state
  db := h.db
  usernames := h.usernames
  others k'' hk'' := by
    dsimp only
    by_cases hk : k'' = k'
    · rw [hk,Function.update_self,Function.update_self]
    · rw [Function.update_of_ne hk,Function.update_of_ne hk,h.others k'' hk'']
  account := by
    dsimp only
    by_cases hk : k = k'
    · rw [hk,Function.update_self,Function.update_self]
      exact Or.inl rfl
    · rw [Function.update_of_ne hk,Function.update_of_ne hk]
      exact h.account

theorem Alike.list (h : Alike k N w w') (f : (String → Bool) → String → Bool) : Alike k N
    { w with tables := { w.tables with usernames := f w.tables.usernames } }
    { w' with tables := { w'.tables with usernames := f w'.tables.usernames } } :=
  ⟨h.state,h.db,congrArg f h.usernames,h.others,h.account⟩

theorem Alike.insertable_iff (h : Alike k N w w') (k' : String) :
    db.Insertable w.tables k' ↔ db.Insertable w'.tables k' := and_congr_right' (h.free_iff k')

theorem Alike.listable_iff (h : Alike k N w w') (n : String) :
    db.Listable w.tables n ↔ db.Listable w'.tables n := by
  rw [Database.Listable,Database.Listable,h.usernames]

/-- The two queries have one result and leave worlds that are alike. -/
def Same (k : String) (N : String → Prop) {ρ : Type} (r r' : ρ × World) : Prop :=
  r.1 = r'.1 ∧ Alike k N r.2 r'.2

theorem Alike.insertUser (h : Alike k N w w') (user : User) :
    Same k N (onTables (Users.insertUser db k' user) w)
      (onTables (Users.insertUser db k' user) w') := by
  rw [onTables,onTables,Users.insertUser,Users.insertUser,if_congr (h.insertable_iff k') rfl rfl]
  split
  · exact ⟨rfl,h.put k' _⟩
  · exact ⟨rfl,h⟩

theorem Alike.deleteUser (h : Alike k N w w') :
    Same k N (onTables (Users.deleteUser db k') w) (onTables (Users.deleteUser db k') w') := by
  rw [onTables,onTables,Users.deleteUser,Users.deleteUser]
  split
  · exact ⟨rfl,h.put k' _⟩
  · exact ⟨rfl,h⟩

theorem Alike.updateUser (h : Alike k N w w') (changes : Input) (hk : k' ≠ k) :
    Same k N (onTables (Users.updateUser db k' changes) w)
      (onTables (Users.updateUser db k' changes) w') := by
  rw [onTables,onTables,Users.updateUser,Users.updateUser,h.others k' hk]
  split
  · split
    · exact ⟨rfl,h⟩
    · split
      · exact ⟨rfl,h⟩
      · split
        · exact ⟨rfl,h⟩
        · exact ⟨rfl,h.put k' _⟩
  · exact ⟨rfl,h⟩

theorem Alike.insertUsername (h : Alike k N w w') (n : String) :
    Same k N (onTables (Users.insertUsername db n) w)
      (onTables (Users.insertUsername db n) w') := by
  rw [onTables,onTables,Users.insertUsername,Users.insertUsername,
    if_congr (h.listable_iff n) rfl rfl]
  split
  · exact ⟨rfl,h.list fun names => Function.update names n true⟩
  · exact ⟨rfl,h⟩

theorem Alike.replaceUsername (h : Alike k N w w') (oldName n : String) :
    Same k N (onTables (Users.replaceUsername db oldName n) w)
      (onTables (Users.replaceUsername db oldName n) w') := by
  rw [onTables,onTables,Users.replaceUsername,Users.replaceUsername]
  split
  · exact (h.list fun names => Function.update names oldName false).insertUsername n
  · exact ⟨rfl,h⟩

variable {sv : Services} {request : Request} {ρ : Type} {q : World → ρ × World}

/-- A login that does not use the username finds the same user. -/
theorem Alike.firstUser (h : Alike k N w w') {n : String} (hn : N n) :
    firstUser sv n w = firstUser sv n w' := by
  rw [Accounts.firstUser,Accounts.firstUser,funext h.names]
  cases hfirst : sv.first (fun k' => (w'.tables.users k').map User.username) n with
  | none => rfl
  | some k' =>
    refine congrArg (Option.map _) ?_
    by_cases hk : k' = k
    · subst hk
      rcases h.account with heq | ⟨v,v',hv,hv',hname,hN⟩
      · exact heq
      · have hfound : (w'.tables.users k').map User.username = some n :=
          sv.first_some _ _ _ hfirst
        rw [hv',Option.map_some] at hfound
        exact absurd hn (by rwa [hname,Option.some.inj hfound] at hN)
    · exact h.others k' hk

/-- No query of a request without a token for the key can tell the worlds apart. -/
theorem Asked.same (h : Asked sv request ρ q) (hkey : authedKey sv request ≠ some k)
    (hlogin : ∀ n, request.LogsIn n → N n) (ha : Alike k N w w') : Same k N (q w) (q w') := by
  have hupdates : ∀ {k'}, request.Updates sv k' → k' ≠ k := by
    rintro k' hk rfl
    rw [Request.Updates] at hk
    split at hk
    · exact hkey hk
    · exact hkey hk
    · exact hk
  cases h with
  | @fetched k' auth h =>
    refine ⟨?_,ha⟩
    cases auth with
    | false => simp only [fetchQuery,ha.db,Bool.false_eq_true,if_false]
    | true =>
      have hk : k' ≠ k := fun hk => hkey (hk ▸ h rfl)
      simp only [fetchQuery,ha.db,ha.others k' hk]
  | inserted user _ => exact ha.insertUser user
  | deleted _ => exact ha.deleteUser
  | listed n => exact ha.insertUsername n
  | updated changes h => exact ha.updateUser changes (hupdates h)
  | read h => exact ⟨ha.others _ (hupdates h),ha⟩
  | renamed oldName n => exact ha.replaceUsername oldName n
  | found h => exact ⟨ha.firstUser (hlogin _ h),ha⟩
  | names query => exact ⟨by simp only [ha.usernames],ha⟩

end Secrets

/-- The world with another document in the place of the account. -/
def World.exchanged (w : World) (k : String) (v : User) : World :=
  { w with tables := { w.tables with users := Function.update w.tables.users k (some v) } }

/-- In every interleaving, requests that come without a token for an account and without a login
as its user are answered as they would be if it had another password, address or key. -/
theorem account_private {env : Env} {sv : Services} {w : World} {k : String} {v v' : User}
    {h : List (Pool World Response × Move (Option Tx) Request)} {P : Pool World Response}
    (hr : Serving env sv w h P) (hv : w.tables.users k = some v)
    (hname : v'.username = v.username) (hothers : ∀ request ∈ requests h,
      authedKey sv request ≠ some k ∧ ¬request.LogsIn v.username) :
    ∃ h' P', Serving env sv (w.exchanged k v') h' P' ∧ h'.map Prod.snd = h.map Prod.snd ∧
      ∀ i, P'.answer i = P.answer i := by
  obtain ⟨N,hN⟩ : ∃ N : String → Prop, N = (· ≠ v.username) := ⟨_,rfl⟩
  have halike : Alike k N w (w.exchanged k v') :=
    { state := rfl, db := rfl, usernames := rfl
      others := fun k' hk => (Function.update_of_ne hk ..).symm
      account := Or.inr ⟨v,v',hv,Function.update_self ..,hname.symm,hN ▸ fun hne => hne rfl⟩ }
  have hout : ∀ w₁ w₂ e w₁', Alike k N w₁ w₂ → Elsewhere env w₁ e w₁' →
      ∃ w₂', Elsewhere env w₂ e w₂' ∧ Alike k N w₁' w₂' := by
    intro w₁ w₂ e w₁' ha he
    cases he with
    | @committed tx s h =>
      exact ⟨{ w₂ with state := s },.committed (ha.state ▸ h),rfl,ha.db,ha.usernames,ha.others,
        ha.account⟩
    | @synced db n h =>
      exact ⟨{ w₂ with db },.synced (n := n) (ha.state ▸ h),ha.state,rfl,ha.usernames,ha.others,
        ha.account⟩
  have hblind : ∀ request ∈ requests h, (serve sv request).Blind (Alike k N) := by
    intro request hrequest
    obtain ⟨hkey,hlogin⟩ := hothers request hrequest
    refine asks_serve.blind fun ρ q hq _ _ => hq.same hkey fun n hn => hN ▸ fun hne => ?_
    exact hlogin (hne ▸ hn)
  obtain ⟨h',P',hr',hmoves,ht⟩ := run_twins hout halike hr hblind
  exact ⟨h',P',hr',hmoves,ht.answer⟩

/-- Bob asks for Ann, whatever her address is. -/
theorem account_private_sample : ∃ h P h' P',
    Serving LedgerSync.Sample.env512 Sample.services Sample.joined h P ∧
      Serving LedgerSync.Sample.env512 Sample.services
        (Sample.joined.exchanged "A" { Sample.ann with email := "else@mail.org" }) h' P' ∧
      requests h = [Sample.asking] ∧ ∀ i, P'.answer i = P.answer i := by
  obtain ⟨h,hr,hreq⟩ := @exists_serve _ _ _ _ (Elsewhere LedgerSync.Sample.env512)
    (serve Sample.services) ⟨Sample.joined,[],[]⟩ Sample.asking
  obtain ⟨h',P',hr',_,hanswers⟩ := @account_private _ _ _ "A" Sample.ann
    { Sample.ann with email := "else@mail.org" } _ _ hr rfl rfl fun request hrequest => by
      obtain rfl := List.mem_singleton.mp (hreq ▸ hrequest)
      exact ⟨by decide,id⟩
  exact ⟨h,_,h',P',hr,hr',hreq,hanswers⟩

end DgcRestApi.Server.Accounts
