import DgcRestApi.Ledger.Persistence
import DgcRestApi.Server.Access
import DgcRestApi.Server.Registration

/-!
# Registrations

Whoever registers must name the key of a participant, and so every account is one of a
participant, in every interleaving with other requests, ledger sync and the ledger. That the
client holds the key is not checked. As nobody waits for the query that would find the key
taken, a registration under the key of another account is answered with a token for it.
-/

namespace DgcRestApi.Server.Accounts
open Interleaving LedgerSync
open Users (Input Tables User Query Results Database)

/-- The server as it is started for the first time. -/
def World.initial : World where
  state := State.empty
  db := Db.empty
  tables := .empty

section Enrolled

variable {env : Env} {sv : Services} {w w' w'' : World} {k : String} {request : Request}

/-- The key is that of a participant. -/
def World.Enrolled (env : Env) (w : World) (k : String) : Prop :=
  ∃ p, (ledger env w.state).participant k = some p

/-- What ledger sync shows as a participant and what has an account is one on the ledger. -/
structure World.Sound (env : Env) (w : World) : Prop where
  reached : ∃ h, Reachable env h w.state
  shown : ∀ k profile, fetchQuery k false w = some profile → w.Enrolled env k
  accounts : ∀ k v, w.tables.users k = some v → w.Enrolled env k

/-- Participants stay, and a sound world stays sound. -/
def Onward (env : Env) (w w' : World) : Prop :=
  w.Sound env → w'.Sound env ∧ ∀ k, w.Enrolled env k → w'.Enrolled env k

theorem sound_initial : World.initial.Sound env where
  reached := ⟨[],.nil⟩
  shown _ _ h := nomatch h
  accounts _ _ h := nomatch h

theorem Onward.refl (w : World) : Onward env w w := fun h => ⟨h,fun _ => id⟩

theorem Onward.trans (h : Onward env w w') (h' : Onward env w' w'') : Onward env w w'' :=
  fun hs => ⟨(h' (h hs).1).1,fun k hk => (h' (h hs).1).2 k ((h hs).2 k hk)⟩

/-- `fetchQuery` finds a participant of the ledger that the database shows. -/
theorem enrolled_of_shown {n : Nat} {profile : Profile} (hm : Mirrors (ledger env w.state) w.db n)
    (h : fetchQuery k false w = some profile) : w.Enrolled env k := by
  obtain ⟨block,hblock,h⟩ := Option.bind_eq_some_iff.mp h
  obtain rfl : n = block := Option.some.inj (hm.block.symm.trans hblock)
  obtain ⟨p,hp,_⟩ := Option.bind_eq_some_iff.mp h
  have hk : p.publicKey = k := by simpa using List.find?_some hp
  obtain ⟨q,hq,_⟩ := hm.mem_participants.mp (List.mem_of_find?_eq_some hp)
  exact ⟨q,hk ▸ hq⟩

theorem Elsewhere.onward {e : Option Tx} (h : Elsewhere env w e w') : Onward env w w' := by
  intro hs
  obtain ⟨history,hr⟩ := hs.reached
  cases h with
  | committed haccepted =>
    have hlasts := (reachable_lasts hr (Run.nil.snoc haccepted)).participant
    have hgrown : ∀ k, w.Enrolled env k → _ := fun k ⟨p,hp⟩ => hlasts k p hp
    refine ⟨⟨⟨_,hr.snoc haccepted⟩,fun k profile hp => ?_,fun k v hv => ?_⟩,hgrown⟩
    · exact hgrown k (hs.shown k profile hp)
    · exact hgrown k (hs.accounts k v hv)
  | synced hm => exact ⟨⟨hs.reached,fun k profile => enrolled_of_shown hm,hs.accounts⟩,fun _ => id⟩

theorem updateUser_missing {db : Database} {t : Tables} (changes : Input)
    (hk : t.users k = none) : (Users.updateUser db k changes t).2 = t := by
  rw [Users.updateUser,hk]
  split <;> rfl

/-- A query writes an account where one is, or under the key that the request registers. -/
theorem Asked.written {ρ : Type} {q : World → ρ × World} {v : User} (h : Asked sv request ρ q)
    (hv : (q w).2.tables.users k = some v) :
    request.Registers k ∨ ∃ v', w.tables.users k = some v' := by
  have hkept : (q w).2.tables.users k = w.tables.users k →
      request.Registers k ∨ ∃ v', w.tables.users k = some v' := fun he => Or.inr ⟨v,he ▸ hv⟩
  cases h with
  | fetched | read | found | names => exact hkept rfl
  | @inserted k' user h =>
    by_cases hk : k = k'
    · exact Or.inl (hk ▸ h)
    · exact hkept (insertUser_ne user hk)
  | @deleted k' h =>
    by_cases hk : k = k'
    · exact Or.inl (hk ▸ h)
    · exact hkept (deleteUser_ne hk)
  | listed n => exact hkept (congrFun (insertUsername_users n) k)
  | @updated k' changes h =>
    by_cases hk : k = k'
    · subst hk
      cases hw : w.tables.users k with
      | some v' => exact Or.inr ⟨v',rfl⟩
      | none =>
        rw [onTables,updateUser_missing changes hw,hw] at hv
        cases hv
    · exact hkept (updateUser_ne changes hk)
  | renamed oldName n => exact hkept (congrFun (replaceUsername_users oldName n) k)

theorem Asked.onward {ρ : Type} {q : World → ρ × World} (h : Asked sv request ρ q)
    (hk : ∀ k, request.Registers k → w.Enrolled env k) : Onward env w (q w).2 := by
  intro hs
  obtain ⟨hstate,hdb⟩ := h.frame (w := w)
  have henrolled : ∀ k, (q w).2.Enrolled env k ↔ w.Enrolled env k := by
    intro k
    rw [World.Enrolled,hstate]
    rfl
  refine ⟨⟨hstate ▸ hs.reached,fun k profile hp => ?_,fun k v hv => ?_⟩,
    fun k => (henrolled k).mpr⟩
  · have hshown : fetchQuery k false (q w).2 = fetchQuery k false w := by
      simp only [fetchQuery,hdb,Bool.false_eq_true,if_false]
    exact (henrolled k).mpr (hs.shown k profile (hshown ▸ hp))
  · rw [henrolled]
    rcases h.written hv with hreg | ⟨v',hv'⟩
    · exact hk k hreg
    · exact hs.accounts k v' hv'

/-- A request that is no registration, or the part of one after the participant was found. -/
theorem asks_onward {α : Type} {p : Program World α} (h : p.Asks (Asked sv request))
    (hs : w.Sound env) (hk : ∀ k, request.Registers k → w.Enrolled env k) :
    p.Respects (Onward env) (fun _ _ => True) w := by
  refine h.respects (R := Onward env) (fun _ _ _ => Onward.trans) fun ρ q hq w' hw => ?_
  refine hq.onward fun k hreg => ?_
  exact (hw hs).2 k (hk k hreg)

theorem fetch_respects (hs : w.Sound env) (k : String) :
    (attempt (fetch k false)).run.Respects (Onward env)
      (fun r w' => w'.Sound env ∧ ∀ profile, r = .ok (.ok profile) → w'.Enrolled env k) w := by
  intro w' hw
  have hs' := (hw hs).1
  refine ⟨.refl w',?_⟩
  dsimp only
  cases hfound : fetchQuery k false w' with
  | none => exact ⟨hs',nofun⟩
  | some profile => exact ⟨hs',fun _ _ => hs'.shown k profile hfound⟩

theorem create_respects {user : Input} (hroute : request.route = .createUser user)
    (hs : w.Sound env) : (create sv user request.salt).run.Respects (Onward env)
      (fun _ _ => True) w := by
  rw [create]
  split
  · trivial
  · trivial
  · next k hlookup =>
    have hk : user.field "publicKey" = some k := by rw [Input.field,hlookup]; rfl
    refine respects_chain (fetch_respects hs k) (fun r w' hr => ?_) fun _ _ _ => trivial
    cases r with
    | error => trivial
    | ok profile =>
      obtain ⟨hs',henrolled⟩ := hr
      have hregisters : ∀ k', request.Registers k' → w'.Enrolled env k' := by
        intro k' hreg
        rw [Request.Registers,hroute] at hreg
        obtain rfl : k = k' := Option.some.inj (hk.symm.trans hreg)
        exact henrolled profile rfl
      refine @asks_onward _ sv _ request _ _ ?_ hs' hregisters
      refine asks_chain (asks_hashPassword _ _) fun hashed => ?_
      exact asks_chain (asks_registration hroute hk hashed) fun _ => asks_pure _

theorem serve_respects (hs : w.Sound env) :
    (serve sv request).Respects (Onward env) (fun _ _ => True) w := by
  by_cases hroute : ∃ user, request.route = .createUser user
  · obtain ⟨user,hroute⟩ := hroute
    refine @Program.Respects.bind _ _ _ _ (fun _ _ => True) _ _ _ _ ?_
      fun r _ _ => by cases r <;> trivial
    rw [act,hroute]
    refine Program.Respects.bind (create_respects hroute hs) fun r _ _ => by cases r <;> trivial
  · refine asks_onward asks_serve hs fun k hreg => ?_
    rw [Request.Registers] at hreg
    split at hreg
    · next user h => exact absurd ⟨user,h⟩ hroute
    · exact hreg.elim

end Enrolled

/-! ## Registrations that nothing interrupts -/

section Alone

variable {sv : Services} {w : World} {k n p q email salt : String} {user : Input} {v : User}

theorem exec_rethrow {ε ε' α : Type} (f : ε → ε') (x : Promised ε World α) (w : World) :
    (rethrow f x).run.exec w = ((x.run.exec w).1.mapError f,(x.run.exec w).2) :=
  Program.exec_bind ..

theorem exec_map {α β : Type} (f : α → β) (x : Action α) (w : World) :
    (f <$> x).run.exec w = ((x.run.exec w).1.map f,(x.run.exec w).2) := by
  refine (Program.exec_bind x.run _ w).trans ?_
  rcases x.run.exec w with ⟨_ | _,_⟩ <;> rfl

theorem exec_serve (request : Request) (w : World) : (serve sv request).exec w =
    match (act sv request).run.exec w with
      | (.ok response,w') => (response,w')
      | (.error failure,w') => (.failed failure,w') := by
  refine (Program.exec_bind (act sv request).run _ w).trans ?_
  rcases (act sv request).run.exec w with ⟨_ | _,_⟩ <;> rfl

theorem exec_fetch {profile : Profile} (h : fetchQuery k false w = some profile) :
    (attempt (fetch k false)).run.exec w = (.ok (.ok profile),w) := by
  rw [exec_attempt,fetch,exec_chain,exec_ask,h]
  rfl

/-- `create` after the participant was found. -/
theorem exec_create {profile : Profile} (hk : user.lookup "publicKey" = some (some k))
    (hfound : fetchQuery k false w = some profile) (hp : user.field "password" = some p)
    (hvalid : (assignPassword user (sv.hash salt p)).valid Users.USER_SCHEMA = true)
    (hn : sv.db.Listable w.tables (assignPassword user (sv.hash salt p)).user.username) :
    (create sv user salt).run.exec w = (.ok ⟨sv.sign k,(user.field "encryptedKey").filter (· ≠ "")⟩,
      { w with
        tables := w.tables.inserted sv.db .before (assignPassword user (sv.hash salt p)).publicKey
          (assignPassword user (sv.hash salt p)).user }) := by
  have hresolved : (Persistent.exec (Users.insert sv.db .before
      (assignPassword user (sv.hash salt p))) w.tables).1 = .ok () := by
    cases h : (Persistent.exec (Users.insert sv.db .before
        (assignPassword user (sv.hash salt p))) w.tables).1 with
    | ok => rfl
    | error e => exact absurd hn (Users.rejects_iff.mp ⟨e,h⟩ hvalid)
  rw [create,hk]
  dsimp only
  rw [exec_chain,exec_fetch hfound]
  dsimp only
  have hhash : (hashPassword sv salt (some p)).run.exec w = (.ok (sv.hash salt p),w) := rfl
  rw [hp,exec_chain,hhash]
  dsimp only
  rw [exec_chain,exec_rethrow,alone_insert,hresolved,Users.insert_tables,if_pos hvalid]
  rfl

/-- An update of the password, by the one who has a token for the account. -/
theorem exec_updatePassword (hv : w.tables.users k = some v) (hk : sv.db.storable k = true)
    (hq : q ≠ "") : ((updateAccount sv [("password",some q)] salt k).run.exec w).2 =
      { w with
        tables := { w.tables with
          users := Function.update w.tables.users k
            (some { v with password := sv.hash salt q }) } } := by
  obtain ⟨changes,hchanges⟩ : ∃ changes : Input, changes = [("password",some (sv.hash salt q))] :=
    ⟨_,rfl⟩
  have hhash : (hashChanges sv [("password",some q)] salt).run.exec w = (.ok changes,w) := by
    rw [hchanges,hashChanges]
    split
    · next h => cases h
    · next h => exact absurd (Option.some.inj (Option.some.inj h)) hq
    · next h =>
      cases h
      rfl
  have hmerge : v.merge changes = { v with password := sv.hash salt q } := by
    subst hchanges
    rfl
  have hname : (changes.field "username").getD "" = "" := by
    subst hchanges
    rfl
  have hvalid : changes.valid Users.UPDATE_SCHEMA = true := by
    subst hchanges
    rfl
  have hkey : (changes.field "publicKey").getD k = k := by
    subst hchanges
    rfl
  have htables : (Persistent.exec (Users.update sv.db k changes) w.tables).2 =
      { w.tables with
        users := Function.update w.tables.users k
          (some { v with password := sv.hash salt q }) } := by
    rw [Users.update_tables hvalid hk hv hkey,Tables.updated,hmerge,hname]
    dsimp only
    split
    · next hsame => rw [hsame,← hv,Function.update_eq_self]
    · rfl
  rw [updateAccount,exec_chain,hhash]
  dsimp only
  rw [exec_chain,exec_rethrow,alone_update,htables]
  cases (Persistent.exec (Users.update sv.db k changes) w.tables).1 <;> rfl

/-- The registration of someone else's key under a new name. -/
def claim (k n p email : String) : Request where
  route := .createUser [("username",some n),("password",some p),("email",some email),
    ("publicKey",some k)]

/-- The update that the answer to the claim allows. -/
def takeover (token q : String) : Request where
  route := .updateUser [("password",some q)]
  authorization := some token

/-- A claim is answered with a token for the key, and it writes what a registration writes. -/
theorem exec_claim {profile : Profile} (hfound : fetchQuery k false w = some profile)
    (hn : sv.db.Listable w.tables n) (hemail : Users.emailPattern email.toList = true) :
    (serve sv (claim k n p email)).exec w = (.granted ⟨sv.sign k,none⟩,
      { w with tables := w.tables.inserted sv.db .before k ⟨n,sv.hash "" p,email,none⟩ }) := by
  obtain ⟨user,huser⟩ : ∃ user : Input, user = [("username",some n),("password",some p),
    ("email",some email),("publicKey",some k)] := ⟨_,rfl⟩
  obtain ⟨input,hinput⟩ : ∃ input, input = assignPassword user (sv.hash "" p) := ⟨_,rfl⟩
  have hkey : input.publicKey = k := by
    rw [hinput,huser]
    rfl
  have hdocument : input.user = ⟨n,sv.hash "" p,email,none⟩ := by
    rw [hinput,huser]
    rfl
  have hvalid : input.valid Users.USER_SCHEMA = true := by
    rw [hinput,huser]
    simp [assignPassword,Input.valid,Users.USER_SCHEMA,Users.Pattern.accepts,hemail]
  have hlistable : sv.db.Listable w.tables input.user.username := by rwa [hdocument]
  have hcreate : (create sv user "").run.exec w = (.ok ⟨sv.sign k,none⟩,
      { w with
        tables := w.tables.inserted sv.db .before k ⟨n,sv.hash "" p,email,none⟩ }) := by
    rw [exec_create (k := k) (p := p) (huser ▸ rfl) hfound (huser ▸ rfl) (hinput ▸ hvalid)
      (hinput ▸ hlistable),← hinput,hkey,hdocument,huser]
    rfl
  rw [exec_serve,act,claim]
  dsimp only
  rw [exec_map,← huser,hcreate]
  rfl

/-- When the key is taken, the name is all that the claim writes. -/
theorem inserted_taken {timing : Users.Timing} {u : User} (hv : w.tables.users k = some v)
    (hn : sv.db.Listable w.tables u.username) :
    (w.tables.inserted sv.db timing k u).users k = some v := by
  have htaken : ¬sv.db.Insertable w.tables k := fun h => nomatch hv.symm.trans h.2
  rw [← hv,Tables.inserted,if_pos hn,if_neg htaken]

theorem exec_takeover {token : String} (hv : w.tables.users k = some v)
    (hk : sv.db.storable k = true) (hq : q ≠ "") (hempty : k ≠ "") (htoken : token ≠ "")
    (hverify : sv.verify token = some k) :
    ((serve sv (takeover token q)).exec w).2.tables.users k =
      some { v with password := sv.hash "" q } := by
  have hauth : authedKey sv (takeover token q) = some k := by
    rw [authedKey,takeover,Option.filter_some,if_pos (by simpa using htoken)]
    exact hverify
  have hact : act sv (takeover token q) =
      Response.updated <$> updateAccount sv [("password",some q)] "" k := by
    have hallowed : ¬((authedKey sv (takeover token q)).getD "") = "" := by
      rw [hauth]
      exact hempty
    rw [← Option.getD_some (a := k) (b := ""),← hauth]
    exact if_neg hallowed
  have hstate : ∀ r : Except Failure Response × World, (match r with
      | (.ok response,w') => (response,w')
      | (.error failure,w') => (Response.failed failure,w')).2 = r.2 := by
    rintro ⟨_ | _,_⟩ <;> rfl
  rw [exec_serve,hstate,hact,exec_map,exec_updatePassword hv hk hq]
  exact Function.update_self ..

end Alone

/-- In every interleaving, whoever has an account is a participant on the ledger. -/
theorem accounts_enrolled {env : Env} {sv : Services}
    {h : List (Pool World Response × Move (Option Tx) Request)} {P : Pool World Response}
    (hr : Serving env sv .initial h P) : ∀ P' ∈ Run.states h P, ∀ k v,
      P'.state.tables.users k = some v →
        ∃ p, (ledger env P'.state.state).participant k = some p := by
  have hrun := (run_respects Onward.refl (fun _ _ _ => Onward.trans)
    (fun _ _ _ he => Elsewhere.onward he) (fun _ _ _ _ _ _ => trivial) hr fun request _ w hw =>
      serve_respects (hw sound_initial).1).1
  exact fun P' hP' => ((hrun P' hP') sound_initial).1.accounts

/-- Ann joins the ledger and then registers. -/
theorem accounts_enrolled_sample : ∃ h P,
    Serving LedgerSync.Sample.env512 Sample.services .initial h P ∧
      P.state.tables.users "A" = some Sample.ann ∧
      ∃ p, (ledger LedgerSync.Sample.env512 P.state.state).participant "A" = some p := by
  obtain ⟨tx,_,hacc⟩ := accepted_of_apply LedgerSync.Sample.apply_joining
  have hmirror : Mirrors (ledger LedgerSync.Sample.env512 LedgerSync.Sample.welcomed)
      Sample.shown.db 1 := LedgerSync.Sample.mirrors_welcome
  have hshown : Serving LedgerSync.Sample.env512 Sample.services .initial _
      ⟨Sample.shown,[],[]⟩ :=
    (Run.nil.snoc (.outside (.committed hacc))).snoc (.outside (.synced hmirror))
  obtain ⟨h,hr,_⟩ := @exists_serve _ _ _ _ (Elsewhere LedgerSync.Sample.env512)
    (serve Sample.services) ⟨Sample.shown,[],[]⟩ (claim "A" "ann" "secret" "ann@mail.org")
  have hrun := hshown.trans hr
  have hann : ((serve Sample.services (claim "A" "ann" "secret" "ann@mail.org")).exec
      Sample.shown).2.tables.users "A" = some Sample.ann := by
    rw [exec_claim Sample.fetchQuery_shown (by decide) (by decide +kernel)]
    rfl
  exact ⟨_,_,hrun,hann,accounts_enrolled hrun _ List.mem_cons_self _ _ hann⟩

/-- Whoever finds a free name gets a token for any account, and then gives it a password. -/
theorem account_taken_over {env : Env} {sv : Services} {w : World} {k n p q email : String}
    {v : User} {profile : Profile} (hv : w.tables.users k = some v)
    (hfound : fetchQuery k false w = some profile) (hk : sv.db.storable k = true)
    (hn : sv.db.Listable w.tables n) (hemail : Users.emailPattern email.toList = true)
    (hq : q ≠ "") (hempty : k ≠ "") (hsign : sv.sign k ≠ "")
    (hverify : sv.verify (sv.sign k) = some k) :
    ∃ token h P, Serving env sv w h P ∧
      requests h = [takeover token q,claim k n p email] ∧
      P.answer 0 = some (.granted ⟨token,none⟩) ∧
      P.state.tables.users k = some { v with password := sv.hash "" q } := by
  have hkept := @inserted_taken sv w k v .before ⟨n,sv.hash "" p,email,none⟩ hv hn
  obtain ⟨h,hr,hreq⟩ := @exists_serve _ _ _ _ (Elsewhere env) (serve sv) ⟨w,[],[]⟩
    (claim k n p email)
  rw [exec_claim hfound hn hemail] at hr
  obtain ⟨h',hr',hreq'⟩ := @exists_serve _ _ _ _ (Elsewhere env) (serve sv) ⟨_,_,_⟩
    (takeover (sv.sign k) q)
  refine ⟨sv.sign k,_,_,hr.trans hr',?_,rfl,?_⟩
  · rw [requests_append,hreq,hreq']
    rfl
  · exact exec_takeover hkept hk hq hempty hsign hverify

/-- Bob takes Ann's account over. -/
theorem account_taken_over_sample : ∃ token h P,
    Serving LedgerSync.Sample.env512 Sample.services Sample.joined h P ∧
      requests h = [takeover token "mine",claim "A" "bob" "" "bob@mail.org"] ∧
      P.answer 0 = some (.granted ⟨token,none⟩) ∧
      P.state.tables.users "A" = some { Sample.ann with password := "#mine" } := by
  have hverify : Sample.services.verify (Sample.services.sign "A") = some "A" := by
    simp [Sample.services]
  exact account_taken_over (v := Sample.ann) rfl Sample.fetchQuery_shown (by decide)
    (by decide) (by decide +kernel) (by decide) (by decide) (by decide) hverify

end DgcRestApi.Server.Accounts
