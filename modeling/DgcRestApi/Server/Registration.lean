import DgcRestApi.Server.Users

/-!
# Registrations that fail

The compensation of `insert` deletes the user by public key, whatever it was that failed. It
undoes the call when the first query stored the user before; it removes the account of another
call when the key was taken, and it comes too early when the first query runs after it.
-/

namespace DgcRestApi.Server.Users
open Persistent

variable {db : Database} {t : Tables} {timing : Timing} {input : Input} {k : String} {user : User}

/-- The promise of `insert` is rejected. -/
def Rejects (db : Database) (timing : Timing) (input : Input) (t : Tables) : Prop :=
  ∃ e, (exec (insert db timing input) t).1 = .error e

theorem removeUser_rejects (err : String) :
    ∃ e, (exec (removeUser db timing k user err) t).1 = .error e := by
  rw [removeUser,exec_bind_ok (exec_settle _),exec_bind_ok (exec_run timing .after)]
  cases (exec (modifyTable (deleteUser db k)) t).1 with
  | ok => exact ⟨err,rfl⟩
  | error e => exact ⟨e,rfl⟩

/-- The outcome depends on the schema and on the second query alone: nobody waits for the
first one. -/
theorem rejects_iff : Rejects db timing input t ↔
    (input.valid USER_SCHEMA = true → ¬ db.Listable t input.user.username) := by
  obtain ⟨e,hvalidate⟩ := @exec_validate db t input USER_SCHEMA
  rw [Rejects,insert]
  by_cases hvalid : input.valid USER_SCHEMA = true
  · rw [if_pos hvalid] at hvalidate
    rw [exec_bind_ok hvalidate,imp_iff_right hvalid]
    dsimp only
    rw [exec_bind_ok (exec_run timing .before),exec_bind_ok (exec_settle _),
      exec_bind_ok (exec_run timing .between),exec_insertUsername]
    have hlisted : db.Listable (if timing = .before then
        (insertUser db input.publicKey input.user t).2 else t) input.user.username ↔
          db.Listable t input.user.username := by
      split
      · rw [Database.Listable,Database.Listable,insertUser_tables]
      · rfl
    by_cases hn : db.Listable t input.user.username
    · rw [if_pos (hlisted.mpr hn)]
      refine iff_of_false (fun h => ?_) (not_not.mpr hn)
      obtain ⟨e,he⟩ := h
      rw [exec_run] at he
      cases he
    · rw [if_neg (mt hlisted.mp hn)]
      exact iff_of_true (removeUser_rejects _) hn
  · rw [if_neg hvalid] at hvalidate
    rw [exec_bind_error hvalidate]
    exact iff_of_true ⟨e,rfl⟩ fun h => absurd h hvalid

theorem inserted_users_ne {k' : String} (hk : k' ≠ k) :
    (t.inserted db timing k user).users k' = t.users k' := by
  rw [Tables.inserted]
  split
  · dsimp only
    split
    · rw [Function.update_of_ne hk]
    · rfl
  · split
    · exact Function.update_of_ne hk ..
    · rfl

/-- Whatever becomes of a registration, the accounts under other keys stay as they are. -/
theorem insert_elsewhere (hk : k ≠ input.publicKey) :
    (exec (insert db timing input) t).2.users k = t.users k := by
  rw [insert_tables]
  split
  · exact inserted_users_ne hk
  · rfl

/-- The document that a failed call leaves under its key. -/
def leftBehind (timing : Timing) (input : Input) : Option User :=
  if timing = .after then some input.user else none

/-- A registration that fails leaves both tables as they were exactly when what it leaves
under its key was there before, unless it fails at the schema or cannot store a key. -/
theorem failed_insert_harmless_iff (db : Database) (timing : Timing) (input : Input)
    (t : Tables) :
    (Rejects db timing input t → (exec (insert db timing input) t).2 = t) ↔
      (input.valid USER_SCHEMA = true → ¬ db.Listable t input.user.username →
        db.storable input.publicKey = true →
          t.users input.publicKey = leftBehind timing input) := by
  rw [rejects_iff,insert_tables]
  by_cases hvalid : input.valid USER_SCHEMA = true
  · rw [if_pos hvalid,imp_iff_right hvalid,imp_iff_right hvalid,Tables.inserted]
    refine imp_congr_right fun hn => ?_
    rw [if_neg hn]
    split
    · next hk =>
      rw [imp_iff_right hk]
      constructor
      · intro h
        have hat := congrArg (fun t' => t'.users input.publicKey) h
        simpa [leftBehind] using hat.symm
      · intro h
        rw [← leftBehind,← h,Function.update_eq_self]
    · next hk => exact iff_of_true rfl fun hk' => absurd hk' hk
  · rw [if_neg hvalid]
    exact iff_of_true (fun _ => rfl) fun h => absurd h hvalid

/-- Ann's name is taken, and the call comes with the key of Bob. It fails, and Bob's account is
gone. -/
theorem failed_insert_removes_account :
    Rejects Sample.db .before (Sample.user "ann" "03b") Sample.both ∧
      Sample.both.users "03b" = some (Sample.user "bob" "03b").user ∧
      (exec (insert Sample.db .before (Sample.user "ann" "03b")) Sample.both).2.users "03b" =
        none ∧
      ¬ (Rejects Sample.db .before (Sample.user "ann" "03b") Sample.both →
        (exec (insert Sample.db .before (Sample.user "ann" "03b")) Sample.both).2 =
          Sample.both) := by
  have hrejects : Rejects Sample.db .before (Sample.user "ann" "03b") Sample.both :=
    rejects_iff.mpr fun _ => by decide +kernel
  have hbob : Sample.both.users "03b" = some (Sample.user "bob" "03b").user := by
    decide +kernel
  have hgone : (exec (insert Sample.db .before (Sample.user "ann" "03b"))
      Sample.both).2.users "03b" = none := by decide +kernel
  refine ⟨hrejects,hbob,hgone,fun h => ?_⟩
  rw [h hrejects,hbob] at hgone
  cases hgone

end DgcRestApi.Server.Users
