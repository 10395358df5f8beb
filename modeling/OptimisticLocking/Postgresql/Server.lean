import OptimisticLocking.Library.Transition
import Mathlib.Data.List.Nodup

/-!
# Clients of a PostgreSQL server

`AccountRepositoryPess::deposit` and `AccountRepositoryOpt::depositOpt` of
`opt_and_pess_lock.cc`, by any number of clients on one table at the isolation level READ
COMMITTED.

The server is a parameter of the program, and what the program relies on is its documented
behaviour.  A statement sees the latest committed rows; an update and a
`SELECT … FOR NO KEY UPDATE` wait for the row lock, keep it until the transaction ends, and look at
the row again once they have it; what a transaction wrote appears when it commits.  A statement
that waits is a step that is not enabled.

* `Server` — the statements that the program prepares, and the ends of a transaction.
* `Clients.step` — the clients, one statement a step.  Any statement may fail, and a commit may be
  applied although the client sees it fail.
* `Database` — committed rows, row locks, and what open transactions wrote.
* `Server.ReadCommitted` — the documented behaviour: what the statements do to the `Database` that
  the state of the server stands for.
* `Bank` — the clients on a `Database` itself.  **`view_run`**: a run on the server is one of the
  bank, so that the rest is about the bank.
-/

namespace OptLock

open Transition

structure Account (B : Type) where
  id : ℕ
  username : String
  balance : B
  version : ℤ
  deriving DecidableEq, Repr

structure DepositRequest (B : Type) where
  username : String
  amount : B
  deriving DecidableEq, Repr

/-! ## The program -/

/-- The server as the program sees it, with states `S`: the prepared statements of a client, and the
two ends of its transaction.  `none`: the statement waits. -/
structure Server (S Client B : Type) where
  /-- `SELECT * FROM account WHERE username = $1 LIMIT 1`. -/
  selectAccountByUsername : S → Client → String → Option (Account B) × S
  /-- `SELECT * FROM account WHERE username = $1 LIMIT 1 FOR NO KEY UPDATE`. -/
  selectAccountLock : S → Client → String → Option (Option (Account B) × S)
  /-- `UPDATE account SET balance = $1, version = version+1 WHERE id = $2`: the number of affected
  rows. -/
  depositAccount : S → Client → B → ℕ → Option (ℕ × S)
  /-- The same with `AND version = $3`. -/
  depositAccountOpt : S → Client → B → ℕ → ℤ → Option (ℕ × S)
  commit : S → Client → S
  abort : S → Client → S

/-- Which of the two methods a client is in. -/
inductive Method
  /-- `AccountRepositoryPess::deposit`. -/
  | deposit
  /-- `AccountRepositoryOpt::depositOpt`. -/
  | depositOpt
  deriving DecidableEq, Repr

/-- Where a client is; each phase but `idle` is inside a transaction. -/
inductive DepositPhase (B : Type)
  | idle
  /-- Before the `SELECT`. -/
  | select (method : Method) (request : DepositRequest B)
  /-- Before the `UPDATE`; the balance of `account` is raised already. -/
  | update (method : Method) (request : DepositRequest B) (account : Account B)
  /-- The `UPDATE` affected a row. -/
  | commit (method : Method) (request : DepositRequest B)
  /-- A statement failed, found no account, or affected no row: `abort` comes next. -/
  | abort (method : Method) (request : DepositRequest B)
  deriving DecidableEq, Repr

/-- The server, its clients, and the ghost of all deposits that were committed. -/
structure Clients (S Client B : Type) where
  db : S
  phase : Client → DepositPhase B
  committed : List (DepositRequest B)

inductive BankAct (Client B : Type)
  | call (c : Client) (method : Method) (request : DepositRequest B)
  | select (c : Client)
  | update (c : Client)
  | commit (c : Client)
  /-- The server commits, and the client sees an exception. -/
  | commitInDoubt (c : Client)
  /-- The next statement of the client fails, without effect. -/
  | fail (c : Client)
  | abort (c : Client)
  deriving DecidableEq

namespace Clients

variable {S Client B : Type}

def init (db : S) : Clients S Client B :=
  { db := db, phase := fun _ => .idle, committed := [] }

variable [DecidableEq Client]

def setPhase (s : Clients S Client B) (c : Client) (phase : DepositPhase B) : Clients S Client B :=
  { s with phase := Function.update s.phase c phase }

variable [Add B]

omit [DecidableEq Client] in
/-- After the `SELECT`: no account is an exception, and the balance is raised in memory. -/
def selected (method : Method) (request : DepositRequest B) :
    Option (Account B) → DepositPhase B
  | none => .abort method request
  | some account =>
      .update method request { account with balance := account.balance + request.amount }

def step (srv : Server S Client B) (s : Clients S Client B) :
    BankAct Client B → Option (Clients S Client B)
  | .call c method request =>
      match s.phase c with
      | .idle => some (s.setPhase c (.select method request))
      | _ => none
  | .select c =>
      match s.phase c with
      | .select .deposit request =>
          (srv.selectAccountLock s.db c request.username).map fun (res, db) =>
            { s with db := db }.setPhase c (selected .deposit request res)
      | .select .depositOpt request =>
          let (res, db) := srv.selectAccountByUsername s.db c request.username
          some ({ s with db := db }.setPhase c (selected .depositOpt request res))
      | _ => none
  | .update c =>
      match s.phase c with
      | .update .deposit request account =>
          -- the number of affected rows is not looked at
          (srv.depositAccount s.db c account.balance account.id).map fun (_, db) =>
            { s with db := db }.setPhase c (.commit .deposit request)
      | .update .depositOpt request account =>
          (srv.depositAccountOpt s.db c account.balance account.id account.version).map
            fun (affectedRows, db) =>
              { s with db := db }.setPhase c
                (if affectedRows = 0 then .abort .depositOpt request
                  else .commit .depositOpt request)
      | _ => none
  | .commit c =>
      match s.phase c with
      | .commit _ request =>
          some { s with
            db := srv.commit s.db c, phase := Function.update s.phase c .idle
            committed := s.committed ++ [request] }
      | _ => none
  | .commitInDoubt c =>
      match s.phase c with
      | .commit method request =>
          some { s with
            db := srv.commit s.db c, phase := Function.update s.phase c (.abort method request)
            committed := s.committed ++ [request] }
      | _ => none
  | .fail c =>
      match s.phase c with
      | .select method request => some (s.setPhase c (.abort method request))
      | .update method request _ => some (s.setPhase c (.abort method request))
      | .commit method request => some (s.setPhase c (.abort method request))
      | _ => none
  | .abort c =>
      match s.phase c with
      | .abort .deposit _ => some ({ s with db := srv.abort s.db c }.setPhase c .idle)
      | .abort .depositOpt request =>
          -- the loop of `depositOpt` opens the next transaction
          some ({ s with db := srv.abort s.db c }.setPhase c (.select .depositOpt request))
      | _ => none

end Clients

/-! ## `READ COMMITTED` -/

/-- The table, who holds which row lock, and the row that each open transaction wrote. -/
structure Database (Client B : Type) where
  rows : List (Account B)
  locks : ℕ → Option Client
  pending : Client → Option (Account B)

namespace Database

variable {Client B : Type}

/-- No transaction is open. -/
def idle (rows : List (Account B)) : Database Client B :=
  { rows := rows, locks := fun _ => none, pending := fun _ => none }

variable [DecidableEq Client]

/-- Nobody else holds the lock of the row. -/
def Available (db : Database Client B) (c : Client) (id : ℕ) : Prop :=
  db.locks id = none ∨ db.locks id = some c

instance (db : Database Client B) (c : Client) (id : ℕ) : Decidable (db.Available c id) :=
  inferInstanceAs (Decidable (_ ∨ _))

def lockRow (db : Database Client B) (c : Client) (id : ℕ) : Database Client B :=
  { db with locks := Function.update db.locks id (some c) }

/-- The committed row, if there is one. -/
def selectAccountByUsername (db : Database Client B) (username : String) : Option (Account B) :=
  db.rows.find? (·.username = username)

/-- The committed row, which is locked.  `none`: it is locked by another client. -/
def selectAccountLock (db : Database Client B) (c : Client) (username : String) :
    Option (Option (Account B) × Database Client B) :=
  match db.selectAccountByUsername username with
  | none => some (none, db)
  | some row => if db.Available c row.id then some (some row, db.lockRow c row.id) else none

/-- `UPDATE account SET balance = $1, version = version+1 WHERE id = $2` and `cond`: the number of
affected rows.  `none`: it waits. -/
def updateAccount (db : Database Client B) (c : Client) (balance : B) (id : ℕ)
    (cond : Account B → Bool) : Option (ℕ × Database Client B) :=
  match db.rows.find? (fun row => row.id = id && cond row) with
  | none => some (0, db)
  | some row =>
      if db.Available c id then
        let row := { row with balance := balance, version := row.version + 1 }
        some (1, { db.lockRow c id with pending := Function.update db.pending c (some row) })
      else none

def depositAccount (db : Database Client B) (c : Client) (balance : B) (id : ℕ) :
    Option (ℕ × Database Client B) :=
  db.updateAccount c balance id fun _ => true

def depositAccountOpt (db : Database Client B) (c : Client) (balance : B) (id : ℕ)
    (version : ℤ) : Option (ℕ × Database Client B) :=
  db.updateAccount c balance id fun row => row.version = version

/-- The end of a transaction: its locks and its private row are gone. -/
def close (db : Database Client B) (c : Client) : Database Client B :=
  { db with
    locks := fun id => if db.locks id = some c then none else db.locks id
    pending := Function.update db.pending c none }

/-- The table with a row in the place of the one with the same key. -/
def replaceRow (rows : List (Account B)) (row : Account B) : List (Account B) :=
  rows.map fun r => if r.id = row.id then row else r

/-- What the transaction wrote appears. -/
def commit (db : Database Client B) (c : Client) : Database Client B :=
  match db.pending c with
  | none => db.close c
  | some row => { db.close c with rows := replaceRow db.rows row }

/-- A server that is its database. -/
def server : Server (Database Client B) Client B where
  selectAccountByUsername db _ username := (db.selectAccountByUsername username, db)
  selectAccountLock := selectAccountLock
  depositAccount := depositAccount
  depositAccountOpt := depositAccountOpt
  commit := commit
  abort := close

end Database

/-- The documented behaviour of PostgreSQL at the isolation level READ COMMITTED, for the statements
of a transaction that has written nothing yet.  The state of the server stands for a `Database`. -/
structure Server.ReadCommitted {S Client B : Type} [DecidableEq Client] (srv : Server S Client B)
    (view : S → Database Client B) : Prop where
  /-- A plain `SELECT` sees the latest committed rows, and neither locks nor waits. -/
  selectAccountByUsername : ∀ db c username, (view db).pending c = none →
    (srv.selectAccountByUsername db c username).map id view =
      ((view db).selectAccountByUsername username, view db)
  /-- `FOR NO KEY UPDATE` waits for the row lock, keeps it, and returns the latest committed row. -/
  selectAccountLock : ∀ db c username, (view db).pending c = none →
    (srv.selectAccountLock db c username).map (Prod.map id view) =
      (view db).selectAccountLock c username
  /-- An `UPDATE` waits for the row lock, keeps it, and looks at the latest committed row. -/
  depositAccount : ∀ db c balance key, (view db).pending c = none →
    (srv.depositAccount db c balance key).map (Prod.map id view) =
      (view db).depositAccount c balance key
  depositAccountOpt : ∀ db c balance key version, (view db).pending c = none →
    (srv.depositAccountOpt db c balance key version).map (Prod.map id view) =
      (view db).depositAccountOpt c balance key version
  /-- What a transaction wrote appears when it commits, and its locks are gone. -/
  commit : ∀ db c, view (srv.commit db c) = (view db).commit c
  /-- What a transaction wrote vanishes when it aborts, and its locks are gone. -/
  abort : ∀ db c, view (srv.abort db c) = (view db).close c

lemma Database.readCommitted {Client B : Type} [DecidableEq Client] :
    (Database.server : Server (Database Client B) Client B).ReadCommitted id where
  selectAccountByUsername _ _ _ _ := rfl
  selectAccountLock _ _ _ _ := by simp [server]
  depositAccount _ _ _ _ _ := by simp [server]
  depositAccountOpt _ _ _ _ _ _ := by simp [server]
  commit _ _ := rfl
  abort _ _ := rfl

/-- The clients on a `Database` itself. -/
abbrev Bank (Client B : Type) := Clients (Database Client B) Client B

namespace Bank

variable {Client B : Type}

def init (rows : List (Account B)) : Bank Client B := Clients.init (.idle rows)

variable [DecidableEq Client] [Add B]

def step (s : Bank Client B) : BankAct Client B → Option (Bank Client B) :=
  Clients.step Database.server s

end Bank

/-- What the clients of a server are as clients of its `Database`. -/
def Clients.view {S Client B : Type} (view : S → Database Client B) (s : Clients S Client B) :
    Bank Client B :=
  { db := view s.db, phase := s.phase, committed := s.committed }

/-! ## Row locks -/

namespace Database

section locks

variable {Client B : Type} {db : Database Client B} {c d : Client} {id i : ℕ}

/-- The lock of another client is not given away. -/
lemma lockRow_of_ne (havail : db.Available c id) (hd : d ≠ c) (hl : db.locks i = some d) :
    (db.lockRow c id).locks i = some d := by
  have hne : i ≠ id := by
    rintro rfl
    rcases havail with hnone | hown
    · rw [hnone] at hl
      cases hl
    · rw [hown, Option.some.injEq] at hl
      exact hd hl.symm
  simp [lockRow, Function.update_of_ne hne, hl]

variable [DecidableEq Client]

lemma close_locks_of_ne (hd : d ≠ c) (hl : db.locks i = some d) :
    (db.close c).locks i = some d := by
  simp [close, hl, hd]

lemma close_pending_of_ne (hd : d ≠ c) : (db.close c).pending d = db.pending d :=
  Function.update_of_ne hd ..

lemma commit_pending : (db.commit c).pending = (db.close c).pending := by
  rw [Database.commit]
  split <;> rfl

lemma pending_of_selectAccountLock {username : String} {res : Option (Account B)}
    {db' : Database Client B} (h : db.selectAccountLock c username = some (res, db')) :
    db'.pending = db.pending := by
  rw [selectAccountLock] at h
  split at h
  · cases h
    rfl
  · split_ifs at h
    cases h
    rfl

/-- An `UPDATE` writes nothing for another client. -/
lemma pending_of_updateAccount {balance : B} {cond : Account B → Bool} {k : ℕ}
    {db' : Database Client B} (hd : d ≠ c)
    (h : db.updateAccount c balance id cond = some (k, db')) : db'.pending d = db.pending d := by
  rw [updateAccount] at h
  split at h
  · cases h
    rfl
  · split_ifs at h
    cases h
    exact Function.update_of_ne hd ..

end locks

/-! ## Tables with unique keys -/

section keys

variable {B : Type} {rows : List (Account B)} {row r : Account B}

/-- `PRIMARY KEY` and `UNIQUE`. -/
structure UniqueKeys (rows : List (Account B)) : Prop where
  id : (rows.map (·.id)).Nodup
  username : (rows.map (·.username)).Nodup

lemma UniqueKeys.eq_of_id (h : UniqueKeys rows) (hr : r ∈ rows) (hrow : row ∈ rows)
    (hid : r.id = row.id) : r = row :=
  List.inj_on_of_nodup_map h.id hr hrow hid

lemma UniqueKeys.eq_of_username (h : UniqueKeys rows) (hr : r ∈ rows) (hrow : row ∈ rows)
    (huser : r.username = row.username) : r = row :=
  List.inj_on_of_nodup_map h.username hr hrow huser

/-- Replacing a row keeps every other. -/
lemma mem_replaceRow (hold : ∃ r₀ ∈ rows, r₀.id = row.id) :
    r ∈ replaceRow rows row ↔ r = row ∨ r ∈ rows ∧ r.id ≠ row.id := by
  simp only [replaceRow, List.mem_map]
  constructor
  · rintro ⟨r', hr', rfl⟩
    by_cases hid : r'.id = row.id
    · simp [hid]
    · simp [hid, hr']
  · rintro (rfl | ⟨hr, hne⟩)
    · obtain ⟨r₀, hr₀, hid⟩ := hold
      exact ⟨r₀, hr₀, by simp [hid]⟩
    · exact ⟨r, hr, by simp [hne]⟩

/-- The keys of a table. -/
def keys (rows : List (Account B)) : List (ℕ × String) := rows.map fun r => (r.id, r.username)

lemma keys_replaceRow (h : UniqueKeys rows) {r₀ : Account B} (hr₀ : r₀ ∈ rows)
    (hid : row.id = r₀.id) (huser : row.username = r₀.username) :
    keys (replaceRow rows row) = keys rows := by
  simp only [keys, replaceRow, List.map_map]
  refine List.map_congr_left ?_
  intro r hr
  by_cases heq : r.id = row.id
  · have hrr : r = r₀ := h.eq_of_id hr hr₀ (heq.trans hid)
    simp [hrr, hid, huser]
  · simp [heq]

lemma UniqueKeys.of_keys {rows' : List (Account B)} (h : UniqueKeys rows)
    (hkeys : keys rows' = keys rows) : UniqueKeys rows' := by
  have hid : ∀ l : List (Account B), l.map (·.id) = (keys l).map Prod.fst := by simp [keys]
  have huser : ∀ l : List (Account B), l.map (·.username) = (keys l).map Prod.snd := by
    simp [keys]
  refine ⟨?_, ?_⟩
  · rw [hid, hkeys, ← hid]
    exact h.id
  · rw [huser, hkeys, ← huser]
    exact h.username

end keys

end Database

/-! ## A server and its `Database` -/

open Database

/-- A transaction may have written in this phase. -/
def DepositPhase.writes {B : Type} : DepositPhase B → Prop
  | .commit _ _ | .abort _ _ => True
  | _ => False

/-- A transaction that has still to update has written nothing. -/
def Bank.Unwritten {Client B : Type} (s : Bank Client B) : Prop :=
  ∀ c, s.db.pending c = none ∨ (s.phase c).writes

namespace Bank.Unwritten

variable {Client B : Type} {s s' : Bank Client B} {c : Client}

lemma init (rows : List (Account B)) : (Bank.init rows : Bank Client B).Unwritten :=
  fun _ => .inl rfl

lemma pending (h : s.Unwritten) (hphase : ¬ (s.phase c).writes) : s.db.pending c = none :=
  (h c).resolve_right hphase

variable [DecidableEq Client]

/-- A step of client `c` that writes nothing for the others. -/
lemma of_step (h : s.Unwritten) {db : Database Client B} {phase : DepositPhase B}
    {committed : List (DepositRequest B)} (hpending : ∀ d, d ≠ c → db.pending d = s.db.pending d)
    (hself : db.pending c = none ∨ phase.writes) :
    Bank.Unwritten { s with
      db := db, phase := Function.update s.phase c phase, committed := committed } := by
  intro d
  by_cases hd : d = c
  · subst hd
    simpa using hself
  · simpa [Function.update_of_ne hd, hpending d hd] using h d

variable [Add B]

/-- **The step lemma.** -/
theorem step (h : s.Unwritten) {a : BankAct Client B} (hstep : s.step a = some s') :
    s'.Unwritten := by
  cases a with
  | call c method request =>
      simp only [Bank.step, Clients.step] at hstep
      split at hstep <;> cases hstep
      next hphase =>
        exact h.of_step (fun _ _ => rfl)
          (.inl (h.pending (by simp [hphase, DepositPhase.writes])))
  | select c =>
      simp only [Bank.step, Clients.step, server] at hstep
      split at hstep
      · next request hphase =>
          obtain ⟨⟨res, db⟩, hselect, rfl⟩ := Option.map_eq_some_iff.mp hstep
          have hpending := pending_of_selectAccountLock hselect
          refine h.of_step (fun d _ => congrFun hpending d) (.inl ?_)
          rw [hpending]
          exact h.pending (by simp [hphase, DepositPhase.writes])
      · next request hphase =>
          cases hstep
          exact h.of_step (fun _ _ => rfl)
            (.inl (h.pending (by simp [hphase, DepositPhase.writes])))
      · cases hstep
  | update c =>
      simp only [Bank.step, Clients.step, server] at hstep
      split at hstep
      · next request account hphase =>
          obtain ⟨⟨k, db⟩, hupdate, rfl⟩ := Option.map_eq_some_iff.mp hstep
          exact h.of_step (fun d hd => pending_of_updateAccount hd hupdate) (.inr trivial)
      · next request account hphase =>
          obtain ⟨⟨k, db⟩, hupdate, rfl⟩ := Option.map_eq_some_iff.mp hstep
          refine h.of_step (fun d hd => pending_of_updateAccount hd hupdate) (.inr ?_)
          split_ifs <;> trivial
      · cases hstep
  | commit c =>
      simp only [Bank.step, Clients.step, server] at hstep
      split at hstep <;> cases hstep
      refine h.of_step (fun d hd => ?_) (.inl ?_)
      · rw [commit_pending, close_pending_of_ne hd]
      · rw [commit_pending]
        exact Function.update_self ..
  | commitInDoubt c =>
      simp only [Bank.step, Clients.step, server] at hstep
      split at hstep <;> cases hstep
      refine h.of_step (fun d hd => ?_) (.inr trivial)
      rw [commit_pending, close_pending_of_ne hd]
  | fail c =>
      simp only [Bank.step, Clients.step] at hstep
      split at hstep <;> cases hstep <;> exact h.of_step (fun _ _ => rfl) (.inr trivial)
  | abort c =>
      simp only [Bank.step, Clients.step, server] at hstep
      split at hstep <;> cases hstep <;>
        exact h.of_step (fun d hd => close_pending_of_ne hd) (.inl (Function.update_self ..))

/-- **The run lemma.** -/
lemma run {tr : List (BankAct Client B)} (h : s.Unwritten)
    (hrun : Transition.run Bank.step s tr = some s') : s'.Unwritten :=
  run_invariant (fun _ _ _ hI hstep => hI.step hstep) h hrun

end Bank.Unwritten

namespace Server.ReadCommitted

variable {S Client B : Type} [DecidableEq Client] [Add B] {srv : Server S Client B}
  {view : S → Database Client B}

/-- A step on a server is one on its `Database`. -/
theorem view_step (hsrv : srv.ReadCommitted view) (s : Clients S Client B) (a : BankAct Client B)
    (hs : (s.view view).Unwritten) :
    (Clients.step srv s a).map (Clients.view view) = Bank.step (s.view view) a := by
  have hpending : ∀ c, ¬ (s.phase c).writes → (view s.db).pending c = none :=
    fun c hphase => hs.pending hphase
  cases a with
  | call c method request | fail c =>
      simp only [Bank.step, Clients.step, Clients.view]
      split <;> rfl
  | select c =>
      cases hphase : s.phase c with
      | select method request =>
          have hnone := hpending c (by simp [hphase, DepositPhase.writes])
          cases method with
          | deposit =>
              simp only [Bank.step, Clients.step, Clients.view, server, hphase]
              rw [← hsrv.selectAccountLock _ _ _ hnone, Option.map_map, Option.map_map]
              rfl
          | depositOpt =>
              have hselect := hsrv.selectAccountByUsername _ _ request.username hnone
              obtain ⟨hres, hdb⟩ := Prod.mk.inj hselect
              simp only [Bank.step, Clients.step, Clients.view, server, hphase]
              rw [← hres, ← hdb]
              rfl
      | _ => simp only [Bank.step, Clients.step, Clients.view, hphase, Option.map_none]
  | update c =>
      cases hphase : s.phase c with
      | update method request account =>
          have hnone := hpending c (by simp [hphase, DepositPhase.writes])
          cases method with
          | deposit =>
              simp only [Bank.step, Clients.step, Clients.view, server, hphase]
              rw [← hsrv.depositAccount _ _ _ _ hnone, Option.map_map, Option.map_map]
              rfl
          | depositOpt =>
              simp only [Bank.step, Clients.step, Clients.view, server, hphase]
              rw [← hsrv.depositAccountOpt _ _ _ _ _ hnone, Option.map_map, Option.map_map]
              rfl
      | _ => simp only [Bank.step, Clients.step, Clients.view, hphase, Option.map_none]
  | commit c | commitInDoubt c =>
      simp only [Bank.step, Clients.step, Clients.view, server]
      split
      · rw [← hsrv.commit]
        rfl
      · rfl
  | abort c =>
      simp only [Bank.step, Clients.step, Clients.view, server]
      split
      · rw [← hsrv.abort]
        rfl
      · rw [← hsrv.abort]
        rfl
      · rfl

lemma view_step_eq_some (hsrv : srv.ReadCommitted view) {s s' : Clients S Client B}
    (hs : (s.view view).Unwritten) {a : BankAct Client B} (hstep : Clients.step srv s a = some s') :
    Bank.step (s.view view) a = some (s'.view view) := by
  rw [← hsrv.view_step s a hs, hstep, Option.map_some]

/-- **A run on a server is one on its `Database`.** -/
theorem view_run (hsrv : srv.ReadCommitted view) {s s' : Clients S Client B}
    (hs : (s.view view).Unwritten) {tr : List (BankAct Client B)}
    (hrun : run (Clients.step srv) s tr = some s') :
    run Bank.step (s.view view) tr = some (s'.view view) := by
  rw [← run_map_of_invariant (Clients.view view) (fun _ _ _ h hstep => h.step hstep)
    (fun w a h => hsrv.view_step w a h) hs tr, hrun, Option.map_some]

/-- The same from the beginning, where no transaction is open. -/
lemma view_run_init (hsrv : srv.ReadCommitted view) {db₀ : S} {rows₀ : List (Account B)}
    (hidle : view db₀ = .idle rows₀) {s : Clients S Client B} {tr : List (BankAct Client B)}
    (hrun : run (Clients.step srv) (Clients.init db₀) tr = some s) :
    run Bank.step (Bank.init rows₀) tr = some (s.view view) := by
  have hinit : (Clients.init db₀ : Clients S Client B).view view = Bank.init rows₀ := by
    rw [Bank.init, ← hidle]
    rfl
  have hunwritten : ((Clients.init db₀ : Clients S Client B).view view).Unwritten :=
    hinit ▸ .init rows₀
  exact hinit ▸ hsrv.view_run hunwritten hrun

end Server.ReadCommitted

end OptLock
