import OptimisticLocking.Postgresql.Deposit

/-!
# One deposit on its own

`deposit` and `depositOpt` by a client that nobody interferes with, on a server whose statements
do not fail.  There is then no choice: `Clients.proceed` takes the next statement of the client.

* `Leaves` — a deposit returns, after some number of statements, and leaves the given table.
* `creditedTable` — the table with one deposit booked on the account it is for, if there is one.
* **`deposits_agree_iff`** — both methods return and leave that table exactly when the account
  exists.  Without it `deposit` leaves on its exception, and `depositOpt` aborts and selects again
  for ever.
-/

namespace OptLock

open Transition Database

variable {S Client B : Type} [DecidableEq Client] [Add B]

namespace Clients

/-- The next statement of client `c`. -/
def proceed (srv : Server S Client B) (c : Client) (s : Clients S Client B) (_ : Unit) :
    Option (Clients S Client B) :=
  match s.phase c with
  | .idle => none
  | .select _ _ => step srv s (.select c)
  | .update _ _ _ => step srv s (.update c)
  | .commit _ _ => step srv s (.commit c)
  | .abort _ _ => step srv s (.abort c)

omit [Add B] in
/-- Client `c` has just called one of the methods, on a table that nobody else uses. -/
def called (c : Client) (method : Method) (request : DepositRequest B) (db₀ : S) :
    Clients S Client B :=
  (init db₀).setPhase c (.select method request)

end Clients

/-- The deposit returns and leaves the table `rows'`. -/
def Leaves (srv : Server S Client B) (view : S → Database Client B) (db₀ : S) (c : Client)
    (method : Method) (request : DepositRequest B) (rows' : List (Account B)) : Prop :=
  ∃ k s, run (Clients.proceed srv c) (Clients.called c method request db₀) (List.replicate k ()) =
    some s ∧ s.phase c = .idle ∧ (view s.db).rows = rows'

/-- The table after the deposit. -/
def creditedTable (request : DepositRequest B) (rows : List (Account B)) : List (Account B) :=
  rows.map fun r => if r.username = request.username then r.credited request.amount else r

/-- Both methods return and leave the table after the deposit. -/
def DepositsAgree (srv : Server S Client B) (view : S → Database Client B) (db₀ : S) (c : Client)
    (request : DepositRequest B) : Prop :=
  Leaves srv view db₀ c .depositOpt request (creditedTable request (view db₀).rows) ∧
    Leaves srv view db₀ c .deposit request (creditedTable request (view db₀).rows)

/-! ## On a `Database` itself -/

variable {c : Client} {request : DepositRequest B} {rows : List (Account B)} {row : Account B}

omit [DecidableEq Client] in
lemma creditedTable_of_find? (hkeys : UniqueKeys rows)
    (hfind : rows.find? (·.username = request.username) = some row) :
    replaceRow rows (row.credited request.amount) = creditedTable request rows := by
  have hrow := List.mem_of_find?_eq_some hfind
  have huser : row.username = request.username := by simpa using List.find?_some hfind
  refine List.map_congr_left fun r hr => ?_
  by_cases hid : r.id = row.id
  · obtain rfl := hkeys.eq_of_id hr hrow hid
    simp [Account.credited, huser]
  · have hne : r.username ≠ request.username := fun hsame =>
      hid (congrArg Account.id (hkeys.eq_of_username hr hrow (hsame.trans huser.symm)))
    simp [Account.credited, hid, hne]

omit [DecidableEq Client] [Add B] in
/-- The `UPDATE` finds the row that was selected. -/
lemma find?_id (hkeys : UniqueKeys rows) (hrow : row ∈ rows) (cond : Account B → Bool)
    (hcond : cond row = true) :
    rows.find? (fun r => r.id = row.id && cond r) = some row := by
  cases hfind : rows.find? (fun r => r.id = row.id && cond r) with
  | none =>
      have hnot := List.find?_eq_none.mp hfind row hrow
      simp [hcond] at hnot
  | some r =>
      have hid : r.id = row.id ∧ cond r = true := by simpa using List.find?_some hfind
      rw [hkeys.eq_of_id (List.mem_of_find?_eq_some hfind) hrow hid.1]

/-- On an existing account: select, update, commit. -/
lemma leaves_of_find? (hkeys : UniqueKeys rows) (method : Method)
    (hfind : rows.find? (·.username = request.username) = some row) :
    Leaves server id (.idle rows) c method request (creditedTable request rows) := by
  have hrow := List.mem_of_find?_eq_some hfind
  rw [← creditedTable_of_find? hkeys hfind]
  refine ⟨3, ?_⟩
  cases method with
  | deposit =>
      have hupdate : rows.find? (fun r => r.id = row.id) = some row := by
        simpa using find?_id hkeys hrow (fun _ => true) rfl
      simp [Clients.proceed, Clients.called, Clients.init, Clients.setPhase, Clients.step,
        Clients.selected, server, Database.idle, selectAccountLock, selectAccountByUsername,
        depositAccount, updateAccount, Available, lockRow, Database.commit, close, hfind, hupdate,
        Account.credited, List.replicate]
  | depositOpt =>
      have hupdate : rows.find? (fun r => r.id = row.id && r.version = row.version) = some row :=
        find?_id hkeys hrow (fun r => r.version = row.version) (by simp)
      simp [Clients.proceed, Clients.called, Clients.init, Clients.setPhase, Clients.step,
        Clients.selected, server, Database.idle, selectAccountByUsername, depositAccountOpt,
        updateAccount, Available, lockRow, Database.commit, close, hfind, hupdate, Account.credited,
        List.replicate]

/-- Without the account the pessimistic deposit leaves with nothing changed. -/
lemma leaves_deposit_of_not_found (hfind : rows.find? (·.username = request.username) = none) :
    Leaves server id (.idle rows) c .deposit request rows := by
  refine ⟨2, ?_⟩
  simp [Clients.proceed, Clients.called, Clients.init, Clients.setPhase, Clients.step,
    Clients.selected, server, Database.idle, selectAccountLock, selectAccountByUsername, close,
    hfind, List.replicate]

/-- Without the account, the loop of `depositOpt` is never left. -/
lemma not_leaves_of_not_found (hfind : rows.find? (·.username = request.username) = none)
    (rows' : List (Account B)) :
    ¬ Leaves server id (.idle rows) c .depositOpt request rows' := by
  rintro ⟨k, s, hrun, hidle, -⟩
  have hinv : s.db.rows = rows ∧
      (s.phase c = .select .depositOpt request ∨ s.phase c = .abort .depositOpt request) := by
    refine run_invariant (I := fun s : Bank Client B => s.db.rows = rows ∧
      (s.phase c = .select .depositOpt request ∨ s.phase c = .abort .depositOpt request)) ?_
      ⟨rfl, .inl (Function.update_self ..)⟩ hrun
    rintro m _ m' ⟨hrows, hselect | habort⟩ hstep
    · -- the `SELECT` returns nothing, which the code takes for an exception
      simp only [Clients.proceed, Clients.step, hselect, server, selectAccountByUsername, hrows,
        hfind, Option.some.injEq] at hstep
      subst hstep
      exact ⟨hrows, .inr (Function.update_self ..)⟩
    · simp only [Clients.proceed, Clients.step, habort, Option.some.injEq] at hstep
      subst hstep
      exact ⟨hrows, .inl (Function.update_self ..)⟩
  rcases hinv.2 with hphase | hphase <;>
    rw [hphase] at hidle <;> cases hidle

/-! ## On any server -/

namespace Server.ReadCommitted

variable {srv : Server S Client B} {view : S → Database Client B}

/-- The next statement on a server is the one on its `Database`. -/
lemma view_proceed (hsrv : srv.ReadCommitted view) (c : Client) (s : Clients S Client B)
    (hs : (s.view view).Unwritten) :
    (Clients.proceed srv c s ()).map (Clients.view view) =
      Clients.proceed server c (s.view view) () := by
  have hphase : (s.view view).phase c = s.phase c := rfl
  rw [Clients.proceed, Clients.proceed, hphase]
  cases s.phase c with
  | idle => rfl
  | select method request => exact hsrv.view_step s (.select c) hs
  | update method request account => exact hsrv.view_step s (.update c) hs
  | commit method request => exact hsrv.view_step s (.commit c) hs
  | abort method request => exact hsrv.view_step s (.abort c) hs

lemma unwritten_of_proceed {c : Client} {s s' : Bank Client B} (hs : s.Unwritten)
    (h : Clients.proceed server c s () = some s') : s'.Unwritten := by
  rw [Clients.proceed] at h
  split at h
  · cases h
  all_goals exact hs.step h

/-- A deposit leaves what it leaves on the `Database`. -/
lemma leaves_iff (hsrv : srv.ReadCommitted view) {db₀ : S} (hidle : view db₀ = .idle rows)
    (method : Method) (rows' : List (Account B)) :
    Leaves srv view db₀ c method request rows' ↔
      Leaves server id (.idle rows) c method request rows' := by
  have hcalled : (Clients.called c method request db₀ : Clients S Client B).view view =
      Clients.called c method request (.idle rows) := by
    rw [← hidle]
    rfl
  have hunwritten : Bank.Unwritten (Clients.called c method request (.idle rows)) :=
    fun _ => .inl rfl
  have hrun := fun k => run_map_of_invariant (Clients.view view)
    (fun _ _ _ hI hstep => unwritten_of_proceed hI hstep)
    (fun s _ hI => hsrv.view_proceed c s hI) (hcalled ▸ hunwritten) (List.replicate k ())
  simp only [hcalled] at hrun
  constructor
  · rintro ⟨k, s, hs, hphase, hrows⟩
    exact ⟨k, s.view view, by rw [← hrun, hs, Option.map_some], hphase, hrows⟩
  · rintro ⟨k, m, hm, hphase, hrows⟩
    rw [← hrun, Option.map_eq_some_iff] at hm
    obtain ⟨s, hs, rfl⟩ := hm
    exact ⟨k, s, hs, hphase, hrows⟩

end Server.ReadCommitted

/-- **Run alone, the two methods agree exactly on existing accounts.** -/
theorem deposits_agree_iff {srv : Server S Client B} {view : S → Database Client B}
    (hsrv : srv.ReadCommitted view) {db₀ : S} {rows : List (Account B)}
    (hidle : view db₀ = .idle rows) (hkeys : UniqueKeys rows) (c : Client)
    (request : DepositRequest B) :
    DepositsAgree srv view db₀ c request ↔ ∃ r ∈ rows, r.username = request.username := by
  rw [DepositsAgree, hsrv.leaves_iff hidle, hsrv.leaves_iff hidle, hidle]
  cases hfind : rows.find? (·.username = request.username) with
  | some row =>
      refine iff_of_true ⟨leaves_of_find? hkeys _ hfind, leaves_of_find? hkeys _ hfind⟩ ?_
      exact ⟨row, List.mem_of_find?_eq_some hfind, by simpa using List.find?_some hfind⟩
  | none =>
      refine iff_of_false (fun hagree => not_leaves_of_not_found hfind _ hagree.1) ?_
      rintro ⟨r, hr, huser⟩
      simpa [huser] using List.find?_eq_none.mp hfind r hr

theorem deposits_agree_two :
    DepositsAgree server id (.idle [⟨7, "ann", 100, 0⟩, ⟨8, "bob", 50, 3⟩]) true
      (⟨"ann", 10⟩ : DepositRequest ℕ) :=
  (deposits_agree_iff readCommitted rfl ⟨by decide, by decide⟩ true _).mpr
    ⟨⟨7, "ann", 100, 0⟩, by simp, rfl⟩

/-- A deposit for nobody: the pessimistic one returns, the optimistic one does not. -/
theorem deposit_for_nobody :
    Leaves server id (.idle [⟨7, "ann", 100, 0⟩]) true .deposit (⟨"eve", 10⟩ : DepositRequest ℕ)
      [⟨7, "ann", 100, 0⟩] ∧
    ∀ rows', ¬ Leaves server id (.idle [⟨7, "ann", 100, 0⟩]) true .depositOpt
      (⟨"eve", 10⟩ : DepositRequest ℕ) rows' :=
  ⟨leaves_deposit_of_not_found rfl, fun rows' => not_leaves_of_not_found rfl rows'⟩

end OptLock
