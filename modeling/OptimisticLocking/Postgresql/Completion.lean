import Mathlib.Algebra.Order.BigOperators.Group.Finset
import OptimisticLocking.Postgresql.Alone
import OptimisticLocking.Postgresql.Payment

/-!
# Conflicts and waiting

What one client of the bank can do to another: a commit on the account makes the `UPDATE` of an
optimistic deposit find no row, and a row lock makes a statement wait.  Neither goes on for ever.

* **`affected_rows_eq_zero_iff`** — the version is compared exactly: an optimistic deposit goes
  round again just when a deposit on its account was committed after its `SELECT`.
* `Bank.wants`, `LockOk` — who waits for which row, and where a client is that has locked it.
* `Bank.potential` — an upper bound for the statements that are left of all calls; every statement
  that does not fail lowers it.
* **`deposits_complete`** — no deadlock, and no endless round of conflicts.
-/

namespace OptLock

open Transition Database

variable {Client B : Type} [DecidableEq Client]

/-! ## When the version differs -/

namespace Clients

variable {S : Type}

@[simp] lemma setPhase_db (s : Clients S Client B) (c : Client) (phase : DepositPhase B) :
    (s.setPhase c phase).db = s.db := rfl

@[simp] lemma setPhase_phase (s : Clients S Client B) (c : Client) (phase : DepositPhase B) :
    (s.setPhase c phase).phase = Function.update s.phase c phase := rfl

/-- The deposits that are committed in a run. -/
lemma committed_of_run [Add B] {srv : Server S Client B} {s₁ s : Clients S Client B}
    {tr : List (BankAct Client B)} (hrun : run (step srv) s₁ tr = some s) :
    s.committed = s₁.committed ++ (settled srv s₁ tr).map Prod.snd := by
  refine run_invariant_of_trace (I := fun tr s =>
    s.committed = s₁.committed ++ (settled srv s₁ tr).map Prod.snd) ?_
    (List.append_nil _).symm hrun
  intro tr s a s' htr ih hstep
  obtain ⟨-, -, hcommitted⟩ := step_phase hstep
  rw [hcommitted, ih, settled_snoc a htr, List.map_append, List.append_assoc]
  cases s.settledBy a <;> rfl

end Clients

namespace Bank

variable [Add B] {s s' : Bank Client B}

/-- What an optimistic `SELECT` has read. -/
lemma selected_account {c : Client} {request : DepositRequest B} {account : Account B}
    (hselect : s.step (.select c) = some s')
    (hphase : s'.phase c = .update .depositOpt request account) :
    s'.db = s.db ∧ ∃ row ∈ s.db.rows, row.username = request.username ∧ row.id = account.id ∧
      row.version = account.version := by
  simp only [step, Clients.step, server] at hselect
  split at hselect
  · next request' hnow =>
      obtain ⟨⟨res, db⟩, -, rfl⟩ := Option.map_eq_some_iff.mp hselect
      rw [Clients.setPhase_phase, Function.update_self] at hphase
      cases res <;> cases hphase
  · next request' hnow =>
      cases hselect
      rw [Clients.setPhase_phase, Function.update_self] at hphase
      cases hfind : s.db.selectAccountByUsername request'.username with
      | none =>
          rw [hfind] at hphase
          cases hphase
      | some row =>
          rw [hfind] at hphase
          cases hphase
          have huser : row.username = request.username := by simpa using List.find?_some hfind
          exact ⟨rfl, row, List.mem_of_find?_eq_some hfind, huser, rfl, rfl⟩
  · cases hselect

end Bank

lemma depositsOn_ne_nil {l : List (DepositRequest B)} {u : String} :
    depositsOn l u ≠ [] ↔ ∃ request ∈ l, request.username = u := by
  simp [depositsOn, List.filter_eq_nil_iff]

section conflicts

variable [AddCommMonoid B] {rows₀ : List (Account B)} {s₁ s : Bank Client B}

omit [DecidableEq Client] in
/-- No account goes away. -/
lemma BankInv.select_isSome (h : BankInv rows₀ s) {username : String}
    (hr₀ : ∃ r₀ ∈ rows₀, r₀.username = username) :
    (s.db.selectAccountByUsername username).isSome := by
  obtain ⟨r₀, hr₀, huser⟩ := hr₀
  have hkey : (r₀.id, r₀.username) ∈ Database.keys s.db.rows := by
    rw [h.keys]
    exact List.mem_map.mpr ⟨r₀, hr₀, rfl⟩
  obtain ⟨r, hr, heq⟩ := List.mem_map.mp hkey
  rw [selectAccountByUsername, List.find?_isSome]
  exact ⟨r, hr, by simpa [← huser] using congrArg Prod.snd heq⟩

/-- An `UPDATE` with the version of a row that was read before affects no row just when there were
deposits on the account meanwhile. -/
lemma BankInv.affected_rows (hkeys : UniqueKeys rows₀) (h₁ : BankInv rows₀ s₁) (h : BankInv rows₀ s)
    {new : List (DepositRequest B)} (hnew : s.committed = s₁.committed ++ new) {r₁ : Account B}
    (hr₁ : r₁ ∈ s₁.db.rows) (c : Client) (balance : B) :
    (s.db.depositAccountOpt c balance r₁.id r₁.version).map Prod.fst = some 0 ↔
      depositsOn new r₁.username ≠ [] := by
  obtain ⟨r, hr, hid⟩ := h₁.exists_row h hr₁
  obtain ⟨huser, -, hversion⟩ := h₁.row_eq hkeys h hnew hr hr₁ hid
  have hcurrent : UniqueKeys s.db.rows := hkeys.of_keys h.keys
  -- no row is found just when the version has grown
  have hzero : (s.db.depositAccountOpt c balance r₁.id r₁.version).map Prod.fst = some 0 ↔
      r.version ≠ r₁.version := by
    rw [depositAccountOpt, Database.updateAccount, hid]
    by_cases hsame : r.version = r₁.version
    · rw [find?_id hcurrent hr (fun row => row.version = r₁.version) (by simpa using hsame)]
      refine iff_of_false ?_ (fun hne => hne hsame)
      split_ifs <;> simp
    · have hnone : s.db.rows.find? (fun row => row.id = r.id && row.version = r₁.version)
          = none := by
        rw [List.find?_eq_none]
        intro row hrow hfound
        have hcond : row.id = r.id ∧ row.version = r₁.version := by simpa using hfound
        exact hsame (hcurrent.eq_of_id hrow hr hcond.1 ▸ hcond.2)
      simp [hnone, hsame]
  rw [hzero, hversion, huser, ← List.length_pos_iff]
  omega

end conflicts

/-- **The version is compared exactly.**  A client has selected the account for an optimistic
deposit; whatever has happened since, on a server of the documented behaviour, an `UPDATE` with what
was read affects no row if and only if a deposit on this account was committed in between; and the
client's own `UPDATE` is answered so. -/
theorem affected_rows_eq_zero_iff {S : Type} [AddCommMonoid B] {srv : Server S Client B}
    {view : S → Database Client B} (hsrv : srv.ReadCommitted view) {db₀ : S}
    {rows₀ : List (Account B)} (hidle : view db₀ = .idle rows₀) (hkeys : UniqueKeys rows₀)
    {pre tr : List (BankAct Client B)} {s₀ s₁ s : Clients S Client B} {c : Client}
    {request : DepositRequest B} {account : Account B}
    (hpre : run (Clients.step srv) (Clients.init db₀) pre = some s₀)
    (hselect : Clients.step srv s₀ (.select c) = some s₁)
    (hphase : s₁.phase c = .update .depositOpt request account)
    (hrun : run (Clients.step srv) s₁ tr = some s) :
    (((view s.db).depositAccountOpt c account.balance account.id account.version).map Prod.fst =
      some 0 ↔ ∃ other ∈ Clients.settled srv s₁ tr, other.2.username = request.username) ∧
    (s.phase c = .update .depositOpt request account →
      ((srv.depositAccountOpt s.db c account.balance account.id account.version).map Prod.fst =
        some 0 ↔ ∃ other ∈ Clients.settled srv s₁ tr, other.2.username = request.username)) := by
  have hrun₁ := run_snoc_eq_some.mpr ⟨s₀, hpre, hselect⟩
  have hrun₂ := run_append_eq_some.mpr ⟨s₁, hrun₁, hrun⟩
  have hinv₁ := hsrv.bankInv hidle hkeys hrun₁
  have hinv := hsrv.bankInv hidle hkeys hrun₂
  have hunwritten₀ := (Bank.Unwritten.init rows₀).run (hsrv.view_run_init hidle hpre)
  obtain ⟨hdb, r₁, hr₁, huser, hid₁, hversion₁⟩ :=
    Bank.selected_account (hsrv.view_step_eq_some hunwritten₀ hselect) hphase
  rw [← hdb] at hr₁
  have hiff : ((view s.db).depositAccountOpt c account.balance account.id account.version).map
      Prod.fst = some 0 ↔
        ∃ other ∈ Clients.settled srv s₁ tr, other.2.username = request.username := by
    rw [← hid₁, ← hversion₁, ← huser]
    have hnew : (s.view view).committed =
        (s₁.view view).committed ++ (Clients.settled srv s₁ tr).map Prod.snd :=
      Clients.committed_of_run hrun
    refine (hinv₁.affected_rows hkeys hinv hnew hr₁ c _).trans ?_
    simp only [depositsOn_ne_nil, List.mem_map, exists_exists_and_eq_and]
  refine ⟨hiff, ?_⟩
  intro hnow
  have hunwritten := (Bank.Unwritten.init rows₀).run (hsrv.view_run_init hidle hrun₂)
  have hpending : (view s.db).pending c = none :=
    hunwritten.pending (c := c) (by simp [Clients.view, hnow, DepositPhase.writes])
  rw [← hiff, ← hsrv.depositAccountOpt _ _ _ _ _ hpending, Option.map_map]
  rfl

/-- A deposit on the same account is committed meanwhile, and one on another. -/
theorem affected_rows_eq_zero_overtaken :
    ∃ s₁ s : Bank Bool ℕ,
      run Bank.step (Bank.init [⟨7, "ann", 100, 0⟩, ⟨8, "bob", 50, 3⟩])
        [.call true .depositOpt ⟨"ann", 10⟩, .select true] = some s₁ ∧
      run Bank.step s₁ [.call false .depositOpt ⟨"bob", 1⟩, .select false, .update false,
        .commit false, .call false .deposit ⟨"ann", 5⟩, .select false, .update false,
        .commit false] = some s ∧
      (s.db.depositAccountOpt true 110 7 0).map Prod.fst = some 0 := by
  let s₀ : Bank Bool ℕ := (Bank.init [⟨7, "ann", 100, 0⟩, ⟨8, "bob", 50, 3⟩]).setPhase true
    (.select .depositOpt ⟨"ann", 10⟩)
  let s₁ : Bank Bool ℕ := s₀.setPhase true (.update .depositOpt ⟨"ann", 10⟩ ⟨7, "ann", 110, 0⟩)
  have hpre : run Bank.step (Bank.init [⟨7, "ann", 100, 0⟩, ⟨8, "bob", 50, 3⟩])
      [.call true .depositOpt ⟨"ann", 10⟩] = some s₀ := rfl
  have hselect : s₀.step (.select true) = some s₁ := rfl
  have hphase : s₁.phase true = .update .depositOpt ⟨"ann", 10⟩ ⟨7, "ann", 110, 0⟩ := rfl
  have hrun : run Bank.step s₁ [.call false .depositOpt ⟨"bob", 1⟩, .select false, .update false,
      .commit false, .call false .deposit ⟨"ann", 5⟩, .select false, .update false,
      .commit false] = some _ := rfl
  have hiff := affected_rows_eq_zero_iff readCommitted rfl ⟨by decide, by decide⟩ hpre hselect
    hphase hrun
  exact ⟨s₁, _, rfl, hrun, hiff.1.mpr ⟨(false, ⟨"ann", 5⟩), by decide, rfl⟩⟩

/-! ## Who waits for whom -/

/-- A client in this phase may have locked the row. -/
def DepositPhase.holds (id : ℕ) : DepositPhase B → Prop
  | .update .deposit _ account => account.id = id
  | .commit _ _ | .abort _ _ => True
  | _ => False

/-- Whoever has locked a row is past the statement that locked it. -/
def LockOk (s : Bank Client B) : Prop := ∀ id c, s.db.locks id = some c → (s.phase c).holds id

/-- The row whose lock the next statement of the client takes. -/
def Bank.wants (s : Bank Client B) (c : Client) : Option ℕ :=
  match s.phase c with
  | .select .deposit request => (s.db.selectAccountByUsername request.username).map (·.id)
  | .update .deposit _ account => some account.id
  | .update .depositOpt _ account =>
      (s.db.rows.find? fun row => row.id = account.id && row.version = account.version).map (·.id)
  | _ => none

namespace Database

variable {db : Database Client B} {c d : Client} {id i : ℕ}

omit [DecidableEq Client] in
lemma lockRow_locks : (db.lockRow c id).locks = Function.update db.locks id (some c) := rfl

omit [DecidableEq Client] in
lemma locks_of_lockRow (hd : d ≠ c) (hl : (db.lockRow c id).locks i = some d) :
    db.locks i = some d := by
  by_cases hi : i = id
  · subst hi
    rw [lockRow_locks, Function.update_self] at hl
    exact absurd (Option.some.inj hl).symm hd
  · rwa [lockRow_locks, Function.update_of_ne hi] at hl

lemma locks_of_close (hl : (db.close c).locks i = some d) : db.locks i = some d ∧ d ≠ c := by
  simp only [close] at hl
  split_ifs at hl with hown
  exact ⟨hl, fun hd => hown (hd ▸ hl)⟩

lemma commit_locks : (db.commit c).locks = (db.close c).locks := by
  rw [Database.commit]
  split <;> rfl

omit [DecidableEq Client] in
/-- Who has to wait for a row waits for the client that has locked it. -/
lemma locked_of_not_available (h : ¬ db.Available c id) : ∃ d, d ≠ c ∧ db.locks id = some d := by
  rw [Available, not_or] at h
  obtain ⟨d, hd⟩ := Option.ne_none_iff_exists'.mp h.1
  exact ⟨d, fun heq => h.2 (heq ▸ hd), hd⟩

lemma updateAccount_isSome {balance : B} {cond : Account B → Bool} (h : db.Available c id) :
    (db.updateAccount c balance id cond).isSome := by
  rw [updateAccount]
  split
  · rfl
  · rw [if_pos h]
    rfl

/-- An `UPDATE` leaves the committed rows, and takes no lock from another client. -/
lemma updateAccount_eq {balance : B} {cond : Account B → Bool} {k : ℕ} {db' : Database Client B}
    (h : db.updateAccount c balance id cond = some (k, db')) :
    db'.rows = db.rows ∧ ∀ i d, d ≠ c → db'.locks i = some d → db.locks i = some d := by
  rw [updateAccount] at h
  split at h
  · cases h
    exact ⟨rfl, fun i d _ hl => hl⟩
  · split_ifs at h
    cases h
    exact ⟨rfl, fun i d hd hl => locks_of_lockRow hd hl⟩

end Database

namespace LockOk

variable {s s' : Bank Client B} {c : Client}

/-- A step of client `c` that takes no lock from the others. -/
lemma of_step (h : LockOk s) (hphase : ∀ d, d ≠ c → s'.phase d = s.phase d)
    (hlocks : ∀ id d, d ≠ c → s'.db.locks id = some d → s.db.locks id = some d)
    (hself : ∀ id, s'.db.locks id = some c → (s'.phase c).holds id) : LockOk s' := by
  intro id d hd
  by_cases hdc : d = c
  · subst hdc
    exact hself id hd
  · rw [hphase d hdc]
    exact h id d (hlocks id d hdc hd)

/-- A step of client `c` to a phase that any lock may be held in. -/
lemma of_update (h : LockOk s) {phase : DepositPhase B} {db : Database Client B}
    (hlocks : ∀ id d, d ≠ c → db.locks id = some d → s.db.locks id = some d)
    (hself : ∀ id, db.locks id = some c → phase.holds id) :
    LockOk ({ s with db := db }.setPhase c phase) := by
  refine h.of_step (fun d hd => Function.update_of_ne hd ..) hlocks ?_
  intro id hl
  rw [Clients.setPhase_phase, Function.update_self]
  exact hself id hl

/-- The end of a transaction. -/
lemma close (h : LockOk s) {phase : DepositPhase B} {db : Database Client B}
    (hdb : db.locks = (s.db.close c).locks) : LockOk ({ s with db := db }.setPhase c phase) := by
  refine h.of_update ?_ ?_
  · intro id d _ hl
    rw [hdb] at hl
    exact (locks_of_close hl).1
  · intro id hl
    rw [hdb] at hl
    exact absurd rfl (locks_of_close hl).2

variable [Add B]

lemma select (h : LockOk s) (hstep : s.step (.select c) = some s') : LockOk s' := by
  simp only [Bank.step, Clients.step, server] at hstep
  split at hstep
  · next request hphase =>
      have hnone : ∀ id, s.db.locks id ≠ some c := by
        intro id hl
        have hholds := h id c hl
        rwa [hphase] at hholds
      obtain ⟨⟨res, db⟩, hsel, rfl⟩ := Option.map_eq_some_iff.mp hstep
      rw [selectAccountLock] at hsel
      split at hsel
      · cases hsel
        exact h.of_update (fun _ _ _ hl => hl) fun _ _ => trivial
      · next row hfind =>
          split_ifs at hsel
          cases hsel
          refine h.of_update (fun id d hd hl => locks_of_lockRow hd hl) ?_
          intro id hl
          by_cases hid : id = row.id
          · exact hid.symm
          · rw [lockRow_locks, Function.update_of_ne hid] at hl
            exact absurd hl (hnone id)
  · next request hphase =>
      cases hstep
      refine h.of_update (fun _ _ _ hl => hl) ?_
      intro id hl
      have hholds := h id c hl
      rw [hphase] at hholds
      exact hholds.elim
  · cases hstep

lemma update (h : LockOk s) (hstep : s.step (.update c) = some s') : LockOk s' := by
  simp only [Bank.step, Clients.step, server] at hstep
  split at hstep
  · next request account hphase =>
      obtain ⟨⟨k, db⟩, hupdate, rfl⟩ := Option.map_eq_some_iff.mp hstep
      exact h.of_update (updateAccount_eq hupdate).2 fun _ _ => trivial
  · next request account hphase =>
      obtain ⟨⟨k, db⟩, hupdate, rfl⟩ := Option.map_eq_some_iff.mp hstep
      refine h.of_update (updateAccount_eq hupdate).2 ?_
      intro id hl
      split_ifs <;> trivial
  · cases hstep

/-- **The step lemma.** -/
theorem step (h : LockOk s) {a : BankAct Client B} (hstep : s.step a = some s') : LockOk s' := by
  cases a with
  | call c method request =>
      simp only [Bank.step, Clients.step] at hstep
      split at hstep <;> cases hstep
      next hphase =>
        refine h.of_update (fun _ _ _ hl => hl) ?_
        intro id hl
        have hholds := h id c hl
        rw [hphase] at hholds
        exact hholds.elim
  | select c => exact h.select hstep
  | update c => exact h.update hstep
  | commit c | commitInDoubt c =>
      simp only [Bank.step, Clients.step, server] at hstep
      split at hstep <;> cases hstep
      exact fun id d hd => h.close (c := c) commit_locks id d hd
  | fail c =>
      simp only [Bank.step, Clients.step] at hstep
      split at hstep <;> cases hstep <;> exact h.of_update (fun _ _ _ hl => hl) fun _ _ => trivial
  | abort c =>
      simp only [Bank.step, Clients.step, server] at hstep
      split at hstep <;> cases hstep <;> exact h.close rfl

/-- Whoever has locked a row does not wait. -/
lemma proceeds (h : LockOk s) {id : ℕ} (hl : s.db.locks id = some c) :
    (Clients.proceed server c s ()).isSome := by
  have hholds := h id c hl
  rw [Clients.proceed]
  cases hphase : s.phase c with
  | idle | select =>
      rw [hphase] at hholds
      exact hholds.elim
  | update method request account =>
      rw [hphase] at hholds
      cases method with
      | deposit =>
          have hid : account.id = id := hholds
          have havail : s.db.Available c account.id := .inr (hid ▸ hl)
          simp [Clients.step, server, hphase, depositAccount, updateAccount_isSome havail]
      | depositOpt => exact hholds.elim
  | commit => simp [Clients.step, server, hphase]
  | abort method => cases method <;> simp [Clients.step, server, hphase]

/-- **Inside a call, a client takes its next statement or waits for a row lock.** -/
theorem proceeds_or_waits (s : Bank Client B) (hc : s.phase c ≠ .idle) :
    (Clients.proceed server c s ()).isSome ∨
      ∃ id, s.wants c = some id ∧ ∃ d, d ≠ c ∧ s.db.locks id = some d := by
  rw [Clients.proceed, Bank.wants]
  cases hphase : s.phase c with
  | idle => exact absurd hphase hc
  | select method request =>
      cases method with
      | deposit =>
          simp only [Clients.step, server, hphase, selectAccountLock]
          cases hfind : s.db.selectAccountByUsername request.username with
          | none => exact .inl rfl
          | some row =>
              by_cases havail : s.db.Available c row.id
              · simp [havail]
              · exact .inr ⟨row.id, rfl, locked_of_not_available havail⟩
      | depositOpt => simp [Clients.step, server, hphase]
  | update method request account =>
      by_cases havail : s.db.Available c account.id
      · left
        cases method <;>
          simp [Clients.step, server, hphase, depositAccount, depositAccountOpt,
            updateAccount_isSome havail]
      · obtain ⟨d, hd⟩ := locked_of_not_available havail
        cases method with
        | deposit => exact .inr ⟨account.id, rfl, d, hd⟩
        | depositOpt =>
            simp only [Clients.step, server, hphase, depositAccountOpt, updateAccount]
            cases hfind : s.db.rows.find? fun row =>
                row.id = account.id && row.version = account.version with
            | none => exact .inl rfl
            | some row =>
                have hcond : row.id = account.id ∧ row.version = account.version := by
                  simpa using List.find?_some hfind
                exact .inr ⟨row.id, rfl, d, hcond.1 ▸ hd⟩
  | commit => simp [Clients.step, server, hphase]
  | abort method => cases method <;> simp [Clients.step, server, hphase]

end LockOk

/-! ## How many statements are left -/

namespace Bank

/-- The `UPDATE` of what was read would find its row. -/
def fresh (s : Bank Client B) (account : Account B) : Bool :=
  s.db.rows.any fun row => row.id = account.id && row.version = account.version

/-- The statements that are left of a call, when nobody else commits and none fails. -/
def left (s : Bank Client B) : DepositPhase B → ℕ
  | .idle => 0
  | .select _ _ => 3
  | .update .deposit _ _ => 2
  | .update .depositOpt _ account => if s.fresh account then 2 else 5
  | .commit _ _ | .abort .deposit _ => 1
  | .abort .depositOpt _ => 4

/-- The same, and what the commit of this call may cost each of the others. -/
def cost (s : Bank Client B) (clients : ℕ) (phase : DepositPhase B) : ℕ :=
  s.left phase + if phase.inCall.isSome then 3 * clients else 0

/-- An upper bound for the statements that are left of all calls. -/
def potential [Fintype Client] (s : Bank Client B) : ℕ :=
  ∑ c, s.cost (Fintype.card Client) (s.phase c)

end Bank

/-- The statement fails, or the client sees it fail. -/
def BankAct.fails : BankAct Client B → Bool
  | .fail _ | .commitInDoubt _ => true
  | _ => false

/-- The server commits. -/
def BankAct.commits : BankAct Client B → Bool
  | .commit _ | .commitInDoubt _ => true
  | _ => false

/-- Not the beginning of a call. -/
def BankAct.continues : BankAct Client B → Bool
  | .call _ _ _ => false
  | _ => true

namespace Bank

variable {s s' : Bank Client B} {c : Client} {phase : DepositPhase B} {n : ℕ}

omit [DecidableEq Client] in
lemma left_congr (hrows : s'.db.rows = s.db.rows) (phase : DepositPhase B) :
    s'.left phase = s.left phase := by
  have hfresh : s'.fresh = s.fresh := by
    funext account
    rw [fresh, fresh, hrows]
  cases phase with
  | update method request account => cases method <;> simp only [left, hfresh]
  | abort method request => cases method <;> rfl
  | _ => rfl

omit [DecidableEq Client] in
/-- What a commit can cost another client. -/
lemma left_le (phase : DepositPhase B) : s'.left phase ≤ s.left phase + 3 := by
  cases phase with
  | update method request account =>
      cases method with
      | deposit => exact Nat.le_add_right _ _
      | depositOpt =>
          simp only [left]
          split_ifs <;> omega
  | abort method request => cases method <;> exact Nat.le_add_right _ _
  | _ => exact Nat.le_add_right _ _

variable [Add B]

/-- Only a commit changes the table. -/
lemma rows_of_step {a : BankAct Client B} (hstep : s.step a = some s') (ha : a.commits = false) :
    s'.db.rows = s.db.rows := by
  cases a with
  | call | fail =>
      simp only [step, Clients.step] at hstep
      split at hstep <;> cases hstep <;> rfl
  | select c =>
      simp only [step, Clients.step, server] at hstep
      split at hstep
      · obtain ⟨⟨res, db⟩, hsel, rfl⟩ := Option.map_eq_some_iff.mp hstep
        rw [selectAccountLock] at hsel
        split at hsel
        · cases hsel
          rfl
        · split_ifs at hsel
          cases hsel
          rfl
      · cases hstep
        rfl
      · cases hstep
  | update c =>
      simp only [step, Clients.step, server] at hstep
      split at hstep
      · obtain ⟨⟨k, db⟩, hupdate, rfl⟩ := Option.map_eq_some_iff.mp hstep
        exact (updateAccount_eq hupdate).1
      · obtain ⟨⟨k, db⟩, hupdate, rfl⟩ := Option.map_eq_some_iff.mp hstep
        exact (updateAccount_eq hupdate).1
      · cases hstep
  | commit | commitInDoubt => cases ha
  | abort c =>
      simp only [step, Clients.step, server] at hstep
      split at hstep <;> cases hstep <;> rfl

omit [DecidableEq Client] in
/-- The `UPDATE` of what was just read would find its row. -/
lemma left_selected {request : DepositRequest B} (method : Method) {row : Account B}
    (hrow : row ∈ s.db.rows) : s.left (Clients.selected method request (some row)) = 2 := by
  cases method with
  | deposit => rfl
  | depositOpt =>
      have hfresh : s.fresh { row with balance := row.balance + request.amount } = true :=
        List.any_eq_true.mpr ⟨row, hrow, by simp⟩
      simp only [Clients.selected, left, hfresh, if_true]

/-- **A statement that does not fail leaves one less**, unless there is no such account. -/
theorem left_lt {a : BankAct Client B} (hstep : s.step a = some s') (ha : a.continues = true)
    (hok : a.fails = false)
    (hknown : ∀ request, (s.phase a.client).inCall = some (.depositOpt, request) →
      (s.db.selectAccountByUsername request.username).isSome) :
    s'.left (s'.phase a.client) < s.left (s.phase a.client) := by
  cases a with
  | call => cases ha
  | fail | commitInDoubt => cases hok
  | select c =>
      rw [left_congr (rows_of_step hstep rfl)]
      simp only [step, Clients.step, server] at hstep
      split at hstep
      · next request hphase =>
          obtain ⟨⟨res, db⟩, hsel, rfl⟩ := Option.map_eq_some_iff.mp hstep
          simp only [BankAct.client, Clients.setPhase_phase, Function.update_self, hphase]
          cases res with
          | none => exact Nat.lt_of_sub_eq_succ rfl
          | some row => exact Nat.lt_succ_self 2
      · next request hphase =>
          cases hstep
          simp only [BankAct.client, hphase] at hknown
          obtain ⟨row, hfind⟩ := Option.isSome_iff_exists.mp (hknown request rfl)
          simp only [BankAct.client, Clients.setPhase_phase, Function.update_self, hphase, hfind]
          rw [left_selected _ (List.mem_of_find?_eq_some hfind)]
          exact Nat.lt_succ_self 2
      · cases hstep
  | update c =>
      rw [left_congr (rows_of_step hstep rfl)]
      simp only [step, Clients.step, server] at hstep
      split at hstep
      · next request account hphase =>
          obtain ⟨⟨k, db⟩, hupdate, rfl⟩ := Option.map_eq_some_iff.mp hstep
          simp only [BankAct.client, Clients.setPhase_phase, Function.update_self, hphase]
          exact Nat.lt_succ_self 1
      · next request account hphase =>
          obtain ⟨⟨k, db⟩, hupdate, rfl⟩ := Option.map_eq_some_iff.mp hstep
          simp only [BankAct.client, Clients.setPhase_phase, Function.update_self, hphase]
          rw [depositAccountOpt, updateAccount] at hupdate
          split at hupdate
          · next hnone =>
              cases hupdate
              have hstale : s.fresh account = false := by
                simpa [fresh] using hnone
              simp [left, hstale]
          · split_ifs at hupdate
            cases hupdate
            show 1 < s.left (.update .depositOpt request account)
            rw [left]
            split_ifs <;> omega
      · cases hstep
  | commit c =>
      simp only [step, Clients.step, server] at hstep
      split at hstep <;> cases hstep
      next hphase =>
        simp only [BankAct.client, Function.update_self, hphase]
        exact Nat.zero_lt_one
  | abort c =>
      rw [left_congr (rows_of_step hstep rfl)]
      simp only [step, Clients.step, server] at hstep
      split at hstep <;> cases hstep
      · next hphase =>
          simp only [BankAct.client, Clients.setPhase_phase, Function.update_self, hphase]
          exact Nat.zero_lt_one
      · next hphase =>
          simp only [BankAct.client, Clients.setPhase_phase, Function.update_self, hphase]
          exact Nat.lt_succ_self 3

end Bank

omit [DecidableEq Client] in
/-- A statement keeps the client in its call or ends it. -/
lemma PhaseStep.inCall_eq {c : Client} {now next : DepositPhase B} {a : BankAct Client B}
    (h : PhaseStep c now a next) (ha : a.continues = true) :
    next.inCall = now.inCall ∨ next = .idle := by
  cases h with
  | call => cases ha
  | select method request phase hphase | update method request account phase hphase =>
      exact .inl hphase
  | commit | leave => exact .inr rfl
  | commitInDoubt | again => exact .inl rfl
  | fail method request phase hphase => exact .inl hphase.symm

namespace Bank

variable {s s' : Bank Client B} {c : Client} {n : ℕ} [Add B]

lemma inCall_of_step {a : BankAct Client B} (hstep : s.step a = some s')
    (ha : a.continues = true) (d : Client) :
    (s'.phase d).inCall = (s.phase d).inCall ∨ s'.phase d = .idle := by
  obtain ⟨hothers, hphase, -⟩ := Clients.step_phase hstep
  by_cases hd : d = a.client
  · exact hd ▸ hphase.inCall_eq ha
  · rw [hothers d hd]
    exact .inl rfl

omit [DecidableEq Client] [Add B] in
lemma left_pos {phase : DepositPhase B} {call : Method × DepositRequest B}
    (hin : phase.inCall = some call) : 0 < s.left phase := by
  cases phase with
  | idle => cases hin
  | update method request account =>
      cases method with
      | deposit => exact Nat.two_pos
      | depositOpt =>
          rw [left]
          split_ifs <;> omega
  | abort method request => cases method <;> exact Nat.succ_pos _
  | _ => exact Nat.succ_pos _

omit [DecidableEq Client] [Add B] in
lemma cost_of_inCall {phase : DepositPhase B} {call : Method × DepositRequest B}
    (hin : phase.inCall = some call) : s.cost n phase = s.left phase + 3 * n := by
  rw [cost, hin, Option.isSome_some, if_pos rfl]

omit [DecidableEq Client] [Add B] in
lemma cost_le (phase : DepositPhase B) :
    s.cost n phase ≤ if phase.inCall.isSome then 3 * n + 5 else 0 := by
  cases hin : phase.inCall with
  | none =>
      cases phase with
      | idle => exact Nat.le_refl 0
      | _ => cases hin
  | some call =>
      have hleft : s.left phase ≤ 5 := by
        cases phase with
        | update method request account =>
            cases method with
            | deposit => exact Nat.le_add_left _ _
            | depositOpt =>
                rw [left]
                split_ifs <;> omega
        | abort method request => cases method <;> exact Nat.le_add_left _ _
        | _ => exact Nat.le_add_left _ _
      rw [cost_of_inCall hin, Option.isSome_some, if_pos rfl]
      omega

omit [DecidableEq Client] [Add B] in
lemma potential_le [Fintype Client] : s.potential ≤ (3 * Fintype.card Client + 5) *
    (Finset.univ.filter fun c => (s.phase c).inCall.isSome).card := by
  rw [potential, Nat.mul_comm, ← Finset.sum_const_nat fun _ _ => rfl, Finset.sum_filter]
  exact Finset.sum_le_sum fun c _ => cost_le (s.phase c)

omit [DecidableEq Client] [Add B] in
/-- After an exception the transaction begins again at most. -/
lemma cost_abort_le (method : Method) (request : DepositRequest B) :
    s.cost n (.abort method request) ≤ 3 * n + 4 := by
  have hin : (DepositPhase.abort method request).inCall = some (method, request) := rfl
  rw [cost_of_inCall hin]
  cases method <;> simp only [left] <;> omega

/-- What one action costs the client that takes it. -/
lemma cost_self {a : BankAct Client B} (hstep : s.step a = some s') (ha : a.continues = true)
    (hknown : ∀ request, (s.phase a.client).inCall = some (.depositOpt, request) →
      (s.db.selectAccountByUsername request.username).isSome) :
    s'.cost n (s'.phase a.client) + 1 + (if a.commits then 3 * n else 0) ≤
      s.cost n (s.phase a.client) + if a.fails then 3 * n + 4 else 0 := by
  have hstatement : a.fails = false →
      s'.cost n (s'.phase a.client) + 1 ≤ s.cost n (s.phase a.client) := by
    intro hok
    have hlt := left_lt hstep ha hok hknown
    rcases inCall_of_step hstep ha a.client with hsame | hidle
    · rw [cost, cost, hsame]
      omega
    · rw [hidle] at hlt ⊢
      exact hlt.trans_le (Nat.le_add_right _ _)
  obtain ⟨-, hphase, -⟩ := Clients.step_phase hstep
  cases a with
  | call => cases ha
  | select | update | abort => exact hstatement rfl
  | commit c =>
      rw [BankAct.client] at hphase ⊢
      generalize s.phase c = now at hphase ⊢
      generalize s'.phase c = next at hphase ⊢
      cases hphase with
      | commit method request =>
          have hin : (DepositPhase.commit method request).inCall = some (method, request) := rfl
          rw [cost_of_inCall hin]
          show 0 + 1 + 3 * n ≤ 1 + 3 * n + 0
          omega
  | commitInDoubt c =>
      rw [BankAct.client] at hphase ⊢
      generalize s.phase c = now at hphase ⊢
      generalize s'.phase c = next at hphase ⊢
      cases hphase with
      | commitInDoubt method request =>
          have hle := cost_abort_le (s := s') (n := n) method request
          have hin : (DepositPhase.commit method request).inCall = some (method, request) := rfl
          rw [cost_of_inCall hin]
          show s'.cost n (.abort method request) + 1 + 3 * n ≤ 1 + 3 * n + (3 * n + 4)
          omega
  | fail c =>
      rw [BankAct.client] at hphase ⊢
      generalize s.phase c = now at hphase ⊢
      generalize s'.phase c = next at hphase ⊢
      cases hphase with
      | fail method request _ hin =>
          have hle := cost_abort_le (s := s') (n := n) method request
          have hpos := left_pos (s := s) hin
          rw [cost_of_inCall hin]
          show s'.cost n (.abort method request) + 1 + 0 ≤ s.left now + 3 * n + (3 * n + 4)
          omega

/-- What one action costs another client. -/
lemma cost_other {a : BankAct Client B} (hstep : s.step a = some s') {d : Client}
    (hd : d ≠ a.client) :
    s'.cost n (s'.phase d) ≤ s.cost n (s.phase d) + if a.commits then 3 else 0 := by
  obtain ⟨hothers, -, -⟩ := Clients.step_phase hstep
  rw [hothers d hd, cost, cost]
  cases hcommits : a.commits with
  | false =>
      rw [left_congr (rows_of_step hstep hcommits)]
      exact Nat.le_add_right _ _
  | true =>
      have hle : s'.left (s.phase d) ≤ s.left (s.phase d) + 3 := left_le _
      simp only [if_true]
      omega

/-- **Every statement that does not fail leaves less to do**, for all clients together. -/
theorem potential_lt [Fintype Client] {a : BankAct Client B} (hstep : s.step a = some s')
    (ha : a.continues = true)
    (hknown : ∀ request, (s.phase a.client).inCall = some (.depositOpt, request) →
      (s.db.selectAccountByUsername request.username).isSome) :
    s'.potential + 1 ≤ s.potential + if a.fails then 3 * Fintype.card Client + 4 else 0 := by
  set n := Fintype.card Client with hn
  have hself := cost_self (n := n) hstep ha hknown
  have hothers : ∑ d ∈ Finset.univ.erase a.client, s'.cost n (s'.phase d) ≤
      ∑ d ∈ Finset.univ.erase a.client, s.cost n (s.phase d) +
        (n - 1) * if a.commits then 3 else 0 := by
    have hcard : (Finset.univ.erase a.client).card = n - 1 := by
      rw [Finset.card_erase_of_mem (Finset.mem_univ _), Finset.card_univ]
    rw [← hcard, ← Finset.sum_const_nat fun _ _ => rfl, ← Finset.sum_add_distrib]
    exact Finset.sum_le_sum fun d hd => cost_other hstep (Finset.ne_of_mem_erase hd)
  rw [potential, potential, ← Finset.add_sum_erase _ _ (Finset.mem_univ a.client),
    ← Finset.add_sum_erase _ _ (Finset.mem_univ a.client), ← hn]
  split_ifs at hself hothers ⊢ <;> omega

end Bank

/-- **Deposits are completed.**  From any reachable state of a server of the documented behaviour,
let the clients go on with the calls they are in, the optimistic ones on accounts that exist, in any
interleaving.  For `n` clients they take at most `3 * n + 5` statements for each call, and
`3 * n + 4` more for each statement that fails.  And whoever is in a call can take its next
statement, or waits for the row lock of a client that can; so once no client has a statement left to
take, every call has returned. -/
theorem deposits_complete {S : Type} [Fintype Client] [AddCommMonoid B] {srv : Server S Client B}
    {view : S → Database Client B} (hsrv : srv.ReadCommitted view) {db₀ : S}
    {rows₀ : List (Account B)} (hidle : view db₀ = .idle rows₀) (hkeys : UniqueKeys rows₀)
    {pre tr : List (BankAct Client B)} {s₀ s : Clients S Client B}
    (hpre : run (Clients.step srv) (Clients.init db₀) pre = some s₀)
    (hknown : ∀ c request, (s₀.phase c).inCall = some (.depositOpt, request) →
      ∃ r ∈ rows₀, r.username = request.username)
    (hrun : run (Clients.step srv) s₀ tr = some s) (hcalls : ∀ a ∈ tr, a.continues = true) :
    tr.length ≤ (3 * Fintype.card Client + 5) *
        (Finset.univ.filter fun c => (s₀.phase c).inCall.isSome).card +
      (3 * Fintype.card Client + 4) * tr.countP (·.fails) ∧
    ∀ c, s.phase c ≠ .idle → (Clients.proceed srv c s ()).isSome ∨
      ∃ id, (s.view view).wants c = some id ∧ ∃ d, d ≠ c ∧ (view s.db).locks id = some d ∧
        (Clients.proceed srv d s ()).isSome := by
  have hinv₀ := hsrv.bankInv hidle hkeys hpre
  have hpre := hsrv.view_run_init hidle hpre
  have hunwritten₀ := (Bank.Unwritten.init rows₀).run hpre
  have hrun := hsrv.view_run hunwritten₀ hrun
  have hunwritten := hunwritten₀.run hrun
  have hlocks : LockOk (s.view view) := by
    have hinit : LockOk (Bank.init rows₀ : Bank Client B) := fun id c hl => by cases hl
    exact run_invariant (fun _ _ _ hI hstep => hI.step hstep) hinit
      (run_append_eq_some.mpr ⟨s₀.view view, hpre, hrun⟩)
  have hproceed : ∀ c, (Clients.proceed srv c s ()).isSome =
      (Clients.proceed server c (s.view view) ()).isSome := by
    intro c
    rw [← hsrv.view_proceed c s hunwritten, Option.isSome_map]
  constructor
  · have hbound : tr.length + (s.view view).potential ≤
        (s₀.view view).potential + (3 * Fintype.card Client + 4) * tr.countP (·.fails) := by
      refine length_add_le_of_setbacks (I := fun s : Bank Client B => BankInv rows₀ s ∧
        ∀ c request, (s.phase c).inCall = some (.depositOpt, request) →
          ∃ r ∈ rows₀, r.username = request.username) ?_ ?_ ⟨hinv₀, hknown⟩ hcalls hrun
      · rintro s a s' ⟨hinv, hknown⟩ ha hstep
        refine ⟨hinv.step hkeys hstep, ?_⟩
        intro c request hin
        rcases Bank.inCall_of_step hstep ha c with hsame | hidle
        · exact hknown c request (hsame ▸ hin)
        · rw [hidle] at hin
          cases hin
      · rintro s a s' ⟨hinv, hknown⟩ ha hstep
        refine Bank.potential_lt hstep ha ?_
        intro request hin
        exact hinv.select_isSome (hknown _ request hin)
    have hle : (s₀.view view).potential ≤ (3 * Fintype.card Client + 5) *
        (Finset.univ.filter fun c => (s₀.phase c).inCall.isSome).card := Bank.potential_le
    omega
  · intro c hc
    rw [hproceed]
    rcases LockOk.proceeds_or_waits (s.view view) hc with hnext | ⟨id, hwants, d, hd, hl⟩
    · exact .inl hnext
    · exact .inr ⟨id, hwants, d, hd, hl, hproceed d ▸ hlocks.proceeds hl⟩

/-- The optimistic client waits for the pessimistic one, which has locked the row and goes on. -/
theorem deposits_complete_waiting :
    ∃ s : Bank Bool ℕ,
      run Bank.step (Bank.init [⟨7, "ann", 100, 0⟩])
        [.call true .depositOpt ⟨"ann", 10⟩, .select true, .call false .deposit ⟨"ann", 5⟩,
          .select false, .update false] = some s ∧
      ¬ (Clients.proceed server true s ()).isSome ∧
      ∃ id, s.wants true = some id ∧ ∃ d, d ≠ true ∧ s.db.locks id = some d ∧
        (Clients.proceed server d s ()).isSome := by
  let s₀ : Bank Bool ℕ := (((Bank.init [⟨7, "ann", 100, 0⟩]).setPhase true
    (.select .depositOpt ⟨"ann", 10⟩)).setPhase true
      (.update .depositOpt ⟨"ann", 10⟩ ⟨7, "ann", 110, 0⟩)).setPhase false
        (.select .deposit ⟨"ann", 5⟩)
  have hpre : run Bank.step (Bank.init [⟨7, "ann", 100, 0⟩])
      [.call true .depositOpt ⟨"ann", 10⟩, .select true, .call false .deposit ⟨"ann", 5⟩] =
        some s₀ := rfl
  have hrun : run Bank.step s₀ [.select false, .update false] = some _ := rfl
  have hknown : ∀ c request, (s₀.phase c).inCall = some (.depositOpt, request) →
      ∃ r ∈ [(⟨7, "ann", 100, 0⟩ : Account ℕ)], r.username = request.username := by
    rintro (_ | _) request hin
    · cases hin
    · cases hin
      exact ⟨_, List.mem_singleton_self _, rfl⟩
  have hcomplete := deposits_complete readCommitted rfl ⟨by decide, by decide⟩ hpre hknown hrun
    (by decide)
  refine ⟨_, rfl, ?_, (hcomplete.2 true (by decide)).resolve_left ?_⟩ <;> decide

end OptLock
