import OptimisticLocking.Postgresql.Server
import Mathlib.Algebra.BigOperators.Group.List.Basic
import Mathlib.Algebra.GroupWithZero.Nat

/-!
# No deposit is lost

Any mix of `deposit` and `depositOpt` calls, on one table.  Balances are an arbitrary commutative
monoid.

* `BankInv` — why a committed write rests on the current balance: the pessimistic client holds the
  row lock since it read, the optimistic one has compared the version under the lock.
* **`no_deposit_lost`** — balances and versions are those of the committed deposits.
-/

namespace OptLock

open Transition Database

/-! ## The invariant -/

/-- The amounts of those deposits that are on one account. -/
def depositsOn {B : Type} (committed : List (DepositRequest B)) (username : String) : List B :=
  (committed.filter (·.username = username)).map (·.amount)

lemma depositsOn_append {B : Type} (l l' : List (DepositRequest B)) (username : String) :
    depositsOn (l ++ l') username = depositsOn l username ++ depositsOn l' username := by
  simp [depositsOn]

lemma depositsOn_snoc {B : Type} (committed : List (DepositRequest B))
    (request : DepositRequest B) (username : String) :
    depositsOn (committed ++ [request]) username = depositsOn committed username ++
      if request.username = username then [request.amount] else [] := by
  by_cases h : request.username = username <;> simp [depositsOn, h]

/-- A row after one deposit. -/
def Account.credited {B : Type} [Add B] (row : Account B) (amount : B) : Account B :=
  { row with balance := row.balance + amount, version := row.version + 1 }

namespace Bank

variable {Client B : Type} [AddCommMonoid B]

/-- The row that an account was read from is still as it was, as far as the method relies on
it. -/
def Current (s : Bank Client B) (c : Client) (method : Method) (request : DepositRequest B)
    (account row : Account B) : Prop :=
  match method with
  | .deposit => s.db.locks row.id = some c ∧ account.balance = row.balance + request.amount
  | .depositOpt => account.version ≤ row.version ∧
      (account.version = row.version → account.balance = row.balance + request.amount)

/-- What is known of a client from its phase. -/
def PhaseOk (s : Bank Client B) (c : Client) : DepositPhase B → Prop
  | .update method request account => ∃ row ∈ s.db.rows,
      row.id = account.id ∧ row.username = request.username ∧
        s.Current c method request account row
  | .commit _ request => ∃ row ∈ s.db.rows,
      row.username = request.username ∧ s.db.locks row.id = some c ∧
        s.db.pending c = some (row.credited request.amount)
  | _ => True

end Bank

/-- The table is the initial one and the committed deposits. -/
structure BankInv {Client B : Type} [AddCommMonoid B] (rows₀ : List (Account B))
    (s : Bank Client B) : Prop where
  keys : Database.keys s.db.rows = Database.keys rows₀
  books : ∀ r ∈ s.db.rows, ∀ r₀ ∈ rows₀, r₀.id = r.id →
    r.balance = r₀.balance + (depositsOn s.committed r.username).sum ∧
      r.version = r₀.version + (depositsOn s.committed r.username).length
  phases : ∀ c, s.PhaseOk c (s.phase c)

namespace BankInv

open Database Bank

variable {Client B : Type} [AddCommMonoid B] {rows₀ : List (Account B)} {s s' : Bank Client B}
  {c : Client} {request : DepositRequest B}

lemma phaseOk_frame {phase : DepositPhase B} (h : s.PhaseOk c phase)
    (hrows : s'.db.rows = s.db.rows)
    (hlocks : ∀ id, s.db.locks id = some c → s'.db.locks id = some c)
    (hpending : s'.db.pending c = s.db.pending c) : s'.PhaseOk c phase := by
  cases phase with
  | update method request account =>
      obtain ⟨row, hrow, hid, huser, hcurrent⟩ := h
      refine ⟨row, hrows ▸ hrow, hid, huser, ?_⟩
      cases method with
      | deposit => exact ⟨hlocks _ hcurrent.1, hcurrent.2⟩
      | depositOpt => exact hcurrent
  | commit method request =>
      obtain ⟨row, hrow, huser, hlock, hpend⟩ := h
      exact ⟨row, hrows ▸ hrow, huser, hlocks _ hlock, hpending.trans hpend⟩
  | _ => trivial

/-- A step of client `c` that changes no committed row and takes nothing from the others. -/
lemma of_frame (h : BankInv rows₀ s) (c : Client) (hrows : s'.db.rows = s.db.rows)
    (hcommitted : s'.committed = s.committed) (hphase : ∀ d, d ≠ c → s'.phase d = s.phase d)
    (hlocks : ∀ d, d ≠ c → ∀ id, s.db.locks id = some d → s'.db.locks id = some d)
    (hpending : ∀ d, d ≠ c → s'.db.pending d = s.db.pending d)
    (hself : s'.PhaseOk c (s'.phase c)) : BankInv rows₀ s' where
  keys := by rw [hrows, h.keys]
  books := by
    intro r hr r₀ hr₀ hid
    rw [hrows] at hr
    rw [hcommitted]
    exact h.books r hr r₀ hr₀ hid
  phases := by
    intro d
    by_cases hd : d = c
    · exact hd ▸ hself
    · rw [hphase d hd]
      exact phaseOk_frame (h.phases d) hrows (hlocks d hd) (hpending d hd)

lemma init (rows : List (Account B)) (hkeys : UniqueKeys rows) :
    BankInv rows (Bank.init rows : Bank Client B) where
  keys := rfl
  books := by
    intro r hr r₀ hr₀ hid
    rw [hkeys.eq_of_id hr₀ hr hid]
    simp [depositsOn, Bank.init, Clients.init]
  phases := fun _ => trivial

variable [DecidableEq Client]

lemma setPhase (h : BankInv rows₀ s) {phase : DepositPhase B} (hself : s.PhaseOk c phase) :
    BankInv rows₀ (s.setPhase c phase) := by
  refine h.of_frame c rfl rfl (fun d hd => Function.update_of_ne hd ..) (fun d _ id hl => hl)
    (fun d _ => rfl) ?_
  simp only [Clients.setPhase, Function.update_self]
  exact phaseOk_frame hself rfl (fun id hl => hl) rfl

/-- The end of a transaction that wrote nothing. -/
lemma close (h : BankInv rows₀ s) {phase : DepositPhase B}
    (hself : ∀ s' : Bank Client B, s'.PhaseOk c phase) :
    BankInv rows₀ ({ s with db := s.db.close c }.setPhase c phase) := by
  refine h.of_frame c rfl rfl (fun d hd => Function.update_of_ne hd ..)
    (fun d hd id hl => close_locks_of_ne hd hl) (fun d hd => Function.update_of_ne hd ..) ?_
  simp only [Clients.setPhase, Function.update_self]
  exact hself _

/-- The `SELECT` of either method. -/
lemma select (h : BankInv rows₀ s) (hstep : Bank.step s (.select c) = some s') :
    BankInv rows₀ s' := by
  simp only [Bank.step, Clients.step, server] at hstep
  split at hstep
  · next request hphase =>
      obtain ⟨⟨res, db⟩, hsel, rfl⟩ := Option.map_eq_some_iff.mp hstep
      simp only [selectAccountLock, selectAccountByUsername] at hsel
      split at hsel
      · cases hsel
        exact h.setPhase trivial
      · next row hfind =>
          split_ifs at hsel with havail
          cases hsel
          have hrow := List.mem_of_find?_eq_some hfind
          have huser : row.username = request.username := by simpa using List.find?_some hfind
          refine h.of_frame c rfl rfl (fun d hd => Function.update_of_ne hd ..)
            (fun d hd id hl => lockRow_of_ne havail hd hl) (fun d _ => rfl) ?_
          simp only [Clients.setPhase, Function.update_self]
          exact ⟨row, hrow, rfl, huser, Function.update_self .., rfl⟩
  · next request hphase =>
      cases hstep
      refine h.setPhase ?_
      cases hfind : s.db.selectAccountByUsername request.username with
      | none => trivial
      | some row =>
          have hrow := List.mem_of_find?_eq_some hfind
          have huser : row.username = request.username := by simpa using List.find?_some hfind
          exact ⟨row, hrow, rfl, huser, Int.le_refl _, fun _ => rfl⟩
  · cases hstep

/-- An `UPDATE` that affects a row whose balance is the one the client read. -/
lemma updateAccount (h : BankInv rows₀ s) {row : Account B} (method : Method)
    (hrow : row ∈ s.db.rows) (huser : row.username = request.username)
    (havail : s.db.Available c row.id) :
    BankInv rows₀ ({ s with db := { s.db.lockRow c row.id with
      pending := Function.update s.db.pending c (some (row.credited request.amount)) } }.setPhase
      c (.commit method request)) := by
  refine h.of_frame c rfl rfl (fun d hd => Function.update_of_ne hd ..)
    (fun d hd id hl => lockRow_of_ne havail hd hl) (fun d hd => Function.update_of_ne hd ..) ?_
  simp only [Clients.setPhase, Function.update_self]
  exact ⟨row, hrow, huser, Function.update_self .., Function.update_self ..⟩

/-- The `UPDATE` of either method. -/
lemma update (h : BankInv rows₀ s) (hkeys : UniqueKeys s.db.rows)
    (hstep : Bank.step s (.update c) = some s') : BankInv rows₀ s' := by
  simp only [Bank.step, Clients.step, server] at hstep
  split at hstep
  · next request account hphase =>
      obtain ⟨⟨affectedRows, db⟩, hupdate, rfl⟩ := Option.map_eq_some_iff.mp hstep
      have hok := h.phases c
      rw [hphase] at hok
      obtain ⟨row, hrow, hid, huser, hlock, hbalance⟩ := hok
      simp only [depositAccount, Database.updateAccount, Bool.and_true] at hupdate
      split at hupdate
      · next hnone =>
          exact absurd hid (by simpa using List.find?_eq_none.mp hnone row hrow)
      · next row' hfind =>
          have hid' : row'.id = account.id := by simpa using List.find?_some hfind
          obtain rfl : row' = row :=
            hkeys.eq_of_id (List.mem_of_find?_eq_some hfind) hrow (hid'.trans hid.symm)
          rw [← hid] at hupdate
          rw [if_pos (.inr hlock)] at hupdate
          cases hupdate
          rw [hbalance]
          exact h.updateAccount .deposit hrow huser (.inr hlock)
  · next request account hphase =>
      obtain ⟨⟨affectedRows, db⟩, hupdate, rfl⟩ := Option.map_eq_some_iff.mp hstep
      have hok := h.phases c
      rw [hphase] at hok
      obtain ⟨row, hrow, hid, huser, -, hbalance⟩ := hok
      simp only [depositAccountOpt, Database.updateAccount] at hupdate
      split at hupdate
      · cases hupdate
        exact h.setPhase trivial
      · next row' hfind =>
          have hcond : row'.id = account.id ∧ row'.version = account.version := by
            simpa using List.find?_some hfind
          obtain rfl : row' = row :=
            hkeys.eq_of_id (List.mem_of_find?_eq_some hfind) hrow (hcond.1.trans hid.symm)
          split_ifs at hupdate with havail
          cases hupdate
          rw [← hid] at havail
          rw [hbalance hcond.2.symm, ← hid]
          exact h.updateAccount .depositOpt hrow huser havail
  · cases hstep

omit [DecidableEq Client] in
/-- When a row is credited, whoever relied on it held its lock or sees a new version. -/
lemma phaseOk_credited {d : Client} {phase : DepositPhase B} {row : Account B} {amount : B}
    (hok : s.PhaseOk d phase) (hd : d ≠ c) (hrow : row ∈ s.db.rows)
    (hlock : s.db.locks row.id = some c)
    (hrows : s'.db.rows = replaceRow s.db.rows (row.credited amount))
    (hlocks : ∀ id, s.db.locks id = some d → s'.db.locks id = some d)
    (hpending : s'.db.pending d = s.db.pending d) (hkeys : UniqueKeys s.db.rows) :
    s'.PhaseOk d phase := by
  have hold : ∃ r₀ ∈ s.db.rows, r₀.id = (row.credited amount).id := ⟨row, hrow, rfl⟩
  -- a row that `d` has locked is another one
  have hkept : ∀ r ∈ s.db.rows, s.db.locks r.id = some d → r ∈ s'.db.rows := by
    intro r hr hl
    rw [hrows, mem_replaceRow hold]
    refine .inr ⟨hr, ?_⟩
    intro hid
    rw [show r.id = row.id from hid, hlock, Option.some.injEq] at hl
    exact hd hl.symm
  cases phase with
  | update method request account =>
      obtain ⟨r, hr, hid, huser, hcurrent⟩ := hok
      cases method with
      | deposit =>
          exact ⟨r, hkept r hr hcurrent.1, hid, huser, hlocks _ hcurrent.1, hcurrent.2⟩
      | depositOpt =>
          by_cases hsame : r.id = row.id
          · obtain rfl : r = row := hkeys.eq_of_id hr hrow hsame
            refine ⟨r.credited amount, ?_, hid, huser, ?_⟩
            · rw [hrows, mem_replaceRow hold]
              exact .inl rfl
            · have hle : account.version ≤ r.version := hcurrent.1
              have hnew : (r.credited amount).version = r.version + 1 := rfl
              exact ⟨by omega, fun heq => by omega⟩
          · refine ⟨r, ?_, hid, huser, hcurrent⟩
            rw [hrows, mem_replaceRow hold]
            exact .inr ⟨hr, hsame⟩
  | commit method request =>
      obtain ⟨r, hr, huser, hl, hpend⟩ := hok
      exact ⟨r, hkept r hr hl, huser, hlocks _ hl, hpending.trans hpend⟩
  | _ => trivial

/-- A commit: the written row rests on the current one, and everybody who relied on that row has
been locked out or sees a new version. -/
lemma commit (h : BankInv rows₀ s) (hkeys : UniqueKeys s.db.rows) {method : Method}
    (hphase : s.phase c = .commit method request) {phase : DepositPhase B}
    (hself : ∀ s' : Bank Client B, s'.PhaseOk c phase) :
    BankInv rows₀ { s with
      db := s.db.commit c, phase := Function.update s.phase c phase
      committed := s.committed ++ [request] } := by
  have hok := h.phases c
  rw [hphase] at hok
  obtain ⟨row, hrow, huser, hlock, hpending⟩ := hok
  set new := row.credited request.amount with hnew
  have hrows : (s.db.commit c).rows = replaceRow s.db.rows new := by
    simp only [Database.commit, hpending]
  have hlocks : (s.db.commit c).locks = (s.db.close c).locks := by
    simp only [Database.commit, hpending]
  have hpend : (s.db.commit c).pending = (s.db.close c).pending := by
    simp only [Database.commit, hpending]
  have hold : ∃ r₀ ∈ s.db.rows, r₀.id = new.id := ⟨row, hrow, rfl⟩
  refine ⟨?_, ?_, ?_⟩
  · have hkeep : Database.keys (replaceRow s.db.rows new) = Database.keys s.db.rows :=
      keys_replaceRow hkeys hrow rfl rfl
    show Database.keys (s.db.commit c).rows = _
    rw [hrows, hkeep, h.keys]
  · intro r hr r₀ hr₀ hid
    change r ∈ (s.db.commit c).rows at hr
    rw [hrows, mem_replaceRow hold] at hr
    rw [depositsOn_snoc]
    rcases hr with rfl | ⟨hr, hne⟩
    · obtain ⟨hbalance, hversion⟩ := h.books row hrow r₀ hr₀ hid
      have huser' : request.username = new.username := huser.symm
      rw [if_pos huser', List.sum_append, List.length_append]
      constructor
      · show row.balance + request.amount = _
        rw [hbalance, List.sum_singleton, add_assoc]
        rfl
      · show row.version + 1 = _
        rw [hversion]
        push_cast
        rw [List.length_singleton, add_assoc]
        rfl
    · have hother : request.username ≠ r.username := by
        intro heq
        have hrr : r = row := hkeys.eq_of_username hr hrow (heq.symm.trans huser.symm)
        have hid' : r.id = row.id := congrArg Account.id hrr
        exact hne hid'
      rw [if_neg hother, List.append_nil]
      exact h.books r hr r₀ hr₀ hid
  · intro d
    by_cases hd : d = c
    · subst hd
      simp only [Function.update_self]
      exact hself _
    · simp only [Function.update_of_ne hd]
      refine phaseOk_credited (h.phases d) hd hrow hlock hrows ?_ ?_ hkeys
      · intro id hl
        rw [hlocks]
        exact close_locks_of_ne hd hl
      · rw [hpend]
        exact close_pending_of_ne hd

/-- **The step lemma.** -/
theorem step (h : BankInv rows₀ s) (hkeys : UniqueKeys rows₀) {a : BankAct Client B}
    (hstep : Bank.step s a = some s') : BankInv rows₀ s' := by
  have hrows : UniqueKeys s.db.rows := hkeys.of_keys h.keys
  cases a with
  | call c method request =>
      simp only [Bank.step, Clients.step] at hstep
      split at hstep <;> cases hstep
      exact h.setPhase trivial
  | select c => exact h.select hstep
  | update c => exact h.update hrows hstep
  | commit c =>
      simp only [Bank.step, Clients.step, server] at hstep
      split at hstep <;> cases hstep
      next hphase => exact h.commit hrows hphase fun _ => trivial
  | commitInDoubt c =>
      simp only [Bank.step, Clients.step, server] at hstep
      split at hstep <;> cases hstep
      next hphase => exact h.commit hrows hphase fun _ => trivial
  | fail c =>
      simp only [Bank.step, Clients.step] at hstep
      split at hstep <;> cases hstep <;> exact h.setPhase trivial
  | abort c =>
      simp only [Bank.step, Clients.step, server] at hstep
      split at hstep <;> cases hstep <;> exact h.close fun _ => trivial

/-! ### Two states of one run -/

section between

variable {s₁ : Bank Client B} {new : List (DepositRequest B)} {r r₁ : Account B}

omit [DecidableEq Client] in
/-- A row of the table is one of the initial ones, with the deposits on it. -/
lemma origin (h : BankInv rows₀ s) (hr : r ∈ s.db.rows) :
    ∃ r₀ ∈ rows₀, r₀.id = r.id ∧ r₀.username = r.username ∧
      r.balance = r₀.balance + (depositsOn s.committed r.username).sum ∧
      r.version = r₀.version + (depositsOn s.committed r.username).length := by
  have hkey : (r.id, r.username) ∈ Database.keys rows₀ := by
    rw [← h.keys]
    exact List.mem_map.mpr ⟨r, hr, rfl⟩
  obtain ⟨r₀, hr₀, heq⟩ := List.mem_map.mp hkey
  obtain ⟨hid, huser⟩ := Prod.mk.inj heq
  exact ⟨r₀, hr₀, hid, huser, h.books r hr r₀ hr₀ hid⟩

omit [DecidableEq Client] in
/-- No row goes away. -/
lemma exists_row (h₁ : BankInv rows₀ s₁) (h : BankInv rows₀ s) (hr₁ : r₁ ∈ s₁.db.rows) :
    ∃ r ∈ s.db.rows, r₁.id = r.id := by
  have hkey : (r₁.id, r₁.username) ∈ Database.keys s.db.rows := by
    rw [h.keys, ← h₁.keys]
    exact List.mem_map.mpr ⟨r₁, hr₁, rfl⟩
  obtain ⟨r, hr, heq⟩ := List.mem_map.mp hkey
  exact ⟨r, hr, (congrArg Prod.fst heq).symm⟩

omit [DecidableEq Client] in
/-- A row grows by the deposits on it that are committed meanwhile. -/
lemma row_eq (hkeys : UniqueKeys rows₀) (h₁ : BankInv rows₀ s₁) (h : BankInv rows₀ s)
    (hnew : s.committed = s₁.committed ++ new) (hr : r ∈ s.db.rows) (hr₁ : r₁ ∈ s₁.db.rows)
    (hid : r₁.id = r.id) :
    r₁.username = r.username ∧ r.balance = r₁.balance + (depositsOn new r.username).sum ∧
      r.version = r₁.version + (depositsOn new r.username).length := by
  obtain ⟨r₀, hr₀, hid₀, huser₀, hbalance, hversion⟩ := h.origin hr
  obtain ⟨r₀', hr₀', hid₀', huser₀', hbalance₁, hversion₁⟩ := h₁.origin hr₁
  obtain rfl : r₀' = r₀ := hkeys.eq_of_id hr₀' hr₀ (by rw [hid₀', hid, hid₀])
  have huser : r₁.username = r.username := huser₀'.symm.trans huser₀
  rw [hnew, depositsOn_append] at hbalance hversion
  refine ⟨huser, ?_, ?_⟩
  · rw [hbalance, hbalance₁, huser, List.sum_append, add_assoc]
  · rw [hversion, hversion₁, huser, List.length_append]
    push_cast
    exact (add_assoc ..).symm

end between

end BankInv

section server

variable {S Client B : Type} [DecidableEq Client] [AddCommMonoid B] {srv : Server S Client B}
  {view : S → Database Client B} {db₀ : S} {rows₀ : List (Account B)}
  {tr : List (BankAct Client B)} {s : Clients S Client B}

/-- **The run lemma.** -/
lemma Server.ReadCommitted.bankInv (hsrv : srv.ReadCommitted view) (hidle : view db₀ = .idle rows₀)
    (hkeys : UniqueKeys rows₀) (hrun : run (Clients.step srv) (Clients.init db₀) tr = some s) :
    BankInv rows₀ (s.view view) :=
  run_invariant (fun _ _ _ hI hstep => hI.step hkeys hstep) (BankInv.init rows₀ hkeys)
    (hsrv.view_run_init hidle hrun)

end server

/-- **No deposit is lost.**  On a server of the documented behaviour, in every reachable state of
any mix of deposits, with failing statements and retries: the accounts are those of the initial
table, each balance is the initial one plus the amounts of the committed deposits on it, and each
version the initial one plus their number. -/
theorem no_deposit_lost {S Client B : Type} [DecidableEq Client] [AddCommMonoid B]
    {srv : Server S Client B} {view : S → Database Client B} (hsrv : srv.ReadCommitted view)
    {db₀ : S} {rows₀ : List (Account B)} (hidle : view db₀ = .idle rows₀)
    (hkeys : UniqueKeys rows₀) {tr : List (BankAct Client B)} {s : Clients S Client B}
    (hrun : run (Clients.step srv) (Clients.init db₀) tr = some s) :
    Database.keys (view s.db).rows = Database.keys rows₀ ∧
    ∀ r ∈ (view s.db).rows, ∀ r₀ ∈ rows₀, r₀.id = r.id →
      r.balance = r₀.balance + (depositsOn s.committed r.username).sum ∧
      r.version = r₀.version + (depositsOn s.committed r.username).length := by
  have h := hsrv.bankInv hidle hkeys hrun
  exact ⟨h.keys, h.books⟩

/-- A pessimistic deposit overtakes an optimistic one, which retries. -/
theorem no_deposit_lost_retry :
    ∃ s : Bank Bool ℕ, run Bank.step (Bank.init [⟨7, "ann", 100, 0⟩, ⟨8, "bob", 50, 3⟩])
        [.call true .depositOpt ⟨"ann", 10⟩, .select true, .call false .deposit ⟨"ann", 5⟩,
          .select false, .update false, .commit false, .update true, .abort true, .select true,
          .update true, .commit true] = some s ∧
      s.db.rows = [⟨7, "ann", 115, 2⟩, ⟨8, "bob", 50, 3⟩] ∧
      ∀ r ∈ s.db.rows, ∀ r₀ ∈ [(⟨7, "ann", 100, 0⟩ : Account ℕ), ⟨8, "bob", 50, 3⟩], r₀.id = r.id →
        r.balance = r₀.balance + (depositsOn s.committed r.username).sum ∧
        r.version = r₀.version + (depositsOn s.committed r.username).length := by
  have hrun : ∃ s : Bank Bool ℕ, run Bank.step (Bank.init [⟨7, "ann", 100, 0⟩, ⟨8, "bob", 50, 3⟩])
        [.call true .depositOpt ⟨"ann", 10⟩, .select true, .call false .deposit ⟨"ann", 5⟩,
          .select false, .update false, .commit false, .update true, .abort true, .select true,
          .update true, .commit true] = some s ∧
      s.db.rows = [⟨7, "ann", 115, 2⟩, ⟨8, "bob", 50, 3⟩] := ⟨_, rfl, rfl⟩
  obtain ⟨s, hrun, hrows⟩ := hrun
  exact ⟨s, hrun, hrows,
    (no_deposit_lost readCommitted rfl ⟨by decide, by decide⟩ hrun).2⟩

end OptLock
