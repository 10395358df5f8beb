import OptimisticLocking.Postgresql.Deposit

/-!
# How often one `depositOpt` pays

The loop of `depositOpt` treats every exception alike.  After a commit that the server applied
and the client saw fail it goes round again, reads the raised balance and pays a second time.
`deposit` leaves on its first exception.

* `PhaseStep` — where an action takes the client that takes it.
* `Clients.settled` — the deposits committed along a run, with the clients that made them.
* `BankAct.settles` — the commits of a client that the server applies; `payments` counts them.
* **`paid_once_iff`** — the balances count the payments.  While no commit of the call is in doubt
  there is at most one, and a call that has returned has paid once exactly when none was.
-/

namespace OptLock

open Transition

variable {Client B : Type}

/-- The client that takes the action. -/
def BankAct.client : BankAct Client B → Client
  | .call c _ _ | .select c | .update c | .commit c | .commitInDoubt c | .fail c | .abort c => c

/-- The call that a client is in. -/
def DepositPhase.inCall : DepositPhase B → Option (Method × DepositRequest B)
  | .idle => none
  | .select method request | .update method request _ | .commit method request
  | .abort method request => some (method, request)

/-- Where an action takes the client that takes it. -/
inductive PhaseStep (c : Client) : DepositPhase B → BankAct Client B → DepositPhase B → Prop
  | call (method : Method) (request : DepositRequest B) :
      PhaseStep c .idle (.call c method request) (.select method request)
  | select (method : Method) (request : DepositRequest B) (phase : DepositPhase B)
      (hphase : phase.inCall = some (method, request)) :
      PhaseStep c (.select method request) (.select c) phase
  | update (method : Method) (request : DepositRequest B) (account : Account B)
      (phase : DepositPhase B) (hphase : phase.inCall = some (method, request)) :
      PhaseStep c (.update method request account) (.update c) phase
  | commit (method : Method) (request : DepositRequest B) :
      PhaseStep c (.commit method request) (.commit c) .idle
  | commitInDoubt (method : Method) (request : DepositRequest B) :
      PhaseStep c (.commit method request) (.commitInDoubt c) (.abort method request)
  | fail (method : Method) (request : DepositRequest B) (phase : DepositPhase B)
      (hphase : phase.inCall = some (method, request)) :
      PhaseStep c phase (.fail c) (.abort method request)
  | leave (request : DepositRequest B) : PhaseStep c (.abort .deposit request) (.abort c) .idle
  | again (request : DepositRequest B) :
      PhaseStep c (.abort .depositOpt request) (.abort c) (.select .depositOpt request)

/-- The action is a commit of client `c` that the server applies. -/
def BankAct.settles [DecidableEq Client] (c : Client) : BankAct Client B → Bool
  | .commit d | .commitInDoubt d => d = c
  | _ => false

/-- How often the actions apply a transaction of client `c`. -/
def payments [DecidableEq Client] (c : Client) (tr : List (BankAct Client B)) : ℕ :=
  tr.countP (·.settles c)

namespace Clients

variable {S : Type}

/-- The deposit that the action commits. -/
def settledBy (s : Clients S Client B) (a : BankAct Client B) :
    Option (Client × DepositRequest B) :=
  match a with
  | .commit c | .commitInDoubt c =>
      match s.phase c with
      | .commit _ request => some (c, request)
      | _ => none
  | _ => none

lemma client_of_settledBy {s : Clients S Client B} {a : BankAct Client B}
    {x : Client × DepositRequest B} (h : s.settledBy a = some x) : x.1 = a.client := by
  cases a with
  | commit c =>
      simp only [settledBy] at h
      split at h <;> cases h
      rfl
  | commitInDoubt c =>
      simp only [settledBy] at h
      split at h <;> cases h
      rfl
  | _ => cases h

variable [DecidableEq Client] [Add B]

/-- The deposits committed along a run. -/
def settled (srv : Server S Client B) :
    Clients S Client B → List (BankAct Client B) → List (Client × DepositRequest B)
  | _, [] => []
  | s, a :: tr =>
      (s.settledBy a).toList ++ ((step srv s a).map fun s' => settled srv s' tr).getD []

lemma settled_snoc {srv : Server S Client B} {s m : Clients S Client B}
    {tr : List (BankAct Client B)} (a : BankAct Client B) (hm : run (step srv) s tr = some m) :
    settled srv s (tr ++ [a]) = settled srv s tr ++ (m.settledBy a).toList := by
  induction tr generalizing s with
  | nil =>
      rw [run_nil, Option.some.injEq] at hm
      subst hm
      cases hstep : step srv s a <;> simp [settled, hstep]
  | cons b tr ih =>
      obtain ⟨m', hm', hrest⟩ := run_cons_eq_some.mp hm
      rw [List.cons_append, settled, settled, hm']
      simp [ih hrest]

omit [DecidableEq Client] in
lemma selected_inCall (method : Method) (request : DepositRequest B) (res : Option (Account B)) :
    (selected method request res).inCall = some (method, request) := by
  cases res <;> rfl

omit [Add B] in
/-- An action that takes its client to `phase`. -/
lemma phase_update {s s' : Clients S Client B} {a : BankAct Client B} {phase : DepositPhase B}
    (hphase : s'.phase = Function.update s.phase a.client phase)
    (hstep : PhaseStep a.client (s.phase a.client) a phase)
    (hcommitted : s'.committed = s.committed ++ ((s.settledBy a).map Prod.snd).toList) :
    (∀ d, d ≠ a.client → s'.phase d = s.phase d) ∧
      PhaseStep a.client (s.phase a.client) a (s'.phase a.client) ∧
      s'.committed = s.committed ++ ((s.settledBy a).map Prod.snd).toList := by
  refine ⟨?_, ?_, hcommitted⟩
  · intro d hd
    rw [hphase, Function.update_of_ne hd]
  · rw [hphase, Function.update_self]
    exact hstep

/-- **What an action does to the clients**: it moves its own on and leaves the others. -/
lemma step_phase {srv : Server S Client B} {s s' : Clients S Client B} {a : BankAct Client B}
    (h : step srv s a = some s') :
    (∀ d, d ≠ a.client → s'.phase d = s.phase d) ∧
      PhaseStep a.client (s.phase a.client) a (s'.phase a.client) ∧
      s'.committed = s.committed ++ ((s.settledBy a).map Prod.snd).toList := by
  cases a with
  | call c method request =>
      simp only [step] at h
      split at h <;> cases h
      next hphase =>
        refine phase_update rfl ?_ (by simp [settledBy, setPhase])
        rw [BankAct.client, hphase]
        exact .call method request
  | select c =>
      simp only [step] at h
      split at h
      · next request hphase =>
          obtain ⟨⟨res, db⟩, -, rfl⟩ := Option.map_eq_some_iff.mp h
          refine phase_update rfl ?_ (by simp [settledBy, setPhase])
          rw [BankAct.client, hphase]
          exact .select _ _ _ (selected_inCall ..)
      · next request hphase =>
          cases h
          refine phase_update rfl ?_ (by simp [settledBy, setPhase])
          rw [BankAct.client, hphase]
          exact .select _ _ _ (selected_inCall ..)
      · cases h
  | update c =>
      simp only [step] at h
      split at h
      · next request account hphase =>
          obtain ⟨⟨rows, db⟩, -, rfl⟩ := Option.map_eq_some_iff.mp h
          refine phase_update rfl ?_ (by simp [settledBy, setPhase])
          rw [BankAct.client, hphase]
          exact .update _ _ _ _ rfl
      · next request account hphase =>
          obtain ⟨⟨rows, db⟩, -, rfl⟩ := Option.map_eq_some_iff.mp h
          refine phase_update rfl ?_ (by simp [settledBy, setPhase])
          rw [BankAct.client, hphase]
          refine .update _ _ _ _ ?_
          split_ifs <;> rfl
      · cases h
  | commit c =>
      simp only [step] at h
      split at h <;> cases h
      next method request hphase =>
        refine phase_update rfl ?_ (by simp [settledBy, hphase])
        rw [BankAct.client, hphase]
        exact .commit method request
  | commitInDoubt c =>
      simp only [step] at h
      split at h <;> cases h
      next method request hphase =>
        refine phase_update rfl ?_ (by simp [settledBy, hphase])
        rw [BankAct.client, hphase]
        exact .commitInDoubt method request
  | fail c =>
      simp only [step] at h
      split at h <;> cases h
      all_goals
        next hphase =>
          refine phase_update rfl ?_ (by simp [settledBy, setPhase])
          rw [BankAct.client, hphase]
          exact .fail _ _ _ rfl
  | abort c =>
      simp only [step] at h
      split at h <;> cases h
      · next request hphase =>
          refine phase_update rfl ?_ (by simp [settledBy, setPhase])
          rw [BankAct.client, hphase]
          exact .leave request
      · next request hphase =>
          refine phase_update rfl ?_ (by simp [settledBy, setPhase])
          rw [BankAct.client, hphase]
          exact .again request

end Clients

/-! ## Along one call -/

section call

variable {S : Type} [DecidableEq Client] {c : Client} {request : DepositRequest B}

lemma payments_snoc (tr : List (BankAct Client B)) (a : BankAct Client B) :
    payments c (tr ++ [a]) = payments c tr + (a.settles c).toNat := by
  cases h : a.settles c <;> simp [payments, h]

/-- What is known while client `c` is in a call of `depositOpt`, and after it. -/
structure InCall [Add B] (srv : Server S Client B) (c : Client) (request : DepositRequest B)
    (s₁ : Clients S Client B) (tr : List (BankAct Client B)) (s : Clients S Client B) : Prop where
  phase : (s.phase c = .idle ∧ 1 ≤ payments c tr ∧ (.commitInDoubt c ∈ tr ↔ 1 < payments c tr)) ∨
    ((s.phase c).inCall = some (.depositOpt, request) ∧
      (.commitInDoubt c ∈ tr ↔ 0 < payments c tr))
  own : (Clients.settled srv s₁ tr).filter (·.1 = c) = List.replicate (payments c tr) (c, request)
  committed : s.committed = s₁.committed ++ (Clients.settled srv s₁ tr).map Prod.snd

namespace InCall

variable [Add B] {srv : Server S Client B} {s₁ s s' : Clients S Client B}
  {tr : List (BankAct Client B)} {a : BankAct Client B}

/-- An action that applies no transaction of client `c`. -/
lemma keep (h : InCall srv c request s₁ tr s) (htr : run (Clients.step srv) s₁ tr = some s)
    (hcommitted : s'.committed = s.committed ++ ((s.settledBy a).map Prod.snd).toList)
    (hsettles : a.settles c = false) (hown : (s.settledBy a).toList.filter (·.1 = c) = [])
    (hidle : s.phase c = .idle → s'.phase c = .idle)
    (hinCall : (s.phase c).inCall = some (.depositOpt, request) →
      (s'.phase c).inCall = some (.depositOpt, request)) :
    InCall srv c request s₁ (tr ++ [a]) s' := by
  have hpayments : payments c (tr ++ [a]) = payments c tr := by simp [payments_snoc, hsettles]
  have hdoubt : (.commitInDoubt c ∈ tr ++ [a]) ↔ .commitInDoubt c ∈ tr := by
    have hne : .commitInDoubt c ≠ a := by
      rintro rfl
      simp [BankAct.settles] at hsettles
    simp [hne]
  exact {
    phase := by
      rw [hpayments, hdoubt]
      exact h.phase.imp (And.imp_left hidle) (And.imp_left hinCall)
    own := by
      rw [Clients.settled_snoc a htr, List.filter_append, hown, List.append_nil, hpayments, h.own]
    committed := by
      rw [hcommitted, h.committed, Clients.settled_snoc a htr, List.map_append, List.append_assoc]
      cases s.settledBy a <;> rfl }

/-- A commit of client `c` that the server applies. -/
lemma settle (h : InCall srv c request s₁ tr s) (htr : run (Clients.step srv) s₁ tr = some s)
    (hcommitted : s'.committed = s.committed ++ ((s.settledBy a).map Prod.snd).toList)
    (hsettles : a.settles c = true) (hown : s.settledBy a = some (c, request))
    (hinCall : (s.phase c).inCall = some (.depositOpt, request))
    (hphase : (s'.phase c = .idle ∧ a ≠ .commitInDoubt c) ∨
      ((s'.phase c).inCall = some (.depositOpt, request) ∧ a = .commitInDoubt c)) :
    InCall srv c request s₁ (tr ++ [a]) s' := by
  have hpayments : payments c (tr ++ [a]) = payments c tr + 1 := by simp [payments_snoc, hsettles]
  have hdoubt : .commitInDoubt c ∈ tr ↔ 0 < payments c tr := by
    rcases h.phase with ⟨hidle, -⟩ | ⟨-, hdoubt⟩
    · rw [hidle] at hinCall
      cases hinCall
    · exact hdoubt
  exact {
    phase := by
      rcases hphase with ⟨hidle, hne⟩ | ⟨hin, rfl⟩
      · refine .inl ⟨hidle, by omega, ?_⟩
        simp [Ne.symm hne, hdoubt, hpayments]
      · exact .inr ⟨hin, by simp [hpayments]⟩
    own := by
      rw [Clients.settled_snoc a htr, List.filter_append, h.own, hown, hpayments,
        List.replicate_succ']
      simp
    committed := by
      rw [hcommitted, h.committed, Clients.settled_snoc a htr, List.map_append, List.append_assoc]
      cases s.settledBy a <;> rfl }

/-- **The step lemma.** -/
theorem step (h : InCall srv c request s₁ tr s) (htr : run (Clients.step srv) s₁ tr = some s)
    (hstep : Clients.step srv s a = some s')
    (hcall : ∀ method request', a ≠ .call c method request') :
    InCall srv c request s₁ (tr ++ [a]) s' := by
  obtain ⟨hothers, hphase, hcommitted⟩ := Clients.step_phase hstep
  by_cases ha : a.client = c
  · rw [ha] at hphase
    generalize hnow : s.phase c = now at hphase
    generalize hnext : s'.phase c = next at hphase
    have hin : ∀ method request', now.inCall = some (method, request') →
        method = .depositOpt ∧ request' = request := by
      intro method request' hnow'
      rcases h.phase with ⟨hidle, -⟩ | ⟨hin, -⟩
      · rw [← hnow, hidle] at hnow'
        cases hnow'
      · rw [← hnow, hin] at hnow'
        cases hnow'
        exact ⟨rfl, rfl⟩
    cases hphase with
    | call method request' => exact absurd rfl (hcall method request')
    | select method request' phase hphase =>
        obtain ⟨rfl, rfl⟩ := hin _ _ rfl
        exact h.keep htr hcommitted rfl rfl (fun hidle => by rw [hnow] at hidle; cases hidle)
          fun _ => by rw [hnext, hphase]
    | update method request' account phase hphase =>
        obtain ⟨rfl, rfl⟩ := hin _ _ rfl
        exact h.keep htr hcommitted rfl rfl (fun hidle => by rw [hnow] at hidle; cases hidle)
          fun _ => by rw [hnext, hphase]
    | commit method request' =>
        obtain ⟨rfl, rfl⟩ := hin _ _ rfl
        exact h.settle htr hcommitted (by simp [BankAct.settles])
          (by simp [Clients.settledBy, hnow]) (by rw [hnow]; rfl) (.inl ⟨hnext, nofun⟩)
    | commitInDoubt method request' =>
        obtain ⟨rfl, rfl⟩ := hin _ _ rfl
        exact h.settle htr hcommitted (by simp [BankAct.settles])
          (by simp [Clients.settledBy, hnow]) (by rw [hnow]; rfl)
          (.inr ⟨by rw [hnext]; rfl, rfl⟩)
    | fail method request' phase hphase =>
        obtain ⟨rfl, rfl⟩ := hin _ _ hphase
        exact h.keep htr hcommitted rfl rfl
          (fun hidle => by rw [← hnow, hidle] at hphase; cases hphase) fun _ => by rw [hnext]; rfl
    | leave request' =>
        obtain ⟨hmethod, -⟩ := hin _ _ rfl
        cases hmethod
    | again request' =>
        obtain ⟨-, rfl⟩ := hin _ _ rfl
        exact h.keep htr hcommitted rfl rfl (fun hidle => by rw [hnow] at hidle; cases hidle)
          fun _ => by rw [hnext]; rfl
  · have hsame : s'.phase c = s.phase c := hothers c (Ne.symm ha)
    have hsettles : a.settles c = false := by
      cases a <;> first | rfl | simpa [BankAct.settles, BankAct.client] using ha
    refine h.keep htr hcommitted hsettles ?_ (fun hidle => hsame.trans hidle)
      fun hin => by rw [hsame, hin]
    rw [List.filter_eq_nil_iff]
    intro x hx
    have hclient := Clients.client_of_settledBy (Option.mem_toList.mp hx)
    simpa [hclient] using ha

/-- The call has just begun. -/
lemma start {s₀ : Clients S Client B}
    (hcall : Clients.step srv s₀ (.call c .depositOpt request) = some s₁) :
    InCall srv c request s₁ [] s₁ := by
  obtain ⟨-, hphase, -⟩ := Clients.step_phase hcall
  have hin : (s₁.phase c).inCall = some (.depositOpt, request) := by
    change PhaseStep c (s₀.phase c) _ (s₁.phase c) at hphase
    generalize s₀.phase c = now at hphase
    generalize s₁.phase c = next at hphase ⊢
    cases hphase with
    | call _ _ => rfl
  exact {
    phase := .inr ⟨hin, by simp [payments]⟩
    own := rfl
    committed := (List.append_nil _).symm }

/-- **The run lemma.** -/
lemma run (h : InCall srv c request s₁ [] s₁)
    (hrun : Transition.run (Clients.step srv) s₁ tr = some s)
    (hcall : ∀ method request', .call c method request' ∉ tr) : InCall srv c request s₁ tr s := by
  have hinv : (∀ method request', .call c method request' ∉ tr) → InCall srv c request s₁ tr s := by
    refine run_invariant_of_trace (I := fun tr s =>
      (∀ method request', .call c method request' ∉ tr) → InCall srv c request s₁ tr s)
      ?_ (fun _ => h) hrun
    intro tr s a s' hpre ih hstep hno
    refine (ih fun method request' hmem => hno method request' (by simp [hmem])).step hpre hstep ?_
    rintro method request' rfl
    exact hno method request' (by simp)
  exact hinv hcall

end InCall

end call

/-! ## The table -/

section table

variable [DecidableEq Client] [AddCommMonoid B]

/-- The deposits on an account are those of client `c` and those of the others. -/
lemma sum_depositsOn_split (c : Client) (l : List (Client × DepositRequest B)) (username : String) :
    (depositsOn (l.map Prod.snd) username).sum =
      (depositsOn ((l.filter (·.1 ≠ c)).map Prod.snd) username).sum +
        (depositsOn ((l.filter (·.1 = c)).map Prod.snd) username).sum := by
  induction l with
  | nil => simp [depositsOn]
  | cons x l ih =>
      simp only [depositsOn] at ih
      by_cases hc : x.1 = c <;> by_cases huser : x.2.username = username <;>
        simp [depositsOn, hc, huser, ih, add_left_comm, add_assoc]

omit [DecidableEq Client] in
lemma sum_depositsOn_replicate (k : ℕ) (request : DepositRequest B) (username : String) :
    (depositsOn (List.replicate k request) username).sum =
      k • if request.username = username then request.amount else 0 := by
  by_cases huser : request.username = username <;> simp [depositsOn, huser]

end table

/-- **How often a call of `depositOpt` pays.**  From the call on, in every interleaving with other
clients, on a server of the documented behaviour: the balances are those at the call, the deposits
of the others and the payments of the call.  While no commit of the call is in doubt these are at
most one, and one once it has returned; and a call that has returned has paid once exactly when none
was in doubt. -/
theorem paid_once_iff {S : Type} [DecidableEq Client] [AddCommMonoid B] {srv : Server S Client B}
    {view : S → Database Client B} (hsrv : srv.ReadCommitted view) {db₀ : S}
    {rows₀ : List (Account B)} (hidle : view db₀ = .idle rows₀) (hkeys : Database.UniqueKeys rows₀)
    {pre tr : List (BankAct Client B)} {s₀ s₁ s : Clients S Client B} {c : Client}
    {request : DepositRequest B} (hpre : run (Clients.step srv) (Clients.init db₀) pre = some s₀)
    (hcall : Clients.step srv s₀ (.call c .depositOpt request) = some s₁)
    (hrun : run (Clients.step srv) s₁ tr = some s)
    (hone : ∀ method request', .call c method request' ∉ tr) :
    (∀ r ∈ (view s.db).rows, ∀ r₁ ∈ (view s₁.db).rows, r₁.id = r.id →
      r.balance = r₁.balance +
        (depositsOn (((Clients.settled srv s₁ tr).filter (·.1 ≠ c)).map Prod.snd) r.username).sum +
        payments c tr • (if request.username = r.username then request.amount else 0)) ∧
    (.commitInDoubt c ∉ tr → payments c tr ≤ 1 ∧ (s.phase c = .idle → payments c tr = 1)) ∧
    (s.phase c = .idle → (payments c tr = 1 ↔ .commitInDoubt c ∉ tr)) := by
  have hcalled := (InCall.start hcall).run hrun hone
  have hrun₁ := run_snoc_eq_some.mpr ⟨s₀, hpre, hcall⟩
  have hinv₁ := hsrv.bankInv hidle hkeys hrun₁
  have hinv := hsrv.bankInv hidle hkeys (run_append_eq_some.mpr ⟨s₁, hrun₁, hrun⟩)
  refine ⟨?_, ?_, ?_⟩
  · intro r hr r₁ hr₁ hid
    have hbalance := (hinv₁.row_eq hkeys hinv hcalled.committed hr hr₁ hid).2.1
    rw [hbalance, sum_depositsOn_split c, hcalled.own, List.map_replicate,
      sum_depositsOn_replicate, add_assoc]
  · intro hdoubt
    rcases hcalled.phase with ⟨-, hge, hiff⟩ | ⟨hin, hiff⟩
    · rw [iff_false_left hdoubt] at hiff
      exact ⟨by omega, fun _ => by omega⟩
    · rw [iff_false_left hdoubt] at hiff
      refine ⟨by omega, fun hidle => ?_⟩
      rw [hidle] at hin
      cases hin
  · intro hidle
    rcases hcalled.phase with ⟨-, hge, hiff⟩ | ⟨hin, -⟩
    · rw [hiff]
      omega
    · rw [hidle] at hin
      cases hin

/-- What client `true` goes through: a version conflict with a pessimistic deposit, then a commit
that the server rolls back. -/
def conflictThenRollback : List (BankAct Bool ℕ) :=
  [.select true, .call false .deposit ⟨"ann", 5⟩, .select false, .update false, .commit false,
    .update true, .abort true, .select true, .update true, .fail true, .abort true,
    .select true, .update true, .commit true]

theorem paid_once_after_conflict :
    ∃ s : Bank Bool ℕ,
      run Bank.step ((Bank.init [⟨7, "ann", 100, 0⟩]).setPhase true
        (.select .depositOpt ⟨"ann", 10⟩)) conflictThenRollback = some s ∧
      s.db.rows = [⟨7, "ann", 115, 2⟩] ∧ payments true conflictThenRollback = 1 := by
  have hpre : run Bank.step (Bank.init [⟨7, "ann", 100, 0⟩] : Bank Bool ℕ) [] = some _ := rfl
  have hcall : (Bank.init [⟨7, "ann", 100, 0⟩] : Bank Bool ℕ).step
      (.call true .depositOpt ⟨"ann", 10⟩) = some _ := rfl
  have hrun : run Bank.step ((Bank.init [⟨7, "ann", 100, 0⟩]).setPhase true
      (.select .depositOpt ⟨"ann", 10⟩)) conflictThenRollback = some _ := rfl
  have hpaid := (paid_once_iff Database.readCommitted rfl ⟨by decide, by decide⟩ hpre hcall hrun
    (by simp [conflictThenRollback])).2.2 rfl
  exact ⟨_, hrun, rfl, hpaid.mpr (by simp [conflictThenRollback])⟩

/-- A commit in doubt is paid again. -/
theorem doubt_pays_twice :
    ∃ s₁ s : Bank Bool ℕ, (Bank.init [⟨7, "ann", 100, 0⟩] : Bank Bool ℕ).step
        (.call true .depositOpt ⟨"ann", 10⟩) = some s₁ ∧
      run Bank.step s₁ [.select true, .update true, .commitInDoubt true, .abort true,
        .select true, .update true, .commit true] = some s ∧
      s.phase true = .idle ∧ s.db.rows = [⟨7, "ann", 120, 2⟩] := by
  have hcall : (Bank.init [⟨7, "ann", 100, 0⟩] : Bank Bool ℕ).step
      (.call true .depositOpt ⟨"ann", 10⟩) = some _ := rfl
  exact ⟨_, _, hcall, rfl, rfl, rfl⟩

end OptLock
