import EsLite.Delivery.Relay
import EsLite.Foundation.Wakeup

/-!
# Running a relay

`Relay.Run` is a loop: a pass to catch up, and then a pass on each wake and each tick. A pass calls `Drain`
until it publishes less than a full batch. Producers append first and call `Signal.Notify` after it;
`Notify` does not block, and drops a wake when one is pending.

`relay_no_lost_wakeup`: when the loop waits and no wake is pending, everything was published that was
committed at any call of `Notify`. Ticks are not needed for it.
-/

namespace EsLite.Delivery

open Logic

/-- What a relay is configured with. -/
structure RelayConfig where
  batchSize : Int

/-- A relay drains the backlog in batches. -/
structure Relay where
  batchSize : Int
  batchSize_pos : 0 < batchSize

/-- `NewRelay` -/
def newRelay (cfg : RelayConfig) : Relay where
  batchSize := if cfg.batchSize ≤ 0 then 100 else cfg.batchSize
  batchSize_pos := by split <;> omega

/-- How `Relay.drain` fails. -/
inductive PassError : Type where
  /-- `relay drain: %w` -/
  | drain (err : RelayError)
  /-- The pass has used up its rounds, and has not returned yet. -/
  | unfinished

/-- `Relay.drain`, for a number of rounds: it stops at a `Drain` that was not full. -/
def Relay.drain (r : Relay) : (rounds : Nat) → ExceptT PassError (Prog RelayOp RelayRes) Unit
  | 0 => throw .unfinished
  | rounds + 1 => do
    let n ← ExceptT.adapt .drain (Delivery.drain r.batchSize)
    if (n : Int) < r.batchSize then pure () else r.drain rounds

/-- A pass of a relay. -/
inductive PassCall : Type where
  | drain (r : Relay) (rounds : Nat)

/-- The passes of a relay, and appends around it. -/
def relayPasses : System RelayState PassCall RelayOp RelayRes (Except PassError Unit) RelayAnswer
    RelayEnv where
  prog
    | .drain r rounds => (r.drain rounds).run
  exec := execRelay
  env := relaying.env

/-- `Relay.Run`: it is woken for events. -/
def relayWorker (r : Relay) : Worker RelayState PassCall (Except PassError Unit) Envelope where
  pass rounds := .drain r rounds
  ended
    | .ok () => some true
    | .error .unfinished => none
    | .error (.drain _) => some false
  there e s := e ∈ s.rows.map (·.env)

section Relay

variable {s : RelayState}

theorem wp_relayDrain_exhausts {limit : Int} (hlimit : 0 < limit) :
    relayLogic.WP relaying (OnOk fun (n : Nat) t => (n : Int) < limit →
      ∀ e ∈ s.rows.map (·.env), Accepted t e) (drain limit).run s := by
  unfold drain
  refine WP.andThen (wp_ask_quiet fun _ _ _ => trivial) fun _ t ht _ _ => ?_
  refine WP.andThen (wp_ask_quiet fun _ _ _ => trivial) fun tx u hu _ _ => ?_
  rw [if_neg (not_le.mpr hlimit)]
  refine wp_deferRollback ((wp_drainTx tx _).weaken fun r v _ _ hr => ?_)
  cases r with
  | ok n => exact fun hshort e he => hr (by omega) e (hu.rows (ht.rows he))
  | error err => exact trivial

/-- **A pass that returns without an error** has published everything that was there when it began. -/
theorem wp_pass_exhausts (r : Relay) (rounds : Nat) (s : RelayState) :
    relayLogic.WP relayPasses (OnOk fun _ t => ∀ e ∈ s.rows.map (·.env), Accepted t e)
      (r.drain rounds).run s := by
  induction rounds generalizing s with
  | zero => exact WP.ret fun _ _ _ => trivial
  | succ rounds ih =>
    have hdrain : relayLogic.WP relayPasses (OnOk fun (n : Nat) t => (n : Int) < r.batchSize →
        ∀ e ∈ s.rows.map (·.env), Accepted t e) (Delivery.drain r.batchSize).run s :=
      (wp_relayDrain_exhausts r.batchSize_pos).of_exec relayPasses fun _ x _ _ h => ⟨x, h⟩
    unfold Relay.drain
    refine WP.andThen (WP.adapt hdrain) fun n t ht _ hn => ?_
    split
    · rename_i hshort
      exact WP.ret fun u hu hi => hn u hu hi hshort
    · -- a full batch: another Drain follows, and what was there before is there now
      refine (ih t).weaken fun res u _ _ hres => ?_
      cases res with
      | ok _ => exact fun e he => hres e (ht.rows he)
      | error err => exact trivial

/-- A pass publishes what was there when it began. -/
theorem relayWorker_works (r : Relay) :
    Waking.Works relayLogic relayPasses (relayWorker r) (fun e s => Accepted s e) where
  allowed _ _ := trivial
  env _ _ _ hi h := env_keeps hi h
  prog
    | .drain r rounds, s, _ => (wp_pass_exhausts r rounds s).weaken fun _ _ _ _ _ => trivial
  pass rounds s _ := by
    refine (wp_pass_exhausts r rounds s).weaken fun res t _ _ hres hok e he => ?_
    cases res with
    | ok _ => exact hres e (of_decide_eq_true he)
    | error err => cases err <;> cases hok
  there_mono e s t hle h := decide_eq_true (hle.rows (of_decide_eq_true h))
  done_mono e s t hle h := h.mono hle.accepted

/-- **The relay misses no wake-up.** Let `Relay.Run` be the one relay of a database in which append
transactions commit at any time, in any order of their positions, with steps that fail in any way and
calls of `Notify` at any time. Whenever it waits, its context is live and no wake is pending, then every
event for which `Notify` was called after its commit was in a batch for which `publish` returned without
an error. -/
theorem relay_no_lost_wakeup {r : Relay}
    {acts : List (WakeAction PassCall Envelope RelayAnswer RelayEnv)}
    {W : Waking RelayState PassCall RelayOp RelayRes (Except PassError Unit) Envelope}
    (hrun : runActions (Waking.step relayPasses (relayWorker r)) (Waking.start .fresh) acts = some W)
    (hphase : W.phase = .selecting) (hpending : W.pending = false) (hlive : W.cancelled = false) :
    ∀ e ∈ W.noted, Accepted W.pool.shared e := by
  have hfresh : RelayInv .fresh := ⟨List.nodup_nil, nofun, nofun, nofun, nofun, causal_nil⟩
  exact Waking.caught_up (relayWorker_works r) hfresh hrun hphase hpending hlive

end Relay

/-- The second event is committed at a lower position than the first one that was seen, after the claim of
the Drain that the first wakes. -/
def wakeDuringPass : List (WakeAction PassCall Envelope RelayAnswer RelayEnv) :=
  let first : Envelope := { unhashedRow counterMain 1 with globalPosition := 2 }
  let second : Envelope := { unhashedRow ⟨str "counter", str "other"⟩ 1 with globalPosition := 1 }
  List.flatten [
    .begin .first 0 1 :: List.replicate 5 (.pool (.step 0 plainly)),
    [.passed, .pool (.env (.append [first])), .notify first],
    .begin .wake 1 1 :: List.replicate 4 (.pool (.step 1 plainly)),
    [.pool (.env (.append [second])), .notify second],
    List.replicate 3 (.pool (.step 1 plainly)),
    [.passed],
    .begin .wake 2 1 :: List.replicate 7 (.pool (.step 2 plainly)),
    [.passed]]

/-- The second wake is kept, and both events are published. -/
theorem relay_no_lost_wakeup_during_pass :
    ∃ W, runActions (Waking.step relayPasses (relayWorker (newRelay ⟨0⟩))) (Waking.start .fresh)
        wakeDuringPass = some W ∧
      W.phase = .selecting ∧ W.noted.map (·.globalPosition) = [1, 2] ∧
      ∀ e ∈ W.noted, Accepted W.pool.shared e := by
  refine exists_run_of (fun W => W.phase = .selecting ∧ W.pending = false ∧ W.cancelled = false ∧
    W.noted.map (·.globalPosition) = [1, 2]) (by decide +kernel) ?_
  rintro W hrun ⟨hphase, hpending, hlive, hnoted⟩
  exact ⟨hphase, hnoted, relay_no_lost_wakeup hrun hphase hpending hlive⟩

end EsLite.Delivery
