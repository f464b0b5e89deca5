import EsLite.Feed.Knowledge

/-!
# Eventfeed: subscription attempts

An attempt of an eventfeed consumer runs three programs: the stream, whose sink handles each event
and accounts it in the ack window; the ack clock, which flushes the window on every tick and once at
the end; and the renewer of the lease. Windows are claimed under a mutex, and every acknowledgement
goes through the server's holder check and save.

`handled_up_to_checkpoint`: in every interleaving of any number of attempts, whatever fails and
whoever holds the lease, every matching event up to the stored checkpoint has been handled, and every
stream starts at or below the checkpoint it loaded.
-/

namespace EsLite.Eventfeed

open Feed

/-! ## The programs -/

/-- A consumer of the subscription: its lease token, its name and its ack window. -/
structure Consumer where
  token : Bytes
  name : Bytes
  batch : Nat

/-- The subscription an attempt presents to the server. -/
def request (k : Key) (d : Definition) (c : Consumer) : Request :=
  ⟨k, c.name, c.token, d, c.batch⟩

/-- Flush the ack window: claim it, then send one fenced acknowledgement. -/
def ack (k : Key) (d : Definition) (c : Consumer) (i : Nat) : Server Unit := do
  match ← perform (.claim i) with
  | none => pure ()
  | some pos => checkpoint ⟨k, c.token, pos, d.hash⟩

/-- Call the handler until it returns without an error. -/
def handleRetrying (k : Key) (d : Definition) (i : Nat) (e : Event) : (fuel : Nat) → Server Unit
  | 0 => throw .outOfFuel
  | n + 1 => do
    match ← perform (.handle i k d.hash e) with
    | .ok _ => pure ()
    | .error _ =>
      port .context (Prog.op Op.pause)
      handleRetrying k d i e n

/-- Deliver one event, account it, and acknowledge a full window. -/
def send (k : Key) (d : Definition) (c : Consumer) (i fuel : Nat) : Sink := fun e => do
  handleRetrying k d i e fuel
  let full ← perform (.account i e.globalPosition c.batch)
  match (full : Bool) with
  | true => ack k d c i
  | false => pure ()

/-- The ack clock of an attempt. -/
def loop (k : Key) (d : Definition) (c : Consumer) (i : Nat) : (fuel : Nat) → Server Unit
  | 0 => throw .outOfFuel
  | n + 1 => do
    match (← perform .select : Wake) with
    | .ctxDone =>
      -- the stream-end ack; a rejection is dropped
      tryCatch (ack k d c i) (fun _ => pure ())
    | .tick =>
      ack k d c i
      loop k d c i n
    | .runCtxDone => pure ()

/-- The programs of an attempt with the window `i`. -/
inductive AttemptCall where
  | subscribe (i : Nat) (c : Consumer) (fuel : Nat)
  | loop (i : Nat) (c : Consumer) (fuel : Nat)
  | renew (c : Consumer) (fuel : Nat)

/-- What each of them runs. -/
def AttemptCall.method (cfg : Config) (k : Key) (d : Definition) : AttemptCall → Server Unit
  | .subscribe i c fuel => Feed.subscribe cfg (request k d c) (send k d c i fuel) i fuel
  | .loop i c fuel => Eventfeed.loop k d c i fuel
  | .renew c fuel => renewLoop cfg k c.token fuel

/-- Any number of attempts on one key under one definition. -/
def attemptSystem (A : Adapter) (ever : Log) (cfg : Config) (k : Key) (d : Definition) :
    System State AttemptCall Op Res (Except FeedError Unit) Choice EnvStep :=
  feedSystem A ever (AttemptCall.method cfg k d)

/-! ## What is kept -/

/-- Every matching event up to a position has been handled by some attempt. -/
def HandledUpTo (ever : Log) (k : Key) (d : Definition) (l : Ledger) (position : Nat) : Prop :=
  ∀ e ∈ ever.matching k.scope d.consumes position,
    ∃ h ∈ l.handled, h.key = k ∧ h.position = e.globalPosition

/-- The invariant: what is stored and what is pending in any window is handled, and no stream starts
above the checkpoint it loaded. -/
structure AttemptInv (ever : Log) (k : Key) (d : Definition) (l : Ledger) : Prop where
  row : ∀ cp, l.checkpoints k = some cp → HandledUpTo ever k d l cp.position
  window : ∀ i, HandledUpTo ever k d l (l.window i).pending
  starts : ∀ st ∈ l.starts, st.position ≤ st.stored

/-- What attempts rely on. -/
def attemptLogic (ever : Log) (k : Key) (d : Definition) : Logic Ledger Op where
  inv := AttemptInv ever k d
  le l l' := l.handled ⊆ l'.handled
  allowed _ _ := True
  refl _ := List.Subset.refl _
  trans _ _ _ h h' := List.Subset.trans h h'

section Knowledge

variable {ever : Log} {k : Key} {d : Definition} {l l' : Ledger} {p q : Nat}

/-- What has been handled stays handled. -/
theorem HandledUpTo.mono (h : HandledUpTo ever k d l p) (hle : l.handled ⊆ l'.handled) :
    HandledUpTo ever k d l' p := by
  intro e he
  obtain ⟨x, hx, hxe⟩ := h e he
  exact ⟨x, hle hx, hxe⟩

theorem HandledUpTo.of_le (h : HandledUpTo ever k d l p) (hqp : q ≤ p) : HandledUpTo ever k d l q := by
  intro e he
  apply h e
  rw [Log.mem_matching] at he ⊢
  exact ⟨he.1, he.2.1, he.2.2.1, le_trans he.2.2.2 hqp⟩

theorem handledUpTo_zero : HandledUpTo ever k d l 0 := by
  intro e he
  have := (Log.mem_matching.mp he).2.2
  omega

/-- Only the history, the windows and the row have to be looked at again after a change. -/
theorem AttemptInv.update (hi : AttemptInv ever k d l) (hle : l.handled ⊆ l'.handled)
    (hrow : ∀ cp, l'.checkpoints k = some cp → l.checkpoints k = some cp ∨
      HandledUpTo ever k d l cp.position) (hwindow : ∀ i, (l'.window i).pending = (l.window i).pending ∨
      HandledUpTo ever k d l' (l'.window i).pending)
    (hstarts : ∀ st ∈ l'.starts, st ∈ l.starts ∨ st.position ≤ st.stored) : AttemptInv ever k d l' := by
  refine ⟨fun cp hcp => ?_, fun i => ?_, fun st hst => ?_⟩
  · rcases hrow cp hcp with h | h
    · exact (hi.row cp h).mono hle
    · exact h.mono hle
  · rcases hwindow i with h | h
    · rw [h]
      exact (hi.window i).mono hle
    · exact h
  · exact (hstarts st hst).elim (hi.starts st) id

end Knowledge

/-! ## The programs keep it -/

section Programs

variable {κ : Type} {A : Adapter} {ever : Log} {method : κ → Server Unit} {cfg : Config} {k : Key}
variable {d : Definition} {c : Consumer}

/-- A save of a handled position keeps the invariant: the row holds the higher of two handled
positions. -/
theorem save_keeps {t : State} {pos : Nat} {hash : Bytes} (hi : AttemptInv ever k d t.ledger)
    (hpos : HandledUpTo ever k d t.ledger pos) :
    AttemptInv ever k d (t.withTables (t.tables.save t.now k hash pos)).ledger := by
  refine hi.update (List.Subset.refl _) (fun cp hcp => .inr ?_) (fun _ => .inl rfl)
    (fun _ hst => .inl hst)
  have hrow := Tables.save_checkpoints_self t.tables t.now k hash pos
  cases hcp.symm.trans hrow
  cases hold : t.tables.checkpoints k with
  | none => exact hpos
  | some cp =>
    rcases le_total cp.position pos with h | h
    · simpa only [max_eq_right h] using hpos
    · simpa only [max_eq_left h] using hi.row cp hold

/-- Whatever window is flushed, its position has been handled. -/
theorem wp_ack {i : Nat} (s : State) :
    (onLedger (attemptLogic ever k d)).WP (feedSystem A ever method) (fun _ _ => True)
      (ack k d c i).run s := by
  refine Logic.WP.bindExcept
    (R := fun r t => ∀ pos, r = .ok (some pos) → HandledUpTo ever k d t.ledger pos) ?_ ?_
    (fun _ _ _ _ _ _ _ _ => trivial)
  · -- the claim keeps the pending position of the window
    refine .call (fun t _ hi _ ch t' r hex => ?_)
    have hi : AttemptInv ever k d t.ledger := hi
    have hclaim : t.claim i = (t', r) := Option.some.inj hex
    rcases t.claim_cases i with h | h <;> rw [h] at hclaim <;> cases hclaim
    · exact ⟨hi, List.Subset.refl _, fun u hu _ pos hpos => by cases hpos⟩
    · refine ⟨hi.update (List.Subset.refl _) (fun _ h => .inl h) (fun j => .inl ?_)
        (fun _ h => .inl h), List.Subset.refl _, ?_⟩
      · by_cases hj : j = i
        · subst hj
          simp only [State.ledger, Function.update_self]
        · simp only [State.ledger, Function.update_of_ne hj]
      · rintro u hu - pos ⟨⟩
        exact (hi.window i).mono hu
  · intro reply t _ _ hknow
    cases reply with
    | none => exact fun _ _ _ => trivial
    | some pos =>
      apply wp_checkpoint (fun l => HandledUpTo ever k d l pos) (fun l l' hle h => h.mono hle) _ t
        (hknow pos rfl)
      rintro u u' hi hpos - rfl
      exact ⟨save_keeps hi hpos, List.Subset.refl _⟩

/-- When the handler has returned without an error, the event is handled. -/
theorem wp_handleRetrying {i : Nat} {e : Event} (fuel : Nat) (s : State) :
    (onLedger (attemptLogic ever k d)).WP (feedSystem A ever method)
      (fun r t => r = .ok () → ∃ h ∈ t.handled, h.key = k ∧ h.position = e.globalPosition)
      (handleRetrying k d i e fuel).run s := by
  induction fuel generalizing s with
  | zero => exact fun _ _ _ h => by cases h
  | succ n ih =>
    refine .bindExcept (R := fun r t => r = .ok (.ok ()) →
      ∃ h ∈ t.handled, h.key = k ∧ h.position = e.globalPosition) ?_ ?_
      (fun _ _ _ _ _ _ _ _ h => by cases h)
    · refine .call (fun t _ hi _ ch t' r hex => ?_)
      have hi : AttemptInv ever k d t.ledger := hi
      have hex : exec A ever (.handle i k d.hash e) ch t = some (t', r) := hex
      simp only [exec] at hex
      cases hf : ch.fault <;> rw [hf] at hex <;> cases hex
      · have hsub : t.handled ⊆ ⟨i, k, d.hash, e.globalPosition⟩ :: t.handled :=
          List.subset_cons_self _ _
        refine ⟨hi.update hsub (fun _ h => .inl h) (fun _ => .inl rfl) (fun _ h => .inl h), hsub, ?_⟩
        exact fun u hu _ _ => ⟨_, hu List.mem_cons_self, rfl, rfl⟩
      · exact ⟨hi, List.Subset.refl _, fun _ _ _ h => by cases h⟩
      · exact ⟨hi, List.Subset.refl _, fun _ _ _ h => by cases h⟩
    · intro reply t _ _ hknow
      cases reply with
      | ok _ =>
        intro u hu _ _
        obtain ⟨h, hh, hke⟩ := hknow rfl
        exact ⟨h, hu hh, hke⟩
      | error _ =>
        exact .bindExcept (wp_quiet (port_issues (.op (by rfl))) t)
          (fun _ u _ _ _ => ih u) (fun _ _ _ _ _ _ _ _ h => by cases h)

/-- Sending the next event of a complete page extends what has been handled to its position. -/
theorem wp_send {i fuel pos : Nat} {e : Event}
    (hnext : ∀ e' ∈ ever.matching k.scope d.consumes e.globalPosition,
      pos < e'.globalPosition → e' = e) {s : State} (hs : HandledUpTo ever k d s.ledger pos) :
    (onLedger (attemptLogic ever k d)).WP (feedSystem A ever method)
      (fun r t => r = .ok () → HandledUpTo ever k d t.ledger e.globalPosition)
      (send k d c i fuel e).run s := by
  refine .bindExcept (wp_handleRetrying fuel s) ?_ (fun _ _ _ _ _ _ _ _ h => by cases h)
  intro _ s₁ h₁ _ hhandled
  have hcov : HandledUpTo ever k d s₁.ledger e.globalPosition := by
    intro e' he'
    by_cases hlt : pos < e'.globalPosition
    · rw [hnext e' he' hlt]
      exact hhandled rfl
    · apply hs.mono h₁ e'
      rw [Log.mem_matching] at he' ⊢
      exact ⟨he'.1, he'.2.1, he'.2.2.1, by omega⟩
  -- the window may be flushed by anyone from here on
  refine .bindExcept (R := fun _ _ => True) ?_ ?_ (fun _ _ _ _ _ _ _ _ h => by cases h)
  · refine .call (fun t ht hi _ ch t' r hex => ?_)
    have hi : AttemptInv ever k d t.ledger := hi
    have hacc : t.account i e.globalPosition c.batch = (t', r) := Option.some.inj hex
    cases hacc
    refine ⟨hi.update (List.Subset.refl _) (fun _ h => .inl h) (fun j => ?_)
      (fun _ h => .inl h), List.Subset.refl _, fun _ _ _ => trivial⟩
    by_cases hj : j = i
    · subst hj
      refine .inr ?_
      simp only [State.ledger, Function.update_self]
      exact hcov.mono ht
    · refine .inl ?_
      simp only [State.ledger, Function.update_of_ne hj]
  · intro full s₂ h₂ _ _
    have hcov₂ := hcov.mono h₂
    cases full with
    | false => exact fun u hu _ _ => hcov₂.mono hu
    | true => exact (wp_ack s₂).weaken (fun _ u hu _ _ _ => hcov₂.mono hu)

/-- The stream of an attempt. -/
theorem wp_subscribe_attempt {i fuel : Nat} (s : State) :
    (onLedger (attemptLogic ever k d)).WP (feedSystem A ever method) (fun _ _ => True)
      (Feed.subscribe cfg (request k d c) (send k d c i fuel) i fuel).run s := by
  apply wp_subscribe
  apply wp_stream (fun p l => HandledUpTo ever k d l p) (fun p l l' hle h => h.mono hle)
  · intro l hi _
    have hi : AttemptInv ever k d l := hi
    cases hrow : l.checkpoints k with
    | none =>
      simp only [request, hrow]
      exact handledUpTo_zero
    | some cp =>
      simp only [request, hrow]
      exact hi.row cp hrow
  · rintro stored pos t t' hi hcov hle rfl
    have hi : AttemptInv ever k d t.ledger := hi
    refine ⟨hi.update (List.Subset.refl _) (fun _ h => .inl h) (fun _ => .inl rfl) ?_,
      List.Subset.refl _, wp_readLoop (fun p l => HandledUpTo ever k d l p) (fun p l l' hle h => h.mono hle)
        (fun pos e s hnext hs => wp_send hnext hs) fuel pos (hcov.of_le hle)⟩
    intro st hst
    rcases List.mem_cons.mp hst with rfl | hst
    · exact .inr hle
    · exact .inl hst

/-- The ack clock of an attempt. -/
theorem wp_loop {i : Nat} (fuel : Nat) (s : State) :
    (onLedger (attemptLogic ever k d)).WP (feedSystem A ever method) (fun _ _ => True)
      (Eventfeed.loop k d c i fuel).run s := by
  induction fuel generalizing s with
  | zero => exact fun _ _ _ => trivial
  | succ n ih =>
    apply wp_quiet_bind (perform_issues (by rfl))
    intro wake t _ _
    cases wake with
    | ctxDone =>
      refine .bind (wp_ack t) (fun r u _ _ _ => ?_)
      cases r <;> exact fun _ _ _ => trivial
    | tick =>
      exact .bindExcept (wp_ack t) (fun _ u _ _ _ => ih u)
        (fun _ _ _ _ _ _ _ _ => trivial)
    | runCtxDone => exact fun _ _ _ => trivial

/-- **At-least-once delivery.** In every run of any number of attempts on one key under one definition
that starts without a checkpoint, every matching event up to the stored checkpoint has been handled by
some attempt, and every stream started at or below the checkpoint it loaded. -/
theorem handled_up_to_checkpoint (A : Adapter) (ever : Log) (cfg : Config) (k : Key)
    (d : Definition) (now : Int) (log : Log)
    (as : List (PoolAction AttemptCall Choice EnvStep))
    (P : Pool State AttemptCall Op Res (Except FeedError Unit))
    (hrun : runActions (attemptSystem A ever cfg k d).step (Pool.start (State.start now log)) as =
      some P) :
    (∀ cp, P.shared.tables.checkpoints k = some cp →
      ∀ e ∈ ever.matching k.scope d.consumes cp.position,
        ∃ h ∈ P.shared.handled, h.key = k ∧ h.position = e.globalPosition) ∧
    ∀ st ∈ P.shared.starts, st.position ≤ st.stored := by
  have hi : (onLedger (attemptLogic ever k d)).inv (State.start now log) :=
    ⟨fun cp hcp => (by cases hcp), fun _ => handledUpTo_zero,
      fun st hst => absurd hst List.not_mem_nil⟩
  have hprog : ∀ c t, (onLedger (attemptLogic ever k d)).inv t → True →
      (onLedger (attemptLogic ever k d)).WP (attemptSystem A ever cfg k d) (fun _ _ => True)
        ((attemptSystem A ever cfg k d).prog c) t := by
    intro c t _ _
    cases c with
    | subscribe i c fuel => exact wp_subscribe_attempt t
    | loop i c fuel => exact wp_loop fuel t
    | renew c fuel => exact wp_quiet (renewLoop_issues (by rfl) (by rfl) fuel) t
  have hguard : GuardedRun (attemptSystem A ever cfg k d).step
      (System.Allows (fun _ _ => True) (onLedger (attemptLogic ever k d)).allowed)
      (Pool.start (State.start now log)) as P :=
    (guardedRun_of_run hrun).mono fun Q a _ =>
      System.allows_of_forall (fun _ _ => trivial) (fun _ _ => trivial) Q a
  have hsound := (Logic.run_sound (fun e t t' ht he => env_keeps ht he) hprog hguard
    (Logic.Sound.start hi)).1
  exact ⟨hsound.inv.row, hsound.inv.starts⟩

end Programs

/-! ## A takeover -/

/-- Two consumers with the given ack windows. -/
def consumerA : Consumer := ⟨str "a", str "worker", 2⟩

@[inherit_doc consumerA] def consumerB : Consumer := ⟨str "b", str "worker", 1⟩

/-- Two events of the type `t`. -/
def twoOrders : List Event := [⟨1, str "t", []⟩, ⟨2, str "t", []⟩]

/-- A log of these events. -/
def twoOrdersLog : Log := twoOrders.foldl (Log.add · ordersKey.scope) Log.empty

/-- A projection of the type `t`. -/
def ordersOfT : Definition := ⟨str "orders", [str "t"]⟩

/-- A program takes these steps. -/
def steps (i : Nat) (chs : List Choice) : List (PoolAction AttemptCall Choice EnvStep) := chs.map (.step i)

/-- The first consumer handles event 1 at the second try, and its clock acknowledges it. It handles event 2,
but then its lease runs out and the other consumer takes over from event 1: the next acknowledgement of the
first is refused, and event 2 is handled again and acknowledged. -/
def takenOver : List (PoolAction AttemptCall Choice EnvStep) :=
  [.spawn 0 (.subscribe 0 consumerA 2), .spawn 1 (.loop 0 consumerA 3)] ++
    steps 0 [{}, {}, {}, { number := 2 }, {}, {}, { page := twoOrders }, { fault := .before }, {}, {}, {}] ++
    steps 1 (List.replicate 4 {}) ++ steps 0 [{}] ++
    [.env (.advance 30000000000), .spawn 2 (.subscribe 1 consumerB 2)] ++
    steps 2 [{}, {}, {}, { number := 2 }, {}, {}, { page := twoOrders.drop 1 }] ++
    steps 0 [{}] ++ steps 1 (List.replicate 3 {}) ++ steps 2 (List.replicate 5 {})

/-- **Both events are handled** at the checkpoint that the second consumer has stored. -/
theorem handled_up_to_checkpoint_taken_over :
    ∃ P, runActions (attemptSystem Sqlite.feedAdapter twoOrdersLog defaultConfig ordersKey
        ordersOfT).step (Pool.start (State.start 0 twoOrdersLog)) takenOver = some P ∧
      P.shared.handled.map (fun h => (h.session, h.position)) = [(1, 2), (0, 2), (0, 1)] ∧
      P.shared.starts.map (fun st => (st.session, st.position)) = [(1, 1), (0, 0)] ∧
      (P.shared.tables.checkpoints ordersKey).map (·.position) = some 2 ∧
      ∀ e ∈ twoOrders, ∃ h ∈ P.shared.handled, h.key = ordersKey ∧ h.position = e.globalPosition := by
  refine exists_run_of
    (fun P => P.shared.handled.map (fun h => (h.session, h.position)) = [(1, 2), (0, 2), (0, 1)] ∧
      P.shared.starts.map (fun st => (st.session, st.position)) = [(1, 1), (0, 0)] ∧
      (P.shared.tables.checkpoints ordersKey).map (·.position) = some 2) (by decide +kernel) ?_
  rintro P hrun ⟨hhandled, hstarts, hrow⟩
  obtain ⟨cp, hcp, hpos⟩ := Option.map_eq_some_iff.mp hrow
  refine ⟨hhandled, hstarts, hrow, fun e he => ?_⟩
  apply (handled_up_to_checkpoint _ _ _ _ _ _ _ _ P hrun).1 cp hcp e
  rw [hpos]
  revert e
  decide

end EsLite.Eventfeed
