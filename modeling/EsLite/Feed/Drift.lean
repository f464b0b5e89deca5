import EsLite.Feed.Knowledge

/-!
# Definition drift

Consumers of one key under several definitions, and operators who reset it. A checkpoint row carries a
position and the fingerprint of the definition it was acknowledged under, and a stream refuses to
resume from a row of another definition. The two columns are merged by different rules: a save keeps
the higher position but always its own fingerprint. An acknowledgement that lands on a row of another
definition above its own position therefore claims the other's progress, and a later stream under its
definition starts above events nobody handled for it.

`starts_covered` says that this is the only way: while every save that lands on a row of another
definition is at or above it, no start skips history.
-/

namespace EsLite.Feed

/-! ## Consumers and operators of one key -/

/-- The calls on the key. -/
inductive DriftCall where
  /-- A consumer subscribes under its definition. -/
  | consume (session : Nat) (owner consumer : Bytes) (definition : Definition) (batchSize : Int)
      (fuel : Nat)
  /-- The renewer of a stream. -/
  | renew (owner : Bytes) (fuel : Nat)
  /-- A consumer acknowledges a position with its own fingerprint. -/
  | ack (session : Nat) (owner : Bytes) (definition : Definition) (position : Nat)
  /-- An operator resets the checkpoint, unforced. -/
  | reset (definition : Definition) (position : Nat)

/-- A sink that calls the consumer's handler. -/
def handlerSink (session : Nat) (k : Key) (hash : Bytes) : Sink :=
  fun e => port .handler (Prog.op (Op.handle session k hash e))

/-- The methods behind the calls. -/
def DriftCall.method (cfg : Config) (k : Key) : DriftCall → Server Unit
  | .consume session owner consumer definition batchSize fuel =>
    subscribe cfg ⟨k, consumer, owner, definition, batchSize⟩
      (handlerSink session k definition.hash) session fuel
  | .renew owner fuel => renewLoop cfg k owner fuel
  | .ack _ owner definition position => checkpoint ⟨k, owner, position, definition.hash⟩
  | .reset definition position => resetCheckpoint ⟨k, [], [], definition, 0⟩ position false

/-- Consumers and operators of one key, interleaved. -/
def driftSystem (A : Adapter) (ever : Log) (cfg : Config) (k : Key) :
    System State DriftCall Op Res (Except FeedError Unit) Choice EnvStep :=
  feedSystem A ever (DriftCall.method cfg k)

/-- The consumer of a session may acknowledge a position: up to there is no event of its types beyond the
start of a stream of its own, or none beyond an event that it has handled. That it has handled those before
as well is not asked for. -/
def MayAcknowledge (ever : Log) (k : Key) (s : State) (session : Nat) (definition : Definition)
    (position : Nat) : Prop :=
  let NoneBeyond (b : Nat) := ∀ e ∈ ever.matching k.scope definition.consumes position, e.globalPosition ≤ b
  (∃ st ∈ s.starts, st.session = session ∧ st.definition = definition ∧ NoneBeyond st.position) ∨
    ∃ h ∈ s.handled, h = ⟨session, k, definition.hash, h.position⟩ ∧ NoneBeyond h.position

/-- The calls consumers and operators make: they use the definitions `defs`, and consumers
acknowledge what they handled. -/
def Honest (ever : Log) (k : Key) (defs : List Definition) : DriftCall → State → Prop
  | .consume _ _ _ definition _ _, _ => definition ∈ defs
  | .renew _ _, _ => True
  | .ack session _ definition position, s =>
    definition ∈ defs ∧ MayAcknowledge ever k s session definition position
  | .reset definition _, _ => definition ∈ defs

/-- The side condition: a save that lands on a row of another definition is at or above it. -/
def MergesForward : Op → Ledger → Prop
  | .save k definition position, l => ∀ cp ∈ l.checkpoints k,
      cp.definitionHash ≠ definition → cp.position ≤ position
  | _, _ => True

/-- Every event of a definition's types up to a position was handled by a consumer under its
fingerprint, or lies at or below a position set by a reset under it. -/
def Covered (ever : Log) (k : Key) (l : Ledger) (definition : Definition) (position : Nat) : Prop :=
  ∀ e ∈ ever.matching k.scope definition.consumes position,
    (∃ h ∈ l.handled, h.key = k ∧ h.definitionHash = definition.hash ∧
      h.position = e.globalPosition) ∨
    ∃ r ∈ l.resets, r.key = k ∧ r.definitionHash = definition.hash ∧
      e.globalPosition ≤ r.position

instance (ever : Log) (k : Key) (s : State) (session : Nat) (definition : Definition)
    (position : Nat) : Decidable (MayAcknowledge ever k s session definition position) :=
  inferInstanceAs (Decidable ((∃ _ ∈ _, _) ∨ ∃ _ ∈ _, _))

instance (ever : Log) (k : Key) (defs : List Definition) :
    (c : DriftCall) → (s : State) → Decidable (Honest ever k defs c s)
  | .consume .., _ => inferInstanceAs (Decidable (_ ∈ _))
  | .renew .., _ => inferInstanceAs (Decidable True)
  | .ack .., _ => inferInstanceAs (Decidable (_ ∧ _))
  | .reset .., _ => inferInstanceAs (Decidable (_ ∈ _))

instance : (o : Op) → (l : Ledger) → Decidable (MergesForward o l)
  | .save .., _ => inferInstanceAs (Decidable (∀ _ ∈ _, _))
  | .acquire .., _ | .renew .., _ | .release .., _ | .holder _, _ | .reset .., _ | .delete _, _
  | .checkpoint _, _ | .record _, _ | .clock, _ | .newOwner, _ | .openLog _, _ | .head _, _
  | .rawHead _, _ | .readAllBounded .., _ | .pause, _ | .select, _ | .begin _, _ | .handle .., _
  | .account .., _ | .claim _, _ => inferInstanceAs (Decidable True)

instance (ever : Log) (k : Key) (l : Ledger) (definition : Definition) (position : Nat) :
    Decidable (Covered ever k l definition position) :=
  inferInstanceAs (Decidable (∀ _ ∈ _, _))

/-! ## What is kept -/

/-- History only grows. -/
structure Grows (l l' : Ledger) : Prop where
  starts : l.starts ⊆ l'.starts
  handled : l.handled ⊆ l'.handled
  resets : l.resets ⊆ l'.resets

/-- The invariant: the row is covered for the definition it names, what was handled is covered for the
definition it was handled under, and every stream started at or below a covered position. -/
structure DriftInv (ever : Log) (k : Key) (defs : List Definition) (l : Ledger) : Prop where
  row : ∀ cp, l.checkpoints k = some cp → cp.definitionHash ≠ [] ∧
    ∀ d ∈ defs, d.hash = cp.definitionHash → Covered ever k l d cp.position
  handled : ∀ h ∈ l.handled, ∀ d ∈ defs, d.hash = h.definitionHash → Covered ever k l d h.position
  starts : ∀ st ∈ l.starts, st.definition ∈ defs ∧ st.position ≤ st.stored ∧
    Covered ever k l st.definition st.stored

/-- What consumers and operators rely on. -/
def driftLogic (ever : Log) (k : Key) (defs : List Definition) : Logic Ledger Op where
  inv := DriftInv ever k defs
  le := Grows
  allowed := MergesForward
  refl _ := ⟨List.Subset.refl _, List.Subset.refl _, List.Subset.refl _⟩
  trans _ _ _ h h' := ⟨List.Subset.trans h.starts h'.starts,
    List.Subset.trans h.handled h'.handled, List.Subset.trans h.resets h'.resets⟩

section Coverage

variable {ever : Log} {k : Key} {defs : List Definition} {l l' : Ledger} {d : Definition}

/-- Coverage is knowledge. -/
theorem Covered.mono {p : Nat} (h : Covered ever k l d p) (hle : Grows l l') :
    Covered ever k l' d p := by
  intro e he
  rcases h e he with ⟨x, hx, hxe⟩ | ⟨r, hr, hre⟩
  · exact .inl ⟨x, hle.handled hx, hxe⟩
  · exact .inr ⟨r, hle.resets hr, hre⟩

/-- There is nothing to cover before the first event. -/
theorem covered_zero : Covered ever k l d 0 := by
  intro e he
  have := (Log.mem_matching.mp he).2.2
  omega

/-- A position set by a reset under a definition is covered for it. -/
theorem covered_reset {p : Nat} (h : ⟨k, d.hash, p⟩ ∈ l.resets) : Covered ever k l d p :=
  fun _ he => .inr ⟨_, h, rfl, rfl, (Log.mem_matching.mp he).2.2.2⟩

/-- It is enough to cover the events that there are. -/
theorem Covered.of_le {p b : Nat} (h : Covered ever k l d b)
    (hle : ∀ e ∈ ever.matching k.scope d.consumes p, e.globalPosition ≤ b) : Covered ever k l d p := by
  intro e he
  apply h e
  have hb := hle e he
  rw [Log.mem_matching] at he ⊢
  exact ⟨he.1, he.2.1, he.2.2.1, hb⟩

/-- What a consumer may acknowledge is covered. -/
theorem covered_of_mayAcknowledge {s : State} {session p : Nat} (hi : DriftInv ever k defs s.ledger)
    (hd : d ∈ defs) (h : MayAcknowledge ever k s session d p) : Covered ever k s.ledger d p := by
  rcases h with ⟨st, hst, -, rfl, hbeyond⟩ | ⟨x, hx, hrecord, hbeyond⟩
  · obtain ⟨-, hpos, hcov⟩ := hi.starts st hst
    exact hcov.of_le fun e he => (hbeyond e he).trans hpos
  · exact (hi.handled x hx d hd (by rw [hrecord])).of_le hbeyond

/-- **The next event**: what was covered up to a position is so up to the event handled next. -/
theorem Covered.next {session p : Nat} {e : Event} (h : Covered ever k l d p)
    (hnext : ∀ e' ∈ ever.matching k.scope d.consumes e.globalPosition, p < e'.globalPosition → e' = e)
    (hmem : ⟨session, k, d.hash, e.globalPosition⟩ ∈ l.handled) : Covered ever k l d e.globalPosition := by
  intro e' he'
  by_cases hlt : p < e'.globalPosition
  · exact .inl ⟨_, hmem, rfl, rfl, by rw [hnext e' he' hlt]⟩
  · apply h e'
    rw [Log.mem_matching] at he' ⊢
    exact ⟨he'.1, he'.2.1, he'.2.2.1, by omega⟩

/-- The invariant after history has grown: the new records have to be looked at. -/
theorem DriftInv.grow (hi : DriftInv ever k defs l) (hle : Grows l l')
    (hrow : l'.checkpoints k = l.checkpoints k) (hhandled : ∀ h ∈ l'.handled, h ∈ l.handled ∨
      ∀ d ∈ defs, d.hash = h.definitionHash → Covered ever k l' d h.position)
    (hstarts : ∀ st ∈ l'.starts, st ∈ l.starts ∨ st.definition ∈ defs ∧ st.position ≤ st.stored ∧
      Covered ever k l' st.definition st.stored) : DriftInv ever k defs l' := by
  refine ⟨fun cp hcp => ?_, fun h hh => ?_, fun st hst => ?_⟩
  · obtain ⟨hne, hcov⟩ := hi.row cp (hrow ▸ hcp)
    exact ⟨hne, fun d hd heq => (hcov d hd heq).mono hle⟩
  · rcases hhandled h hh with hold | hnew
    · exact fun d hd heq => (hi.handled h hold d hd heq).mono hle
    · exact hnew
  · rcases hstarts st hst with hold | hnew
    · obtain ⟨h₁, h₂, h₃⟩ := hi.starts st hold
      exact ⟨h₁, h₂, h₃.mono hle⟩
    · exact hnew

/-- Writing a covered row keeps the invariant, whatever else grows. -/
theorem DriftInv.writeRow (hi : DriftInv ever k defs l) (hle : Grows l l')
    (hhandled : l'.handled = l.handled) (hstarts : l'.starts = l.starts) {cp : Checkpoint}
    (hrow : l'.checkpoints k = some cp)
    (hinj : ∀ d ∈ defs, ∀ d' ∈ defs, d.hash = d'.hash → d = d') (hd : d ∈ defs)
    (hhash : cp.definitionHash = d.hash) (hcov : Covered ever k l' d cp.position) :
    DriftInv ever k defs l' := by
  constructor
  · intro cp' hcp'
    cases hrow.symm.trans hcp'
    refine ⟨fun hnil => d.hash_ne_nil (hhash ▸ hnil), fun d' hd' hd'h => ?_⟩
    obtain rfl := hinj d' hd' d hd (hd'h.trans hhash)
    exact hcov
  · intro h hh d' hd' heq
    rw [hhandled] at hh
    exact (hi.handled h hh d' hd' heq).mono hle
  · intro st hst
    rw [hstarts] at hst
    obtain ⟨h₁, h₂, h₃⟩ := hi.starts st hst
    exact ⟨h₁, h₂, h₃.mono hle⟩

end Coverage

/-! ## The calls -/

section Calls

variable {A : Adapter} {ever : Log} {cfg : Config} {k : Key} {defs : List Definition}
  (hinj : ∀ d ∈ defs, ∀ d' ∈ defs, d.hash = d'.hash → d = d')

include hinj

/-- **A handled event is covered**: the sink of a stream under a definition extends what is covered for it. -/
theorem wp_handlerSink {session pos : Nat} {d : Definition} (hd : d ∈ defs) {e : Event}
    (hnext : ∀ e' ∈ ever.matching k.scope d.consumes e.globalPosition, pos < e'.globalPosition → e' = e)
    {s : State} (hs : Covered ever k s.ledger d pos) :
    (onLedger (driftLogic ever k defs)).WP (driftSystem A ever cfg k)
      (fun r t => r = .ok () → Covered ever k t.ledger d e.globalPosition)
      (handlerSink session k d.hash e).run s := by
  refine .call (fun t ht hi _ ch t' r hex => ?_)
  have hi : DriftInv ever k defs t.ledger := hi
  have hex : exec A ever (.handle session k d.hash e) ch t = some (t', r) := hex
  simp only [exec] at hex
  cases hf : ch.fault <;> rw [hf] at hex <;> cases hex
  · have hgrow : Grows t.ledger
        { t with handled := ⟨session, k, d.hash, e.globalPosition⟩ :: t.handled }.ledger :=
      ⟨List.Subset.refl _, List.subset_cons_self _ _, List.Subset.refl _⟩
    have hcov := ((hs.mono ht).mono hgrow).next hnext List.mem_cons_self
    refine ⟨hi.grow hgrow rfl (fun h hh => ?_) (fun _ hst => .inl hst), hgrow, fun u hu _ _ => hcov.mono hu⟩
    rcases List.mem_cons.mp hh with rfl | hh
    · refine .inr fun d' hd' heq => ?_
      obtain rfl := hinj d' hd' d hd heq
      exact hcov
    · exact .inl hh
  · exact ⟨hi, (driftLogic ever k defs).refl _, fun _ _ _ h => by cases h⟩
  · exact ⟨hi, (driftLogic ever k defs).refl _, fun _ _ _ h => by cases h⟩

/-- A consumer's stream starts at a covered position. -/
theorem wp_consume {session : Nat} {owner consumer : Bytes} {d : Definition}
    {batchSize : Int} {fuel : Nat} (hd : d ∈ defs) (s : State) :
    (onLedger (driftLogic ever k defs)).WP (driftSystem A ever cfg k) (fun _ _ => True)
      (DriftCall.method cfg k (.consume session owner consumer d batchSize fuel)).run s := by
  apply wp_subscribe
  apply wp_stream (fun p l => Covered ever k l d p) (fun p l l' hle h => h.mono hle)
  · -- a row that passes the check carries the definition's own fingerprint
    intro l hi hpass
    cases hrow : l.checkpoints k with
    | none => exact covered_zero
    | some cp =>
      obtain ⟨hne, hcov⟩ := hi.row cp hrow
      rw [hrow] at hpass
      apply hcov d hd
      by_contra hh
      exact hpass ⟨hne, fun h => hh h.symm⟩
  · intro stored pos t t' hi hcov hle ht'
    subst ht'
    have hgrow : Grows t.ledger
        { t with starts := ⟨session, k, d, stored, pos⟩ :: t.starts }.ledger :=
      ⟨List.subset_cons_self _ _, List.Subset.refl _, List.Subset.refl _⟩
    refine ⟨hi.grow hgrow rfl (fun _ hh => .inl hh) (fun st hst => ?_), hgrow, ?_⟩
    · rcases List.mem_cons.mp hst with rfl | hst
      · exact .inr ⟨hd, hle, hcov.mono hgrow⟩
      · exact .inl hst
    · exact wp_readLoop (fun p l => Covered ever k l d p) (fun p l l' hle h => h.mono hle)
        (fun pos e s hnext hs => wp_handlerSink hinj hd hnext hs) fuel pos
        ((hcov.mono hgrow).of_le fun e he => (Log.mem_matching.mp he).2.2.2.trans hle)

/-- An acknowledgement of what its consumer handled keeps the row covered, when it is not below a row
of another definition. -/
theorem wp_ack (session : Nat) {owner : Bytes} {d : Definition} {position : Nat} (hd : d ∈ defs)
    {s : State} (hs : Covered ever k s.ledger d position) :
    (onLedger (driftLogic ever k defs)).WP (driftSystem A ever cfg k) (fun _ _ => True)
      (DriftCall.method cfg k (.ack session owner d position)).run s := by
  apply wp_checkpoint (fun l => Covered ever k l d position) (fun l l' hle h => h.mono hle) _ s hs
  intro t t' hi hcov hal ht'
  subst ht'
  have hgrow : Grows t.ledger (t.withTables (t.tables.save t.now k d.hash position)).ledger :=
    ⟨List.Subset.refl _, List.Subset.refl _, List.Subset.refl _⟩
  refine ⟨?_, hgrow⟩
  have hrow := Tables.save_checkpoints_self t.tables t.now k d.hash position
  cases hold : t.tables.checkpoints k with
  | none =>
    rw [hold] at hrow
    exact DriftInv.writeRow hi hgrow rfl rfl hrow hinj hd rfl (hcov.mono hgrow)
  | some cp =>
    rw [hold] at hrow
    refine DriftInv.writeRow hi hgrow rfl rfl hrow hinj hd
      (Tables.keepDefinition_of_ne_nil cp.definitionHash d.hash_ne_nil) ?_
    by_cases hsame : cp.definitionHash = d.hash
    · -- the higher of two positions of one definition
      rcases le_total cp.position position with h | h
      · simpa only [max_eq_right h] using hcov.mono hgrow
      · simpa only [max_eq_left h] using ((hi.row cp hold).2 d hd hsame.symm).mono hgrow
    · have h : cp.position ≤ position := hal cp hold hsame
      simpa only [max_eq_right h] using hcov.mono hgrow

/-- A reset covers its row by itself. -/
theorem wp_reset {d : Definition} {position : Nat} (hd : d ∈ defs) (s : State) :
    (onLedger (driftLogic ever k defs)).WP (driftSystem A ever cfg k) (fun _ _ => True)
      (DriftCall.method cfg k (.reset d position)).run s := by
  apply wp_resetCheckpoint
  intro t t' hi ht'
  subst ht'
  have hgrow : Grows t.ledger { t.withTables (t.tables.reset t.now k d.hash position) with
      resets := ⟨k, d.hash, position⟩ :: t.resets }.ledger :=
    ⟨List.Subset.refl _, List.Subset.refl _, List.subset_cons_self _ _⟩
  refine ⟨?_, hgrow⟩
  have hrow := Tables.reset_checkpoints_self t.tables t.now k d.hash position
  cases hold : t.tables.checkpoints k with
  | none =>
    rw [hold] at hrow
    exact DriftInv.writeRow hi hgrow rfl rfl hrow hinj hd rfl (covered_reset List.mem_cons_self)
  | some cp =>
    rw [hold] at hrow
    exact DriftInv.writeRow hi hgrow rfl rfl hrow hinj hd
      (Tables.keepDefinition_of_ne_nil cp.definitionHash d.hash_ne_nil)
      (covered_reset List.mem_cons_self)

end Calls

/-- **Definition drift skips no history** in a run whose saves all merge forward: whenever a stream has
started under a definition from a stored position, every event of its types up to there was handled
under its fingerprint or lies at or below a position reset under it. -/
theorem starts_covered (A : Adapter) (ever : Log) (cfg : Config) (k : Key)
    (defs : List Definition) (s : State) (as : List (PoolAction DriftCall Choice EnvStep))
    (P : Pool State DriftCall Op Res (Except FeedError Unit))
    (hinj : ∀ d ∈ defs, ∀ d' ∈ defs, d.hash = d'.hash → d = d')
    (hrow : s.tables.checkpoints k = none) (hhistory : s.starts = [] ∧ s.handled = [])
    (hrun : GuardedRun (driftSystem A ever cfg k).step
      (System.Allows (Honest ever k defs) (fun o t => MergesForward o t.ledger)) (Pool.start s) as
      P) :
    ∀ st ∈ P.shared.starts, Covered ever k P.shared.ledger st.definition st.stored := by
  have hi : (onLedger (driftLogic ever k defs)).inv s := by
    refine ⟨fun cp hcp => ?_, fun h hh => ?_, fun st hst => ?_⟩
    · cases hrow.symm.trans hcp
    · rw [State.ledger, hhistory.2] at hh
      exact absurd hh List.not_mem_nil
    · rw [State.ledger, hhistory.1] at hst
      exact absurd hst List.not_mem_nil
  have hprog : ∀ c t, (onLedger (driftLogic ever k defs)).inv t → Honest ever k defs c t →
      (onLedger (driftLogic ever k defs)).WP (driftSystem A ever cfg k) (fun _ _ => True)
        ((driftSystem A ever cfg k).prog c) t := by
    intro c t ht hc
    cases c with
    | consume session owner consumer d batchSize fuel => exact wp_consume hinj hc t
    | renew owner fuel => exact wp_quiet (renewLoop_issues (by rfl) (by rfl) fuel) t
    | ack session owner d position =>
      exact wp_ack hinj session hc.1 (covered_of_mayAcknowledge ht hc.1 hc.2)
    | reset d position => exact wp_reset hinj hc t
  have hsound := (Logic.run_sound
    (fun e t t' ht he => env_keeps ht he) hprog hrun (Logic.Sound.start hi)).1
  intro st hst
  exact (hsound.inv.starts st hst).2.2

/-! ## A skipped event -/

/-- A projection that consumes one type. -/
def ordersOf (typeURL : String) : Definition := ⟨str "orders", [str typeURL]⟩

/-- The event at a position, of a type. -/
def plainEvent (position : Nat) (typeURL : String) : Event := ⟨position, str typeURL, []⟩

/-- A log in which the types `u` and `t` alternate at the positions `1` to `4`. -/
def alternatingLog : Log :=
  [plainEvent 1 "u", plainEvent 2 "t", plainEvent 3 "u", plainEvent 4 "t"].foldl
    (fun log e => log.add ordersKey.scope e) Log.empty

/-- The steps of a subscription up to the first page: acquire, open, load, head, start, context. -/
def subscribeSteps (i : Nat) : List (PoolAction DriftCall Choice EnvStep) :=
  [.step i {}, .step i {}, .step i {}, .step i { number := 4 }, .step i {}, .step i {}]

/-- A consumer of `t` handles both its events. -/
def consumerOfT : List (PoolAction DriftCall Choice EnvStep) :=
  .spawn 0 (.consume 0 (str "a") (str "a") (ordersOf "t") 0 1) :: subscribeSteps 0 ++
    [.step 0 { page := [plainEvent 2 "t", plainEvent 4 "t"] }, .step 0 {}, .step 0 {}]

/-- The runs of consumers of `t` and `u` that acknowledge what they handled. -/
abbrev DriftRun (ok : Op → Ledger → Prop)
    (as : List (PoolAction DriftCall Choice EnvStep))
    (P : Pool State DriftCall Op Res (Except FeedError Unit)) : Prop :=
  GuardedRun (driftSystem Sqlite.feedAdapter alternatingLog defaultConfig ordersKey).step
    (System.Allows (Honest alternatingLog ordersKey [ordersOf "t", ordersOf "u"])
      (fun o t => ok o t.ledger)) (Pool.start (State.start 0 alternatingLog)) as P

/-- A consumer acknowledges, comes back, and starts where it was. -/
theorem starts_covered_resumed :
    ∃ P, DriftRun MergesForward (consumerOfT ++
        [.spawn 1 (.ack 0 (str "a") (ordersOf "t") 4), .step 1 {}, .step 1 {},
          .spawn 2 (.consume 2 (str "a") (str "a") (ordersOf "t") 0 1)] ++ subscribeSteps 2) P ∧
      ⟨2, ordersKey, ordersOf "t", 4, 4⟩ ∈ P.shared.starts ∧
      Covered alternatingLog ordersKey P.shared.ledger (ordersOf "t") 4 := by
  refine exists_guardedRun_of _ (by decide +kernel) fun P hrun hmem => ⟨hmem, ?_⟩
  exact starts_covered _ _ _ _ _ _ _ P (by decide +kernel) rfl ⟨rfl, rfl⟩ hrun _ hmem

/-- The consumer of `t` has its acknowledgement of `4` checked and loses its lease; the consumer of
`u` takes over and handles event `1`; then the save of `t` lands, and after it the acknowledgement of
`1` by the consumer of `u`, which subscribes again. -/
def driftTrace : List (PoolAction DriftCall Choice EnvStep) :=
  consumerOfT ++
    [.spawn 1 (.ack 0 (str "a") (ordersOf "t") 4), .step 1 {}, .env (.advance 31000000000),
      .spawn 2 (.consume 2 (str "b") (str "b") (ordersOf "u") 0 1)] ++ subscribeSteps 2 ++
    [.step 2 { page := [plainEvent 1 "u"] }, .step 2 {}, .step 1 {},
      .spawn 3 (.ack 2 (str "b") (ordersOf "u") 1), .step 3 {}, .step 3 {},
      .spawn 4 (.consume 4 (str "b") (str "b") (ordersOf "u") 0 1)] ++ subscribeSteps 4

/-- **A start that skips history.** Consumers that acknowledge only what they handled, under
definitions with distinct fingerprints: the second stream of `u` starts at `4`, and nobody handled
event `3` for it or reset it away. -/
theorem start_skips_event :
    (∀ d ∈ [ordersOf "t", ordersOf "u"], ∀ d' ∈ [ordersOf "t", ordersOf "u"],
      d.hash = d'.hash → d = d') ∧
    ∃ P, DriftRun (fun _ _ => True) driftTrace P ∧
      ∃ st ∈ P.shared.starts, ¬ Covered alternatingLog ordersKey P.shared.ledger st.definition
        st.stored :=
  ⟨by decide +kernel, exists_guardedRun (by decide +kernel)⟩

end EsLite.Feed
