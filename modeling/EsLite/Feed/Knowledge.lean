import EsLite.Feed.Server

/-!
# Reasoning about the feed's programs

What consumers and operators know is a property of the ledger: the checkpoints, the ack windows and
the history. Lease calls, reads and waits do not touch it, so only the calls that do have to be looked
at. The rules here take a logic on ledgers and lift it to the programs of the server: a quiet program
is verified by itself (`wp_quiet`), a subscription by what holds when its stream starts and by its read
loop (`wp_subscribe`), and a read loop by its sink (`wp_readLoop`).
-/

namespace EsLite.Feed

/-- What may be assumed and must be kept, as a logic on the whole state. -/
abbrev onLedger (L : Logic Ledger Op) : Logic State Op := L.comap State.ledger

section Rules

variable {κ α : Type} {A : Adapter} {ever : Log} {method : κ → Server Unit} {L : Logic Ledger Op}
variable {cfg : Config} {req : Request} {sink : Sink} {session fuel : Nat} {s : State}

/-- A quiet call keeps every invariant of the ledger. -/
theorem quiet_keeps {o : Op} (ho : o.quiet = true) {c : Choice} {t t' : State} {r : Res o}
    (hi : (onLedger L).inv t) (hex : exec A ever o c t = some (t', r)) :
    (onLedger L).inv t' ∧ (onLedger L).le t t' := by
  have hledger := (exec_framed hex).ledger ho
  constructor
  · change L.inv t'.ledger
    rw [hledger]
    exact hi
  · change L.le t.ledger t'.ledger
    rw [hledger]
    exact L.refl _

/-- Time and appends keep every invariant of the ledger. -/
theorem env_keeps {e : EnvStep} {t t' : State} (hi : (onLedger L).inv t)
    (he : envStep ever e t = some t') : (onLedger L).inv t' ∧ (onLedger L).le t t' := by
  have hledger : t'.ledger = t.ledger := by
    cases e with
    | advance d =>
      cases he
      rfl
    | commit scope e =>
      simp only [envStep] at he
      split at he <;> cases he
      rfl
  constructor
  · change L.inv t'.ledger
    rw [hledger]
    exact hi
  · change L.le t.ledger t'.ledger
    rw [hledger]
    exact L.refl _

/-- A program of quiet calls is verified. -/
theorem wp_quiet {p : Prog Op Res α} (hp : Prog.Issues (fun o => o.quiet = true) p) (s : State) :
    (onLedger L).WP (feedSystem A ever method) (fun _ _ => True) p s :=
  Logic.WP.of_issues (fun _ ho _ hi _ _ _ _ hex => quiet_keeps ho hi hex) hp s

/-- A quiet call in front of a program. -/
theorem wp_quiet_bind {β : Type} {p : Server α} {f : α → Server β}
    (hp : Prog.Issues (fun o => o.quiet = true) p.run)
    (hf : ∀ a t, (onLedger L).le s t → (onLedger L).inv t →
      (onLedger L).WP (feedSystem A ever method) (fun _ _ => True) (f a).run t) :
    (onLedger L).WP (feedSystem A ever method) (fun _ _ => True) (p >>= f).run s :=
  Logic.WP.bindExcept (wp_quiet hp s) (fun a t ht hi _ => hf a t ht hi)
    (fun _ _ _ _ _ _ _ _ => trivial)

/-! ## Acknowledgements -/

/-- **The rule for an acknowledgement**: what the consumer knows of the position must justify the
save. -/
theorem wp_checkpoint {ack : Ack} (know : Ledger → Prop) (hmono : ∀ l l', L.le l l' → know l → know l')
    (hsave : ∀ (t t' : State), L.inv t.ledger → know t.ledger →
      L.allowed (.save ack.key ack.definition ack.position) t.ledger →
      t' = t.withTables (t.tables.save t.now ack.key ack.definition ack.position) →
      L.inv t'.ledger ∧ L.le t.ledger t'.ledger) (s : State) (hs : know s.ledger) :
    (onLedger L).WP (feedSystem A ever method) (fun _ _ => True) (checkpoint ack).run s := by
  apply wp_quiet_bind require_issues
  intro _ s₁ h₁ _
  apply wp_quiet_bind (port_issues (.op (by rfl)))
  intro lease s₂ h₂ _
  have hknow : know s₂.ledger := hmono _ _ (L.trans _ _ _ h₁ h₂) hs
  cases lease with
  | none => exact fun _ _ _ => trivial
  | some l =>
    by_cases ho : l.owner ≠ ack.owner
    · simp only [if_pos ho]
      exact fun _ _ _ => trivial
    · simp only [if_neg ho]
      refine .call (fun t ht hi hal c t' r hex => ?_)
      have hkeep := hsave t _ hi (hmono _ _ ht hknow) hal rfl
      have ht' : L.inv t'.ledger ∧ L.le t.ledger t'.ledger :=
        answer_preserves (I := fun u => L.inv u.ledger ∧ L.le t.ledger u.ledger) hex
          ⟨hi, L.refl _⟩ hkeep
      exact ⟨ht'.1, ht'.2, fun _ _ _ => trivial⟩

/-- The rule for a reset. -/
theorem wp_resetCheckpoint {position : Nat} {force : Bool} (hreset : ∀ (t t' : State), L.inv t.ledger →
      t' = { t.withTables (t.tables.reset t.now req.key req.definition.hash position) with
        resets := ⟨req.key, req.definition.hash, position⟩ :: t.resets } →
      L.inv t'.ledger ∧ L.le t.ledger t'.ledger) (s : State) :
    (onLedger L).WP (feedSystem A ever method) (fun _ _ => True)
      (resetCheckpoint req position force).run s := by
  apply wp_quiet_bind require_issues
  intro _ _ _ _
  apply wp_quiet_bind require_issues
  intro _ _ _ _
  apply wp_quiet_bind (refuseUnlessForced_issues (by rfl) force)
  intro _ s₃ _ _
  refine .call (fun t ht hi _ c t' r hex => ?_)
  have ht' : L.inv t'.ledger ∧ L.le t.ledger t'.ledger :=
    answer_preserves (I := fun u => L.inv u.ledger ∧ L.le t.ledger u.ledger) hex
      ⟨hi, L.refl _⟩ (hreset t _ hi rfl)
  exact ⟨ht'.1, ht'.2, fun _ _ _ => trivial⟩

/-! ## The stream -/

/-- The clamp never moves the start of a stream up. -/
theorem wp_clamp {scope : Bytes} {pos : Nat} (fuel head : Nat) (s : State) :
    (onLedger L).WP (feedSystem A ever method) (fun r _ => ∀ p, r = .ok p → p ≤ pos)
      (clamp scope pos fuel head).run s := by
  induction fuel generalizing head s with
  | zero => exact fun _ _ _ p hp => by cases hp
  | succ n ih =>
    by_cases hle : pos ≤ head
    · -- the checkpoint is within the settled log
      have hret : (clamp scope pos (n + 1) head).run = .ret (.ok pos) := by
        simp only [clamp, if_pos hle]
        rfl
      rw [hret]
      rintro _ _ _ p ⟨⟩
      exact le_refl pos
    · simp only [clamp, if_neg hle]
      refine .bindExcept (wp_quiet (port_issues (.op (by rfl))) s)
        (fun raw t _ _ _ => ?_) (fun e t _ _ _ u _ _ p hp => by cases hp)
      by_cases hraw : raw < pos
      · -- the position is gone from the log: fall back to the head
        simp only [if_pos hraw]
        rintro _ _ _ p ⟨⟩
        omega
      · simp only [if_neg hraw]
        refine .bindExcept (wp_quiet (port_issues (.op (by rfl))) t)
          (fun _ u _ _ _ => ?_) (fun e u _ _ _ v _ _ p hp => by cases hp)
        refine .bindExcept (wp_quiet (port_issues (.op (by rfl))) u)
          (fun head' v _ _ _ => ih head' v) (fun e v _ _ _ w _ _ p hp => by cases hp)

/-- The stored position a checkpoint row stands for. -/
def storedPosition (cp : Option Checkpoint) : Nat := (cp.map (·.position)).getD 0

/-- The definition check of a stream passes on a checkpoint row. -/
def DefinitionPasses (cp : Option Checkpoint) (hash : Bytes) : Prop :=
  ¬ ((cp.map (·.definitionHash)).getD [] ≠ [] ∧ (cp.map (·.definitionHash)).getD [] ≠ hash)

/-- What a stream learns from the checkpoint it loads holds from then on. -/
theorem wp_loadCheckpoint {k : Key} (know : Option Checkpoint → Ledger → Prop)
    (hmono : ∀ cp l l', L.le l l' → know cp l → know cp l')
    (hload : ∀ l, L.inv l → know (l.checkpoints k) l) (s : State) :
    (onLedger L).WP (feedSystem A ever method) (fun r t => ∀ cp, r = .ok cp → know cp t.ledger)
      (port .loadCheckpoint (Prog.op (Op.checkpoint k))).run s := by
  refine .call (fun t ht hi _ c t' r hex => ?_)
  have hex : exec A ever (.checkpoint k) c t = some (t', r) := hex
  obtain ⟨hi', hle⟩ := quiet_keeps (by rfl) hi hex
  refine ⟨hi', hle, fun u hu _ cp hcp => ?_⟩
  have hex' : answer c t t (t.tables.checkpoints k) = (t', r) := Option.some.inj hex
  match r, hex', hcp with
  | .ok row, hex', rfl =>
    obtain ⟨rfl, rfl⟩ := answer_eq_ok hex'
    exact hmono _ _ _ hu (hload t'.ledger hi')

/-- **The rule for a stream**: what is known of a row that passes the definition check must justify
starting at or below its position, and the read loop must be verified from there. -/
theorem wp_stream (start : Nat → Ledger → Prop) (hmono : ∀ p l l', L.le l l' → start p l → start p l')
    (hload : ∀ l, L.inv l → DefinitionPasses (l.checkpoints req.key) req.definition.hash →
      start (storedPosition (l.checkpoints req.key)) l)
    (hbegin : ∀ stored pos (t t' : State), L.inv t.ledger → start stored t.ledger → pos ≤ stored →
      t' = { t with starts := ⟨session, req.key, req.definition, stored, pos⟩ :: t.starts } →
      L.inv t'.ledger ∧ L.le t.ledger t'.ledger ∧
        (onLedger L).WP (feedSystem A ever method) (fun _ _ => True)
          (readLoop cfg req sink (batchSize cfg req.batchSize) fuel pos).run t') (s : State) :
    (onLedger L).WP (feedSystem A ever method) (fun _ _ => True)
      (stream cfg req sink session fuel).run s := by
  apply wp_quiet_bind (port_issues (.op (by rfl)))
  intro _ s₁ _ _
  refine .bindExcept (wp_loadCheckpoint
    (fun cp l => DefinitionPasses cp req.definition.hash → start (storedPosition cp) l)
    (fun cp l l' hle h hpass => hmono _ l l' hle (h hpass)) hload s₁) ?_
    (fun _ _ _ _ _ _ _ _ => trivial)
  intro cp s₂ _ _ hknow
  by_cases hdrift : (cp.map (·.definitionHash)).getD [] ≠ [] ∧
      (cp.map (·.definitionHash)).getD [] ≠ req.definition.hash
  · simp only [if_pos hdrift]
    exact fun _ _ _ => trivial
  · have hstart : start (storedPosition cp) s₂.ledger := hknow cp rfl hdrift
    simp only [if_neg hdrift]
    apply wp_quiet_bind (port_issues (.op (by rfl)))
    intro head s₃ h₃ _
    refine .bindExcept (wp_clamp fuel head s₃) ?_ (fun _ _ _ _ _ _ _ _ => trivial)
    intro pos s₄ h₄ _ hpos
    have hstart₄ : start (storedPosition cp) s₄.ledger :=
      hmono _ _ _ (L.trans _ _ _ h₃ h₄) hstart
    refine .call (fun t ht hi _ c t' r hex => ?_)
    obtain ⟨hi', hle', hwp⟩ := hbegin (storedPosition cp) pos t t' hi (hmono _ _ _ ht hstart₄)
      (hpos pos rfl) (by cases hex; rfl)
    exact ⟨hi', hle', hwp⟩

/-! ## The read loop -/

/-- What a page read returns is a page the log may return. -/
theorem wp_readPage {batch pos : Nat} (s : State) :
    (onLedger L).WP (feedSystem A ever method)
      (fun r _ => ∀ page, r = .ok page → ∃ log, ValidPage ever log req.key.scope pos batch
        req.definition.consumes page.1)
      (readPage cfg req batch pos).run s := by
  refine .bindExcept (R := fun r _ => ∀ page, r = .ok (.ok page) →
    ∃ log, ValidPage ever log req.key.scope pos batch req.definition.consumes page.1) ?_ ?_
    (fun _ _ _ _ _ _ _ _ _ hp => by cases hp)
  · refine .call (fun t _ hi _ ch t' r hex => ?_)
    have hex : exec A ever (.readAllBounded req.key.scope pos batch cfg.maxBatchBytes
      req.definition.consumes) ch t = some (t', r) := hex
    obtain ⟨hi', hle⟩ := quiet_keeps (by rfl) hi hex
    exact ⟨hi', hle, fun _ _ _ page hpage => ⟨t.log, (exec_readAllBounded hex).2 page (Except.ok.inj hpage)⟩⟩
  · intro reply t _ _ hknow
    cases reply with
    | ok page =>
      rintro _ _ _ p ⟨⟩
      exact hknow page rfl
    | error e => cases e <;> exact fun _ _ _ _ hp => by cases hp

section ReadLoop

variable (know : Nat → Ledger → Prop) (hmono : ∀ p l l', L.le l l' → know p l → know p l')
  (hsink : ∀ pos e s, (∀ e' ∈ ever.matching req.key.scope req.definition.consumes e.globalPosition,
      pos < e'.globalPosition → e' = e) → know pos s.ledger →
    (onLedger L).WP (feedSystem A ever method) (fun r t => r = .ok () → know e.globalPosition t.ledger)
      (sink e).run s)
include hmono hsink

/-- Sending a complete page extends what is known to the position reached. -/
theorem wp_sendPage {page : List Event} {pos : Nat}
    (hsorted : page.Pairwise (fun a b => a.globalPosition < b.globalPosition))
    (habove : ∀ e ∈ page, pos < e.globalPosition)
    (hcomplete : ∀ last ∈ page, ∀ e ∈ ever.matching req.key.scope req.definition.consumes last.globalPosition,
      pos < e.globalPosition → e ∈ page) {s : State} (hs : know pos s.ledger) :
    (onLedger L).WP (feedSystem A ever method) (fun r t => ∀ p, r = .ok p → know p t.ledger)
      (sendPage cfg sink pos page).run s := by
  induction page generalizing pos s with
  | nil =>
    rintro t ht - p ⟨⟩
    exact hmono _ _ _ ht hs
  | cons e es ih =>
    obtain ⟨hhead, htail⟩ := List.pairwise_cons.mp hsorted
    -- nothing matching lies between the cursor and the next event of the page
    have hnext : ∀ e' ∈ ever.matching req.key.scope req.definition.consumes e.globalPosition,
        pos < e'.globalPosition → e' = e := by
      intro e' he' hlt
      rcases List.mem_cons.mp (hcomplete e List.mem_cons_self e' he' hlt) with h | h
      · exact h
      · have := hhead e' h
        have := (Log.mem_matching.mp he').2.2.2
        omega
    by_cases hbig : 0 < cfg.maxPayloadBytes ∧ cfg.maxPayloadBytes < e.payload.length
    · simp only [sendPage, if_pos hbig]
      exact fun _ _ _ p hp => by cases hp
    · simp only [sendPage, if_neg hbig]
      refine Logic.WP.bindExcept
        (R := fun r t => r = .ok () → know e.globalPosition t.ledger) ?_ ?_
        (fun _ _ _ _ _ _ _ _ _ hp => by cases hp)
      · refine .bind (hsink pos e s hnext hs) (fun r t _ _ hr => ?_)
        cases r with
        | ok u => exact fun v hv _ _ => hmono _ _ _ hv (hr rfl)
        | error err => exact fun _ _ _ h => by cases h
      · intro _ t _ _ hcov
        apply ih htail hhead _ (hcov rfl)
        intro last hlast e' he' hlt
        have hpos : pos < e'.globalPosition := lt_trans (habove e List.mem_cons_self) hlt
        rcases List.mem_cons.mp (hcomplete last (List.mem_cons_of_mem _ hlast) e' he' hpos) with
          rfl | h
        · omega
        · exact h

/-- **The rule for the read loop**: if sending the next event of a page extends what is known to its position,
the loop never gets ahead of what is known. -/
theorem wp_readLoop {batch : Nat} (fuel pos : Nat) {s : State} (hs : know pos s.ledger) :
    (onLedger L).WP (feedSystem A ever method) (fun _ _ => True)
      (readLoop cfg req sink batch fuel pos).run s := by
  induction fuel generalizing pos s with
  | zero => exact fun _ _ _ => trivial
  | succ n ih =>
    apply wp_quiet_bind (port_issues (.op (by rfl)))
    intro _ s₁ h₁ _
    refine .bindExcept (wp_readPage s₁) ?_ (fun _ _ _ _ _ _ _ _ => trivial)
    rintro ⟨page, truncated⟩ s₂ h₂ _ hpage
    obtain ⟨log, hvalid⟩ := hpage _ rfl
    have hs₂ : know pos s₂.ledger := hmono _ _ _ (L.trans _ _ _ h₁ h₂) hs
    refine Logic.WP.bindExcept
      (wp_sendPage know hmono hsink hvalid.sorted hvalid.above hvalid.complete hs₂) ?_
      (fun _ _ _ _ _ _ _ _ => trivial)
    intro pos' s₃ _ _ hpos
    by_cases hfull : page ≠ [] ∧ (truncated = true ∨ batch ≤ page.length)
    · simp only [if_pos hfull]
      exact ih pos' (hpos pos' rfl)
    · simp only [if_neg hfull]
      apply wp_quiet_bind (port_issues (.op (by rfl)))
      intro _ s₄ h₄ _
      exact ih pos' (hmono _ _ _ h₄ (hpos pos' rfl))

end ReadLoop

/-- **The rule for a subscription**: the lease calls around the stream are quiet. -/
theorem wp_subscribe (hstream : ∀ t, (onLedger L).WP (feedSystem A ever method) (fun _ _ => True)
      (stream cfg req sink session fuel).run t) (s : State) :
    (onLedger L).WP (feedSystem A ever method) (fun _ _ => True)
      (subscribe cfg req sink session fuel).run s := by
  have hrelease : ∀ k owner result t, (onLedger L).WP (feedSystem A ever method)
      (fun _ _ => True) (releaseAfter k owner result).run t := by
    intro k owner result t
    exact wp_quiet (releaseAfter_issues (by rfl) result) t
  apply wp_quiet_bind require_issues
  intro _ s₁ _ _
  apply wp_quiet_bind require_issues
  intro _ s₂ _ _
  apply wp_quiet_bind (leaseOwner_issues (by rfl) req)
  intro owner s₃ _ _
  apply wp_quiet_bind (perform_issues (by rfl))
  rintro ⟨_ | _, _ | _⟩ s₄ _ _
  · -- refused: report the holder
    apply wp_quiet
    exact .bindExcept (port_issues (.op (by rfl))) (fun _ => trivial)
  · exact fun _ _ _ => trivial
  · -- acquired: stream, then release whatever the result is
    refine .bindExcept (R := fun _ _ => True) ?_ (fun result t _ _ _ => hrelease _ _ result t)
      (fun _ _ _ _ _ _ _ _ => trivial)
    exact .bind (hstream s₄) (fun r t _ _ _ => fun _ _ _ => trivial)
  · exact hrelease _ _ _ s₄

end Rules

end EsLite.Feed
