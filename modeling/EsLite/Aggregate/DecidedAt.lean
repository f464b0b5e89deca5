import EsLite.Aggregate.Runtime

/-!
# The window of decision times

`HandleAt` reads the clock once and compares it with the time at which the caller says it decided. The
distance is a difference of 64 bits, saturated at both ends of its range, whose sign is then changed.
`decision_window_iff` says for which times that is the distance: for all but those 2⁶³ ns (about 292
years) or more ahead of the clock, whose difference is the one number that has no negative.
-/

namespace EsLite

/-! ## The saturated difference -/

/-- A difference that fits is exact. -/
theorem Time.toInt_sub {t u : Time} (hlo : -2 ^ 63 ≤ t.ns - u.ns) (hhi : t.ns - u.ns < 2 ^ 63) :
    (t.sub u).toInt = t.ns - u.ns := by
  rw [Time.sub, if_neg (by omega), if_neg (by omega)]
  exact Int64.toInt_ofInt_of_le hlo hhi

/-- A difference that is too large is the largest there is. -/
theorem Time.sub_of_le {t u : Time} (h : 2 ^ 63 ≤ t.ns - u.ns) : t.sub u = Int64.maxValue := by
  rw [Time.sub, if_pos h]

/-- A difference at the lower end of the range, or below it, is the lower end. -/
theorem Time.sub_of_ge {t u : Time} (h : t.ns - u.ns ≤ -2 ^ 63) : t.sub u = Int64.minValue := by
  rw [Time.sub, if_neg (by omega)]
  split
  · rfl
  · rw [show t.ns - u.ns = -2 ^ 63 by omega]
    decide

namespace Aggregate

variable {S C E : Type} {R : Runtime S C E}

/-- The decision time is at most five minutes from the clock. -/
def InWindow (now decided : Time) : Prop := |now.ns - decided.ns| ≤ maxDecisionSkew.toInt

instance (now decided : Time) : Decidable (InWindow now decided) :=
  inferInstanceAs (Decidable (_ ≤ _))

/-- **The check of the runtime** refuses what is outside the window, as long as the distance to a later
time has a negative. -/
theorem skewed_iff {now decided : Time} (h : -2 ^ 63 < now.ns - decided.ns) :
    Runtime.skewed now decided = true ↔ ¬ InWindow now decided := by
  have hmax : maxDecisionSkew.toInt = 300000000000 := by decide
  rw [InWindow, hmax, Runtime.skewed, decide_eq_true_eq, not_le, Int64.lt_iff_toInt_lt, hmax]
  rcases lt_or_ge (now.ns - decided.ns) (2 ^ 63) with hlt | hge
  · have hsub := Time.toInt_sub h.le hlt
    have hsign : now.sub decided < 0 ↔ now.ns - decided.ns < 0 := by
      rw [Int64.lt_iff_toInt_lt, hsub, Int64.toInt_zero]
    by_cases hneg : now.ns - decided.ns < 0
    · -- the negative of a difference above the lower end of the range is exact
      rw [if_pos (hsign.mpr hneg), Int64.toInt_neg, hsub, abs_of_neg hneg,
        Int.bmod_eq_of_le (by omega) (by omega)]
    · rw [if_neg (fun hlt => hneg (hsign.mp hlt)), hsub, abs_of_nonneg (by omega)]
  · rw [Time.sub_of_le hge, if_neg (by decide), abs_of_nonneg (by omega)]
    refine iff_of_true (by decide) (by omega)

/-- **The check passes** any time that is 2⁶³ ns or more ahead: the lower end of the range is its own
negative. -/
theorem skewed_of_far_ahead {now decided : Time} (h : now.ns - decided.ns ≤ -2 ^ 63) :
    Runtime.skewed now decided = false := by
  rw [Runtime.skewed, Time.sub_of_ge h]
  decide

/-! ## What a command does -/

open Prog (ofResult)

/-- What is left of a program when its first call was the clock's and returned `now`. -/
def afterClock {α : Type} (now : Time) : Prog Op Res α → Option (Prog Op Res α)
  | .call .timeNow k => some (k now)
  | _ => none

namespace Runtime

variable (R)

/-- What `HandleAt` goes on with once the command is stamped: load, decide and append, with retries. -/
def handleStamped (sid : StreamID) (cmd : C) (m : Meta) (now : Time) (expected : UInt64)
    (ho : HandleOptions) : Act HandleError (C × Result S E) := do
  let m ← fillMeta m
  let res ← ExceptT.mk (attempts (R.handleOnce sid cmd m now expected ho) 0 R.retries)
  pure (cmd, res)

variable {R}

/-- After the clock comes the check of the decision time, and nothing before it. -/
theorem afterClock_handleAt (sid : StreamID) (cmd : C) (m : Meta) (expected : UInt64)
    (ho : HandleOptions) (now : Time) :
    afterClock now (R.handleAt sid cmd m expected ho).run =
      some (match R.stampCommand now cmd with
        | .error err => .ret (.error err)
        | .ok cmd => (R.handleStamped sid cmd m now expected ho).run) := by
  show some (ofResult (R.stampCommand now cmd) >>= fun cmd =>
    R.handleStamped sid cmd m now expected ho).run = _
  cases R.stampCommand now cmd <;> rfl

/-- A load makes a call: it never returns at once. -/
theorem load_ne_ret (sid : StreamID) (r : Except LoadError (S × UInt64)) :
    (R.load sid 0 .zero).run ≠ .ret r := by
  unfold load seed
  cases R.snapshots <;> exact nofun

end Runtime

/-- A sequence returns at once only if its first program does. -/
theorem bind_ne_ret {α β : Type} {p : Prog Op Res α} (hp : ∀ a, p ≠ .ret a)
    (f : α → Prog Op Res β) (b : β) : p >>= f ≠ .ret b := by
  cases p with
  | ret a => exact absurd rfl (hp a)
  | call o k => exact nofun

/-- A command that is accepted makes a call: going on is never the same as an error. -/
theorem Runtime.handleStamped_ne_ret (sid : StreamID) (cmd : C) (m : Meta) (now : Time)
    (expected : UInt64) (ho : HandleOptions) (r : Except HandleError (C × Result S E)) :
    (R.handleStamped sid cmd m now expected ho).run ≠ .ret r := by
  have honce : ∀ m a, (R.handleOnce sid cmd m now expected ho).run ≠ .ret a := fun m =>
    bind_ne_ret (bind_ne_ret (Runtime.load_ne_ret sid) _) _
  have hattempts : ∀ m n a,
      attempts (R.handleOnce sid cmd m now expected ho) 0 n ≠ .ret a := by
    intro m n
    cases n <;> exact bind_ne_ret (honce m) _
  unfold handleStamped fillMeta
  by_cases hid : m.commandID = .zero 16
  · rw [if_pos hid]
    exact nofun
  · rw [if_neg hid]
    exact bind_ne_ret (hattempts _ _) _ r

/-- **The window of decision times is exact** for every clock reading `now` and every decision time `d`
other than the zero time, unless `d` is 2⁶³ ns or more ahead of the clock: up to there, and not beyond,
`HandleAt` goes on to load and decide, with the command stamped, if `d` is at most five minutes away,
and otherwise returns a `DecidedAtSkewError` without any other call. -/
theorem decision_window_iff {sid : StreamID} {cmd : C} {d : Time} (hd : R.decisionTime cmd = some d)
    (hne : d ≠ .zero) (m : Meta) (expected : UInt64) (ho : HandleOptions) (now : Time) :
    afterClock now (R.handleAt sid cmd m expected ho).run =
        some (if InWindow now d
          then (R.handleStamped sid (R.stampDecisionTime cmd now) m now expected ho).run
          else .ret (.error (.decidedAtSkew d now maxDecisionSkew))) ↔
      -2 ^ 63 < now.ns - d.ns := by
  have hzero : d.isZero = false := beq_eq_false_iff_ne.mpr hne
  have hstamp : R.stampCommand now cmd =
      if Runtime.skewed now d then .error (.decidedAtSkew d now maxDecisionSkew)
      else .ok (R.stampDecisionTime cmd now) := by
    simp only [Runtime.stampCommand, hd, hzero, Bool.false_eq_true, if_false]
  rw [Runtime.afterClock_handleAt, hstamp]
  constructor
  · intro h
    by_contra hfar
    have hfar : now.ns - d.ns ≤ -2 ^ 63 := not_lt.mp hfar
    -- the check passes, though the distance is far above five minutes
    have hout : ¬ InWindow now d := by
      have hmax : maxDecisionSkew.toInt = 300000000000 := by decide
      rw [InWindow, hmax, abs_of_neg (by omega)]
      omega
    rw [skewed_of_far_ahead hfar, if_neg Bool.false_ne_true, if_neg hout] at h
    exact Runtime.handleStamped_ne_ret _ _ _ _ _ _ _ (Option.some.inj h)
  · intro hnear
    by_cases hin : InWindow now d
    · rw [if_pos hin, if_neg (fun h => (skewed_iff hnear).mp h hin)]
    · rw [if_neg hin, if_pos ((skewed_iff hnear).mpr hin)]

/-- A counter whose command is the time at which it was decided. -/
def datedCounter : Runtime Nat Time Unit where
  decider :=
    { initial := 0
      decide := fun _ _ => .ok ([()], [])
      evolve := fun n _ => n + 1
      isTerminal := none }
  codec :=
    { encode := fun _ => .ok ⟨str "counter.v1.Incremented", 1, some [1]⟩
      decode := fun _ => .ok () }
  upcaster := none
  decisionTime cmd := some cmd
  stampDecisionTime _ now := now
  snapshots := none
  retries := 0
  verifyChain := false

/-- A command on the stream `counter:main` without ids of its own. -/
def incrementAt (decided : Time) : Prog Op Res (Except HandleError (Time × Result Nat Unit)) :=
  (datedCounter.handleAt counterMain decided
    ⟨.zero 16, .zero 16, .zero 16, ⟨str "user", str "alice"⟩⟩ 0 {}).run

/-- At the start of 2026, a command decided in 1700 is refused. -/
theorem decision_window_refused :
    afterClock ⟨1767225600000000000⟩ (incrementAt ⟨-8520336000000000000⟩) =
      some (.ret (.error (.decidedAtSkew ⟨-8520336000000000000⟩ ⟨1767225600000000000⟩
        maxDecisionSkew))) :=
  (decision_window_iff (R := datedCounter) (d := ⟨-8520336000000000000⟩) rfl (by decide) _ _ _
    ⟨1767225600000000000⟩).mpr (by decide)

/-- At the start of 2026, a command decided in 2400 goes on to load the stream, as if it had been
decided there and then. -/
theorem decision_window_overflow :
    ¬ InWindow ⟨1767225600000000000⟩ ⟨13569465600000000000⟩ ∧
      afterClock ⟨1767225600000000000⟩ (incrementAt ⟨13569465600000000000⟩) =
        some (datedCounter.handleStamped counterMain ⟨1767225600000000000⟩
          ⟨.zero 16, .zero 16, .zero 16, ⟨str "user", str "alice"⟩⟩ ⟨1767225600000000000⟩ 0 {}).run := by
  refine ⟨by decide, ?_⟩
  rw [incrementAt, Runtime.afterClock_handleAt]
  rfl

end Aggregate

end EsLite
