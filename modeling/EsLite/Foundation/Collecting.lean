import Mathlib.Data.List.Basic
import Mathlib.Data.List.Nodup
import Mathlib.Data.Set.Function

/-!
# Collecting entries

A loop that collects entries and stops at its first error is a fold in `Except`. `foldlM_induction`
is the rule for it: what holds before the loop and is kept by every iteration, with the elements
already passed in view, holds of the result.

The second part is about the labels of a collected list. Its entries have keys, all different, and
labels that depend on the entries in any way: `nodup_map_iff_injOn` says when the labels are
different too, in terms of the pairs of a key and a label alone.
-/

namespace EsLite

/-! ## Loops that may fail -/

section Loops

variable {ε σ α β : Type}

/-- A sequence of two computations succeeds when both do. -/
theorem bind_eq_ok {x : Except ε α} {f : α → Except ε β} {b : β} :
    x >>= f = .ok b ↔ ∃ a, x = .ok a ∧ f a = .ok b := by
  cases x with
  | error e => simp [bind, Except.bind]
  | ok a => simp [bind, Except.bind]

/-- What a computation returned, read off its success. -/
theorem exists_eq_ok {x : Except ε α} {f : α → β} {b : β} (h : x.toOption.map f = some b) :
    ∃ a, x = .ok a ∧ f a = b := by
  cases x with
  | error e => cases h
  | ok a => exact ⟨a, rfl, Option.some.inj h⟩

/-- **The rule for loops**: an assertion about the elements passed and the state, true at the start
and kept by every iteration that succeeds, is true of all elements at the end. -/
theorem foldlM_induction {P : List α → σ → Prop} {f : σ → α → Except ε σ} {xs : List α} {s t : σ}
    (h : xs.foldlM f s = .ok t) (start : P [] s)
    (step : ∀ done, ∀ x ∈ xs, ∀ s t, P done s → f s x = .ok t → P (done ++ [x]) t) : P xs t := by
  -- the assertion is carried from the elements passed so far to those and the rest
  have carry : ∀ (rest done : List α) (s : σ), (∀ x ∈ rest, x ∈ xs) → P done s →
      rest.foldlM f s = .ok t → P (done ++ rest) t := by
    intro rest
    induction rest with
    | nil =>
      intro done s _ hs h
      rw [List.foldlM_nil] at h
      cases h
      rwa [List.append_nil]
    | cons x rest ih =>
      intro done s hsub hs h
      rw [List.foldlM_cons] at h
      obtain ⟨m, hm, hrest⟩ := bind_eq_ok.mp h
      rw [List.append_cons]
      exact ih _ m (fun y hy => hsub y (List.mem_cons_of_mem x hy))
        (step done x (hsub x List.mem_cons_self) s m hs hm) hrest
  exact carry xs [] s (fun _ hx => hx) start h

end Loops

/-! ## Labels of keyed entries -/

section Labels

variable {ε κ ν : Type}

/-- **Different labels**: entries with different keys have different labels exactly when no two
keys come with one label. -/
theorem nodup_map_iff_injOn {key : ε → κ} {label : ε → ν} {xs : List ε} (hkeys : (xs.map key).Nodup) :
    (xs.map label).Nodup ↔ {x | x ∈ xs.map fun e => (key e, label e)}.InjOn Prod.snd := by
  rw [List.nodup_map_iff_inj_on (List.Nodup.of_map key hkeys)]
  constructor
  · rintro h ⟨k, l⟩ hx ⟨k', l'⟩ hy (rfl : l = l')
    obtain ⟨a, ha, hka⟩ := List.mem_map.mp hx
    obtain ⟨b, hb, hkb⟩ := List.mem_map.mp hy
    obtain ⟨rfl, hla⟩ := Prod.mk.inj hka
    obtain ⟨rfl, hlb⟩ := Prod.mk.inj hkb
    rw [h a ha b hb (hla.trans hlb.symm)]
  · intro h a ha b hb hab
    have hpair := h (List.mem_map_of_mem ha) (List.mem_map_of_mem hb) hab
    exact List.inj_on_of_nodup_map hkeys ha hb (Prod.mk.inj hpair).1

end Labels

end EsLite
