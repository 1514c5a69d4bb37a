import Mathlib.Computability.StateTransition

/-!
# Machines that are observed alike

Two machines that take their states to the next one, or halt, and what is observed of their states. A machine may take
several steps for one of the other, so that what is observed in between is observed of the other by and by.

## What is proved

* `respects_comp` — a simulation of a simulation.
* `Alike.of_respects` — **a simulation whose states are observed alike**: the machines come to the same, and all that is
  observed of a run of the one is observed of one of the other.
-/

namespace Simulation

open StateTransition Relation

variable {S T U O : Type*} {f : S → Option S} {g : T → Option T} {h : U → Option U} {R : S → T → Prop}
  {Q : T → U → Prop}

/-- **A simulation of a simulation.** -/
theorem respects_comp (hR : Respects f g R) (hQ : Respects g h Q) : Respects f h (Relation.Comp R Q) := by
  rintro a c ⟨b, hab, hbc⟩
  have hstep := hR hab
  match ha : f a with
  | none =>
    rw [ha] at hstep
    have hhalt := hQ hbc
    rwa [show g b = none from hstep] at hhalt
  | some a' =>
    rw [ha] at hstep
    obtain ⟨b', hab', hreach⟩ := hstep
    obtain ⟨c', hbc', hreach'⟩ := tr_reaches₁ hQ hbc hreach
    exact ⟨c', ⟨b', hab', hbc'⟩, hreach'⟩

/-- Two runs that are observed alike. -/
structure Alike (f : S → Option S) (g : T → Option T) (obs : S → O) (obs' : T → O) (a : S) (b : T) : Prop where
  /-- One halts where the other does, and the same is observed then. -/
  result : (eval g b).map obs' = (eval f a).map obs
  forth : ∀ c, Reaches f a c → ∃ d, Reaches g b d ∧ obs' d = obs c
  /-- What is observed of the second run is soon observed of the first. -/
  back : ∀ d, Reaches g b d → ∃ c d', Reaches g d d' ∧ Reaches f a c ∧ obs' d' = obs c

variable {obs : S → O} {obs' : T → O} {a : S} {b b' : T}

/-- **A simulation whose states are observed alike**, from where the second machine comes to it. -/
theorem Alike.of_respects (hR : Respects f g R) (hobs : ∀ c d, R c d → obs' d = obs c) (hb : Reaches g b b')
    (hab : R a b') : Alike f g obs obs' a b where
  result := by
    rw [reaches_eval hb]
    refine Part.ext fun x => ?_
    rw [Part.mem_map_iff, Part.mem_map_iff]
    constructor
    · rintro ⟨d, hd, rfl⟩
      obtain ⟨c, hcd, hc⟩ := tr_eval_rev hR hab hd
      exact ⟨c, hc, (hobs c d hcd).symm⟩
    · rintro ⟨c, hc, rfl⟩
      obtain ⟨d, hcd, hd⟩ := tr_eval hR hab hc
      exact ⟨d, hd, hobs c d hcd⟩
  forth c hc := by
    obtain ⟨d, hcd, hd⟩ := tr_reaches hR hab hc
    exact ⟨d, hb.trans hd, hobs c d hcd⟩
  back d hd := by
    obtain hd | hd := reaches_total hb hd
    · obtain ⟨c, d', hd', hcd, hc⟩ := tr_reaches_rev hR hab hd
      exact ⟨c, d', hd', hc, hobs c d' hcd⟩
    · exact ⟨a, b', hd, ReflTransGen.refl, hobs a b' hab⟩

end Simulation
