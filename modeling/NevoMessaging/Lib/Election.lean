import Mathlib.Logic.Basic

/-!
# Leaders with leases

Callers run for the lead of keys. `leads c key` says that caller `c` leads a key, and a map holds
the leases that are out. A caller that finds a lease does not take the lead, and a leader gives its
lease back when it is done; so a key has one leader at most.

Results:
1. `Sound.turn`: a turn of one caller keeps at most one leader per key, each with its lease.
2. `Sound.idle`: a caller that leads nothing and touches no lease that is led keeps it as well.
-/

namespace Election

variable {C K V : Type} {m m' : K → Option V} {key : K} {before after : Bool}
  {leads leads' : C → K → Prop} {c : C}

/-- What a turn of a caller does to the map of leases; `before` and `after` say whether the caller
leads its key. -/
structure Turn (m m' : K → Option V) (key : K) (before after : Bool) : Prop where
  others : ∀ k ≠ key, m' k = m k
  held : after → (m' key).isSome
  opened : ¬ before → after → m key = none
  kept : ¬ before → (m key).isSome → (m' key).isSome

namespace Turn

theorem idle (ha : ¬ after) : Turn m m key before after :=
  ⟨fun _ _ => rfl, fun h => absurd h ha, fun _ h => absurd h ha, fun _ h => h⟩

theorem done (hothers : ∀ k ≠ key, m' k = m k) (ha : ¬ after) : Turn m m' key true after :=
  ⟨hothers, fun h => absurd h ha, fun h => absurd rfl h, fun h => absurd rfl h⟩

theorem same (hlease : (m key).isSome) : Turn m m key true after :=
  ⟨fun _ _ => rfl, fun _ => hlease, fun h => absurd rfl h, fun h => absurd rfl h⟩

theorem opens (hothers : ∀ k ≠ key, m' k = m k) (hnone : m key = none) (hsome : (m' key).isSome) :
    Turn m m' key before after :=
  ⟨hothers, fun _ => hsome, fun _ _ => hnone, fun _ _ => hsome⟩

end Turn

structure Sound (m : K → Option V) (leads : C → K → Prop) : Prop where
  lease : ∀ c key, leads c key → (m key).isSome
  sole : ∀ c d key, leads c key → leads d key → c = d

theorem Sound.turn (h : Sound m leads) (hturn : Turn m m' key before after)
    (hother : ∀ d ≠ c, ∀ k, leads' d k → leads d k)
    (hself : ∀ k, leads' c k → k = key ∧ after) (hbefore : before → leads c key) :
    Sound m' leads' := by
  -- a caller that leads the key beside `c` shows that `c` neither leads it nor gets to lead it
  have hnot {d : C} (hd : d ≠ c) (hl : leads d key) : ¬ before ∧ ¬ after := by
    have hb : ¬ before := fun hb => hd (h.sole d c key hl (hbefore hb))
    refine ⟨hb, fun ha => ?_⟩
    have hlease := h.lease d key hl
    rw [hturn.opened hb ha] at hlease
    cases hlease
  constructor
  · intro d k hl
    by_cases hd : d = c
    · subst hd
      obtain ⟨rfl, ha⟩ := hself k hl
      exact hturn.held ha
    · have hl := hother d hd k hl
      by_cases hk : k = key
      · subst hk
        exact hturn.kept (hnot hd hl).1 (h.lease d k hl)
      · rw [hturn.others k hk]
        exact h.lease d k hl
  · intro d e k hd he
    by_cases hdc : d = c
    · subst hdc
      by_cases hec : e = d
      · exact hec.symm
      · obtain ⟨rfl, ha⟩ := hself k hd
        exact absurd ha (hnot hec (hother e hec k he)).2
    · by_cases hec : e = c
      · subst hec
        obtain ⟨rfl, ha⟩ := hself k he
        exact absurd ha (hnot hdc (hother d hdc k hd)).2
      · exact h.sole d e k (hother d hdc k hd) (hother e hec k he)

theorem Sound.idle (h : Sound m leads) (hm : ∀ d k, leads d k → m' k = m k)
    (hleads : ∀ d k, leads' d k → leads d k) : Sound m' leads' := by
  constructor
  · intro d k hl
    rw [hm d k (hleads d k hl)]
    exact h.lease d k (hleads d k hl)
  · exact fun d e k hd he => h.sole d e k (hleads d k hd) (hleads e k he)

end Election
