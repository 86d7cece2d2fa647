import Mathlib.Data.List.Induction

/-!
# Traces

A trace is a list that only grows at its end. `Lawful ok l` says that every entry of `l`
was allowed by the entries before it; a system that checks `ok` whenever it adds an entry
has a lawful trace at all times.

A monitor reads a trace from its start and keeps what it needs to know of the past in a state of
its own. `Obeys` says that it allows every entry; if its state covers the past, the trace is
lawful.
-/

namespace Trace

open List

variable {α : Type} {ok ok' : List α → α → Prop} {l : List α} {a : α}

def Lawful (ok : List α → α → Prop) (l : List α) : Prop :=
  ∀ pre a post, l = pre ++ a :: post → ok pre a

theorem lawful_nil : Lawful ok [] := by
  intro pre a post h
  simp at h

theorem Lawful.snoc (h : Lawful ok l) (ha : ok l a) : Lawful ok (l ++ [a]) := by
  intro pre b post heq
  cases post using reverseRecOn with
  | nil =>
    obtain ⟨rfl, hab⟩ := append_inj' heq rfl
    cases hab
    exact ha
  | append_singleton post c =>
    rw [← cons_append, ← append_assoc] at heq
    exact h pre b post (append_inj' heq rfl).1

theorem Lawful.append {m : List α} (h : Lawful ok l)
    (hm : ∀ pre a post, m = pre ++ a :: post → ok (l ++ pre) a) : Lawful ok (l ++ m) := by
  induction m using reverseRecOn with
  | nil => exact (append_nil l).symm ▸ h
  | append_singleton m a ih =>
    rw [← append_assoc]
    refine (ih fun pre b post heq => ?_).snoc (hm m a [] rfl)
    exact hm pre b (post ++ [a]) (by simp [heq])

theorem Lawful.append_free {m : List α} (h : Lawful ok l) (hm : ∀ a ∈ m, ∀ past, ok past a) :
    Lawful ok (l ++ m) :=
  h.append fun pre a _ heq => hm a (heq ▸ mem_append_right pre mem_cons_self) _

theorem Lawful.imp (h : Lawful ok l) (himp : ∀ pre a, a ∈ l → ok pre a → ok' pre a) :
    Lawful ok' l := by
  rintro pre a post rfl
  exact himp pre a (by simp) (h pre a post rfl)

theorem Lawful.pairwise {R : α → α → Prop} (h : Lawful ok l)
    (hR : ∀ pre a, ok pre a → ∀ b ∈ pre, R b a) : l.Pairwise R := by
  induction l using reverseRecOn with
  | nil => exact List.Pairwise.nil
  | append_singleton l a ih =>
    refine pairwise_append.mpr ⟨ih fun pre b post heq => ?_, pairwise_singleton R a, ?_⟩
    · exact h pre b (post ++ [a]) (by simp [heq])
    · intro b hb c hc
      rw [mem_singleton.mp hc]
      exact hR l a (h l a [] rfl) b hb

theorem getElem?_snoc_ne {d : Nat} (h : d ≠ l.length) : (l ++ [a])[d]? = l[d]? := by
  rcases Nat.lt_or_gt_of_ne h with hlt | hgt
  · exact getElem?_append_left hlt
  · have hlen : (l ++ [a]).length ≤ d := by
      rw [length_append, length_singleton]
      exact hgt
    rw [getElem?_eq_none hlen, getElem?_eq_none (Nat.le_of_lt hgt)]

/-! ## Monitors -/

section Monitor

variable {B : Type} (next : B → α → B) (allows : B → α → Prop)

def Obeys : B → List α → Prop
  | _, [] => True
  | b, a :: l => allows b a ∧ Obeys (next b a) l

variable {next allows}

theorem obeys_append {b : B} {m : List α} : Obeys next allows b (l ++ m) ↔
    Obeys next allows b l ∧ Obeys next allows (l.foldl next b) m := by
  induction l generalizing b with
  | nil => exact (iff_of_eq (true_and _)).symm
  | cons a l ih =>
    rw [cons_append, Obeys, Obeys, ih, foldl_cons, and_assoc]

theorem Obeys.take {b : B} {m : List α} (h : Obeys next allows b m) (hl : l <+: m) :
    Obeys next allows b l := by
  obtain ⟨r, rfl⟩ := hl
  exact (obeys_append.mp h).1

theorem Obeys.exists_allows {b : B} (h : Obeys next allows b l) (ha : a ∈ l) : ∃ b, allows b a := by
  obtain ⟨pre, post, rfl⟩ := append_of_mem ha
  exact ⟨_, (obeys_append.mp h).2.1⟩

theorem foldl_of_forall {b : B} (h : ∀ a ∈ l, next b a = b) : l.foldl next b = b := by
  induction l with
  | nil => rfl
  | cons a l ih =>
    rw [foldl_cons, h a mem_cons_self]
    exact ih fun c hc => h c (mem_cons_of_mem a hc)

theorem obeys_of_forall {b : B} (hnext : ∀ a ∈ l, next b a = b) (h : ∀ a ∈ l, allows b a) :
    Obeys next allows b l := by
  induction l with
  | nil => trivial
  | cons a l ih =>
    refine ⟨h a mem_cons_self, ?_⟩
    rw [hnext a mem_cons_self]
    exact ih (fun c hc => hnext c (mem_cons_of_mem a hc))
      fun c hc => h c (mem_cons_of_mem a hc)

theorem Obeys.lawful (covers : B → List α → Prop) {b : B}
    (hstep : ∀ b past a, covers b past → allows b a →
      ok past a ∧ covers (next b a) (past ++ [a]))
    (hb : covers b []) (h : Obeys next allows b l) : Lawful ok l := by
  suffices hgen : ∀ m past b, Lawful ok past → covers b past → Obeys next allows b m →
      Lawful ok (past ++ m) from hgen l [] b lawful_nil hb h
  intro m
  induction m with
  | nil => exact fun past b hpast _ _ => (append_nil past).symm ▸ hpast
  | cons a m ih =>
    intro past b hpast hcov hobeys
    obtain ⟨hok, hcov'⟩ := hstep b past a hcov hobeys.1
    rw [append_cons]
    exact ih (past ++ [a]) (next b a) (hpast.snoc hok) hcov' hobeys.2

end Monitor

end Trace
