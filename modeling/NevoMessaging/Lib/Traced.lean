import Mathlib.Data.List.Basic

/-!
# Computations that leave a trace

A computation performs a list of events and then returns or throws. The events stay when it
throws, so what a program has done before an exception can be stated. A crash is a prefix of the
trace.

The rules bring a sequence of computations into the form `after es c`: the events that are over,
and what is still to come.
-/

structure Traced (E X α : Type) where
  trace : List E
  result : Except X α

namespace Traced

variable {E X α β : Type}

/-- The events `es`, and then `c`. -/
def after (es : List E) (c : Traced E X α) : Traced E X α := ⟨es ++ c.trace, c.result⟩

/-- `try c` with a handler that leaves the surrounding program; `next` goes on after the `try`. -/
def attempt (c : Traced E X α) (handler : X → Traced E X β) (next : α → Traced E X β) :
    Traced E X β :=
  match c.result with
  | .ok a => after c.trace (next a)
  | .error x => after c.trace (handler x)

def throw (x : X) : Traced E X α := ⟨[], .error x⟩

instance : Monad (Traced E X) where
  pure a := ⟨[], .ok a⟩
  bind c f := c.attempt throw f

def perform (es : List E) : Traced E X Unit := ⟨es, .ok ()⟩

@[simp] theorem trace_pure (a : α) : (pure a : Traced E X α).trace = [] := rfl
@[simp] theorem result_pure (a : α) : (pure a : Traced E X α).result = .ok a := rfl
@[simp] theorem trace_throw (x : X) : (throw x : Traced E X α).trace = [] := rfl
@[simp] theorem result_throw (x : X) : (throw x : Traced E X α).result = .error x := rfl
@[simp] theorem trace_after (es : List E) (c : Traced E X α) : (after es c).trace = es ++ c.trace :=
  rfl
@[simp] theorem result_after (es : List E) (c : Traced E X α) : (after es c).result = c.result :=
  rfl

@[simp] theorem after_after (es es' : List E) (c : Traced E X α) :
    after es (after es' c) = after (es ++ es') c := by
  simp only [after, List.append_assoc]

@[simp] theorem after_nil (c : Traced E X α) : after [] c = c := rfl

section Sequence

variable {c : Traced E X α} {f : α → Traced E X β}

theorem attempt_ok {a : α} (h : c.result = .ok a) (handler : X → Traced E X β) :
    c.attempt handler f = after c.trace (f a) := by
  rw [attempt, h]

theorem attempt_error {x : X} (h : c.result = .error x) (handler : X → Traced E X β) :
    c.attempt handler f = after c.trace (handler x) := by
  rw [attempt, h]

theorem bind_ok {a : α} (h : c.result = .ok a) : c >>= f = after c.trace (f a) :=
  attempt_ok h throw

theorem bind_error {x : X} (h : c.result = .error x) : c >>= f = after c.trace (throw x) :=
  attempt_error h throw

@[simp] protected theorem pure_bind (a : α) : (pure a : Traced E X α) >>= f = f a :=
  bind_ok (result_pure a)

@[simp] theorem throw_bind (x : X) : (throw x : Traced E X α) >>= f = throw x :=
  bind_error (result_throw x)

@[simp] theorem perform_bind (es : List E) (g : Unit → Traced E X β) :
    perform es >>= g = after es (g ()) :=
  bind_ok rfl

@[simp] theorem perform_attempt (es : List E) (handler : X → Traced E X β)
    (g : Unit → Traced E X β) : (perform es).attempt handler g = after es (g ()) :=
  attempt_ok rfl handler

@[simp] theorem after_bind (es : List E) : after es c >>= f = after es (c >>= f) := by
  cases h : c.result with
  | ok a => rw [bind_ok h, bind_ok (c := after es c) h, trace_after, after_after]
  | error x => rw [bind_error h, bind_error (c := after es c) h, trace_after, after_after]

theorem result_bind_ok {b : β} (h : (c >>= f).result = .ok b) :
    ∃ a, c.result = .ok a ∧ (f a).result = .ok b := by
  cases hc : c.result with
  | ok a =>
    rw [bind_ok hc] at h
    exact ⟨a, rfl, h⟩
  | error x =>
    rw [bind_error hc] at h
    cases h

theorem mem_trace_attempt {e : E} {handler : X → Traced E X β}
    (h : e ∈ (c.attempt handler f).trace) :
    e ∈ c.trace ∨ (∃ x, c.result = .error x ∧ e ∈ (handler x).trace) ∨
      ∃ a, c.result = .ok a ∧ e ∈ (f a).trace := by
  cases hc : c.result with
  | ok a =>
    rw [attempt_ok hc] at h
    exact (List.mem_append.mp h).imp_right fun he => .inr ⟨a, rfl, he⟩
  | error x =>
    rw [attempt_error hc] at h
    exact (List.mem_append.mp h).imp_right fun he => .inl ⟨x, rfl, he⟩

theorem mem_trace_bind {e : E} (h : e ∈ (c >>= f).trace) :
    e ∈ c.trace ∨ ∃ a, c.result = .ok a ∧ e ∈ (f a).trace := by
  rcases mem_trace_attempt h with he | ⟨x, -, he⟩ | he
  · exact .inl he
  · exact absurd he List.not_mem_nil
  · exact .inr he

end Sequence

end Traced
