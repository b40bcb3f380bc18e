import Mathlib.Tactic.Common

/-! Runs of a machine that moves on events.

`run` is the state after a list of events and `trace` what the run shows, event by
event. Every property of whole runs in this development comes from one step lemma
through one of the rules here: `run_invariant` for facts about states,
`run_history` for facts that relate the state to all that was shown before,
`run_project` and `trace_project` for a machine that is a part of a larger one. -/
namespace CofferLed.Library

section
variable {σ ε ο : Type} (step : ε → σ → σ) (observe : ε → σ → List ο)

def run (s : σ) : List ε → σ
  | [] => s
  | e :: rest => run (step e s) rest

/-- What each event shows depends on the state that event finds. -/
def trace (s : σ) : List ε → List ο
  | [] => []
  | e :: rest => observe e s ++ trace (step e s) rest

theorem run_append (s : σ) (a b : List ε) : run step s (a ++ b) = run step (run step s a) b := by
  induction a generalizing s with
  | nil => rfl
  | cons e rest ih => exact ih _

theorem run_map {δ : Type} (g : δ → ε) (s : σ) (events : List δ) :
    run step s (events.map g) = run (fun e => step (g e)) s events := by
  induction events generalizing s with
  | nil => rfl
  | cons e rest ih => exact ih _

theorem trace_append (s : σ) (a b : List ε) :
    trace step observe s (a ++ b) =
      trace step observe s a ++ trace step observe (run step s a) b := by
  induction a generalizing s with
  | nil => rfl
  | cons e rest ih => simp only [List.cons_append, trace, run, ih, List.append_assoc]

variable {step observe}

/-- What every step keeps, every run keeps. -/
theorem run_invariant (Inv : σ → Prop) (keep : ∀ e s, Inv s → Inv (step e s)) (s : σ)
    (h : Inv s) (events : List ε) : Inv (run step s events) := by
  induction events generalizing s with
  | nil => exact h
  | cons e rest ih => exact ih _ (keep e s h)

/-- A relation between the state and all that was shown so far: enough that it holds
at the start and that a step keeps it, whatever the past. -/
theorem run_history (Rel : List ο → σ → Prop)
    (keep : ∀ past e s, Rel past s → Rel (past ++ observe e s) (step e s)) (s : σ)
    (h : Rel [] s) (events : List ε) : Rel (trace step observe s events) (run step s events) := by
  suffices from_past : ∀ past s, Rel past s →
      Rel (past ++ trace step observe s events) (run step s events) from from_past [] s h
  clear h s
  induction events with
  | nil =>
    intro past s h
    simpa [trace, run] using h
  | cons e rest ih =>
    intro past s h
    have next := ih (past ++ observe e s) (step e s) (keep past e s h)
    simpa only [trace, run, List.append_assoc] using next

/-- What every step keeps shows nothing, if nothing is shown while it holds. -/
theorem trace_eq_nil (Inv : σ → Prop) (keep : ∀ e s, Inv s → Inv (step e s))
    (quiet : ∀ e s, Inv s → observe e s = []) (s : σ) (h : Inv s) (events : List ε) :
    trace step observe s events = [] := by
  induction events generalizing s with
  | nil => rfl
  | cons e rest ih =>
    rw [trace, quiet e s h, ih _ (keep e s h), List.nil_append]

/-- A machine that moves on each event as a part of a larger one does. -/
theorem run_project {τ : Type} {step' : ε → τ → τ} (part : σ → τ)
    (commutes : ∀ e s, part (step e s) = step' e (part s)) (s : σ) (events : List ε) :
    part (run step s events) = run step' (part s) events := by
  induction events generalizing s with
  | nil => rfl
  | cons e rest ih => rw [run, run, ih, commutes]

theorem trace_project {τ : Type} {step' : ε → τ → τ} {observe' : ε → τ → List ο} (part : σ → τ)
    (commutes : ∀ e s, part (step e s) = step' e (part s))
    (shows : ∀ e s, observe e s = observe' e (part s)) (s : σ) (events : List ε) :
    trace step observe s events = trace step' observe' (part s) events := by
  induction events generalizing s with
  | nil => rfl
  | cons e rest ih => rw [trace, trace, ih, shows, commutes]

end

end CofferLed.Library
