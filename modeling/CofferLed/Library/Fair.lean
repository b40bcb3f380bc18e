import CofferLed.Library.Runs

/-! Machines that get somewhere when everyone gets a turn.

Nothing is said about the order of events, only that each of them comes up again and again:
a run goes in rounds, and a round has every event in it that can help. What a machine owes
(`Progress`) is about one step: a number that never grows, and in every state an event that
makes it smaller, where any other event leaves both as they are. Then the goal is reached
within as many rounds as the number says (`Progress.reaches`). -/
namespace CofferLed.Library

variable {σ ε : Type}

/-- `left` is what is left to do before `Goal`, `helps` the event that does some of it. -/
structure Progress (step : ε → σ → σ) (Inv Goal : σ → Prop) (left : σ → Nat) (helps : σ → ε) :
    Prop where
  keep : ∀ e s, Inv s → Inv (step e s)
  moves : ∀ e s, Inv s → ¬ Goal s →
    Goal (step e s) ∨ left (step e s) < left s ∨
      (e ≠ helps s ∧ left (step e s) = left s ∧ helps (step e s) = helps s)

/-- The goal holds at some time in the run. -/
def Reached (step : ε → σ → σ) (Goal : σ → Prop) (s : σ) (events : List ε) : Prop :=
  ∃ before, before <+: events ∧ Goal (run step s before)

section
variable {step : ε → σ → σ} {Inv Goal : σ → Prop} {left : σ → Nat} {helps : σ → ε}

theorem Reached.now {s : σ} (h : Goal s) (events : List ε) : Reached step Goal s events :=
  ⟨[], List.nil_prefix, h⟩

theorem Reached.next {s : σ} {e : ε} {rest : List ε} (h : Reached step Goal (step e s) rest) :
    Reached step Goal s (e :: rest) := by
  obtain ⟨before, early, goal⟩ := h
  exact ⟨e :: before, List.cons_prefix_cons.mpr ⟨rfl, early⟩, goal⟩

theorem Reached.append {s : σ} {events : List ε} (h : Reached step Goal s events) (more : List ε) :
    Reached step Goal s (events ++ more) := by
  obtain ⟨before, early, goal⟩ := h
  exact ⟨before, early.trans (List.prefix_append _ _), goal⟩

theorem Reached.later {s : σ} {events more : List ε}
    (h : Reached step Goal (run step s events) more) : Reached step Goal s (events ++ more) := by
  obtain ⟨before, early, goal⟩ := h
  refine ⟨events ++ before, (List.prefix_append_right_inj events).mpr early, ?_⟩
  rwa [run_append]

namespace Progress

/-- What is left never grows on the way. -/
theorem left_le (p : Progress step Inv Goal left helps) (events : List ε) (s : σ) (inv : Inv s) :
    Reached step Goal s events ∨ left (run step s events) ≤ left s := by
  induction events generalizing s with
  | nil => exact .inr (Nat.le_refl _)
  | cons e rest ih =>
    by_cases goal : Goal s
    · exact .inl (.now goal _)
    rcases p.moves e s inv goal with there | less | ⟨-, same, -⟩
    · exact .inl (Reached.next (.now there _))
    · exact (ih _ (p.keep e s inv)).imp Reached.next fun le => Nat.le_of_lt (Nat.lt_of_le_of_lt le less)
    · exact (ih _ (p.keep e s inv)).imp Reached.next fun le => Nat.le_trans le (Nat.le_of_eq same)

/-- A round in which the helping event comes up does some of it. -/
theorem left_lt (p : Progress step Inv Goal left helps) (round : List ε) (s : σ) (inv : Inv s)
    (turn : helps s ∈ round) :
    Reached step Goal s round ∨ left (run step s round) < left s := by
  induction round generalizing s with
  | nil => cases turn
  | cons e rest ih =>
    by_cases goal : Goal s
    · exact .inl (.now goal _)
    have inv' := p.keep e s inv
    rcases p.moves e s inv goal with there | less | ⟨other, same, helps'⟩
    · exact .inl (Reached.next (.now there _))
    · exact (p.left_le rest _ inv').imp Reached.next fun le => Nat.lt_of_le_of_lt le less
    · have later : helps s ∈ rest := (List.mem_cons.mp turn).resolve_left (Ne.symm other)
      rw [← helps'] at later
      exact (ih _ inv' later).imp Reached.next fun lt => Nat.lt_of_lt_of_eq lt same

/-- With one round more than there is left to do, the goal is reached. -/
theorem reaches (p : Progress step Inv Goal left helps) (rounds : List (List ε))
    (fair : ∀ round ∈ rounds, ∀ s, helps s ∈ round) (s : σ) (inv : Inv s)
    (long : left s < rounds.length) : Reached step Goal s rounds.flatten := by
  induction rounds generalizing s with
  | nil => cases long
  | cons round rest ih =>
    rw [List.flatten_cons]
    rcases p.left_lt round s inv (fair round List.mem_cons_self s) with there | less
    · exact there.append _
    · refine (ih (fun other among => fair other (List.mem_cons_of_mem _ among)) _ ?_ ?_).later
      · exact run_invariant Inv p.keep s inv round
      · rw [List.length_cons] at long
        omega

end Progress

end

end CofferLed.Library
