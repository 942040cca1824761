import Mathlib.Data.List.Basic

/-! # Machines fed in chunks

A machine takes its input piece by piece, writes output and may fail. A machine over chunks that
agrees with one over single symbols does not see where its input was cut. -/
namespace ChunkedRuns

variable {σ β γ ε : Type*}

section Resuming

/-- Go on from where a step has left off, with what was written before in front. -/
def resume (r : Except ε (List γ × σ)) (next : σ → Except ε (List γ × σ)) :
    Except ε (List γ × σ) :=
  match r with
  | .error e => .error e
  | .ok (out, s) =>
    match next s with
    | .error e => .error e
    | .ok (later, s') => .ok (out ++ later, s')

theorem resume_silent (s : σ) (next : σ → Except ε (List γ × σ)) :
    resume (.ok ([], s)) next = next s := by
  rw [resume]
  rcases next s with e | ⟨later, s'⟩ <;> rfl

theorem resume_done (r : Except ε (List γ × σ)) : resume r (fun s => .ok ([], s)) = r := by
  rcases r with e | ⟨out, s⟩
  · rfl
  · simp only [resume, List.append_nil]

theorem resume_assoc (r : Except ε (List γ × σ)) (f g : σ → Except ε (List γ × σ)) :
    resume (resume r f) g = resume r fun s => resume (f s) g := by
  rcases r with e | ⟨out, s⟩
  · rfl
  · simp only [resume]
    rcases f s with e | ⟨out', s'⟩
    · rfl
    · dsimp only
      rcases g s' with e | ⟨out'', s''⟩
      · rfl
      · simp only [List.append_assoc]

theorem resume_resume (a b : List γ) (s s' : σ) (next : σ → Except ε (List γ × σ)) :
    resume (.ok (a, s)) (fun _ => resume (.ok (b, s')) next) = resume (.ok (a ++ b, s')) next := by
  simp only [resume]
  rcases next s' with e | ⟨later, s''⟩
  · rfl
  · simp only [List.append_assoc]

end Resuming

section Runs

variable (step : σ → β → Except ε (List γ × σ))

def run : σ → List β → Except ε (List γ × σ)
  | s, [] => .ok ([], s)
  | s, b :: rest => resume (step s b) fun s' => run s' rest

theorem run_append (s : σ) (a b : List β) :
    run step s (a ++ b) = resume (run step s a) fun s' => run step s' b := by
  induction a generalizing s with
  | nil => rw [List.nil_append, run, resume_silent]
  | cons x rest ih =>
    rw [List.cons_append, run, run, resume_assoc]
    simp only [ih]

variable {step}

theorem run_cons_ok {s s' : σ} {b : β} {rest : List β} {sent : List γ}
    (h : run step s (b :: rest) = .ok (sent, s')) :
    ∃ out s₁ later, step s b = .ok (out, s₁) ∧ run step s₁ rest = .ok (later, s') ∧
      sent = out ++ later := by
  rw [run] at h
  rcases hstep : step s b with e | ⟨out, s₁⟩
  · rw [hstep] at h
    cases h
  · rw [hstep, resume] at h
    rcases hrest : run step s₁ rest with e | ⟨later, s₂⟩
    · rw [hrest] at h
      cases h
    · rw [hrest] at h
      cases h
      exact ⟨out, s₁, later, rfl, hrest, rfl⟩

/-- What one step keeps, a whole run keeps. -/
theorem run_invariant {P : σ → Prop}
    (hstep : ∀ {s b out s'}, P s → step s b = .ok (out, s') → P s') :
    ∀ {input : List β} {s s' : σ} {sent : List γ}, P s → run step s input = .ok (sent, s') → P s'
  | [], s, s', sent, hs, h => by
    cases h
    exact hs
  | b :: rest, s, s', sent, hs, h => by
    obtain ⟨out, s₁, later, hone, hrest, -⟩ := run_cons_ok h
    exact run_invariant hstep (hstep hs hone) hrest

/-- A machine over chunks that takes each chunk symbol by symbol sees only the symbols. -/
theorem run_flatten {feed : σ → List β → Except ε (List γ × σ)} {P : σ → Prop}
    (hfeed : ∀ {s}, P s → ∀ chunk, feed s chunk = run step s chunk)
    (hstep : ∀ {s b out s'}, P s → step s b = .ok (out, s') → P s') :
    ∀ {s : σ}, P s → ∀ chunks : List (List β), run feed s chunks = run step s chunks.flatten := by
  intro s hs chunks
  induction chunks generalizing s with
  | nil => rfl
  | cons chunk rest ih =>
    rw [List.flatten_cons, run_append, run, hfeed hs]
    rcases hchunk : run step s chunk with e | ⟨out, s₁⟩
    · rfl
    · rw [resume, resume, ih (run_invariant hstep hs hchunk)]

end Runs

end ChunkedRuns
