import Mathlib.Data.List.Basic

/-! # Frames drained from a buffer in batches

A reader looks at the front of a buffer: it waits for more, takes a frame, or finds something
bad. Whoever calls it drains the buffer after each push, up to the first bad frame. A reader whose
answer does not change when more input arrives gives the same frames however the input was cut. -/
namespace BatchedFrames

open List

variable {β μ ε : Type*}

inductive Reading (β μ ε : Type*) where
  | waiting
  | frame (message : μ) (rest : List β)
  | bad (error : ε) (rest : List β)

/-- A frame is read from its own symbols alone; more input neither takes back a frame nor a
failure. -/
structure FrameReader (β μ ε : Type*) where
  read : List β → Reading β μ ε
  shrinks : ∀ {b m r}, read b = .frame m r → r.length < b.length
  isolated : ∀ {b m r}, read b = .frame m r → ∃ p, b = p ++ r ∧ ∀ x, read (p ++ x) = .frame m x
  stuck : ∀ {b e r}, read b = .bad e r → ∀ x, ∃ r', read (b ++ x) = .bad e r'

/-- What ended a batch: the input ran out, or a frame was bad. -/
inductive Stop (β ε : Type*) where
  | waiting (rest : List β)
  | bad (error : ε) (rest : List β)

section Draining

def drainWithin (read : List β → Reading β μ ε) : ℕ → List β → List μ × Stop β ε
  | 0, b => ([], .waiting b)
  | fuel + 1, b =>
    match read b with
    | .waiting => ([], .waiting b)
    | .bad e r => ([], .bad e r)
    | .frame m r =>
      let (ms, stop) := drainWithin read fuel r
      (m :: ms, stop)

def drain (read : List β → Reading β μ ε) (b : List β) : List μ × Stop β ε :=
  drainWithin read (b.length + 1) b

section Shrinking

variable {read : List β → Reading β μ ε}

/-- Every frame takes something off the buffer. -/
def Shrinks (read : List β → Reading β μ ε) : Prop :=
  ∀ {b m r}, read b = .frame m r → r.length < b.length

theorem drainWithin_enough (hread : Shrinks read) {b : List β} {fuel more : ℕ}
    (hfuel : b.length < fuel) (hmore : b.length < more) :
    drainWithin read fuel b = drainWithin read more b := by
  induction fuel generalizing b more with
  | zero => omega
  | succ fuel ih =>
    obtain ⟨more, rfl⟩ := Nat.exists_eq_add_of_lt (Nat.zero_lt_of_lt hmore)
    rw [Nat.zero_add, drainWithin, drainWithin]
    rcases hb : read b with _ | ⟨m, r⟩ | ⟨e, r⟩
    · rfl
    · have hshort := hread hb
      dsimp only
      rw [@ih r more (by omega) (by omega)]
    · rfl

theorem drain_waiting {b : List β} (h : read b = .waiting) : drain read b = ([], .waiting b) := by
  rw [drain, drainWithin, h]

theorem drain_bad {b r : List β} {e : ε} (h : read b = .bad e r) :
    drain read b = ([], .bad e r) := by
  rw [drain, drainWithin, h]

theorem drain_cons (hread : Shrinks read) {b r : List β} {m : μ} (h : read b = .frame m r) :
    drain read b = (m :: (drain read r).1, (drain read r).2) := by
  rw [drain, drainWithin, h, drain]
  dsimp only
  rw [drainWithin_enough hread (hread h) (Nat.lt_succ_self _)]

end Shrinking

variable {R : FrameReader β μ ε}

theorem drain_frame {b r : List β} {m : μ} (h : R.read b = .frame m r) :
    drain R.read b = (m :: (drain R.read r).1, (drain R.read r).2) :=
  drain_cons R.shrinks h

theorem drain_induction {P : List β → List μ → Stop β ε → Prop}
    (waiting : ∀ {b}, R.read b = .waiting → P b [] (.waiting b))
    (bad : ∀ {b e r}, R.read b = .bad e r → P b [] (.bad e r))
    (frame : ∀ {b m r ms stop}, R.read b = .frame m r → drain R.read r = (ms, stop) →
      P r ms stop → P b (m :: ms) stop)
    {b : List β} {ms : List μ} {stop : Stop β ε} (h : drain R.read b = (ms, stop)) :
    P b ms stop := by
  induction hn : b.length using Nat.strongRecOn generalizing b ms stop with
  | _ n ih =>
    rcases hread : R.read b with _ | ⟨m, r⟩ | ⟨e, r⟩
    · rw [drain_waiting hread] at h
      cases h
      exact waiting hread
    · rw [drain_frame hread] at h
      cases h
      have hshort := R.shrinks hread
      exact frame hread rfl (ih r.length (hn ▸ hshort) rfl rfl)
    · rw [drain_bad hread] at h
      cases h
      exact bad hread

/-- More input after a batch that ran out: the old frames, then those of the rest. -/
theorem drain_append {b r : List β} {ms : List μ} (h : drain R.read b = (ms, .waiting r))
    (x : List β) :
    drain R.read (b ++ x) = (ms ++ (drain R.read (r ++ x)).1, (drain R.read (r ++ x)).2) := by
  refine drain_induction
    (P := fun b ms stop => ∀ r, stop = .waiting r → drain R.read (b ++ x) =
      (ms ++ (drain R.read (r ++ x)).1, (drain R.read (r ++ x)).2)) ?_ ?_ ?_ h r rfl
  · rintro b - r ⟨⟩
    rfl
  · rintro b e r - r' ⟨⟩
  · rintro b m r ms stop hread - ih r' hstop
    obtain ⟨p, rfl, hp⟩ := R.isolated hread
    rw [append_assoc, drain_frame (hp _), ih r' hstop, cons_append]

theorem drain_stuck {b r : List β} {ms : List μ} {e : ε} (h : drain R.read b = (ms, .bad e r))
    (x : List β) : ∃ r', drain R.read (b ++ x) = (ms, .bad e r') := by
  refine drain_induction
    (P := fun b ms stop => ∀ r, stop = .bad e r → ∃ r', drain R.read (b ++ x) = (ms, .bad e r'))
    ?_ ?_ ?_ h r rfl
  · rintro b - r ⟨⟩
  · rintro b e r hread r' ⟨⟩
    obtain ⟨r', hr'⟩ := R.stuck hread x
    exact ⟨r', drain_bad hr'⟩
  · rintro b m r ms stop hread - ih r' hstop
    obtain ⟨p, rfl, hp⟩ := R.isolated hread
    obtain ⟨r'', hr''⟩ := ih r' hstop
    refine ⟨r'', ?_⟩
    rw [append_assoc, drain_frame (hp _), hr'']

/-- The symbols of the first frames of a batch make a batch of their own. -/
theorem drain_split {b : List β} {pre post : List μ} {stop : Stop β ε}
    (h : drain R.read b = (pre ++ post, stop)) :
    ∃ p q, b = p ++ q ∧ (∀ x, drain R.read (p ++ x) =
      (pre ++ (drain R.read x).1, (drain R.read x).2)) ∧ drain R.read q = (post, stop) := by
  induction pre generalizing b with
  | nil => exact ⟨[], b, rfl, fun _ => rfl, h⟩
  | cons m pre ih =>
    rcases hread : R.read b with _ | ⟨m', r⟩ | ⟨e, r⟩
    · rw [drain_waiting hread] at h
      cases h
    · rw [drain_frame hread] at h
      obtain ⟨⟨rfl, hms⟩, hstop⟩ : (m' = m ∧ (drain R.read r).1 = pre ++ post) ∧
          (drain R.read r).2 = stop := by
        simpa using h
      obtain ⟨p, q, rfl, hpre, hpost⟩ := ih (Prod.ext hms hstop)
      obtain ⟨p', hb, hp'⟩ := R.isolated hread
      refine ⟨p' ++ p, q, by rw [hb, append_assoc], fun x => ?_, hpost⟩
      rw [append_assoc, drain_frame (hp' _), hpre, cons_append]
    · rw [drain_bad hread] at h
      cases h

theorem drain_settled {b r : List β} {ms : List μ} (h : drain R.read b = (ms, .waiting r)) :
    R.read r = .waiting := by
  refine drain_induction
    (P := fun _ _ stop => ∀ r, stop = .waiting r → R.read r = .waiting) ?_ ?_ ?_ h r rfl
  · rintro b hread r ⟨⟩
    exact hread
  · rintro b e r - r' ⟨⟩
  · rintro b m r ms stop - - ih
    exact ih

end Draining

section Pushing

/-- Input pushed piece by piece, drained after each one, up to the first bad frame. -/
def drainChunks (read : List β → Reading β μ ε) : List β → List (List β) → List μ × Stop β ε
  | b, [] => ([], .waiting b)
  | b, chunk :: chunks =>
    match drain read (b ++ chunk) with
    | (ms, .bad e r) => (ms, .bad e r)
    | (ms, .waiting r) =>
      let (more, stop) := drainChunks read r chunks
      (ms ++ more, stop)

variable {R : FrameReader β μ ε}

/-- Pieces that together run out give what they give in one. -/
theorem drainChunks_flatten {b r : List β} {chunks : List (List β)} {ms : List μ}
    (hsettled : R.read b = .waiting) (h : drain R.read (b ++ chunks.flatten) = (ms, .waiting r)) :
    drainChunks R.read b chunks = (ms, .waiting r) := by
  induction chunks generalizing b ms with
  | nil =>
    rw [flatten_nil, append_nil, drain_waiting hsettled] at h
    rw [drainChunks, h]
  | cons chunk chunks ih =>
    rw [flatten_cons, ← append_assoc] at h
    rcases hfirst : drain R.read (b ++ chunk) with ⟨first, r' | ⟨e, r'⟩⟩
    · rw [drain_append hfirst] at h
      obtain ⟨hms, hstop⟩ := Prod.ext_iff.mp h
      have hrest := ih (drain_settled hfirst) (Prod.ext rfl hstop)
      rw [drainChunks, hfirst]
      dsimp only
      rw [hrest]
      exact Prod.ext hms rfl
    · obtain ⟨r'', hstuck⟩ := drain_stuck hfirst chunks.flatten
      rw [hstuck] at h
      cases h

theorem drainChunks_settled {b r : List β} {chunks : List (List β)} {ms : List μ}
    (hsettled : R.read b = .waiting) (h : drainChunks R.read b chunks = (ms, .waiting r)) :
    R.read r = .waiting := by
  induction chunks generalizing b ms with
  | nil =>
    cases h
    exact hsettled
  | cons chunk chunks ih =>
    rw [drainChunks] at h
    rcases hfirst : drain R.read (b ++ chunk) with ⟨first, r' | ⟨e, r'⟩⟩ <;> rw [hfirst] at h
    · dsimp only at h
      exact ih (drain_settled hfirst) (Prod.ext rfl (Prod.mk.inj h).2)
    · cases h

end Pushing

end BatchedFrames
