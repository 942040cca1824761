import PraxisAi.ConcurrentLedger
import PraxisAi.TokenBucketLedger

/-! # The token bucket under concurrent calls

What every locked section keeps of a key's state holds in every interleaving: a reserve that has
judged the state still finds it as judged, because nobody else writes to it meanwhile. With it the
balances of the in-process bucket stay in range, whatever times the calls carry. -/
namespace ConcurrentBucket

open KeyedMaps ReservationLedger ConcurrentLedger

/-- What a reserve between counting and inserting is about: key, address, estimate and time. -/
def holding : Thread → Option (String × ℕ × ℕ × ℕ)
  | .inserting key addr estimate nowMs _ _ => some (key, addr, estimate, nowMs)
  | _ => none

variable {σ : Type} {P : KeyPolicy σ} {B : Bounds} {Q : σ → Prop} {w w' : World σ}
  {keys : KeyedMap String (Slot σ)} {threads : KeyedMap ℕ Thread} {key : String} {slot : Slot σ}

def Unlocked (threads : KeyedMap ℕ Thread) (key : String) : Prop :=
  ∀ tid c rest, threads.lookup tid = some c → holding c ≠ some (key, rest)

structure Guarded (P : KeyPolicy σ) (Q : σ → Prop) (keys : KeyedMap String (Slot σ))
    (threads : KeyedMap ℕ Thread) : Prop where
  states : ∀ key slot, keys.lookup key = some slot → Q slot.state
  judged : ∀ tid c key addr estimate t, threads.lookup tid = some c →
    holding c = some (key, addr, estimate, t) →
    ∃ s, keys.lookup key = some ⟨addr, s⟩ ∧ (P.judge t estimate s).exhausted = none
  alone : ∀ tid tid' c c' key rest rest', threads.lookup tid = some c →
    threads.lookup tid' = some c' → holding c = some (key, rest) →
    holding c' = some (key, rest') → tid = tid'

theorem Guarded.unlocked (h : Guarded P Q w.keys w.threads) (entry : w.keys.lookup key = some slot)
    (free : ¬w.Locked slot.addr) : Unlocked w.threads key := by
  rintro tid c ⟨addr, estimate, t⟩ hc hholding
  obtain ⟨s, hs, -⟩ := h.judged tid c key addr estimate t hc hholding
  cases c with
  | inserting key' addr' estimate' t' usageAfter remaining =>
    cases hholding
    cases entry.symm.trans hs
    exact free ⟨tid, key, estimate, t, usageAfter, remaining, hc⟩
  | _ => cases hholding

/-- A call moves on; it may take the lock of a key whose state it has judged. -/
theorem Guarded.run_to (h : Guarded P Q keys threads) (tid : ℕ) {next : Thread}
    (hnext : ∀ key addr estimate t, holding next = some (key, addr, estimate, t) →
      Unlocked threads key ∧
        ∃ s, keys.lookup key = some ⟨addr, s⟩ ∧ (P.judge t estimate s).exhausted = none) :
    Guarded P Q keys (threads.insert tid next) := by
  have hlookup : ∀ {tid' c}, (threads.insert tid next).lookup tid' = some c →
      tid' = tid ∧ c = next ∨ threads.lookup tid' = some c := by
    intro tid' c hc
    by_cases htid : tid' = tid
    · subst htid
      rw [AList.lookup_insert] at hc
      exact .inl ⟨rfl, (Option.some.inj hc).symm⟩
    · exact .inr (by rwa [AList.lookup_insert_ne htid] at hc)
  refine ⟨h.states, fun tid' c key addr estimate t hc hholding => ?_,
    fun tid₁ tid₂ c₁ c₂ key rest₁ rest₂ h₁ h₂ hheld₁ hheld₂ => ?_⟩
  · rcases hlookup hc with ⟨-, rfl⟩ | hc
    · exact (hnext _ _ _ _ hholding).2
    · exact h.judged _ _ _ _ _ _ hc hholding
  · rcases hlookup h₁ with ⟨rfl, rfl⟩ | hold₁ <;> rcases hlookup h₂ with ⟨rfl, rfl⟩ | hold₂
    · rfl
    · exact absurd hheld₂ ((hnext _ _ _ _ hheld₁).1 _ _ _ hold₂)
    · exact absurd hheld₁ ((hnext _ _ _ _ hheld₂).1 _ _ _ hold₁)
    · exact h.alone _ _ _ _ _ _ _ hold₁ hold₂ hheld₁ hheld₂

theorem Guarded.run (h : Guarded P Q keys threads) (tid : ℕ) {next : Thread}
    (hnext : holding next = none) : Guarded P Q keys (threads.insert tid next) := by
  apply h.run_to
  intro key addr estimate t hholding
  cases hnext.symm.trans hholding

/-- The entry of a key that nobody holds changes. -/
theorem Guarded.change (h : Guarded P Q keys threads) (hfree : Unlocked threads key)
    {keys' : KeyedMap String (Slot σ)}
    (hsame : ∀ other ≠ key, keys'.lookup other = keys.lookup other)
    (hstate : ∀ slot, keys'.lookup key = some slot → Q slot.state) : Guarded P Q keys' threads := by
  refine ⟨fun other slot hslot => ?_, fun tid c other addr estimate t hc hholding => ?_, h.alone⟩
  · by_cases hother : other = key
    · exact hstate slot (hother ▸ hslot)
    · exact h.states other slot (hsame other hother ▸ hslot)
  · have hother : other ≠ key := by
      rintro rfl
      exact hfree tid c _ hc hholding
    rw [hsame other hother]
    exact h.judged tid c other addr estimate t hc hholding

theorem Guarded.put (h : Guarded P Q keys threads) (hfree : Unlocked threads key) (addr : ℕ) {s : σ}
    (hs : Q s) : Guarded P Q (keys.insert key ⟨addr, s⟩) threads := by
  refine h.change hfree (fun other hother => AList.lookup_insert_ne hother) fun slot hslot => ?_
  rw [AList.lookup_insert] at hslot
  cases hslot
  exact hs

theorem guarded_step (hQ : KeyInvariant P (fun _ => Q) fun _ _ => True) (ha : Arcs P B w)
    (h : Guarded P Q w.keys w.threads) (step : Step P B w w') :
    Guarded P Q w'.keys w'.threads := by
  -- the locked sections that leave the lock free: what they write satisfies the invariant
  have hreap : ∀ {key slot} o t, w.keys.lookup key = some slot → ¬w.Locked slot.addr →
      Guarded P Q (w.keys.insert key ⟨slot.addr, (P.touch o t slot.state).1⟩) w.threads :=
    fun o t entry free => h.put (h.unlocked entry free) _ (hQ.touch o (h.states _ _ entry))
  cases step with
  | @call tid c fresh starts => exact h.run tid (by cases c <;> first | rfl | cases starts)
  | createKey pc good vacant =>
    refine h.put ?_ _ (hQ.fresh 0)
    rintro tid c ⟨addr, estimate, t⟩ hc hholding
    obtain ⟨s, hs, -⟩ := h.judged tid c _ addr estimate t hc hholding
    cases vacant.symm.trans hs
  | exhausted pc good entry free =>
    rw [reap_attached entry]
    exact (hreap _ _ entry free).run _ rfl
  | activeFull pc good entry free =>
    rw [reap_attached entry]
    exact (hreap _ _ entry free).run _ rfl
  | count pc good entry free judged =>
    rw [reap_attached entry]
    refine (hreap _ _ entry free).run_to _ fun key' addr estimate t hholding => ?_
    cases hholding
    exact ⟨h.unlocked entry free, _, AList.lookup_insert _, judged⟩
  | @insert tid key addr estimate t usageAfter remaining s pc held =>
    obtain ⟨s₀, hentry, hjudged⟩ := h.judged tid _ key addr estimate t pc rfl
    have hsame : s = s₀ := Option.some.inj (held.symm.trans (deref_attached hentry))
    subst hsame
    have hwrite := write_attached (w := { w with
      reservations := w.reservations.insert w.nextId key
      nextId := w.nextId + 1
      admitted := w.nextId :: w.admitted }) hentry (P.hold w.nextId ⟨estimate, t⟩ s)
    rw [hwrite]
    refine (h.run tid rfl).put ?_ addr (hQ.hold _ _ (h.states _ _ hentry) hjudged)
    -- the one holder has given the lock back
    intro tid' c rest hc hholding
    by_cases htid : tid' = tid
    · rw [htid, AList.lookup_insert] at hc
      cases hc
      cases hholding
    · rw [AList.lookup_insert_ne htid] at hc
      exact htid (h.alone _ _ _ _ _ _ _ hc pc hholding rfl)
  | @settle tid id key addr actual t s r o pc held free active =>
    have hentry := ha.attached_of_active held fun he => by simp [he] at active
    simp only [World.write, World.forget, hentry, if_true]
    exact (h.put (h.unlocked hentry free) addr
      (hQ.settle o (h.states _ _ hentry) active trivial)).run tid rfl
  | sweep pc entry free =>
    rw [reap_attached entry]
    refine (hreap _ _ entry free).run _ ?_
    split <;> rfl
  | evict pc entry same free =>
    subst same
    refine (h.change (h.unlocked entry free) (fun other hother => AList.lookup_erase_ne hother)
      fun slot hslot => ?_).run _ rfl
    rw [AList.lookup_erase] at hslot
    cases hslot
  | _ => exact h.run _ rfl

/-- The rule for the keys' locks. -/
theorem reachable_guarded (hQ : KeyInvariant P (fun _ => Q) fun _ _ => True)
    (h : Reachable P B w) : Guarded P Q w.keys w.threads := by
  induction h with
  | new => constructor <;> intros <;> simp_all [World.new]
  | step hreach hstep ih => exact guarded_step hQ (reachable_invariant hreach).1 ih hstep

open TokenBucketLedger

/-- In every interleaving of calls on the token bucket, with any times: an admitted id has exactly
one fate, both counters are exact and bounded, and every balance is between zero and the
capacity. -/
theorem interleaved_balances (c : TokenBucketConfig) (valid : c.validate = .ok ())
    {w : World BucketState} (h : Reachable (policy c) c.bounds w) :
    (∀ id, w.applied.count id + w.reaped.count id + (w.activeIds (policy c)).count id =
        if id ∈ w.admitted then 1 else 0) ∧
      (w.activeReservations = (w.activeIds (policy c)).length + w.counted ∧
        w.activeReservations ≤ c.maxActiveReservations) ∧
      (w.keyCount = w.keys.keys.length ∧ w.keyCount ≤ c.maxKeys) ∧
      ∀ key slot, w.keys.lookup key = some slot →
        0 ≤ slot.state.tokens ∧ slot.state.tokens ≤ c.capacity := by
  obtain ⟨harcs, haccounts⟩ := reachable_invariant h
  refine ⟨haccounts.one_fate, ⟨haccounts.counter, haccounts.bounded⟩,
    ⟨harcs.keyCount, harcs.keysBounded⟩, fun key slot hslot => ?_⟩
  have hguarded := reachable_guarded (valid_invariant (refillRate_pos valid)) h
  exact ⟨(hguarded.states key slot hslot).nonneg, (hguarded.states key slot hslot).capped⟩

/-- Two reserves overlap on one key, and the first is settled above its estimate. -/
theorem overlapping_balances_in_range :
    let c : TokenBucketConfig := ⟨100, 10, 5000, 4, 8, 4⟩
    ∃ w slot, Reachable (policy c) c.bounds w ∧ w.admitted = [2, 1] ∧ w.applied = [1] ∧
      w.activeIds (policy c) = [2] ∧ w.keys.lookup "k" = some slot ∧
      0 ≤ slot.state.tokens ∧ slot.state.tokens ≤ (c.capacity : ℚ) := by
  intro c
  let P := policy c
  let v₁ := P.judge 0 60 P.fresh
  let s₁ : BucketState := P.hold 1 ⟨60, 0⟩ P.fresh
  let v₂ := P.judge 0 30 s₁
  let s₂ : BucketState := P.hold 2 ⟨30, 0⟩ s₁
  let w₁ : World BucketState := World.new.run 0 (.reserve "k" 60 0)
  let w₂ := { w₁ with keys := w₁.keys.insert "k" ⟨0, P.fresh⟩, nextAddr := 1, keyCount := 1 }
  let w₃ := { w₂.reap P "k" ⟨0, P.fresh⟩ .asStored 0 with activeReservations := 1 }.run 0
    (.inserting "k" 0 60 0 v₁.usageAfter v₁.remainingAfter)
  let w₄ := w₃.run 1 (.reserve "k" 30 0)
  let w₅ := ({ w₄ with
    keys := w₄.keys.insert "k" ⟨0, s₁⟩, reservations := w₄.reservations.insert 1 "k", nextId := 2
    admitted := [1] }).run 0
      (.returned (.decision (.admitted ⟨1, 60, 0, v₁.usageAfter, v₁.remainingAfter⟩)))
  let w₆ := { w₅.reap P "k" ⟨0, s₁⟩ .asStored 0 with activeReservations := 2 }.run 1
    (.inserting "k" 0 30 0 v₂.usageAfter v₂.remainingAfter)
  let w₇ := ({ w₆ with
    keys := w₆.keys.insert "k" ⟨0, s₂⟩, reservations := w₆.reservations.insert 2 "k", nextId := 3
    admitted := [2, 1] }).run 1
      (.returned (.decision (.admitted ⟨2, 30, 0, v₂.usageAfter, v₂.remainingAfter⟩)))
  let w₈ := w₇.run 2 (.reconcile 1 (some 70) 1000)
  let w₉ := { w₈ with reservations := w₈.reservations.erase 1 }.run 2 (.found 1 "k" (some 70) 1000)
  let w₁₀ := w₉.run 2 (.settling 1 "k" 0 (some 70) 1000)
  have h₁ : Reachable P c.bounds w₁ := .step .new (.call rfl trivial)
  have h₂ : Reachable P c.bounds w₂ := h₁.step (.createKey
    (rfl : w₁.threads.lookup 0 = some (.reserve "k" 60 0)) (by decide) rfl (by decide))
  have h₃ : Reachable P c.bounds w₃ := h₂.step (.count
    (rfl : w₂.threads.lookup 0 = some (.reserve "k" 60 0)) (by decide)
    (rfl : w₂.keys.lookup "k" = some ⟨0, P.fresh⟩) (not_locked rfl 0) (by decide +kernel)
    (by decide))
  have h₄ : Reachable P c.bounds w₄ := h₃.step (.call rfl trivial)
  have h₅ : Reachable P c.bounds w₅ := h₄.step (.insert
    (rfl : w₄.threads.lookup 0 = some (.inserting "k" 0 60 0 v₁.usageAfter v₁.remainingAfter))
    (rfl : w₄.deref "k" 0 = some P.fresh))
  have h₆ : Reachable P c.bounds w₆ := h₅.step (.count
    (rfl : w₅.threads.lookup 1 = some (.reserve "k" 30 0)) (by decide)
    (rfl : w₅.keys.lookup "k" = some ⟨0, s₁⟩) (not_locked rfl 0) (by decide +kernel) (by decide))
  have h₇ : Reachable P c.bounds w₇ := h₆.step (.insert
    (rfl : w₆.threads.lookup 1 = some (.inserting "k" 0 30 0 v₂.usageAfter v₂.remainingAfter))
    (rfl : w₆.deref "k" 0 = some s₁))
  have h₈ : Reachable P c.bounds w₈ := h₇.step (.call rfl trivial)
  have h₉ : Reachable P c.bounds w₉ := h₈.step
    (.takeId (rfl : w₈.threads.lookup 2 = some (.reconcile 1 (some 70) 1000)) rfl)
  have h₁₀ : Reachable P c.bounds w₁₀ := h₉.step (.cloneArc
    (rfl : w₉.threads.lookup 2 = some (.found 1 "k" (some 70) 1000))
    (rfl : w₉.keys.lookup "k" = some ⟨0, s₂⟩))
  have h₁₁ := h₁₀.step (.settle (o := .asStored)
    (rfl : w₁₀.threads.lookup 2 = some (.settling 1 "k" 0 (some 70) 1000))
    (rfl : w₁₀.deref "k" 0 = some s₂) (not_locked rfl 0)
    (rfl : (P.active s₂).lookup 1 = some ⟨60, 0⟩))
  have hbalances := (interleaved_balances c (by decide +kernel) h₁₁).2.2.2 "k"
  exact ⟨_, _, h₁₁, rfl, rfl, rfl, rfl, hbalances _ rfl⟩

end ConcurrentBucket
