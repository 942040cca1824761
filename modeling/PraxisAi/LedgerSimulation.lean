import PraxisAi.LedgerViews

/-! # Lockstep simulation of two reservation ledgers

Two key policies that keep the same reservations active and judge related states alike
give ledgers with the same replies. A key that is absent counts as a fresh one, so the
ledgers need not retain the same keys: only the bound on keys can then tell them apart. -/
namespace LedgerSimulation

open KeyedMaps ReservationLedger LedgerViews

variable {σ τ : Type} (P : KeyPolicy σ) (Q : KeyPolicy τ)

structure KeySimulation (R : ℕ → σ → τ → Prop) : Prop where
  fresh : ∀ t, R t P.fresh Q.fresh
  later : ∀ {t u s v}, t ≤ u → R t s v → R u s v
  active : ∀ {t s v}, R t s v → P.active s = Q.active v
  touch : ∀ {t s v} o, R t s v →
    R t (P.touch o t s).1 (Q.touch o t v).1 ∧ (P.touch o t s).2 = (Q.touch o t v).2
  judge : ∀ {t s v} estimate, R t s v → P.judge t estimate s = Q.judge t estimate v
  hold : ∀ {t s v} id r, R t s v → R t (P.hold id r s) (Q.hold id r v)
  settle : ∀ {t s v} o id r actual, R t s v →
    R t (P.settle o t r actual (P.release id s)).1 (Q.settle o t r actual (Q.release id v)).1 ∧
      (P.settle o t r actual (P.release id s)).2 = (Q.settle o t r actual (Q.release id v)).2
  evict : ∀ {t s v}, R t s v → P.isEmpty s = true → R t P.fresh v
  evict' : ∀ {t s v}, R t s v → Q.isEmpty v = true → R t s Q.fresh
  absent : ∀ {t v} o, R t (P.touch o t P.fresh).1 v → R t P.fresh v
  absent' : ∀ {t s} o, R t s (Q.touch o t Q.fresh).1 → R t s Q.fresh

structure Related (R : ℕ → σ → τ → Prop) (t : ℕ) (L : Ledger σ) (M : Ledger τ) : Prop where
  keys : ∀ key, R t (view P L key) (view Q M key)
  reservations : L.reservations = M.reservations
  nextId : L.nextId = M.nextId
  activeReservations : L.activeReservations = M.activeReservations

variable {P Q} {R : ℕ → σ → τ → Prop} {B : Bounds} {t n : ℕ} {L : Ledger σ} {M : Ledger τ}

theorem Related.insert {L' : Ledger σ} {M' : Ledger τ} {key : String} {s : σ} {v : τ}
    (h : Related P Q R t L M) (hs : R t s v) (hL : L'.keys = L.keys.insert key s)
    (hM : M'.keys = M.keys.insert key v) (hres : L'.reservations = M'.reservations)
    (hid : L'.nextId = M'.nextId) (hact : L'.activeReservations = M'.activeReservations) :
    Related P Q R t L' M' := by
  refine ⟨fun k => ?_, hres, hid, hact⟩
  rw [view_insert P hL, view_insert Q hM]
  split
  · exact hs
  · exact h.keys k

theorem KeySimulation.reserveLocked (hR : KeySimulation P Q R) {key : String} {s : σ} {v : τ}
    (o : IterOrder) (estimate : ℕ) (h : Related P Q R t L M) (hs : R t s v) :
    Related P Q R t (reserveLocked P B o L key s estimate t).1
        (reserveLocked Q { B with maxKeys := n } o M key v estimate t).1 ∧
      (reserveLocked P B o L key s estimate t).2 =
        (reserveLocked Q { B with maxKeys := n } o M key v estimate t).2 := by
  obtain ⟨ht, hexp⟩ := hR.touch o hs
  have hj := hR.judge estimate ht
  have hres := h.reservations
  have hid := h.nextId
  have hact := h.activeReservations
  unfold ReservationLedger.reserveLocked
  simp only [← hexp, ← hj, Ledger.forget, Ledger.put, Ledger.record, ← hid, ← hact]
  rcases hx : (P.judge t estimate (P.touch o t s).1).exhausted with _ | retry
  · by_cases hroom : L.activeReservations - (P.touch o t s).2.length < B.maxActiveReservations
    · simp only [hroom, if_true, and_true]
      exact h.insert (hR.hold _ _ ht) rfl rfl (by simp only [hres]) rfl rfl
    · simp only [hroom, if_false, and_true]
      exact h.insert ht rfl rfl (by simp only [hres]) rfl rfl
  · simp only [and_true]
    exact h.insert ht rfl rfl (by simp only [hres]) rfl rfl

theorem KeySimulation.reserve (hR : KeySimulation P Q R) (o : IterOrder) (key : String)
    (estimate : ℕ) (h : Related P Q R t L M)
    (hP : ¬ (Reply.decision (reserve P B o L key estimate t).2).deniedFor .keyCapacity)
    (hQ : ¬ (Reply.decision (reserve Q { B with maxKeys := n } o M key estimate t).2).deniedFor
      .keyCapacity) :
    Related P Q R t (reserve P B o L key estimate t).1
        (reserve Q { B with maxKeys := n } o M key estimate t).1 ∧
      (reserve P B o L key estimate t).2 =
        (reserve Q { B with maxKeys := n } o M key estimate t).2 := by
  by_cases hbad : InvalidKey B key estimate
  · have hbad' : InvalidKey { B with maxKeys := n } key estimate := hbad
    simp only [ReservationLedger.reserve, hbad, hbad', if_true, and_true]
    exact h
  · have hgood : ¬ InvalidKey { B with maxKeys := n } key estimate := hbad
    simp only [ReservationLedger.reserve, hbad, hgood, if_false] at *
    rcases hL' : entry P B L key with _ | ⟨L', s⟩
    · simp [hL', Reply.deniedFor] at hP
    rcases hM' : entry Q { B with maxKeys := n } M key with _ | ⟨M', v⟩
    · simp [hM', Reply.deniedFor] at hQ
    obtain ⟨rfl, hview, hres, hid, hact⟩ := entry_spec hL'
    obtain ⟨rfl, hview', hres', hid', hact'⟩ := entry_spec hM'
    have h' : Related P Q R t L' M' := by
      refine ⟨fun k => ?_, ?_, ?_, ?_⟩
      · rw [hview, hview']
        exact h.keys k
      · rw [hres, hres', h.reservations]
      · rw [hid, hid', h.nextId]
      · rw [hact, hact', h.activeReservations]
    exact hR.reserveLocked o estimate h' (h.keys key)

theorem KeySimulation.reconcileLocked (hR : KeySimulation P Q R) {key : String} {s : σ} {v : τ}
    (o : IterOrder) (id : ℕ) (actual : Option ℕ) (h : Related P Q R t L M) (hs : R t s v) :
    Related P Q R t (reconcileLocked P o L key s id actual t).1
        (reconcileLocked Q o M key v id actual t).1 ∧
      (reconcileLocked P o L key s id actual t).2 =
        (reconcileLocked Q o M key v id actual t).2 := by
  unfold ReservationLedger.reconcileLocked
  rw [← hR.active hs]
  rcases (P.active s).lookup id with _ | r
  · exact ⟨h, rfl⟩
  · obtain ⟨hset, hexp⟩ := hR.settle o id r (actual.getD r.estimate) hs
    refine ⟨h.insert hset rfl rfl ?_ h.nextId ?_, rfl⟩
    · simp only [Ledger.put, Ledger.forget, hexp, h.reservations]
    · simp only [Ledger.put, Ledger.forget, hexp, h.activeReservations]

theorem KeySimulation.reconcile (hR : KeySimulation P Q R) (o : IterOrder) (id : ℕ)
    (actual : Option ℕ) (h : Related P Q R t L M) :
    Related P Q R t (reconcile P o L id actual t).1 (reconcile Q o M id actual t).1 ∧
      (reconcile P o L id actual t).2 = (reconcile Q o M id actual t).2 := by
  rcases hkey : L.reservations.lookup id with _ | key
  · have hkey' := hkey
    rw [h.reservations] at hkey'
    simp only [ReservationLedger.reconcile, hkey, hkey', and_true]
    exact h
  · rw [reconcile_view o L actual t hkey, reconcile_view o M actual t (h.reservations ▸ hkey)]
    refine hR.reconcileLocked o id actual ⟨h.keys, ?_, h.nextId, h.activeReservations⟩ (h.keys key)
    simp only [h.reservations]

theorem KeySimulation.swept (hR : KeySimulation P Q R) {s s' : σ} {v v' : τ} (o : IterOrder)
    (h : R t s v) (hs : Swept P o t s s') (hv : Swept Q o t v v') : R t s' v' := by
  have left : R t s' (Q.touch o t v).1 := by
    rcases hs with rfl | ⟨rfl, he | rfl⟩
    · exact (hR.touch o h).1
    · exact hR.evict (hR.touch o h).1 he
    · exact hR.absent o (hR.touch o h).1
  rcases hv with rfl | ⟨rfl, he | rfl⟩
  · exact left
  · exact hR.evict' left he
  · exact hR.absent' o left

theorem KeySimulation.cleanupKey (hR : KeySimulation P Q R) (o : IterOrder) (key : String)
    (h : Related P Q R t L M) :
    Related P Q R t (cleanupKey P o L t key).1 (cleanupKey Q o M t key).1 ∧
      (cleanupKey P o L t key).2 = (cleanupKey Q o M t key).2 := by
  obtain ⟨⟨s', hs, hL⟩, hres, hid, hact, hcount⟩ := cleanupKey_spec P o L t key
  obtain ⟨⟨v', hv, hM⟩, hres', hid', hact', hcount'⟩ := cleanupKey_spec Q o M t key
  have hexp := (hR.touch o (h.keys key)).2
  refine ⟨⟨fun k => ?_, ?_, ?_, ?_⟩, ?_⟩
  · rw [hL, hM]
    split
    · exact hR.swept o (h.keys key) hs hv
    · exact h.keys k
  · rw [hres, hres', hexp, h.reservations]
  · rw [hid, hid', h.nextId]
  · rw [hact, hact', hexp, h.activeReservations]
  · rw [hcount, hcount', hexp]

theorem KeySimulation.cleanup (hR : KeySimulation P Q R) (scan : List (IterOrder × String))
    (h : Related P Q R t L M) :
    Related P Q R t (cleanup P L t scan).1 (cleanup Q M t scan).1 ∧
      (cleanup P L t scan).2 = (cleanup Q M t scan).2 := by
  induction scan generalizing L M with
  | nil => exact ⟨h, rfl⟩
  | cons e scan ih =>
    obtain ⟨hkey, hcount⟩ := hR.cleanupKey e.1 e.2 h
    obtain ⟨hrest, hcounts⟩ := ih hkey
    refine ⟨hrest, ?_⟩
    simp only [ReservationLedger.cleanup, hcount, hcounts]

theorem KeySimulation.step (hR : KeySimulation P Q R) {c : Call} (h : Related P Q R t L M)
    (ht : t ≤ c.nowMs) (hP : ¬ (step P B L c).2.deniedFor .keyCapacity)
    (hQ : ¬ (step Q { B with maxKeys := n } M c).2.deniedFor .keyCapacity) :
    Related P Q R c.nowMs (step P B L c).1 (step Q { B with maxKeys := n } M c).1 ∧
      (step P B L c).2 = (step Q { B with maxKeys := n } M c).2 := by
  have hl : Related P Q R c.nowMs L M :=
    ⟨fun k => hR.later ht (h.keys k), h.reservations, h.nextId, h.activeReservations⟩
  cases c with
  | reserve o key estimate u =>
    obtain ⟨hrel, hd⟩ := hR.reserve o key estimate hl hP hQ
    exact ⟨hrel, congrArg Reply.decision hd⟩
  | reconcile o id actual u =>
    obtain ⟨hrel, hs⟩ := hR.reconcile o id actual hl
    exact ⟨hrel, congrArg Reply.settlement hs⟩
  | cleanup u scan =>
    obtain ⟨hrel, hn⟩ := hR.cleanup scan hl
    exact ⟨hrel, congrArg Reply.orphaned hn⟩

/-- While neither ledger runs out of keys, simulating policies give the same replies. -/
theorem KeySimulation.run (hR : KeySimulation P Q R) {calls : List Call}
    (ho : TimedRuns.Ordered Call.nowMs 0 calls)
    (hP : ∀ r ∈ TimedRuns.outputs (ReservationLedger.step P B) Ledger.new calls,
      ¬ r.deniedFor .keyCapacity)
    (hQ : ∀ r ∈ TimedRuns.outputs (ReservationLedger.step Q { B with maxKeys := n })
      Ledger.new calls, ¬ r.deniedFor .keyCapacity) :
    TimedRuns.outputs (ReservationLedger.step P B) Ledger.new calls =
      TimedRuns.outputs (ReservationLedger.step Q { B with maxKeys := n }) Ledger.new calls := by
  refine TimedRuns.simulation_outputs (R := Related P Q R)
    (fun t L M c h ht hp hq => hR.step h ht hp hq) ⟨fun k => ?_, rfl, rfl, rfl⟩ ho
    (TimedRuns.along_of_outputs hP) (TimedRuns.along_of_outputs hQ)
  exact hR.fresh 0

theorem reserveLocked_keyCount (o : IterOrder) (L : Ledger σ) (key : String) (s : σ)
    (estimate t : ℕ) : (reserveLocked P B o L key s estimate t).1.keyCount = L.keyCount := by
  unfold ReservationLedger.reserveLocked
  dsimp only
  split
  · rfl
  · split <;> rfl

theorem reserve_keyCount_le (o : IterOrder) (L : Ledger σ) (key : String) (estimate t : ℕ) :
    (reserve P B o L key estimate t).1.keyCount ≤ L.keyCount + 1 := by
  unfold ReservationLedger.reserve entry
  split
  · simp
  · rcases L.keys.lookup key with _ | s
    · by_cases hroom : L.keyCount < B.maxKeys
      · simp [hroom, reserveLocked_keyCount]
      · simp [hroom]
    · simp [reserveLocked_keyCount]

theorem reconcile_keyCount (o : IterOrder) (L : Ledger σ) (id : ℕ) (actual : Option ℕ) (t : ℕ) :
    (reconcile P o L id actual t).1.keyCount = L.keyCount := by
  unfold ReservationLedger.reconcile
  rcases L.reservations.lookup id with _ | key
  · rfl
  · dsimp only
    rcases L.keys.lookup key with _ | s
    · rfl
    · simp only [ReservationLedger.reconcileLocked]
      rcases (P.active s).lookup id with _ | r <;> rfl

theorem cleanup_keyCount_le (L : Ledger σ) (t : ℕ) (scan : List (IterOrder × String)) :
    (cleanup P L t scan).1.keyCount ≤ L.keyCount := by
  induction scan generalizing L with
  | nil => exact le_rfl
  | cons e scan ih =>
    refine (ih _).trans ?_
    rcases L.keys.lookup e.2 with _ | s
    · exact le_rfl
    · dsimp only
      split <;> simp only [Ledger.put, Ledger.forget] <;> omega

theorem step_keyCount_le (L : Ledger σ) (c : Call) :
    (step P B L c).1.keyCount ≤ L.keyCount + 1 := by
  cases c with
  | reserve o key estimate t => exact reserve_keyCount_le o L key estimate t
  | reconcile o id actual t => exact (reconcile_keyCount o L id actual t).le.trans (by simp)
  | cleanup t scan => exact (cleanup_keyCount_le L t scan).trans (by simp)

theorem reserveLocked_reason (o : IterOrder) (L : Ledger σ) (key : String) (s : σ)
    (estimate t : ℕ) :
    ¬ (Reply.decision (reserveLocked P B o L key s estimate t).2).deniedFor .keyCapacity := by
  unfold ReservationLedger.reserveLocked
  dsimp only
  split
  · simp [Reply.deniedFor]
  · split <;> simp [Reply.deniedFor]

theorem not_denied_of_room {L : Ledger σ} (hroom : L.keyCount < B.maxKeys) (c : Call) :
    ¬ (step P B L c).2.deniedFor .keyCapacity := by
  cases c with
  | reconcile o id actual t => exact fun h => h
  | cleanup t scan => exact fun h => h
  | reserve o key estimate t =>
    simp only [ReservationLedger.step, Prod.map_snd]
    unfold ReservationLedger.reserve entry
    split
    · simp [Reply.deniedFor]
    · rcases L.keys.lookup key with _ | s
      · exact reserveLocked_reason o _ key _ estimate t
      · exact reserveLocked_reason o L key s estimate t

theorem not_denied_of_few_calls {L : Ledger σ} {calls : List Call}
    (h : L.keyCount + calls.length ≤ B.maxKeys) :
    ∀ r ∈ TimedRuns.outputs (ReservationLedger.step P B) L calls,
      ¬ r.deniedFor .keyCapacity := by
  induction calls generalizing L with
  | nil => simp [TimedRuns.outputs]
  | cons c calls ih =>
    have hcount := step_keyCount_le (P := P) (B := B) L c
    rw [List.length_cons] at h
    simp only [TimedRuns.outputs, List.mem_cons, forall_eq_or_imp]
    exact ⟨not_denied_of_room (by omega) c, ih (by omega)⟩

end LedgerSimulation
