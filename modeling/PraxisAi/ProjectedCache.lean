import Mathlib.Data.List.Nodup
import Mathlib.Logic.Function.Basic
import Mathlib.Logic.Relation
import Mathlib.Order.WellFounded

/-! # The cache of projected credentials

Calls share one entry for each key. One of them refreshes a stale entry while the others wait for
its notification, and a call that is cancelled gives up its refresh. An entry may be evicted while
no call holds it. What a call does under a lock is one step, except for the trim of the cache:
others may let go of their entries at any time during it, so every look at an entry that is in use
is a step of its own, as is every eviction, and the insertion or the return only follows. -/
namespace ProjectedCache

open List Function

section Model

def maxCredentials : ℕ := 1024

/-- In milliseconds. -/
def projectedCacheTtl : ℕ := 250

def unavailable : String := "credential_inject: projected credential unavailable"

/-- The state of an entry, under the entry's own lock. -/
structure Cell (ρ : Type) where
  loadedAt : Option ℕ
  credential : Option ρ
  refreshing : Bool

def Cell.fresh {ρ : Type} : Cell ρ := ⟨none, none, false⟩

def Cell.isFresh {ρ : Type} (cell : Cell ρ) (now : ℕ) : Bool :=
  cell.loadedAt.any fun loaded => now - loaded < projectedCacheTtl

structure Slot (κ : Type) where
  key : κ
  entry : ℕ
  lastUsed : ℕ

/-- What a call ends with: the outcome of its own refresh, or what it read of an entry, with the
time of the reading and the time at which the entry was loaded. -/
inductive Answer (ρ : Type) where
  | own (outcome : Except String ρ)
  | read (now loaded : ℕ) (credential : Option ρ)

def Answer.result {ρ : Type} : Answer ρ → Except String ρ
  | .own outcome => outcome
  | .read _ _ (some credential) => .ok credential
  | .read _ _ none => .error unavailable

inductive Pc (ρ : Type) where
  | idle
  /-- Makes room for an entry of its key, with the cache locked since a time; `busy` are the
  entries that the loop's look at the cache has found in use so far. -/
  | making (now : ℕ) (busy : List ℕ)
  | ready (entry : ℕ)
  /-- Registered for the notification; `woken` says that it has come. -/
  | enabled (entry : ℕ) (woken : Bool)
  | waiting (entry : ℕ) (woken : Bool)
  | refreshing (entry : ℕ)
  /-- Has published an outcome, and will notify. -/
  | completed (entry : ℕ) (outcome : Except String ρ)
  /-- Was cancelled in its refresh, and will notify. -/
  | unwinding (entry : ℕ)
  /-- Was cancelled, and still holds its entry. -/
  | dropping (entry : ℕ)
  | cancelled
  | leaving (entry : ℕ) (answer : Answer ρ)
  | released (answer : Answer ρ)
  /-- Trims the cache, with the cache locked. -/
  | trimming (answer : Answer ρ) (busy : List ℕ)
  | returned (answer : Answer ρ)

/-- The entry that a call holds. -/
def Pc.holds? {ρ : Type} : Pc ρ → Option ℕ
  | .ready e | .enabled e _ | .waiting e _ | .refreshing e | .completed e _ | .unwinding e
  | .dropping e | .leaving e _ => some e
  | _ => none

def Pc.locks {ρ : Type} : Pc ρ → Bool
  | .making .. | .trimming .. => true
  | _ => false

def Pc.target? {ρ : Type} : Pc ρ → Option ℕ
  | .making .. => some (maxCredentials - 1)
  | .trimming .. => some maxCredentials
  | _ => none

def Pc.busy {ρ : Type} : Pc ρ → List ℕ
  | .making _ busy | .trimming _ busy => busy
  | _ => []

def Pc.withBusy {ρ : Type} (busy : List ℕ) : Pc ρ → Pc ρ
  | .making now _ => .making now busy
  | .trimming answer _ => .trimming answer busy
  | pc => pc

def Pc.notifies? {ρ : Type} : Pc ρ → Option ℕ
  | .completed e _ | .unwinding e => some e
  | _ => none

def Pc.refreshes? {ρ : Type} : Pc ρ → Option ℕ
  | .refreshing e => some e
  | _ => none

/-- The entry for whose notification a call waits that has not come. -/
def Pc.awaits? {ρ : Type} : Pc ρ → Option ℕ
  | .waiting e false => some e
  | _ => none

def Pc.answer? {ρ : Type} : Pc ρ → Option (Answer ρ)
  | .completed _ outcome => some (.own outcome)
  | .leaving _ answer | .released answer | .trimming answer _ | .returned answer => some answer
  | _ => none

/-- A notification reaches everybody who is registered with the entry. -/
def Pc.notified {ρ : Type} (entry : ℕ) : Pc ρ → Pc ρ
  | .enabled e woken => .enabled e (woken || e = entry)
  | .waiting e woken => .waiting e (woken || e = entry)
  | pc => pc

structure Refresh (ρ : Type) where
  call : ℕ
  time : ℕ
  outcome : Except String ρ

/-- The refreshes that have completed are logged, the last one first. -/
structure World (κ ρ : Type) where
  clock : ℕ
  cache : List (Slot κ)
  locked : Option ℕ
  heap : ℕ → Cell ρ
  made : ℕ
  pc : ℕ → Pc ρ
  done : List (Refresh ρ)

variable {κ ρ : Type} [DecidableEq κ]

def World.start : World κ ρ := ⟨0, [], none, fun _ => Cell.fresh, 0, fun _ => .idle, []⟩

def World.InUse (w : World κ ρ) (entry : ℕ) : Prop := ∃ c, (w.pc c).holds? = some entry

/-- The loop of a trim has nothing left to do: there is room, or it has found no idle entry. -/
def World.Trimmed (w : World κ ρ) (c target : ℕ) : Prop :=
  w.cache.length ≤ target ∨ ∀ slot ∈ w.cache, slot.entry ∈ (w.pc c).busy

def World.goto (w : World κ ρ) (c : ℕ) (p : Pc ρ) : World κ ρ :=
  { w with pc := update w.pc c p }

def World.setCell (w : World κ ρ) (entry : ℕ) (cell : Cell ρ) : World κ ρ :=
  { w with heap := update w.heap entry cell }

def World.notify (w : World κ ρ) (entry : ℕ) : World κ ρ :=
  { w with pc := fun c => (w.pc c).notified entry }

def touch (key : κ) (now : ℕ) (slot : Slot κ) : Slot κ :=
  if slot.key = key then { slot with lastUsed := now } else slot

/-- Which steps put an entry into the cache, and which return from a call. -/
inductive Label where
  | silent
  | inserted (c : ℕ)
  | returned (c : ℕ)

inductive Step (keyOf : ℕ → κ) : World κ ρ → Label → World κ ρ → Prop
  | tick {w} (elapsed : ℕ) : Step keyOf w .silent { w with clock := w.clock + elapsed }
  | enterHit {w c slot} (hidle : w.pc c = .idle) (hfree : w.locked = none)
      (hslot : slot ∈ w.cache) (hkey : slot.key = keyOf c) :
      Step keyOf w .silent
        ({ w with cache := w.cache.map (touch (keyOf c) w.clock) }.goto c (.ready slot.entry))
  | enterMiss {w c} (hidle : w.pc c = .idle) (hfree : w.locked = none)
      (habsent : ∀ slot ∈ w.cache, slot.key ≠ keyOf c) :
      Step keyOf w .silent ({ w with locked := some c }.goto c (.making w.clock []))
  | look {w c target slot} (htarget : (w.pc c).target? = some target)
      (hlength : target < w.cache.length) (hslot : slot ∈ w.cache) (hused : w.InUse slot.entry) :
      Step keyOf w .silent (w.goto c ((w.pc c).withBusy (slot.entry :: (w.pc c).busy)))
  | evict {w c target slot} (htarget : (w.pc c).target? = some target)
      (hlength : target < w.cache.length) (hslot : slot ∈ w.cache) (hfree : ¬w.InUse slot.entry)
      (hlooked : slot.entry ∉ (w.pc c).busy)
      (holdest : ∀ other ∈ w.cache, ¬w.InUse other.entry → other.entry ∉ (w.pc c).busy →
        slot.lastUsed ≤ other.lastUsed) :
      -- the loop looks at the whole cache again
      Step keyOf w .silent
        ({ w with cache := w.cache.filter fun other => other.key ≠ slot.key }.goto c
          ((w.pc c).withBusy []))
  | insert {w c now busy} (hpc : w.pc c = .making now busy)
      (htrimmed : w.Trimmed c (maxCredentials - 1)) :
      Step keyOf w (.inserted c) (({ w with
        cache := w.cache ++ [Slot.mk (keyOf c) w.made now]
        locked := none
        made := w.made + 1 }.setCell w.made Cell.fresh).goto c (.ready w.made))
  | enable {w c e} (hpc : w.pc c = .ready e) : Step keyOf w .silent (w.goto c (.enabled e false))
  | hit {w c e woken loaded} (hpc : w.pc c = .enabled e woken)
      (hloaded : (w.heap e).loadedAt = some loaded) (hfresh : (w.heap e).isFresh w.clock = true) :
      Step keyOf w .silent (w.goto c (.leaving e (.read w.clock loaded (w.heap e).credential)))
  | wait {w c e woken} (hpc : w.pc c = .enabled e woken)
      (hstale : (w.heap e).isFresh w.clock = false) (hrefreshing : (w.heap e).refreshing = true) :
      Step keyOf w .silent (w.goto c (.waiting e woken))
  | refresh {w c e woken} (hpc : w.pc c = .enabled e woken)
      (hstale : (w.heap e).isFresh w.clock = false) (hrefreshing : (w.heap e).refreshing = false) :
      Step keyOf w .silent
        ((w.setCell e { w.heap e with refreshing := true }).goto c (.refreshing e))
  | wake {w c e} (hpc : w.pc c = .waiting e true) : Step keyOf w .silent (w.goto c (.ready e))
  | complete {w c e} (hpc : w.pc c = .refreshing e) (outcome : Except String ρ) :
      Step keyOf w .silent (({ w with done := ⟨c, w.clock, outcome⟩ :: w.done }.setCell e
        ⟨some w.clock, outcome.toOption, false⟩).goto c (.completed e outcome))
  | notify {w c e outcome} (hpc : w.pc c = .completed e outcome) :
      Step keyOf w .silent ((w.notify e).goto c (.leaving e (.own outcome)))
  | cancelWaiting {w c e woken} (hpc : w.pc c = .waiting e woken) :
      Step keyOf w .silent (w.goto c (.dropping e))
  | cancelRefresh {w c e} (hpc : w.pc c = .refreshing e) :
      Step keyOf w .silent
        ((w.setCell e { w.heap e with refreshing := false }).goto c (.unwinding e))
  | notifyCancelled {w c e} (hpc : w.pc c = .unwinding e) :
      Step keyOf w .silent ((w.notify e).goto c (.dropping e))
  | drop {w c e} (hpc : w.pc c = .dropping e) : Step keyOf w .silent (w.goto c .cancelled)
  | release {w c e answer} (hpc : w.pc c = .leaving e answer) :
      Step keyOf w .silent (w.goto c (.released answer))
  | lock {w c answer} (hpc : w.pc c = .released answer) (hfree : w.locked = none) :
      Step keyOf w .silent ({ w with locked := some c }.goto c (.trimming answer []))
  | ret {w c answer busy} (hpc : w.pc c = .trimming answer busy)
      (htrimmed : w.Trimmed c maxCredentials) :
      Step keyOf w (.returned c) ({ w with locked := none }.goto c (.returned answer))

def Reachable (keyOf : ℕ → κ) (w : World κ ρ) : Prop :=
  Relation.ReflTransGen (fun w w' => ∃ label, Step keyOf w label w') World.start w

end Model

section Invariant

variable {κ ρ : Type} [DecidableEq κ] {keyOf : ℕ → κ} {w : World κ ρ}

def lastDone (keyOf : ℕ → κ) (done : List (Refresh ρ)) (key : κ) : Option (Refresh ρ) :=
  done.find? fun refresh => keyOf refresh.call = key

/-- What an entry holds is what a refresh has left. -/
def Refresh.Left (refresh : Refresh ρ) (loaded : ℕ) (credential : Option ρ) : Prop :=
  refresh.time = loaded ∧ refresh.outcome.toOption = credential

/-- An answer is the outcome of the call's own refresh, or what it read soon enough after a refresh
of its key. -/
def Justified (keyOf : ℕ → κ) (done : List (Refresh ρ)) (c : ℕ) : Answer ρ → Prop
  | .own outcome => ∃ time, ⟨c, time, outcome⟩ ∈ done
  | .read now loaded credential => ∃ refresh ∈ done, keyOf refresh.call = keyOf c ∧
      refresh.Left loaded credential ∧ loaded ≤ now ∧ now < loaded + projectedCacheTtl

omit [DecidableEq κ] in
theorem Justified.mono {done done' : List (Refresh ρ)} (hsub : done ⊆ done') {c : ℕ}
    {answer : Answer ρ} (h : Justified keyOf done c answer) : Justified keyOf done' c answer := by
  cases answer with
  | own outcome => exact h.imp fun _ hmem => hsub hmem
  | read now loaded credential =>
    obtain ⟨refresh, hmem, hrest⟩ := h
    exact ⟨refresh, hsub hmem, hrest⟩

structure Good (keyOf : ℕ → κ) (w : World κ ρ) : Prop where
  locks : ∀ c, (w.pc c).locks = true → w.locked = some c
  keys : (w.cache.map Slot.key).Nodup
  ids : (w.cache.map Slot.entry).Nodup
  made : ∀ slot ∈ w.cache, slot.entry < w.made
  held : ∀ c e, (w.pc c).holds? = some e → ∃ slot ∈ w.cache, slot.entry = e ∧ slot.key = keyOf c
  absent : ∀ c now busy, w.pc c = .making now busy → ∀ slot ∈ w.cache, slot.key ≠ keyOf c
  flight : ∀ e, (w.heap e).refreshing = true ↔ ∃ c, (w.pc c).refreshes? = some e
  single : ∀ c d e, (w.pc c).refreshes? = some e → (w.pc d).refreshes? = some e → c = d
  notice : ∀ c e, (w.pc c).awaits? = some e →
    (w.heap e).refreshing = true ∨ ∃ d, (w.pc d).notifies? = some e
  recorded : ∀ slot ∈ w.cache, ∀ loaded, (w.heap slot.entry).loadedAt = some loaded →
    ∃ refresh, lastDone keyOf w.done slot.key = some refresh ∧
      refresh.Left loaded (w.heap slot.entry).credential
  answers : ∀ c answer, (w.pc c).answer? = some answer → Justified keyOf w.done c answer
  past : ∀ refresh ∈ w.done, refresh.time ≤ w.clock

theorem Good.start : Good keyOf (World.start : World κ ρ) := by
  constructor <;> simp [World.start, Cell.fresh, Pc.locks, Pc.holds?, Pc.refreshes?, Pc.awaits?,
    Pc.answer?]

/-- One call moves on, and may take or give back the lock of the cache. -/
theorem Good.goto (h : Good keyOf w) {c : ℕ} {p : Pc ρ} {locked : Option ℕ}
    (hlock : p.locks = true → locked = some c)
    (hothers : ∀ d, d ≠ c → (w.pc d).locks = true → locked = some d)
    (hentry : ∀ e, p.holds? = some e → ∃ slot ∈ w.cache, slot.entry = e ∧ slot.key = keyOf c)
    (hmaking : ∀ now busy, p = .making now busy → ∀ slot ∈ w.cache, slot.key ≠ keyOf c)
    (hrefreshes : p.refreshes? = (w.pc c).refreshes?)
    (hnotifies : ∀ e, (w.pc c).notifies? = some e → ∀ d, (w.pc d).awaits? ≠ some e)
    (hawaits : ∀ e, p.awaits? = some e → (w.heap e).refreshing = true)
    (hanswer : ∀ answer, p.answer? = some answer → Justified keyOf w.done c answer) :
    Good keyOf ({ w with locked := locked }.goto c p) := by
  have hsame : ∀ d, (({ w with locked := locked }.goto c p).pc d).refreshes? =
      (w.pc d).refreshes? :=
    (forall_update_iff w.pc fun d q => q.refreshes? = (w.pc d).refreshes?).mpr
      ⟨hrefreshes, fun _ _ => rfl⟩
  constructor
  · exact (forall_update_iff w.pc fun d q => q.locks = true → locked = some d).mpr
      ⟨hlock, hothers⟩
  · exact h.keys
  · exact h.ids
  · exact h.made
  · exact (forall_update_iff w.pc fun d q => ∀ e, q.holds? = some e →
      ∃ slot ∈ w.cache, slot.entry = e ∧ slot.key = keyOf d).mpr
      ⟨hentry, fun d _ => h.held d⟩
  · exact (forall_update_iff w.pc fun d q => ∀ now busy, q = .making now busy →
      ∀ slot ∈ w.cache, slot.key ≠ keyOf d).mpr ⟨hmaking, fun d _ => h.absent d⟩
  · intro e
    refine (h.flight e).trans (exists_congr fun d => ?_)
    rw [hsame d]
  · intro d d' e hd hd'
    rw [hsame] at hd hd'
    exact h.single d d' e hd hd'
  · refine (forall_update_iff w.pc fun d q => ∀ e, q.awaits? = some e →
      (w.heap e).refreshing = true ∨
        ∃ d', (({ w with locked := locked }.goto c p).pc d').notifies? = some e).mpr
      ⟨fun e he => .inl (hawaits e he), fun d hd e he => ?_⟩
    refine (h.notice d e he).imp_right fun ⟨d', hd'⟩ => ⟨d', ?_⟩
    have hne : d' ≠ c := by
      rintro rfl
      exact hnotifies e hd' d he
    exact (congrArg Pc.notifies? (update_of_ne hne p w.pc)).trans hd'
  · exact h.recorded
  · exact (forall_update_iff w.pc fun d q => ∀ answer, q.answer? = some answer →
      Justified keyOf w.done d answer).mpr ⟨hanswer, fun d _ => h.answers d⟩
  · exact h.past

section Notified

variable (entry : ℕ) (p : Pc ρ)

@[simp] theorem locks_notified : (p.notified entry).locks = p.locks := by cases p <;> rfl

@[simp] theorem entry_notified : (p.notified entry).holds? = p.holds? := by cases p <;> rfl

@[simp] theorem refreshes_notified : (p.notified entry).refreshes? = p.refreshes? := by
  cases p <;> rfl

@[simp] theorem notifies_notified : (p.notified entry).notifies? = p.notifies? := by
  cases p <;> rfl

@[simp] theorem answer_notified : (p.notified entry).answer? = p.answer? := by cases p <;> rfl

@[simp] theorem busy_notified : (p.notified entry).busy = p.busy := by cases p <;> rfl

theorem notified_eq_making {now : ℕ} {busy : List ℕ} (h : p.notified entry = .making now busy) :
    p = .making now busy := by
  cases p <;> simp_all [Pc.notified]

/-- Whoever still waits for a notification waits for that of another entry. -/
theorem awaits_notified {e : ℕ} (h : (p.notified entry).awaits? = some e) :
    p.awaits? = some e ∧ e ≠ entry := by
  cases p with
  | waiting e' woken =>
    cases woken <;> by_cases he : e' = entry <;> simp_all [Pc.notified, Pc.awaits?]
  | _ => cases h

end Notified

/-- A notification of an entry leaves nobody waiting for one. -/
theorem Good.notify (h : Good keyOf w) (entry : ℕ) : Good keyOf (w.notify entry) := by
  constructor
  · simpa [World.notify] using h.locks
  · exact h.keys
  · exact h.ids
  · exact h.made
  · simpa [World.notify] using h.held
  · exact fun c now busy hc => h.absent c now busy (notified_eq_making entry _ hc)
  · simpa [World.notify] using h.flight
  · simpa [World.notify] using h.single
  · intro c e hc
    simpa [World.notify] using h.notice c e (awaits_notified entry _ hc).1
  · exact h.recorded
  · simpa [World.notify] using h.answers
  · exact h.past

omit [DecidableEq κ] in
theorem not_awaits_notify (w : World κ ρ) (entry d : ℕ) :
    ((w.notify entry).pc d).awaits? ≠ some entry :=
  fun h => (awaits_notified entry _ h).2 rfl

theorem Good.tick (h : Good keyOf w) (elapsed : ℕ) :
    Good keyOf { w with clock := w.clock + elapsed } :=
  ⟨h.locks, h.keys, h.ids, h.made, h.held, h.absent, h.flight, h.single, h.notice, h.recorded,
    h.answers, fun refresh hmem => Nat.le_trans (h.past refresh hmem) (Nat.le_add_right _ _)⟩

theorem Good.touch (h : Good keyOf w) (key : κ) (now : ℕ) :
    Good keyOf { w with cache := w.cache.map (touch key now) } := by
  have hkey : ∀ slot, (ProjectedCache.touch key now slot).key = slot.key := by
    intro slot
    rw [ProjectedCache.touch]
    split_ifs <;> rfl
  have hentry : ∀ slot, (ProjectedCache.touch key now slot).entry = slot.entry := by
    intro slot
    rw [ProjectedCache.touch]
    split_ifs <;> rfl
  refine ⟨h.locks, ?_, ?_, ?_, fun c e hc => ?_, ?_, h.flight, h.single, h.notice, ?_, h.answers,
    h.past⟩
  · simpa [comp_def, hkey] using h.keys
  · simpa [comp_def, hentry] using h.ids
  · simpa [hentry] using h.made
  · obtain ⟨slot, hslot, he, hk⟩ := h.held c e hc
    exact ⟨_, mem_map_of_mem hslot, (hentry slot).trans he, (hkey slot).trans hk⟩
  · simpa [hkey] using h.absent
  · simpa [hkey, hentry] using h.recorded

theorem Good.eq_of_key (h : Good keyOf w) {a b : Slot κ} (ha : a ∈ w.cache) (hb : b ∈ w.cache)
    (hkey : a.key = b.key) : a = b :=
  inj_on_of_nodup_map h.keys ha hb hkey

theorem Good.eq_of_entry (h : Good keyOf w) {a b : Slot κ} (ha : a ∈ w.cache) (hb : b ∈ w.cache)
    (hentry : a.entry = b.entry) : a = b :=
  inj_on_of_nodup_map h.ids ha hb hentry

theorem Good.evict (h : Good keyOf w) {slot : Slot κ} (hslot : slot ∈ w.cache)
    (hfree : ¬w.InUse slot.entry) :
    Good keyOf { w with cache := w.cache.filter fun other => other.key ≠ slot.key } := by
  have hsub : (w.cache.filter fun other => other.key ≠ slot.key).Sublist w.cache :=
    filter_sublist
  refine ⟨h.locks, h.keys.sublist (hsub.map _), h.ids.sublist (hsub.map _),
    fun other hother => h.made other (hsub.subset hother), fun c e hc => ?_,
    fun c now busy hc other hother => h.absent c now busy hc other (hsub.subset hother), h.flight,
    h.single, h.notice, fun other hother => h.recorded other (hsub.subset hother), h.answers,
    h.past⟩
  obtain ⟨other, hother, he, hk⟩ := h.held c e hc
  refine ⟨other, mem_filter.mpr ⟨hother, ?_⟩, he, hk⟩
  rw [decide_eq_true_eq]
  intro hkey
  exact hfree ⟨c, by rw [hc, ← h.eq_of_key hother hslot hkey, he]⟩

theorem Good.not_held (h : Good keyOf w) (c : ℕ) : (w.pc c).holds? ≠ some w.made := by
  intro hc
  obtain ⟨slot, hslot, he, -⟩ := h.held c w.made hc
  exact absurd (h.made slot hslot) (by omega)

theorem entry_of_refreshes {p : Pc ρ} {e : ℕ} (h : p.refreshes? = some e) : p.holds? = some e := by
  cases p <;> simp_all [Pc.refreshes?, Pc.holds?]

theorem Good.others_unlocked (h : Good keyOf w) {c d : ℕ} (hc : (w.pc c).locks = true)
    (hd : (w.pc d).locks = true) : d = c :=
  Option.some.inj ((h.locks d hd).symm.trans (h.locks c hc))

theorem Good.unlocked (h : Good keyOf w) (hfree : w.locked = none) (d : ℕ) :
    (w.pc d).locks ≠ true := fun hd => by
  rw [h.locks d hd] at hfree
  cases hfree

theorem refreshing_of_refreshes {p : Pc ρ} {e : ℕ} (h : p.refreshes? = some e) :
    p = .refreshing e := by
  cases p <;> simp_all [Pc.refreshes?]

theorem entry_of_awaits {p : Pc ρ} {e : ℕ} (h : p.awaits? = some e) : p.holds? = some e := by
  cases p with
  | waiting e' woken => cases woken <;> simp_all [Pc.awaits?, Pc.holds?]
  | _ => cases h

/-- A new entry for a key that had none, while nobody has the cache locked. -/
theorem Good.addEntry (h : Good keyOf w) (hfree : w.locked = none) {key : κ}
    (habsent : ∀ slot ∈ w.cache, slot.key ≠ key) (now : ℕ) :
    Good keyOf ({ w with
      cache := w.cache ++ [Slot.mk key w.made now]
      made := w.made + 1 }.setCell w.made Cell.fresh) := by
  have hheap : ∀ e, e ≠ w.made → update w.heap w.made Cell.fresh e = w.heap e :=
    fun e he => update_of_ne he _ _
  have hmade : ∀ slot ∈ w.cache, slot.entry ≠ w.made := fun slot hslot =>
    Nat.ne_of_lt (h.made slot hslot)
  have hmem : ∀ slot, slot ∈ w.cache ++ [Slot.mk key w.made now] ↔
      slot ∈ w.cache ∨ slot = ⟨key, w.made, now⟩ := by
    intro slot
    rw [mem_append, mem_singleton]
  refine ⟨h.locks, ?_, ?_, fun slot hslot => ?_, fun c e hc => ?_, fun c time busy hc => ?_,
    fun e => ?_, h.single, fun c e hc => ?_, fun slot hslot loaded => ?_, h.answers, h.past⟩
  · simpa [World.setCell, nodup_append, h.keys] using habsent
  · simpa [World.setCell, nodup_append, h.ids] using hmade
  · rcases (hmem slot).mp hslot with hslot | rfl
    · exact Nat.lt_succ_of_lt (h.made slot hslot)
    · exact Nat.lt_succ_self _
  · obtain ⟨slot, hslot, hfields⟩ := h.held c e hc
    exact ⟨slot, mem_append_left _ hslot, hfields⟩
  · exact absurd (by rw [show w.pc c = .making time busy from hc]; rfl) (h.unlocked hfree c)
  · refine Iff.trans ?_ (h.flight e)
    change (update w.heap w.made Cell.fresh e).refreshing = true ↔ _
    by_cases he : e = w.made
    · subst he
      -- a cell that is not made is not being refreshed either
      have hidle : (w.heap w.made).refreshing ≠ true := fun hrefreshing =>
        let ⟨d, hd⟩ := (h.flight _).mp hrefreshing
        h.not_held d (entry_of_refreshes hd)
      simp [Cell.fresh, hidle]
    · rw [hheap e he]
  · have hother : e ≠ w.made := fun heq => h.not_held c (heq ▸ entry_of_awaits hc)
    exact (h.notice c e hc).imp_left fun hrefreshing =>
      (congrArg Cell.refreshing (hheap e hother)).trans hrefreshing
  · change (update w.heap w.made Cell.fresh slot.entry).loadedAt = some loaded →
      ∃ refresh, lastDone keyOf w.done slot.key = some refresh ∧
        refresh.Left loaded (update w.heap w.made Cell.fresh slot.entry).credential
    rcases (hmem slot).mp hslot with hslot | rfl
    · rw [hheap _ (hmade slot hslot)]
      exact h.recorded slot hslot loaded
    · rw [update_self]
      exact fun hnone => (by cases hnone)

/-- The call unlocks the cache with the new entry in hand. -/
theorem Good.insert (h : Good keyOf w) {c now : ℕ} {busy : List ℕ}
    (hpc : w.pc c = .making now busy) :
    Good keyOf (({ w with
      cache := w.cache ++ [Slot.mk (keyOf c) w.made now]
      locked := none
      made := w.made + 1 }.setCell w.made Cell.fresh).goto c (.ready w.made)) := by
  have hlocks : (w.pc c).locks = true := by rw [hpc]; rfl
  have hunlocked : Good keyOf ({ w with locked := none }.goto c .idle) := by
    refine h.goto ?_ (fun d hd hlocksd => absurd (h.others_unlocked hlocks hlocksd) hd)
      ?_ ?_ ?_ ?_ ?_ ?_ <;>
      simp [hpc, Pc.locks, Pc.holds?, Pc.refreshes?, Pc.notifies?, Pc.awaits?, Pc.answer?]
  have hadded := hunlocked.addEntry rfl (h.absent c now busy hpc) now
  have hpcs : (({ w with locked := none }.goto c .idle).pc c) = .idle := update_self _ _ _
  have hready := @Good.goto _ _ _ _ _ hadded c (.ready w.made) none (fun hq => (by cases hq))
    (fun d _ => hadded.locks d)
    (fun e he => ⟨_, mem_append_right _ mem_cons_self, Option.some.inj he, rfl⟩)
    (fun time _ hq => (by cases hq)) (congrArg Pc.refreshes? hpcs).symm
    (fun e he => (by cases (congrArg Pc.notifies? hpcs).symm.trans he))
    (fun e he => (by cases he)) (fun answer ha => (by cases ha))
  simpa [World.goto, World.setCell] using hready

/-- The call that holds an entry begins or ends the refresh of it. -/
theorem Good.setCell (h : Good keyOf w) {c e : ℕ} {cell : Cell ρ} {q : Pc ρ}
    {done : List (Refresh ρ)} (hlock : q.locks = false)
    (hentry : q.holds? = some e) (hheld : (w.pc c).holds? = some e)
    (hrefreshes : q.refreshes? = if cell.refreshing then some e else none)
    (hbegin : cell.refreshing = true → (w.heap e).refreshing = false)
    (hend : cell.refreshing = false → (w.pc c).refreshes? = some e ∧ q.notifies? = some e)
    (hnotifies : (w.pc c).notifies? = none) (hawaits : q.awaits? = none) (hdone : w.done ⊆ done)
    (hrecorded : ∀ slot ∈ w.cache, ∀ loaded,
      (update w.heap e cell slot.entry).loadedAt = some loaded →
        ∃ refresh, lastDone keyOf done slot.key = some refresh ∧
          refresh.Left loaded (update w.heap e cell slot.entry).credential)
    (hanswer : ∀ answer, q.answer? = some answer → Justified keyOf done c answer)
    (hpast : ∀ refresh ∈ done, refresh.time ≤ w.clock) :
    Good keyOf (({ w with done := done }.setCell e cell).goto c q) := by
  have hown : ∀ e', (w.pc c).refreshes? = some e' → e' = e := fun e' he' =>
    Option.some.inj ((entry_of_refreshes he').symm.trans hheld)
  have hwho : ∀ d e', (update w.pc c q d).refreshes? = some e' ↔
      d = c ∧ e' = e ∧ cell.refreshing = true ∨ d ≠ c ∧ (w.pc d).refreshes? = some e' := by
    intro d e'
    by_cases hdc : d = c
    · rw [hdc, update_self, hrefreshes]
      cases cell.refreshing <;> simp [eq_comm]
    · simp [hdc]
  -- nobody else refreshes the entry
  have halone : ∀ d, d ≠ c → (w.pc d).refreshes? ≠ some e := by
    intro d hd hrefreshing
    cases hcell : cell.refreshing with
    | true => exact absurd ((h.flight e).mpr ⟨d, hrefreshing⟩) (by simp [hbegin hcell])
    | false => exact hd (h.single d c e hrefreshing (hend hcell).1)
  constructor
  · exact (forall_update_iff w.pc fun d q => q.locks = true → w.locked = some d).mpr
      ⟨by simp [hlock], fun d _ => h.locks d⟩
  · exact h.keys
  · exact h.ids
  · exact h.made
  · refine (forall_update_iff w.pc fun d q => ∀ e, q.holds? = some e →
      ∃ slot ∈ w.cache, slot.entry = e ∧ slot.key = keyOf d).mpr
      ⟨fun e' he' => ?_, fun d _ => h.held d⟩
    exact h.held c e' (hheld.trans (hentry.symm.trans he'))
  · refine (forall_update_iff w.pc fun d q => ∀ now busy, q = .making now busy →
      ∀ slot ∈ w.cache, slot.key ≠ keyOf d).mpr ⟨fun now busy hq => ?_, fun d _ => h.absent d⟩
    rw [hq] at hlock
    cases hlock
  · intro e'
    refine Iff.trans ?_ (exists_congr fun d => (hwho d e').symm)
    change (update w.heap e cell e').refreshing = true ↔ _
    by_cases he : e' = e
    · rw [he, update_self]
      refine ⟨fun hcell => ⟨c, .inl ⟨rfl, rfl, hcell⟩⟩, ?_⟩
      rintro ⟨d, ⟨-, -, hcell⟩ | ⟨hdc, hd⟩⟩
      · exact hcell
      · exact absurd hd (halone d hdc)
    · rw [update_of_ne he, h.flight e']
      refine exists_congr fun d => ⟨fun hd => .inr ⟨?_, hd⟩, ?_⟩
      · rintro rfl
        exact he (hown e' hd)
      · rintro (⟨-, heq, -⟩ | ⟨-, hd⟩)
        · exact absurd heq he
        · exact hd
  · intro d d' e' hd hd'
    rcases (hwho d e').mp hd with ⟨hdc, he, -⟩ | ⟨hdc, hold⟩ <;>
      rcases (hwho d' e').mp hd' with ⟨hdc', he', -⟩ | ⟨hdc', hold'⟩
    · exact hdc.trans hdc'.symm
    · exact absurd (he ▸ hold') (halone d' hdc')
    · exact absurd (he' ▸ hold) (halone d hdc)
    · exact h.single d d' e' hold hold'
  · refine (forall_update_iff w.pc fun d p => ∀ e', p.awaits? = some e' →
      (update w.heap e cell e').refreshing = true ∨
        ∃ d', (update w.pc c q d').notifies? = some e').mpr
      ⟨fun e' he' => by simp [hawaits] at he', fun d _ e' he' => ?_⟩
    rcases h.notice d e' he' with hrefreshing | ⟨d', hd'⟩
    · by_cases he : e' = e
      · subst he
        -- an end of the refresh is followed by the notification
        cases hcell : cell.refreshing with
        | true => exact .inl (by rw [update_self, hcell])
        | false => exact .inr ⟨c, by rw [update_self, (hend hcell).2]⟩
      · exact .inl (by rw [update_of_ne he, hrefreshing])
    · have hne : d' ≠ c := by
        rintro rfl
        rw [hnotifies] at hd'
        cases hd'
      exact .inr ⟨d', by rw [update_of_ne hne, hd']⟩
  · exact hrecorded
  · exact (forall_update_iff w.pc fun d q => ∀ answer, q.answer? = some answer →
      Justified keyOf done d answer).mpr
      ⟨hanswer, fun d _ answer ha => (h.answers d answer ha).mono hdone⟩
  · exact hpast

/-- While only the flag of an entry changes, what is recorded stays. -/
theorem Good.recorded_flag (h : Good keyOf w) (e : ℕ) (refreshing : Bool) :
    ∀ slot ∈ w.cache, ∀ loaded,
      (update w.heap e { w.heap e with refreshing := refreshing }
        slot.entry).loadedAt = some loaded →
      ∃ refresh, lastDone keyOf w.done slot.key = some refresh ∧ refresh.Left loaded
        (update w.heap e { w.heap e with refreshing := refreshing }
          slot.entry).credential := by
  intro slot hslot loaded
  have hrecorded := h.recorded slot hslot loaded
  by_cases he : slot.entry = e
  · rw [he] at hrecorded ⊢
    rw [update_self]
    exact hrecorded
  · rw [update_of_ne he]
    exact hrecorded

theorem Good.refresh (h : Good keyOf w) {c e : ℕ} {woken : Bool} (hpc : w.pc c = .enabled e woken)
    (hrefreshing : (w.heap e).refreshing = false) :
    Good keyOf ((w.setCell e { w.heap e with refreshing := true }).goto c (.refreshing e)) := by
  refine h.setCell rfl rfl (by rw [hpc]; rfl) rfl (fun _ => hrefreshing) (fun hfalse => ?_)
    (by rw [hpc]; rfl) rfl (List.Subset.refl _) (h.recorded_flag e true)
    (fun answer ha => ?_) h.past
  · cases hfalse
  · cases ha

theorem Good.cancelRefresh (h : Good keyOf w) {c e : ℕ} (hpc : w.pc c = .refreshing e) :
    Good keyOf ((w.setCell e { w.heap e with refreshing := false }).goto c (.unwinding e)) := by
  refine h.setCell rfl rfl (by rw [hpc]; rfl) rfl (fun htrue => ?_)
    (fun _ => ⟨by rw [hpc]; rfl, rfl⟩) (by rw [hpc]; rfl) rfl (List.Subset.refl _)
    (h.recorded_flag e false) (fun answer ha => ?_) h.past
  · cases htrue
  · cases ha

/-- The outcome becomes what the key's entry holds and what the log ends with. -/
theorem Good.complete (h : Good keyOf w) {c e : ℕ} (hpc : w.pc c = .refreshing e)
    (outcome : Except String ρ) :
    Good keyOf (({ w with done := ⟨c, w.clock, outcome⟩ :: w.done }.setCell e
      ⟨some w.clock, outcome.toOption, false⟩).goto c (.completed e outcome)) := by
  refine h.setCell rfl rfl (by rw [hpc]; rfl) rfl (fun htrue => ?_)
    (fun _ => ⟨by rw [hpc]; rfl, rfl⟩) (by rw [hpc]; rfl) rfl (subset_cons_self _ _) ?_
    (fun answer ha => ?_) fun refresh hmem => ?_
  · cases htrue
  · intro slot hslot loaded hloaded
    obtain ⟨own, hown, hentry, hkey⟩ := h.held c e (by rw [hpc]; rfl)
    by_cases he : slot.entry = e
    · have hsame : slot = own := h.eq_of_entry hslot hown (he.trans hentry.symm)
      rw [he, update_self] at hloaded ⊢
      cases hloaded
      exact ⟨_, find?_cons_of_pos (by simp [hsame, hkey]), rfl, rfl⟩
    · have hother : keyOf c ≠ slot.key := fun hsame =>
        he (by rw [h.eq_of_key hslot hown (hsame.symm.trans hkey.symm), hentry])
      rw [update_of_ne he] at hloaded ⊢
      obtain ⟨refresh, hlast, hleft⟩ := h.recorded slot hslot loaded hloaded
      exact ⟨refresh, (find?_cons_of_neg (by simpa using hother)).trans hlast, hleft⟩
  · cases ha
    exact ⟨w.clock, mem_cons_self⟩
  · rcases mem_cons.mp hmem with rfl | hmem
    · exact Nat.le_refl _
    · exact h.past refresh hmem

theorem Good.advance (h : Good keyOf w) {c : ℕ} {p : Pc ρ} (hlock : p.locks = false)
    (hentry : ∀ e, p.holds? = some e → (w.pc c).holds? = some e)
    (hrefreshes : p.refreshes? = (w.pc c).refreshes?)
    (hnotifies : ∀ e, (w.pc c).notifies? = some e → ∀ d, (w.pc d).awaits? ≠ some e)
    (hawaits : ∀ e, p.awaits? = some e → (w.heap e).refreshing = true)
    (hanswer : ∀ answer, p.answer? = some answer → Justified keyOf w.done c answer) :
    Good keyOf (w.goto c p) :=
  h.goto (by simp [hlock]) (fun d _ => h.locks d) (fun e he => h.held c e (hentry e he))
    (fun now busy hp => by simp [hp, Pc.locks] at hlock) hrefreshes hnotifies hawaits hanswer

/-- A move of a call that has to do with no lock and no refresh. -/
structure Pc.Follows (p q : Pc ρ) : Prop where
  locks : q.locks = false
  entry : q.holds? = none ∨ q.holds? = p.holds?
  refreshes : q.refreshes? = p.refreshes?
  awaits : q.awaits? = none
  answer : q.answer? = none ∨ q.answer? = p.answer?

theorem Good.follow (h : Good keyOf w) {c : ℕ} {p q : Pc ρ} (hpc : w.pc c = p)
    (hq : p.Follows q)
    (hnotifies : ∀ e, p.notifies? = some e → ∀ d, (w.pc d).awaits? ≠ some e) :
    Good keyOf (w.goto c q) := by
  subst hpc
  refine h.advance hq.locks (fun e he => ?_) hq.refreshes hnotifies (fun e he => ?_)
    fun answer ha => ?_
  · rcases hq.entry with hnone | hsame
    · rw [hnone] at he
      cases he
    · exact hsame.symm.trans he
  · rw [hq.awaits] at he
    cases he
  · rcases hq.answer with hnone | hsame
    · rw [hnone] at ha
      cases ha
    · exact h.answers c answer (hsame.symm.trans ha)

/-- A call notifies, and goes on when nobody waits any more. -/
theorem Good.notifyFollow (h : Good keyOf w) {c e : ℕ} {p q : Pc ρ} (hpc : w.pc c = p)
    (hnotifies : p.notifies? = some e) (hq : (p.notified e).Follows q) :
    Good keyOf ((w.notify e).goto c q) := by
  refine (h.notify e).follow (congrArg (Pc.notified e) hpc) hq fun e' he' d => ?_
  rw [notifies_notified, hnotifies] at he'
  cases he'
  exact not_awaits_notify w e d

/-- What a call reads of its entry is what the key's last refresh has left. -/
theorem Good.read (h : Good keyOf w) {c e loaded : ℕ} (hc : (w.pc c).holds? = some e)
    (hloaded : (w.heap e).loadedAt = some loaded) :
    ∃ refresh, lastDone keyOf w.done (keyOf c) = some refresh ∧
      refresh.Left loaded (w.heap e).credential := by
  obtain ⟨slot, hslot, rfl, hkey⟩ := h.held c e hc
  rw [← hkey]
  exact h.recorded slot hslot loaded hloaded

theorem elapsed_of_isFresh {cell : Cell ρ} {now loaded : ℕ} (hfresh : cell.isFresh now = true)
    (hloaded : cell.loadedAt = some loaded) : now - loaded < projectedCacheTtl := by
  simpa [Cell.isFresh, hloaded] using hfresh

/-- A call that finds its entry fresh may answer with it. -/
theorem Good.justified (h : Good keyOf w) {c e loaded : ℕ} (hc : (w.pc c).holds? = some e)
    (hloaded : (w.heap e).loadedAt = some loaded)
    (hfresh : (w.heap e).isFresh w.clock = true) :
    Justified keyOf w.done c (.read w.clock loaded (w.heap e).credential) := by
  obtain ⟨refresh, hlast, hleft⟩ := h.read hc hloaded
  have hmem := mem_of_find?_eq_some hlast
  have hpast := h.past refresh hmem
  have hloaded' := hleft.1
  have helapsed := elapsed_of_isFresh hfresh hloaded
  exact ⟨refresh, hmem, by simpa using find?_some hlast, hleft, by omega, by omega⟩

theorem Pc.withBusy_eq_making {p : Pc ρ} {now : ℕ} {busy busy' : List ℕ}
    (h : p.withBusy busy = .making now busy') : ∃ before, p = .making now before := by
  cases p <;> simp_all [Pc.withBusy]

/-- A look changes nothing but what the loop has found. -/
theorem Good.withBusy (h : Good keyOf w) {c target : ℕ} (busy : List ℕ)
    (htarget : (w.pc c).target? = some target) :
    Good keyOf (w.goto c ((w.pc c).withBusy busy)) := by
  refine h.goto (fun hlocks => h.locks c ?_) (fun d _ => h.locks d) (fun e he => h.held c e ?_)
    (fun now busy hmaking => ?_) ?_ (fun e he => ?_) (fun e he => ?_)
    (fun answer ha => h.answers c answer ?_)
  case refine_3 =>
    obtain ⟨before, hbefore⟩ := Pc.withBusy_eq_making hmaking
    exact h.absent c now before hbefore
  case refine_4 => cases w.pc c <;> rfl
  all_goals cases hpc : w.pc c <;> simp_all [Pc.withBusy, Pc.target?, Pc.locks, Pc.holds?,
    Pc.notifies?, Pc.awaits?, Pc.answer?]

theorem Good.step {w' : World κ ρ} {label : Label} (h : Good keyOf w)
    (hstep : Step keyOf w label w') :
    Good keyOf w' := by
  cases hstep with
  | tick elapsed => exact h.tick elapsed
  | @enterHit c slot hidle hfree hslot hkey =>
    have htouch := h.touch (keyOf c) w.clock
    refine htouch.goto (fun hq => ?_) (fun d _ => htouch.locks d) (fun e he => ?_)
      (fun now busy hq => ?_) ?_ ?_ ?_ ?_
    · cases hq
    · cases he
      refine ⟨_, mem_map_of_mem hslot, ?_⟩
      rw [ProjectedCache.touch, if_pos hkey]
      exact ⟨rfl, hkey⟩
    · cases hq
    all_goals simp [hidle, Pc.refreshes?, Pc.notifies?, Pc.awaits?, Pc.answer?]
  | enterMiss hidle hfree habsent =>
    refine h.goto (fun _ => rfl) (fun d _ hd => absurd hd (h.unlocked hfree d)) ?_
      (fun _ _ _ => habsent) ?_ ?_ ?_ ?_ <;>
      simp [hidle, Pc.holds?, Pc.refreshes?, Pc.notifies?, Pc.awaits?, Pc.answer?]
  | look htarget => exact h.withBusy _ htarget
  | evict htarget hlength hslot hfree => exact (h.evict hslot hfree).withBusy _ htarget
  | insert hpc htrimmed => exact h.insert hpc
  | enable hpc => exact h.follow hpc ⟨rfl, .inr rfl, rfl, rfl, .inl rfl⟩ (by simp [Pc.notifies?])
  | @hit c e woken loaded hpc hloaded hfresh =>
    have hanswer := h.justified (by rw [hpc]; rfl) hloaded hfresh
    apply h.advance <;>
      simp [hpc, Pc.locks, Pc.holds?, Pc.refreshes?, Pc.notifies?, Pc.awaits?, Pc.answer?, hanswer]
  | @wait c e woken hpc hstale hrefreshing =>
    cases woken <;> apply h.advance <;>
      simp [hpc, Pc.locks, Pc.holds?, Pc.refreshes?, Pc.notifies?, Pc.awaits?, Pc.answer?,
        hrefreshing]
  | refresh hpc hstale hrefreshing => exact h.refresh hpc hrefreshing
  | wake hpc => exact h.follow hpc ⟨rfl, .inr rfl, rfl, rfl, .inl rfl⟩ (by simp [Pc.notifies?])
  | complete hpc outcome => exact h.complete hpc outcome
  | notify hpc => exact h.notifyFollow hpc rfl ⟨rfl, .inr rfl, rfl, rfl, .inr rfl⟩
  | cancelWaiting hpc =>
    exact h.follow hpc ⟨rfl, .inr rfl, rfl, rfl, .inl rfl⟩ (by simp [Pc.notifies?])
  | cancelRefresh hpc => exact h.cancelRefresh hpc
  | notifyCancelled hpc => exact h.notifyFollow hpc rfl ⟨rfl, .inr rfl, rfl, rfl, .inl rfl⟩
  | drop hpc => exact h.follow hpc ⟨rfl, .inl rfl, rfl, rfl, .inl rfl⟩ (by simp [Pc.notifies?])
  | release hpc => exact h.follow hpc ⟨rfl, .inl rfl, rfl, rfl, .inr rfl⟩ (by simp [Pc.notifies?])
  | @lock c answer hpc hfree =>
    have hanswer := h.answers c answer (by rw [hpc]; rfl)
    refine h.goto (fun _ => rfl) (fun d _ hd => absurd hd (h.unlocked hfree d)) ?_ ?_ ?_ ?_ ?_
      ?_ <;> simp [hpc, Pc.holds?, Pc.refreshes?, Pc.notifies?, Pc.awaits?, Pc.answer?, hanswer]
  | @ret c answer busy hpc htrimmed =>
    have hanswer := h.answers c answer (by rw [hpc]; rfl)
    refine h.goto ?_ (fun d hd hlocks => absurd (h.others_unlocked (by rw [hpc]; rfl) hlocks) hd)
      ?_ ?_ ?_ ?_ ?_ ?_ <;>
      simp [hpc, Pc.locks, Pc.holds?, Pc.refreshes?, Pc.notifies?, Pc.awaits?, Pc.answer?, hanswer]

theorem Good.of_reachable (h : Reachable keyOf w) : Good keyOf w := by
  induction h with
  | refl => exact Good.start
  | tail _ hstep ih => exact ih.step hstep.choose_spec

end Invariant

section Safety

variable {κ ρ : Type} [DecidableEq κ] {keyOf : ℕ → κ} {w w' : World κ ρ}

omit [DecidableEq κ] in
theorem inUse_update {c e : ℕ} {p : Pc ρ} (hnone : (w.pc c).holds? = none) (h : w.InUse e) :
    ∃ d, (update w.pc c p d).holds? = some e := by
  obtain ⟨d, hd⟩ := h
  have hne : d ≠ c := by
    rintro rfl
    rw [hnone] at hd
    cases hd
  exact ⟨d, by rw [update_of_ne hne, hd]⟩

theorem trimmed_of_inserted {c : ℕ} (hstep : Step keyOf w (.inserted c) w') :
    w'.cache.length ≤ maxCredentials ∨
      ∀ slot ∈ w'.cache, slot.entry ∈ (w.pc c).busy ∨ w'.InUse slot.entry := by
  cases hstep with
  | @insert _ now busy hpc htrimmed =>
    refine htrimmed.imp (fun hlength => ?_) fun hall slot hslot => ?_
    · change (w.cache ++ [Slot.mk (keyOf c) w.made now]).length ≤ maxCredentials
      have hpositive : 0 < maxCredentials := by decide
      rw [length_append, length_singleton]
      omega
    · refine (mem_append.mp hslot).imp (hall slot) fun hnew => ?_
      rw [mem_singleton.mp hnew]
      exact ⟨c, congrArg Pc.holds? (update_self c _ w.pc)⟩

theorem trimmed_of_returned {c : ℕ} (hstep : Step keyOf w (.returned c) w') :
    w'.cache.length ≤ maxCredentials ∨ ∀ slot ∈ w'.cache, slot.entry ∈ (w.pc c).busy := by
  cases hstep with
  | ret hpc htrimmed => exact htrimmed

theorem Pc.locks_of_busy {p : Pc ρ} {e : ℕ} (h : e ∈ p.busy) : p.locks = true := by
  cases p <;> simp_all [Pc.busy, Pc.locks]

theorem Pc.locks_withBusy (p : Pc ρ) (busy : List ℕ) : (p.withBusy busy).locks = p.locks := by
  cases p <;> rfl

theorem Pc.busy_withBusy (p : Pc ρ) (busy : List ℕ) : (p.withBusy busy).busy ⊆ busy := by
  cases p <;> simp [Pc.busy, Pc.withBusy]

/-- Only a look finds an entry in use. -/
theorem busy_of_step {label : Label} (hstep : Step keyOf w label w') {c e : ℕ}
    (h : e ∈ (w'.pc c).busy) : e ∈ (w.pc c).busy ∨ (w.pc c).locks = true ∧ w.InUse e := by
  have hmoved : ∀ {u : World κ ρ} {d : ℕ} {p : Pc ρ}, (∀ c, (u.pc c).busy = (w.pc c).busy) →
      (∀ e ∈ p.busy, e ∈ (w.pc d).busy ∨ (w.pc d).locks = true ∧ w.InUse e) →
      e ∈ ((u.goto d p).pc c).busy → e ∈ (w.pc c).busy ∨ (w.pc c).locks = true ∧ w.InUse e := by
    intro u d p hsame hown he
    by_cases hd : c = d
    · subst hd
      simp only [World.goto, update_self] at he
      exact hown e he
    · simp only [World.goto, update_of_ne hd, hsame] at he
      exact .inl he
  cases hstep with
  | tick => exact .inl h
  | @look d target slot htarget hlength hslot hused =>
    refine hmoved (fun _ => rfl) (fun other hother => ?_) h
    rcases mem_cons.mp (Pc.busy_withBusy _ _ hother) with rfl | hother
    · exact .inr ⟨by cases hpc : w.pc d <;> simp_all [Pc.target?, Pc.locks], hused⟩
    · exact .inl hother
  | evict =>
    exact hmoved (fun _ => rfl) (fun other hother => absurd (Pc.busy_withBusy _ _ hother)
      not_mem_nil) h
  | notify | notifyCancelled =>
    exact hmoved (fun _ => busy_notified _ _) (fun _ hnone => absurd hnone not_mem_nil) h
  | _ => exact hmoved (fun _ => rfl) (fun _ hnone => absurd hnone not_mem_nil) h

/-- A run with the worlds it has passed through, the last one first. -/
inductive Run (keyOf : ℕ → κ) : List (World κ ρ) → World κ ρ → Prop
  | start : Run keyOf [] World.start
  | step {past w label w'} (hrun : Run keyOf past w) (hstep : Step keyOf w label w') :
      Run keyOf (w :: past) w'

theorem Run.reachable {past : List (World κ ρ)} (h : Run keyOf past w) : Reachable keyOf w := by
  induction h with
  | start => exact .refl
  | step _ hstep ih => exact ih.tail ⟨_, hstep⟩

theorem Run.of_reachable (h : Reachable keyOf w) : ∃ past, Run keyOf past w := by
  induction h with
  | refl => exact ⟨[], .start⟩
  | tail _ hstep ih => exact ⟨_, ih.choose_spec.step hstep.choose_spec⟩

/-- The worlds since a call has locked the cache. -/
def sinceLocked (c : ℕ) (run : List (World κ ρ)) : List (World κ ρ) :=
  run.takeWhile fun w => w.locked = some c

omit [DecidableEq κ] in
theorem sinceLocked_cons {c : ℕ} (h : w.locked = some c) (past : List (World κ ρ)) :
    sinceLocked c (w :: past) = w :: sinceLocked c past :=
  takeWhile_cons_of_pos (decide_eq_true h)

/-- What the loop has found in use was so at its look. -/
theorem Run.used {past : List (World κ ρ)} (h : Run keyOf past w) {c e : ℕ}
    (he : e ∈ (w.pc c).busy) : ∃ u ∈ sinceLocked c (w :: past), u.InUse e := by
  induction h with
  | start => cases he
  | @step past w label w' hrun hstep ih =>
    have hlocked := (Good.of_reachable (hrun.step hstep).reachable).locks c (Pc.locks_of_busy he)
    rw [sinceLocked_cons hlocked]
    rcases busy_of_step hstep he with hbefore | ⟨hlocks, hused⟩
    · exact (ih hbefore).imp fun u hu => ⟨mem_cons_of_mem _ hu.1, hu.2⟩
    · refine ⟨w, mem_cons_of_mem _ ?_, hused⟩
      rw [sinceLocked_cons ((Good.of_reachable hrun.reachable).locks c hlocks)]
      exact mem_cons_self

/-- One call refreshes an entry and another waits for it. -/
theorem reachable_waiting : ∃ w : World Unit ℕ, Reachable (fun _ => ()) w ∧ w.locked = none ∧
    w.cache = [⟨(), 0, 0⟩] ∧ w.clock = 0 ∧
    w.pc = update (update (fun _ => .idle) 0 (.refreshing 0)) 1
      (.waiting 0 false) := by
  have hmiss : Reachable (fun _ => ()) (_ : World Unit ℕ) :=
    .single ⟨_, .enterMiss (c := 0) rfl rfl (by simp [World.start])⟩
  have hinsert := hmiss.tail ⟨_, .insert (c := 0) rfl (.inl (by decide))⟩
  have henable := hinsert.tail ⟨_, .enable (c := 0) rfl⟩
  have hrefresh := henable.tail ⟨_, .refresh (c := 0) rfl rfl rfl⟩
  have hhit := hrefresh.tail ⟨_, .enterHit (c := 1) rfl rfl mem_cons_self rfl⟩
  have hready := hhit.tail ⟨_, .enable (c := 1) rfl⟩
  have hwait := hready.tail ⟨_, .wait (c := 1) rfl rfl rfl⟩
  refine ⟨_, hwait, rfl, rfl, rfl, ?_⟩
  simp [World.goto, World.setCell, World.start, update_idem]

/-- A call that has not begun, or has returned. -/
def Pc.Rests : Pc ρ → Prop
  | .idle | .returned _ => True
  | _ => False

/-- A cache over its limit has somebody who will trim it, or a call that was cancelled; and so has
one in which a trim has found an entry in use. -/
structure Settled (w : World κ ρ) : Prop where
  limit : w.cache.length ≤ maxCredentials ∨ ∃ c, ¬(w.pc c).Rests
  busy : ∀ c e, e ∈ (w.pc c).busy → ∃ d, d ≠ c ∧ ¬(w.pc d).Rests

theorem Pc.not_rests_of_holds {p : Pc ρ} {e : ℕ} (h : p.holds? = some e) : ¬p.Rests := by
  cases p <;> simp_all [Pc.holds?, Pc.Rests]

theorem Pc.not_rests_withBusy {p : Pc ρ} {target : ℕ} (h : p.target? = some target)
    (busy : List ℕ) : ¬(p.withBusy busy).Rests := by
  cases p <;> simp_all [Pc.target?, Pc.withBusy, Pc.Rests]

/-- A call comes to rest only when it gives back the lock. -/
theorem not_rests_of_step {label : Label} (hstep : Step keyOf w label w') {d : ℕ}
    (hd : ¬(w.pc d).Rests) : ¬(w'.pc d).Rests ∨ w'.locked = none := by
  have hmoved : ∀ {u : World κ ρ} {c : ℕ} {p : Pc ρ}, ¬(u.pc d).Rests → ¬p.Rests →
      ¬((u.goto c p).pc d).Rests ∨ (u.goto c p).locked = none := by
    intro u c p hu hp
    left
    by_cases hc : d = c
    · simpa only [World.goto, hc, update_self] using hp
    · simpa only [World.goto, update_of_ne hc] using hu
  have hnotified : ∀ entry, ¬(((w.notify entry).pc d)).Rests := by
    intro entry
    rw [World.notify]
    dsimp only
    cases hpc : w.pc d <;> simp_all [Pc.notified, Pc.Rests]
  cases hstep with
  | tick => exact .inl hd
  | look htarget | evict htarget => exact hmoved hd (Pc.not_rests_withBusy htarget _)
  | notify | notifyCancelled => exact hmoved (hnotified _) id
  | insert | ret => exact .inr rfl
  | _ => exact hmoved hd id

theorem Settled.step {label : Label} (hgood : Good keyOf w) (hstep : Step keyOf w label w')
    (h : Settled w) : Settled w' := by
  have hmoved : ∀ {w : World κ ρ} {c : ℕ} {p : Pc ρ}, ¬p.Rests →
      ∃ d, ¬((w.goto c p).pc d).Rests := by
    intro w c p hp
    exact ⟨c, by simpa only [World.goto, update_self] using hp⟩
  refine ⟨?_, fun c e he => ?_⟩
  · cases hstep with
    | tick => exact h.limit
    | look htarget | evict htarget => exact .inr (hmoved (Pc.not_rests_withBusy htarget _))
    | @ret c answer busy hpc htrimmed =>
      refine or_iff_not_imp_left.mpr fun hlong => ?_
      -- every entry was found in use by somebody who has yet to trim
      obtain ⟨slot, hslot⟩ :=
        exists_mem_of_length_pos (Nat.zero_lt_of_lt (Nat.not_le.mp hlong))
      obtain ⟨d, hother, hd⟩ := h.busy c _ (htrimmed.resolve_left hlong slot hslot)
      exact ⟨d, by simpa only [World.goto, update_of_ne hother] using hd⟩
    | _ => exact .inr (hmoved id)
  · have hlocked := (hgood.step hstep).locks c (Pc.locks_of_busy he)
    have hothers : ∃ d, d ≠ c ∧ ¬(w.pc d).Rests := by
      rcases busy_of_step hstep he with hbefore | ⟨hlocks, d, hd⟩
      · exact h.busy c e hbefore
      · refine ⟨d, ?_, Pc.not_rests_of_holds hd⟩
        rintro rfl
        cases hpc : w.pc d <;> simp_all [Pc.locks, Pc.holds?]
    refine hothers.imp fun d hd =>
      ⟨hd.1, (not_rests_of_step hstep hd.2).resolve_right fun hfree => ?_⟩
    rw [hfree] at hlocked
    cases hlocked

/-- Once every call that has begun has returned, none of them cancelled, the cache is within its
limit again. -/
theorem resting_cache_within_limit (h : Reachable keyOf w) (hrest : ∀ c, (w.pc c).Rests) :
    w.cache.length ≤ maxCredentials := by
  have hsettled : Settled w := by
    clear hrest
    induction h with
    | refl => exact ⟨.inl (Nat.zero_le _), fun c e he => by cases he⟩
    | tail hbefore hstep ih => exact ih.step (Good.of_reachable hbefore) hstep.choose_spec
  exact hsettled.limit.resolve_right fun ⟨c, hc⟩ => hc (hrest c)

/-- One call has refreshed the entry of its key, another has waited for it, and both have
returned. -/
theorem two_calls_at_rest : ∃ w : World Unit ℕ, Reachable (fun _ => ()) w ∧
    w.pc 0 = .returned (.own (.ok 7)) ∧ w.pc 1 = .returned (.read 0 0 (some 7)) ∧
    w.cache.length ≤ maxCredentials := by
  obtain ⟨w, hwait, hfree, hcache, hclock, hpcs⟩ := reachable_waiting
  obtain ⟨clock, cache, locked, heap, made, pc, done⟩ := w
  dsimp only at hfree hcache hclock hpcs
  subst hfree hcache hclock hpcs
  have hcomplete := hwait.tail ⟨_, .complete (c := 0) rfl (.ok 7)⟩
  have hnotify := hcomplete.tail ⟨_, .notify (c := 0) rfl⟩
  have hrelease := hnotify.tail ⟨_, .release (c := 0) rfl⟩
  have hwake := hrelease.tail ⟨_, .wake (c := 1) rfl⟩
  have henable := hwake.tail ⟨_, .enable (c := 1) rfl⟩
  have hhit := henable.tail ⟨_, .hit (c := 1) rfl rfl rfl⟩
  have hrelease' := hhit.tail ⟨_, .release (c := 1) rfl⟩
  have hlock := hrelease'.tail ⟨_, .lock (c := 0) rfl rfl⟩
  have hret := hlock.tail ⟨_, .ret (c := 0) rfl (.inl (show 1 ≤ maxCredentials by decide))⟩
  have hlock' := hret.tail ⟨_, .lock (c := 1) rfl rfl⟩
  have hret' := hlock'.tail ⟨_, .ret (c := 1) rfl (.inl (show 1 ≤ maxCredentials by decide))⟩
  refine ⟨_, hret', rfl, rfl, resting_cache_within_limit hret' fun c => ?_⟩
  match c with
  | 0 | 1 | _ + 2 => exact trivial

end Safety

section Progress

variable {κ ρ : Type} [DecidableEq κ] {keyOf : ℕ → κ} {w w' : World κ ρ}

inductive Standing where
  | idle
  | active
  | cancelled

def Pc.standing : Pc ρ → Standing
  | .idle => .idle
  | .unwinding _ | .dropping _ | .cancelled => .cancelled
  | _ => .active

/-- A step at which no call begins, none is cancelled, and no time passes. -/
structure Serves (keyOf : ℕ → κ) (w w' : World κ ρ) : Prop where
  step : ∃ label, Step keyOf w label w'
  clock : w'.clock = w.clock
  standing : ∀ c, (w'.pc c).standing = (w.pc c).standing

abbrev Runs (keyOf : ℕ → κ) : World κ ρ → World κ ρ → Prop := Relation.ReflTransGen (Serves keyOf)

theorem Serves.move {label : Label} {c : ℕ} {p q : Pc ρ} (hpc : w.pc c = q)
    (hstep : Step keyOf w label w') (hclock : w'.clock = w.clock)
    (hpcs : w'.pc = update w.pc c p) (hstanding : p.standing = q.standing) :
    Serves keyOf w w' := by
  refine ⟨⟨label, hstep⟩, hclock, ?_⟩
  rw [hpcs]
  exact (forall_update_iff w.pc fun d p => p.standing = (w.pc d).standing).mpr
    ⟨hpc ▸ hstanding, fun _ _ => rfl⟩

theorem Serves.notify {label : Label} {c e : ℕ} {p q : Pc ρ} (hpc : w.pc c = q)
    (hstep : Step keyOf w label ((w.notify e).goto c p)) (hstanding : p.standing = q.standing) :
    Serves keyOf w ((w.notify e).goto c p) := by
  have hnotified : ∀ d, ((w.pc d).notified e).standing = (w.pc d).standing := fun d => by
    cases w.pc d <;> rfl
  exact ⟨⟨label, hstep⟩, rfl, (forall_update_iff (w.notify e).pc fun d p =>
    p.standing = (w.pc d).standing).mpr ⟨hpc ▸ hstanding, fun d _ => hnotified d⟩⟩

theorem Runs.reachable (h : Reachable keyOf w) (hrun : Runs keyOf w w') : Reachable keyOf w' :=
  h.trans (Relation.ReflTransGen.mono (fun _ _ hserves => hserves.step) _ _ hrun)

omit [DecidableEq κ] in
theorem locks_goto {c : ℕ} {p q : Pc ρ} (hpc : w.pc c = q) (hq : q.locks = false)
    (h : ∀ d, w.locked = some d → (w.pc d).locks = true) (d : ℕ)
    (hlocked : (w.goto c p).locked = some d) : ((w.goto c p).pc d).locks = true := by
  have hne : d ≠ c := by
    rintro rfl
    rw [← hpc, h d hlocked] at hq
    cases hq
  exact (congrArg Pc.locks (update_of_ne hne p w.pc)).trans (h d hlocked)

theorem locks_of_locked (h : Reachable keyOf w) :
    ∀ c, w.locked = some c → (w.pc c).locks = true := by
  induction h with
  | refl => exact fun _ hnone => by cases hnone
  | @tail w w' _ hstep ih =>
    obtain ⟨label, hstep⟩ := hstep
    cases hstep with
    | tick => exact ih
    | look | evict =>
      intro d hd
      refine (forall_update_iff w.pc fun d p => w.locked = some d → p.locks = true).mpr
        ⟨fun hc => ?_, fun d _ => ih d⟩ d hd
      exact (Pc.locks_withBusy _ _).trans (ih _ hc)
    | enterMiss | lock =>
      rintro d ⟨⟩
      simp [World.goto, Pc.locks]
    | insert | ret => exact fun _ hnone => by cases hnone
    | notify hpc | notifyCancelled hpc =>
      exact locks_goto (congrArg (Pc.notified _) hpc) rfl (by simpa [World.notify] using ih)
    | _ => apply locks_goto (h := ih) <;> first | assumption | rfl

theorem Pc.withBusy_self (p : Pc ρ) : p.withBusy p.busy = p := by cases p <;> rfl

theorem Pc.withBusy_spec {p : Pc ρ} {target : ℕ} (h : p.target? = some target) (busy : List ℕ) :
    (p.withBusy busy).target? = some target ∧ (p.withBusy busy).busy = busy ∧
      (∀ more, (p.withBusy busy).withBusy more = p.withBusy more) ∧
      (p.withBusy busy).standing = p.standing := by
  cases p <;> simp_all [Pc.target?, Pc.withBusy, Pc.busy, Pc.standing]

/-- The loop looks at entries that are in use. -/
theorem exists_looked {c target : ℕ} (htarget : (w.pc c).target? = some target)
    (hlength : target < w.cache.length) (slots : List (Slot κ))
    (hslots : ∀ slot ∈ slots, slot ∈ w.cache ∧ w.InUse slot.entry) :
    ∃ busy, Runs keyOf w (w.goto c ((w.pc c).withBusy busy)) ∧
      (w.pc c).busy ⊆ busy ∧ ∀ slot ∈ slots, slot.entry ∈ busy := by
  have hself : w.goto c ((w.pc c).withBusy (w.pc c).busy) = w := by
    rw [Pc.withBusy_self, World.goto, update_eq_self]
  have hnone : (w.pc c).holds? = none := by
    cases hpc : w.pc c <;> simp_all [Pc.target?, Pc.holds?]
  induction slots with
  | nil => exact ⟨(w.pc c).busy, by rw [hself], List.Subset.refl _, by simp⟩
  | cons slot slots ih =>
    obtain ⟨busy, hrun, hsub, hall⟩ := ih fun other hother => hslots other (.tail _ hother)
    obtain ⟨hslot, hused⟩ := hslots slot mem_cons_self
    have hpc : (w.goto c ((w.pc c).withBusy busy)).pc c = (w.pc c).withBusy busy :=
      update_self _ _ _
    obtain ⟨hbusyTarget, hbusy, htwice, hstanding⟩ := Pc.withBusy_spec htarget busy
    have hmore := (Pc.withBusy_spec htarget (slot.entry :: busy)).2.2.2
    have hlook : Step keyOf (w.goto c ((w.pc c).withBusy busy)) _ _ :=
      .look (hpc ▸ hbusyTarget) hlength hslot (inUse_update hnone hused)
    have hgoto : ∀ p q, (w.goto c p).goto c q = w.goto c q := fun p q => by
      rw [World.goto, World.goto, World.goto, update_idem]
    rw [hpc, hbusy, htwice, hgoto] at hlook
    refine ⟨slot.entry :: busy, hrun.tail (.move hpc hlook rfl ?_ (hmore.trans hstanding.symm)),
      subset_cons_of_subset _ hsub, fun other hother => ?_⟩
    · exact (update_idem _ _ _).symm
    · rcases mem_cons.mp hother with rfl | hother
      · exact mem_cons_self
      · exact mem_cons_of_mem _ (hall other hother)

theorem exists_trimmed (h : Reachable keyOf w) {c target : ℕ}
    (htarget : (w.pc c).target? = some target) :
    ∃ w' busy, Runs keyOf w w' ∧ w'.pc = update w.pc c ((w.pc c).withBusy busy) ∧
      w'.Trimmed c target := by
  -- every eviction makes the cache shorter
  induction hn : w.cache.length using Nat.strongRecOn generalizing w with
  | ind n ih =>
    have hbusy := Pc.withBusy_spec htarget
    by_cases hlong : target < w.cache.length
    · by_cases hunused : {slot | slot ∈ w.cache ∧ ¬w.InUse slot.entry ∧
          slot.entry ∉ (w.pc c).busy}.Nonempty
      · obtain ⟨slot, ⟨hslot, hfree, hlooked⟩, holdest⟩ :=
          (measure Slot.lastUsed).wf.has_min _ hunused
        have hstep : Step keyOf w _ _ := .evict htarget hlong hslot hfree hlooked
          fun other hother hidle hunseen => Nat.not_lt.mp (holdest other ⟨hother, hidle, hunseen⟩)
        have hshorter : (w.cache.filter fun other => other.key ≠ slot.key).length < n :=
          hn ▸ length_filter_lt_length_iff_exists.mpr ⟨slot, hslot, by simp⟩
        have hpc : update w.pc c ((w.pc c).withBusy []) c = (w.pc c).withBusy [] :=
          update_self _ _ _
        obtain ⟨w', busy, hrun, hpcs, hdone⟩ := ih _ hshorter (h.tail ⟨_, hstep⟩)
          ((congrArg Pc.target? hpc).trans (hbusy []).1) rfl
        refine ⟨w', busy, .head (.move rfl hstep rfl rfl (hbusy []).2.2.2) hrun, ?_, hdone⟩
        simpa [World.goto, update_idem, (hbusy []).2.2.1] using hpcs
      · -- nothing idle is left: a look at each entry in use finds the rest
        have hslots : ∀ slot ∈ w.cache.filter fun slot => slot.entry ∉ (w.pc c).busy,
            slot ∈ w.cache ∧ w.InUse slot.entry := by
          intro slot hslot
          obtain ⟨hmem, hunseen⟩ := mem_filter.mp hslot
          refine ⟨hmem, by_contra fun hidle => hunused ⟨slot, hmem, hidle, ?_⟩⟩
          exact of_decide_eq_true hunseen
        obtain ⟨busy, hrun, hsub, hall⟩ := exists_looked htarget hlong _ hslots
        have hpc : (w.goto c ((w.pc c).withBusy busy)).pc c = (w.pc c).withBusy busy :=
          update_self _ _ _
        refine ⟨_, busy, hrun, rfl, .inr fun slot hslot => ?_⟩
        rw [hpc, (hbusy busy).2.1]
        by_cases hseen : slot.entry ∈ (w.pc c).busy
        · exact hsub hseen
        · exact hall slot (mem_filter.mpr ⟨hslot, decide_eq_true hseen⟩)
    · refine ⟨w, (w.pc c).busy, .refl, ?_, .inl (Nat.not_lt.mp hlong)⟩
      rw [Pc.withBusy_self, update_eq_self]

theorem exists_inserted (h : Reachable keyOf w) {c now : ℕ} {busy : List ℕ}
    (hpc : w.pc c = .making now busy) :
    ∃ w' e, Runs keyOf w w' ∧ w'.locked = none ∧ w'.pc = update w.pc c (.ready e) := by
  obtain ⟨w', busy', hrun, hpcs, htrimmed⟩ := exists_trimmed h (congrArg Pc.target? hpc)
  have hpc' : w'.pc c = .making now busy' := by rw [hpcs, update_self, hpc]; rfl
  refine ⟨_, w'.made, hrun.tail (.move hpc' (.insert hpc' htrimmed) rfl rfl rfl), rfl, ?_⟩
  simp [World.goto, World.setCell, hpcs, update_idem]

theorem exists_returned (h : Reachable keyOf w) {c : ℕ} {answer : Answer ρ} {busy : List ℕ}
    (hpc : w.pc c = .trimming answer busy) :
    ∃ w', Runs keyOf w w' ∧ w'.locked = none ∧
      w'.pc = update w.pc c (.returned answer) := by
  obtain ⟨w', busy', hrun, hpcs, htrimmed⟩ := exists_trimmed h (congrArg Pc.target? hpc)
  have hpc' : w'.pc c = .trimming answer busy' := by rw [hpcs, update_self, hpc]; rfl
  refine ⟨_, hrun.tail (.move hpc' (.ret hpc' htrimmed) rfl rfl rfl), rfl, ?_⟩
  simp [World.goto, hpcs, update_idem]

theorem exists_unlocked (h : Reachable keyOf w) : ∃ w', Runs keyOf w w' ∧ w'.locked = none ∧
    ∀ c, (w.pc c).locks = false → w'.pc c = w.pc c := by
  cases hlocked : w.locked with
  | none => exact ⟨w, .refl, hlocked, fun _ _ => rfl⟩
  | some d =>
    have hlocks := locks_of_locked h d hlocked
    have hothers : ∀ c p, (w.pc c).locks = false → update w.pc d p c = w.pc c := by
      intro c p hc
      refine update_of_ne ?_ _ _
      rintro rfl
      cases hlocks.symm.trans hc
    cases hpc : w.pc d with
    | making now busy =>
      obtain ⟨w', e, hrun, hfree, hpcs⟩ := exists_inserted h hpc
      exact ⟨w', hrun, hfree, fun c hc => hpcs ▸ hothers c _ hc⟩
    | trimming answer busy =>
      obtain ⟨w', hrun, hfree, hpcs⟩ := exists_returned h hpc
      exact ⟨w', hrun, hfree, fun c hc => hpcs ▸ hothers c _ hc⟩
    | _ => simp [hpc, Pc.locks] at hlocks

def Returns (keyOf : ℕ → κ) (w : World κ ρ) (c : ℕ) : Prop :=
  ∃ w' answer, Runs keyOf w w' ∧ w'.pc c = .returned answer

section Stages

variable {c e : ℕ} {woken : Bool} {answer : Answer ρ} (h : Reachable keyOf w)

include h

theorem Returns.after (hrun : Runs keyOf w w')
    (hrest : Reachable keyOf w' → Returns keyOf w' c) : Returns keyOf w c :=
  let ⟨w'', answer, hrun', hpc⟩ := hrest (hrun.reachable h)
  ⟨w'', answer, hrun.trans hrun', hpc⟩

theorem returns_trimming {busy : List ℕ} (hpc : w.pc c = .trimming answer busy) :
    Returns keyOf w c := by
  obtain ⟨w', hrun, -, hpcs⟩ := exists_returned h hpc
  exact ⟨w', answer, hrun, hpcs ▸ update_self _ _ _⟩

theorem returns_released (hpc : w.pc c = .released answer) : Returns keyOf w c := by
  obtain ⟨w', hrun, hfree, hsame⟩ := exists_unlocked h
  have hpc' := (hsame c (congrArg Pc.locks hpc)).trans hpc
  exact .after h (hrun.tail (.move hpc' (.lock hpc' hfree) rfl rfl rfl)) fun h' =>
    returns_trimming h' (update_self _ _ _)

theorem returns_leaving (hpc : w.pc c = .leaving e answer) : Returns keyOf w c :=
  .after h (.single (.move hpc (.release hpc) rfl rfl rfl)) fun h' =>
    returns_released h' (update_self _ _ _)

theorem returns_completed {outcome : Except String ρ} (hpc : w.pc c = .completed e outcome) :
    Returns keyOf w c :=
  .after h (.single (.notify hpc (.notify hpc) rfl)) fun h' =>
    returns_leaving h' (update_self _ _ _)

theorem returns_refreshing (hpc : w.pc c = .refreshing e) : Returns keyOf w c :=
  .after h (.single (.move hpc (.complete hpc (.error unavailable)) rfl rfl rfl)) fun h' =>
    returns_completed h' (update_self _ _ _)

theorem returns_fresh (hpc : w.pc c = .enabled e woken)
    (hfresh : (w.heap e).isFresh w.clock = true) : Returns keyOf w c := by
  obtain ⟨loaded, hloaded, -⟩ := (Option.any_eq_true _ _).mp hfresh
  exact .after h (.single (.move hpc (.hit hpc hloaded hfresh) rfl rfl rfl)) fun h' =>
    returns_leaving h' (update_self _ _ _)

/-- Whoever refreshes an entry can complete the refresh, and is about to notify then. -/
theorem exists_completed (hrefreshing : (w.heap e).refreshing = true) :
    ∃ w', Serves keyOf w w' ∧ (w'.heap e).isFresh w'.clock = true ∧
      (∃ d, (w'.pc d).notifies? = some e) ∧
      ∀ c, (w.pc c).refreshes? = none → w'.pc c = w.pc c := by
  obtain ⟨d, hd⟩ := ((Good.of_reachable h).flight e).mp hrefreshing
  have hpc := refreshing_of_refreshes hd
  refine ⟨_, .move hpc (.complete hpc (.error unavailable)) rfl rfl rfl, ?_,
    ⟨d, congrArg Pc.notifies? (update_self d _ w.pc)⟩, fun c hc => ?_⟩
  · simp [World.goto, World.setCell, Cell.isFresh, projectedCacheTtl]
  · refine update_of_ne ?_ _ _
    rintro rfl
    cases hc.symm.trans hd

theorem returns_enabled (hpc : w.pc c = .enabled e woken) : Returns keyOf w c := by
  cases hfresh : (w.heap e).isFresh w.clock with
  | true => exact returns_fresh h hpc hfresh
  | false =>
    cases hrefreshing : (w.heap e).refreshing with
    | false =>
      exact .after h (.single (.move hpc (.refresh hpc hfresh hrefreshing) rfl rfl rfl)) fun h' =>
        returns_refreshing h' (update_self _ _ _)
    | true =>
      obtain ⟨w', hserves, hfresh', -, hsame⟩ := exists_completed h hrefreshing
      exact .after h (.single hserves) fun h' =>
        returns_fresh h' ((hsame c (congrArg Pc.refreshes? hpc)).trans hpc) hfresh'

theorem returns_ready (hpc : w.pc c = .ready e) : Returns keyOf w c :=
  .after h (.single (.move hpc (.enable hpc) rfl rfl rfl)) fun h' =>
    returns_enabled h' (update_self _ _ _)

theorem returns_making {now : ℕ} {busy : List ℕ} (hpc : w.pc c = .making now busy) :
    Returns keyOf w c := by
  obtain ⟨w', e, hrun, -, hpcs⟩ := exists_inserted h hpc
  exact .after h hrun fun h' => returns_ready h' (hpcs ▸ update_self _ _ _)

theorem returns_woken (hpc : w.pc c = .waiting e true) : Returns keyOf w c :=
  .after h (.single (.move hpc (.wake hpc) rfl rfl rfl)) fun h' =>
    returns_ready h' (update_self _ _ _)

omit h in
theorem exists_notified {d : ℕ} (hd : (w.pc d).notifies? = some e) :
    ∃ p, Serves keyOf w ((w.notify e).goto d p) := by
  cases hpc : w.pc d with
  | completed e' outcome =>
    cases (congrArg Pc.notifies? hpc).symm.trans hd
    exact ⟨_, .notify hpc (.notify hpc) rfl⟩
  | unwinding e' =>
    cases (congrArg Pc.notifies? hpc).symm.trans hd
    exact ⟨_, .notify hpc (.notifyCancelled hpc) rfl⟩
  | _ => simp [hpc, Pc.notifies?] at hd

theorem returns_notified (hpc : w.pc c = .waiting e false) {d : ℕ}
    (hd : (w.pc d).notifies? = some e) : Returns keyOf w c := by
  obtain ⟨p, hserves⟩ := exists_notified hd
  have hne : c ≠ d := by
    rintro rfl
    cases (congrArg Pc.notifies? hpc).symm.trans hd
  refine .after h (.single hserves) fun h' => returns_woken (e := e) h' ?_
  simp [World.goto, World.notify, hne, hpc, Pc.notified]

theorem returns_waiting (hpc : w.pc c = .waiting e woken) : Returns keyOf w c := by
  cases woken with
  | true => exact returns_woken h hpc
  | false =>
    rcases (Good.of_reachable h).notice c e (congrArg Pc.awaits? hpc) with hrefreshing | ⟨d, hd⟩
    · obtain ⟨w', hserves, -, ⟨d, hd⟩, hsame⟩ := exists_completed h hrefreshing
      exact .after h (.single hserves) fun h' =>
        returns_notified h' ((hsame c (congrArg Pc.refreshes? hpc)).trans hpc) hd
    · exact returns_notified h hpc hd

end Stages

/-- Whatever has happened, every call that has begun and was not cancelled can still return: no time
has to pass, and no other call to begin or to be cancelled. -/
theorem call_can_return (h : Reachable keyOf w) {c : ℕ} (hactive : (w.pc c).standing = .active) :
    ∃ w' answer, Runs keyOf w w' ∧ w'.pc c = .returned answer := by
  cases hpc : w.pc c with
  | idle | unwinding | dropping | cancelled =>
    rw [hpc] at hactive
    cases hactive
  | making => exact returns_making h hpc
  | ready => exact returns_ready h hpc
  | enabled => exact returns_enabled h hpc
  | waiting => exact returns_waiting h hpc
  | refreshing => exact returns_refreshing h hpc
  | completed => exact returns_completed h hpc
  | leaving => exact returns_leaving h hpc
  | released => exact returns_released h hpc
  | trimming => exact returns_trimming h hpc
  | returned answer => exact ⟨w, answer, .refl, hpc⟩

/-- A call that waits for the refresh of another. -/
theorem waiting_call_can_return : ∃ w w' : World Unit ℕ, Reachable (fun _ => ()) w ∧
    w.pc 1 = .waiting 0 false ∧ Runs (fun _ => ()) w w' ∧ ∃ answer, w'.pc 1 = .returned answer := by
  obtain ⟨w, hwait, -, -, -, hpcs⟩ := reachable_waiting
  have hwaits : w.pc 1 = .waiting 0 false := by rw [hpcs, update_self]
  obtain ⟨w', answer, hrun, hpc⟩ := call_can_return hwait (c := 1) (by rw [hwaits]; rfl)
  exact ⟨w, w', hwait, hwaits, hrun, answer, hpc⟩

end Progress

section Interleavings

variable {κ ρ : Type} [DecidableEq κ] {keyOf : ℕ → κ} {w w' : World κ ρ}

/-- For every interleaving of calls: one refresh of a key at a time, answers that are the outcome of
the call's own refresh or of a recent one, nothing older than the last refresh of the key to read,
nobody waiting without a refresh or a notification under way, one entry for the calls of a key, and
after every insertion and every return a cache that is small enough, or of which every entry was in
use at some moment since the call locked it. -/
theorem projected_cache_safe {past : List (World κ ρ)} (h : Run keyOf past w) :
    (∀ c d e e', w.pc c = .refreshing e → w.pc d = .refreshing e' → keyOf c = keyOf d → c = d) ∧
    (∀ c answer, w.pc c = .returned answer →
      (∃ refresh ∈ w.done, refresh.call = c ∧ answer.result = refresh.outcome) ∨
      ∃ refresh ∈ w.done, keyOf refresh.call = keyOf c ∧ ∃ now, refresh.time ≤ now ∧
        now < refresh.time + projectedCacheTtl ∧
        answer = .read now refresh.time refresh.outcome.toOption) ∧
    (∀ c e loaded, (w.pc c).holds? = some e → (w.heap e).loadedAt = some loaded →
      ∃ refresh, lastDone keyOf w.done (keyOf c) = some refresh ∧
        refresh.Left loaded (w.heap e).credential) ∧
    (∀ c e, w.pc c = .waiting e false →
      (∃ d, keyOf d = keyOf c ∧ w.pc d = .refreshing e) ∨ ∃ d, (w.pc d).notifies? = some e) ∧
    (∀ c e, (w.pc c).holds? = some e → ∃ slot ∈ w.cache, slot.key = keyOf c ∧ slot.entry = e) ∧
    (∀ c d e e', (w.pc c).holds? = some e → (w.pc d).holds? = some e' → keyOf c = keyOf d →
      e = e') ∧
    ∀ c w', Step keyOf w (.inserted c) w' ∨ Step keyOf w (.returned c) w' →
      w'.cache.length ≤ maxCredentials ∨ ∀ slot ∈ w'.cache,
        ∃ u ∈ w' :: sinceLocked c (w :: past), u.InUse slot.entry := by
  have hgood := Good.of_reachable h.reachable
  have hshared : ∀ c d e e', (w.pc c).holds? = some e → (w.pc d).holds? = some e' →
      keyOf c = keyOf d → e = e' := by
    intro c d e e' hc hd hkey
    obtain ⟨slot, hslot, rfl, hslotKey⟩ := hgood.held c e hc
    obtain ⟨slot', hslot', rfl, hslotKey'⟩ := hgood.held d e' hd
    rw [hgood.eq_of_key hslot hslot' (hslotKey.trans (hkey.trans hslotKey'.symm))]
  refine ⟨fun c d e e' hc hd hkey => ?_, fun c answer hc => ?_, fun c e loaded => hgood.read,
    fun c e hc => ?_, fun c e hc => ?_, hshared, fun c w' hstep => ?_⟩
  · have hsame := hshared c d e e' (by rw [hc]; rfl) (by rw [hd]; rfl) hkey
    exact hgood.single c d e (by rw [hc]; rfl) (by rw [hd, hsame]; rfl)
  · have hanswer := hgood.answers c answer (by rw [hc]; rfl)
    cases answer with
    | own outcome =>
      obtain ⟨time, hmem⟩ := hanswer
      exact .inl ⟨_, hmem, rfl, rfl⟩
    | read now loaded credential =>
      obtain ⟨refresh, hmem, hkey, ⟨rfl, rfl⟩, hpast, hsoon⟩ := hanswer
      exact .inr ⟨refresh, hmem, hkey, now, hpast, hsoon, rfl⟩
  · refine (hgood.notice c e (by rw [hc]; rfl)).imp_left fun hrefreshing => ?_
    obtain ⟨d, hd⟩ := (hgood.flight e).mp hrefreshing
    obtain ⟨slot, hslot, hentry, hkey⟩ := hgood.held c e (by rw [hc]; rfl)
    obtain ⟨slot', hslot', hentry', hkey'⟩ := hgood.held d e (entry_of_refreshes hd)
    refine ⟨d, ?_, refreshing_of_refreshes hd⟩
    rw [← hkey', ← hkey, hgood.eq_of_entry hslot' hslot (hentry'.trans hentry.symm)]
  · obtain ⟨slot, hslot, hentry, hkey⟩ := hgood.held c e hc
    exact ⟨slot, hslot, hkey, hentry⟩
  · have htrimmed : w'.cache.length ≤ maxCredentials ∨
        ∀ slot ∈ w'.cache, slot.entry ∈ (w.pc c).busy ∨ w'.InUse slot.entry := by
      rcases hstep with hinserted | hreturned
      · exact trimmed_of_inserted hinserted
      · exact (trimmed_of_returned hreturned).imp_right
          fun hall slot hslot => .inl (hall slot hslot)
    refine htrimmed.imp_right fun hall slot hslot => ?_
    rcases hall slot hslot with hbusy | hused
    · exact (h.used hbusy).imp fun u hu => ⟨mem_cons_of_mem _ hu.1, hu.2⟩
    · exact ⟨w', mem_cons_self, hused⟩

theorem second_call_waits : ∃ w : World Unit ℕ, Reachable (fun _ => ()) w ∧
    w.pc 1 = .waiting 0 false ∧
    ((∃ d, w.pc d = .refreshing 0) ∨ ∃ d, (w.pc d).notifies? = some 0) := by
  obtain ⟨w, hreachable, -, -, -, hpcs⟩ := reachable_waiting
  obtain ⟨past, hrun⟩ := Run.of_reachable hreachable
  have hwaits : w.pc 1 = .waiting 0 false := by rw [hpcs, update_self]
  refine ⟨w, hreachable, hwaits, ?_⟩
  exact ((projected_cache_safe hrun).2.2.2.1 1 0 hwaits).imp_left fun ⟨d, _, hd⟩ => ⟨d, hd⟩

/-- Calls with a key each have entered and hold their entries. -/
def filled (n : ℕ) : World ℕ ℕ :=
  ⟨0, (List.range n).map fun i => ⟨i, i, 0⟩, none, fun _ => Cell.fresh, n,
    fun c => if c < n then .ready c else .idle, []⟩

theorem filled_succ (n : ℕ) : (({ filled n with
    cache := (filled n).cache ++ [Slot.mk n n 0]
    locked := none
    made := n + 1 }.setCell n Cell.fresh).goto n (.ready n)) = filled (n + 1) := by
  have hpcs : update (filled n).pc n (.ready n) = (filled (n + 1)).pc := by
    funext c
    by_cases hc : c = n
    · simp [hc, filled]
    · have hlt : c < n + 1 ↔ c < n := by omega
      simp only [filled, update_of_ne hc, hlt]
  have hheap : update (filled n).heap n Cell.fresh = (filled (n + 1)).heap :=
    update_eq_self _ _
  have hcache : (filled n).cache ++ [Slot.mk n n 0] = (filled (n + 1)).cache := by
    simp [filled, range_succ]
  rw [World.setCell, World.goto, hpcs, hheap, hcache]
  rfl

theorem reachable_filled {n : ℕ} (h : n ≤ maxCredentials) : Reachable id (filled n) := by
  induction n with
  | zero => exact .refl
  | succ n ih =>
    have hmiss := (ih (Nat.le_of_succ_le h)).tail ⟨_, .enterMiss (c := n) (by simp [filled]) rfl
      (by simp [filled]; omega)⟩
    have hinsert := hmiss.tail ⟨_, .insert (c := n) (update_self _ _ _)
      (.inl (by simp [filled, World.goto]; omega))⟩
    rw [← filled_succ]
    simp only [World.goto, World.setCell, update_idem] at hinsert
    exact hinsert

theorem mem_filled {n : ℕ} {slot : Slot ℕ} :
    slot ∈ (filled n).cache ↔ ∃ i < n, slot = ⟨i, i, 0⟩ := by
  simp [filled, eq_comm]

/-- The next call has locked the full cache to make room. -/
def entering : World ℕ ℕ :=
  { filled maxCredentials with locked := some maxCredentials }.goto maxCredentials (.making 0 [])

theorem cache_entering : entering.cache = (filled maxCredentials).cache := by
  rw [entering, World.goto]

theorem exists_looked_entering :
    ∃ busy, Reachable id (entering.goto maxCredentials (.making 0 busy)) ∧
      ∀ slot ∈ entering.cache, slot.entry ∈ busy := by
  have hentering : Reachable id entering :=
    (reachable_filled (Nat.le_refl maxCredentials)).tail
      ⟨_, .enterMiss (by simp [filled]) rfl fun slot hslot => by
        obtain ⟨i, hi, rfl⟩ := mem_filled.mp hslot
        exact Nat.ne_of_lt hi⟩
  have hpc : entering.pc maxCredentials = .making 0 [] := by simp [entering, World.goto]
  have hlength : entering.cache.length = maxCredentials := by
    simp [cache_entering, filled]
  have hslots : ∀ slot ∈ entering.cache, slot ∈ entering.cache ∧ entering.InUse slot.entry := by
    intro slot hslot
    refine ⟨hslot, ?_⟩
    rw [cache_entering] at hslot
    obtain ⟨i, hi, rfl⟩ := mem_filled.mp hslot
    refine ⟨i, ?_⟩
    simp [entering, World.goto, filled, Nat.ne_of_lt hi, hi, Pc.holds?]
  obtain ⟨busy, hlooks, -, hall⟩ := exists_looked (congrArg Pc.target? hpc)
    (by rw [hlength]; decide) entering.cache hslots
  rw [hpc] at hlooks
  exact ⟨busy, hlooks.reachable hentering, hall⟩

/-- A call refreshes its entry, for which nobody waits, and lets go of it. -/
theorem exists_released (h : Reachable keyOf w) {c e : ℕ} (hpc : w.pc c = .ready e)
    (hcell : w.heap e = Cell.fresh) (hquiet : ∀ d, (w.pc d).notified e = w.pc d) :
    ∃ w' answer, Reachable keyOf w' ∧ w'.cache = w.cache ∧ w'.made = w.made ∧
      w'.pc = update w.pc c (.released answer) := by
  have hself : ∀ (u : World κ ρ) (p : Pc ρ), (u.goto c p).pc c = p := fun u p => by
    simp [World.goto]
  have henable := h.tail ⟨_, .enable hpc⟩
  have hstale : ((w.goto c (.enabled e false)).heap e) = Cell.fresh := hcell
  have hrefresh := henable.tail ⟨_, .refresh (hself _ _) (by rw [hstale]; rfl)
    (by rw [hstale]; rfl)⟩
  have hcomplete := hrefresh.tail ⟨_, .complete (hself _ _) (.error unavailable)⟩
  have hnotify := hcomplete.tail ⟨_, .notify (hself _ _)⟩
  have hrelease := hnotify.tail ⟨_, .release (hself _ _)⟩
  refine ⟨_, .own (.error unavailable), hrelease, ?_, ?_, ?_⟩
  · simp only [World.goto, World.notify, World.setCell]
  · simp only [World.goto, World.notify, World.setCell]
  funext d
  by_cases hd : d = c
  · simp [hd, World.goto]
  · simp [hd, World.goto, World.notify, World.setCell, hquiet]

/-- A call finds all of the cache in use; then an entry is let go of, and the call inserts its own
beside it. -/
theorem idle_entry_beyond_limit : ∃ w w' : World ℕ ℕ, Reachable id w ∧
    Step id w (.inserted maxCredentials) w' ∧ maxCredentials < w'.cache.length ∧
    ∃ slot ∈ w'.cache, ¬w'.InUse slot.entry := by
  obtain ⟨busy, hlooked, hall⟩ := exists_looked_entering
  have hpcs : (entering.goto maxCredentials (.making 0 busy)).pc =
      update (filled maxCredentials).pc maxCredentials (.making 0 busy) := by
    simp [entering, World.goto]
  have hne : (0 : ℕ) ≠ maxCredentials := by decide
  obtain ⟨w, answer, hreachable, hcache, hmade, hpc⟩ := exists_released (c := 0) (e := 0) hlooked
    (by rw [hpcs, update_of_ne hne]; rfl) rfl (fun d => by
      rw [hpcs]
      by_cases hd : d = maxCredentials
      · rw [hd, update_self]
        rfl
      · rw [update_of_ne hd, filled]
        dsimp only
        split <;> rfl)
  rw [hpcs] at hpc
  simp only [World.goto] at hcache hmade
  have hmaking : w.pc maxCredentials = .making 0 busy := by
    rw [hpc, update_of_ne hne.symm, update_self]
  refine ⟨w, _, hreachable, .insert hmaking (.inr fun slot hslot => ?_), ?_, ⟨0, 0, 0⟩, ?_, ?_⟩
  · rw [hmaking]
    rw [hcache] at hslot
    exact hall slot hslot
  · change maxCredentials < (w.cache ++ [_]).length
    rw [hcache, cache_entering]
    simp [filled]
  · refine mem_append_left _ ?_
    rw [hcache, cache_entering]
    exact mem_filled.mpr ⟨0, by decide, rfl⟩
  · rintro ⟨d, hd⟩
    change (update w.pc maxCredentials (.ready w.made) d).holds? = some 0 at hd
    by_cases hnew : d = maxCredentials
    · rw [hnew, update_self, hmade, entering, World.goto] at hd
      exact hne (Option.some.inj hd).symm
    · rw [update_of_ne hnew, hpc] at hd
      by_cases hzero : d = 0
      · rw [hzero, update_self] at hd
        cases hd
      · rw [update_of_ne hzero, update_of_ne hnew, filled] at hd
        dsimp only at hd
        split at hd
        · exact hzero (Option.some.inj hd)
        · cases hd

end Interleavings

end ProjectedCache
