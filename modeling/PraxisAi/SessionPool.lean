import Mathlib.Data.List.Perm.Basic
import Mathlib.Data.List.Range
import Mathlib.Logic.Function.Basic

/-! # The pool of idle sessions

Callers check sessions in and out, and every parking arms a timer of its own that cancels the
session unless somebody claims the parking first. Timers may fire at any time and wait between
their claim and the cancellation. A key holds one session at most, so the one claim of a checkout
makes it a single step. -/
namespace SessionPool

open List Function

section Model

def maxIdlePerKey : ℕ := 1

def maxTotalIdle : ℕ := 16

/-- In milliseconds. -/
def maxIdleAge : ℕ := 60000

/-- A session is a value that is moved from place to place. -/
structure Session where
  id : ℕ
  payloadLimit : ℕ
  lastUsed : ℕ
  idleTimer : Option ℕ
  deriving DecidableEq

/-- The task of an idle timer: the session it will cancel, and whether it has claimed it. -/
structure Task where
  session : ℕ
  claimed : Bool
  deriving DecidableEq

/-- The pool, the places of the sessions that are not in it, and what timers share with it. -/
structure World (κ : Type) where
  pool : List (κ × Session)
  held : List Session
  rejected : List Session
  drained : List Session
  parked : ℕ → Bool
  tasks : ℕ → Option Task
  armed : ℕ
  created : ℕ
  closed : ℕ → Bool
  /-- The timers that have cancelled a session, with the session. -/
  cancelledBy : List (ℕ × ℕ)
  lastCheckin : ℕ → Option (κ × ℕ)
  clock : ℕ

def World.start (κ : Type) : World κ :=
  ⟨[], [], [], [], fun _ => false, fun _ => none, 0, 0, fun _ => false, [], fun _ => none, 0⟩

variable {κ : Type} [DecidableEq κ]

/-- Claim the parking of a session before its timer does. -/
def unpark (parked : ℕ → Bool) (s : Session) : Bool × (ℕ → Bool) :=
  match s.idleTimer with
  | some timer => (parked timer, update parked timer false)
  | none => (true, parked)

def isExpiredAt (now : ℕ) (s : Session) : Bool := maxIdleAge ≤ now - s.lastUsed

/-- The loop of a checkout over the sessions of a key: the flags, the session that is usable and
the others. -/
def sift (now limit : ℕ) (closed : ℕ → Bool) :
    (ℕ → Bool) → Option Session → List Session → (ℕ → Bool) × Option Session × List Session
  | parked, found, [] => (parked, found, [])
  | parked, found, s :: rest =>
    let (claimed, parked') := unpark parked s
    let candidate := { s with idleTimer := none }
    if found.isNone ∧ claimed ∧ s.payloadLimit = limit ∧ !closed s.id ∧ !isExpiredAt now s then
      sift now limit closed parked' (some candidate) rest
    else
      let (last, usable, others) := sift now limit closed parked' found rest
      (last, usable, candidate :: others)

def stack (pool : List (κ × Session)) (key : κ) : List Session :=
  (pool.filter fun entry => entry.1 = key).map Prod.snd

def sifted (w : World κ) (key : κ) (limit : ℕ) : (ℕ → Bool) × Option Session × List Session :=
  sift w.clock limit w.closed w.parked none (stack w.pool key)

def checkout (w : World κ) (key : κ) (limit : ℕ) : World κ :=
  { w with
    pool := w.pool.filter fun entry => entry.1 ≠ key
    held := w.held ++ (sifted w key limit).2.1.toList
    rejected := w.rejected ++ (sifted w key limit).2.2
    parked := (sifted w key limit).1 }

def outdated (key : κ) (limit : ℕ) (entry : κ × Session) : Bool :=
  entry.1 = key && entry.2.payloadLimit ≠ limit

def checkin (w : World κ) (key : κ) (s : Session) : World κ :=
  let retained := w.pool.filter fun entry => !outdated key s.payloadLimit entry
  let superseded := (w.pool.filter (outdated key s.payloadLimit)).map Prod.snd
  let w' := { w with
    pool := retained
    held := w.held.erase s
    rejected := w.rejected ++ superseded
    lastCheckin := update w.lastCheckin s.id (some (key, w.clock)) }
  if maxIdlePerKey ≤ (stack retained key).length ∨ maxTotalIdle ≤ retained.length then
    { w' with rejected := w'.rejected ++ [s] }
  else
    { w' with
      pool := retained ++ [(key, { s with lastUsed := w.clock, idleTimer := some w.armed })]
      parked := update w.parked w.armed true
      tasks := update w.tasks w.armed (some ⟨s.id, false⟩)
      armed := w.armed + 1 }

inductive Event (κ : Type) where
  /-- A caller opens a session. -/
  | connect (limit : ℕ)
  | checkin (key : κ) (s : Session)
  | checkout (key : κ) (limit : ℕ)
  | takeAll
  /-- A session that was rejected or drained is closed. -/
  | close (s : Session)
  /-- The worker of a session ends by itself. -/
  | die (id : ℕ)
  /-- A timer tries to claim its parking. -/
  | fire (timer : ℕ)
  /-- A timer that has claimed its parking cancels the session. -/
  | cancel (timer : ℕ)
  | tick (duration : ℕ)

def next (w : World κ) : Event κ → World κ
  | .connect limit => { w with
      held := w.held ++ [⟨w.created, limit, w.clock, none⟩]
      created := w.created + 1 }
  | .checkin key s => if s ∈ w.held then checkin w key s else w
  | .checkout key limit => checkout w key limit
  | .takeAll => { w with pool := [], drained := w.drained ++ w.pool.map Prod.snd }
  | .close s =>
    if s ∈ w.rejected ++ w.drained then
      { w with parked := (unpark w.parked s).2, closed := update w.closed s.id true }
    else w
  | .die id => { w with closed := update w.closed id true }
  | .fire timer =>
    match w.tasks timer with
    | some ⟨session, false⟩ =>
      if w.parked timer then
        { w with
          parked := update w.parked timer false
          tasks := update w.tasks timer (some ⟨session, true⟩) }
      else { w with tasks := update w.tasks timer none }
    | _ => w
  | .cancel timer =>
    match w.tasks timer with
    | some ⟨session, true⟩ => { w with
        tasks := update w.tasks timer none
        cancelledBy := (timer, session) :: w.cancelledBy }
    | _ => w
  | .tick duration => { w with clock := w.clock + duration }

def run (w : World κ) (events : List (Event κ)) : World κ := events.foldl next w

/-- Every session, by the places where it can be. -/
def places (w : World κ) : List ℕ :=
  (w.pool.map Prod.snd ++ (w.held ++ (w.rejected ++ w.drained))).map Session.id

end Model

section Timers

variable {κ : Type} {w w' : World κ} {key : κ} {limit timer id : ℕ} {s : Session}

/-- A timer that has not cancelled a session and never will. -/
structure Quiet (w : World κ) (id timer : ℕ) : Prop where
  unclaimed : w.tasks timer ≠ some ⟨id, true⟩
  lost : w.tasks timer = some ⟨id, false⟩ → w.parked timer = false
  uncancelled : (timer, id) ∉ w.cancelledBy

/-- What the steps of others do to timers that are armed: flags only fall, and a task that claims
or cancels had its flag or had claimed. -/
structure Follows (w w' : World κ) : Prop where
  armed : w.armed ≤ w'.armed
  lowered : ∀ timer < w.armed, w'.parked timer = true → w.parked timer = true
  waiting : ∀ timer < w.armed, ∀ id, w'.tasks timer = some ⟨id, false⟩ →
    w.tasks timer = some ⟨id, false⟩
  claimed : ∀ timer < w.armed, ∀ id, w'.tasks timer = some ⟨id, true⟩ →
    w.tasks timer = some ⟨id, true⟩ ∨ (w.tasks timer = some ⟨id, false⟩ ∧ w.parked timer = true ∧
      w'.parked timer = false)
  cancelled : ∀ timer < w.armed, ∀ id, (timer, id) ∈ w'.cancelledBy →
    (timer, id) ∈ w.cancelledBy ∨ w.tasks timer = some ⟨id, true⟩

theorem Quiet.follows (h : Quiet w id timer) (hw : Follows w w') (htimer : timer < w.armed) :
    Quiet w' id timer := by
  refine ⟨fun hclaimed => ?_, fun hwaiting => ?_, fun hcancelled => ?_⟩
  · rcases hw.claimed timer htimer id hclaimed with hbefore | ⟨hbefore, hparked, -⟩
    · exact h.unclaimed hbefore
    · rw [h.lost hbefore] at hparked
      cases hparked
  · by_contra hparked
    have hbefore := hw.lowered timer htimer (Bool.not_eq_false _ ▸ hparked)
    rw [h.lost (hw.waiting timer htimer id hwaiting)] at hbefore
    cases hbefore
  · rcases hw.cancelled timer htimer id hcancelled with hbefore | hbefore
    · exact h.uncancelled hbefore
    · exact h.unclaimed hbefore

theorem Follows.of_lowered (harmed : w'.armed = w.armed) (htasks : w'.tasks = w.tasks)
    (hcancelled : w'.cancelledBy = w.cancelledBy)
    (hparked : ∀ timer, w'.parked timer = true → w.parked timer = true) : Follows w w' where
  armed := Nat.le_of_eq harmed.symm
  lowered timer _ := hparked timer
  waiting _ _ _ h := htasks ▸ h
  claimed _ _ _ h := .inl (htasks ▸ h)
  cancelled _ _ _ h := .inl (hcancelled ▸ h)

theorem of_update {β : Type} {f : ℕ → β} {own : ℕ} {value x : β}
    (h : update f own value timer = x) : (timer = own ∧ value = x) ∨ f timer = x := by
  by_cases hown : timer = own
  · subst hown
    rw [update_self] at h
    exact .inl ⟨rfl, h⟩
  · rw [update_of_ne hown] at h
    exact .inr h

theorem unpark_lowers {parked : ℕ → Bool} (h : (unpark parked s).2 timer = true) :
    parked timer = true := by
  unfold unpark at h
  rcases htimer : s.idleTimer with _ | own
  · rw [htimer] at h
    exact h
  · rw [htimer] at h
    exact (of_update h).resolve_left fun hown => by cases hown.2

theorem sift_lowers {now : ℕ} {closed : ℕ → Bool} {found : Option Session}
    (sessions : List Session) {parked : ℕ → Bool}
    (h : (sift now limit closed parked found sessions).1 timer = true) : parked timer = true := by
  induction sessions generalizing parked found with
  | nil => exact h
  | cons s rest ih =>
    rw [sift] at h
    dsimp only at h
    split at h
    · exact unpark_lowers (ih h)
    · exact unpark_lowers (ih h)

variable [DecidableEq κ]

theorem follows_checkin (w : World κ) (key : κ) (s : Session) : Follows w (checkin w key s) := by
  rw [checkin]
  dsimp only
  split
  · exact .of_lowered rfl rfl rfl fun _ h => h
  · have hne : ∀ timer < w.armed, timer ≠ w.armed := fun timer h => Nat.ne_of_lt h
    refine ⟨Nat.le_succ _, fun timer h hparked => ?_, fun timer h id hwaiting => ?_,
      fun timer h id hclaimed => .inl ?_, fun timer h id hcancelled => .inl hcancelled⟩
    · exact (update_of_ne (hne timer h) _ _).symm.trans hparked
    · exact (update_of_ne (hne timer h) _ _).symm.trans hwaiting
    · exact (update_of_ne (hne timer h) _ _).symm.trans hclaimed

theorem follows_fire (w : World κ) (own : ℕ) : Follows w (next w (.fire own)) := by
  rcases htask : w.tasks own with _ | ⟨session, _ | _⟩
  · simp only [next, htask]
    exact .of_lowered rfl rfl rfl fun _ h => h
  · rcases hparked : w.parked own with _ | _
    · simp only [next, htask, hparked, Bool.false_eq_true, if_false]
      refine ⟨Nat.le_refl _, fun timer _ h => h, fun timer _ id h => ?_,
        fun timer _ id h => .inl ?_, fun timer _ id h => .inl h⟩
      · exact (of_update h).resolve_left fun hown => by cases hown.2
      · exact (of_update h).resolve_left fun hown => by cases hown.2
    · simp only [next, htask, hparked, if_true]
      refine ⟨Nat.le_refl _, fun timer _ h => ?_, fun timer _ id h => ?_, fun timer _ id h => ?_,
        fun timer _ id h => .inl h⟩
      · exact (of_update h).resolve_left fun hown => by cases hown.2
      · exact (of_update h).resolve_left fun hown => by cases hown.2
      · rcases of_update h with ⟨rfl, hclaimed⟩ | h
        · cases hclaimed
          exact .inr ⟨htask, hparked, update_self _ _ _⟩
        · exact .inl h
  · simp only [next, htask]
    exact .of_lowered rfl rfl rfl fun _ h => h

theorem follows_cancel (w : World κ) (own : ℕ) : Follows w (next w (.cancel own)) := by
  rcases htask : w.tasks own with _ | ⟨session, _ | _⟩
  · simp only [next, htask]
    exact .of_lowered rfl rfl rfl fun _ h => h
  · simp only [next, htask]
    exact .of_lowered rfl rfl rfl fun _ h => h
  · simp only [next, htask]
    refine ⟨Nat.le_refl _, fun timer _ h => h, fun timer _ id h => ?_, fun timer _ id h => .inl ?_,
      fun timer _ id h => ?_⟩
    · exact (of_update h).resolve_left fun hown => by cases hown.2
    · exact (of_update h).resolve_left fun hown => by cases hown.2
    · rcases mem_cons.mp h with heq | h
      · cases heq
        exact .inr htask
      · exact .inl h

theorem follows_next (w : World κ) (event : Event κ) : Follows w (next w event) := by
  cases event with
  | checkin key s =>
    rw [next]
    split
    · exact follows_checkin w key s
    · exact .of_lowered rfl rfl rfl fun _ h => h
  | checkout key limit =>
    exact .of_lowered rfl rfl rfl fun timer h => sift_lowers _ h
  | close s =>
    rw [next]
    split
    · exact .of_lowered rfl rfl rfl fun timer h => unpark_lowers h
    · exact .of_lowered rfl rfl rfl fun _ h => h
  | fire timer => exact follows_fire w timer
  | cancel timer => exact follows_cancel w timer
  | _ => exact .of_lowered rfl rfl rfl fun _ h => h

/-- Once a timer is quiet it stays so. -/
theorem Quiet.run (h : Quiet w id timer) (htimer : timer < w.armed) (events : List (Event κ)) :
    Quiet (run w events) id timer := by
  induction events generalizing w with
  | nil => exact h
  | cons event rest ih =>
    have hw := follows_next w event
    exact ih (h.follows hw htimer) (Nat.lt_of_lt_of_le htimer hw.armed)

end Timers

section Invariant

variable {κ : Type} [DecidableEq κ] {w w' : World κ} {key : κ} {limit timer id : ℕ} {s : Session}
  {entry : κ × Session}

/-- Timers and cancellations are about timers that were armed and sessions that were opened. -/
structure Known (w : World κ) : Prop where
  armed : ∀ timer task, w.tasks timer = some task → timer < w.armed ∧ task.session < w.created
  cancelled : ∀ timer id, (timer, id) ∈ w.cancelledBy → timer < w.armed ∧ id < w.created

/-- A parked session: only the timer of this parking can cancel it, and only when it claims the
parking first. -/
structure Waits (w : World κ) (entry : κ × Session) : Prop where
  checkin : w.lastCheckin entry.2.id = some (entry.1, entry.2.lastUsed)
  timer : ∃ own < w.armed, entry.2.idleTimer = some own ∧
    (∀ other, other ≠ own → Quiet w entry.2.id other) ∧
    (w.parked own = true → w.tasks own ≠ some ⟨entry.2.id, true⟩ ∧
      (own, entry.2.id) ∉ w.cancelledBy)

structure Good (w : World κ) : Prop where
  perKey : ∀ key, (stack w.pool key).length ≤ maxIdlePerKey
  total : w.pool.length ≤ maxTotalIdle
  placed : (places w).Perm (List.range w.created)
  known : Known w
  held : ∀ s ∈ w.held, ∀ timer, Quiet w s.id timer
  waits : ∀ entry ∈ w.pool, Waits w entry

omit [DecidableEq κ] in
theorem Known.quiet (h : Known w) (hnew : w.armed ≤ timer ∨ w.created ≤ id) : Quiet w id timer := by
  refine ⟨fun htask => ?_, fun htask => ?_, fun hcancelled => ?_⟩
  · have := h.armed timer _ htask
    dsimp only at this
    omega
  · have := h.armed timer _ htask
    dsimp only at this
    omega
  · have := h.cancelled timer id hcancelled
    omega

omit [DecidableEq κ] in
theorem Known.of_eq (h : Known w) (harmed : w'.armed = w.armed) (hcreated : w.created ≤ w'.created)
    (htasks : ∀ timer task, w'.tasks timer = some task →
      ∃ task', w.tasks timer = some task' ∧ task'.session = task.session)
    (hcancelled : ∀ timer id, (timer, id) ∈ w'.cancelledBy →
      (timer, id) ∈ w.cancelledBy ∨ ∃ claimed, w.tasks timer = some ⟨id, claimed⟩) : Known w' := by
  refine ⟨fun timer task htask => ?_, fun timer id hmem => ?_⟩
  · obtain ⟨task', htask', hsession⟩ := htasks timer task htask
    have := h.armed timer task' htask'
    omega
  · rcases hcancelled timer id hmem with hmem | ⟨claimed, htask⟩
    · have := h.cancelled timer id hmem
      omega
    · have := h.armed timer _ htask
      dsimp only at this
      omega

theorem known_next (h : Known w) (hheld : ∀ s ∈ w.held, s.id < w.created) (event : Event κ) :
    Known (next w event) := by
  have hsame : ∀ timer task, w.tasks timer = some task →
      ∃ task', w.tasks timer = some task' ∧ task'.session = task.session :=
    fun _ task htask => ⟨task, htask, rfl⟩
  cases event with
  | connect limit => exact h.of_eq rfl (Nat.le_succ _) hsame fun _ _ hmem => .inl hmem
  | checkin key s =>
    rw [next]
    split
    · rename_i hs
      rw [checkin]
      dsimp only
      split
      · exact h.of_eq rfl (Nat.le_refl _) hsame fun _ _ hmem => .inl hmem
      · refine ⟨fun timer task htask => ?_, fun timer id hmem => ?_⟩
        · rcases of_update htask with ⟨rfl, hown⟩ | hold
          · cases hown
            exact ⟨Nat.lt_succ_self _, hheld s hs⟩
          · have := h.armed timer task hold
            exact ⟨Nat.lt_succ_of_lt this.1, this.2⟩
        · have := h.cancelled timer id hmem
          exact ⟨Nat.lt_succ_of_lt this.1, this.2⟩
    · exact h
  | close s =>
    rw [next]
    split
    · exact h.of_eq rfl (Nat.le_refl _) hsame fun _ _ hmem => .inl hmem
    · exact h
  | fire own =>
    rcases htask : w.tasks own with _ | ⟨session, _ | _⟩
    · simp only [next, htask]
      exact h
    · rcases hparked : w.parked own with _ | _
      · simp only [next, htask, hparked, Bool.false_eq_true, if_false]
        refine h.of_eq rfl (Nat.le_refl _) (fun timer task hnew => ?_) fun _ _ hmem => .inl hmem
        exact hsame timer task ((of_update hnew).resolve_left fun hown => by cases hown.2)
      · simp only [next, htask, hparked, if_true]
        refine h.of_eq rfl (Nat.le_refl _) (fun timer task hnew => ?_) fun _ _ hmem => .inl hmem
        rcases of_update hnew with ⟨rfl, hown⟩ | hold
        · cases hown
          exact ⟨_, htask, rfl⟩
        · exact hsame timer task hold
    · simp only [next, htask]
      exact h
  | cancel own =>
    rcases htask : w.tasks own with _ | ⟨session, _ | _⟩
    · simp only [next, htask]
      exact h
    · simp only [next, htask]
      exact h
    · simp only [next, htask]
      refine h.of_eq rfl (Nat.le_refl _) (fun timer task hnew => ?_) (fun timer id hmem => ?_)
      · exact hsame timer task ((of_update hnew).resolve_left fun hown => by cases hown.2)
      · rcases mem_cons.mp hmem with heq | hmem
        · cases heq
          exact .inr ⟨true, htask⟩
        · exact .inl hmem
  | _ => exact h.of_eq rfl (Nat.le_refl _) hsame fun _ _ hmem => .inl hmem

omit [DecidableEq κ] in
theorem quiet_all (h : ∀ timer, Quiet w id timer) (hw : Follows w w')
    (hnew : ∀ timer, w.armed ≤ timer → Quiet w' id timer) (timer : ℕ) : Quiet w' id timer := by
  rcases Nat.lt_or_ge timer w.armed with hold | hge
  · exact (h timer).follows hw hold
  · exact hnew timer hge

omit [DecidableEq κ] in
theorem Waits.follows (h : Waits w entry) (hw : Follows w w')
    (hcheckin : w'.lastCheckin entry.2.id = w.lastCheckin entry.2.id)
    (hnew : ∀ timer, w.armed ≤ timer → Quiet w' entry.2.id timer) : Waits w' entry := by
  obtain ⟨own, hown, hidle, hothers, hlive⟩ := h.timer
  refine ⟨hcheckin.trans h.checkin, own, Nat.lt_of_lt_of_le hown hw.armed, hidle,
    fun other hother => ?_, fun hparked => ?_⟩
  · rcases Nat.lt_or_ge other w.armed with hold | hge
    · exact (hothers other hother).follows hw hold
    · exact hnew other hge
  · obtain ⟨hunclaimed, huncancelled⟩ := hlive (hw.lowered own hown hparked)
    refine ⟨fun hclaimed => ?_, fun hcancelled => ?_⟩
    · rcases hw.claimed own hown _ hclaimed with hbefore | ⟨-, -, hlost⟩
      · exact hunclaimed hbefore
      · rw [hparked] at hlost
        cases hlost
    · rcases hw.cancelled own hown _ hcancelled with hbefore | hbefore
      · exact huncancelled hbefore
      · exact hunclaimed hbefore

theorem Good.lt_created (h : Good w) (hid : id ∈ places w) : id < w.created :=
  mem_range.mp (h.placed.mem_iff.mp hid)

theorem Good.nodup (h : Good w) : (places w).Nodup := h.placed.nodup_iff.mpr nodup_range

theorem Good.apart (h : Good w) (hentry : entry ∈ w.pool) (hs : s ∈ w.held) :
    entry.2.id ≠ s.id := by
  have hnodup := h.nodup
  rw [places, map_append] at hnodup
  exact (nodup_append.mp hnodup).2.2 _
    (mem_map_of_mem (mem_map_of_mem hentry)) _
    (mem_map_of_mem (mem_append_left _ hs))

theorem Good.apart_held (h : Good w) (hs : s ∈ w.held) {other : Session}
    (hother : other ∈ w.held.erase s) : other.id ≠ s.id := by
  have hnodup := h.nodup
  rw [places, map_append] at hnodup
  have hheld := (nodup_append.mp hnodup).2.1
  rw [map_append] at hheld
  have hperm := (perm_cons_erase hs).map Session.id
  have hcons := hperm.nodup_iff.mp (nodup_append.mp hheld).1
  rw [map_cons, nodup_cons] at hcons
  intro heq
  exact hcons.1 (heq ▸ mem_map_of_mem hother)

theorem Good.mem_held (h : Good w) (hs : s ∈ w.held) : s.id < w.created :=
  h.lt_created (mem_map_of_mem (mem_append_right _ (mem_append_left _ hs)))

theorem Good.beside (h : Good w) (event : Event κ) (hpool : (next w event).pool = w.pool)
    (hheld : (next w event).held = w.held) (hplaces : places (next w event) = places w)
    (hcreated : (next w event).created = w.created)
    (harmed : (next w event).armed = w.armed)
    (hcheckin : (next w event).lastCheckin = w.lastCheckin) : Good (next w event) := by
  have hknown := known_next h.known (fun s hs => h.mem_held hs) event
  have hw := follows_next w event
  have hnew : ∀ id timer, w.armed ≤ timer → Quiet (next w event) id timer :=
    fun id timer hge => hknown.quiet (.inl (harmed.symm ▸ hge))
  refine ⟨hpool.symm ▸ h.perKey, hpool.symm ▸ h.total, ?_, hknown, ?_, ?_⟩
  · rw [hplaces, hcreated]
    exact h.placed
  · intro s hs
    rw [hheld] at hs
    exact quiet_all (h.held s hs) hw (hnew s.id)
  · intro entry hentry
    rw [hpool] at hentry
    exact (h.waits entry hentry).follows hw (by rw [hcheckin]) (hnew entry.2.id)

theorem good_start : Good (World.start κ) := by
  refine ⟨fun key => Nat.zero_le _, Nat.zero_le _, List.Perm.refl _, ⟨?_, ?_⟩, ?_, ?_⟩
  · intro timer task htask
    cases htask
  · intro timer id hmem
    cases hmem
  · intro s hs
    cases hs
  · intro entry hentry
    cases hentry

theorem Good.connect (h : Good w) (limit : ℕ) : Good (next w (.connect limit)) := by
  have hknown := known_next h.known (fun s hs => h.mem_held hs) (.connect limit)
  have hw := follows_next w (.connect limit)
  have hnew : ∀ id timer, w.armed ≤ timer → Quiet (next w (.connect limit)) id timer :=
    fun id timer hge => hknown.quiet (.inl hge)
  refine ⟨h.perKey, h.total, ?_, hknown, ?_, ?_⟩
  · have hplaces : (places (next w (.connect limit))).Perm (places w ++ [w.created]) := by
      rw [perm_iff_count]
      intro id
      simp only [places, next, map_append, count_append, map_cons, map_nil]
      omega
    have hrange : List.range (next w (.connect limit)).created =
        List.range w.created ++ [w.created] := range_succ
    rw [hrange]
    exact hplaces.trans (h.placed.append_right _)
  · intro s hs
    rcases mem_append.mp hs with hs | hs
    · exact quiet_all (h.held s hs) hw (hnew s.id)
    · rw [mem_singleton.mp hs]
      exact quiet_all (fun timer => h.known.quiet (.inr (Nat.le_refl _))) hw (hnew _)
  · intro entry hentry
    exact (h.waits entry hentry).follows hw rfl (hnew entry.2.id)

theorem length_stack_filter_le (pool : List (κ × Session)) (p : κ × Session → Bool) (key : κ) :
    (stack (pool.filter p) key).length ≤ (stack pool key).length := by
  rw [stack, stack, length_map, length_map]
  exact (filter_sublist.filter _).length_le

theorem Good.takeAll (h : Good w) : Good (next w .takeAll) := by
  have hknown := known_next h.known (fun s hs => h.mem_held hs) .takeAll
  refine ⟨fun key => Nat.zero_le _, Nat.zero_le _, ?_, hknown, ?_, ?_⟩
  · refine List.Perm.trans ?_ h.placed
    rw [perm_iff_count]
    intro id
    simp only [places, next, map_append, count_append, map_nil, count_nil]
    omega
  · intro s hs
    exact quiet_all (h.held s hs) (follows_next w .takeAll) fun timer hge =>
      hknown.quiet (.inl hge)
  · intro entry hentry
    cases hentry

section Checkout

variable {now : ℕ} {closed : ℕ → Bool}

theorem sift_ids (sessions : List Session) (parked : ℕ → Bool) (found : Option Session) :
    (((sift now limit closed parked found sessions).2.1.toList ++
      (sift now limit closed parked found sessions).2.2).map Session.id).Perm
      ((found.toList ++ sessions).map Session.id) := by
  induction sessions generalizing parked found with
  | nil => exact List.Perm.refl _
  | cons s rest ih =>
    rw [sift]
    dsimp only
    split
    · rename_i husable
      rw [Option.isNone_iff_eq_none.mp husable.1]
      exact ih _ _
    · have hrest := (ih (unpark parked s).2 found).cons s.id
      refine List.Perm.trans ?_ (hrest.trans ?_)
      · rw [map_append, map_cons, map_append]
        exact perm_middle
      · rw [map_append, map_append, map_cons]
        exact perm_middle.symm

/-- What a session must be like to be handed out, judged by the flags before the loop. -/
structure Usable (now limit : ℕ) (closed parked : ℕ → Bool) (s : Session) : Prop where
  claimed : ∀ timer, s.idleTimer = some timer → parked timer = true
  limit_eq : s.payloadLimit = limit
  alive : closed s.id = false
  young : now - s.lastUsed < maxIdleAge

theorem sift_found (sessions : List Session) (parked : ℕ → Bool) (candidate : Session) :
    (sift now limit closed parked (some candidate) sessions).2.1 = some candidate := by
  induction sessions generalizing parked with
  | nil => rfl
  | cons s rest ih =>
    rw [sift]
    dsimp only
    rw [if_neg (fun h => Bool.false_ne_true h.1)]
    exact ih _

theorem sift_usable (sessions : List Session) {parked : ℕ → Bool} {candidate : Session}
    (h : (sift now limit closed parked none sessions).2.1 = some candidate) :
    ∃ s ∈ sessions, candidate = { s with idleTimer := none } ∧
      Usable now limit closed parked s ∧
      ∀ timer, s.idleTimer = some timer →
        (sift now limit closed parked none sessions).1 timer = false := by
  induction sessions generalizing parked with
  | nil => cases h
  | cons s rest ih =>
    rw [sift] at h ⊢
    dsimp only at h ⊢
    split at h
    · rename_i husable
      rw [if_pos husable]
      rw [sift_found] at h
      obtain ⟨-, hclaimed, hlimit, halive, hyoung⟩ := husable
      refine ⟨s, mem_cons_self, (Option.some.inj h).symm, ⟨fun timer htimer => ?_, hlimit,
        Bool.not_eq_true' _ ▸ halive, ?_⟩, fun timer htimer => ?_⟩
      · rw [unpark, htimer] at hclaimed
        exact hclaimed
      · rw [isExpiredAt, Bool.not_eq_true', decide_eq_false_iff_not] at hyoung
        omega
      · by_contra hraised
        have hparked := sift_lowers rest (Bool.not_eq_false _ ▸ hraised)
        rw [unpark, htimer] at hparked
        cases (update_self timer false parked).symm.trans hparked
    · rename_i husable
      rw [if_neg husable]
      obtain ⟨s', hs', hcandidate, husable', hflag⟩ := ih h
      refine ⟨s', mem_cons_of_mem _ hs', hcandidate, ⟨fun timer htimer => ?_,
        husable'.limit_eq, husable'.alive, husable'.young⟩, hflag⟩
      exact unpark_lowers (husable'.claimed timer htimer)

theorem mem_stack {pool : List (κ × Session)} : s ∈ stack pool key ↔ (key, s) ∈ pool := by
  simp [stack]

/-- The session that a checkout hands out was parked under the key, and no timer armed before can
cancel it. -/
theorem Good.handedOut (h : Good w) {candidate : Session}
    (hfound : (sifted w key limit).2.1 = some candidate) :
    (∃ since, w.lastCheckin candidate.id = some (key, since) ∧ w.clock - since < maxIdleAge) ∧
    candidate.payloadLimit = limit ∧ w.closed candidate.id = false ∧
    ∀ timer, Quiet (checkout w key limit) candidate.id timer := by
  obtain ⟨s, hs, rfl, husable, hflag⟩ := sift_usable _ hfound
  have hwaits := h.waits _ (mem_stack.mp hs)
  obtain ⟨own, hown, hidle, hothers, hlive⟩ := hwaits.timer
  obtain ⟨hunclaimed, huncancelled⟩ := hlive (husable.claimed own hidle)
  refine ⟨⟨s.lastUsed, hwaits.checkin, husable.young⟩, husable.limit_eq, husable.alive,
    fun timer => ?_⟩
  by_cases htimer : timer = own
  · subst htimer
    exact ⟨hunclaimed, fun _ => hflag timer hidle, huncancelled⟩
  · have hquiet := hothers timer htimer
    refine ⟨hquiet.unclaimed, fun htask => ?_, hquiet.uncancelled⟩
    by_contra hraised
    have hparked := sift_lowers _ (Bool.not_eq_false _ ▸ hraised)
    rw [hquiet.lost htask] at hparked
    cases hparked

theorem Good.checkout (h : Good w) (key : κ) (limit : ℕ) : Good (next w (.checkout key limit)) := by
  have hknown := known_next h.known (fun s hs => h.mem_held hs) (.checkout key limit)
  have hw := follows_next w (.checkout key limit)
  have hnew : ∀ id timer, w.armed ≤ timer → Quiet (next w (.checkout key limit)) id timer :=
    fun id timer hge => hknown.quiet (.inl hge)
  refine ⟨fun key' => ?_, ?_, ?_, hknown, ?_, ?_⟩
  · exact Nat.le_trans (length_stack_filter_le _ _ _) (h.perKey key')
  · exact Nat.le_trans (length_filter_le _ _) h.total
  · refine List.Perm.trans ?_ h.placed
    rw [perm_iff_count]
    intro id
    have hsift := (@sift_ids limit w.clock w.closed (stack w.pool key) w.parked none).count_eq id
    have hsplit := ((filter_append_perm (fun entry : κ × Session => decide (entry.1 = key))
      w.pool).map fun entry => entry.2.id).count_eq id
    simp only [places, next, SessionPool.checkout, sifted, stack, map_append, count_append, map_map,
      Option.toList_none, nil_append, ne_eq, decide_not] at hsift hsplit ⊢
    simp only [comp_def] at hsift hsplit ⊢
    omega
  · intro s hs
    rcases mem_append.mp hs with hs | hs
    · exact quiet_all (h.held s hs) hw (hnew s.id)
    · exact (h.handedOut (Option.mem_toList.mp hs)).2.2.2
  · intro entry hentry
    exact (h.waits entry (mem_of_mem_filter hentry)).follows hw rfl (hnew entry.2.id)

end Checkout

section Checkin

theorem count_split (pool : List (κ × Session)) (key : κ) (limit id : ℕ) :
    ((pool.filter fun entry => !outdated key limit entry).map fun entry => entry.2.id).count id +
      ((pool.filter (outdated key limit)).map fun entry => entry.2.id).count id =
      (pool.map fun entry => entry.2.id).count id := by
  have hsplit := ((filter_append_perm (outdated key limit) pool).map
    fun entry => entry.2.id).count_eq id
  rw [map_append, count_append] at hsplit
  omega

omit [DecidableEq κ] in
theorem count_held (hs : s ∈ w.held) (id : ℕ) :
    ((w.held.erase s).map Session.id).count id + [s.id].count id =
      (w.held.map Session.id).count id := by
  have hcons := ((perm_cons_erase hs).map Session.id).count_eq id
  rw [map_cons, ← singleton_append, count_append] at hcons
  omega

omit [DecidableEq κ] in
/-- A timer that was just armed is about its own session only. -/
theorem quiet_foreign (h : Known w) (h' : Known w') (harmed : w'.armed = w.armed + 1)
    (hcancelled : w'.cancelledBy = w.cancelledBy) {own : ℕ}
    (htask : w'.tasks w.armed = some ⟨own, false⟩) (hid : id ≠ own) (hge : w.armed ≤ timer) :
    Quiet w' id timer := by
  rcases Nat.eq_or_lt_of_le hge with rfl | hgt
  · refine ⟨fun hclaimed => ?_, fun hwaiting => ?_, fun hmem => ?_⟩
    · cases htask.symm.trans hclaimed
    · cases htask.symm.trans hwaiting
      exact absurd rfl hid
    · rw [hcancelled] at hmem
      exact absurd (h.cancelled _ _ hmem).1 (Nat.lt_irrefl _)
  · exact h'.quiet (.inl (harmed ▸ hgt))

/-- The session goes to the pool or is rejected, as are those that it supersedes. -/
theorem places_checkin (key : κ) (hs : s ∈ w.held) :
    (places (SessionPool.checkin w key s)).Perm (places w) := by
  rw [perm_iff_count]
  intro id
  have hpool := count_split w.pool key s.payloadLimit id
  have hcallers := count_held hs id
  unfold SessionPool.checkin
  dsimp only
  split <;>
    simp only [places, map_append, count_append, map_map, comp_def,
      map_cons, map_nil] at hpool hcallers ⊢ <;>
    omega

theorem Good.checkin (h : Good w) (key : κ) (hs : s ∈ w.held) :
    Good (SessionPool.checkin w key s) := by
  have heq : next w (.checkin key s) = SessionPool.checkin w key s := if_pos hs
  have hknown := known_next h.known (fun s hs => h.mem_held hs) (.checkin key s)
  have hw := follows_next w (.checkin key s)
  rw [heq] at hknown hw
  have hfilter : ∀ entry ∈ w.pool.filter fun entry => !outdated key s.payloadLimit entry,
      entry ∈ w.pool := fun entry hentry => mem_of_mem_filter hentry
  have hcheckin : ∀ entry ∈ w.pool,
      update w.lastCheckin s.id (some (key, w.clock)) entry.2.id =
        w.lastCheckin entry.2.id :=
      fun entry hentry => update_of_ne (h.apart hentry hs) _ _
  have hplaced := (places_checkin key hs).trans h.placed
  unfold SessionPool.checkin at hknown hw hplaced ⊢
  dsimp only at hknown hw hplaced ⊢
  by_cases hfull : maxIdlePerKey ≤ (stack (w.pool.filter fun entry =>
      !outdated key s.payloadLimit entry) key).length ∨
      maxTotalIdle ≤ (w.pool.filter fun entry => !outdated key s.payloadLimit entry).length
  · rw [if_pos hfull] at hknown hw hplaced ⊢
    refine ⟨fun key' => ?_, ?_, hplaced, hknown, ?_, ?_⟩
    · exact Nat.le_trans (length_stack_filter_le _ _ _) (h.perKey key')
    · exact Nat.le_trans (length_filter_le _ _) h.total
    · intro other hother
      exact quiet_all (h.held other (mem_of_mem_erase hother)) hw fun timer hge =>
        hknown.quiet (.inl hge)
    · intro entry hentry
      exact (h.waits entry (hfilter entry hentry)).follows hw
        (hcheckin entry (hfilter entry hentry))
        fun timer hge => hknown.quiet (.inl hge)
  · rw [if_neg hfull] at hknown hw hplaced ⊢
    rw [not_or, Nat.not_le, Nat.not_le] at hfull
    have hforeign := fun id (hid : id ≠ s.id) timer (hge : w.armed ≤ timer) =>
      quiet_foreign h.known hknown rfl rfl (update_self _ _ _) hid hge
    refine ⟨fun key' => ?_, ?_, hplaced, hknown, ?_, ?_⟩
    · by_cases hkey : key = key'
      · subst hkey
        rw [stack, filter_append, map_append, length_append, filter_cons_of_pos (by simp)]
        have hempty := hfull.1
        rw [stack] at hempty
        rw [maxIdlePerKey] at hempty ⊢
        simp only [filter_nil, map_cons, map_nil, length_cons, length_nil]
        omega
      · rw [stack, filter_append, filter_cons_of_neg (by simpa using hkey), filter_nil, append_nil]
        exact Nat.le_trans (length_stack_filter_le _ _ _) (h.perKey key')
    · rw [length_append, length_singleton]
      exact hfull.2
    · intro other hother
      exact quiet_all (h.held other (mem_of_mem_erase hother)) hw
        (hforeign other.id (h.apart_held hs hother))
    · intro entry hentry
      rcases mem_append.mp hentry with hentry | hentry
      · exact (h.waits entry (hfilter entry hentry)).follows hw
          (hcheckin entry (hfilter entry hentry))
          (hforeign entry.2.id (h.apart (hfilter entry hentry) hs))
      · rw [mem_singleton.mp hentry]
        refine ⟨update_self _ _ _, w.armed, Nat.lt_succ_self _, rfl,
          fun other hother => ?_, fun _ => ⟨fun hclaimed => ?_, fun hcancelled => ?_⟩⟩
        · rcases Nat.lt_or_ge other w.armed with hold | hge
          · exact (h.held s hs other).follows hw hold
          · exact hknown.quiet (.inl (Nat.lt_of_le_of_ne hge (Ne.symm hother)))
        · cases (update_self w.armed _ w.tasks).symm.trans hclaimed
        · exact Nat.lt_irrefl _ (h.known.cancelled _ _ hcancelled).1

end Checkin

theorem Good.next (h : Good w) (event : Event κ) : Good (next w event) := by
  cases event with
  | connect limit => exact h.connect limit
  | checkin key s =>
    rw [SessionPool.next]
    split
    · rename_i hs
      exact h.checkin key hs
    · exact h
  | checkout key limit => exact h.checkout key limit
  | takeAll => exact h.takeAll
  | close s =>
    by_cases hs : s ∈ w.rejected ++ w.drained
    · apply h.beside <;> simp only [SessionPool.next, if_pos hs, places]
    · rw [SessionPool.next, if_neg hs]
      exact h
  | die id => exact h.beside _ rfl rfl rfl rfl rfl rfl
  | fire timer =>
    apply h.beside
    all_goals
      simp only [SessionPool.next]
      split
      · split <;> rfl
      · rfl
  | cancel timer =>
    apply h.beside
    all_goals
      simp only [SessionPool.next]
      split
      · rfl
      · rfl
  | tick duration => exact h.beside _ rfl rfl rfl rfl rfl rfl

theorem Good.run (h : Good w) (events : List (Event κ)) : Good (run w events) := by
  induction events generalizing w with
  | nil => exact h
  | cons event rest ih => exact ih (h.next event)

/-- In every run: the pool stays within its bounds, every session is in exactly one place and parked
under the key of its last checkin, and a session handed out is young, has the limit that was asked
for, lives, and is never cancelled by a timer that was armed before. -/
theorem pool_hands_out_live_sessions (events : List (Event κ)) :
    (∀ key, (stack (run (World.start κ) events).pool key).length ≤ maxIdlePerKey) ∧
    (run (World.start κ) events).pool.length ≤ maxTotalIdle ∧
    (places (run (World.start κ) events)).Perm
      (List.range (run (World.start κ) events).created) ∧
    (∀ key s, (key, s) ∈ (run (World.start κ) events).pool →
      (run (World.start κ) events).lastCheckin s.id = some (key, s.lastUsed)) ∧
    ∀ key limit s, (sifted (run (World.start κ) events) key limit).2.1 = some s →
      (∃ since, (run (World.start κ) events).lastCheckin s.id = some (key, since) ∧
        (run (World.start κ) events).clock - since < maxIdleAge) ∧
      s.payloadLimit = limit ∧ (run (World.start κ) events).closed s.id = false ∧
      ∀ later timer, timer < (run (World.start κ) events).armed →
        (timer, s.id) ∉
          (run (checkout (run (World.start κ) events) key limit) later).cancelledBy := by
  have hgood := good_start.run events
  refine ⟨hgood.perKey, hgood.total, hgood.placed,
    fun key s hentry => (hgood.waits (key, s) hentry).checkin, fun key limit s hfound => ?_⟩
  obtain ⟨hsince, hlimit, halive, hquiet⟩ := hgood.handedOut hfound
  exact ⟨hsince, hlimit, halive, fun later timer htimer =>
    ((hquiet timer).run htimer later).uncancelled⟩

/-- A session is checked in and comes back before its timer claims it; another one comes too
late. -/
def handover : List (Event Unit) :=
  [.connect 8, .checkin () ⟨0, 8, 0, none⟩, .tick 59999]

theorem handed_over_in_time :
    (sifted (run (World.start Unit) handover) () 8).2.1 = some ⟨0, 8, 0, none⟩ ∧
    (sifted (run (World.start Unit) (handover ++ [.fire 0])) () 8).2.1 = none ∧
    ∀ later,
      (0, 0) ∉ (run (checkout (run (World.start Unit) handover) () 8) later).cancelledBy := by
  have hfound : (sifted (run (World.start Unit) handover) () 8).2.1 = some ⟨0, 8, 0, none⟩ := by
    decide
  refine ⟨hfound, by decide, fun later => ?_⟩
  exact ((pool_hands_out_live_sessions handover).2.2.2.2 () 8 _ hfound).2.2.2 later 0 (by decide)

end Invariant

end SessionPool
