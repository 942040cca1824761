import PraxisAi.KeyedMaps
import Mathlib.Logic.Function.Basic

/-! # Task routes

The store of task and context routes, used by any number of threads. A lookup reads under the read
lock and, where it met an expired route, comes back under the write lock; an insertion computes the
expiry before it has the lock. Each lock section is one step. Times read inside sections never go
back; the time an expiry is computed from is read outside and may be any. -/
namespace TaskRoutes

open List Function
open KeyedMaps

def maxIdLen : ℕ := 256

def maxTaskRoutes : ℕ := 50000

def maxContextRoutes : ℕ := 50000

/-- Instants are in nanoseconds. -/
def evictionInterval : ℕ := 30 * 10 ^ 9

inductive RouteSource where
  | task
  | context
  deriving DecidableEq

def RouteSource.limit : RouteSource → ℕ
  | .task => maxTaskRoutes
  | .context => maxContextRoutes

structure TaskRoute where
  cluster : String
  expiresAt : ℕ
  deriving DecidableEq

/-- No route if the expiry is not representable. -/
def tryRoute (horizon : ℕ) (cluster : String) (ttl now : ℕ) : Option TaskRoute :=
  if now + ttl ≤ horizon then some ⟨cluster, now + ttl⟩ else none

def isSafePromotedValue (s : String) : Bool :=
  s.toList.all fun c => c = '\t' || (0x20 ≤ c.toNat && c.toNat ≠ 0x7f)

def validateId (id : String) : Bool :=
  !id.isEmpty && id.utf8ByteSize ≤ maxIdLen && isSafePromotedValue id

/-! ## The lock sections -/

structure Table where
  routes : KeyedMap String TaskRoute := ∅
  lastEviction : ℕ

def readSection (table : Table) (id : String) (now : ℕ) : Option String × Bool :=
  match table.routes.lookup id with
  | some r => if now < r.expiresAt then (some r.cluster, false) else (none, true)
  | none => (none, false)

/-- The route may have been refreshed since it was read. -/
def recheckSection (table : Table) (id : String) (now : ℕ) : Table :=
  if (table.routes.lookup id).any fun r => r.expiresAt ≤ now then
    { table with routes := table.routes.erase id }
  else table

/-- The clock is read to see how long the last sweep is ago, for the sweep, and after it. -/
def maybeEvictMap (table : Table) (elapsedAt now after : ℕ) : Table :=
  if elapsedAt - table.lastEviction < evictionInterval then table
  else ⟨retain (fun r => now < r.expiresAt) table.routes, after⟩

/-- A full map takes no new route. -/
def refuses (limit : ℕ) (table : Table) (id : String) : Prop :=
  limit ≤ table.routes.keys.length ∧ id ∉ table.routes

instance (limit : ℕ) (table : Table) (id : String) : Decidable (refuses limit table id) :=
  inferInstanceAs (Decidable (_ ∧ _))

def putSection (limit : ℕ) (table : Table) (id : String) (route : TaskRoute) : Table :=
  if refuses limit table id then table
  else { table with routes := table.routes.insert id route }

def removeSection (table : Table) (id : String) : Table :=
  { table with routes := table.routes.erase id }

/-! ## Threads -/

inductive Write where
  | put (id : String) (route : TaskRoute)
  | remove (id : String)
  deriving DecidableEq

def Write.id : Write → String
  | .put id _ => id
  | .remove id => id

inductive Phase where
  | idle
  | inserting (source : RouteSource) (id : String) (route : TaskRoute)
  | rechecking (source : RouteSource) (id : String)
  deriving DecidableEq

variable {ι : Type*}

/-- The store, the last time read in a section, and the threads; and, for the statements, the
writes in the order of the lock and whether a route was refused. -/
structure World (ι : Type*) where
  tables : RouteSource → Table
  clock : ℕ
  phases : ι → Phase
  written : RouteSource → List Write
  refused : Bool

def World.start (ι : Type*) (now : ℕ) : World ι :=
  ⟨fun _ => { lastEviction := now }, now, fun _ => .idle, fun _ => [], false⟩

inductive Event (ι : Type*) where
  | call (thread : ι) (source : RouteSource) (id cluster : String) (ttl now : ℕ)
  | put (thread : ι) (elapsedAt now after : ℕ)
  | remove (thread : ι) (id : String)
  | lookup (thread : ι) (source : RouteSource) (id : String) (now : ℕ)
  | recheck (thread : ι) (now : ℕ)

def Enabled (w : World ι) : Event ι → Prop
  | .call thread _ _ _ _ _ => w.phases thread = .idle
  | .put thread elapsedAt now after =>
    (∃ source id route, w.phases thread = .inserting source id route) ∧
      w.clock ≤ elapsedAt ∧ elapsedAt ≤ now ∧ now ≤ after
  | .remove thread _ => w.phases thread = .idle
  | .lookup thread _ _ now => w.phases thread = .idle ∧ w.clock ≤ now
  | .recheck thread now =>
    (∃ source id, w.phases thread = .rechecking source id) ∧ w.clock ≤ now

def World.setTable (w : World ι) (source : RouteSource) (table : Table) : World ι :=
  { w with tables := update w.tables source table }

def World.setPhase [DecidableEq ι] (w : World ι) (thread : ι) (phase : Phase) : World ι :=
  { w with phases := update w.phases thread phase }

def World.write (w : World ι) (source : RouteSource) (write : Write) : World ι :=
  { w with written := update w.written source (w.written source ++ [write]) }

def insertRoute (w : World ι) (source : RouteSource) (id : String) (route : TaskRoute)
    (elapsedAt now after : ℕ) : World ι :=
  let table := maybeEvictMap (w.tables source) elapsedAt now after
  let w := { w.setTable source (putSection source.limit table id route) with clock := after }
  if refuses source.limit table id then { w with refused := true }
  else w.write source (.put id route)

section Steps

variable [DecidableEq ι] (horizon : ℕ)

def next (w : World ι) : Event ι → World ι
  | .call thread source id cluster ttl now =>
    if validateId id then
      match tryRoute horizon cluster ttl now with
      | some route => w.setPhase thread (.inserting source id route)
      | none => w
    else w
  | .put thread elapsedAt now after =>
    match w.phases thread with
    | .inserting source id route =>
      (insertRoute w source id route elapsedAt now after).setPhase thread .idle
    | _ => w
  | .remove _ id =>
    (w.setTable .task (removeSection (w.tables .task) id)).write .task (.remove id)
  | .lookup thread source id now =>
    let expired := (readSection (w.tables source) id now).2
    { w.setPhase thread (if expired then .rechecking source id else .idle) with clock := now }
  | .recheck thread now =>
    match w.phases thread with
    | .rechecking source id =>
      { (w.setTable source (recheckSection (w.tables source) id now)).setPhase thread .idle with
        clock := now }
    | _ => w

inductive Run : World ι → World ι → Prop where
  | refl (w) : Run w w
  | step {w w' e} : Run w w' → Enabled w' e → Run w (next horizon w' e)

end Steps

def getById (w : World ι) (source : RouteSource) (id : String) (now : ℕ) : Option String :=
  (readSection (w.tables source) id now).1

def getByTaskId (w : World ι) (id : String) (now : ℕ) : Option String := getById w .task id now

/-- The time by which the section of a step evicts. -/
def Event.evictsAt : Event ι → Option ℕ
  | .put _ _ now _ => some now
  | .recheck _ now => some now
  | _ => none

def lastWrite (log : List Write) (id : String) : Option Write :=
  (log.filter fun write => write.id = id).getLast?

/-! ## What a section changes -/

section Sections

variable {table : Table} {id other : String} {now elapsedAt after limit : ℕ} {route : TaskRoute}

theorem readSection_eq_some {cluster : String} : (readSection table id now).1 = some cluster ↔
    ∃ r, table.routes.lookup id = some r ∧ r.cluster = cluster ∧ now < r.expiresAt := by
  unfold readSection
  cases hlookup : table.routes.lookup id with
  | none => simp
  | some r =>
    by_cases hlive : now < r.expiresAt
    · simp [hlive]
    · simp [hlive]

/-- A section that evicts takes away only what has expired at the time it has read. -/
structure Evicts (now : ℕ) (old new : Table) : Prop where
  lookup : ∀ id, new.routes.lookup id = old.routes.lookup id ∨
    new.routes.lookup id = none ∧ ∀ r, old.routes.lookup id = some r → r.expiresAt ≤ now
  length : new.routes.keys.length ≤ old.routes.keys.length

theorem recheckSection_evicts : Evicts now table (recheckSection table id now) := by
  unfold recheckSection
  by_cases hexpired : ((table.routes.lookup id).any fun r => r.expiresAt ≤ now) = true
  · rw [if_pos hexpired]
    constructor
    · intro other
      by_cases heq : other = id
      · subst heq
        right
        refine ⟨AList.lookup_erase _ _, fun r hr => ?_⟩
        simpa [hr] using hexpired
      · exact Or.inl (AList.lookup_erase_ne heq)
    · rw [AList.keys_erase]
      exact erase_sublist.length_le
  · rw [if_neg hexpired]
    exact ⟨fun _ => Or.inl rfl, Nat.le_refl _⟩

theorem maybeEvictMap_evicts : Evicts now table (maybeEvictMap table elapsedAt now after) := by
  unfold maybeEvictMap
  by_cases hrecent : elapsedAt - table.lastEviction < evictionInterval
  · rw [if_pos hrecent]
    exact ⟨fun _ => Or.inl rfl, Nat.le_refl _⟩
  · rw [if_neg hrecent]
    refine ⟨fun id => ?_, keys_length_retain _ _⟩
    rw [lookup_retain]
    cases hlookup : table.routes.lookup id with
    | none => exact Or.inl rfl
    | some r =>
      by_cases hlive : now < r.expiresAt
      · left
        simp [hlive]
      · right
        refine ⟨by simpa using hlive, fun r' hr' => ?_⟩
        cases hr'
        exact not_lt.mp hlive

theorem lookup_putSection (h : ¬refuses limit table id) :
    (putSection limit table id route).routes.lookup other =
      if other = id then some route else table.routes.lookup other := by
  rw [putSection, if_neg h]
  by_cases heq : other = id
  · rw [heq, if_pos rfl, AList.lookup_insert]
  · rw [if_neg heq, AList.lookup_insert_ne heq]

theorem length_putSection (h : table.routes.keys.length ≤ limit) :
    (putSection limit table id route).routes.keys.length ≤ limit := by
  unfold putSection
  by_cases hrefuses : refuses limit table id
  · rwa [if_pos hrefuses]
  · rw [if_neg hrefuses]
    by_cases hmem : id ∈ table.routes
    · have hpos := length_pos_of_mem (AList.mem_keys.mp hmem)
      rw [AList.keys_insert, length_cons, length_erase_of_mem (AList.mem_keys.mp hmem)]
      omega
    · rw [keys_length_insert _ _ hmem]
      by_contra hfull
      exact hrefuses ⟨by omega, hmem⟩

end Sections

/-! ## The map and the writes -/

/-- What is found under an id whose last write is known: what was put there, unless it has expired
and is gone. -/
def Shown (clock : ℕ) (found : Option TaskRoute) : Option Write → Prop
  | some (.put _ route) => found = some route ∨ found = none ∧ route.expiresAt ≤ clock
  | _ => found = none

def Agrees (log : List Write) (table : Table) (clock : ℕ) : Prop :=
  ∀ id, Shown clock (table.routes.lookup id) (lastWrite log id)

section Agreement

variable {log : List Write} {table table' : Table} {clock clock' now : ℕ} {id : String}
  {route : TaskRoute} {write : Write}

theorem lastWrite_concat (log : List Write) (write : Write) (id : String) :
    lastWrite (log ++ [write]) id = if write.id = id then some write else lastWrite log id := by
  unfold lastWrite
  by_cases heq : write.id = id
  · simp [heq]
  · simp [heq]

theorem lastWrite_id (h : lastWrite log id = some write) : write.id = id := by
  have := mem_of_getLast? h
  simpa using (mem_filter.mp this).2

theorem Agrees.evicts (h : Agrees log table clock) (hevicts : Evicts now table table')
    (hnow : now ≤ clock') (hclock : clock ≤ clock') : Agrees log table' clock' := by
  intro id
  have hshown := h id
  rcases hevicts.lookup id with hsame | ⟨hgone, hexpired⟩
  · rw [hsame]
    cases hwrite : lastWrite log id with
    | none =>
      rw [hwrite] at hshown
      exact hshown
    | some write =>
      rw [hwrite] at hshown
      cases write with
      | put id' route =>
        rcases hshown with hfound | ⟨hnone, hle⟩
        · exact Or.inl hfound
        · exact Or.inr ⟨hnone, hle.trans hclock⟩
      | remove id' => exact hshown
  · rw [hgone]
    cases hwrite : lastWrite log id with
    | none => rfl
    | some write =>
      rw [hwrite] at hshown
      cases write with
      | put id' route =>
        rcases hshown with hfound | ⟨-, hle⟩
        · exact Or.inr ⟨rfl, (hexpired route hfound).trans hnow⟩
        · exact Or.inr ⟨rfl, hle.trans hclock⟩
      | remove id' => rfl

theorem Agrees.mono (h : Agrees log table clock) (hclock : clock ≤ clock') :
    Agrees log table clock' :=
  h.evicts ⟨fun _ => Or.inl rfl, Nat.le_refl _⟩ hclock hclock

theorem Agrees.put {limit : ℕ} (h : Agrees log table clock) (hroom : ¬refuses limit table id) :
    Agrees (log ++ [.put id route]) (putSection limit table id route) clock := by
  intro other
  rw [lookup_putSection hroom, lastWrite_concat]
  by_cases heq : other = id
  · subst heq
    have hid : (Write.put other route).id = other := rfl
    rw [if_pos rfl, if_pos hid]
    exact Or.inl rfl
  · have hne : (Write.put id route).id ≠ other := fun h => heq h.symm
    rw [if_neg heq, if_neg hne]
    exact h other

theorem Agrees.remove (h : Agrees log table clock) :
    Agrees (log ++ [.remove id]) (removeSection table id) clock := by
  intro other
  rw [lastWrite_concat]
  by_cases heq : other = id
  · subst heq
    have hid : (Write.remove other).id = other := rfl
    rw [if_pos hid]
    exact AList.lookup_erase _ _
  · have hne : (Write.remove id).id ≠ other := fun h => heq h.symm
    have hlookup : (removeSection table id).routes.lookup other = table.routes.lookup other :=
      AList.lookup_erase_ne heq
    rw [if_neg hne, hlookup]
    exact h other

/-- Routes that have expired by the last reading of the clock are not found any more, whether or
not they are still there. -/
theorem Agrees.lookup_iff (h : Agrees log table clock) (hclock : clock ≤ now) :
    (table.routes.lookup id = some route ∧ now < route.expiresAt) ↔
      (lastWrite log id = some (.put id route) ∧ now < route.expiresAt) := by
  have hshown := h id
  cases hwrite : lastWrite log id with
  | none =>
    rw [hwrite] at hshown
    rw [show table.routes.lookup id = none from hshown]
    simp
  | some write =>
    rw [hwrite] at hshown
    have hid := lastWrite_id hwrite
    cases write with
    | remove id' =>
      rw [show table.routes.lookup id = none from hshown]
      simp
    | put id' route' =>
      have hid : id' = id := hid
      subst hid
      rcases hshown with hfound | ⟨hnone, hle⟩
      · rw [hfound]
        simp
      · rw [hnone]
        constructor
        · rintro ⟨hfound, -⟩
          cases hfound
        · rintro ⟨heq, hlt⟩
          cases heq
          omega

end Agreement

/-! ## Whole runs -/

section Runs

variable {horizon : ℕ} {w w' : World ι} {e : Event ι} {source : RouteSource}

/-- The maps are never over their limits, and agree with the writes unless a route was refused. -/
structure Upheld (w : World ι) : Prop where
  limit : ∀ source, (w.tables source).routes.keys.length ≤ source.limit
  agrees : w.refused = false → ∀ source, Agrees (w.written source) (w.tables source) w.clock

theorem upheld_start (now : ℕ) : Upheld (World.start ι now) :=
  ⟨fun _ => Nat.zero_le _, fun _ _ _ => rfl⟩

theorem Upheld.evicts {table : Table} {now clock : ℕ} (h : Upheld w)
    (hevicts : Evicts now (w.tables source) table) (hnow : now ≤ clock)
    (hclock : w.clock ≤ clock) : Upheld { w.setTable source table with clock } := by
  constructor
  · intro source'
    by_cases heq : source' = source
    · subst heq
      simpa [World.setTable] using hevicts.length.trans (h.limit source')
    · simpa [World.setTable, heq] using h.limit source'
  · intro hrefused source'
    by_cases heq : source' = source
    · subst heq
      simpa [World.setTable] using (h.agrees hrefused source').evicts hevicts hnow hclock
    · simpa [World.setTable, heq] using (h.agrees hrefused source').mono hclock

theorem Upheld.write {write : Write} {table : Table} (h : Upheld w)
    (hlimit : table.routes.keys.length ≤ source.limit)
    (hagrees : ∀ {log clock}, Agrees log (w.tables source) clock →
      Agrees (log ++ [write]) table clock) :
    Upheld ((w.setTable source table).write source write) := by
  constructor
  · intro source'
    by_cases heq : source' = source
    · subst heq
      simpa [World.setTable, World.write] using hlimit
    · simpa [World.setTable, World.write, heq] using h.limit source'
  · intro hrefused source'
    by_cases heq : source' = source
    · subst heq
      simpa [World.setTable, World.write] using hagrees (h.agrees hrefused source')
    · simpa [World.setTable, World.write, heq] using h.agrees hrefused source'

/-- An insertion sweeps first and then writes into what the sweep has left. -/
theorem insertRoute_eq {id : String} {route : TaskRoute} {elapsedAt now after : ℕ}
    {swept : World ι} (hswept : swept = { w.setTable source
      (maybeEvictMap (w.tables source) elapsedAt now after) with clock := after }) :
    insertRoute w source id route elapsedAt now after =
      if refuses source.limit (swept.tables source) id then { swept with refused := true }
      else (swept.setTable source
        (putSection source.limit (swept.tables source) id route)).write source (.put id route) := by
  have htable : swept.tables source =
      maybeEvictMap (w.tables source) elapsedAt now after := by
    rw [hswept]
    simp [World.setTable]
  rw [htable, insertRoute, hswept]
  by_cases hrefuses : refuses source.limit (maybeEvictMap (w.tables source) elapsedAt now after) id
  · simp only [hrefuses, if_true, putSection, World.setTable]
  · simp only [hrefuses, if_false, putSection, World.setTable, World.write, update_idem]

theorem Upheld.insertRoute {id : String} {route : TaskRoute} {elapsedAt now after : ℕ}
    (h : Upheld w) (helapsed : w.clock ≤ elapsedAt) (hnow : elapsedAt ≤ now)
    (hafter : now ≤ after) :
    Upheld (TaskRoutes.insertRoute w source id route elapsedAt now after) := by
  rw [insertRoute_eq rfl]
  have hswept := h.evicts (@maybeEvictMap_evicts (w.tables source) now elapsedAt after) hafter
    (by omega)
  split
  · exact ⟨hswept.limit, fun hrefused => by cases hrefused⟩
  · rename_i hroom
    exact hswept.write (length_putSection (hswept.limit source)) fun hagrees => hagrees.put hroom

section Threads

variable [DecidableEq ι]

theorem Upheld.setPhase (h : Upheld w) (thread : ι) (phase : Phase) :
    Upheld (w.setPhase thread phase) := ⟨h.limit, h.agrees⟩

theorem Upheld.next (h : Upheld w) (henabled : Enabled w e) :
    Upheld (TaskRoutes.next horizon w e) := by
  cases e with
  | call thread source id cluster ttl now =>
    rw [TaskRoutes.next]
    split
    · split
      · exact h.setPhase _ _
      · exact h
    · exact h
  | put thread elapsedAt now after =>
    obtain ⟨⟨source, id, route, hphase⟩, helapsed, hnow, hafter⟩ := henabled
    simp only [TaskRoutes.next, hphase]
    exact (h.insertRoute helapsed hnow hafter).setPhase _ _
  | remove thread id =>
    refine h.write ?_ fun hagrees => hagrees.remove
    have : (removeSection (w.tables .task) id).routes.keys.length ≤
        (w.tables .task).routes.keys.length := by
      rw [removeSection, AList.keys_erase]
      exact erase_sublist.length_le
    exact this.trans (h.limit .task)
  | lookup thread source id now =>
    have hclock : Upheld { w with clock := now } :=
      ⟨h.limit, fun hrefused source => (h.agrees hrefused source).mono henabled.2⟩
    exact hclock.setPhase _ _
  | recheck thread now =>
    obtain ⟨⟨source, id, hphase⟩, hnow⟩ := henabled
    simp only [TaskRoutes.next, hphase]
    exact (h.evicts recheckSection_evicts (Nat.le_refl now) hnow).setPhase _ _

theorem Upheld.run (h : Upheld w) (hrun : Run horizon w w') : Upheld w' := by
  induction hrun with
  | refl => exact h
  | step _ henabled ih => exact ih.next henabled

def World.forgive (w : World ι) : World ι := { w with refused := false }

/-- A refused route leaves no trace in the maps. -/
theorem Upheld.next_forgive (h : Upheld w.forgive) (henabled : Enabled w e) :
    Upheld (TaskRoutes.next horizon w e).forgive := by
  have hnext : Upheld (TaskRoutes.next horizon w.forgive e) := h.next henabled
  cases e with
  | call thread source id cluster ttl now =>
    rw [TaskRoutes.next]
    split
    · split
      · exact h.setPhase _ _
      · exact h
    · exact h
  | put thread elapsedAt now after =>
    obtain ⟨⟨source, id, route, hphase⟩, helapsed, hnow, hafter⟩ := henabled
    simp only [TaskRoutes.next, hphase, insertRoute_eq rfl]
    have hswept := h.evicts (@maybeEvictMap_evicts (w.tables source) now elapsedAt after) hafter
      (helapsed.trans (hnow.trans hafter))
    split
    · exact hswept.setPhase _ _
    · rename_i hroom
      exact (hswept.write (length_putSection (hswept.limit source)) fun hagrees =>
        hagrees.put hroom).setPhase _ _
  | remove | lookup => exact hnext
  | recheck thread now =>
    obtain ⟨⟨source, id, hphase⟩, hnow⟩ := henabled
    simp only [TaskRoutes.next, hphase]
    exact (h.evicts recheckSection_evicts (Nat.le_refl now) hnow).setPhase _ _

omit [DecidableEq ι] in
theorem evicted_expired {table : Table} {id : String} {route : TaskRoute} {now : ℕ}
    (hevicts : Evicts now (w.tables source) table)
    (hfound : (w.tables source).routes.lookup id = some route)
    (hgone : table.routes.lookup id = none) : route.expiresAt ≤ now := by
  rcases hevicts.lookup id with hsame | ⟨-, hexpired⟩
  · rw [hsame, hfound] at hgone
    cases hgone
  · exact hexpired route hfound

/-- A route leaves a map only by the removal of its id, or once it has expired: one that was
refreshed after it had been read stays. -/
theorem gone_cases {id : String} {route : TaskRoute} (henabled : Enabled w e)
    (hfound : (w.tables source).routes.lookup id = some route)
    (hgone : ((next horizon w e).tables source).routes.lookup id = none) :
    (∃ thread, source = .task ∧ e = .remove thread id) ∨
      ∃ now ∈ e.evictsAt, route.expiresAt ≤ now := by
  have hsame : (next horizon w e).tables source ≠ w.tables source := by
    intro hsame
    rw [hsame, hfound] at hgone
    cases hgone
  cases e with
  | call thread source' id' cluster ttl now =>
    refine absurd ?_ hsame
    rw [next]
    split
    · split <;> rfl
    · rfl
  | put thread elapsedAt now after =>
    obtain ⟨⟨source', id', route', hphase⟩, -⟩ := henabled
    right
    refine ⟨now, rfl, ?_⟩
    simp only [next, hphase, World.setPhase] at hgone hsame
    rw [insertRoute_eq rfl] at hgone hsame
    by_cases heq : source = source'
    · subst heq
      refine evicted_expired (@maybeEvictMap_evicts (w.tables source) now elapsedAt after)
        hfound ?_
      split at hgone
      · simpa [World.setTable] using hgone
      · rename_i hroom
        simp only [World.write, World.setTable, update_self] at hgone hroom
        rw [lookup_putSection hroom] at hgone
        split at hgone
        · cases hgone
        · exact hgone
    · refine absurd ?_ hsame
      split
      · simp [World.setTable, heq]
      · simp [World.write, World.setTable, heq]
  | remove thread id' =>
    left
    cases source with
    | context =>
      refine absurd ?_ hsame
      simp [next, World.write, World.setTable]
    | task =>
      refine ⟨thread, rfl, ?_⟩
      by_contra hne
      have hid : id ≠ id' := by
        rintro rfl
        exact hne rfl
      simp only [next, World.write, World.setTable, update_self, removeSection] at hgone
      rw [AList.lookup_erase_ne hid, hfound] at hgone
      cases hgone
  | lookup thread source' id' now => exact absurd rfl hsame
  | recheck thread now =>
    obtain ⟨⟨source', id', hphase⟩, -⟩ := henabled
    right
    refine ⟨now, rfl, ?_⟩
    simp only [next, hphase, World.setPhase, World.setTable] at hgone hsame
    by_cases heq : source = source'
    · subst heq
      rw [update_self] at hgone
      exact evicted_expired recheckSection_evicts hfound hgone
    · exact absurd (update_of_ne heq _ _) hsame

/-- Over every interleaving: the maps stay within their limits; nothing is evicted that has not
expired; and as long as no route was refused, a lookup returns a cluster exactly if the last write
of the id under the lock has put it there and it has not expired at the time read. -/
theorem route_lookups_linearizable (horizon start : ℕ) (w : World ι)
    (hrun : Run horizon (World.start ι start) w) :
    (∀ source, (w.tables source).routes.keys.length ≤ 50000) ∧
    (∀ e source id route, Enabled w e → (w.tables source).routes.lookup id = some route →
      ((next horizon w e).tables source).routes.lookup id = none →
      (∃ thread, source = .task ∧ e = .remove thread id) ∨
        ∃ now ∈ e.evictsAt, route.expiresAt ≤ now) ∧
    (w.refused = false → ∀ thread source id now cluster,
      Enabled w (.lookup thread source id now) →
      (getById w source id now = some cluster ↔ ∃ expiresAt,
        lastWrite (w.written source) id = some (.put id ⟨cluster, expiresAt⟩) ∧
          now < expiresAt)) := by
  have hupheld := (upheld_start start).run hrun
  refine ⟨fun source => ?_, fun e source id route => gone_cases, ?_⟩
  · cases source with
    | task => exact hupheld.limit .task
    | context => exact hupheld.limit .context
  · intro hrefused thread source id now cluster henabled
    have hagrees := hupheld.agrees hrefused source
    rw [getById, readSection_eq_some]
    constructor
    · rintro ⟨route, hfound, rfl, hlive⟩
      exact ⟨route.expiresAt, (hagrees.lookup_iff henabled.2).mp ⟨hfound, hlive⟩⟩
    · rintro ⟨expiresAt, hwrite⟩
      obtain ⟨hfound, hlive⟩ := (hagrees.lookup_iff henabled.2).mpr hwrite
      exact ⟨⟨cluster, expiresAt⟩, hfound, rfl, hlive⟩

/-- Over every interleaving, also after routes were refused: a lookup returns a cluster exactly if
the last write of the id that was accepted has put it there and it has not expired. -/
theorem accepted_lookups_linearizable (horizon start : ℕ) (w : World ι)
    (hrun : Run horizon (World.start ι start) w) (source : RouteSource) (id : String) {now : ℕ}
    (hclock : w.clock ≤ now) (cluster : String) :
    getById w source id now = some cluster ↔ ∃ expiresAt,
      lastWrite (w.written source) id = some (.put id ⟨cluster, expiresAt⟩) ∧ now < expiresAt := by
  have hupheld : Upheld w.forgive := by
    clear hclock
    induction hrun with
    | refl => exact upheld_start start
    | step _ henabled ih => exact ih.next_forgive henabled
  have hagrees : Agrees (w.written source) (w.tables source) w.clock := hupheld.agrees rfl source
  rw [getById, readSection_eq_some]
  constructor
  · rintro ⟨route, hfound, rfl, hlive⟩
    exact ⟨route.expiresAt, (hagrees.lookup_iff hclock).mp ⟨hfound, hlive⟩⟩
  · rintro ⟨expiresAt, hwrite⟩
    obtain ⟨hfound, hlive⟩ := (hagrees.lookup_iff hclock).mpr hwrite
    exact ⟨⟨cluster, expiresAt⟩, hfound, rfl, hlive⟩

end Threads

end Runs

/-- One thread meets an expired route; before it comes back to remove it, another thread has put a
new one. -/
def refreshed : World Bool :=
  [Event.call true .task "t" "a" 5 0, .put true 1 1 1, .lookup true .task "t" 6,
    .call false .task "t" "b" 100 7, .put false 8 8 8, .recheck true 9].foldl (next 1000)
      (World.start Bool 0)

theorem run_refreshed : Run 1000 (World.start Bool 0) refreshed := by
  simp only [refreshed, foldl_cons, foldl_nil]
  refine Run.step (Run.step (Run.step (Run.step (Run.step (Run.step (Run.refl _)
    ?_) ?_) ?_) ?_) ?_) ?_
  · rfl
  · exact ⟨⟨.task, "t", ⟨"a", 5⟩, by decide⟩, by decide⟩
  · exact ⟨by decide, by decide⟩
  · rfl
  · exact ⟨⟨.task, "t", ⟨"b", 107⟩, by decide⟩, by decide⟩
  · exact ⟨⟨.task, "t", by decide⟩, by decide⟩

theorem route_lookups_linearizable_refreshed :
    getByTaskId refreshed "t" 10 = some "b" ∧
      (∀ source, (refreshed.tables source).routes.keys.length ≤ 50000) := by
  obtain ⟨hlimit, -, hlookups⟩ := route_lookups_linearizable 1000 0 refreshed run_refreshed
  refine ⟨(hlookups (by decide) true .task "t" 10 "b" ⟨?_, ?_⟩).mpr ⟨107, ?_⟩, hlimit⟩
  · decide
  · decide
  · decide

theorem refreshed_lookup : getById refreshed .task "t" 10 = some "b" :=
  (accepted_lookups_linearizable 1000 0 refreshed run_refreshed .task "t" (by decide) "b").mpr
    ⟨107, by decide⟩

end TaskRoutes
