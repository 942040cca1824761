import PraxisAi.PrefixCodes
import PraxisAi.StateBackend
import PraxisAi.ValkeyCommands
import PraxisAi.WatchedStores

/-! # The accounting marker protocol

Before a replica touches shared quota state it claims the namespace and sets or checks the marker
of its rule. Every command is a step of its own, the calls of any number of replicas and writes to
the quota state come in between, and a call may fail before or after a command took effect. -/
namespace AccountingMarkers

open List Function
open StateBackend ValkeyCommands WatchedStores

section Names

inductive Algorithm where
  | slidingWindow
  | tokenBucket
  deriving DecidableEq

def Algorithm.tag : Algorithm → String
  | .slidingWindow => "sw"
  | .tokenBucket => "tb"

/-- The namespace, and the hash that stands for a rule in the names of keys. -/
structure Names where
  space : String
  keyHash : String → String

variable (names : Names)

def accountingConfigKey (algorithm : Algorithm) (rule : String) : String :=
  names.space ++ (":v2:" ++ (algorithm.tag ++ (":rule:" ++
    (names.keyHash rule ++ ":accounting-config"))))

def accountingGenerationKey : String := names.space ++ (":v2:" ++ "accounting-generation")

def keysKey (algorithm : Algorithm) (rule : String) : String :=
  match algorithm with
  | .slidingWindow => names.space ++ (":v2:" ++ ("keys:" ++ names.keyHash rule))
  | .tokenBucket => names.space ++ (":v2:" ++ ("tb:keys:" ++ names.keyHash rule))

def accountingGenerationValue : String := "v3"

def legacyStateGenerationValue : String := "legacy-v2-state"

def maxBootstrapScanKeys : ℕ := 100000

def maxBootstrapScanRounds : ℕ := 1024

def isAsciiHexdigit (c : Char) : Bool :=
  c.isDigit || ('a' ≤ c && c ≤ 'f') || ('A' ≤ c && c ≤ 'F')

def stripBoth (front back text : String) : Option (List Char) :=
  if front.toList.isPrefixOf text.toList then
    let rest := text.toList.drop front.toList.length
    if back.toList.isSuffixOf rest then some (rest.take (rest.length - back.toList.length))
    else none
  else none

def isAccountingConfigKey (key : String) : Bool :=
  let head := names.space ++ ":v2:"
  match (stripBoth (head ++ "sw:rule:") ":accounting-config" key).or
      (stripBoth (head ++ "tb:rule:") ":accounting-config" key) with
  | some ruleHash => ruleHash.length = 64 && ruleHash.all isAsciiHexdigit
  | none => false

end Names

section Calls

/-- Where a call stands between two commands. -/
inductive Phase where
  | readingGeneration
  | readingMarker (generation : Option String)
  | bootstrapping
  | scanning (cursor rounds scannedKeys : ℕ) (unmarkedState : Bool)
  | claiming (value : String)
  | watching
  | reading
  | checking (stored : Option String)
  | unwatching (result : Except BackendError Unit)
  | executing
  | done (result : Except BackendError Unit)
  deriving DecidableEq

structure Call where
  algorithm : Algorithm
  rule : String
  expected : String
  phase : Phase
  deriving DecidableEq

def validateAccountingConfig (stored : Option String) (expected : String) :
    Except BackendError Unit :=
  match stored with
  | some stored => if stored = expected then .ok () else .error .configurationMismatch
  | none => .error .invalidResponse

variable (names : Names) {ι : Type} [DecidableEq ι]

abbrev Server (ι : Type) := Store String String ι

def Call.marker (call : Call) : String := accountingConfigKey names call.algorithm call.rule

def Call.stateIndex (call : Call) : String := keysKey names call.algorithm call.rule

def effect (server : Server ι) (i : ι) (call : Call) : Server ι :=
  match call.phase with
  | .claiming value =>
    if server.stored (accountingGenerationKey names) = none then
      server.put (accountingGenerationKey names) (some value)
    else server
  | .watching => server.watch i [call.marker names, call.stateIndex names]
  | .unwatching _ => server.unwatch i
  | .executing => server.exec i (call.marker names) call.expected
  | _ => server

/-- What the server says of the keys it looked at in one round, and whether the time is up. -/
structure Reply where
  late : Bool
  cursor : ℕ
  keys : List String

def scanBound : BackendError :=
  .unavailable "Valkey namespace bootstrap scan exceeded its safety bound"

def scanKeys : BackendError :=
  .unavailable "Valkey namespace bootstrap scan found too many keys"

def contended : BackendError := .unavailable "Valkey transaction contended"

def scanNamespaceState (rounds scannedKeys : ℕ) (unmarkedState : Bool) (reply : Reply) : Phase :=
  if maxBootstrapScanRounds ≤ rounds ∨ reply.late = true then .done (.error scanBound)
  else
    let scannedKeys := scannedKeys + reply.keys.length
    if maxBootstrapScanKeys < scannedKeys then .done (.error scanKeys)
    else
      let unmarkedState := unmarkedState || reply.keys.any fun key =>
        key ≠ accountingGenerationKey names && !isAccountingConfigKey names key
      if reply.cursor = 0 then
        .claiming (if unmarkedState then legacyStateGenerationValue else accountingGenerationValue)
      else .scanning reply.cursor (rounds + 1) scannedKeys unmarkedState

def requireGeneration (stored : String) : Phase :=
  if stored = accountingGenerationValue then .watching else .done (.error .configurationMismatch)

def advance (server : Server ι) (i : ι) (call : Call) (reply : Reply) : Phase :=
  match call.phase with
  | .readingGeneration => .readingMarker (server.stored (accountingGenerationKey names))
  | .readingMarker (some generation) =>
    if generation = accountingGenerationValue then
      match server.stored (call.marker names) with
      | some stored => .done (validateAccountingConfig (some stored) call.expected)
      | none => .watching
    else .done (.error .configurationMismatch)
  | .readingMarker none => .bootstrapping
  | .bootstrapping =>
    match server.stored (accountingGenerationKey names) with
    | some stored => requireGeneration stored
    | none => .scanning 0 0 0 false
  | .scanning _ rounds scannedKeys unmarkedState =>
    scanNamespaceState names rounds scannedKeys unmarkedState reply
  | .claiming value =>
    requireGeneration ((server.stored (accountingGenerationKey names)).getD value)
  | .watching => .reading
  | .reading => .checking (server.stored (call.marker names))
  | .checking (some stored) => .unwatching (validateAccountingConfig (some stored) call.expected)
  | .checking none =>
    if (server.stored (call.stateIndex names)).isSome then
      .unwatching (.error .configurationMismatch)
    else .executing
  | .unwatching result => .done result
  | .executing =>
    if server.touched i then
      if reply.late then .done (.error contended) else .watching
    else .done (.ok ())
  | .done result => .done result

end Calls

section Worlds

variable (names : Names) {ι : Type} [DecidableEq ι]

/-- The keys of the protocol, which nothing else writes or deletes. -/
def Protected (key : String) : Prop :=
  key = accountingGenerationKey names ∨
    ∃ algorithm rule, key = accountingConfigKey names algorithm rule

structure World (ι : Type) where
  server : Server ι
  calls : ι → Option Call

def World.start (stored : String → Option String) : World ι :=
  ⟨⟨stored, fun _ => [], fun _ => false⟩, fun _ => none⟩

inductive Event (names : Names) (ι : Type) where
  | begin (i : ι) (algorithm : Algorithm) (rule expected : String)
  | step (i : ι) (reply : Reply)
  /-- The command takes effect and its reply is lost. -/
  | lose (i : ι) (error : BackendError)
  | fail (i : ι) (error : BackendError)
  /-- A write to quota state, or its end. -/
  | quota (key : { key : String // ¬Protected names key }) (value : Option String)

def World.move (w : World ι) (i : ι) (call : Call) (phase : Phase) (server : Server ι) :
    World ι :=
  ⟨server, update w.calls i (some { call with phase })⟩

def next (w : World ι) : Event names ι → World ι
  | .begin i algorithm rule expected =>
    match w.calls i with
    | none => { w with
        calls := (update w.calls i (some ⟨algorithm, rule, expected, .readingGeneration⟩)) }
    | some _ => w
  | .step i reply =>
    match w.calls i with
    | none => w
    | some call =>
      w.move i call (advance names w.server i call reply) (effect names w.server i call)
  | .lose i error =>
    match w.calls i with
    | none | some ⟨_, _, _, .done _⟩ => w
    | some call => w.move i call (.done (.error error)) (effect names w.server i call)
  | .fail i error =>
    match w.calls i with
    | none | some ⟨_, _, _, .done _⟩ => w
    | some call => w.move i call (.done (.error error)) w.server
  | .quota key value => { w with server := w.server.put key.1 value }

def run : World ι → List (Event names ι) → World ι
  | w, [] => w
  | w, event :: rest => run (next names w event) rest

end Worlds

section KeyNames

variable {names : Names}

def keyTags : List String := ["accounting-generation", "sw:rule:", "tb:rule:", "keys:", "tb:keys:"]

/-- The kind of a key follows the namespace, and no kind begins another one. -/
theorem tag_of_key {tag tag' x y : String} (htag : tag ∈ keyTags) (htag' : tag' ∈ keyTags)
    (h : names.space ++ (":v2:" ++ (tag ++ x)) = names.space ++ (":v2:" ++ (tag' ++ y))) :
    tag = tag' ∧ x = y := by
  have hfree : ∀ v ∈ keyTags.map String.toList, ∀ w ∈ keyTags.map String.toList,
      v <+: w → v = w := by decide +kernel
  have htexts := congrArg String.toList h
  simp only [String.toList_append] at htexts
  have hrest := append_cancel_left (append_cancel_left htexts)
  obtain ⟨hsame, hbodies⟩ := PrefixCodes.tag_split hfree (mem_map_of_mem htag)
    (mem_map_of_mem htag') hrest
  exact ⟨String.toList_inj.mp hsame, String.toList_inj.mp hbodies⟩

def markerTag : Algorithm → String
  | .slidingWindow => "sw:rule:"
  | .tokenBucket => "tb:rule:"

theorem markerTag_mem (algorithm : Algorithm) : markerTag algorithm ∈ keyTags := by
  cases algorithm <;> decide

theorem accountingConfigKey_eq (algorithm : Algorithm) (rule : String) :
    accountingConfigKey names algorithm rule = names.space ++ (":v2:" ++ (markerTag algorithm ++
      (names.keyHash rule ++ ":accounting-config"))) := by
  have htag : algorithm.tag ++ ":rule:" = markerTag algorithm := by
    cases algorithm <;> decide +kernel
  rw [accountingConfigKey, ← htag, String.append_assoc]

theorem accountingGenerationKey_eq : accountingGenerationKey names =
    names.space ++ (":v2:" ++ ("accounting-generation" ++ "")) := by
  rw [String.append_empty]
  rfl

theorem accountingConfigKey_ne_generation (algorithm : Algorithm) (rule : String) :
    accountingConfigKey names algorithm rule ≠ accountingGenerationKey names := by
  rw [accountingConfigKey_eq, accountingGenerationKey_eq]
  intro heq
  have htag := (tag_of_key (markerTag_mem algorithm) (by decide) heq).1
  cases algorithm <;> exact absurd htag (by decide)

theorem keysKey_of_marker {algorithm algorithm' : Algorithm} {rule rule' : String}
    (h : accountingConfigKey names algorithm rule = accountingConfigKey names algorithm' rule') :
    keysKey names algorithm rule = keysKey names algorithm' rule' := by
  rw [accountingConfigKey_eq, accountingConfigKey_eq] at h
  obtain ⟨htag, hbody⟩ := tag_of_key (markerTag_mem algorithm) (markerTag_mem algorithm') h
  have hhash : names.keyHash rule = names.keyHash rule' := by
    have htexts := congrArg String.toList hbody
    rw [String.toList_append, String.toList_append] at htexts
    exact String.toList_inj.mp (append_cancel_right htexts)
  cases algorithm <;> cases algorithm' <;>
    first | exact absurd htag (by decide) | rw [keysKey, keysKey, hhash]

end KeyNames

section Invariant

variable {names : Names} {ι : Type} {server server' : Server ι} {i j : ι} {call : Call}

/-- What a call may rely on between two commands. -/
def Holds (names : Names) (server : Server ι) (i : ι) (call : Call) : Prop :=
  match call.phase with
  | .reading => server.watched i = [call.marker names, call.stateIndex names]
  | .checking none => server.watched i = [call.marker names, call.stateIndex names] ∧
      (server.touched i = false → server.stored (call.marker names) = none)
  | .checking (some stored) => server.stored (call.marker names) = some stored
  | .executing => server.watched i = [call.marker names, call.stateIndex names] ∧
      (server.touched i = false → server.stored (call.marker names) = none ∧
        server.stored (call.stateIndex names) = none)
  | .unwatching (.ok ()) => server.stored (call.marker names) = some call.expected
  | .done (.ok ()) => server.stored (call.marker names) = some call.expected
  | _ => True

def Kept (names : Names) (server server' : Server ι) : Prop :=
  ∀ key value, Protected names key → server.stored key = some value →
    server'.stored key = some value

theorem marker_protected (call : Call) : Protected names (call.marker names) :=
  .inr ⟨call.algorithm, call.rule, rfl⟩

/-- What others do leaves a call what it relies on. -/
theorem Holds.follows (h : Holds names server i call) (hfollows : Follows server server' i)
    (hkept : Kept names server server') : Holds names server' i call := by
  have hmarker := fun value => hkept _ value (@marker_protected names call)
  unfold Holds at h ⊢
  split at h
  · exact hfollows.watched.trans h
  · refine ⟨hfollows.watched.trans h.1, fun hclean => ?_⟩
    obtain ⟨hbefore, hsame⟩ := hfollows.clean hclean
    rw [hsame _ (by rw [h.1]; exact mem_cons_self)]
    exact h.2 hbefore
  · exact hmarker _ h
  · refine ⟨hfollows.watched.trans h.1, fun hclean => ?_⟩
    obtain ⟨hbefore, hsame⟩ := hfollows.clean hclean
    rw [hsame _ (by rw [h.1]; exact mem_cons_self),
      hsame _ (by rw [h.1]; exact mem_cons_of_mem _ mem_cons_self)]
    exact h.2 hbefore
  · exact hmarker _ h
  · exact hmarker _ h
  · trivial

theorem Kept.refl (server : Server ι) : Kept names server server := fun _ _ _ h => h

theorem Kept.trans {server'' : Server ι} (h : Kept names server server')
    (h' : Kept names server' server'') : Kept names server server'' :=
  fun key value hkey hstored => h' key value hkey (h key value hkey hstored)

theorem kept_put {key : String} (h : server.stored key = none) (value : Option String) :
    Kept names server (server.put key value) := by
  intro key' value' _ hstored
  refine (update_of_ne ?_ _ _).trans hstored
  rintro rfl
  rw [h] at hstored
  cases hstored

theorem kept_quota {key : String} (h : ¬Protected names key) (value : Option String) :
    Kept names server (server.put key value) := by
  intro key' value' hprotected hstored
  refine (update_of_ne ?_ _ _).trans hstored
  rintro rfl
  exact h hprotected

theorem ok_of_validate {stored expected : String}
    (h : validateAccountingConfig (some stored) expected = .ok ()) : stored = expected := by
  rw [validateAccountingConfig] at h
  by_contra hne
  rw [if_neg hne] at h
  cases h

section Phases

variable {algorithm : Algorithm} {rule expected : String} {result : Except BackendError Unit}

theorem holds_unwatching (h : result = .ok () →
      server.stored (accountingConfigKey names algorithm rule) = some expected) :
    Holds names server i ⟨algorithm, rule, expected, .unwatching result⟩ := by
  rcases result with e | ⟨⟩
  · trivial
  · exact h rfl

theorem holds_done (h : result = .ok () →
      server.stored (accountingConfigKey names algorithm rule) = some expected) :
    Holds names server i ⟨algorithm, rule, expected, .done result⟩ := by
  rcases result with e | ⟨⟩
  · trivial
  · exact h rfl

theorem holds_requireGeneration (stored : String) :
    Holds names server i ⟨algorithm, rule, expected, requireGeneration stored⟩ := by
  rw [requireGeneration]
  by_cases hgeneration : stored = accountingGenerationValue
  · rw [if_pos hgeneration]
    trivial
  · rw [if_neg hgeneration]
    trivial

theorem holds_scan (rounds scannedKeys : ℕ) (unmarkedState : Bool) (reply : Reply) :
    Holds names server i ⟨algorithm, rule, expected,
      scanNamespaceState names rounds scannedKeys unmarkedState reply⟩ := by
  rw [scanNamespaceState]
  dsimp only
  by_cases hbound : maxBootstrapScanRounds ≤ rounds ∨ reply.late = true
  · rw [if_pos hbound]
    trivial
  · rw [if_neg hbound]
    by_cases hkeys : maxBootstrapScanKeys < scannedKeys + reply.keys.length
    · rw [if_pos hkeys]
      trivial
    · rw [if_neg hkeys]
      by_cases hcursor : reply.cursor = 0
      · rw [if_pos hcursor]
        trivial
      · rw [if_neg hcursor]
        trivial

theorem holds_readingMarker {generation : String} {reply : Reply} :
    Holds names server i ⟨algorithm, rule, expected, advance names server i
      ⟨algorithm, rule, expected, .readingMarker (some generation)⟩ reply⟩ := by
  rw [advance]
  dsimp only
  by_cases hgeneration : generation = accountingGenerationValue
  · rw [if_pos hgeneration]
    rcases hstored : server.stored (Call.marker names
      ⟨algorithm, rule, expected, .readingMarker (some generation)⟩) with _ | stored
    · trivial
    · refine holds_done fun hok => ?_
      rw [← ok_of_validate hok]
      exact hstored
  · rw [if_neg hgeneration]
    trivial

end Phases

variable [DecidableEq ι]

theorem effect_cases (server : Server ι) (i : ι) (call : Call) :
    (effect names server i call).stored = server.stored ∨
    (∃ value, call.phase = .claiming value ∧
      server.stored (accountingGenerationKey names) = none ∧
      (effect names server i call).stored =
        update server.stored (accountingGenerationKey names) (some value)) ∨
    (call.phase = .executing ∧ server.touched i = false ∧
      (effect names server i call).stored =
        update server.stored (call.marker names) (some call.expected)) := by
  obtain ⟨algorithm, rule, expected, phase⟩ := call
  cases phase with
  | claiming value =>
    by_cases hnone : server.stored (accountingGenerationKey names) = none
    · refine .inr (.inl ⟨value, rfl, hnone, ?_⟩)
      rw [effect]
      dsimp only
      rw [if_pos hnone]
      rfl
    · left
      rw [effect]
      dsimp only
      rw [if_neg hnone]
  | executing =>
    rcases htouched : server.touched i with _ | _
    · exact .inr (.inr ⟨rfl, rfl, exec_clean htouched _ _⟩)
    · exact .inl (exec_touched htouched _ _)
  | _ => exact .inl rfl

theorem kept_effect (h : Holds names server i call) :
    Kept names server (effect names server i call) := by
  have hwrite : ∀ key value, server.stored key = none →
      (effect names server i call).stored = update server.stored key (some value) →
      Kept names server (effect names server i call) := by
    intro key value hnone hupdate key' value' hprotected hstored
    rw [hupdate]
    exact kept_put hnone (some value) key' value' hprotected hstored
  rcases effect_cases server i call with hsame | ⟨value, -, hnone, hupdate⟩ |
    ⟨hphase, hclean, hupdate⟩
  · intro key value _ hstored
    rw [hsame]
    exact hstored
  · exact hwrite _ _ hnone hupdate
  · unfold Holds at h
    rw [hphase] at h
    exact hwrite _ _ (h.2 hclean).1 hupdate

theorem follows_effect (h : j ≠ i) : Follows server (effect names server i call) j := by
  obtain ⟨algorithm, rule, expected, phase⟩ := call
  cases phase with
  | claiming value =>
    rw [effect]
    dsimp only
    split
    · exact follows_put _ _ _ _
    · exact Follows.refl _ _
  | watching => exact follows_watch h _
  | unwatching result => exact follows_watch h _
  | executing => exact follows_exec h _
  | _ => exact Follows.refl _ _

theorem holds_advance (h : Holds names server i call) (reply : Reply) :
    Holds names (effect names server i call) i
      { call with phase := advance names server i call reply } := by
  obtain ⟨algorithm, rule, expected, phase⟩ := call
  cases phase with
  | readingGeneration => trivial
  | readingMarker generation =>
    cases generation with
    | none => trivial
    | some generation => exact holds_readingMarker
  | bootstrapping =>
    rw [advance]
    dsimp only
    cases server.stored (accountingGenerationKey names) with
    | none => trivial
    | some stored => exact holds_requireGeneration stored
  | scanning cursor rounds scannedKeys unmarkedState => exact holds_scan _ _ _ _
  | claiming value => exact holds_requireGeneration _
  | watching => exact update_self i _ _
  | reading =>
    rw [advance]
    dsimp only
    rcases hstored : server.stored (Call.marker names ⟨algorithm, rule, expected, .reading⟩)
      with _ | stored
    · exact ⟨h, fun _ => hstored⟩
    · exact hstored
  | checking stored =>
    cases stored with
    | none =>
      rw [advance]
      dsimp only
      split
      · trivial
      · rename_i hindex
        refine ⟨h.1, fun hclean => ⟨h.2 hclean, ?_⟩⟩
        exact Option.not_isSome_iff_eq_none.mp hindex
    | some stored =>
      refine holds_unwatching fun hok => ?_
      rw [← ok_of_validate hok]
      exact h
  | unwatching result =>
    refine holds_done fun hok => ?_
    rw [hok] at h
    exact h
  | executing =>
    rw [advance]
    dsimp only
    rcases htouched : server.touched i with _ | _
    · rw [if_neg Bool.false_ne_true]
      refine holds_done fun _ => ?_
      have hstored : (effect names server i ⟨algorithm, rule, expected, .executing⟩).stored = _ :=
        exec_clean htouched _ _
      rw [hstored]
      exact update_self _ _ _
    · rw [if_pos rfl]
      split
      · trivial
      · trivial
  | done result => exact h

end Invariant

section Runs

variable {names : Names} {ι : Type} {w : World ι} {i : ι} {call : Call}

def Sound (names : Names) (w : World ι) : Prop :=
  ∀ i call, w.calls i = some call → Holds names w.server i call

theorem sound_start (stored : String → Option String) :
    Sound names (World.start stored : World ι) := by
  intro i call hcall
  cases hcall

/-- An undisturbed transaction finds neither the marker nor quota state of its rule. -/
theorem Sound.executes (h : Sound names w) (hcall : w.calls i = some call)
    (hphase : call.phase = .executing) (hclean : w.server.touched i = false) :
    w.server.stored (call.marker names) = none ∧
      w.server.stored (call.stateIndex names) = none := by
  have hholds := h i call hcall
  unfold Holds at hholds
  rw [hphase] at hholds
  exact hholds.2 hclean

theorem Sound.accepted (h : Sound names w) (hcall : w.calls i = some call)
    (hphase : call.phase = .done (.ok ())) :
    w.server.stored (call.marker names) = some call.expected := by
  have hholds := h i call hcall
  unfold Holds at hholds
  rw [hphase] at hholds
  exact hholds

variable [DecidableEq ι]

theorem next_cases (w : World ι) (event : Event names ι) :
    next names w event = w ∨
    (∃ i algorithm rule expected, w.calls i = none ∧ next names w event =
      { w with calls :=
        (update w.calls i (some ⟨algorithm, rule, expected, .readingGeneration⟩)) }) ∨
    (∃ i call phase, w.calls i = some call ∧
      ((∃ reply, phase = advance names w.server i call reply) ∨
        ∃ error, phase = .done (.error error)) ∧
      next names w event = w.move i call phase (effect names w.server i call)) ∨
    (∃ i call error, w.calls i = some call ∧
      next names w event = w.move i call (.done (.error error)) w.server) ∨
    ∃ key value, ¬Protected names key ∧
      next names w event = { w with server := w.server.put key value } := by
  cases event with
  | begin i algorithm rule expected =>
    rcases hcall : w.calls i with _ | call
    · refine .inr (.inl ⟨i, algorithm, rule, expected, hcall, ?_⟩)
      rw [next, hcall]
    · left
      rw [next, hcall]
  | step i reply =>
    rcases hcall : w.calls i with _ | call
    · left
      rw [next, hcall]
    · refine .inr (.inr (.inl ⟨i, call, _, hcall, .inl ⟨reply, rfl⟩, ?_⟩))
      rw [next, hcall]
  | lose i error =>
    rcases hcall : w.calls i with _ | ⟨algorithm, rule, expected, phase⟩
    · left
      rw [next, hcall]
    · cases phase with
      | done result =>
        left
        rw [next, hcall]
      | _ =>
        refine .inr (.inr (.inl ⟨i, _, _, hcall, .inr ⟨error, rfl⟩, ?_⟩))
        rw [next, hcall]
  | fail i error =>
    rcases hcall : w.calls i with _ | ⟨algorithm, rule, expected, phase⟩
    · left
      rw [next, hcall]
    · cases phase with
      | done result =>
        left
        rw [next, hcall]
      | _ =>
        refine .inr (.inr (.inr (.inl ⟨i, _, error, hcall, ?_⟩)))
        rw [next, hcall]
  | quota key value => exact .inr (.inr (.inr (.inr ⟨key.1, value, key.2, rfl⟩)))

/-- One call moves on; the others see what any connection sees. -/
theorem Sound.move (h : Sound names w) (hcall : w.calls i = some call) {phase : Phase}
    {server : Server ι} (hkept : Kept names w.server server)
    (hfollows : ∀ j, j ≠ i → Follows w.server server j)
    (hown : Holds names server i { call with phase }) :
    Sound names (w.move i call phase server) := by
  intro j call' hcall'
  by_cases hj : j = i
  · subst hj
    rw [World.move] at hcall'
    dsimp only at hcall'
    rw [update_self] at hcall'
    cases hcall'
    exact hown
  · rw [World.move] at hcall'
    dsimp only at hcall'
    rw [update_of_ne hj] at hcall'
    exact (h j call' hcall').follows (hfollows j hj) hkept

theorem Sound.next (h : Sound names w) (event : Event names ι) :
    Sound names (next names w event) ∧
      Kept names w.server (AccountingMarkers.next names w event).server := by
  rcases next_cases w event with hsame | ⟨i, algorithm, rule, expected, -, hnext⟩ |
    ⟨i, call, phase, hcall, hphase, hnext⟩ | ⟨i, call, error, hcall, hnext⟩ |
    ⟨key, value, hkey, hnext⟩
  · rw [hsame]
    exact ⟨h, Kept.refl _⟩
  · rw [hnext]
    refine ⟨?_, Kept.refl _⟩
    intro j call hcall
    dsimp only at hcall ⊢
    by_cases hj : j = i
    · subst hj
      rw [update_self] at hcall
      cases hcall
      trivial
    · rw [update_of_ne hj] at hcall
      exact h j call hcall
  · rw [hnext]
    have hholds := h i call hcall
    refine ⟨h.move hcall (kept_effect hholds) (fun j hj => follows_effect hj) ?_,
      kept_effect hholds⟩
    rcases hphase with ⟨reply, rfl⟩ | ⟨error, rfl⟩
    · exact holds_advance hholds reply
    · trivial
  · rw [hnext]
    exact ⟨h.move hcall (Kept.refl _) (fun j _ => Follows.refl _ j) trivial, Kept.refl _⟩
  · rw [hnext]
    exact ⟨fun j call hcall => (h j call hcall).follows (follows_put _ _ _ _)
      (kept_quota hkey value), kept_quota hkey value⟩

theorem Sound.run (h : Sound names w) (events : List (Event names ι)) :
    Sound names (run names w events) ∧
      Kept names w.server (AccountingMarkers.run names w events).server := by
  induction events generalizing w with
  | nil => exact ⟨h, Kept.refl _⟩
  | cons event rest ih =>
    obtain ⟨hnext, hkept⟩ := h.next event
    obtain ⟨hrest, hlater⟩ := ih hnext
    exact ⟨hrest, hkept.trans hlater⟩

theorem Sound.installs (h : Sound names w) {event : Event names ι} {algorithm : Algorithm}
    {rule : String}
    (hbefore : w.server.stored (accountingConfigKey names algorithm rule) = none)
    (hafter : (AccountingMarkers.next names w event).server.stored
      (accountingConfigKey names algorithm rule) ≠ none) :
    w.server.stored (keysKey names algorithm rule) = none := by
  rcases next_cases w event with hsame | ⟨i, algorithm, rule, expected, -, hnext⟩ |
    ⟨i, call, phase, hcall, -, hnext⟩ | ⟨i, call, error, hcall, hnext⟩ |
    ⟨key, value, hkey, hnext⟩
  · rw [hsame] at hafter
    exact absurd hbefore hafter
  · rw [hnext] at hafter
    exact absurd hbefore hafter
  · rw [hnext] at hafter
    rw [World.move] at hafter
    dsimp only at hafter
    rcases @effect_cases names _ _ w.server i call with heffect |
      ⟨claimed, -, -, heffect⟩ | ⟨hphase, hclean, heffect⟩
    · rw [heffect] at hafter
      exact absurd hbefore hafter
    · rw [heffect, update_of_ne (accountingConfigKey_ne_generation _ _)] at hafter
      exact absurd hbefore hafter
    · by_cases hmarker : accountingConfigKey names algorithm rule = call.marker names
      · have hholds := h i call hcall
        unfold Holds at hholds
        rw [hphase] at hholds
        rw [keysKey_of_marker hmarker]
        exact (hholds.2 hclean).2
      · rw [heffect, update_of_ne hmarker] at hafter
        exact absurd hbefore hafter
  · rw [hnext] at hafter
    exact absurd hbefore hafter
  · rw [hnext] at hafter
    refine absurd (?_ : _ = none) hafter
    refine (update_of_ne ?_ _ _).trans hbefore
    rintro rfl
    exact hkey (.inr ⟨algorithm, rule, rfl⟩)

/-- Whatever the schedule: what the protocol has stored stays, accepted calls agree with the
marker and with each other, and no marker is installed on top of quota state. -/
theorem accepted_calls_agree (names : Names) (stored : String → Option String)
    (events later : List (Event names ι)) (event : Event names ι) :
    (∀ key value, Protected names key →
      (run names (.start stored) events).server.stored key = some value →
      (run names (run names (.start stored) events) later).server.stored key = some value) ∧
    (∀ i call, (run names (.start stored) events).calls i = some call →
      call.phase = .done (.ok ()) →
      (run names (.start stored) events).server.stored (call.marker names) =
        some call.expected) ∧
    (∀ i j call call', (run names (.start stored) events).calls i = some call →
      (run names (.start stored) events).calls j = some call' →
      call.phase = .done (.ok ()) → call'.phase = .done (.ok ()) →
      call.marker names = call'.marker names → call.expected = call'.expected) ∧
    (∀ i call, (run names (.start stored) events).calls i = some call →
      call.phase = .executing →
      (run names (.start stored) events).server.touched i = false →
      (run names (.start stored) events).server.stored (call.marker names) = none ∧
      (run names (.start stored) events).server.stored (call.stateIndex names) = none) ∧
    ∀ algorithm rule,
      (run names (.start stored) events).server.stored
        (accountingConfigKey names algorithm rule) = none →
      (next names (run names (.start stored) events) event).server.stored
        (accountingConfigKey names algorithm rule) ≠ none →
      (run names (.start stored) events).server.stored (keysKey names algorithm rule) = none := by
  have hsound := ((sound_start stored).run events).1
  refine ⟨(hsound.run later).2, ?_, ?_, ?_, ?_⟩
  · intro i call hcall hphase
    exact hsound.accepted hcall hphase
  · intro i j call call' hcall hcall' hphase hphase' hmarker
    have haccepted := hsound.accepted hcall hphase
    rw [hmarker, hsound.accepted hcall' hphase'] at haccepted
    exact (Option.some.inj haccepted).symm
  · intro i call hcall hphase hclean
    exact hsound.executes hcall hphase hclean
  · intro algorithm rule hbefore hafter
    exact hsound.installs hbefore hafter

/-- Two replicas with different configurations of one rule on an empty server: the first claims
the namespace and sets the marker, the second finds another configuration. -/
def rivals : List (Event ⟨"ns", id⟩ Bool) :=
  .begin true .tokenBucket "rule" "old" ::
    List.replicate 9 (.step true ⟨false, 0, []⟩) ++
    .begin false .tokenBucket "rule" "new" :: List.replicate 2 (.step false ⟨false, 0, []⟩)

theorem rivals_disagree :
    (run ⟨"ns", id⟩ (.start fun _ => none) rivals).calls true =
      some ⟨.tokenBucket, "rule", "old", .done (.ok ())⟩ ∧
    (run ⟨"ns", id⟩ (.start fun _ => none) rivals).calls false =
      some ⟨.tokenBucket, "rule", "new", .done (.error .configurationMismatch)⟩ ∧
    (run ⟨"ns", id⟩ (.start fun _ => none) rivals).server.stored
      "ns:v2:tb:rule:rule:accounting-config" = some "old" := by
  have hfirst : (run ⟨"ns", id⟩ (.start fun _ => none) rivals).calls true =
      some ⟨.tokenBucket, "rule", "old", .done (.ok ())⟩ := by decide +kernel
  have hkey : accountingConfigKey ⟨"ns", id⟩ .tokenBucket "rule" =
      "ns:v2:tb:rule:rule:accounting-config" := by decide +kernel
  have hagree := (accepted_calls_agree ⟨"ns", id⟩ (fun _ => none) rivals []
    (.fail true .invalidResponse)).2.1 true _ hfirst rfl
  rw [Call.marker, hkey] at hagree
  exact ⟨hfirst, by decide +kernel, hagree⟩

end Runs

end AccountingMarkers
