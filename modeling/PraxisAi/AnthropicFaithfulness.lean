import PraxisAi.AnthropicChunking
import PraxisAi.BlockStreams

/-! # What a message stream says

A stream of chunks that ends in the sentinel and is accepted becomes one message: its start,
numbered blocks that are opened and closed in order, its delta and its stop. The texts of the
chunks are the texts of the text blocks, and the argument fragments of each call are those of its
own block. -/
namespace AnthropicFaithfulness

open List
open SseFrames JsonValues KeyedMaps AnthropicTranslation AnthropicStream AnthropicChunking
open StreamMetadata
open BlockStreams hiding Entry
open BlockStreams (Entry)
open ChunkedRuns (resume run run_append resume_silent)

section Views

inductive Kind where
  | text
  | toolUse
  deriving DecidableEq

def blockKind : Block → Kind
  | .text => .text
  | .toolUse _ _ => .toolUse

def deltaKind : Delta → Kind
  | .text _ => .text
  | .inputJson _ => .toolUse

def Fits (kind : Kind) (delta : Delta) : Prop := deltaKind delta = kind

inductive Place where
  | start
  | block
  | delta
  | stop
  | error
  deriving DecidableEq

def place : StreamEvent → Place
  | .messageStart _ _ => .start
  | .contentBlockStart _ _ => .block
  | .contentBlockDelta _ _ => .block
  | .contentBlockStop _ => .block
  | .messageDelta _ _ _ => .delta
  | .messageStop => .stop
  | .error => .error

def entry : StreamEvent → Option (Entry Kind Delta)
  | .contentBlockStart index block => some (.start index (blockKind block))
  | .contentBlockDelta index delta => some (.delta index delta)
  | .contentBlockStop index => some (.stop index)
  | _ => none

def textOf : StreamEvent → Option String
  | .contentBlockDelta _ (.text content) => some content
  | _ => none

def jsonOf : StreamEvent → Option (ℕ × String)
  | .contentBlockDelta index (.inputJson partialJson) => some (index, partialJson)
  | _ => none

def toolStart : StreamEvent → Option ℕ
  | .contentBlockStart index (.toolUse _ _) => some index
  | _ => none

def deltaOf (chunk : Json) : Option Json := (extractFirstChoice chunk).bind (·.get? "delta")

def contentOf (chunk : Json) : Option String :=
  ((deltaOf chunk).bind (·.get? "content")).bind Json.asStr

def callsOf (chunk : Json) : List Json :=
  (((deltaOf chunk).bind (·.get? "tool_calls")).bind Json.asArr).getD []

def argumentsOf (tc : Json) : Option String :=
  ((tc.get? "function").bind (·.get? "arguments")).bind Json.asStr

def sentTo (index : ℕ) (events : List StreamEvent) : List String :=
  (events.filterMap jsonOf).filterMap fun sent => if sent.1 = index then some sent.2 else none

def cameFor (key : ToolCallKey) (calls : List Json) : List String :=
  calls.filterMap fun tc => if toolCallKey tc = key then argumentsOf tc else none

structure Faithful (chunks : List Json) (events : List StreamEvent) : Prop where
  shape : ∃ n, events.map place = .start :: List.replicate n .block ++ [.delta, .stop]
  bracketed : ∃ n, Bracketed Fits (events.filterMap entry) ⟨n, ∅⟩
  stopped : ∀ i kind, .start i kind ∈ events.filterMap entry →
    ((events.filterMap entry).filterMap stopIndex).count i = 1
  texts : String.join (events.filterMap textOf) = String.join (chunks.filterMap contentOf)
  calls : ∃ (keys : List ToolCallKey) (blockOf : ToolCallKey → ℕ), keys.Nodup ∧
    (∀ key, key ∈ keys ↔ ∃ tc ∈ chunks.flatMap callsOf, toolCallKey tc = key) ∧
    events.filterMap toolStart = keys.map blockOf ∧
    ∀ key ∈ keys, String.join (sentTo (blockOf key) events) =
      String.join (cameFor key (chunks.flatMap callsOf))

end Views

section Segments

variable {m m₁ m₂ m' : StreamMetadata}

/-- Before the sentinel every block of a call is open, and no two calls share a block. -/
structure Tidy (m : StreamMetadata) : Prop where
  isOpen : ∀ {key b}, m.toolBlocks.lookup key = some b → b.isOpen = true
  below : ∀ {key b}, m.toolBlocks.lookup key = some b → b.index < m.blockIndex
  apart : ∀ {key key' b b'}, m.toolBlocks.lookup key = some b →
    m.toolBlocks.lookup key' = some b' → b.index = b'.index → key = key'

def ledger (m : StreamMetadata) : Ledger Kind where
  next := m.blockIndex + if m.textBlockOpen then 1 else 0
  openBlocks := {block | (m.textBlockOpen = true ∧ block = (m.blockIndex, .text)) ∨
    ∃ key, m.toolBlocks.lookup key = some ⟨block.1, true⟩ ∧ block.2 = .toolUse}

def blockOf (m : StreamMetadata) (key : ToolCallKey) : ℕ := (m.toolBlockIndex key).getD 0

def fragmentAt (m : StreamMetadata) (tc : Json) : Option (ℕ × String) :=
  (toolArguments tc).map (blockOf m (toolCallKey tc), ·)

/-- A part of the translation: what it was given, what it sent and what it changed. -/
structure Segment (m : StreamMetadata) (contents : List String) (calls : List Json)
    (events : List StreamEvent) (m' : StreamMetadata) : Prop where
  phase : m'.phase = m.phase
  tidy : Tidy m'
  runs : Runs Fits (ledger m) (events.filterMap entry) (ledger m')
  blocks : ∀ event ∈ events, place event = .block
  texts : events.filterMap textOf = contents
  keeps : ∀ {key b}, m.toolBlocks.lookup key = some b → m'.toolBlocks.lookup key = some b
  jsons : events.filterMap jsonOf = calls.filterMap (fragmentAt m')
  opened : ∃ keys : List ToolCallKey, keys.Nodup ∧ (∀ key ∈ keys, key ∉ m.toolBlocks) ∧
    (∀ key, key ∈ m'.toolBlocks ↔ key ∈ m.toolBlocks ∨ key ∈ keys) ∧
    events.filterMap toolStart = keys.map (blockOf m')
  called : ∀ key, key ∈ m'.toolBlocks ↔
    key ∈ m.toolBlocks ∨ ∃ tc ∈ calls, toolCallKey tc = key

theorem blockOf_eq {key : ToolCallKey} {b : ToolBlock} (h : m.toolBlocks.lookup key = some b) :
    blockOf m key = b.index := by
  rw [blockOf, toolBlockIndex, h]
  rfl

theorem blockOf_keeps
    (hkeeps : ∀ {key b}, m.toolBlocks.lookup key = some b → m'.toolBlocks.lookup key = some b)
    {key : ToolCallKey} (hkey : key ∈ m.toolBlocks) : blockOf m' key = blockOf m key := by
  obtain ⟨b, hb⟩ := Option.isSome_iff_exists.mp (AList.lookup_isSome.mpr hkey)
  rw [blockOf_eq hb, blockOf_eq (hkeeps hb)]

variable {contents contents' : List String} {calls calls' : List Json}
  {events events' : List StreamEvent}

theorem Segment.append (h : Segment m contents calls events m₁)
    (h' : Segment m₁ contents' calls' events' m₂) :
    Segment m (contents ++ contents') (calls ++ calls') (events ++ events') m₂ := by
  have hblock : ∀ key ∈ m₁.toolBlocks, blockOf m₂ key = blockOf m₁ key :=
    fun key hkey => blockOf_keeps h'.keeps hkey
  refine ⟨h'.phase.trans h.phase, h'.tidy, ?_, ?_, ?_, fun hb => h'.keeps (h.keeps hb), ?_, ?_, ?_⟩
  · rw [filterMap_append]
    exact h.runs.append h'.runs
  · intro event hevent
    rcases mem_append.mp hevent with hfirst | hsecond
    · exact h.blocks event hfirst
    · exact h'.blocks event hsecond
  · rw [filterMap_append, h.texts, h'.texts]
  · rw [filterMap_append, filterMap_append, h.jsons, h'.jsons]
    congr 1
    refine filterMap_congr fun tc htc => ?_
    rw [fragmentAt, fragmentAt, hblock _ ((h.called _).mpr (.inr ⟨tc, htc, rfl⟩))]
  · obtain ⟨keys, hnodup, hfresh, hkeys, hstarts⟩ := h.opened
    obtain ⟨keys', hnodup', hfresh', hkeys', hstarts'⟩ := h'.opened
    refine ⟨keys ++ keys', ?_, ?_, ?_, ?_⟩
    · exact hnodup.append hnodup' fun key hkey hkey' =>
        hfresh' key hkey' ((hkeys key).mpr (.inr hkey))
    · intro key hkey
      rcases mem_append.mp hkey with hkey | hkey
      · exact hfresh key hkey
      · exact fun hmem => hfresh' key hkey ((hkeys key).mpr (.inl hmem))
    · intro key
      rw [hkeys', hkeys, mem_append, or_assoc]
    · have hmap : keys.map (blockOf m₁) = keys.map (blockOf m₂) :=
        map_congr_left fun key hkey => (hblock key ((hkeys key).mpr (.inr hkey))).symm
      rw [filterMap_append, hstarts, hstarts', map_append, hmap]
  · intro key
    rw [h'.called, h.called, or_assoc]
    simp only [mem_append, or_and_right, exists_or]

structure SameBlocks (m m' : StreamMetadata) : Prop where
  phase : m'.phase = m.phase
  textBlockOpen : m'.textBlockOpen = m.textBlockOpen
  toolBlocks : m'.toolBlocks = m.toolBlocks
  blockIndex : m'.blockIndex = m.blockIndex

theorem SameBlocks.ledger (h : SameBlocks m m') : ledger m' = ledger m := by
  rw [AnthropicFaithfulness.ledger, AnthropicFaithfulness.ledger, h.textBlockOpen, h.toolBlocks,
    h.blockIndex]

theorem SameBlocks.tidy (h : SameBlocks m m') (hm : Tidy m) : Tidy m' := by
  refine ⟨fun {_ _} hb => ?_, fun {_ _} hb => ?_, fun {_ _ _ _} hb hb' => ?_⟩
  · rw [h.toolBlocks] at hb
    exact hm.isOpen hb
  · rw [h.toolBlocks] at hb
    rw [h.blockIndex]
    exact hm.below hb
  · rw [h.toolBlocks] at hb hb'
    exact hm.apart hb hb'

theorem SameBlocks.segment (h : SameBlocks m m') (hm : Tidy m) : Segment m [] [] [] m' := by
  refine ⟨h.phase, h.tidy hm, ?_, ?_, rfl, ?_, rfl, ⟨[], nodup_nil, ?_, ?_, rfl⟩, ?_⟩
  · rw [h.ledger]
    exact .nil _
  · exact fun event hevent => absurd hevent not_mem_nil
  · intro key b hb
    rwa [h.toolBlocks]
  · exact fun key hkey => absurd hkey not_mem_nil
  · intro key
    rw [h.toolBlocks]
    simp
  · intro key
    rw [h.toolBlocks]
    simp

end Segments

section Blocks

variable {m m' : StreamMetadata} {events : List StreamEvent}

theorem Segment.of_kept {contents : List String} (hphase : m'.phase = m.phase) (htidy : Tidy m')
    (hruns : Runs Fits (ledger m) (events.filterMap entry) (ledger m'))
    (hblocks : ∀ event ∈ events, place event = .block) (htexts : events.filterMap textOf = contents)
    (hkeeps : m'.toolBlocks = m.toolBlocks) (hjsons : events.filterMap jsonOf = [])
    (hstarts : events.filterMap toolStart = []) : Segment m contents [] events m' := by
  refine ⟨hphase, htidy, hruns, hblocks, htexts, ?_, hjsons, ⟨[], nodup_nil, ?_, ?_, hstarts⟩, ?_⟩
  · intro key b hb
    rwa [hkeeps]
  · exact fun key hkey => absurd hkey not_mem_nil
  · intro key
    rw [hkeeps]
    simp
  · intro key
    rw [hkeeps]
    simp

theorem emitTextDelta_segment (hm : Tidy m) (content : String) :
    Segment m [content] [] (emitTextDelta content m).1 (emitTextDelta content m).2 := by
  rw [emitTextDelta]
  by_cases hopen : m.textBlockOpen = true
  · rw [if_pos hopen]
    have hblock : (m.blockIndex, Kind.text) ∈ (ledger m).openBlocks := .inl ⟨hopen, rfl⟩
    refine .of_kept rfl hm (.one (.delta _ hblock rfl)) ?_ rfl rfl rfl rfl
    intro event hevent
    cases mem_singleton.mp hevent
    rfl
  · rw [if_neg hopen]
    have hnext : (ledger m).next = m.blockIndex := by
      rw [ledger, Bool.eq_false_of_not_eq_true hopen]
      rfl
    have hledger : ledger (m.withTextBlock true) =
        ⟨(ledger m).next + 1, insert ((ledger m).next, .text) (ledger m).openBlocks⟩ := by
      rw [hnext]
      refine Ledger.ext rfl (Set.ext fun block => ?_)
      simp [ledger, withTextBlock, hopen]
    have htidy : Tidy (m.withTextBlock true) := ⟨hm.isOpen, hm.below, hm.apart⟩
    have hstart : Admits Fits (ledger m) (.start m.blockIndex .text)
        (ledger (m.withTextBlock true)) := by
      rw [hledger, ← hnext]
      exact .start _ _
    have hblock : (m.blockIndex, Kind.text) ∈ (ledger (m.withTextBlock true)).openBlocks :=
      .inl ⟨rfl, rfl⟩
    refine .of_kept rfl htidy (.cons hstart (.one (.delta _ hblock rfl))) ?_ rfl rfl rfl rfl
    intro event hevent
    simp only [mem_cons, not_mem_nil, or_false] at hevent
    rcases hevent with rfl | rfl <;> rfl

theorem incrementBlockIndex_ok (h : incrementBlockIndex m = .ok m') :
    m' = m.withBlockIndex (m.blockIndex + 1) := by
  rw [incrementBlockIndex] at h
  split at h
  · exact (Except.ok.inj h).symm
  · cases h

theorem closeTextBlockIfOpen_segment (hm : Tidy m)
    (h : closeTextBlockIfOpen m = .ok (events, m')) :
    Segment m [] [] events m' ∧ m'.textBlockOpen = false := by
  rw [closeTextBlockIfOpen] at h
  by_cases hopen : m.textBlockOpen = true
  · rw [if_pos hopen] at h
    split at h
    · cases h
    · next next hnext =>
      cases h
      rw [incrementBlockIndex_ok hnext]
      refine ⟨.of_kept rfl ⟨hm.isOpen, fun hb => (hm.below hb).trans (Nat.lt_succ_self _), hm.apart⟩
        ?_ ?_ rfl rfl rfl rfl, rfl⟩
      · have hledger : ledger ((m.withBlockIndex (m.blockIndex + 1)).withTextBlock false) =
            ⟨(ledger m).next, {b ∈ (ledger m).openBlocks | b.1 ≠ m.blockIndex}⟩ := by
          refine Ledger.ext ?_ (Set.ext fun block => ?_)
          · simp [ledger, withTextBlock, withBlockIndex, hopen]
          · obtain ⟨i, kind⟩ := block
            simp only [ledger, withTextBlock, withBlockIndex, hopen,
              Set.mem_ofPred_eq, Prod.mk.injEq, Bool.false_eq_true, false_and, false_or, true_and]
            constructor
            · rintro ⟨key, hkey, hkind⟩
              exact ⟨.inr ⟨key, hkey, hkind⟩, (hm.below hkey).ne⟩
            · rintro ⟨⟨hi, -⟩ | hkey, hne⟩
              · exact absurd hi hne
              · exact hkey
        rw [hledger]
        have hblock : (m.blockIndex, Kind.text) ∈ (ledger m).openBlocks := .inl ⟨hopen, rfl⟩
        exact .one (.stop _ hblock)
      · intro event hevent
        cases mem_singleton.mp hevent
        rfl
  · rw [if_neg hopen] at h
    cases h
    exact ⟨SameBlocks.segment ⟨rfl, rfl, rfl, rfl⟩ hm, Bool.eq_false_of_not_eq_true hopen⟩

end Blocks

section Calls

variable {m m' : StreamMetadata} {events : List StreamEvent} {tc : Json} {key : ToolCallKey}
  {b : ToolBlock} {maxToolBlocks : ℕ}

theorem emitToolArgumentsDelta_segment (hm : Tidy m)
    (hb : m.toolBlocks.lookup (toolCallKey tc) = some b) :
    Segment m [] [tc] (emitToolArgumentsDelta (toolCallKey tc) tc m) m := by
  have hindex : m.toolBlockIndex (toolCallKey tc) = some b.index := by
    rw [toolBlockIndex, hb]
    rfl
  have hblock : (b.index, Kind.toolUse) ∈ (ledger m).openBlocks := by
    refine .inr ⟨toolCallKey tc, ?_, rfl⟩
    have hopen := hm.isOpen hb
    rw [hb]
    exact congrArg (fun isOpen => some (ToolBlock.mk b.index isOpen)) hopen
  have hcalled : ∀ key, key ∈ m.toolBlocks ↔
      key ∈ m.toolBlocks ∨ ∃ tc' ∈ [tc], toolCallKey tc' = key := by
    intro key
    refine ⟨.inl, ?_⟩
    rintro (hkey | ⟨tc', htc', rfl⟩)
    · exact hkey
    · cases mem_singleton.mp htc'
      exact mem_of_lookup hb
  have hjson : [tc].filterMap (fragmentAt m) =
      (emitToolArgumentsDelta (toolCallKey tc) tc m).filterMap jsonOf := by
    rw [emitToolArgumentsDelta, filterMap_cons, fragmentAt, blockOf_eq hb, hindex]
    cases toolArguments tc <;> rfl
  refine ⟨rfl, hm, ?_, ?_, ?_, id, hjson.symm, ⟨[], nodup_nil, ?_, ?_, ?_⟩, hcalled⟩
  · rw [emitToolArgumentsDelta, hindex]
    cases toolArguments tc with
    | none => exact .nil _
    | some args => exact .one (.delta _ hblock rfl)
  · intro event hevent
    rw [emitToolArgumentsDelta] at hevent
    split at hevent
    · cases hevent
    · cases mem_singleton.mp hevent
      rfl
  · rw [emitToolArgumentsDelta]
    cases toolArguments tc <;> rfl
  · exact fun key hkey => absurd hkey not_mem_nil
  · simp
  · rw [emitToolArgumentsDelta]
    cases toolArguments tc <;> rfl

def withNewBlock (m : StreamMetadata) (key : ToolCallKey) : StreamMetadata :=
  ((m.withToolBlock key ⟨m.blockIndex, true⟩).withBlockIndex (m.blockIndex + 1)).withToolBlockCount
    (m.toolBlockCount + 1)

theorem lookup_withNewBlock :
    (withNewBlock m key).toolBlocks.lookup key = some ⟨m.blockIndex, true⟩ :=
  AList.lookup_insert _

theorem lookup_withNewBlock_ne {key' : ToolCallKey} (h : key' ≠ key) :
    (withNewBlock m key).toolBlocks.lookup key' = m.toolBlocks.lookup key' :=
  AList.lookup_insert_ne h

theorem Tidy.withNewBlock (hm : Tidy m) : Tidy (withNewBlock m key) := by
  have hcases : ∀ {key' b},
      (AnthropicFaithfulness.withNewBlock m key).toolBlocks.lookup key' = some b →
      (key' = key ∧ b = ⟨m.blockIndex, true⟩) ∨ m.toolBlocks.lookup key' = some b := by
    intro key' b hb
    by_cases hkey : key' = key
    · subst hkey
      rw [lookup_withNewBlock] at hb
      exact .inl ⟨rfl, (Option.some.inj hb).symm⟩
    · rw [lookup_withNewBlock_ne hkey] at hb
      exact .inr hb
  refine ⟨?_, ?_, ?_⟩
  · intro key' b hb
    rcases hcases hb with ⟨-, rfl⟩ | hold
    · rfl
    · exact hm.isOpen hold
  · intro key' b hb
    rcases hcases hb with ⟨-, rfl⟩ | hold
    · exact Nat.lt_succ_self _
    · exact (hm.below hold).trans (Nat.lt_succ_self _)
  · intro key₁ key₂ b₁ b₂ h₁ h₂ hindex
    rcases hcases h₁ with ⟨rfl, rfl⟩ | hold₁
    · rcases hcases h₂ with ⟨rfl, rfl⟩ | hold₂
      · rfl
      · exact absurd hindex (hm.below hold₂).ne'
    · rcases hcases h₂ with ⟨rfl, rfl⟩ | hold₂
      · exact absurd hindex (hm.below hold₁).ne
      · exact hm.apart hold₁ hold₂ hindex

theorem admits_withNewBlock (htext : m.textBlockOpen = false)
    (hnew : m.toolBlocks.lookup key = none) :
    Admits Fits (ledger m) (.start m.blockIndex .toolUse) (ledger (withNewBlock m key)) := by
  have hnext : (ledger m).next = m.blockIndex := by
    rw [ledger, htext]
    rfl
  have hledger : ledger (withNewBlock m key) =
      ⟨(ledger m).next + 1, insert ((ledger m).next, .toolUse) (ledger m).openBlocks⟩ := by
    rw [hnext]
    refine Ledger.ext ?_ (Set.ext fun block => ?_)
    · change m.blockIndex + 1 + (if m.textBlockOpen = true then 1 else 0) = m.blockIndex + 1
      rw [htext]
      rfl
    · obtain ⟨i, kind⟩ := block
      simp only [ledger, htext, Set.mem_ofPred_eq, Set.mem_insert_iff, Prod.mk.injEq,
        Bool.false_eq_true, false_and, false_or, show (withNewBlock m key).textBlockOpen = false
        from htext]
      constructor
      · rintro ⟨key', hkey', rfl⟩
        by_cases hkey : key' = key
        · subst hkey
          rw [lookup_withNewBlock] at hkey'
          exact .inl ⟨(congrArg ToolBlock.index (Option.some.inj hkey')).symm, rfl⟩
        · rw [lookup_withNewBlock_ne hkey] at hkey'
          exact .inr ⟨key', hkey', rfl⟩
      · rintro (⟨rfl, rfl⟩ | ⟨key', hkey', rfl⟩)
        · exact ⟨key, lookup_withNewBlock, rfl⟩
        · refine ⟨key', ?_, rfl⟩
          rwa [lookup_withNewBlock_ne]
          rintro rfl
          rw [hnew] at hkey'
          cases hkey'
  rw [hledger, ← hnext]
  exact .start _ _

theorem Tidy.lookup_none (hm : Tidy m) (h : m.isToolBlockOpen key ≠ true) :
    m.toolBlocks.lookup key = none := by
  rw [isToolBlockOpen] at h
  rcases hlookup : m.toolBlocks.lookup key with _ | b
  · rfl
  · rw [hlookup] at h
    exact absurd (hm.isOpen hlookup) h

theorem newBlock_segment (hm : Tidy m) (htext : m.textBlockOpen = false)
    (hnew : m.toolBlocks.lookup (toolCallKey tc) = none) (id name : String) :
    Segment m [] [tc]
      (.contentBlockStart m.blockIndex (.toolUse id name) ::
        emitToolArgumentsDelta (toolCallKey tc) tc (withNewBlock m (toolCallKey tc)))
      (withNewBlock m (toolCallKey tc)) := by
  have hnew' : Tidy (withNewBlock m (toolCallKey tc)) := hm.withNewBlock
  have hargs := emitToolArgumentsDelta_segment hnew' lookup_withNewBlock
  have hkeys : ∀ key, key ∈ (withNewBlock m (toolCallKey tc)).toolBlocks ↔
      key ∈ m.toolBlocks ∨ key ∈ [toolCallKey tc] := by
    intro key
    rw [mem_singleton, or_comm]
    exact AList.mem_insert _
  refine ⟨rfl, hargs.tidy, .cons (admits_withNewBlock htext hnew) hargs.runs, ?_, hargs.texts, ?_,
    hargs.jsons, ⟨[toolCallKey tc], nodup_singleton _, ?_, hkeys, ?_⟩, ?_⟩
  · intro event hevent
    rcases mem_cons.mp hevent with rfl | hevent
    · rfl
    · exact hargs.blocks event hevent
  · intro key b hb
    rwa [lookup_withNewBlock_ne]
    rintro rfl
    rw [hnew] at hb
    cases hb
  · intro key hkey
    cases mem_singleton.mp hkey
    exact lookup_eq_none_iff.mp hnew
  · rw [map_singleton, blockOf_eq lookup_withNewBlock, emitToolArgumentsDelta]
    cases toolArguments tc <;> rfl
  · intro key
    rw [hkeys]
    simp [eq_comm]

/-- What a fragment of a call can do: add to its block, end the stream, or open a block. -/
theorem transformToolDelta_cases (h : transformToolDelta maxToolBlocks tc m = .ok (events, m')) :
    (m.isToolBlockOpen (toolCallKey tc) = true ∧
      events = emitToolArgumentsDelta (toolCallKey tc) tc m ∧ m' = m) ∨
    (m.isToolBlockOpen (toolCallKey tc) ≠ true ∧ extractToolIdAndName tc = none ∧
      events = [.error] ∧ m' = fail m) ∨
    ∃ id name, m.isToolBlockOpen (toolCallKey tc) ≠ true ∧
      extractToolIdAndName tc = some (id, name) ∧
      events = .contentBlockStart m.blockIndex (.toolUse id name) ::
        emitToolArgumentsDelta (toolCallKey tc) tc (withNewBlock m (toolCallKey tc)) ∧
      m' = withNewBlock m (toolCallKey tc) := by
  rw [transformToolDelta] at h
  by_cases hopen : m.isToolBlockOpen (toolCallKey tc) = true
  · rw [if_pos hopen] at h
    cases h
    exact .inl ⟨hopen, rfl, rfl⟩
  · rw [if_neg hopen, emitToolBlockStart] at h
    by_cases hmax : m.toolBlockCount ≥ maxToolBlocks
    · rw [if_pos hmax] at h
      cases h
    · rw [if_neg hmax] at h
      rcases hfields : extractToolIdAndName tc with _ | ⟨id, name⟩
      · rw [hfields] at h
        cases h
        exact .inr (.inl ⟨hopen, rfl, rfl, rfl⟩)
      · rw [hfields] at h
        dsimp only at h
        rcases hnext : incrementBlockIndex (m.withToolBlock (toolCallKey tc) ⟨m.blockIndex, true⟩)
          with e | next
        · rw [hnext] at h
          cases h
        · rw [hnext, incrementBlockIndex_ok hnext] at h
          cases h
          exact .inr (.inr ⟨id, name, hopen, rfl, rfl, rfl⟩)

theorem lookup_of_open (h : m.isToolBlockOpen key = true) :
    ∃ b, m.toolBlocks.lookup key = some b := by
  rw [isToolBlockOpen] at h
  rcases hlookup : m.toolBlocks.lookup key with _ | b
  · rw [hlookup] at h
    cases h
  · exact ⟨b, rfl⟩

theorem transformToolDelta_segment (hm : Tidy m) (htext : m.textBlockOpen = false)
    (h : transformToolDelta maxToolBlocks tc m = .ok (events, m')) (herror : .error ∉ events) :
    Segment m [] [tc] events m' ∧ m'.textBlockOpen = false := by
  obtain ⟨hopen, rfl, rfl⟩ | ⟨-, -, rfl, -⟩ | ⟨id, name, hclosed, -, rfl, rfl⟩ :=
    transformToolDelta_cases h
  · obtain ⟨b, hb⟩ := lookup_of_open hopen
    exact ⟨emitToolArgumentsDelta_segment hm hb, htext⟩
  · exact absurd (mem_singleton_self _) herror
  · exact ⟨newBlock_segment hm htext (hm.lookup_none hclosed) id name, htext⟩

theorem resume_ok {r : Outcome} {next : StreamMetadata → Outcome}
    (h : resume r next = .ok (events, m')) :
    ∃ sent m₁ later, r = .ok (sent, m₁) ∧ next m₁ = .ok (later, m') ∧ events = sent ++ later := by
  rcases r with e | ⟨sent, m₁⟩
  · cases h
  · rw [resume] at h
    rcases hnext : next m₁ with e | ⟨later, m₂⟩
    · rw [hnext] at h
      cases h
    · rw [hnext] at h
      cases h
      exact ⟨sent, m₁, later, rfl, hnext, rfl⟩

theorem not_failed_of_started (hstarted : m.phase = some .started) : m.isStreamFailed = false := by
  rw [isStreamFailed, hstarted]
  rfl

theorem isStarted_of_started (hstarted : m.phase = some .started) : m.isStarted = true := by
  rw [isStarted, hstarted]
  rfl

theorem Segment.goes {contents : List String} {calls : List Json}
    (h : Segment m contents calls events m') (hm : m.isStreamFailed = false) :
    m'.isStreamFailed = false := by
  rw [isStreamFailed, h.phase]
  exact hm

theorem transformToolDeltas_segment {toolCalls : List Json} (hm : Tidy m)
    (htext : m.textBlockOpen = false) (hgoes : m.isStreamFailed = false)
    (h : transformToolDeltas maxToolBlocks toolCalls m = .ok (events, m'))
    (herror : .error ∉ events) : Segment m [] toolCalls events m' := by
  induction toolCalls generalizing m events with
  | nil =>
    cases h
    exact SameBlocks.segment ⟨rfl, rfl, rfl, rfl⟩ hm
  | cons tc rest ih =>
    obtain ⟨sent, m₁, later, hfirst, hrest, rfl⟩ := resume_ok h
    rw [mem_append, not_or] at herror
    obtain ⟨hone, htext₁⟩ := transformToolDelta_segment hm htext hfirst herror.1
    have hgoes₁ := hone.goes hgoes
    rw [if_neg (by rw [hgoes₁]; decide)] at hrest
    exact hone.append (ih hone.tidy htext₁ hgoes₁ hrest herror.2)

end Calls

section Chunks

variable {c : Config} {m m' : StreamMetadata} {events : List StreamEvent} {chunk : Json}

theorem transformDelta_segment {maxToolBlocks : ℕ} {delta : Json} (hm : Tidy m)
    (hgoes : m.isStreamFailed = false)
    (h : transformDelta maxToolBlocks delta m = .ok (events, m')) (herror : .error ∉ events) :
    Segment m (((delta.get? "content").bind Json.asStr).toList)
      (((delta.get? "tool_calls").bind Json.asArr).getD []) events m' := by
  rw [transformDelta] at h
  obtain ⟨sent, m₁, later, hfirst, hrest, rfl⟩ := resume_ok h
  rw [mem_append, not_or] at herror
  have htexts : Segment m (((delta.get? "content").bind Json.asStr).toList) [] sent m₁ := by
    generalize (delta.get? "content").bind Json.asStr = found at hfirst ⊢
    rcases found with _ | content
    · cases hfirst
      exact SameBlocks.segment ⟨rfl, rfl, rfl, rfl⟩ hm
    · cases hfirst
      exact emitTextDelta_segment hm content
  have hcalls : Segment m₁ [] (((delta.get? "tool_calls").bind Json.asArr).getD []) later m' := by
    generalize (delta.get? "tool_calls").bind Json.asArr = found at hrest ⊢
    rcases found with _ | toolCalls
    · cases hrest
      exact SameBlocks.segment ⟨rfl, rfl, rfl, rfl⟩ htexts.tidy
    · obtain ⟨closing, m₂, deltas, hclose, hdeltas, rfl⟩ := resume_ok hrest
      obtain ⟨hclosed, htext⟩ := closeTextBlockIfOpen_segment htexts.tidy hclose
      have hsegment := transformToolDeltas_segment hclosed.tidy htext
        (hclosed.goes (htexts.goes hgoes)) hdeltas
        (fun hmem => herror.2 (mem_append_right _ hmem))
      exact hclosed.append hsegment
  have hboth := htexts.append hcalls
  rwa [append_nil, nil_append] at hboth

theorem noteFinish_same (choice : Json) : SameBlocks m (noteFinish c choice m) := by
  rw [noteFinish]
  rcases (choice.get? "finish_reason").bind Json.asStr with _ | reason <;>
    rcases (choice.get? "stop_reason").bind Json.asStr with _ | matched
  · exact ⟨rfl, rfl, rfl, rfl⟩
  · dsimp only
    split <;> exact ⟨rfl, rfl, rfl, rfl⟩
  · exact ⟨rfl, rfl, rfl, rfl⟩
  · dsimp only
    split <;> exact ⟨rfl, rfl, rfl, rfl⟩

theorem extractUsageTokens_same : SameBlocks m (extractUsageTokens chunk m) := by
  rw [extractUsageTokens]
  split <;> exact ⟨rfl, rfl, rfl, rfl⟩

theorem transformChunk_segment {id : ℕ} (hm : Tidy m) (hstarted : m.phase = some .started)
    (h : transformChunk c id chunk m = .ok (events, m')) (herror : .error ∉ events) :
    Segment m (contentOf chunk).toList (callsOf chunk) events m' := by
  have hgoes := not_failed_of_started hstarted
  rw [transformChunk, if_pos (isStarted_of_started hstarted), resume_silent] at h
  rw [contentOf, callsOf, deltaOf]
  generalize extractFirstChoice chunk = first at h ⊢
  rcases first with _ | choice
  · cases h
    exact extractUsageTokens_same.segment hm
  · obtain ⟨sent, m₁, later, hdelta, hlater, rfl⟩ := resume_ok h
    cases hlater
    rw [append_nil] at herror ⊢
    have hsegment : Segment m
        (((choice.get? "delta").bind (·.get? "content")).bind Json.asStr).toList
        ((((choice.get? "delta").bind (·.get? "tool_calls")).bind Json.asArr).getD []) sent m₁ := by
      generalize choice.get? "delta" = found at hdelta ⊢
      rcases found with _ | delta
      · cases hdelta
        exact SameBlocks.segment ⟨rfl, rfl, rfl, rfl⟩ hm
      · exact transformDelta_segment hm hgoes hdelta herror
    have hnoted := (noteFinish_same (c := c) (m := m₁) choice).segment hsegment.tidy
    have husage := (@extractUsageTokens_same _ chunk).segment hnoted.tidy
    have hall := (hsegment.append hnoted).append husage
    simpa using hall

end Chunks

section Closing

variable {m m' : StreamMetadata} {events : List StreamEvent} {key : ToolCallKey}

def Apart (m : StreamMetadata) : Prop :=
  ∀ {key key' b b'}, m.toolBlocks.lookup key = some b → m.toolBlocks.lookup key' = some b' →
    b.index = b'.index → key = key'

structure Stopping (m : StreamMetadata) (keys : List ToolCallKey) (events : List StreamEvent)
    (m' : StreamMetadata) : Prop where
  phase : m'.phase = m.phase
  text : m'.textBlockOpen = false
  apart : Apart m'
  runs : Runs Fits (ledger m) (events.filterMap entry) (ledger m')
  stops : ∀ event ∈ events, ∃ i, event = .contentBlockStop i
  left : ∀ {key i}, m'.toolBlocks.lookup key = some ⟨i, true⟩ →
    m.toolBlocks.lookup key = some ⟨i, true⟩ ∧ key ∉ keys

theorem closeToolBlock_open {index : ℕ} (htext : m.textBlockOpen = false) (hapart : Apart m)
    (hopen : m.toolBlocks.lookup key = some ⟨index, true⟩) :
    Stopping m [key] [.contentBlockStop index] (m.withToolBlock key ⟨index, false⟩) := by
  have hself : (m.withToolBlock key ⟨index, false⟩).toolBlocks.lookup key = some ⟨index, false⟩ :=
    AList.lookup_insert _
  have hother : ∀ {key'}, key' ≠ key →
      (m.withToolBlock key ⟨index, false⟩).toolBlocks.lookup key' = m.toolBlocks.lookup key' :=
    fun hne => AList.lookup_insert_ne hne
  have hindex : ∀ {key' b'}, (m.withToolBlock key ⟨index, false⟩).toolBlocks.lookup key' = some b' →
      ∃ b, m.toolBlocks.lookup key' = some b ∧ b.index = b'.index := by
    intro key' b' hb'
    by_cases hkey : key' = key
    · subst hkey
      rw [hself] at hb'
      cases hb'
      exact ⟨_, hopen, rfl⟩
    · rw [hother hkey] at hb'
      exact ⟨b', hb', rfl⟩
  have hleft : ∀ {key' i}, (m.withToolBlock key ⟨index, false⟩).toolBlocks.lookup key' =
      some ⟨i, true⟩ → m.toolBlocks.lookup key' = some ⟨i, true⟩ ∧ key' ≠ key := by
    intro key' i hb
    by_cases hkey : key' = key
    · subst hkey
      rw [hself] at hb
      cases hb
    · rw [hother hkey] at hb
      exact ⟨hb, hkey⟩
  refine ⟨rfl, htext, ?_, ?_, ?_, fun hb => ⟨(hleft hb).1, by simpa using (hleft hb).2⟩⟩
  · intro key₁ key₂ b₁ b₂ h₁ h₂ heq
    obtain ⟨b₁', hold₁, hi₁⟩ := hindex h₁
    obtain ⟨b₂', hold₂, hi₂⟩ := hindex h₂
    exact hapart hold₁ hold₂ (hi₁.trans (heq.trans hi₂.symm))
  · have hledger : ledger (m.withToolBlock key ⟨index, false⟩) =
        ⟨(ledger m).next, {b ∈ (ledger m).openBlocks | b.1 ≠ index}⟩ := by
      refine Ledger.ext rfl (Set.ext fun block => ?_)
      obtain ⟨i, kind⟩ := block
      simp only [ledger, htext, Set.mem_ofPred_eq, Bool.false_eq_true, false_and, false_or,
        show (m.withToolBlock key ⟨index, false⟩).textBlockOpen = false from htext]
      constructor
      · rintro ⟨key', hkey', hkind⟩
        obtain ⟨hold, hne⟩ := hleft hkey'
        exact ⟨⟨key', hold, hkind⟩, fun hi => hne (hapart hold hopen hi)⟩
      · rintro ⟨⟨key', hkey', hkind⟩, hne⟩
        refine ⟨key', ?_, hkind⟩
        rwa [hother]
        rintro rfl
        rw [hopen] at hkey'
        cases hkey'
        exact hne rfl
    rw [hledger]
    have hblock : (index, Kind.toolUse) ∈ (ledger m).openBlocks := .inr ⟨key, hopen, rfl⟩
    exact .one (.stop _ hblock)
  · intro event hevent
    exact ⟨index, mem_singleton.mp hevent⟩

theorem closeToolBlock_stopping (htext : m.textBlockOpen = false) (hapart : Apart m)
    (key : ToolCallKey) :
    Stopping m [key] (closeToolBlock key m).1 (closeToolBlock key m).2 := by
  rw [closeToolBlock]
  split
  · next index hopen => exact closeToolBlock_open htext hapart hopen
  · next hclosed =>
    refine ⟨rfl, htext, hapart, .nil _, fun event hevent => absurd hevent not_mem_nil, ?_⟩
    intro key' i hb
    refine ⟨hb, fun hkey => ?_⟩
    cases mem_singleton.mp hkey
    exact hclosed i hb

theorem closeToolBlocks_stopping (htext : m.textBlockOpen = false) (hapart : Apart m)
    (keys : List ToolCallKey) :
    Stopping m keys (closeToolBlocks keys m).1 (closeToolBlocks keys m).2 := by
  induction keys generalizing m with
  | nil =>
    exact ⟨rfl, htext, hapart, .nil _, fun event hevent => absurd hevent not_mem_nil,
      fun hb => ⟨hb, not_mem_nil⟩⟩
  | cons key rest ih =>
    have hone := closeToolBlock_stopping htext hapart key
    have hmore := ih hone.text hone.apart
    rw [closeToolBlocks]
    refine ⟨hmore.phase.trans hone.phase, hmore.text, hmore.apart, ?_, ?_, ?_⟩
    · rw [filterMap_append]
      exact hone.runs.append hmore.runs
    · intro event hevent
      rcases mem_append.mp hevent with hfirst | hsecond
      · exact hone.stops event hfirst
      · exact hmore.stops event hsecond
    · intro key' i hb
      obtain ⟨hmid, hrest⟩ := hmore.left hb
      obtain ⟨hold, hfirst⟩ := hone.left hmid
      refine ⟨hold, ?_⟩
      rw [mem_cons, not_or]
      exact ⟨fun heq => hfirst (mem_singleton.mpr heq), hrest⟩

theorem mem_openToolBlocks {i : ℕ} (h : m.toolBlocks.lookup key = some ⟨i, true⟩) :
    key ∈ m.openToolBlocks := by
  rw [openToolBlocks, mem_map]
  refine ⟨⟨key, ⟨i, true⟩⟩, ?_, rfl⟩
  rw [mem_insertionSort, mem_filter]
  exact ⟨AList.mem_lookup_iff.mp h, rfl⟩

def Closed (m : StreamMetadata) (events : List StreamEvent) : Prop :=
  ∃ stops final stopReason stopSequence usage,
    events = stops ++ [.messageDelta stopReason stopSequence usage, .messageStop] ∧
    (∀ event ∈ stops, ∃ i, event = .contentBlockStop i) ∧
    Runs Fits (ledger m) (stops.filterMap entry) ⟨final, ∅⟩

structure Shut (m : StreamMetadata) : Prop where
  started : m.phase = some .started
  text : m.textBlockOpen = false
  tools : ∀ key, m.isToolBlockOpen key = false

theorem emitDone_closed {id : ℕ} (hm : Tidy m) (hstarted : m.phase = some .started)
    (h : emitDone id m = .ok (events, m')) : Closed m events ∧ Shut m' := by
  rw [emitDone, if_neg (by rw [not_failed_of_started hstarted]; decide),
    if_pos (isStarted_of_started hstarted), resume_silent] at h
  obtain ⟨stops, m₁, last, hfinal, hlast, rfl⟩ := resume_ok h
  cases hlast
  rw [emitFinalBlockStop] at hfinal
  obtain ⟨closing, m₂, tools, hclose, htools, rfl⟩ := resume_ok hfinal
  obtain ⟨hclosed, htext⟩ := closeTextBlockIfOpen_segment hm hclose
  have hstopping := closeToolBlocks_stopping htext hclosed.tidy.apart m₂.openToolBlocks
  rw [Except.ok.inj htools] at hstopping
  have hleft : ∀ key i, m'.toolBlocks.lookup key ≠ some ⟨i, true⟩ := by
    intro key i hkey
    obtain ⟨hold, hrest⟩ := hstopping.left hkey
    exact hrest (mem_openToolBlocks hold)
  have hnone : (ledger m').openBlocks = ∅ := by
    refine Set.eq_empty_iff_forall_notMem.mpr ?_
    rintro ⟨i, kind⟩ (⟨hopen, -⟩ | ⟨key, hkey, -⟩)
    · rw [hstopping.text] at hopen
      cases hopen
    · exact hleft key i hkey
  have hshut : Shut m' := by
    refine ⟨hstopping.phase.trans (hclosed.phase.trans hstarted), hstopping.text, fun key => ?_⟩
    rw [isToolBlockOpen]
    rcases hlookup : m'.toolBlocks.lookup key with _ | ⟨i, _ | _⟩
    · rfl
    · rfl
    · exact absurd hlookup (hleft key i)
  refine ⟨⟨closing ++ tools, (ledger m').next, _, _, _, rfl, ?_, ?_⟩, hshut⟩
  · intro event hevent
    rcases mem_append.mp hevent with hfirst | hsecond
    · rw [closeTextBlockIfOpen] at hclose
      split at hclose
      · split at hclose
        · cases hclose
        · cases hclose
          exact ⟨_, mem_singleton.mp hfirst⟩
      · cases hclose
        cases hfirst
    · exact hstopping.stops event hsecond
  · rw [filterMap_append, ← hnone]
    exact hclosed.runs.append hstopping.runs

end Closing

section Erasing

variable {events : List StreamEvent}

theorem filterMap_eraseId {α : Type} (view : StreamEvent → Option α)
    (hview : ∀ id model id', view (.messageStart id model) = view (.messageStart id' model))
    (events : List StreamEvent) : (events.map eraseId).filterMap view = events.filterMap view := by
  rw [filterMap_map]
  refine filterMap_congr fun event _ => ?_
  cases event with
  | messageStart id model => exact hview 0 model id
  | _ => rfl

theorem map_place_eraseId (events : List StreamEvent) :
    (events.map eraseId).map place = events.map place := by
  rw [map_map]
  refine map_congr_left fun event _ => ?_
  cases event <;> rfl

theorem faithful_eraseId {chunks : List Json} (h : Faithful chunks (events.map eraseId)) :
    Faithful chunks events := by
  have hentry := filterMap_eraseId entry (fun _ _ _ => rfl) events
  have htext := filterMap_eraseId textOf (fun _ _ _ => rfl) events
  have hjson := filterMap_eraseId jsonOf (fun _ _ _ => rfl) events
  have htool := filterMap_eraseId toolStart (fun _ _ _ => rfl) events
  obtain ⟨hshape, hbracketed, hstopped, htexts, hcalls⟩ := h
  rw [map_place_eraseId] at hshape
  rw [hentry] at hbracketed hstopped
  rw [htext] at htexts
  simp only [sentTo, hjson, htool] at hcalls
  exact ⟨hshape, hbracketed, hstopped, htexts, hcalls⟩

theorem Segment.erased {m m' : StreamMetadata} {contents : List String} {calls : List Json}
    (h : Segment m contents calls events m') :
    Segment m contents calls (events.map eraseId) m' := by
  refine ⟨h.phase, h.tidy, ?_, ?_, ?_, h.keeps, ?_, ?_, h.called⟩
  · rw [filterMap_eraseId entry fun _ _ _ => rfl]
    exact h.runs
  · intro event hevent
    obtain ⟨raw, hraw, rfl⟩ := mem_map.mp hevent
    have hplace := h.blocks raw hraw
    cases raw <;> exact hplace
  · rw [filterMap_eraseId textOf fun _ _ _ => rfl]
    exact h.texts
  · rw [filterMap_eraseId jsonOf fun _ _ _ => rfl]
    exact h.jsons
  · rw [filterMap_eraseId toolStart fun _ _ _ => rfl]
    exact h.opened

end Erasing

section Streams

variable {c : Config} {fromStr : Bytes → Except String Json} {m m' : StreamMetadata}
  {events : List StreamEvent} {data : Bytes}

theorem listen_ok (hgoes : m.isStreamFailed = false)
    (h : listen c fromStr m data = .ok (events, m')) :
    ∃ raw, processData c fromStr 0 data m = .ok (raw, m') ∧ events = raw.map eraseId := by
  rw [AnthropicChunking.listen, if_neg (by rw [hgoes]; decide)] at h
  rcases hraw : processData c fromStr 0 data m with e | ⟨raw, m₁⟩
  · rw [hraw] at h
    cases h
  · rw [hraw] at h
    cases h
    exact ⟨raw, rfl, rfl⟩

theorem listen_segment {chunk : Json} (hm : Tidy m) (hstarted : m.phase = some .started)
    (hdata : data ≠ openaiDoneSentinel) (hchunk : fromStr data = .ok chunk)
    (h : listen c fromStr m data = .ok (events, m')) (herror : .error ∉ events) :
    Segment m (contentOf chunk).toList (callsOf chunk) events m' := by
  obtain ⟨raw, hraw, rfl⟩ := listen_ok (not_failed_of_started hstarted) h
  rw [processData, if_neg hdata, transformDataEvent, hchunk] at hraw
  dsimp only at hraw
  split at hraw
  · have hclean : .error ∉ raw := fun hmem => herror (mem_map.mpr ⟨_, hmem, rfl⟩)
    exact (transformChunk_segment hm hstarted hraw hclean).erased
  · cases hraw

theorem listen_segments {payloads : List Bytes} {chunks : List Json} (hm : Tidy m)
    (hstarted : m.phase = some .started) (hsentinel : openaiDoneSentinel ∉ payloads)
    (hchunks : payloads.map fromStr = chunks.map .ok)
    (h : run (listen c fromStr) m payloads = .ok (events, m')) (herror : .error ∉ events) :
    Segment m (chunks.filterMap contentOf) (chunks.flatMap callsOf) events m' := by
  induction payloads generalizing m chunks events with
  | nil =>
    cases map_eq_nil_iff.mp hchunks.symm
    cases h
    exact SameBlocks.segment ⟨rfl, rfl, rfl, rfl⟩ hm
  | cons data rest ih =>
    obtain ⟨chunk, more, rfl, hfirst, hmore⟩ := map_eq_cons_iff.mp hchunks.symm
    obtain ⟨sent, m₁, later, hone, hrest, rfl⟩ := ChunkedRuns.run_cons_ok h
    rw [mem_append, not_or] at herror
    rw [mem_cons, not_or] at hsentinel
    have hsegment := listen_segment hm hstarted (Ne.symm hsentinel.1) hfirst.symm hone herror.1
    have hall := hsegment.append
      (ih hsegment.tidy (hsegment.phase.trans hstarted) hsentinel.2 hmore.symm hrest herror.2)
    rw [flatMap_cons, filterMap_cons]
    cases hcontent : contentOf chunk with
    | none => simpa only [hcontent, Option.toList_none, nil_append] using hall
    | some content => simpa only [hcontent, Option.toList_some, singleton_append] using hall

theorem resume_at {sent : List StreamEvent} {f g : StreamMetadata → Outcome} (h : f m = g m) :
    resume (.ok (sent, m)) f = resume (.ok (sent, m)) g := by
  rw [resume, resume, h]

theorem isStarted_started (m : StreamMetadata) : (m.withPhase .started).isStarted = true := rfl

theorem not_failed_started (m : StreamMetadata) : ¬(m.withPhase .started).isStreamFailed = true :=
  Bool.false_ne_true

theorem not_started_of_unstarted (hphase : m.phase = none) : ¬m.isStarted = true := by
  rw [isStarted, hphase]
  decide

theorem not_failed_of_unstarted (hphase : m.phase = none) : ¬m.isStreamFailed = true := by
  rw [isStreamFailed, hphase]
  decide

theorem transformChunk_unstarted (hphase : m.phase = none) (chunk : Json) :
    transformChunk c 0 chunk m =
      resume (.ok ([.messageStart 0 (((chunk.get? "model").bind Json.asStr).getD "")],
        m.withPhase .started)) (transformChunk c 0 chunk) := by
  rw [transformChunk, if_neg (not_started_of_unstarted hphase)]
  refine resume_at ?_
  rw [transformChunk, if_pos (isStarted_started m), resume_silent]

theorem emitDone_unstarted (hphase : m.phase = none) :
    emitDone 0 m = resume (.ok ([.messageStart 0 ""], m.withPhase .started)) (emitDone 0) := by
  rw [emitDone, if_neg (not_failed_of_unstarted hphase), if_neg (not_started_of_unstarted hphase)]
  refine resume_at ?_
  rw [emitDone, if_neg (not_failed_started m), if_pos (isStarted_started m), resume_silent]

theorem processData_unstarted (hphase : m.phase = none) (data : Bytes) :
    ∃ model, processData c fromStr 0 data m =
      resume (.ok ([.messageStart 0 model], m.withPhase .started))
        (processData c fromStr 0 data) := by
  by_cases hdone : data = openaiDoneSentinel
  · refine ⟨"", ?_⟩
    rw [processData, if_pos hdone, emitDone_unstarted hphase]
    refine resume_at ?_
    rw [processData, if_pos hdone]
  · rcases hchunk : fromStr data with e | chunk
    · refine ⟨"", ?_⟩
      rw [processData, if_neg hdone, transformDataEvent, hchunk, resume, processData, if_neg hdone,
        transformDataEvent, hchunk]
    · refine ⟨((chunk.get? "model").bind Json.asStr).getD "", ?_⟩
      rw [processData, if_neg hdone, transformDataEvent, hchunk]
      dsimp only
      split
      · next hobj =>
        rw [transformChunk_unstarted hphase]
        refine resume_at ?_
        rw [processData, if_neg hdone, transformDataEvent, hchunk]
        exact (if_pos hobj).symm
      · next hobj =>
        rw [resume, processData, if_neg hdone, transformDataEvent, hchunk]
        dsimp only
        rw [if_neg hobj]

theorem listen_unstarted (hphase : m.phase = none) (data : Bytes) :
    ∃ model, listen c fromStr m data =
      resume (.ok ([.messageStart 0 model], m.withPhase .started))
        fun m => listen c fromStr m data := by
  obtain ⟨model, hmodel⟩ := @processData_unstarted c fromStr m hphase data
  refine ⟨model, ?_⟩
  rw [AnthropicChunking.listen, if_neg (not_failed_of_unstarted hphase), hmodel, erased_resume]
  exact resume_at (by rw [AnthropicChunking.listen, if_neg (not_failed_started m)])

/-- Empty fragments are not sent and add nothing. -/
theorem join_arguments (calls : List Json) (key : ToolCallKey) :
    String.join (calls.filterMap fun tc =>
      if toolCallKey tc = key then toolArguments tc else none) =
      String.join (cameFor key calls) := by
  induction calls with
  | nil => rfl
  | cons tc rest ih =>
    rw [cameFor] at ih ⊢
    rw [filterMap_cons, filterMap_cons]
    by_cases hkey : toolCallKey tc = key
    · rw [if_pos hkey, if_pos hkey, toolArguments, ← argumentsOf]
      rcases argumentsOf tc with _ | args
      · exact ih
      · by_cases hempty : args = ""
        · have hnone : (some args).filter (fun args => !args.isEmpty) = none := by
            simp [hempty]
          rw [hnone]
          dsimp only
          rw [String.join_cons, hempty, String.empty_append, ih]
        · have hsome : (some args).filter (fun args => !args.isEmpty) = some args := by
            simp [hempty]
          rw [hsome]
          dsimp only
          rw [String.join_cons, String.join_cons, ih]
    · rw [if_neg hkey, if_neg hkey]
      exact ih

/-- The fragments sent to the block of a call are those of the call. -/
theorem Segment.sentTo {contents : List String} {calls : List Json}
    (h : Segment m contents calls events m') {key : ToolCallKey} (hkey : key ∈ m'.toolBlocks) :
    String.join (sentTo (blockOf m' key) events) = String.join (cameFor key calls) := by
  rw [AnthropicFaithfulness.sentTo, h.jsons, filterMap_filterMap, ← join_arguments]
  refine congrArg String.join (filterMap_congr fun tc htc => ?_)
  have hcall : toolCallKey tc ∈ m'.toolBlocks := (h.called _).mpr (.inr ⟨tc, htc, rfl⟩)
  have hblock : blockOf m' (toolCallKey tc) = blockOf m' key ↔ toolCallKey tc = key := by
    refine ⟨fun heq => ?_, fun heq => by rw [heq]⟩
    obtain ⟨b, hb⟩ := Option.isSome_iff_exists.mp (AList.lookup_isSome.mpr hcall)
    obtain ⟨b', hb'⟩ := Option.isSome_iff_exists.mp (AList.lookup_isSome.mpr hkey)
    rw [blockOf_eq hb, blockOf_eq hb'] at heq
    exact h.tidy.apart hb hb' heq
  rw [fragmentAt]
  rcases toolArguments tc with _ | args
  · rw [ite_self]
    rfl
  · rw [Option.map_some, Option.bind_some]
    simp only [hblock]

def opening : StreamMetadata := StreamMetadata.fresh.withPhase .started

theorem run_opening {all : List Bytes} (hall : all ≠ [])
    (h : run (listen c fromStr) .fresh all = .ok (events, m')) :
    ∃ model later, events = .messageStart 0 model :: later ∧
      run (listen c fromStr) opening all = .ok (later, m') := by
  cases all with
  | nil => exact absurd rfl hall
  | cons first rest =>
    obtain ⟨model, hfirst⟩ := @listen_unstarted c fromStr StreamMetadata.fresh rfl first
    rw [run, hfirst, ChunkedRuns.resume_assoc] at h
    obtain ⟨start, m₁, later, hopen, hrest, hsplit⟩ := resume_ok h
    cases hopen
    exact ⟨model, later, hsplit, hrest⟩

theorem opening_tidy : Tidy opening := by
  have hnone : ∀ key, opening.toolBlocks.lookup key = none := fun key => AList.lookup_empty key
  refine ⟨?_, ?_, ?_⟩
  · intro key b hb
    rw [hnone] at hb
    cases hb
  · intro key b hb
    rw [hnone] at hb
    cases hb
  · intro key key' b b' hb
    rw [hnone] at hb
    cases hb

theorem ledger_opening : ledger opening = Ledger.empty := by
  refine Ledger.ext rfl (Set.eq_empty_iff_forall_notMem.mpr ?_)
  rintro ⟨i, kind⟩ (⟨hopen, -⟩ | ⟨key, hkey, -⟩)
  · cases hopen
  · have hnone : opening.toolBlocks.lookup key = none := AList.lookup_empty key
    rw [hnone] at hkey
    cases hkey

theorem Closed.erased (h : Closed m events) : Closed m (events.map eraseId) := by
  obtain ⟨stops, final, stopReason, stopSequence, usage, rfl, hstops, hruns⟩ := h
  have hsame : stops.map eraseId = stops := by
    refine Eq.trans (map_congr_left fun event hevent => ?_) (map_id stops)
    obtain ⟨i, rfl⟩ := hstops event hevent
    rfl
  refine ⟨stops, final, stopReason, stopSequence, usage, ?_, hstops, hruns⟩
  rw [map_append, hsame]
  rfl

theorem filterMap_message {α : Type} (view : StreamEvent → Option α)
    {start delta stop : StreamEvent} (hstart : view start = none) (hdelta : view delta = none)
    (hstop : view stop = none) (body stops : List StreamEvent) :
    (start :: (body ++ (stops ++ [delta, stop]))).filterMap view =
      body.filterMap view ++ stops.filterMap view := by
  rw [filterMap_cons_none hstart, filterMap_append, filterMap_append, filterMap_cons_none hdelta,
    filterMap_cons_none hstop, filterMap_nil, append_nil]

/-- A start, the blocks of the chunks and what closes them are a faithful message. -/
theorem faithful_of_parts {chunks : List Json} {id : ℕ} {model : String}
    {body close : List StreamEvent}
    (hbody : Segment opening (chunks.filterMap contentOf) (chunks.flatMap callsOf) body m')
    (hclose : Closed m' close) : Faithful chunks (.messageStart id model :: (body ++ close)) := by
  obtain ⟨stops, final, stopReason, stopSequence, usage, rfl, hstops, hruns⟩ := hclose
  have hplaces : ∀ event ∈ body ++ stops, place event = .block := by
    intro event hevent
    rcases mem_append.mp hevent with hfirst | hsecond
    · exact hbody.blocks event hfirst
    · obtain ⟨i, rfl⟩ := hstops event hsecond
      rfl
  have hquiet : ∀ {α : Type} (view : StreamEvent → Option α),
      (∀ i, view (.contentBlockStop i) = none) → stops.filterMap view = [] := by
    intro α view hview
    refine filterMap_eq_nil_iff.mpr fun event hevent => ?_
    obtain ⟨i, rfl⟩ := hstops event hevent
    exact hview i
  have hlog : (StreamEvent.messageStart id model ::
      (body ++ (stops ++ [.messageDelta stopReason stopSequence usage, .messageStop]))).filterMap
        entry = body.filterMap entry ++ stops.filterMap entry :=
    filterMap_message entry rfl rfl rfl body stops
  have hrun : Runs Fits Ledger.empty (body.filterMap entry ++ stops.filterMap entry)
      ⟨final, ∅⟩ := by
    rw [← ledger_opening]
    exact hbody.runs.append hruns
  refine ⟨⟨(body ++ stops).length, ?_⟩, ⟨final, ?_⟩, ?_, ?_, ?_⟩
  · have hblocks : (body ++ stops).map place = List.replicate (body ++ stops).length .block := by
      rw [eq_replicate_iff, length_map]
      refine ⟨rfl, fun where' hwhere => ?_⟩
      obtain ⟨event, hevent, rfl⟩ := mem_map.mp hwhere
      exact hplaces event hevent
    rw [← hblocks]
    simp [place]
  · rw [hlog]
    exact hrun.bracketed
  · intro i kind hstart
    rw [hlog] at hstart ⊢
    exact hrun.bracketed.count_stop rfl hstart
  · refine congrArg String.join (Eq.trans ?_ hbody.texts)
    rw [filterMap_message textOf rfl rfl rfl, hquiet textOf fun _ => rfl, append_nil]
  · obtain ⟨keys, hnodup, -, hkeys, hstarts⟩ := hbody.opened
    have hempty : ∀ key, key ∉ opening.toolBlocks := fun key => AList.notMem_empty key
    have hmem : ∀ key, key ∈ keys ↔ key ∈ m'.toolBlocks := fun key =>
      ⟨fun hkey => (hkeys key).mpr (.inr hkey),
        fun hkey => ((hkeys key).mp hkey).resolve_left (hempty key)⟩
    refine ⟨keys, blockOf m', hnodup, fun key => ?_, ?_, fun key hkey => ?_⟩
    · rw [hmem, hbody.called]
      exact or_iff_right (hempty key)
    · rw [← hstarts, filterMap_message toolStart rfl rfl rfl, hquiet toolStart fun _ => rfl,
        append_nil]
    · rw [← hbody.sentTo ((hmem key).mp hkey), sentTo, sentTo, filterMap_message jsonOf rfl rfl rfl,
        hquiet jsonOf fun _ => rfl, append_nil]

end Streams

/-- The calls of a response whose data events are chunks and then the sentinel, none of which is
refused, send one message that says what the chunks say. -/
theorem stream_faithful {c : Config} {fromStr : Bytes → Except String Json} {calls : List Call}
    {payloads : List Bytes} {chunks : List Json} {sent : List StreamEvent} {m : Metadata}
    (hcalls : calls ≠ [])
    (hdata : heard (calls.flatMap Call.bytes) = payloads ++ [openaiDoneSentinel])
    (hsentinel : openaiDoneSentinel ∉ payloads) (hchunks : payloads.map fromStr = chunks.map .ok)
    (hsent : respond c fromStr calls .fresh = .ok (sent, m)) (herror : .error ∉ sent) :
    Faithful chunks sent := by
  have hlisten := respond_ok hcalls rfl hsent
  change run (listen c fromStr) .fresh (heard (calls.flatMap Call.bytes)) = _ at hlisten
  have hclean : .error ∉ sent.map eraseId := by
    intro hmem
    obtain ⟨event, hevent, heq⟩ := mem_map.mp hmem
    cases event <;> cases heq
    exact herror hevent
  rw [hdata] at hlisten
  obtain ⟨model, events, hsplit, hrun⟩ := run_opening (by simp) hlisten
  rw [run_append] at hrun
  obtain ⟨body, m₁, close, hbody, hclose, rfl⟩ := resume_ok hrun
  rw [hsplit, mem_cons, mem_append, not_or, not_or] at hclean
  have hsegment := listen_segments opening_tidy rfl hsentinel hchunks hbody hclean.2.1
  have hstarted : m₁.phase = some .started := hsegment.phase
  obtain ⟨close', m₂, later, hdone, hlater, rfl⟩ := ChunkedRuns.run_cons_ok hclose
  cases hlater
  obtain ⟨raw, hraw, rfl⟩ := listen_ok (not_failed_of_started hstarted) hdone
  rw [processData, if_pos rfl] at hraw
  obtain ⟨hclosed, -⟩ := emitDone_closed hsegment.tidy hstarted hraw
  refine faithful_eraseId ?_
  rw [hsplit, append_nil]
  exact faithful_of_parts hsegment hclosed.erased

def textChunk : Json :=
  .obj [("choices", .arr [.obj [("delta", .obj [("content", .str "hi")])]])]

def callsChunk : Json :=
  .obj [("choices", .arr [.obj [("delta", .obj [("tool_calls", .arr [
    .obj [("index", .ofNat 0), ("id", .str "a"), ("function", .obj [("name", .str "f")])],
    .obj [("index", .ofNat 1), ("id", .str "b"),
      ("function", .obj [("name", .str "g"), ("arguments", .str "12")])]])])]])]

def readSample (data : Bytes) : Except String Json :=
  if data = ascii "text" then .ok textChunk
  else if data = ascii "calls" then .ok callsChunk else .error "expected value"

def sampleCalls : List Call :=
  [⟨7, ascii "data: text\n\ndata: calls\n"⟩, ⟨8, ascii "\ndata: [DONE]\n\n"⟩]

theorem stream_faithful_sample :
    ∃ sent m, respond ⟨64, 2, []⟩ readSample sampleCalls .fresh = .ok (sent, m) ∧
      sent.length = 11 ∧ Faithful [textChunk, callsChunk] sent := by
  have hsize : (respond ⟨64, 2, []⟩ readSample sampleCalls .fresh).toOption.map (fun r =>
      (r.1.length, decide (.error ∈ r.1))) = some (11, false) := by decide +kernel
  rcases hsent : respond ⟨64, 2, []⟩ readSample sampleCalls .fresh with e | ⟨sent, m⟩
  · rw [hsent] at hsize
    cases hsize
  rw [hsent] at hsize
  obtain ⟨hlength, herror⟩ := Prod.mk.inj (Option.some.inj hsize)
  refine ⟨sent, m, rfl, hlength, ?_⟩
  have hheard : heard (sampleCalls.flatMap Call.bytes) =
      [ascii "text", ascii "calls"] ++ [openaiDoneSentinel] := by decide +kernel
  exact stream_faithful (by decide) hheard (by decide +kernel) rfl hsent
    (of_decide_eq_false herror)

end AnthropicFaithfulness
